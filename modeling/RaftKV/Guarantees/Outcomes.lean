import RaftKV.Bookkeeping.Runs
import RaftKV.Guarantees.Reads

/-!
# Outcomes of calls

What callers of a node can rely on, for every run : its proposals and its reads are answered
once or held, and a success has its reason.

* `proposal_outcomes` : a refused batch changes nothing; a callback is invoked at most once, and
  with success only for the very entry that was applied and with its reply; the pending table
  stays within its bounds and is empty unless the node is leader.
* `read_lifecycle` : a read is answered once or held in one queue, there is at most one round, a
  success was confirmed by the lease or by a majority, and a node that steps down or stops holds
  nothing.
* `pending_reads_ahead` : without lease reads, a read that waits is not yet applied. With them it
  may be, behind a callback (`lease_read_waits`) or behind a later read (`lease_read_overtakes`).
-/

namespace RaftKV

open RaftM GhostLogic Accounts
open Setting (Idle)
open Consensus (Decided)

variable {M : Membership} {v : ℤ}

/-! ## Answers in a trace -/

/-- The callback of a proposal is invoked at a place of the trace. -/
def ProposalDone (t : List (ℤ × Event)) (v : ℤ) (call j : ℕ) : Prop :=
  ∃ index command term ok reply, t[j]? = some (v, .proposal call index command term ok reply)

/-- The callback of a read is invoked at a place of the trace. -/
def ReadDone (t : List (ℤ × Event)) (v : ℤ) (call j : ℕ) : Prop :=
  ∃ ok readIndex lastApplied error, t[j]? = some (v, .readDone call ok readIndex lastApplied error)

/-- The process of a node has run since a place of the trace. -/
def SameProcess (t : List (ℤ × Event)) (v : ℤ) (call : ℕ) : Prop :=
  ∀ j, call < j → t[j]? ≠ some (v, .booted)

section Trace

variable {t : List (ℤ × Event)} {l : List ℕ} {call : ℕ}

theorem proposalDone_iff {j : ℕ} : ProposalDone t v call j ↔
    ∃ x, t[j]? = some x ∧ (proposalCalls v).closes x = some call := by
  constructor
  · rintro ⟨index, command, term, ok, reply, hj⟩
    exact ⟨_, hj, callsOf_closes ..⟩
  rintro ⟨⟨w, e⟩, hj, hc⟩
  by_cases hw : w = v
  · subst hw
    rw [proposalCalls, callsOf_closes] at hc
    cases e <;> cases hc
    exact ⟨_, _, _, _, _, hj⟩
  · simp [proposalCalls, callsOf, hw] at hc

theorem readDone_iff {j : ℕ} : ReadDone t v call j ↔
    ∃ x, t[j]? = some x ∧ (readCalls v).closes x = some call := by
  constructor
  · rintro ⟨ok, readIndex, lastApplied, error, hj⟩
    exact ⟨_, hj, callsOf_closes ..⟩
  rintro ⟨⟨w, e⟩, hj, hc⟩
  by_cases hw : w = v
  · subst hw
    rw [readCalls, callsOf_closes] at hc
    cases e <;> cases hc
    exact ⟨_, _, _, _, hj⟩
  · simp [readCalls, callsOf, hw] at hc

variable {opens : Event → Bool} {closes : Event → Option ℕ}

/-- A close is not a start of a process. -/
theorem drops_of_closes (hboot : closes .booted = none) (x : ℤ × Event)
    (hc : ((callsOf v opens closes).closes x).isSome) :
    (callsOf v opens closes).drops x = false := by
  obtain ⟨w, e⟩ := x
  by_cases hw : w = v
  · subst hw
    rw [callsOf_closes] at hc
    rw [callsOf_drops]
    cases e with
    | booted =>
      rw [hboot] at hc
      cases hc
    | _ => rfl
  · simp [callsOf, hw]

theorem drops_of_sameProcess (hsame : SameProcess t v call) (j : ℕ) (x : ℤ × Event) (hlt : call < j)
    (hj : t[j]? = some x) : (callsOf v opens closes).drops x = false := by
  obtain ⟨w, e⟩ := x
  by_cases hw : w = v
  · subst hw
    rw [callsOf_drops]
    cases e with
    | booted => exact absurd hj (hsame j hlt)
    | _ => rfl
  · simp [callsOf, hw]

theorem proposal_done_xor_held (hl : Open (proposalCalls v) t l) {index term : ℤ} {command : Bytes}
    (hcall : t[call]? = some (v, .proposed index term command true))
    (hsame : SameProcess t v call) :
    Xor (∃ j, ProposalDone t v call j) (call ∈ l) := by
  simp only [proposalDone_iff]
  exact hl.closed_xor_mem (drops_of_closes rfl)
    ⟨_, hcall, callsOf_drops .., callsOf_closes .., callsOf_opens ..⟩ (drops_of_sameProcess hsame)

theorem proposal_done_once (hl : Open (proposalCalls v) t l) {i j : ℕ}
    (hi : ProposalDone t v call i) (hj : ProposalDone t v call j) : i = j := by
  obtain ⟨x, hx, hcx⟩ := proposalDone_iff.mp hi
  obtain ⟨y, hy, hcy⟩ := proposalDone_iff.mp hj
  exact hl.closed_once hx hy (drops_of_closes rfl x (by rw [← proposalCalls, hcx]; rfl))
    (drops_of_closes rfl y (by rw [← proposalCalls, hcy]; rfl)) hcx hcy

theorem read_done_xor_held (hl : Open (readCalls v) t l) {lease : Bool}
    (hcall : t[call]? = some (v, .readCalled lease)) (hsame : SameProcess t v call) :
    Xor (∃ j, ReadDone t v call j) (call ∈ l) := by
  simp only [readDone_iff]
  exact hl.closed_xor_mem (drops_of_closes rfl)
    ⟨_, hcall, callsOf_drops .., callsOf_closes .., callsOf_opens ..⟩ (drops_of_sameProcess hsame)

theorem read_done_once (hl : Open (readCalls v) t l) {i j : ℕ} (hi : ReadDone t v call i)
    (hj : ReadDone t v call j) : i = j := by
  obtain ⟨x, hx, hcx⟩ := readDone_iff.mp hi
  obtain ⟨y, hy, hcy⟩ := readDone_iff.mp hj
  exact hl.closed_once hx hy (drops_of_closes rfl x (by rw [← readCalls, hcx]; rfl))
    (drops_of_closes rfl y (by rw [← readCalls, hcy]; rfl)) hcx hcy

end Trace

/-! ## Proposals -/

theorem proposeBatch_refused {c c' : Context} {ps : List Proposal} {code : ℤ}
    (hlast : 0 ≤ c.log.lastIndex) (hrun : proposeBatch ps c = .ok code c') (hneg : code < 0) :
    c' = c := by
  have hwp : wp (proposeBatch ps) (fun code c' => code < 0 → c' = c) (fun _ _ => True) c := by
    rw [proposeBatch, wp_bind, getNode, wp_bind, wp_get, wp_pure, wp_bind, getLog, wp_bind, wp_get,
      wp_pure]
    cases c.node.admission ps with
    | error code => exact fun _ => rfl
    | ok bytes =>
      dsimp only
      split_ifs
      · trivial
      -- an admitted batch returns its first index, whatever it does before
      · iterate 5
          rw [wp_bind]
          refine wp_any fun _ _ => ?_
        exact fun hcode => absurd hcode (by omega)
  exact wp_of_ok hwp hrun hneg

/-- The pending table of a process of node `v` : its rows are admitted proposals, each proposal
with a callback is answered or in one row, and the table is within its bounds. -/
structure TableFine (t : List (ℤ × Event)) (v : ℤ) (n : Node) (lastIndex : ℤ) : Prop where
  admitted : ∀ row ∈ n.pending,
    t[row.2.call]? = some (v, .proposed row.1 row.2.term row.2.command row.2.callback.isSome)
  held : ∀ call index term command, t[call]? = some (v, .proposed index term command true) →
    SameProcess t v call →
    Xor (∃ j, ProposalDone t v call j) (∃ row ∈ n.pending, row.2.call = call)
  once : (proposalsHeld n.pending).Nodup
  bytes : n.pendingBytes = pendingSize n.pending
  length_le : n.pending.length ≤ kMaxPending
  bytes_le : n.pendingBytes ≤ kMaxPendingBytes
  range : ∀ row ∈ n.pending, n.lastApplied < row.1 ∧ row.1 ≤ lastIndex
  idle : n.isLeader = false → n.pending = []

/-- The calls of rows with a callback. -/
theorem mem_proposalsHeld {items : List (ℤ × Pending)} {call : ℕ} :
    call ∈ proposalsHeld items ↔
      ∃ row ∈ items, row.2.call = call ∧ row.2.callback.isSome = true := by
  simp only [proposalsHeld, List.mem_filterMap, Option.map_eq_some_iff]
  constructor
  · rintro ⟨row, hrow, callback, hcb, rfl⟩
    exact ⟨row, hrow, rfl, by rw [hcb]; rfl⟩
  · rintro ⟨row, hrow, rfl, hcb⟩
    obtain ⟨callback, hcb⟩ := Option.isSome_iff_exists.mp hcb
    exact ⟨row, hrow, callback, hcb, rfl⟩

/-- A process that is not leader is idle. -/
theorem Setting.ClusterOK.idle_of_isLeader {S : Setting} {s : Cluster} {Γ : Ghost} {time : ℤ}
    {p : Process} (h : S.ClusterOK s Γ time) (hp : s.up v = some p)
    (hlead : p.node.isLeader = false) : Idle p.node := by
  refine h.idle v p hp fun hrole => ?_
  have hrun := (h.loose v p hp).core.active (by rw [hrole]; decide)
  rw [Node.isLeader, hrun, hrole] at hlead
  cases hlead

theorem tableFine {S : Setting} {s : Cluster} {Γ : Ghost} {time : ℤ} {p : Process} {off : Prop}
    (h : S.ClusterOK s Γ time) (ht : Tallied M off s) (hp : s.up v = some p) :
    TableFine s.trace v p.node (s.disk v).log.lastIndex := by
  have hk := (ht.live v p hp 0 { clock := 0 }).kept
  have hcalls : ∀ {call index term command},
      s.trace[call]? = some (v, .proposed index term command true) →
      (call ∈ proposalsHeld p.node.pending ↔ ∃ row ∈ p.node.pending, row.2.call = call) := by
    intro call index term command hcall
    rw [mem_proposalsHeld]
    refine ⟨fun ⟨row, hrow, heq, _⟩ => ⟨row, hrow, heq⟩,
      fun ⟨row, hrow, heq⟩ => ⟨row, hrow, heq, ?_⟩⟩
    have hrowcall := (hk.rows row hrow).call
    rw [heq, show (s.context v p 0 { clock := 0 }).trace = s.trace from rfl, hcall]
      at hrowcall
    simp only [Option.some.injEq, Prod.mk.injEq, Event.proposed.injEq] at hrowcall
    exact hrowcall.2.2.2.2.symm
  refine
    { admitted := fun row hrow => (hk.rows row hrow).call
      held := fun call index term command hcall hsame => ?_
      once := hk.proposals.nodup
      bytes := hk.bytes
      length_le := hk.capacity.1
      bytes_le := hk.capacity.2
      range := fun row hrow => ⟨(hk.rows row hrow).above, ?_⟩
      idle := fun hlead => (h.idle_of_isLeader hp hlead).pending }
  · rw [← hcalls hcall]
    exact proposal_done_xor_held hk.proposals hcall hsame
  have hrole : p.node.role = .leader := by
    by_contra hne
    rw [(h.idle v p hp hne).pending] at hrow
    cases hrow
  obtain ⟨i, e, hi, hget, -⟩ := (h.loose v p hp).proposals hrole row hrow
  have hlt := (List.getElem?_eq_some_iff.mp hget).1
  rw [(h.loose v p hp).core.settled.rep.lastIndex_eq, hi]
  exact_mod_cast hlt

/-- The last entry of a decided log, in a sequence that starts with all that is decided. -/
theorem Setting.ClusterOK.sequence_entry {S : Setting} {s : Cluster} {Γ : Ghost} {time : ℤ}
    (h : S.ClusterOK s Γ time) {H : ℕ → LogEntry}
    (hH : ∀ b p, Decided S.members Γ.hist b p → p = (List.range p.length).map H) {b : ℤ}
    {P : List LogEntry} {e : LogEntry} (hdec : Decided S.members Γ.hist b (P ++ [e])) :
    H P.length = e ∧ e.index = P.length + 1 := by
  constructor
  · have hlast := congrArg (fun l => l[P.length]?) (hH _ _ hdec)
    simpa using hlast.symm
  · have hgood := (h.inv.good (h.inv.decided_matched hdec) (i := P.length) (by simp)).1
    simpa using hgood

/-- A proposal that succeeded is the entry that was applied at its index, and the reply is what
`ApplyBatch` returned for it. -/
def SuccessFine (H : ℕ → LogEntry) (t : List (ℤ × Event)) (v : ℤ) (j call : ℕ) (index term : ℤ)
    (command reply : Bytes) : Prop :=
  t[call]? = some (v, .proposed index term command true) ∧
    H (index.toNat - 1) = ⟨index, term, command⟩ ∧ Replied v (t.take j) index reply

/-- **Outcomes of proposals.** -/
theorem proposal_outcomes (M : Membership) (actions : List Action) :
    (∀ v p replyTo env ps code c', (run M actions).up v = some p →
      proposeBatch ps ((run M actions).context v p replyTo env) = .ok code c' → code < 0 →
      c' = (run M actions).context v p replyTo env) ∧
    (∀ v call i j, ProposalDone (run M actions).trace v call i →
      ProposalDone (run M actions).trace v call j → i = j) ∧
    (∃ H : ℕ → LogEntry, Explains H (∀ a ∈ actions, a.Clean) (run M actions) ∧
      ∀ j v call index command term reply, (run M actions).trace[j]? =
        some (v, .proposal call index command term true reply) →
        SuccessFine H (run M actions).trace v j call index term command reply) ∧
    ∀ v p, (run M actions).up v = some p →
      TableFine (run M actions).trace v p.node ((run M actions).disk v).log.lastIndex := by
  obtain ⟨Γ, time, h, ht⟩ := @tallied_run False M actions False.elim
  obtain ⟨H, hH, hexplains⟩ := h.exists_explains
  refine ⟨fun v p replyTo env ps code c' hp hrun hneg => ?_, fun v call i j hi hj => ?_,
    ⟨H, hexplains,
      fun j v call index command term reply hj => ?_⟩, fun v p hp => tableFine h ht hp⟩
  · refine proposeBatch_refused ?_ hrun hneg
    change 0 ≤ ((run M actions).disk v).log.lastIndex
    rw [(h.loose v p hp).core.settled.rep.lastIndex_eq]
    exact Int.natCast_nonneg _
  · obtain ⟨l, hl⟩ := (ht.sound v).proposals
    exact proposal_done_once hl hi hj
  · obtain ⟨hreplied, hcall⟩ := (ht.sound v).justified j _ hj
    refine ⟨getElem?_of_isPrefix (List.take_prefix _ _) hcall, ?_, hreplied⟩
    obtain ⟨-, P, e, hindex, hdec, rfl, rfl⟩ := h.shared.events j v _ hj rfl
    obtain ⟨hget, heidx⟩ := h.sequence_entry hH hdec
    rw [show index.toNat - 1 = P.length by omega, hget, ← hindex, ← heidx]

/-- Node 1 is elected, and RocksDB refuses its second batch while the first one waits. -/
def refusedWriteRun : List Action :=
  schedule trio (writeChoices.take 12 ++
    [fun _ => .call 1 (.propose [⟨setCommand, some ⟨.done, .done⟩⟩])
      { clock := 208 * ms, crashAfter := some 0, refuses := true }])

example :
    (1, Event.proposal 6 2 setCommand 1 false (ascii "-ERR storage failure; outcome unknown\r\n")) ∈
        (run trio refusedWriteRun).trace ∧
      (1, Event.failed "append Raft log batch") ∈ (run trio refusedWriteRun).trace := by
  decide +kernel

/-! ## Stepping down -/

section Stays

variable {α β : Type} {n : Node}

/-- A part of a method that leaves the fields of a node alone. -/
def Stays (n : Node) (m : RaftM α) : Prop :=
  ∀ c, c.node = n → wp m (fun _ c' => c'.node = n) (fun _ _ => True) c

theorem Stays.bind {m : RaftM β} {f : β → RaftM α} (hm : Stays n m) (hf : ∀ b, Stays n (f b)) :
    Stays n (m >>= f) := by
  intro c hc
  rw [wp_bind]
  exact wp_mono (hm c hc) (fun b c' hc' => hf b c' hc') fun _ _ _ => trivial

theorem Stays.getNode {f : Node → RaftM α} (hf : Stays n (f n)) : Stays n (getNode >>= f) := by
  intro c hc
  have h := hf c hc
  rw [← hc] at h ⊢
  exact h

theorem Stays.pure (a : α) : Stays n (pure a : RaftM α) := fun _ hc => hc

theorem Stays.mark (e : Event) : Stays n (mark e) := fun _ hc => hc

theorem Stays.observe (e : Event) : Stays n (observe e) := fun _ hc => hc

theorem Stays.crashPoint : Stays n crashPoint := by
  intro c hc
  rw [RaftM.crashPoint, wp_bind, wp_get]
  cases c.env.crashAfter with
  | none => exact hc
  | some k =>
    cases k with
    | zero => trivial
    | succ k => exact hc

theorem Stays.forM {γ : Type} {f : γ → RaftM Unit} (l : List γ) (hf : ∀ x, Stays n (f x)) :
    Stays n (l.forM f) := fun _ hc =>
  wp_forM f (fun c' => c'.node = n) l (fun x _ => hf x) hc

theorem Stays.invokeRead (call : ℕ) (ok : Bool) (readIndex : ℤ) (error : String)
    {next : RaftM Unit} (hnext : Stays n next) :
    Stays n (invokeRead call ok readIndex error next) :=
  Stays.crashPoint.bind fun _ => Stays.getNode ((Stays.observe _).bind fun _ => hnext)

/-- A node that is not leader refuses what a script asks for. -/
theorem Stays.runScriptWith (processPending finishRounds : RaftM Unit)
    (hidle : n.isLeader = false) :
    ∀ script, Stays n (runScriptWith processPending finishRounds script)
  | .done => Stays.pure ()
  | .read onOk onFail rest => by
    have hrest := Stays.runScriptWith processPending finishRounds hidle rest
    refine Stays.bind (Stays.getNode ?_) fun _ => hrest
    rw [if_pos (by rw [hidle]; exact Bool.false_ne_true)]
    have hfail := Stays.runScriptWith processPending finishRounds hidle onFail
    exact (Stays.mark _).bind fun _ => (Stays.invokeRead _ _ _ _ hfail).bind fun _ => Stays.pure _

theorem Stays.invokeQueued (hidle : n.isLeader = false) (reason : String)
    (request : ReadIndexRequest) : Stays n (invokeQueued request false (-1) reason) :=
  Stays.invokeRead _ _ _ _ (Stays.runScriptWith _ _ hidle _)

theorem Stays.failProposals (hidle : n.isLeader = false) (reply : Bytes)
    (items : List (ℤ × Pending)) : Stays n (failProposals reply items) := by
  refine Stays.forM items fun item => ?_
  rw [invokeProposal]
  cases item.2.callback with
  | none => exact Stays.pure ()
  | some callback =>
    exact Stays.crashPoint.bind fun _ => (Stays.observe _).bind fun _ =>
      Stays.runScriptWith _ _ hidle _

/-- What follows a part that leaves the fields alone. -/
theorem Stays.seq {m : RaftM β} {f : β → RaftM α} {Q : α → Context → Prop} {c : Context}
    (hm : Stays c.node m) (hf : ∀ b c', c'.node = c.node → wp (f b) Q (fun _ _ => True) c') :
    wp (m >>= f) Q (fun _ _ => True) c := by
  rw [wp_bind]
  exact wp_mono (hm c rfl) hf fun _ _ _ => trivial

theorem clearReadIndexQueues_empties {c : Context} (reason : String)
    (hidle : c.node.isLeader = false) : wp (clearReadIndexQueues reason)
      (fun _ c' => c'.node.pending = c.node.pending ∧ readsHeld c'.node [] = [])
      (fun _ _ => True) c := by
  rw [clearReadIndexQueues, getNode, bind_assoc, wp_bind, wp_get, pure_bind, wp_bind, modifyNode,
    wp_modify]
  refine Stays.seq (Stays.forM _ (Stays.invokeQueued ?_ reason)) fun _ c₁ hc₁ => ?_
  · exact hidle
  have hidle₁ : c₁.node.isLeader = false := by
    rw [hc₁]
    exact hidle
  have hpending₁ : c₁.node.pending = c.node.pending := by rw [hc₁]
  rw [wp_bind, modifyNode, wp_modify, bind_assoc, wp_bind, wp_get, pure_bind]
  refine Stays.seq (Stays.forM _ (Stays.invokeQueued ?_ reason)) fun _ c₂ hc₂ => ?_
  · exact hidle₁
  have hidle₂ : c₂.node.isLeader = false := by
    rw [hc₂]
    exact hidle₁
  have hrounds₂ : c₂.node.heartbeatRounds = [] := by rw [hc₂]
  have hpending₂ : c₂.node.pending = c₁.node.pending := by rw [hc₂]
  rw [wp_bind, modifyNode, wp_modify, bind_assoc, wp_bind, wp_get, pure_bind]
  refine Stays.seq (Stays.forM _ (Stays.invokeQueued ?_ reason)) fun _ c₃ hc₃ => ?_
  · exact hidle₂
  have hrounds₃ : c₃.node.heartbeatRounds = [] := by rw [hc₃]; exact hrounds₂
  have hunsent₃ : c₃.node.unsentReads = [] := by rw [hc₃]
  have hpending₃ : c₃.node.pending = c₂.node.pending := by rw [hc₃]
  rw [wp_bind, modifyNode, wp_modify, modifyNode, wp_modify]
  exact ⟨hpending₃.trans (hpending₂.trans hpending₁), by simp [readsHeld, hrounds₃, hunsent₃]⟩

/-- A node that does not lead any more empties its table and its queues. -/
theorem release_held {c : Context} (result reason : String) (hidle : c.node.isLeader = false) :
    wp (do
        failPending result
        clearReadIndexQueues reason
        modifyNode fun n => { n with canServeRead := false })
      (fun _ c' => c'.node.pending = [] ∧ readsHeld c'.node [] = []) (fun _ _ => True) c := by
  rw [failPending, bind_assoc, getNode, bind_assoc, wp_bind, wp_get, pure_bind, bind_assoc, wp_bind,
    modifyNode, wp_modify]
  refine Stays.seq (Stays.failProposals ?_ _ _) fun _ c₁ hc₁ => ?_
  · exact hidle
  have hidle₁ : c₁.node.isLeader = false := by
    rw [hc₁]
    exact hidle
  have hpending₁ : c₁.node.pending = [] := by rw [hc₁]
  rw [wp_bind]
  refine wp_mono (clearReadIndexQueues_empties reason hidle₁)
    (fun _ c₂ hp => ?_) fun _ _ _ => trivial
  rw [modifyNode, wp_modify]
  exact ⟨hp.1.trans hpending₁, hp.2⟩

theorem becomeFollower_releases (term : ℤ) (c : Context) : wp (becomeFollower term)
      (fun _ c' => c'.node.pending = [] ∧ readsHeld c'.node [] = []) (fun _ _ => True) c := by
  rw [becomeFollower, wp_bind]
  refine wp_any fun _ c₁ => ?_
  rw [wp_bind, modifyNode, wp_modify, resetElectionTimer, bind_assoc, wp_bind, drawTimeout,
    wp_modifyGet, bind_assoc, wp_bind, now, wp_modifyGet, wp_bind, modifyNode, wp_modify]
  exact release_held _ _ (by simp [Node.isLeader, Node.asFollower])

theorem stop_releases (c : Context) :
    wp stop (fun _ c' => c'.node.pending = [] ∧ readsHeld c'.node [] = []) (fun _ _ => True) c := by
  rw [stop, wp_bind, modifyNode, wp_modify]
  exact release_held _ _ rfl

end Stays

/-! ## Reads -/

/-- The calls of the reads that a node holds, in its three queues. -/
def heldCalls (n : Node) : List ℕ :=
  (readsHeld n []).map fun q => q.callback.call

/-- The queues of reads of a process of node `v` : each call is answered or held in one place, and
there is at most one round. -/
structure QueuesFine (t : List (ℤ × Event)) (v : ℤ) (n : Node) : Prop where
  held : ∀ call lease, t[call]? = some (v, .readCalled lease) → SameProcess t v call →
    Xor (∃ j, ReadDone t v call j) ((heldCalls n).count call = 1)
  rounds : n.heartbeatRounds.length ≤ 1

theorem queuesFine {s : Cluster} {p : Process} {off : Prop} (ht : Tallied M off s)
    (hp : s.up v = some p) : QueuesFine s.trace v p.node := by
  have hk := (ht.live v p hp 0 { clock := 0 }).kept
  refine ⟨fun call lease hcall hsame => ?_, hk.rounds⟩
  have hcount : (heldCalls p.node).count call = 1 ↔ call ∈ heldCalls p.node :=
    ⟨fun hone => List.one_le_count_iff.mp hone.ge,
      fun hmem => List.count_eq_one_of_mem hk.reads.nodup hmem⟩
  rw [hcount]
  exact read_done_xor_held hk.reads hcall hsame

/-- **The lifecycle of reads.** -/
theorem read_lifecycle (M : Membership) (actions : List Action) :
    (∀ v call i j, ReadDone (run M actions).trace v call i →
      ReadDone (run M actions).trace v call j → i = j) ∧
    (∀ v p, (run M actions).up v = some p → QueuesFine (run M actions).trace v p.node) ∧
    (∀ j v call readIndex lastApplied error, (run M actions).trace[j]? =
        some (v, .readDone call true readIndex lastApplied error) →
      readIndex ≤ lastApplied ∧ Vouched M v ((run M actions).trace.take j) call) ∧
    (∀ term c c', becomeFollower term c = .ok () c' → heldCalls c'.node = []) ∧
    ∀ c c', stop c = .ok () c' → heldCalls c'.node = [] := by
  obtain ⟨Γ, time, -, ht⟩ := @tallied_run False M actions False.elim
  refine ⟨fun v call i j hi hj => ?_, fun v p hp => queuesFine ht hp,
    fun j v call readIndex lastApplied error hj => (ht.sound v).justified j _ hj,
    fun term c c' hrun => ?_, fun c c' hrun => ?_⟩
  · obtain ⟨l, hl⟩ := (ht.sound v).reads
    exact read_done_once hl hi hj
  · rw [heldCalls, (wp_of_ok (becomeFollower_releases term c) hrun).2, List.map_nil]
  · rw [heldCalls, (wp_of_ok (stop_releases c) hrun).2, List.map_nil]

/-! ## Reads that wait -/

/-- Without lease reads, a node has not yet applied up to the reads that wait. -/
theorem pending_reads_ahead {actions : List Action} (hoff : ∀ a ∈ actions, a.LeaseOff) {p : Process}
    (hp : (run M actions).up v = some p) :
    ∀ q ∈ p.node.pendingReads, p.node.lastApplied < q.readIndex := by
  obtain ⟨Γ, time, -, ht⟩ := @tallied_run True M actions fun _ => hoff
  exact (ht.live v p hp 0 { clock := 0 }).kept.ahead trivial

/-- A leader alone that is asked for a read while its worker has not applied the last write. -/
def readBehind : List Action :=
  [.restart 1 true { clock := 0 }, .call 1 .start { clock := 0 },
    .call 1 .tick { clock := 200 * ms }, .call 1 .work { clock := 201 * ms },
    .call 1 .completion { clock := 202 * ms },
    .call 1 (.propose [⟨setCommand, some ⟨.done, .done⟩⟩]) { clock := 203 * ms },
    .call 1 (.readIndex .done .done) { clock := 204 * ms }]

theorem pending_reads_ahead_readBehind :
    ∃ p, (run solo readBehind).up 1 = some p ∧ p.node.isLeader = true ∧
      p.node.pendingReads.length = 1 ∧
        ∀ q ∈ p.node.pendingReads, p.node.lastApplied < q.readIndex := by
  have hoff : ∀ a ∈ readBehind, a.LeaseOff := by
    intro a ha
    simp only [readBehind, List.mem_cons, List.not_mem_nil, or_false] at ha
    rcases ha with rfl | rfl | rfl | rfl | rfl | rfl | rfl <;> trivial
  have hstate : ((run solo readBehind).up 1).map
      (fun p => (p.node.isLeader, p.node.pendingReads.length)) = some (true, 1) := by decide +kernel
  obtain ⟨p, hp, hview⟩ := Option.map_eq_some_iff.mp hstate
  obtain ⟨hlead, hlength⟩ := Prod.mk.inj hview
  exact ⟨p, hp, hlead, hlength, pending_reads_ahead hoff hp⟩

/-- A leader alone with a read in a round, whose callback asks for another read when the lease has
become valid. -/
def leaseBegins : List Action :=
  [.restart 1 false { clock := 0 }, .call 1 .start { clock := 0 },
    .call 1 (.setLeaseReads true) { clock := 0 }, .call 1 .tick { clock := 200 * ms },
    .call 1 (.readIndex (.read .done .done .done) .done)
      { clock := 499 * ms, delays := [0, 0, 0, 1000000] }]

/-- The second read waits although the leader has applied up to it. -/
theorem lease_read_waits :
    ((run solo leaseBegins).up 1).map (fun p => (p.node.isLeader, p.node.lastApplied,
      p.node.pendingReads.map (·.readIndex))) = some (true, 1, [1]) := by
  decide +kernel

/-- No callback calls here. A read at index 2 waits for its round when the lease becomes valid, and
the next read, at index 3, is queued before it. -/
def leaseOvertakes : List Action :=
  schedule trio
    [fun _ => .restart 1 true { clock := 0 }, fun _ => .restart 2 false { clock := 0 },
      fun _ => .call 1 .start { clock := 0 }, fun _ => .call 2 .start { clock := 0 },
      fun _ => .call 1 (.setLeaseReads true) { clock := 0 },
      fun _ => .call 1 .tick { clock := 200 * ms },
      deliverNth 0 (201 * ms), deliverNth 2 (202 * ms), deliverNth 3 (203 * ms),
      deliverNth 5 (204 * ms), deliverNth 6 (205 * ms), deliverNth 8 (206 * ms),
      fun _ => .call 1 .work { clock := 207 * ms },
      fun _ => .call 1 .completion { clock := 208 * ms },
      deliverNth 9 (209 * ms), deliverNth 10 (210 * ms),
      fun _ => .call 1 (.propose [⟨setCommand, none⟩]) { clock := 480 * ms },
      deliverNth 11 (481 * ms), deliverNth 12 (482 * ms), deliverNth 13 (483 * ms),
      deliverNth 14 (484 * ms),
      fun _ => .call 1 (.propose [⟨setCommand, none⟩]) { clock := 495 * ms },
      fun _ => .call 1 (.readIndex .done .done) { clock := 499 * ms },
      deliverNth 15 (500 * ms), deliverNth 16 (501 * ms),
      fun _ => .call 1 (.readIndex .done .done) { clock := 505 * ms },
      deliverNth 17 (506 * ms), deliverNth 18 (507 * ms),
      fun _ => .call 1 .work { clock := 508 * ms },
      fun _ => .call 1 .completion { clock := 509 * ms }]

/-- The first read waits behind the second although the leader has applied up to it. -/
theorem lease_read_overtakes :
    ((run trio leaseOvertakes).up 1).map (fun p => (p.node.isLeader, p.node.lastApplied,
      p.node.pendingReads.map (·.readIndex))) = some (true, 2, [3, 2]) := by
  decide +kernel

end RaftKV
