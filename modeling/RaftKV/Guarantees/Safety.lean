import RaftKV.Refinement.Runs

/-!
# Safety of clusters

What the relation with the protocol gives in the terms of the cluster itself, for every run :
its processes, its databases, its network and what was observed.

* a term has one leader (`election_safety`);
* one sequence of entries explains what every node has applied (`Explains`), and nodes that have
  applied equally far have equal databases (`state_machine_safety`), unless a command writes to
  the records of the state machine itself (`contents_differ`);
* a proposal that succeeded is in the log of every later leader (`leader_completeness`);
* a process ends by an exception only if a counter is exhausted, a snapshot exceeds its
  format, or a setting or a write is refused (`failed_expected`);
* a receiver never refuses a request for its form (`requests_valid`).
-/

namespace RaftKV

open Setting
open Consensus (lastTerm Decided IsQuorum)

/-! ## Runs by choices -/

/-- The steps of a run in which each step is chosen in the state before it. -/
def schedule (M : Membership) (choices : List (Cluster → Action)) : List Action :=
  (choices.foldl (fun x choose => (step M x.1 (choose x.1), x.2 ++ [choose x.1]))
    (({} : Cluster), [])).2

/-- The message sent as number `i` reaches its receiver. -/
def deliverNth (i : ℕ) (time : ℤ) (s : Cluster) : Action :=
  match s.net[i]? with
  | some e => .call e.dst (.deliver e) { clock := time }
  | none => .crash 0

/-- What every choice leads to holds of all steps of the run. -/
theorem forall_mem_schedule {M : Membership} {P : Action → Prop}
    {choices : List (Cluster → Action)} (h : ∀ choose ∈ choices, ∀ s, P (choose s)) :
    ∀ a ∈ schedule M choices, P a := by
  suffices hall : ∀ x : Cluster × List Action, (∀ a ∈ x.2, P a) → ∀ a ∈ (choices.foldl
      (fun x choose => (step M x.1 (choose x.1), x.2 ++ [choose x.1])) x).2, P a from
    hall _ fun a ha => by cases ha
  induction choices with
  | nil => exact fun _ hx => hx
  | cons choose choices ih =>
    intro x hx
    refine ih (fun c hc => h c (List.mem_cons_of_mem _ hc)) _ fun a ha => ?_
    rcases List.mem_append.mp ha with ha | ha
    · exact hx a ha
    · rw [List.mem_singleton.mp ha]
      exact h choose List.mem_cons_self _

theorem deliverNth_cases {P : Action → Prop} (hdeliver : ∀ v e env, P (.call v (.deliver e) env))
    (hcrash : P (.crash 0)) (i : ℕ) (time : ℤ) (s : Cluster) : P (deliverNth i time s) := by
  rw [deliverNth]
  cases s.net[i]? with
  | none => exact hcrash
  | some e => exact hdeliver _ _ _

/-- A command as the server builds it. -/
def setCommand : Bytes := ascii "*3\r\n$3\r\nSET\r\n$1\r\nk\r\n$1\r\nv\r\n"

/-- Node 1 is elected with the vote of node 2, and its first write succeeds. -/
def writeChoices : List (Cluster → Action) :=
  [fun _ => .restart 1 false { clock := 0 }, fun _ => .restart 2 false { clock := 0 },
    fun _ => .call 1 .start { clock := 0 }, fun _ => .call 2 .start { clock := 0 },
    fun _ => .call 1 .tick { clock := 200 * ms },
    -- pre-vote, vote, and the empty entry of the term
    deliverNth 0 (201 * ms), deliverNth 2 (202 * ms), deliverNth 3 (203 * ms),
    deliverNth 5 (204 * ms), deliverNth 6 (205 * ms), deliverNth 8 (206 * ms),
    fun _ => .call 1 (.propose [⟨setCommand, some ⟨.done, .done⟩⟩]) { clock := 207 * ms },
    deliverNth 9 (208 * ms), deliverNth 10 (209 * ms), deliverNth 11 (210 * ms),
    deliverNth 12 (211 * ms)]

def writeRun : List Action := schedule trio writeChoices

theorem served_setCommand {callback : Option ProposeCallback} :
    Proposal.Served ⟨setCommand, callback⟩ := by
  have hdecode : decodeCommand setCommand = some (.write (.set (ascii "k") (ascii "v"))) := by
    decide +kernel
  exact ⟨_, hdecode, by decide⟩

theorem served_writeRun : ∀ a ∈ writeRun, a.Served := by
  have hdeliver := @deliverNth_cases Action.Served (fun _ _ _ => trivial) trivial
  refine forall_mem_schedule fun choose hchoose s => ?_
  simp only [writeChoices, List.mem_cons, List.not_mem_nil, or_false] at hchoose
  rcases hchoose with rfl | rfl | rfl | rfl | rfl | rfl | rfl | rfl | rfl | rfl | rfl | rfl | rfl |
    rfl | rfl | rfl
  all_goals first
    | exact hdeliver _ _ s
    | trivial
    | exact fun p hp => List.mem_singleton.mp hp ▸ served_setCommand

variable {M : Membership} {actions : List Action}

/-! ## Elections -/

/-- At most one node ever becomes leader in a term. -/
theorem election_safety {v w term : ℤ}
    (hv : (v, Event.leader term) ∈ (run M actions).trace)
    (hw : (w, Event.leader term) ∈ (run M actions).trace) : v = w := by
  obtain ⟨Γ, time, h⟩ := exists_clusterOK M actions
  obtain ⟨j, hj⟩ := List.mem_iff_getElem?.mp hv
  obtain ⟨k, hk⟩ := List.mem_iff_getElem?.mp hw
  have h₁ : Γ.hist.leader term = some v := h.shared.events j v _ hj
  have h₂ : Γ.hist.leader term = some w := h.shared.events k w _ hk
  exact Option.some.inj (h₁.symm.trans h₂)

theorem election_safety_trio :
    (1, Event.leader 1) ∈ (run trio writeRun).trace ∧ (1 : ℤ) = 1 := by
  have h : (1, Event.leader 1) ∈ (run trio writeRun).trace := by decide +kernel
  exact ⟨h, election_safety h h⟩

/-! ## Agreement -/

/-- The commands of a batch are those of a sequence from an index on. -/
def FollowsFrom (H : ℕ → LogEntry) (first : ℤ) (commands : List Bytes) : Prop :=
  0 < first ∧ ∀ k (hk : k < commands.length), commands[k] = (H (first.toNat - 1 + k)).command

/-- The first entries of a sequence. -/
def firstEntries (H : ℕ → LogEntry) (count : ℤ) : List LogEntry :=
  (List.range count.toNat).map H

/-- A sequence that starts with all that is decided starts with every batch. -/
theorem Setting.ClusterOK.follows {S : Setting} {s : Cluster} {Γ : Ghost} {time : ℤ}
    (h : S.ClusterOK s Γ time) {H : ℕ → LogEntry}
    (hH : ∀ b p, Decided S.members Γ.hist b p → p = (List.range p.length).map H) {v first : ℤ}
    {commands results : List Bytes} (he : (v, Event.applied first commands results) ∈ s.trace) :
    FollowsFrom H first commands := by
  obtain ⟨j, hj⟩ := List.mem_iff_getElem?.mp he
  obtain ⟨b, P, Q, hfirst, rfl, hdec⟩ := h.shared.events j v _ hj
  refine ⟨by omega, fun k hk => ?_⟩
  rw [List.length_map] at hk
  have hget : (P ++ Q)[P.length + k]? = some (H (P.length + k)) := by
    rw [hH _ _ hdec, List.getElem?_map, List.getElem?_range (by simp; omega)]
    rfl
  rw [List.getElem?_append_right (by omega), Nat.add_sub_cancel_left,
    List.getElem?_eq_getElem hk] at hget
  rw [List.getElem_map, Option.some.inj hget, show first.toNat - 1 = P.length by omega]

/-- One sequence of entries explains a cluster. Every batch that reached a KV database is a part of
it, and the log of every process starts with it, up to the commit index. If the commands are
`clean`, its replay is what every KV database holds, whether that came by batches or by
snapshots, and what the snapshot of every process holds. -/
structure Explains (H : ℕ → LogEntry) (clean : Prop) (s : Cluster) : Prop where
  batches : ∀ v first commands results, (v, Event.applied first commands results) ∈ s.trace →
    FollowsFrom H first commands
  logs : ∀ v p, s.up v = some p → ∃ L, LogRep (s.disk v).log L ∧
    L.take p.node.commitIndex.toNat = firstEntries H p.node.commitIndex
  stores : clean → ∀ v, (s.disk v).sm = storeOf (firstEntries H (s.disk v).sm.lastApplied)
  snapshots : clean → ∀ v p, s.up v = some p → 0 < (s.disk v).log.snapshot.index →
    (s.disk v).log.snapshot.data = snapshotOf (firstEntries H (s.disk v).log.snapshot.index)

section

variable {S : Setting} {s : Cluster} {Γ : Ghost} {time : ℤ} {H : ℕ → LogEntry} {v : ℤ}

/-- A sequence that starts with all that is decided starts with every decided part of a log. -/
theorem take_eq_firstEntries
    (hH : ∀ b p, Decided S.members Γ.hist b p → p = (List.range p.length).map H) {b : ℤ} {k : ℕ}
    (hk : k ≤ (Γ.hist.log v).length) (hdec : Decided S.members Γ.hist b ((Γ.hist.log v).take k)) :
    (Γ.hist.log v).take k = firstEntries H k := by
  have hfirst := hH _ _ hdec
  rwa [List.length_take, min_eq_left hk] at hfirst

theorem Setting.ClusterOK.explains (h : S.ClusterOK s Γ time)
    (hH : ∀ b p, Decided S.members Γ.hist b p → p = (List.range p.length).map H) :
    Explains H S.clean s where
  batches _ _ _ _ he := h.follows hH he
  logs v p hp := by
    have hcore : S.CoreOK Γ.hist v p.node _ _ p.exec := (h.loose v p hp).core
    obtain ⟨a, k, -, hk, -, hlen, -, hdec⟩ := hcore.progress
    refine ⟨Γ.hist.log v, hcore.settled.rep, ?_⟩
    rw [hk, Int.toNat_natCast]
    exact take_eq_firstEntries hH hlen hdec
  stores hclean v := by
    obtain ⟨k, hk, hle, hdec, hstore⟩ := (h.disk v).applied
    rw [hk, ← take_eq_firstEntries hH hle hdec]
    exact hstore hclean
  snapshots hclean v p hp hpos := by
    have hcore : S.CoreOK Γ.hist v p.node _ _ p.exec := (h.loose v p hp).core
    obtain ⟨a, k, ha, hk, hak, hlen, hsnap, hdec⟩ := hcore.progress
    have hcut : (Γ.hist.log v).take (s.disk v).log.snapshot.index.toNat =
        firstEntries H (s.disk v).log.snapshot.index.toNat :=
      take_eq_firstEntries hH (by omega)
        (hdec.initial (List.take_prefix_take_left (by omega)))
    rw [hcore.settled.data.2 hclean hpos, hcut, Int.toNat_of_nonneg hpos.le]

/-- All that is decided is the start of one sequence, and that sequence explains the cluster. -/
theorem Setting.ClusterOK.exists_explains (h : S.ClusterOK s Γ time) : ∃ H : ℕ → LogEntry,
    (∀ b p, Decided S.members Γ.hist b p → p = (List.range p.length).map H) ∧
      Explains H S.clean s := by
  have : Nonempty LogEntry := ⟨⟨0, 0, []⟩⟩
  obtain ⟨H, hH⟩ := h.inv.exists_sequence
  exact ⟨H, hH, h.explains hH⟩

end

/-- **State machine safety.** One sequence of entries explains every node, and if the commands
touch user keys only, nodes that have applied equally far have equal databases. -/
theorem state_machine_safety (M : Membership) (actions : List Action) :
    ∃ H : ℕ → LogEntry, Explains H (∀ a ∈ actions, a.Clean) (run M actions) ∧
      ((∀ a ∈ actions, a.Clean) → ∀ v w,
        ((run M actions).disk v).sm.lastApplied = ((run M actions).disk w).sm.lastApplied →
        ((run M actions).disk v).sm = ((run M actions).disk w).sm) := by
  obtain ⟨Γ, time, h⟩ := exists_clusterOK M actions
  obtain ⟨H, -, hexplains⟩ := h.exists_explains
  refine ⟨H, hexplains, fun hclean v w heq => ?_⟩
  rw [hexplains.stores hclean v, hexplains.stores hclean w, heq]

/-- `SET` of the record of client `c`, to request id 5. -/
def recordCommand : Bytes :=
  ascii "*3\r\n$3\r\nSET\r\n$16\r\n" ++ clientSessionKey (ascii "c") ++ ascii "\r\n$13\r\n" ++
    encodeSession 5 okReply ++ ascii "\r\n"

/-- `IDEMP c 2 SET k v`. -/
def secondRequest : Bytes :=
  ascii "*6\r\n$5\r\nIDEMP\r\n$1\r\nc\r\n$1\r\n2\r\n$3\r\nSET\r\n$1\r\nk\r\n$1\r\nv\r\n"

/-- Node 1 applies the two commands one by one. The worker of node 2 is busy with the entry before
them until both are committed, and is given them in one batch. -/
def recordRun : List Action :=
  schedule trio
    [fun _ => .restart 1 false { clock := 0 }, fun _ => .restart 2 true { clock := 0 },
      fun _ => .call 1 .start { clock := 0 }, fun _ => .call 2 .start { clock := 0 },
      fun _ => .call 1 .tick { clock := 200 * ms },
      deliverNth 0 (201 * ms), deliverNth 2 (202 * ms), deliverNth 3 (203 * ms),
      deliverNth 5 (204 * ms), deliverNth 6 (205 * ms), deliverNth 8 (206 * ms),
      fun _ => .call 1 (.propose [⟨recordCommand, none⟩]) { clock := 207 * ms },
      deliverNth 9 (208 * ms), deliverNth 10 (209 * ms), deliverNth 11 (210 * ms),
      deliverNth 12 (211 * ms),
      fun _ => .call 1 (.propose [⟨secondRequest, none⟩]) { clock := 212 * ms },
      deliverNth 13 (213 * ms), deliverNth 14 (214 * ms), deliverNth 15 (215 * ms),
      deliverNth 16 (216 * ms), deliverNth 17 (217 * ms),
      fun _ => .call 2 .work { clock := 218 * ms },
      fun _ => .call 2 .completion { clock := 219 * ms },
      fun _ => .call 2 .work { clock := 220 * ms },
      fun _ => .call 2 .completion { clock := 221 * ms }]

/-- Both nodes have applied three entries. Node 1 found the record and refused the request as
stale, node 2 did not find it in its batch and wrote the key. -/
theorem contents_differ :
    ((run trio recordRun).disk 1).sm.lastApplied = 3 ∧
      ((run trio recordRun).disk 2).sm.lastApplied = 3 ∧
      ((run trio recordRun).disk 1).sm.db[ascii "k"]? = none ∧
      ((run trio recordRun).disk 2).sm.db[ascii "k"]? = some (ascii "v") := by
  decide +kernel

/-! ## Acknowledged proposals -/

/-- The log of a process has the command at an index of a sequence, as an entry of the database or
in the prefix that the snapshot covers. -/
structure HoldsAt (H : ℕ → LogEntry) (log : AbstractLog) (index term : ℤ) (command : Bytes) :
    Prop where
  entry : 0 < index ∧ H (index.toNat - 1) = ⟨index, term, command⟩
  logical : ∃ L, LogRep log L ∧ L.take index.toNat = firstEntries H index
  place : log.get index = some ⟨index, term, command⟩ ∨ index ≤ log.snapshot.index

/-- A log that starts with a part of the sequence holds its last entry. -/
theorem holdsAt_of_prefix {log : AbstractLog} {L P : List LogEntry} {e : LogEntry}
    {H : ℕ → LogEntry} (hrep : LogRep log L) (hpre : P ++ [e] <+: L)
    (hP : P ++ [e] = (List.range (P ++ [e]).length).map H) (hindex : e.index = P.length + 1) :
    HoldsAt H log e.index e.term e.command := by
  have hlen : (P ++ [e]).length = e.index.toNat := by
    rw [List.length_append, List.length_singleton]
    omega
  have hget : L[P.length]? = some e := by
    obtain ⟨R, hR⟩ := hpre
    rw [← hR, List.append_assoc, List.getElem?_append_right le_rfl, Nat.sub_self]
    rfl
  refine ⟨⟨by omega, ?_⟩, ⟨L, hrep, ?_⟩, ?_⟩
  · have hlast := congrArg (fun l => l[P.length]?) hP
    rw [show e.index.toNat - 1 = P.length by omega]
    simpa using hlast.symm
  · rw [firstEntries, ← hlen, ← hP]
    exact (List.prefix_iff_eq_take.mp hpre).symm
  · rcases le_or_gt e.index log.snapshot.index with hle | hgt
    · exact .inr hle
    · have hentry : log.get (P.length + 1) = some e := (hrep.get_eq (by omega)).trans hget
      rw [← hindex] at hentry
      exact .inl hentry

/-- **Leader completeness.** A proposal that succeeded is an entry of the sequence that explains
the run, and every leader of its term and later ones has it in its log. -/
theorem leader_completeness (M : Membership) (actions : List Action) :
    ∃ H : ℕ → LogEntry, Explains H (∀ a ∈ actions, a.Clean) (run M actions) ∧
      ∀ v w p call index term command reply,
        (w, Event.proposal call index command term true reply) ∈ (run M actions).trace →
        (run M actions).up v = some p → p.node.role = .leader → term ≤ p.node.currentTerm →
        HoldsAt H ((run M actions).disk v).log index term command := by
  obtain ⟨Γ, time, h⟩ := exists_clusterOK M actions
  have hinv := h.inv
  obtain ⟨H, hH, hexplains⟩ := h.exists_explains
  refine ⟨H, hexplains, fun v w p call index term command reply hok hup hrole hterm => ?_⟩
  obtain ⟨j, hj⟩ := List.mem_iff_getElem?.mp hok
  obtain ⟨-, P, e, hindex, hdec, rfl, rfl⟩ := h.shared.events j w _ hj rfl
  have hcore : CoreOK _ Γ.hist v p.node _ _ p.exec := (h.loose v p hup).core
  have hl : Γ.hist.leader (Γ.hist.term v) = some v := hcore.leader hrole
  have hpre : P ++ [e] <+: Γ.hist.log v := by
    rw [hinv.own_log hl rfl]
    exact hinv.decided_prefix hdec (hcore.term ▸ hterm) (Option.isSome_iff_exists.mpr ⟨v, hl⟩)
  have hgood := (hinv.good (hinv.decided_matched hdec) (i := P.length) (by simp)).1
  have heidx : e.index = P.length + 1 := by simpa using hgood
  rw [show index = e.index by omega]
  exact holdsAt_of_prefix hcore.settled.rep hpre (hH _ _ hdec) heidx

theorem leader_completeness_trio :
    ∃ H, Explains H (∀ a ∈ writeRun, a.Clean) (run trio writeRun) ∧
      HoldsAt H ((run trio writeRun).disk 1).log 2 1 setCommand := by
  have hup : ((run trio writeRun).up 1).any (fun p =>
      decide (p.node.role = .leader ∧ 1 ≤ p.node.currentTerm)) = true := by decide +kernel
  obtain ⟨p, hp, hlead⟩ := (Option.any_eq_true _ _).mp hup
  obtain ⟨hrole, hterm⟩ := of_decide_eq_true hlead
  have hok : (1, Event.proposal 6 2 setCommand 1 true (ascii "+OK\r\n")) ∈
      (run trio writeRun).trace := by decide +kernel
  obtain ⟨H, hexplains, hholds⟩ := leader_completeness trio writeRun
  exact ⟨H, hexplains, hholds 1 1 p 6 2 1 setCommand _ hok hp hrole hterm⟩

/-! ## Exceptions -/

/-- The exceptions that tell of an inconsistent state. -/
def consistencyTexts : List String :=
  ["attempt to replace committed Raft entry", "missing committed entry",
    "oversized committed entry", "missing replication entry", "oversized Raft entry",
    "cannot truncate snapshotted prefix", "cannot snapshot an absent Raft entry",
    "invalid pending Raft snapshot", "pending Raft snapshot must recover before another install",
    "out-of-order state machine application", "out-of-order state machine completion",
    "KV snapshot would move backwards", "state machine executor unavailable",
    "invalid or duplicate Raft peer", "self is not a Raft peer",
    "pending snapshot term exceeds durable hard state",
    "inconsistent KV/log recovery state", "inconsistent Raft term recovery state",
    "persisted vote is outside the static membership"]

/-- No exception tells of an inconsistent state, if proposals are as the server builds them. -/
theorem failed_expected (hserved : ∀ a ∈ actions, a.Served) {v : ℤ} {text : String}
    (hf : (v, Event.failed text) ∈ (run M actions).trace) :
    text ∈ expected ∧ text ∉ consistencyTexts := by
  obtain ⟨Γ, time, h⟩ := exists_clusterOK M actions
  obtain ⟨j, hj⟩ := List.mem_iff_getElem?.mp hf
  have htext : text ∈ expected := h.shared.events j v _ hj (served_plain hserved)
  refine ⟨htext, ?_⟩
  have hdisj : ∀ t ∈ expected, t ∉ consistencyTexts := by decide
  exact hdisj text htext

/-- Node 1 is elected and applies a write, and is then given a threshold that it refuses. -/
def refusedRun : List Action :=
  writeRun ++ [.call 1 (.setSnapshotThreshold (-1)) { clock := 212 * ms }]

/-- The process ends by an exception, and it is not one of those. -/
theorem failed_expected_refusedRun :
    ∃ text, (1, Event.failed text) ∈ (run trio refusedRun).trace ∧
      text ∈ expected ∧ text ∉ consistencyTexts := by
  have hf : (1, Event.failed "negative snapshot threshold") ∈ (run trio refusedRun).trace := by
    decide +kernel
  refine ⟨_, hf, failed_expected (fun a ha => ?_) hf⟩
  rcases List.mem_append.mp ha with ha | ha
  · exact served_writeRun a ha
  · rw [List.mem_singleton.mp ha]
    trivial

/-! ## Requests -/

theorem isRemotePeer_of_route {n : Node} {src : ℤ} (hp : n.allPeers = M.peers)
    (hsrc : src ∈ M.peers) (hne : src ≠ n.nodeId) : n.isRemotePeer src = true := by
  simp [Node.isRemotePeer, hp, hsrc, hne]

section Requests

variable {S : Setting} {h : History}

section

variable (hinv : Consensus.Inv S.members S.Good h)
include hinv

/-- The last term of a log is between 0 and the term of an entry that follows it. -/
theorem lastTerm_le_of_append {pre rest : List LogEntry}
    {e : LogEntry} (hm : Consensus.Matched h (pre ++ e :: rest)) : lastTerm pre ≤ e.term := by
  by_cases hne : pre = []
  · subst hne
    exact (hinv.term_pos hm (e := e) (by simp)).le
  · rw [Consensus.lastTerm_eq_getElem hne]
    exact (List.pairwise_append.mp (hinv.sorted hm)).2.2 _ (List.getLast_mem hne) e (by simp)

theorem validEntries_of_matched {term : ℤ}
    {pre es : List LogEntry} (hm : Consensus.Matched h (pre ++ es))
    (hterm : ∀ e ∈ pre ++ es, e.term ≤ term) :
    validEntries term (pre.length + 1) (lastTerm pre) es = true := by
  induction es generalizing pre with
  | nil => rfl
  | cons e es ih =>
    have hget : (pre ++ e :: es)[pre.length] = e := by simp
    have hgood := hinv.good hm (i := pre.length) (by simp)
    rw [hget] at hgood
    obtain ⟨hindex, -, -, hsize, -⟩ := hgood
    have hpos := hinv.term_pos hm (e := e) (by simp)
    have hlast : lastTerm (pre ++ [e]) = e.term := by
      rw [Consensus.lastTerm_eq_getElem (by simp), List.getLast_concat]
      rfl
    have hcons : pre ++ e :: es = (pre ++ [e]) ++ es := by simp
    have hrest := ih (hcons ▸ hm) (hcons ▸ hterm)
    rw [hlast, List.length_append, List.length_singleton, Nat.cast_add, Nat.cast_one] at hrest
    simp only [validEntries, hindex, decide_true, Bool.true_and, Bool.and_eq_true,
      decide_eq_true_eq]
    exact ⟨⟨⟨⟨hpos, lastTerm_le_of_append hinv hm⟩, hterm e (by simp)⟩, hsize⟩, hrest⟩

/-- The last term of a prefix of a leader's log. -/
theorem lastTerm_of_prefix {term src : ℤ}
    (hl : h.leader term = some src) {pre : List LogEntry} (hpre : pre <+: h.leaderLog term) :
    (pre = [] → lastTerm pre = 0) ∧ (pre ≠ [] → 0 < lastTerm pre) ∧ lastTerm pre ≤ term := by
  refine ⟨fun hnil => by rw [hnil]; rfl, fun hne => ?_, ?_⟩
  · rw [Consensus.lastTerm_eq_getElem hne]
    exact hinv.term_pos ((hinv.leader_matched hl).initial hpre) (List.getLast_mem hne)
  by_cases hne : pre = []
  · rw [hne]
    exact (hinv.leader_bound hl).1.le
  · rw [Consensus.lastTerm_eq_getElem hne]
    exact hinv.leaderLog_terms hl _ (hpre.subset (List.getLast_mem hne))

theorem length_lt_of_prefix {term src : ℤ}
    (hl : h.leader term = some src) {l : List LogEntry} (hpre : l <+: h.leaderLog term) :
    (l.length : ℤ) < int64Max := by
  by_cases hne : l = []
  · rw [hne]
    decide
  have hpos := List.length_pos_iff.mpr hne
  have hgood := hinv.good ((hinv.leader_matched hl).initial hpre) (i := l.length - 1) (by omega)
  have := hgood.1
  have := hgood.2.1
  omega

end

theorem requestVote_valid {n : Node} {src : ℤ} {m : RequestVote} (hrun : n.running = true)
    (hpeer : n.isRemotePeer src = true) (hs : Signed src (.requestVote m)) :
    m.valid n src = true := by
  obtain ⟨hc, ht, hi, h0, hle⟩ := hs
  simp [RequestVote.valid, hrun, hpeer, hc, ht, hi, h0, hle]

theorem appendEntries_valid (hinv : Consensus.Inv S.members S.Good h) {n : Node} {src : ℤ}
    {m : AppendEntries} (hrun : n.running = true) (hpeer : n.isRemotePeer src = true)
    (hs : Signed src (.appendEntries m)) (hm : S.EntriesOK h src m) :
    m.valid n src = true ∧ 0 ≤ m.prevLogTerm := by
  obtain ⟨hid, hrpc⟩ := hs
  obtain ⟨hl, ⟨pre, hlen, hlast, hpre⟩, p, hcommit, -, -⟩ := hm
  obtain ⟨hzero, hpos, hle⟩ :=
    lastTerm_of_prefix hinv hl ((List.prefix_append pre m.entries).trans hpre)
  have hmax := length_lt_of_prefix hinv hl hpre
  rw [List.length_append] at hmax
  have hentries := validEntries_of_matched hinv ((hinv.leader_matched hl).initial hpre)
    fun e he => hinv.leaderLog_terms hl e (hpre.subset he)
  rw [hlen, hlast] at hentries
  rw [hlast] at hzero hpos hle
  have hnonneg : 0 ≤ m.prevLogTerm := by
    by_cases hne : pre = []
    · exact (hzero hne).ge
    · exact (hpos hne).le
  have hiff : m.prevLogIndex = 0 ↔ m.prevLogTerm = 0 := by
    rw [← hlen, Int.natCast_eq_zero, List.length_eq_zero_iff]
    exact ⟨hzero, fun h0 => by_contra fun hne => (hpos hne).ne' h0⟩
  have hindex : 0 ≤ m.prevLogIndex := by omega
  have hcommit₀ : 0 ≤ m.leaderCommit := by omega
  have hroom : m.prevLogIndex ≤ int64Max - m.entries.length := by omega
  refine ⟨?_, hnonneg⟩
  simp [AppendEntries.valid, hrun, hpeer, hid, hrpc, hindex, hcommit₀, hroom, hnonneg, hle,
    hentries, hiff, (hinv.leader_bound hl).1]

theorem installSnapshot_valid (hinv : Consensus.Inv S.members S.Good h) {n : Node} {src : ℤ}
    {m : InstallSnapshot} (hrun : n.running = true) (hpeer : n.isRemotePeer src = true)
    (hs : Signed src (.installSnapshot m)) (hm : S.ChunkOK h src m) : m.valid n src = true := by
  obtain ⟨hid, hrpc, hindex, hoff, hsize⟩ := hs
  obtain ⟨hl, P, hlen, hlast, hpre, -, -⟩ := hm
  obtain ⟨-, hpos, hle⟩ := lastTerm_of_prefix hinv hl hpre
  have hne : P ≠ [] := by
    rintro rfl
    simp only [List.length_nil, Nat.cast_zero] at hlen
    omega
  rw [hlast] at hpos hle
  simp [InstallSnapshot.valid, hrun, hpeer, hid, hrpc, hindex, hoff, hsize, hle, hpos hne,
    (hinv.leader_bound hl).1]

end Requests

/-- A request passes the checks with which its handler returns early. -/
def Message.Passes (n : Node) (peer : ℤ) : Message → Prop
  | .requestVote m => m.valid n peer = true
  | .appendEntries m => m.valid n peer = true ∧ 0 ≤ m.prevLogTerm
  | .installSnapshot m => m.valid n peer = true
  | _ => True

/-- Every request on the network passes the checks of a running receiver. -/
theorem requests_valid {e : Envelope} (he : e ∈ (run M actions).net) {n : Node}
    (hrun : n.running = true) (hid : n.nodeId = e.dst) (hpeers : n.allPeers = M.peers) :
    e.message.Passes n e.src := by
  obtain ⟨Γ, time, h⟩ := exists_clusterOK M actions
  obtain ⟨hsrc, -, hne⟩ := h.shared.routes e he
  obtain ⟨hs, hm⟩ := h.shared.msgs e he
  have hpeer : n.isRemotePeer e.src = true :=
    isRemotePeer_of_route hpeers (List.mem_toFinset.mp hsrc) (hid ▸ hne)
  obtain ⟨src, dst, inc, sentAt, message⟩ := e
  cases message with
  | requestVote m => exact requestVote_valid hrun hpeer hs
  | appendEntries m => exact appendEntries_valid h.inv hrun hpeer hs hm.1
  | installSnapshot m => exact installSnapshot_valid h.inv hrun hpeer hs hm.1
  | requestVoteResponse m => trivial
  | appendEntriesResponse m => trivial
  | installSnapshotResponse m => trivial

/-- The second entry of the log, on its way to node 2. -/
theorem requests_valid_trio :
    ∃ e m, e ∈ (run trio writeRun).net ∧ e.message = .appendEntries m ∧
      m.entries = [⟨2, 1, setCommand⟩] ∧
      e.message.Passes { trio.boot 2 false with running := true } e.src := by
  have he : Envelope.mk 1 2 1 (209 * ms) (.appendEntries ⟨1, 1, 1, 1, [⟨2, 1, setCommand⟩], 1, 4⟩) ∈
      (run trio writeRun).net := by decide +kernel
  exact ⟨_, _, he, rfl, rfl, requests_valid he rfl rfl rfl⟩

end RaftKV
