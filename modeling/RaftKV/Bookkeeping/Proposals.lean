import RaftKV.Bookkeeping.Rounds
import RaftKV.Node.Facts

/-!
# The books of proposals

A row leaves the pending table when its entry is applied, when it expires, or when the table is
failed as a whole. Each time the rows are taken out first (`Books.take`), which puts their calls
in hand, and their callbacks are invoked one after the other (`settle_spec`).

`FinishApply` moves `_last_applied` over a batch : the reads up to it are served, the rows up to
it are taken out and answered with the results of the batch. `ApplyCommitted` goes on until
nothing is left to apply or a batch is with the executor (`Live`).
-/

namespace RaftKV

open RaftM GhostLogic Accounts

variable {M : Membership} {v : ℤ} {off : Prop} {h : Hand} {c c' : Context}

/-! ## Events of proposals -/

section Events

variable {t : List (ℤ × Event)} {l : List ℕ} {call : ℕ} {index term : ℤ} {command reply : Bytes}
  {ok : Bool}

theorem open_proposals_settled (hl : Open (proposalCalls v) t (call :: l)) :
    Open (proposalCalls v) (t ++ [(v, .proposal call index command term ok reply)]) l :=
  hl.closed (callsOf_drops ..) (callsOf_closes ..)

theorem open_reads_settled (hl : Open (readCalls v) t l) :
    Open (readCalls v) (t ++ [(v, .proposal call index command term ok reply)]) l :=
  hl.skip (callsOf_drops ..) (callsOf_closes ..) (callsOf_opens ..)

/-- An admission opens a call if there is a callback. -/
theorem open_proposals_proposed (hl : Open (proposalCalls v) t l) (index term : ℤ)
    (command : Bytes) (callback : Bool) :
    Open (proposalCalls v) (t ++ [(v, .proposed index term command callback)])
      (l ++ if callback then [t.length] else []) := by
  cases callback with
  | true =>
    exact (hl.opened (e := (v, Event.proposed index term command true)) (callsOf_drops ..)
      (callsOf_closes ..) (callsOf_opens ..)).perm (List.perm_append_singleton _ _).symm
  | false =>
    rw [if_neg Bool.false_ne_true, List.append_nil]
    exact hl.skip (callsOf_drops ..) (callsOf_closes ..) (callsOf_opens ..)

theorem open_reads_proposed (hl : Open (readCalls v) t l) (index term : ℤ) (command : Bytes)
    (callback : Bool) : Open (readCalls v) (t ++ [(v, .proposed index term command callback)]) l :=
  hl.skip (callsOf_drops ..) (callsOf_closes ..) (callsOf_opens ..)

end Events

/-! ## Answering proposals -/

/-- A callback may be invoked with this outcome. -/
def OutcomeFine (v : ℤ) (t : List (ℤ × Event)) (item : ℤ × Pending) (ok : Bool) (reply : Bytes) :
    Prop :=
  ok = true → Replied v t item.1 reply ∧
    t[item.2.call]? = some (v, .proposed item.1 item.2.term item.2.command item.2.callback.isSome)

theorem Replied.mono {t t' : List (ℤ × Event)} {index : ℤ} {reply : Bytes}
    (hr : Replied v t index reply) (hp : t <+: t') : Replied v t' index reply := by
  obtain ⟨first, commands, results, hmem, hrest⟩ := hr
  exact ⟨first, commands, results, hp.subset hmem, hrest⟩

theorem OutcomeFine.mono {t t' : List (ℤ × Event)} {item : ℤ × Pending} {ok : Bool}
    {reply : Bytes} (ho : OutcomeFine v t item ok reply) (hp : t <+: t') :
    OutcomeFine v t' item ok reply :=
  fun hok => ⟨(ho hok).1.mono hp, getElem?_of_isPrefix hp (ho hok).2⟩

theorem Books.settle {item : ℤ × Pending} {l : List ℕ} {callback : ProposeCallback} {ok : Bool}
    {reply : Bytes} (hcb : item.2.callback = some callback)
    (hb : Books M v off { h with proposals := item.2.call :: l } c)
    (ho : OutcomeFine v c.trace item ok reply) :
    Books M v off { h with proposals := l } { c with trace := c.trace ++
      [(v, .proposal item.2.call item.1 item.2.command item.2.term ok reply)] } := by
  have hopen : Open (proposalCalls v) (c.trace ++
      [(v, .proposal item.2.call item.1 item.2.command item.2.term ok reply)])
      (l ++ proposalsHeld c.node.pending) := open_proposals_settled hb.proposals
  refine hb.extend (List.prefix_append _ _) (hb.sound.concat ⟨_, hopen⟩
    ⟨_, open_reads_settled hb.reads⟩ fun _ => ?_) hopen (open_reads_settled hb.reads)
  cases ok with
  | false => trivial
  | true =>
    have := ho rfl
    rw [hcb] at this
    exact this

/-- What a node that is not leader keeps altogether, and a leader keeps its role. -/
def stillView (c : Context) : Bool × Option (Node × Executor) :=
  (c.node.isLeader, if c.node.isLeader then none else some (c.node, c.exec))

theorem runScript_still (hv : v ∈ M.peers) (script : Script) :
    Leaves M v off stillView (runScript script) := by
  intro h c hh hb
  by_cases hlead : c.node.isLeader = true
  · refine gwp_mono (Calm.runScript hv script h c hh hb) fun _ _ c' _ hp => ⟨hp.1, ?_⟩
    have hv' := hp.2
    have hrun : c'.node.running = c.node.running := congrArg (fun x => x.1.running) hv'
    have hrole : c'.node.role = c.node.role := congrArg (fun x => x.2.2) hv'
    have hlead' : c'.node.isLeader = true := by
      rw [Node.isLeader, hrun, hrole]
      exact hlead
    rw [stillView, stillView, hlead, hlead']
    rfl
  · rw [Bool.not_eq_true] at hlead
    refine gwp_mono (runScript_idle script hh hb hlead) fun _ _ c' _ hp => ⟨hp.1, ?_⟩
    rw [stillView, stillView, hp.2.1, hp.2.2]

section Settle

variable {δ : Type} {f : Context → δ} (hs : ∀ script, Leaves M v off f (runScript script))
  (hf : ∀ (c : Context) t env, f { c with trace := t, env := env } = f c)

include hs hf

/-- The callback of a row that was taken out. -/
theorem books_invokeProposal {item : ℤ × Pending} {l : List ℕ} {ok : Bool} {reply : Bytes}
    (hh : h.reads = []) (hb : Books M v off { h with proposals := proposalsHeld [item] ++ l } c)
    (ho : OutcomeFine v c.trace item ok reply) :
    (books M v).gwp (invokeProposal item ok reply) (fun _ _ c' =>
      Books M v off { h with proposals := l } c' ∧ f c' = f c) () c := by
  rw [invokeProposal]
  cases hcb : item.2.callback with
  | none =>
    rw [proposalsHeld, List.filterMap_cons_none (by rw [hcb]; rfl)] at hb
    exact gwp_pure ⟨hb, rfl⟩
  | some callback =>
    rw [proposalsHeld, List.filterMap_cons_some (by rw [hcb]; rfl)] at hb
    refine books_crashPoint hb.sound fun env => books_observe hb.id ?_
    exact gwp_mono (hs _ { h with proposals := l } _ hh ((hb.settle hcb ho).congr rfl))
      fun _ _ _ _ ⟨hb', hv'⟩ => ⟨hb', hv'.trans (hf c _ env)⟩

/-- A loop that invokes the callbacks of rows that were taken out. -/
theorem settle_spec (ok : Bool) (reply : ℤ × Pending → Bytes)
    (items : List (ℤ × Pending)) {l : List ℕ} (hh : h.reads = [])
    (hb : Books M v off { h with proposals := proposalsHeld items ++ l } c)
    (ho : ∀ item ∈ items, OutcomeFine v c.trace item ok (reply item)) :
    (books M v).gwp (items.forM fun item => invokeProposal item ok (reply item)) (fun _ _ c' =>
      Books M v off { h with proposals := l } c' ∧ f c' = f c) () c := by
  induction items generalizing c with
  | nil => exact gwp_pure ⟨hb, rfl⟩
  | cons item items ih =>
    rw [books_forM_cons]
    have hsplit : proposalsHeld (item :: items) = proposalsHeld [item] ++ proposalsHeld items := by
      rw [proposalsHeld, ← List.singleton_append, List.filterMap_append, proposalsHeld,
        proposalsHeld]
    rw [hsplit, List.append_assoc] at hb
    refine gwp_seq (books_invokeProposal hs hf hh hb (ho item List.mem_cons_self))
      fun _ _ c₁ hp ⟨hb₁, hv₁⟩ => ?_
    exact gwp_mono (ih hb₁ fun x hx => (ho x (List.mem_cons_of_mem _ hx)).mono hp)
      fun _ _ _ _ ⟨hb₂, hv₂⟩ => ⟨hb₂, hv₂.trans hv₁⟩

theorem failProposals_spec (reply : Bytes) (items : List (ℤ × Pending)) (hh : h.reads = [])
    (hb : Books M v off { h with proposals := proposalsHeld items ++ h.proposals } c) :
    (books M v).gwp (failProposals reply items) (fun _ _ c' =>
      Books M v off h c' ∧ f c' = f c) () c :=
  settle_spec hs hf false (fun _ => reply) items hh hb fun _ _ hok => by cases hok

end Settle

/-! ## Rows that leave the table -/

theorem pendingSize_filter (p : ℤ × Pending → Prop) [DecidablePred p] (items : List (ℤ × Pending)) :
    pendingSize (items.filter p) + pendingSize (items.filter fun x => ¬p x) =
      pendingSize items := by
  simp only [pendingSize]
  rw [← List.sum_append, ← List.map_append]
  refine (List.Perm.map _ ?_).sum_eq
  simpa using List.filter_append_perm (fun x => decide (p x)) items

/-- Rows are taken out of the table, and their calls are in hand. -/
theorem Books.take (hb : Books M v off h c) (p : ℤ × Pending → Prop) [DecidablePred p] :
    Books M v off { h with proposals := proposalsHeld (c.node.pending.filter p) ++ h.proposals }
      { c with node := { c.node with
        pending := c.node.pending.filter fun x => ¬p x
        pendingBytes := c.node.pendingBytes - pendingSize (c.node.pending.filter p) } } := by
  have hsize := pendingSize_filter p c.node.pending
  have hperm : (c.node.pending.filter p ++ c.node.pending.filter fun x => ¬p x).Perm
      c.node.pending := by
    simpa using List.filter_append_perm (fun x => decide (p x)) c.node.pending
  exact
    { hb with
      proposals := by
        refine hb.proposals.perm ?_
        have := (hperm.symm.filterMap fun item => item.2.callback.map fun _ => item.2.call)
        rw [List.filterMap_append] at this
        refine (List.Perm.append_left h.proposals this).trans ?_
        rw [← List.append_assoc]
        exact List.Perm.append_right _ List.perm_append_comm
      rows := fun item hi => hb.rows item (List.mem_filter.mp hi).1
      bytes := by
        change c.node.pendingBytes - _ = pendingSize (c.node.pending.filter fun x => ¬p x)
        rw [hb.bytes]
        omega
      capacity := by
        refine ⟨(List.length_filter_le _ _).trans hb.capacity.1, ?_⟩
        exact (Nat.sub_le _ _).trans hb.capacity.2 }

theorem Books.takeAll (hb : Books M v off h c) :
    Books M v off { h with proposals := proposalsHeld c.node.pending ++ h.proposals }
      { c with node := { c.node with pending := [], pendingBytes := 0 } } := by
  have hb₁ := hb.take fun _ => True
  simp only [decide_true, List.filter_true, not_true_eq_false, decide_false,
    List.filter_false] at hb₁
  refine hb₁.congr ?_
  rw [hb.bytes, Nat.sub_self]

section

variable (hv : v ∈ M.peers)

include hv

theorem Calm.failPending (result : String) : Calm M v off (failPending result) := by
  intro h c hh hb
  rw [RaftKV.failPending, books_getNode]
  exact books_modifyNode
    (failProposals_spec (Calm.runScript hv) (fun _ _ _ => rfl) _ _ hh hb.takeAll)

/-- The table of a node that is not leader is failed. -/
theorem failPending_idle (result : String) (hh : h.reads = []) (hb : Books M v off h c)
    (hidle : c.node.isLeader = false) :
    (books M v).gwp (failPending result) (fun _ _ c' => Books M v off h c' ∧
      c'.node = { c.node with pending := [], pendingBytes := 0 } ∧ c'.exec = c.exec) () c := by
  rw [failPending, books_getNode]
  refine books_modifyNode (gwp_mono
    (failProposals_spec (runScript_still hv) (fun _ _ _ => rfl) _ _ hh
    hb.takeAll) fun _ _ c' _ ⟨hb', hv'⟩ => ⟨hb', ?_⟩)
  have hlead : Node.isLeader { c.node with pending := [], pendingBytes := 0 } = false := hidle
  rw [stillView, stillView] at hv'
  obtain ⟨hl', hn⟩ := Prod.mk.inj hv'
  rw [hlead] at hl'
  rw [hl', hlead] at hn
  exact Prod.mk.inj (Option.some.inj hn)

theorem Calm.expireUncommittedProposals : Calm M v off expireUncommittedProposals := by
  intro h c hh hb
  rw [RaftKV.expireUncommittedProposals]
  refine books_now fun time env => ?_
  rw [books_getNode]
  have hb₁ := hb.take fun item => c.node.commitIndex < item.1 ∧
    kProposalTimeoutMs * ms ≤ time - item.2.createdAt
  exact books_modifyNode (gwp_mono (failProposals_spec (Calm.runScript hv) (fun _ _ _ => rfl) _ _ hh
    (hb₁.congr rfl)) fun _ _ _ _ hc => hc)

/-! ## Finishing a batch -/

omit hv in
theorem Calm.enableReads : Calm M v off enableReads := by
  refine Leaves.getLog fun log => Calm.modifyNode (fun c => ?_) fun c => ?_
  · split_ifs <;> rfl
  · split_ifs <;> rfl

omit hv in
theorem Books.advance (hb : Books M v off h c) (applied : ℤ) (hle : c.node.lastApplied ≤ applied) :
    Books M v off h { c with node := { c.node with lastApplied := applied } } :=
  { hb with served := hb.served.trans hle }

omit hv in
/-- The rows of a batch are taken out, and the others are after it. -/
theorem Books.takeBatch (hb : Books M v off h c) {first : ℤ} (count : ℕ)
    (hfloor : h.floor + 1 = first) :
    Books M v off { h with
        proposals := proposalsHeld
          (c.node.pending.filter fun item => first ≤ item.1 ∧ item.1 < first + count) ++ h.proposals
        floor := h.floor + count }
      { c with node := { c.node with
        pending := c.node.pending.filter fun item => ¬(first ≤ item.1 ∧ item.1 < first + count)
        pendingBytes := c.node.pendingBytes - pendingSize
          (c.node.pending.filter fun item => first ≤ item.1 ∧ item.1 < first + count) } } := by
  have hb₁ := hb.take fun item => first ≤ item.1 ∧ item.1 < first + count
  refine { hb₁ with rows := fun item hi => { hb₁.rows item hi with above := ?_ } }
  have hrest := of_decide_eq_true (List.mem_filter.mp hi).2
  have habove := (hb₁.rows item hi).above
  change h.floor < item.1 at habove
  change h.floor + count < item.1
  omega

/-- `FinishApply` on a batch that was applied. -/
theorem finishApply_spec {first : ℤ} {count : ℕ} {results commands : List Bytes} (hh : h.reads = [])
    (hfloor : h.floor = c.node.lastApplied) (hb : Books M v off h c)
    (hlen : commands.length = count)
    (happlied : (v, Event.applied first commands results) ∈ c.trace) :
    (books M v).gwp (finishApply first count results) (fun _ _ c' =>
      Books M v off { h with
        floor := c.node.lastApplied + count
        served := c.node.lastApplied + count } c' ∧
      calmView c' = calmView { c with node := { c.node with
        lastApplied := c.node.lastApplied + count } }) () c := by
  rw [finishApply, books_getNode]
  refine gwp_ite (fun _ => books_fail hb.sound) fun hbad => ?_
  push Not at hbad
  obtain ⟨hfirst, hresults⟩ := hbad
  have hb₁ := hb.advance (c.node.lastApplied + count) (by omega)
  refine books_modifyNode (gwp_seq (Calm.enableReads h _ hh hb₁) fun _ _ c₂ hp₂ ⟨hb₂, hv₂⟩ => ?_)
  have hap₂ : c₂.node.lastApplied = c.node.lastApplied + count :=
    congrArg (fun x => x.1.lastApplied) hv₂
  refine gwp_seq (processPendingReads_spec hv hh hb₂) fun _ _ c₃ hp₃ ⟨hb₃, hv₃⟩ => ?_
  rw [hap₂] at hb₃
  rw [takePending, bind_assoc, books_getNode, bind_assoc]
  refine books_modifyNode ?_
  rw [pure_bind]
  have hstart : h.floor + 1 = first := by omega
  have hb₄ := hb₃.takeBatch count hstart
  change c.trace <+: c₂.trace at hp₂
  refine gwp_mono (settle_spec (Calm.runScript hv) (fun _ _ _ => rfl) true
    (fun item => results.getD (item.1 - first).toNat []) _
    (h := { h with floor := h.floor + count, served := c.node.lastApplied + count }) hh hb₄
    fun item hi _ => ?_) fun _ _ c₅ _ ⟨hb₅, hv₅⟩ => ⟨?_, (hv₅.trans hv₃).trans hv₂⟩
  · obtain ⟨hmem, hin⟩ := List.mem_filter.mp hi
    have hin := of_decide_eq_true hin
    refine ⟨⟨first, commands, results, (hp₂.trans hp₃).subset happlied, hin.1, by omega, ?_⟩,
      (hb₃.rows item hmem).call⟩
    rw [List.getD_eq_getElem?_getD, List.getElem?_eq_getElem (by omega)]
    rfl
  · rw [hfloor] at hb₅
    exact hb₅

/-! ## Applying -/

omit hv in
theorem applyToStore_spec (first : ℤ) (commands : List Bytes) (hb : Books M v off h c) :
    (books M v).gwp (applyToStore first commands) (fun results _ c' => Books M v off h c' ∧
      (v, Event.applied first commands results) ∈ c'.trace ∧ calmView c' = calmView c) () c := by
  rw [applyToStore, runStore, bind_assoc]
  refine books_crashPoint hb.sound fun env => ?_
  rw [bind_assoc, gwp_get_bind]
  dsimp only
  cases applyBatch true first commands c.sm with
  | ok results sm =>
    rw [bind_assoc]
    refine gwp_bind (gwp_modify () List.prefix_rfl ?_)
    rw [pure_bind]
    refine books_observe hb.id (gwp_pure ⟨(hb.note rfl).congr rfl, ?_, rfl⟩)
    exact List.mem_append_right _ List.mem_cons_self
  | error text sm =>
    rw [bind_assoc]
    exact gwp_bind (gwp_modify () List.prefix_rfl (books_fail hb.sound))

omit hv in
theorem CompletionFine.error {t : List (ℤ × Event)} {first : ℤ} {count : ℕ} {text : String} :
    CompletionFine v t ⟨first, count, .error text⟩ := by
  intro results hres
  cases hres

omit hv in
theorem Books.post (hb : Books M v off h c) {completion : Completion}
    (hfine : CompletionFine v c.trace completion) (sm : Store) :
    Books M v off h { c with
      sm := sm
      exec := { job := none, completions := c.exec.completions ++ [completion] } } :=
  { hb with
    completions := fun x hx => by
      rcases List.mem_append.mp hx with hx | hx
      · exact hb.completions x hx
      · rw [List.mem_singleton.mp hx]
        exact hfine }

omit hv in
theorem Mild.runWorker : Mild M v off runWorker := by
  intro h c _ hb
  rw [RaftKV.runWorker, gwp_get_bind]
  cases hjob : c.exec.job with
  | none => exact gwp_pure ⟨hb, rfl⟩
  | some job =>
    have hview : ∀ {completion : Completion} {trace env sm},
        applyView { c with
          sm := sm
          exec := { job := none, completions := c.exec.completions ++ [completion] }
          trace := trace
          env := env } = applyView c := by
      intro completion trace env sm
      simp [applyView, Executor.loaded, hjob]
    refine books_crashPoint hb.sound fun env => ?_
    rw [gwp_get_bind]
    dsimp only
    cases applyBatch true job.first job.commands c.sm with
    | ok results sm =>
      refine gwp_bind (gwp_modify () List.prefix_rfl ?_)
      rw [← bind_pure (observe _)]
      refine books_observe hb.id (gwp_pure ⟨?_, hview⟩)
      refine ((hb.note (e := .applied job.first job.commands results) rfl).post ?_ sm).congr rfl
      rintro _ ⟨⟩
      exact ⟨job.commands, rfl, List.mem_append_right _ List.mem_cons_self⟩
    | error text sm =>
      exact gwp_modify () List.prefix_rfl ⟨(hb.post CompletionFine.error sm).congr rfl, hview⟩

omit hv in
theorem Mild.submitApply (first : ℤ) (commands : List Bytes) (hh : h.reads = [])
    (hb : Books M v off h c) :
    (books M v).gwp (submitApply first commands) (fun _ _ c' => Books M v off h c' ∧
      applyView c' = { applyView c with applyInflight := true, loaded := true }) () c := by
  rw [RaftKV.submitApply]
  refine books_modifyNode ?_
  rw [gwp_get_bind]
  split_ifs
  · exact books_fail hb.sound
  refine gwp_bind (gwp_modify () List.prefix_rfl ?_)
  rw [gwp_get_bind]
  refine gwp_bind (gwp_modify () List.prefix_rfl ?_)
  split_ifs
  · exact gwp_mono (Mild.runWorker h _ hh (hb.congr rfl)) fun _ _ _ _ hc => hc
  · exact gwp_pure ⟨hb.congr rfl, rfl⟩

omit hv in
theorem Mild.maybeSnapshot : Mild M v off maybeSnapshot := by
  intro h c _ hb
  rw [RaftKV.maybeSnapshot, books_getNode, books_getLog]
  split_ifs
  · rw [gwp_get_bind]
    cases c.sm.exportSnapshot with
    | error text => exact books_fail hb.sound
    | ok data =>
      rw [gwp_get_bind]
      refine books_observe hb.id (books_modifyNode ?_)
      have hb₁ := hb.note (e := .exported c.node.lastApplied c.busy) rfl
      split_ifs
      · exact gwp_pure ⟨hb₁.congr rfl, rfl⟩
      · rw [← bind_pure (writeLog _ _)]
        exact books_writeLog hb₁.sound fun log env _ => gwp_pure ⟨hb₁.congr rfl, rfl⟩
  · exact gwp_pure ⟨hb, rfl⟩

omit hv in
variable (M v off) in
/-- The books between methods : nothing is in hand, the pending table is after `_last_applied`,
and without lease reads so are the waiting reads. -/
abbrev Kept (c : Context) : Prop :=
  Books M v off ⟨[], [], c.node.lastApplied, c.node.lastApplied⟩ c

omit hv in
/-- Nothing is left to apply, or a batch is with the executor. -/
def Caught (c : Context) : Prop :=
  c.node.running = true → c.node.applyInflight = false → c.node.commitIndex ≤ c.node.lastApplied

omit hv in
/-- A batch in flight is with the executor. -/
def Backed (c : Context) : Prop :=
  c.node.applyInflight = true → c.exec.loaded = true

omit hv in
variable (M v off) in
/-- A node between methods. -/
structure Live (c : Context) : Prop where
  kept : Kept M v off c
  caught : Caught c
  backed : Backed c

omit hv in
theorem Books.settled {applied : ℤ} (hb : Books M v off ⟨[], [], applied, applied⟩ c)
    (ha : c.node.lastApplied = applied) : Kept M v off c := by
  rw [Kept, ha]
  exact hb

omit hv in
theorem Backed.congr (hb : Backed c) (ha : applyView c' = applyView c) : Backed c' := by
  intro hflight
  exact (congrArg ApplyView.loaded ha).trans
    (hb ((congrArg ApplyView.applyInflight ha).symm.trans hflight))

omit hv in
/-- A node that has applied nothing since. -/
theorem Live.still (hl : Live M v off c)
    (hb : Books M v off ⟨[], [], c.node.lastApplied, c.node.lastApplied⟩ c')
    (ha : applyView c' = applyView c) : Live M v off c' := by
  have hlast : c'.node.lastApplied = c.node.lastApplied := congrArg ApplyView.lastApplied ha
  have hcommit : c'.node.commitIndex = c.node.commitIndex := congrArg ApplyView.commitIndex ha
  refine ⟨hb.settled hlast, fun hrun hfree => ?_, hl.backed.congr ha⟩
  rw [hcommit, hlast]
  exact hl.caught ((congrArg ApplyView.running ha).symm.trans hrun)
    ((congrArg ApplyView.applyInflight ha).symm.trans hfree)

omit hv in
theorem Live.mild {α : Type} {m : RaftM α} (hl : Live M v off c) (hm : Mild M v off m) :
    (books M v).gwp m (fun _ _ c' => Live M v off c') () c :=
  gwp_mono (hm _ _ rfl hl.kept) fun _ _ _ _ ⟨hb, ha⟩ => hl.still hb ha

theorem applyNow_spec (commands : List Bytes) (hk : Kept M v off c) :
    (books M v).gwp (onFailure (modifyNode fun n => { n with storageHealthy := false }) do
        let results ← applyToStore (c.node.lastApplied + 1) commands
        finishApply (c.node.lastApplied + 1) commands.length results)
      (fun _ _ c' => Kept M v off c' ∧
        c'.node.lastApplied = c.node.lastApplied + commands.length ∧
        c'.node.commitIndex = c.node.commitIndex ∧
        c'.node.applyInflight = c.node.applyInflight) () c := by
  refine books_onFailure ?_ fun c' hs => books_modifyNode_last hs
  refine gwp_seq (applyToStore_spec _ commands hk) fun results _ c₁ _ ⟨hb₁, hmem, hv₁⟩ => ?_
  have hlast : c₁.node.lastApplied = c.node.lastApplied := congrArg (fun x => x.1.lastApplied) hv₁
  have hcommit : c₁.node.commitIndex = c.node.commitIndex := congrArg (fun x => x.1.commitIndex) hv₁
  refine gwp_mono (finishApply_spec hv rfl hlast.symm hb₁ rfl hmem) fun _ _ c₂ _ ⟨hb₂, hv₂⟩ => ?_
  have hlast' : c₂.node.lastApplied = c₁.node.lastApplied + commands.length :=
    congrArg (fun x => x.1.lastApplied) hv₂
  refine ⟨hb₂.settled hlast', by rw [hlast', hlast], ?_, ?_⟩
  · exact (congrArg (fun x => x.1.commitIndex) hv₂).trans hcommit
  · exact (congrArg (fun x => x.1.applyInflight) hv₂).trans
      (congrArg (fun x => x.1.applyInflight) hv₁)

/-- The loop of `ApplyCommitted`. Each turn applies at least one entry. -/
theorem applyBatchesLoop_spec (turns : ℕ) (hk : Kept M v off c)
    (hfree : c.node.applyInflight = false)
    (hturns : (c.node.commitIndex - c.node.lastApplied).toNat ≤ turns) :
    (books M v).gwp (applyBatchesLoop turns) (fun _ _ c' => Live M v off c') () c := by
  have hbacked : ∀ {c : Context}, c.node.applyInflight = false → Backed c :=
    fun hfree hflight => by rw [hfree] at hflight; cases hflight
  induction turns generalizing c with
  | zero => exact Live.mild ⟨hk, fun _ _ => by omega, hbacked hfree⟩ Mild.maybeSnapshot
  | succ turns ih =>
    rw [applyBatchesLoop, books_getNode, books_getLog]
    refine gwp_ite (fun hgo => ?_) fun hgo => ?_
    · cases hc : collectCommands c.log c.node.commitIndex (kMaxBatchEntries + 1)
        (c.node.lastApplied + 1) 0 0 with
      | error text => exact books_fail hk.sound
      | ok commands =>
        dsimp only
        refine gwp_ite (fun hasync => ?_) fun hasync => ?_
        · refine gwp_mono (Mild.submitApply _ commands rfl hk) fun _ _ c' _ ⟨hb', hv'⟩ => ?_
          refine ⟨hb'.settled (congrArg ApplyView.lastApplied hv'), fun _ hfree' => ?_,
            fun _ => congrArg ApplyView.loaded hv'⟩
          have := (congrArg ApplyView.applyInflight hv').symm.trans hfree'
          cases this
        · have hpos := collectCommands_pos (by omega) hc
          refine gwp_seq (applyNow_spec hv commands hk)
            fun _ _ c₁ _ ⟨hk₁, hlast, hcommit, hflight⟩ => ?_
          exact ih hk₁ (hflight.trans hfree) (by rw [hlast, hcommit]; omega)
    · exact Live.mild ⟨hk, fun hrun _ => not_lt.mp fun hlt => hgo ⟨hrun, hlt⟩, hbacked hfree⟩
        Mild.maybeSnapshot

theorem applyCommitted_spec (hk : Kept M v off c) (hbacked : Backed c) :
    (books M v).gwp applyCommitted (fun _ _ c' => Live M v off c') () c := by
  rw [applyCommitted, books_getNode]
  refine gwp_ite (fun hbusy => ?_) fun hbusy => ?_
  · refine gwp_pure ⟨hk, fun _ hfree => ?_, hbacked⟩
    rw [hbusy] at hfree
    cases hfree
  · exact applyBatchesLoop_spec hv _ hk (Bool.eq_false_iff.mpr hbusy) le_rfl

theorem runCompletion_spec (hl : Live M v off c) :
    (books M v).gwp runCompletion (fun _ _ c' => Live M v off c') () c := by
  rw [runCompletion, gwp_get_bind]
  cases hq : c.exec.completions with
  | nil => exact gwp_pure hl
  | cons completion rest =>
    have hk := hl.kept
    have hfine := hk.completions completion (by rw [hq]; exact List.mem_cons_self)
    have hb₁ : Books M v off ⟨[], [], c.node.lastApplied, c.node.lastApplied⟩
        { c with exec := { c.exec with completions := rest } } :=
      { hk with
        completions := fun x hx => hk.completions x (by rw [hq]; exact List.mem_cons_of_mem _ hx) }
    refine gwp_bind (gwp_modify () List.prefix_rfl ?_)
    cases hres : completion.results with
    | error text => exact books_modifyNode (books_fail hk.sound)
    | ok results =>
      obtain ⟨commands, hlen, hmem⟩ := hfine results hres
      refine gwp_seq (finishApply_spec hv rfl rfl hb₁ hlen hmem) fun _ _ c₂ _ ⟨hb₂, hv₂⟩ => ?_
      have hk₂ : Kept M v off c₂ := hb₂.settled (congrArg (fun x => x.1.lastApplied) hv₂)
      exact books_modifyNode (applyCommitted_spec hv (hk₂.congr rfl) Bool.false_ne_true.elim)

/-! ## The commit index -/

omit hv in
theorem Books.commit (hb : Books M v off h c) {commit : ℤ} (hle : c.node.commitIndex ≤ commit) :
    Books M v off h { c with node := { c.node with commitIndex := commit } } :=
  { hb with bound := fun hoff q hq => (hb.bound hoff q hq).trans hle }

theorem advanceCommitIndex_spec (hk : Kept M v off c) (hbacked : Backed c) :
    (books M v).gwp advanceCommitIndex (fun _ _ c' => Live M v off c') () c := by
  rw [advanceCommitIndex, books_getLog]
  refine books_modifyNode ?_
  split_ifs with hmove
  · exact applyCommitted_spec hv (hk.commit hmove.1.le) hbacked
  · exact applyCommitted_spec hv hk hbacked

/-! ## Admission -/

omit hv in
variable (M v) in
/-- Rows that were added to the pending table while the trace grew. -/
structure RowsFine (t t' : List (ℤ × Event)) (floor : ℤ) (rows : List (ℤ × Pending)) : Prop where
  proposals : ∀ l, Open (proposalCalls v) t l → Open (proposalCalls v) t' (l ++ proposalsHeld rows)
  reads : ∀ l, Open (readCalls v) t l → Open (readCalls v) t' l
  sound : Sound M v t → Sound M v t'
  rows : ∀ item ∈ rows, RowFine v t' floor item

omit hv in
theorem addPending_spec (floor : ℤ) : ∀ (first : ℤ) (ps : List Proposal) {c : Context},
    c.node.nodeId = v → floor < first →
    (books M v).gwp (addPending first ps) (fun _ _ c' => ∃ rows t env,
      c' = { c with
        node := { c.node with pending := c.node.pending ++ rows }
        trace := t
        env := env } ∧
      rows.length = ps.length ∧ pendingSize rows = (ps.map fun p => p.command.length).sum ∧
      RowsFine M v c.trace t floor rows) () c
  | first, [], c, _, _ => by
    refine gwp_pure ⟨[], c.trace, c.env, by simp, rfl, rfl, ?_⟩
    refine ⟨fun l hl => ?_, fun _ hl => hl, fun hs => hs, fun item hi => by cases hi⟩
    simpa [proposalsHeld] using hl
  | first, p :: ps, c, hid, hfloor => by
    rw [addPending]
    refine books_now fun time env => ?_
    rw [books_getNode]
    refine books_mark hid (books_modifyNode ?_)
    set e : Event := .proposed first c.node.currentTerm p.command p.callback.isSome with he
    set row : ℤ × Pending := (first, ⟨p.callback, p.command.length, time, c.trace.length,
      c.node.currentTerm, p.command⟩) with hrow
    refine gwp_mono (addPending_spec floor (first + 1) ps hid (by omega))
      fun _ _ c' hp ⟨rows, t, env', hc', hlen, hsize, hfine⟩ => ?_
    subst hc'
    change c.trace ++ [(v, e)] <+: t at hp
    have hheld : proposalsHeld (row :: rows) =
        (if p.callback.isSome then [c.trace.length] else []) ++ proposalsHeld rows := by
      rw [proposalsHeld, proposalsHeld]
      cases hcb : p.callback <;> simp [hrow, hcb]
    refine ⟨row :: rows, t, env', by simp, by simp [hlen], ?_, fun l hl => ?_, fun l hl => ?_,
      fun hs => ?_, fun item hi => ?_⟩
    · rw [pendingSize, List.map_cons, List.sum_cons, ← pendingSize, hsize, List.map_cons,
        List.sum_cons]
    · rw [hheld, ← List.append_assoc]
      exact hfine.proposals _ (open_proposals_proposed hl _ _ _ _)
    · exact hfine.reads _ (open_reads_proposed hl _ _ _ _)
    · refine hfine.sound ?_
      obtain ⟨l, hl⟩ := hs.proposals
      obtain ⟨r, hr⟩ := hs.reads
      exact hs.concat ⟨_, open_proposals_proposed hl _ _ _ _⟩ ⟨_, open_reads_proposed hr _ _ _ _⟩
        fun _ => trivial
    · rcases List.mem_cons.mp hi with rfl | hi
      · exact ⟨getElem?_of_isPrefix hp List.getElem?_concat_length, hfloor⟩
      · exact hfine.rows item hi

omit hv in
theorem Books.admitted (hb : Books M v off h c) {rows : List (ℤ × Pending)} {t : List (ℤ × Event)}
    {bytes : ℕ} (hp : c.trace <+: t) (hsize : pendingSize rows = bytes)
    (hlen : c.node.pending.length + rows.length ≤ kMaxPending)
    (hbytes : c.node.pendingBytes + bytes ≤ kMaxPendingBytes)
    (hfine : RowsFine M v c.trace t h.floor rows) :
    Books M v off h { c with
      node := { c.node with
        pending := c.node.pending ++ rows, pendingBytes := c.node.pendingBytes + bytes }
      trace := t } :=
  { hb with
    sound := hfine.sound hb.sound
    proposals := by
      change Open (proposalCalls v) t (h.proposals ++ proposalsHeld (c.node.pending ++ rows))
      rw [proposalsHeld, List.filterMap_append, ← List.append_assoc]
      exact hfine.proposals _ hb.proposals
    rows := fun item hi => by
      rcases List.mem_append.mp hi with hi | hi
      · exact (hb.rows item hi).mono hp
      · exact hfine.rows item hi
    bytes := by
      change c.node.pendingBytes + bytes = pendingSize (c.node.pending ++ rows)
      rw [hb.bytes, ← hsize, pendingSize, pendingSize, pendingSize, List.map_append,
        List.sum_append]
    capacity := ⟨by simpa using hlen, hbytes⟩
    completions := fun x hx => (hb.completions x hx).mono hp
    reads := hfine.reads _ hb.reads
    round := fun r hr => (hb.round r hr).mono hp le_rfl
    waiting := fun q hq => (hb.waiting q hq).mono hp }

/-- `ProposeBatch` of a node whose log goes at least as far as its state machine. -/
theorem proposeBatch_spec (ps : List Proposal) (hl : Live M v off c)
    (hlast : c.node.lastApplied ≤ c.log.lastIndex) :
    (books M v).gwp (proposeBatch ps) (fun _ _ c' => Live M v off c') () c := by
  rw [proposeBatch, books_getNode, books_getLog]
  have hk := hl.kept
  cases hadm : c.node.admission ps with
  | error code => exact gwp_pure hl
  | ok bytes =>
    dsimp only
    refine gwp_ite (fun _ => books_fail hk.sound) fun hmax => ?_
    obtain ⟨-, -, -, -, hsum, hfit, hroom⟩ := Node.admitted_of_ok hadm
    obtain ⟨hpending, hbytes⟩ := hk.capacity
    refine books_onFailure_writeLog hk.sound (fun log env _ => ?_) fun env => ?_
    · refine gwp_seq (addPending_spec c.node.lastApplied _ ps hk.id (by omega))
        fun _ _ c₁ hp ⟨rows, t, env', hc₁, hrows, hsize, hfine⟩ => books_modifyNode ?_
      subst hc₁
      have hb₁ := hk.admitted hp (hsize.trans hsum.symm) (by rw [hrows]; omega) (by omega)
        hfine
      refine gwp_seq (Calm.broadcastAppendEntries _ _ rfl (hb₁.congr rfl))
        fun _ _ c₂ _ ⟨hb₂, hv₂⟩ => ?_
      have hk₂ : Kept M v off c₂ := hb₂.settled (congrArg (fun x => x.1.lastApplied) hv₂)
      have hbacked₂ : Backed c₂ := hl.backed.congr (congrArg (fun x => x.1) hv₂)
      exact gwp_seq (advanceCommitIndex_spec hv hk₂ hbacked₂) fun _ _ _ _ hl₃ => gwp_pure hl₃
    · exact books_modifyNode (gwp_mono (Calm.failPending hv _ _ _ rfl (hk.congr rfl))
        fun _ _ _ _ hc => hc.1.sound)

end

end RaftKV
