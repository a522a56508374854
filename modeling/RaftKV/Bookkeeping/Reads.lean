import RaftKV.Bookkeeping.Books

/-!
# The books of reads

A callback that a loop invokes only rejects or enqueues (`Nested`), so what it does is told by
the requests it adds to the two queues and the events it adds to the trace (`Adds`). A loop
invokes callbacks while the requests it answers are still in their queue, or already out of it;
either way the books are kept of the queues without what was answered (`Context.shows`). Each
turn answers one request (`Books.answer`) and adds what its callback asks for (`Books.enqueue`).
-/

namespace RaftKV

open RaftM GhostLogic Accounts

variable {M : Membership} {v : ℤ} {off : Prop} {h : Hand} {c c' : Context}

/-! ## Events of reads -/

section Events

variable {t : List (ℤ × Event)} {l : List ℕ} {call : ℕ} {ok : Bool} {readIndex lastApplied : ℤ}
  {error : String}

theorem open_reads_called (hl : Open (readCalls v) t l) (lease : Bool) :
    Open (readCalls v) (t ++ [(v, .readCalled lease)]) (l ++ [t.length]) :=
  (hl.opened (e := (v, Event.readCalled lease)) (callsOf_drops ..) (callsOf_closes ..)
    (callsOf_opens ..)).perm
    (List.perm_append_singleton _ _).symm

theorem open_reads_done (hl : Open (readCalls v) t (call :: l)) :
    Open (readCalls v) (t ++ [(v, .readDone call ok readIndex lastApplied error)]) l :=
  hl.closed (callsOf_drops ..) (callsOf_closes ..)

theorem open_proposals_called (hl : Open (proposalCalls v) t l) (lease : Bool) :
    Open (proposalCalls v) (t ++ [(v, .readCalled lease)]) l :=
  hl.skip (callsOf_drops ..) (callsOf_closes ..) (callsOf_opens ..)

theorem open_proposals_done (hl : Open (proposalCalls v) t l) :
    Open (proposalCalls v) (t ++ [(v, .readDone call ok readIndex lastApplied error)]) l :=
  hl.skip (callsOf_drops ..) (callsOf_closes ..) (callsOf_opens ..)

theorem Sound.called (hs : Sound M v t) (lease : Bool) :
    Sound M v (t ++ [(v, .readCalled lease)]) := by
  obtain ⟨l, hl⟩ := hs.proposals
  obtain ⟨r, hr⟩ := hs.reads
  exact hs.concat ⟨l, open_proposals_called hl lease⟩ ⟨_, open_reads_called hr lease⟩
    fun _ => trivial

theorem Sound.answered (hs : Sound M v t) (hr : Open (readCalls v) t (call :: l))
    (hj : ok = true → readIndex ≤ lastApplied ∧ Vouched M v t call) :
    Sound M v (t ++ [(v, .readDone call ok readIndex lastApplied error)]) := by
  obtain ⟨l, hl⟩ := hs.proposals
  refine hs.concat ⟨l, open_proposals_done hl⟩ ⟨_, open_reads_done hr⟩ fun _ => ?_
  cases ok with
  | true => exact hj rfl
  | false => trivial

end Events

/-! ## The lease -/

/-- A lease is valid only if lease reads are on. -/
theorem books_readLeaseValid {α : Type} {Q : α → Unit → Context → Prop} {k : Bool → RaftM α}
    (hfalse : ∀ env : Env, (books M v).gwp (k false) Q () { c with env := env })
    (htrue : ∀ env : Env, c.node.leaseReads = true →
      (books M v).gwp (k true) Q () { c with env := env }) :
    (books M v).gwp (readLeaseValid >>= k) Q () c := by
  refine gwp_bind ?_
  rw [readLeaseValid, books_getNode]
  refine gwp_ite (fun _ => gwp_pure (hfalse c.env)) fun hoff => ?_
  push Not at hoff
  refine books_now fun time env => ?_
  have hany : ∀ b : Bool, (books M v).gwp (k b) Q () { c with env := env } := by
    intro b
    cases b with
    | true => exact htrue env hoff.1
    | false => exact hfalse env
  refine gwp_ite (fun _ => gwp_pure (hany _)) fun hearly => ?_
  refine gwp_ite (fun _ => gwp_pure (hany _)) fun hone => ?_
  exact gwp_pure (hany _)

/-! ## Nested callbacks -/

/-- The context with more requests in the queues. -/
def Context.enqueue (c : Context) (us ps : List ReadIndexRequest) (t : List (ℤ × Event))
    (env : Env) : Context :=
  { c with
    node := { c.node with
      unsentReads := c.node.unsentReads ++ us
      pendingReads := c.node.pendingReads ++ ps }
    trace := t
    env := env }

/-- The calls of requests. -/
abbrev callsIn (qs : List ReadIndexRequest) : List ℕ :=
  qs.map fun q => q.callback.call

variable (M v) in
/-- Requests that were added with some events : each event has opened a call that waits, or
was answered. -/
structure Adds (c : Context) (us ps : List ReadIndexRequest) (new : List (ℤ × Event)) :
    Prop where
  reads : ∀ l, Open (readCalls v) c.trace l →
    Open (readCalls v) (c.trace ++ new) (l ++ callsIn (us ++ ps))
  proposals : ∀ l, Open (proposalCalls v) c.trace l → Open (proposalCalls v) (c.trace ++ new) l
  sound : Sound M v c.trace → Sound M v (c.trace ++ new)
  index : ∀ q ∈ us ++ ps, q.readIndex = c.node.commitIndex
  lease : ∀ q ∈ ps, (c.trace ++ new)[q.callback.call]? = some (v, .readCalled true)
  off : c.node.leaseReads = false → ps = []
  idle : c.node.isLeader = false → us = [] ∧ ps = []

theorem Adds.nil (c : Context) : Adds M v c [] [] [] where
  reads l hl := by simpa using hl
  proposals l hl := by simpa using hl
  sound hs := by simpa using hs
  index q hq := by cases hq
  lease q hq := by cases hq
  off _ := rfl
  idle _ := ⟨rfl, rfl⟩

theorem Adds.append {us ps us' ps' : List ReadIndexRequest} {new new' : List (ℤ × Event)}
    (env : Env) (ha : Adds M v c us ps new)
    (ha' : Adds M v (c.enqueue us ps (c.trace ++ new) env) us' ps' new') :
    Adds M v c (us ++ us') (ps ++ ps') (new ++ new') where
  reads l hl := by
    rw [← List.append_assoc]
    refine (ha'.reads _ (ha.reads l hl)).perm ?_
    simp only [callsIn, List.map_append, List.append_assoc]
    refine List.Perm.append_left _ (List.Perm.append_left _ ?_)
    rw [← List.append_assoc, ← List.append_assoc]
    exact List.Perm.append_right _ List.perm_append_comm
  proposals l hl := by
    rw [← List.append_assoc]
    exact ha'.proposals l (ha.proposals l hl)
  sound hs := by
    rw [← List.append_assoc]
    exact ha'.sound (ha.sound hs)
  index q hq := by
    rcases List.mem_append.mp hq with hq | hq <;> rcases List.mem_append.mp hq with hq | hq
    · exact ha.index q (List.mem_append_left _ hq)
    · exact ha'.index q (List.mem_append_left _ hq)
    · exact ha.index q (List.mem_append_right _ hq)
    · exact ha'.index q (List.mem_append_right _ hq)
  lease q hq := by
    rw [← List.append_assoc]
    rcases List.mem_append.mp hq with hq | hq
    · exact getElem?_of_isPrefix (List.prefix_append _ _) (ha.lease q hq)
    · exact ha'.lease q hq
  off hoff := by rw [ha.off hoff, ha'.off hoff, List.append_nil]
  idle hidle := by
    rw [(ha.idle hidle).1, (ha.idle hidle).2, (ha'.idle hidle).1, (ha'.idle hidle).2]
    exact ⟨rfl, rfl⟩

/-- A call that waits for a round. -/
theorem Adds.round (hlead : c.node.isLeader = true) (onOk onFail : Script) (time : ℤ) :
    Adds M v c [⟨c.node.commitIndex, ⟨c.trace.length, onOk, onFail⟩, time⟩] []
      [(v, .readCalled false)] where
  reads l hl := open_reads_called hl false
  proposals l hl := open_proposals_called hl false
  sound hs := hs.called false
  index q hq := by
    rw [List.append_nil, List.mem_singleton] at hq
    rw [hq]
  lease q hq := by cases hq
  off _ := rfl
  idle hidle := by
    rw [hlead] at hidle
    cases hidle

/-- A call by the lease that waits for the state machine. -/
theorem Adds.waiting (hlead : c.node.isLeader = true) (hon : c.node.leaseReads = true)
    (onOk onFail : Script) (time : ℤ) :
    Adds M v c [] [⟨c.node.commitIndex, ⟨c.trace.length, onOk, onFail⟩, time⟩]
      [(v, .readCalled true)] where
  reads l hl := open_reads_called hl true
  proposals l hl := open_proposals_called hl true
  sound hs := hs.called true
  index q hq := by
    rw [List.nil_append, List.mem_singleton] at hq
    rw [hq]
  lease q hq := by
    rw [List.mem_singleton] at hq
    rw [hq]
    exact List.getElem?_concat_length
  off hoff := by
    rw [hon] at hoff
    cases hoff
  idle hidle := by
    rw [hlead] at hidle
    cases hidle

theorem Context.enqueue_nil (c : Context) : c.enqueue [] [] c.trace c.env = c := by
  simp [Context.enqueue]

theorem Context.enqueue_enqueue (c : Context) (us ps us' ps' : List ReadIndexRequest)
    (t t' : List (ℤ × Event)) (env env' : Env) :
    (c.enqueue us ps t env).enqueue us' ps' t' env' =
      c.enqueue (us ++ us') (ps ++ ps') t' env' := by
  simp [Context.enqueue]

variable (M v) in
/-- What runs while a loop answers requests, and only adds requests. -/
def Nested {α : Type} (m : RaftM α) : Prop :=
  ∀ c, c.node.nodeId = v → c.node.completingReads = true → Sound M v c.trace →
    (books M v).gwp m (fun _ _ c' => ∃ us ps new env,
      c' = c.enqueue us ps (c.trace ++ new) env ∧ Adds M v c us ps new) () c

namespace Nested

variable {α β : Type}

theorem pure (a : α) : Nested M v (Pure.pure a : RaftM α) := fun c _ _ _ =>
  gwp_pure ⟨[], [], [], c.env, by simp [Context.enqueue], Adds.nil c⟩

theorem bind {m : RaftM β} {k : β → RaftM α} (hm : Nested M v m) (hk : ∀ b, Nested M v (k b)) :
    Nested M v (m >>= k) := by
  intro c hid hcomp hs
  refine gwp_seq (hm c hid hcomp hs) fun b _ c₁ _ ⟨us, ps, new, env, hc₁, ha⟩ => ?_
  subst hc₁
  refine gwp_mono (hk b _ hid hcomp (ha.sound hs))
    fun _ _ c₂ _ ⟨us', ps', new', env', hc₂, ha'⟩ => ?_
  refine ⟨us ++ us', ps ++ ps', new ++ new', env', ?_, Adds.append env ha ha'⟩
  rw [hc₂, Context.enqueue_enqueue, ← List.append_assoc]
  rfl

theorem rejectRead (error : String) {next : RaftM Unit} (hn : Nested M v next) :
    Nested M v (rejectRead error next) := by
  intro c hid hcomp hs
  obtain ⟨r, hr⟩ := hs.reads
  have hclose : ∀ l, Open (readCalls v) c.trace l →
      Open (readCalls v) (c.trace ++ [(v, .readCalled false)]) (c.trace.length :: l) :=
    fun l hl => (open_reads_called hl false).perm (List.perm_append_singleton _ _)
  rw [RaftKV.rejectRead]
  refine books_mark hid ?_
  rw [invokeRead, bind_assoc]
  refine books_crashPoint (hs.called false) fun env => ?_
  rw [bind_assoc, books_getNode, bind_assoc]
  refine books_observe hid ?_
  set new : List (ℤ × Event) := [(v, .readCalled false),
    (v, .readDone c.trace.length false (-1) c.node.lastApplied error)] with hnew
  have htrace : c.trace ++ [(v, Event.readCalled false)] ++
      [(v, .readDone c.trace.length false (-1) c.node.lastApplied error)] = c.trace ++ new := by
    simp [hnew]
  have ha : Adds M v c [] [] new :=
    { reads := fun l hl => by
        rw [← htrace]
        simpa using open_reads_done (hclose l hl)
      proposals := fun l hl => by
        rw [← htrace]
        exact open_proposals_done (open_proposals_called hl false)
      sound := fun hs => by
        rw [← htrace]
        exact (hs.called false).answered (hclose r hr) fun hf => by cases hf
      index := fun q hq => by cases hq
      lease := fun q hq => by cases hq
      off := fun _ => rfl
      idle := fun _ => ⟨rfl, rfl⟩ }
  rw [htrace]
  refine gwp_seq (hn _ hid hcomp (ha.sound hs)) fun _ _ c₁ _ ⟨us, ps, new', env', hc₁, ha'⟩ =>
    gwp_pure ⟨us, ps, new ++ new', env', ?_, ?_⟩
  · rw [hc₁, Context.enqueue, Context.enqueue, ← List.append_assoc]
  have hstart : c.enqueue [] [] (c.trace ++ new) env =
      { c with trace := c.trace ++ new, env := env } := by simp [Context.enqueue]
  have := Adds.append env ha (hstart ▸ ha')
  simpa using this

theorem requestReadIndexWith (processPending finishRounds : RaftM Unit)
    {runOk runFail : RaftM Unit} (hf : Nested M v runFail) (onOk onFail : Script) :
    Nested M v (requestReadIndexWith processPending finishRounds runOk runFail onOk onFail) := by
  intro c hid hcomp hs
  rw [RaftKV.requestReadIndexWith, books_getNode]
  refine gwp_ite (fun _ => rejectRead _ hf c hid hcomp hs) fun hlead => ?_
  push Not at hlead
  refine gwp_ite (fun _ => rejectRead _ hf c hid hcomp hs) fun hserve => ?_
  refine gwp_ite (fun _ => rejectRead _ hf c hid hcomp hs) fun hfull => ?_
  refine books_readLeaseValid (fun env => ?_) fun env hon => ?_
  · simp only [Bool.false_eq_true, if_false, roundRead]
    refine books_mark hid ?_
    rw [books_getNode]
    refine books_now fun time env' => books_modifyNode ?_
    simp only [hcomp, if_true]
    exact gwp_pure ⟨_, _, _, env', by simp [Context.enqueue, hcomp],
      Adds.round hlead onOk onFail time⟩
  simp only [if_true, leaseRead]
  refine books_mark hid ?_
  rw [books_getNode]
  refine books_now fun time env' => ?_
  simp only [hcomp, or_true, if_true]
  exact books_modifyNode (gwp_pure ⟨_, _, _, env', by simp [Context.enqueue],
    Adds.waiting hlead hon onOk onFail time⟩)

/-- The loops a callback could start are not started. -/
theorem runScriptWith (processPending finishRounds : RaftM Unit) :
    ∀ script : Script, Nested M v (runScriptWith processPending finishRounds script)
  | .done => pure ()
  | .read onOk onFail rest =>
    (requestReadIndexWith _ _ (runScriptWith _ _ onFail) onOk onFail).bind fun _ =>
      runScriptWith _ _ rest

end Nested

/-! ## Answering requests -/

/-- The requests in some queues. -/
def heldIn (P hand : List ReadIndexRequest) (R : List HeartbeatRound) (U : List ReadIndexRequest) :
    List ReadIndexRequest :=
  P ++ hand ++ R.flatMap (fun round => round.requests) ++ U

/-- The context with other queues, outside of all loops. -/
def Context.shows (c : Context) (P : List ReadIndexRequest) (R : List HeartbeatRound)
    (U : List ReadIndexRequest) : Context :=
  { c with node := { c.node with
      pendingReads := P, heartbeatRounds := R, unsentReads := U, completingReads := false } }

variable {P P' U U' hand hand' : List ReadIndexRequest} {R R' : List HeartbeatRound}

theorem readsHeld_shows (c : Context) : readsHeld (c.shows P R U).node hand = heldIn P hand R U :=
  rfl

/-- What a nested callback adds. -/
theorem Books.enqueue (hb : Books M v off h (c.shows P R U)) {us ps : List ReadIndexRequest}
    {new : List (ℤ × Event)} (ha : Adds M v c us ps new) (env : Env) :
    Books M v off h ((c.enqueue us ps (c.trace ++ new) env).shows (P ++ ps) R (U ++ us)) := by
  have hp : c.trace <+: c.trace ++ new := List.prefix_append _ _
  have hnone : off → ps = [] := fun hoff => ha.off (hb.lease hoff)
  have hheld : (heldIn P h.reads R U ++ (us ++ ps)).Perm
      (heldIn (P ++ ps) h.reads R (U ++ us)) := by
    simp only [heldIn, List.append_assoc]
    refine List.Perm.append_left _ ?_
    rw [← List.append_assoc, ← List.append_assoc, ← List.append_assoc, ← List.append_assoc]
    refine List.perm_append_comm.trans ?_
    simp only [List.append_assoc]
    exact List.Perm.refl _
  exact
    { hb with
      sound := ha.sound hb.sound
      proposals := ha.proposals _ hb.proposals
      rows := fun item hi => (hb.rows item hi).mono hp
      completions := fun x hx => (hb.completions x hx).mono hp
      reads := by
        rw [readsHeld_shows]
        refine (ha.reads _ hb.reads).perm ?_
        rw [readsHeld_shows, callsIn, ← List.map_append]
        exact hheld.map _
      round := fun r hr => (hb.round r hr).mono hp le_rfl
      waiting := fun q hq => by
        rcases List.mem_append.mp hq with hq | hq
        · exact (hb.waiting q hq).mono hp
        · exact .inl (ha.lease q hq)
      order := fun hoff => by
        rw [readsHeld_shows, hnone hoff, List.append_nil, heldIn, ← List.append_assoc]
        refine List.pairwise_append.mpr ⟨hb.order hoff, ?_, fun q hq r hr => ?_⟩
        · refine List.pairwise_of_forall_mem_list fun q hq r hr => ?_
          rw [ha.index q (List.mem_append_left _ hq), ha.index r (List.mem_append_left _ hr)]
        · rw [ha.index r (List.mem_append_left _ hr)]
          exact hb.bound hoff q hq
      bound := fun hoff q hq => by
        rw [readsHeld_shows] at hq
        rcases List.mem_append.mp (hheld.symm.subset hq) with hq | hq
        · exact hb.bound hoff q hq
        · exact (ha.index q hq).le
      ahead := fun hoff q hq => by
        refine hb.ahead hoff q ?_
        have : q ∈ P ++ ps := hq
        rwa [hnone hoff, List.append_nil] at this }

/-- One request is answered and leaves the queues. -/
theorem Books.answer (hb : Books M v off h (c.shows P R U)) {q : ReadIndexRequest} {ok : Bool}
    {readIndex lastApplied : ℤ} (error : String) (env : Env) {A B : List ReadIndexRequest}
    (hheld : heldIn P h.reads R U = A ++ q :: B) (hheld' : heldIn P' hand' R' U' = A ++ B)
    (hP : P' ⊆ P) (hR : R'.length ≤ 1)
    (hround : ∀ r ∈ R', RoundFine M v c.trace c.node.rpcSequence r)
    (hj : ok = true → readIndex ≤ lastApplied ∧ Vouched M v c.trace q.callback.call) :
    Books M v off { h with reads := hand' } ({ c with
      trace := c.trace ++ [(v, Event.readDone q.callback.call ok readIndex lastApplied error)]
      env := env }.shows P' R' U') := by
  have hp : c.trace <+:
      c.trace ++ [(v, .readDone q.callback.call ok readIndex lastApplied error)] :=
    List.prefix_append _ _
  have hsub : (heldIn P' hand' R' U').Sublist (heldIn P h.reads R U) := by
    rw [hheld, hheld']
    exact (List.sublist_cons_self q B).append_left A
  have hopen : Open (readCalls v) c.trace
      (q.callback.call :: callsIn (heldIn P' hand' R' U')) := by
    refine hb.reads.perm ?_
    rw [readsHeld_shows, hheld, hheld']
    exact (List.perm_middle.map _)
  exact
    { hb with
      sound := hb.sound.answered hopen hj
      proposals := open_proposals_done hb.proposals
      rows := fun item hi => (hb.rows item hi).mono hp
      completions := fun x hx => (hb.completions x hx).mono hp
      reads := open_reads_done hopen
      rounds := hR
      round := fun r hr => (hround r hr).mono hp le_rfl
      waiting := fun q hq => (hb.waiting q (hP hq)).mono hp
      order := fun hoff => (hb.order hoff).sublist hsub
      bound := fun hoff q hq => hb.bound hoff q (hsub.subset hq)
      ahead := fun hoff q hq => hb.ahead hoff q (hP hq) }

theorem Books.regroup (hb : Books M v off h (c.shows P R U))
    (hheld : heldIn P' hand' R' U' = heldIn P h.reads R U) (hR : R'.length ≤ 1)
    (hround : ∀ r ∈ R', RoundFine M v c.trace c.node.rpcSequence r)
    (hwaiting : ∀ q ∈ P', Vouched M v c.trace q.callback.call)
    (hahead : off → ∀ q ∈ P', h.served < q.readIndex) :
    Books M v off { h with reads := hand' } (c.shows P' R' U') :=
  { hb with
    reads := by
      rw [readsHeld_shows, hheld]
      exact hb.reads
    rounds := hR
    round := hround
    waiting := hwaiting
    order := fun hoff => by
      rw [readsHeld_shows, hheld]
      exact hb.order hoff
    bound := fun hoff => by
      rw [readsHeld_shows, hheld]
      exact hb.bound hoff
    ahead := hahead }

/-- A loop answers a request by its callback. -/
theorem books_invokeQueued {α : Type} {Q : α → Unit → Context → Prop} {k : Unit → RaftM α}
    {q : ReadIndexRequest} {ok : Bool} {readIndex : ℤ} {error : String}
    {B : List ReadIndexRequest} (A P' hand' : List ReadIndexRequest) (R' : List HeartbeatRound)
    (U' : List ReadIndexRequest) (hb : Books M v off h (c.shows P R U))
    (hcomp : c.node.completingReads = true)
    (hheld : heldIn P h.reads R U = A ++ q :: B) (hheld' : heldIn P' hand' R' U' = A ++ B)
    (hP : P' ⊆ P) (hR : R'.length ≤ 1)
    (hround : ∀ r ∈ R', RoundFine M v c.trace c.node.rpcSequence r)
    (hj : ok = true → readIndex ≤ c.node.lastApplied ∧ Vouched M v c.trace q.callback.call)
    (hk : ∀ us ps t env, c.trace <+: t → (off → ps = []) →
      (c.node.isLeader = false → us = [] ∧ ps = []) →
      Books M v off { h with reads := hand' }
        ((c.enqueue us ps t env).shows (P' ++ ps) R' (U' ++ us)) →
      (books M v).gwp (k ()) Q () (c.enqueue us ps t env)) :
    (books M v).gwp (invokeQueued q ok readIndex error >>= k) Q () c := by
  rw [invokeQueued, invokeRead, bind_assoc]
  refine books_crashPoint hb.sound fun env => ?_
  rw [bind_assoc, books_getNode, bind_assoc]
  refine books_observe hb.id ?_
  have hb₁ := hb.answer error env hheld hheld' hP hR hround hj
  refine gwp_seq (Nested.runScriptWith _ _ _ _ hb.id hcomp hb₁.sound)
    fun _ _ c₁ _ ⟨us, ps, new, env', hc₁, ha⟩ => ?_
  have hb₂ := hb₁.enqueue ha env'
  rw [hc₁]
  exact hk us ps _ env' ((List.prefix_append _ _).trans (List.prefix_append _ _))
    (fun hoff => ha.off (hb.lease hoff)) ha.idle hb₂

/-! ## Loops -/

variable (M v off h) in
/-- The books inside a loop, when no request is answered and still in its queue. -/
structure Looping (c : Context) : Prop where
  completing : c.node.completingReads = true
  kept : Books M v off h
    (c.shows c.node.pendingReads c.node.heartbeatRounds c.node.unsentReads)

theorem Books.enter (hb : Books M v off h c) :
    Looping M v off h { c with node := { c.node with completingReads := true } } :=
  ⟨rfl, hb.congr (by simp [bookView, Context.shows, hb.calm])⟩

theorem Looping.leave (hl : Looping M v off h c) :
    Books M v off h { c with node := { c.node with completingReads := false } } :=
  hl.kept.congr rfl

/-- A callback inside a loop. -/
theorem Looping.nested {α : Type} {m : RaftM α} (hl : Looping M v off h c) (hm : Nested M v m) :
    (books M v).gwp m (fun _ _ c' => Looping M v off h c' ∧ calmView c' = calmView c) () c := by
  refine gwp_mono (hm c hl.kept.id hl.completing hl.kept.sound)
    fun _ _ c' _ ⟨us, ps, new, env, hc', ha⟩ => ?_
  subst hc'
  exact ⟨⟨hl.completing, hl.kept.enqueue ha env⟩, rfl⟩

/-- The loop of `ProcessPendingReads`. It stops at a read that waits; the ones behind it wait
too, unless a lease read is among them. -/
theorem servePendingReads_spec (turns : ℕ) (hh : h.reads = []) (hl : Looping M v off h c)
    (hlen : off → c.node.pendingReads.length ≤ turns) :
    (books M v).gwp (servePendingReads turns) (fun _ _ c' => Looping M v off h c' ∧
      calmView c' = calmView c ∧
      (off → ∀ q ∈ c'.node.pendingReads, c'.node.lastApplied < q.readIndex)) () c := by
  induction turns generalizing c with
  | zero =>
    refine gwp_pure ⟨hl, rfl, fun hoff q hq => ?_⟩
    rw [List.length_eq_zero_iff.mp (Nat.le_zero.mp (hlen hoff))] at hq
    cases hq
  | succ turns ih =>
    rw [servePendingReads, books_getNode]
    rcases hP : c.node.pendingReads with _ | ⟨q, rest⟩
    · refine gwp_pure ⟨hl, rfl, fun _ q hq => ?_⟩
      rw [hP] at hq
      cases hq
    dsimp only
    have hb := hl.kept
    rw [hP] at hb
    refine gwp_ite (fun hready => ?_) fun hready => ?_
    · refine books_modifyNode ?_
      refine books_invokeQueued (c := { c with node := { c.node with pendingReads := rest } })
        [] rest [] c.node.heartbeatRounds c.node.unsentReads hb hl.completing rfl
        (by rw [hh, heldIn]; rfl) (List.subset_cons_self q rest) hb.rounds hb.round
        (fun _ => ⟨hready, hb.waiting q List.mem_cons_self⟩) fun us ps t env _ hps _ hb' => ?_
      rw [← hh] at hb'
      refine gwp_mono (ih ⟨hl.completing, hb'⟩ fun hoff => ?_)
        fun _ _ _ _ ⟨hl', hv, hall⟩ => ⟨hl', hv, hall⟩
      have := hlen hoff
      rw [hP] at this
      rw [Context.enqueue, hps hoff, List.append_nil]
      simpa using this
    · refine gwp_pure ⟨hl, rfl, fun hoff r hr => ?_⟩
      rw [hP] at hr
      have horder : (q :: rest).Pairwise fun q r => q.readIndex ≤ r.readIndex :=
        (hb.order hoff).sublist (by
          rw [readsHeld_shows, heldIn, List.append_assoc, List.append_assoc]
          exact List.sublist_append_left _ _)
      rcases List.mem_cons.mp hr with rfl | hr
      · exact not_le.mp hready
      · exact (not_le.mp hready).trans_le (List.rel_of_pairwise_cons horder hr)

theorem failReads_spec (reason : String) (qs : List ReadIndexRequest)
    (hb : Books M v off { h with reads := qs } (c.shows P R U))
    (hcomp : c.node.completingReads = true) :
    (books M v).gwp (qs.forM fun q => invokeQueued q false (-1) reason)
      (fun _ _ c' => ∃ us ps t env, c' = c.enqueue us ps t env ∧
        (c.node.isLeader = false → us = [] ∧ ps = []) ∧
        Books M v off { h with reads := [] } (c'.shows (P ++ ps) R (U ++ us))) () c := by
  induction qs generalizing c P U with
  | nil =>
    refine gwp_pure ⟨[], [], c.trace, c.env, (Context.enqueue_nil c).symm, fun _ => ⟨rfl, rfl⟩, ?_⟩
    rw [List.append_nil, List.append_nil]
    exact hb
  | cons q qs ih =>
    rw [books_forM_cons]
    refine books_invokeQueued (q := q) P P qs R U (B := qs ++ R.flatMap (·.requests) ++ U) hb hcomp
      (by simp [heldIn]) (by simp [heldIn]) (List.Subset.refl P) hb.rounds hb.round
      (fun hok => by cases hok) fun us ps t env _ _ hidle hb' => ?_
    refine gwp_mono (ih hb' hcomp) fun _ _ c' _ ⟨us', ps', t', env', hc', hidle', hb''⟩ => ?_
    refine ⟨us ++ us', ps ++ ps', t', env', ?_, fun hn => ?_, ?_⟩
    · rw [hc', Context.enqueue_enqueue]
    · rw [(hidle hn).1, (hidle hn).2, (hidle' hn).1, (hidle' hn).2]
      exact ⟨rfl, rfl⟩
    · rw [← List.append_assoc, ← List.append_assoc]
      exact hb''

/-- The loop of `ProcessConfirmedRound` over the requests of a confirmed round. -/
theorem confirmedReads_spec (qs : List ReadIndexRequest) (hh : h.reads = qs)
    (hl : Looping M v off h c)
    (hvouched : ∀ q ∈ qs, Vouched M v c.trace q.callback.call) :
    (books M v).gwp (qs.forM fun q => do
        let n ← getNode
        if q.readIndex ≤ n.lastApplied then invokeQueued q true q.readIndex ""
        else modifyNode fun n => { n with pendingReads := n.pendingReads ++ [q] })
      (fun _ _ c' => Looping M v off { h with reads := [] } c' ∧ calmView c' = calmView c ∧
        c'.node.heartbeatRounds = c.node.heartbeatRounds) () c := by
  induction qs generalizing c h with
  | nil =>
    refine gwp_pure ⟨?_, rfl, rfl⟩
    rw [← hh]
    exact hl
  | cons q qs ih =>
    have hb := hl.kept
    have hq := hvouched q List.mem_cons_self
    have hheld : heldIn c.node.pendingReads h.reads c.node.heartbeatRounds c.node.unsentReads =
        c.node.pendingReads ++
          q :: (qs ++ c.node.heartbeatRounds.flatMap (·.requests) ++ c.node.unsentReads) := by
      simp [heldIn, hh]
    rw [books_forM_cons, bind_assoc, books_getNode]
    by_cases hready : q.readIndex ≤ c.node.lastApplied
    · rw [if_pos hready]
      refine books_invokeQueued _ c.node.pendingReads qs c.node.heartbeatRounds c.node.unsentReads
        hb hl.completing hheld (by simp [heldIn]) (List.Subset.refl _) hb.rounds hb.round
        (fun _ => ⟨hready, hq⟩) fun us ps t env hp _ _ hb' => ?_
      exact ih (h := { h with reads := qs }) rfl ⟨hl.completing, hb'⟩
        fun r hr => (hvouched r (List.mem_cons_of_mem _ hr)).mono hp
    rw [if_neg hready]
    refine books_modifyNode ?_
    refine ih (h := { h with reads := qs }) rfl ⟨hl.completing, ?_⟩
      fun r hr => hvouched r (List.mem_cons_of_mem _ hr)
    refine hb.regroup (by rw [hheld]; simp [heldIn]) hb.rounds hb.round (fun r hr => ?_)
      fun hoff r hr => ?_
    · rcases List.mem_append.mp hr with hr | hr
      · exact hb.waiting r hr
      · rw [List.mem_singleton.mp hr]
        exact hq
    rcases List.mem_append.mp hr with hr | hr
    · exact hb.ahead hoff r hr
    · rw [List.mem_singleton.mp hr]
      exact hb.served.trans_lt (not_le.mp hready)

theorem processConfirmedRound_spec {qs : List ReadIndexRequest} (hh : h.reads = qs)
    (hb : Books M v off h c) (hvouched : ∀ q ∈ qs, Vouched M v c.trace q.callback.call) :
    (books M v).gwp (processConfirmedRound qs) (fun _ _ c' =>
      Books M v off { h with reads := [] } c' ∧ calmView c' = calmView c ∧
        c'.node.heartbeatRounds = c.node.heartbeatRounds) () c := by
  rw [processConfirmedRound, books_getNode, hb.calm]
  refine books_modifyNode (gwp_seq (confirmedReads_spec qs hh hb.enter hvouched)
    fun _ _ c' _ ⟨hl, hv, hr⟩ => books_modifyNode_last ⟨hl.leave, hv, hr⟩)

end RaftKV
