import RaftKV.Local.Frames
import RaftKV.Node.Facts

/-!
# What a method does to the core

The parts of a node's methods that change the core, each with the core it ends with
(`Does`) : the role changes, the replies, a vote, a batch that is applied, a snapshot that is
taken or installed. A method that throws ends the process, so of a throw only the log counts.
-/

namespace RaftKV.Local

open RaftM

variable {α β : Type} {c : Context} {R : α → Core → Prop} {T : AbstractLog → Prop}

/-! ## Rules -/

/-- From `c` to `c'` time has not gone back, and the election timer has been left alone or set to
run for the shortest timeout at least. -/
structure Passed (c c' : Context) : Prop where
  later : Later c.env c'.env
  deadline : c'.node.electionDeadline = c.node.electionDeadline ∨
    earliest (reading c.env) ≤ c'.node.electionDeadline

theorem Passed.refl (c : Context) : Passed c c :=
  ⟨.refl _, .inl rfl⟩

theorem Passed.trans {c' c'' : Context} (h : Passed c c') (h' : Passed c' c'') : Passed c c'' := by
  refine ⟨h.later.trans h'.later, ?_⟩
  rcases h'.deadline with hd' | hd'
  · rw [hd']
    exact h.deadline
  · exact .inr ((add_le_add_left h.later.time _).trans hd')

/-- Only the time until a crash has changed in the environment. -/
theorem Passed.crashing {c' : Context} (after : Option ℕ)
    (hd : c'.node.electionDeadline = c.node.electionDeadline := by rfl)
    (he : c'.env = { c.env with crashAfter := after } := by rfl) : Passed c c' := by
  refine ⟨?_, .inl hd⟩
  rw [he]
  exact ⟨le_rfl, List.suffix_rfl⟩

theorem Unmoved.passed {c' : Context} (h : Unmoved c c') : Passed c c' :=
  ⟨h.later, .inl (congrArg Core.electionDeadline h.core)⟩

/-- Running `m` returns with a core of which `R` holds, or throws with a log of which `T` holds. -/
def Does (m : RaftM α) (c : Context) (R : α → Core → Prop) (T : AbstractLog → Prop) : Prop :=
  wp m (fun a c' => Requests c'.node ∧ Passed c c' ∧ R a (core c'))
    (fun _ c' => Requests c'.node ∧ T c'.log) c

namespace Does

variable {m : RaftM α}

theorem mono {R' : α → Core → Prop} {T' : AbstractLog → Prop} (h : Does m c R T)
    (hR : ∀ a x, R a x → R' a x) (hT : ∀ log, T log → T' log) : Does m c R' T' :=
  wp_mono h (fun a _ ⟨hr, hs, hx⟩ => ⟨hr, hs, hR a _ hx⟩) fun _ _ ⟨hr, ht⟩ => ⟨hr, hT _ ht⟩

theorem imp {R' : α → Core → Prop} (h : Does m c R T) (hR : ∀ a x, R a x → R' a x) :
    Does m c R' T :=
  h.mono hR fun _ h => h

theorem pure {a : α} (hr : Requests c.node) (h : R a (core c)) :
    Does (Pure.pure a : RaftM α) c R T :=
  ⟨hr, .refl c, h⟩

theorem fail {text : String} (hr : Requests c.node) (h : T c.log) :
    Does (RaftM.fail text : RaftM α) c R T :=
  ⟨hr, h⟩

/-- Two parts after each other. -/
theorem bind {m : RaftM β} {k : β → RaftM α} {S : β → Core → Prop} (hm : Does m c S T)
    (hk : ∀ b c', Requests c'.node → Passed c c' → S b (core c') → Does (k b) c' R T) :
    Does (m >>= k) c R T := by
  rw [Does, wp_bind]
  refine wp_mono hm (fun b c₁ ⟨hr₁, hs₁, hx₁⟩ => ?_) fun _ _ h => h
  exact wp_mono (hk b c₁ hr₁ hs₁ hx₁) (fun _ _ ⟨hr₂, hs₂, hx₂⟩ => ⟨hr₂, hs₁.trans hs₂, hx₂⟩)
    fun _ _ h => h

theorem of_core {c' : Context} (h : core c' = core c) (hT : T c.log) : T c'.log := by
  rw [show c'.log = c.log from congrArg Core.log h]
  exact hT

/-- A still part does nothing to the core. -/
theorem still (hm : Still m) (hr : Requests c.node) (hR : ∀ a, R a (core c))
    (hT : T c.log) : Does m c R T := by
  refine wp_mono (hm c hr) (fun a c' ⟨hr', hu⟩ => ⟨hr', hu.passed, ?_⟩)
    fun _ c' ⟨hr', hu⟩ => ⟨hr', ?_⟩
  · rw [hu.core]
    exact hR a
  · have hlog : c'.log = c.log := congrArg Core.log hu.core
    rw [hlog]
    exact hT

theorem still_bind {m : RaftM β} {k : β → RaftM α} (hm : Still m) (hr : Requests c.node)
    (hT : T c.log)
    (hk : ∀ b c', Requests c'.node → Passed c c' → core c' = core c → Does (k b) c' R T) :
    Does (m >>= k) c R T :=
  bind (S := fun _ x => x = core c) (still hm hr (fun _ => rfl) hT) hk

theorem getNode {k : Node → RaftM α} (h : Does (k c.node) c R T) :
    Does (RaftM.getNode >>= k) c R T :=
  h

theorem getLog {k : AbstractLog → RaftM α} (h : Does (k c.log) c R T) :
    Does (RaftM.getLog >>= k) c R T :=
  h

theorem get {k : Context → RaftM α} (h : Does (k c) c R T) : Does (MonadState.get >>= k) c R T :=
  h

/-- What follows, seen from an earlier context. -/
theorem since {c₁ : Context} (hs : Passed c c₁) (h : Does m c₁ R T) :
    wp m (fun a c' => Requests c'.node ∧ Passed c c' ∧ R a (core c'))
      (fun _ c' => Requests c'.node ∧ T c'.log) c₁ :=
  wp_mono h (fun _ _ ⟨hr', hs', hx'⟩ => ⟨hr', hs.trans hs', hx'⟩) fun _ _ h => h

variable {k : Unit → RaftM α}

theorem modify_bind {f : Context → Context} (hs : Passed c (f c))
    (h : Does (k ()) (f c) R T) : Does (modify f >>= k) c R T :=
  show wp (k ()) _ _ (f c) from since hs h

theorem now {k : ℤ → RaftM α}
    (h : Does (k (reading c.env)) { c with env := { c.env with
      clock := c.env.clock + c.env.delays.headD 0
      delays := c.env.delays.tail } } R T) : Does (RaftM.now >>= k) c R T :=
  show wp (k (reading c.env)) _ _ _ from since ⟨.now c.env, .inl rfl⟩ h

theorem observe {e : Event}
    (h : Does (k ()) { c with trace := c.trace ++ [(c.node.nodeId, e)] } R T) :
    Does (RaftM.observe e >>= k) c R T :=
  modify_bind ⟨.refl _, .inl rfl⟩ h

theorem modifyNode {f : Node → Node}
    (h : Does (k ()) { c with node := f c.node } R T)
    (hd : (f c.node).electionDeadline = c.node.electionDeadline := by rfl) :
    Does (RaftM.modifyNode f >>= k) c R T :=
  modify_bind ⟨.refl _, .inl hd⟩ h

theorem modifyNode_last {f : Node → Node} {R : Unit → Core → Prop} (hr : Requests (f c.node))
    (h : R () (core { c with node := f c.node }))
    (hd : (f c.node).electionDeadline = c.node.electionDeadline := by rfl) :
    Does (RaftM.modifyNode f) c R T :=
  ⟨hr, ⟨.refl _, .inl hd⟩, h⟩

/-- A write of the log may also be refused or be cut off. -/
theorem writeLog {operation : String} {op : AbstractLog → Except String AbstractLog}
    (hr : Requests c.node) (hT : T c.log)
    (hk : ∀ log after, op c.log = .ok log →
      Does (k ()) { c with log := log, env := { c.env with crashAfter := after } } R T) :
    Does (RaftM.writeLog operation op >>= k) c R T :=
  wp_writeLog (fun _ _ => ⟨hr, hT⟩)
    fun log after hlog => since (.crashing after) (hk log after hlog)

theorem writeLog_last {operation : String} {op : AbstractLog → Except String AbstractLog}
    {R : Unit → Core → Prop} (hr : Requests c.node) (hT : T c.log)
    (hR : ∀ log, op c.log = .ok log → R () { core c with log := log }) :
    Does (RaftM.writeLog operation op) c R T := by
  rw [← bind_pure (RaftM.writeLog operation op)]
  exact writeLog hr hT fun log after hlog => pure hr (hR log hlog)

theorem ite {p q : Prop} [Decidable p] [Decidable q] {m₁ m₂ : RaftM α} {R₁ R₂ : α → Core → Prop}
    (hpq : p ↔ q) (h₁ : q → Does m₁ c R₁ T) (h₂ : ¬q → Does m₂ c R₂ T) :
    Does (if p then m₁ else m₂) c (fun a x => if q then R₁ a x else R₂ a x) T := by
  by_cases hq : q
  · simp only [if_pos hq, if_pos (hpq.mpr hq)]
    exact h₁ hq
  · simp only [if_neg hq, if_neg (mt hpq.mp hq)]
    exact h₂ hq

theorem branch {p : Prop} [Decidable p] {m₁ m₂ : RaftM α} (h₁ : p → Does m₁ c R T)
    (h₂ : ¬p → Does m₂ c R T) : Does (if p then m₁ else m₂) c R T := by
  split_ifs with hp
  · exact h₁ hp
  · exact h₂ hp

theorem onFailure {cleanup : RaftM Unit} (hc : Still cleanup) (hm : Does m c R T) :
    Does (RaftM.onFailure cleanup m) c R T := by
  rw [Does, RaftM.onFailure, wp_tryCatch]
  refine wp_mono hm (fun _ _ h => h) fun e c' ⟨hr', ht'⟩ => ?_
  cases e with
  | crash => exact ⟨hr', ht'⟩
  | failure text =>
    change wp (cleanup >>= fun _ => RaftM.fail text) _ _ c'
    have hlog : ∀ c'', Unmoved c' c'' → T c''.log := fun c'' hu => by
      have : c''.log = c'.log := congrArg Core.log hu.core
      rwa [this]
    rw [wp_bind]
    exact wp_mono (hc c' hr') (fun _ c'' ⟨hr'', hu⟩ => ⟨hr'', hlog c'' hu⟩)
      fun _ c'' ⟨hr'', hu⟩ => ⟨hr'', hlog c'' hu⟩

end Does

/-! ## Timers and replies -/

/-- The election timer runs for the shortest timeout at least. -/
theorem resetElectionTimer_does (hr : Requests c.node) :
    Does resetElectionTimer c (fun _ x => ∃ deadline, earliest (reading c.env) ≤ deadline ∧
        x = { core c with electionDeadline := deadline }) T := by
  have hdeadline : earliest (reading c.env) ≤
      c.env.clock + c.env.delays.headD 0 + max kMinElectionTimeoutMs
        (min kMaxElectionTimeoutMs (c.env.timeouts.headD 0)) * ms := by
    rw [earliest, reading, ms]
    omega
  exact ⟨hr, ⟨⟨(Later.now c.env).time, List.suffix_rfl⟩, .inr hdeadline⟩, _, hdeadline, rfl⟩

/-- A follower that has heard of another leader recently refuses votes. -/
def Core.Suppresses (x : Core) (peer time : ℤ) : Prop :=
  x.role = .follower ∧ x.leaderId ≠ -1 ∧ x.leaderId ≠ peer ∧ time < x.electionDeadline

/-- The leader rule is about the time that is read. -/
theorem suppressed_does (peer : ℤ) (hr : Requests c.node) : Does (suppressed peer) c
      (fun b x => x = core c ∧ (b = true ↔ (core c).Suppresses peer (reading c.env))) T := by
  rw [suppressed]
  refine Does.getNode (Does.branch (fun hleader => ?_) fun hleader => ?_)
  · refine ⟨hr, ⟨.now c.env, .inl rfl⟩, rfl, ?_⟩
    simp only [decide_eq_true_eq]
    exact ⟨fun h => ⟨hleader.1, hleader.2.1, hleader.2.2, h⟩, fun h => h.2.2.2⟩
  · refine Does.pure hr ⟨rfl, ?_⟩
    simp only [Bool.false_eq_true, false_iff]
    exact fun h => hleader ⟨h.1, h.2.1, h.2.2.1⟩

/-- A reply is handed to `PeerManager::Send`. -/
def Core.Answers (x : Core) (taken : Prop) (peer : ℤ) (message : Message) (y : Core) : Prop :=
  ∃ replies, y = { x with replies := x.replies ++ replies } ∧
    (taken → replies = [(peer, message)])

theorem reply_does (peer : ℤ) {message : Message} (hm : isReply message = true)
    (hr : Requests c.node) (hT : T c.log) : Does (reply peer message) c
      (fun _ x => (core c).Answers (c.env.sends = []) peer message x) T := by
  change Does (sendFrom c.replyTo peer message >>= fun _ => pure ()) c _ T
  rw [sendFrom, bind_assoc]
  refine wp_crashPoint (fun _ => ⟨hr, hT⟩) fun after => ?_
  refine ⟨hr, ⟨⟨le_rfl, List.tail_suffix _⟩, .inl rfl⟩, ?_⟩
  cases hs : c.env.sends.headD true with
  | false =>
    refine ⟨[], by simp [core], fun htaken => ?_⟩
    rw [htaken] at hs
    cases hs
  | true => exact ⟨[(peer, message)], by simp [core, repliesOn, hm], fun _ => rfl⟩

/-! ## Roles -/

/-- A higher term is adopted. -/
def Core.adopt (x : Core) (term : ℤ) : Core :=
  if x.currentTerm < term then
    { x with
      log := { x.log with hardState := some (term, -1) }
      currentTerm := term
      votedFor := -1 }
  else x

theorem Core.adopt_of_lt {x : Core} {term : ℤ} (h : x.currentTerm < term) :
    x.adopt term = { x with
      log := { x.log with hardState := some (term, -1) }
      currentTerm := term
      votedFor := -1 } :=
  if_pos h

theorem Core.adopt_of_le {x : Core} {term : ℤ} (h : term ≤ x.currentTerm) : x.adopt term = x :=
  if_neg (not_lt.mpr h)

/-- Only the hard state, the term and the vote change. -/
theorem Core.adopt_eq (x : Core) (term : ℤ) :
    x.adopt term = { x with
      log := { x.log with hardState := (x.adopt term).log.hardState }
      currentTerm := max x.currentTerm term
      votedFor := (x.adopt term).votedFor } := by
  by_cases h : x.currentTerm < term
  · rw [adopt_of_lt h, max_eq_right h.le]
  · rw [adopt_of_le (not_lt.mp h), max_eq_left (not_lt.mp h)]

@[simp] theorem Core.adopt_snapshot (x : Core) (term : ℤ) :
    (x.adopt term).log.snapshot = x.log.snapshot := by
  rw [adopt_eq]

@[simp] theorem Core.adopt_commitIndex (x : Core) (term : ℤ) :
    (x.adopt term).commitIndex = x.commitIndex := by
  rw [adopt_eq]

@[simp] theorem Core.adopt_currentTerm (x : Core) (term : ℤ) :
    (x.adopt term).currentTerm = max x.currentTerm term := by
  rw [adopt_eq]

/-- The core of a follower. -/
def Core.follow (x : Core) (term deadline : ℤ) : Core :=
  { x.adopt term with
    role := .follower
    leaderId := -1
    votes := ∅
    snapshotReceive := {}
    electionDeadline := deadline }

theorem saveHardState_ok {term votedFor : ℤ} {a b : AbstractLog}
    (h : a.saveHardState term votedFor = .ok b) :
    b = { a with hardState := some (term, votedFor) } ∧ 0 ≤ term ∧ -1 ≤ votedFor := by
  rw [AbstractLog.saveHardState] at h
  split_ifs at h with hbad
  exact ⟨(Except.ok.inj h).symm, by omega, by omega⟩

theorem adoptTerm_does (term : ℤ) (hr : Requests c.node) (hT : T c.log) :
    Does (adoptTerm term) c (fun _ x => x = (core c).adopt term) T := by
  rw [adoptTerm]
  refine Does.getNode (Does.branch (fun hlt => ?_) fun hlt => ?_)
  · refine Does.writeLog hr hT fun log after hlog => Does.modifyNode_last hr ?_
    rw [(saveHardState_ok hlog).1, Core.adopt_of_lt (x := core c) hlt]
    rfl
  · exact Does.pure hr (Core.adopt_of_le (x := core c) (not_lt.mp hlt)).symm

/-- `BecomeFollower` ends with the core of a follower. -/
theorem becomeFollower_does (term : ℤ) (hr : Requests c.node) (hT : T c.log)
    (hT' : T ((core c).adopt term).log) :
    Does (becomeFollower term) c (fun _ x => ∃ deadline, x = (core c).follow term deadline) T := by
  rw [becomeFollower]
  refine (adoptTerm_does term hr hT).bind fun _ c₁ hr₁ _ hx₁ => Does.modifyNode ?_
  have hlog : c₁.log = ((core c).adopt term).log := congrArg Core.log hx₁
  have hr₂ : Requests c₁.node.asFollower := fun u m hm => by cases hm
  refine (resetElectionTimer_does hr₂).bind fun _ c₂ hr₂ _ ⟨deadline, _, hx₂⟩ => ?_
  have hlog₂ : c₂.log = ((core c).adopt term).log := (congrArg Core.log hx₂).trans hlog
  refine Does.still (T := T) ((Still.failPending _).bind fun _ =>
    (Still.clearReadIndexQueues _).bind fun _ => Still.modifyNode_same (fun _ => rfl) fun _ => rfl)
    hr₂ (fun _ => ⟨deadline, ?_⟩) (hlog₂ ▸ hT')
  rw [hx₂, Core.follow, ← hx₁]
  rfl

/-! ## Snapshots of the state machine -/

/-- A snapshot is due. -/
def Core.snapshotDue (x : Core) : Bool :=
  x.running && !x.applyInflight && decide (0 < x.snapshotThreshold) &&
    decide (x.log.snapshot.index < x.lastApplied) &&
    decide (max x.log.snapshot.index x.lastSnapshotAttempt < x.lastApplied) &&
    decide (x.snapshotThreshold ≤
      x.lastApplied - max x.log.snapshot.index x.lastSnapshotAttempt) &&
    decide (0 < x.log.getTerm x.lastApplied)

/-- The log is as it was, or compacted up to `index`. -/
def Compacted (index : ℤ) (a b : AbstractLog) : Prop :=
  b = a ∨ ∃ data, a.compactApplied ⟨index, a.getTerm index, data⟩ = .ok b

/-- Nothing is left to apply and no snapshot is due, or a batch is with the executor. -/
def Core.Rested (x : Core) : Prop :=
  x.applyInflight = true ∨
    ¬(x.running = true ∧ x.lastApplied < x.commitIndex) ∧ x.snapshotDue = false

theorem Core.Rested.snapshotDue {x : Core} (h : x.Rested) : x.snapshotDue = false := by
  rcases h with h | ⟨-, h⟩
  · simp [Core.snapshotDue, h]
  · exact h

/-- No snapshot was taken, or one of all that is applied, which is stored unless it is too large. -/
def Core.Attempted (x y : Core) : Prop :=
  (y.lastSnapshotAttempt = x.lastSnapshotAttempt ∧ y.log = x.log) ∨
    y.lastSnapshotAttempt = y.lastApplied ∧
      max x.log.snapshot.index x.lastSnapshotAttempt < y.lastApplied ∧
      ∃ data, y.sm.exportSnapshot = .ok data ∧
        (data.length ≤ kMaxSnapshotBytes → y.log.snapshot.index = y.lastApplied)

theorem compactApplied_snapshot {s : Snapshot} {a b : AbstractLog}
    (h : a.compactApplied s = .ok b) (hlt : a.snapshot.index < s.index) : b.snapshot = s := by
  rw [AbstractLog.compactApplied, if_neg (not_le.mpr hlt), AbstractLog.persistSnapshot] at h
  split_ifs at h
  · rw [← Except.ok.inj h]
  · rw [← Except.ok.inj h]

theorem maybeSnapshot_does (hr : Requests c.node) (hT : T c.log) :
    Does maybeSnapshot c (fun _ y => y = { core c with
        log := y.log
        lastSnapshotAttempt := y.lastSnapshotAttempt } ∧
      Compacted c.node.lastApplied c.log y.log ∧ y.snapshotDue = false ∧
      ((core c).snapshotDue = false → y = core c) ∧ (core c).Attempted y) T := by
  rw [maybeSnapshot]
  refine Does.getNode (Does.getLog (Does.branch (fun hdue => ?_) fun hdue => ?_))
  · refine Does.get ?_
    cases hexport : c.sm.exportSnapshot with
    | error text => exact Does.fail hr hT
    | ok data =>
      have hlt : c.log.snapshot.index < c.node.lastApplied ∧
          max c.log.snapshot.index c.node.lastSnapshotAttempt < c.node.lastApplied := by
        simp only [Node.snapshotDue, Bool.and_eq_true, decide_eq_true_eq] at hdue
        exact ⟨hdue.1.1.1.2, hdue.1.1.2⟩
      have hnot : (core c).snapshotDue = false → ∀ y, y = core c := fun h => by
        rw [show (core c).snapshotDue = true from hdue] at h
        cases h
      have hrested : ∀ log, (Core.snapshotDue { core c with
          log := log, lastSnapshotAttempt := c.node.lastApplied }) = false := fun log => by
        simp [Core.snapshotDue, core]
      refine Does.get (Does.observe (Does.modifyNode ?_))
      split_ifs with hlarge
      · exact Does.pure hr ⟨rfl, .inl rfl, hrested _, fun h => hnot h _,
          .inr ⟨rfl, hlt.2, data, hexport, fun hfits => absurd hfits (not_le.mpr hlarge)⟩⟩
      · exact Does.writeLog_last hr hT fun log hlog =>
          ⟨rfl, .inr ⟨data, hlog⟩, hrested log, fun h => hnot h _, .inr ⟨rfl, hlt.2, data, hexport,
            fun _ => congrArg Snapshot.index (compactApplied_snapshot hlog hlt.1)⟩⟩
  · exact Does.pure hr ⟨rfl, .inl rfl, Bool.eq_false_iff.mpr hdue, fun _ => rfl, .inl ⟨rfl, rfl⟩⟩

/-! ## Applying -/

theorem finishApply_does (first : ℤ) (count : ℕ) (results : List Bytes) (hr : Requests c.node)
    (hT : T c.log) :
    Does (finishApply first count results) c (fun _ y => first = c.node.lastApplied + 1 ∧
      y = { core c with lastApplied := c.node.lastApplied + count }) T := by
  rw [finishApply]
  refine Does.getNode (Does.branch (fun _ => Does.fail hr hT) fun hbad => ?_)
  refine Does.modifyNode (Does.still (Still.enableReads.bind fun _ =>
    Still.processPendingReads.bind fun _ => (Still.takePending _ _).bind fun _ =>
      Still.forM fun item => Still.invokeProposal item _ _) hr (fun _ => ⟨?_, rfl⟩) hT)
  push Not at hbad
  exact hbad.1

theorem applyToStore_does (first : ℤ) (commands : List Bytes) (hr : Requests c.node)
    (hT : T c.log) :
    Does (applyToStore first commands) c (fun _ y => y = { core c with sm := y.sm }) T := by
  rw [applyToStore, runStore, bind_assoc]
  refine wp_crashPoint (fun _ => ⟨hr, hT⟩) fun after => ?_
  rw [bind_assoc, wp_bind, wp_get]
  dsimp only
  cases applyBatch true first commands c.sm with
  | ok results sm => exact ⟨hr, .crashing after, rfl⟩
  | error text sm => exact ⟨hr, hT⟩

/-- The batches with the executor, and how far they go. -/
def Executor.Within (exec : Executor) (commit : ℤ) : Prop :=
  (∀ job, exec.job = some job → job.first + job.commands.length ≤ commit + 1) ∧
    ∀ completion ∈ exec.completions, completion.first + completion.count ≤ commit + 1

theorem runWorker_does (hr : Requests c.node) (hT : T c.log) :
    Does runWorker c (fun _ y => y = { core c with sm := y.sm, exec := y.exec } ∧
      (∀ commit, Executor.Within c.exec commit → Executor.Within y.exec commit) ∧
      (c.exec.job = none → y.exec = c.exec)) T := by
  rw [runWorker]
  refine Does.get ?_
  cases hjob : c.exec.job with
  | none => exact Does.pure hr ⟨rfl, fun _ h => h, fun _ => rfl⟩
  | some job =>
    refine wp_crashPoint (fun _ => ⟨hr, hT⟩) fun after => ?_
    rw [wp_bind, wp_get]
    have hwithin : ∀ results commit, Executor.Within c.exec commit → Executor.Within
        { job := none
          completions := c.exec.completions ++ [⟨job.first, job.commands.length, results⟩] }
        commit := by
      rintro results commit ⟨hj, hk⟩
      refine ⟨fun j hj => (nomatch hj), fun completion hc => ?_⟩
      rcases List.mem_append.mp hc with hc | hc
      · exact hk completion hc
      · obtain rfl := List.mem_singleton.mp hc
        exact hj job hjob
    dsimp only
    cases applyBatch true job.first job.commands c.sm with
    | ok results sm => exact ⟨hr, .crashing after, rfl, hwithin _, nofun⟩
    | error text sm => exact ⟨hr, .crashing after, rfl, hwithin _, nofun⟩

theorem submitApply_does (first : ℤ) (commands : List Bytes) (hr : Requests c.node)
    (hT : T c.log) :
    Does (submitApply first commands) c (fun _ y => y = { core c with
        sm := y.sm
        exec := y.exec
        applyInflight := true } ∧
      ∀ commit, first + commands.length ≤ commit + 1 → Executor.Within c.exec commit →
        Executor.Within y.exec commit) T := by
  rw [submitApply]
  refine Does.modifyNode ?_
  refine Does.get (Does.branch (fun _ => Does.fail hr hT) fun _ => ?_)
  have hwithin : ∀ commit, first + commands.length ≤ commit + 1 → Executor.Within c.exec commit →
      Executor.Within { c.exec with job := some ⟨first, commands⟩ } commit := by
    rintro commit hle ⟨-, hk⟩
    refine ⟨fun job hj => ?_, hk⟩
    obtain rfl := Option.some.inj hj
    exact hle
  refine Does.modify_bind ⟨.refl _, .inl rfl⟩ (Does.get (Does.modify_bind
    ⟨⟨le_rfl, List.suffix_rfl⟩, .inl rfl⟩ ?_))
  split_ifs
  · refine Does.imp (runWorker_does ?_ ?_) fun _ y hy => ⟨hy.1, fun commit hle hx => ?_⟩
    · exact hr
    · exact hT
    · exact hy.2.1 commit (hwithin commit hle hx)
  · exact Does.pure hr ⟨rfl, hwithin⟩

/-- Committed entries were applied. -/
structure Applied (x y : Core) : Prop where
  same : y = { x with
    log := y.log
    sm := y.sm
    exec := y.exec
    applyInflight := y.applyInflight
    lastApplied := y.lastApplied
    lastSnapshotAttempt := y.lastSnapshotAttempt }
  log : Compacted y.lastApplied x.log y.log
  lower : x.lastApplied ≤ y.lastApplied
  upper : y.lastApplied = x.lastApplied ∨ y.lastApplied ≤ x.commitIndex
  exec : Executor.Within x.exec x.commitIndex → Executor.Within y.exec x.commitIndex
  rested : x.Rested → y = x
  attempted : x.Attempted y
  sync : x.async = false → y.exec = x.exec ∧ y.applyInflight = x.applyInflight
  submits : x.async = true → y.lastApplied = x.lastApplied ∧
    (x.running = true → x.lastApplied < x.commitIndex → y.log = x.log)
  idle : ¬(x.running = true ∧ x.lastApplied < x.commitIndex) → y.applyInflight = x.applyInflight

/-- The loop of `ApplyCommitted`, with as many turns as there are entries to apply. -/
theorem applyBatchesLoop_does (turns : ℕ) (hr : Requests c.node)
    (hidle : c.node.applyInflight = false)
    (hturns : (c.node.commitIndex - c.node.lastApplied).toNat ≤ turns) (hT : T c.log) :
    Does (applyBatchesLoop turns) c (fun _ y => Applied (core c) y ∧ y.Rested) T := by
  -- the end of the loop, wherever it is reached
  have hend : ∀ {c : Context}, Requests c.node → T c.log →
      ¬(c.node.running = true ∧ c.node.lastApplied < c.node.commitIndex) →
      Does maybeSnapshot c (fun _ y => Applied (core c) y ∧ y.Rested) T := by
    intro c hr hT hdone
    refine (maybeSnapshot_does hr hT).imp fun _ y ⟨hy, hlog, hdue, hsame, hatt⟩ => ?_
    have happlied : y.lastApplied = c.node.lastApplied := by rw [hy]; rfl
    refine ⟨⟨by rw [hy], ?_, ?_, .inl happlied, ?_, fun hrest => hsame hrest.snapshotDue, hatt,
      fun _ => by rw [hy]; exact ⟨rfl, rfl⟩,
      fun _ => ⟨happlied, fun hrun hlt => absurd ⟨hrun, hlt⟩ hdone⟩, fun _ => by rw [hy]⟩,
      .inr ⟨?_, hdue⟩⟩
    · rw [happlied]
      exact hlog
    · exact happlied.ge
    · rw [hy]
      exact id
    · rw [hy]
      exact hdone
  induction turns generalizing c with
  | zero => exact hend hr hT fun hgo => by omega
  | succ turns ih =>
    rw [applyBatchesLoop]
    refine Does.getNode (Does.getLog (Does.branch (fun hgo => ?_) fun hgo => ?_))
    · have hbusy : ∀ y, (core c).Rested → y = core c := fun y hrest => by
        rcases hrest with hrest | ⟨hrest, -⟩
        · rw [show (core c).applyInflight = false from hidle] at hrest
          cases hrest
        · exact absurd hgo hrest
      cases hc : collectCommands c.log c.node.commitIndex (kMaxBatchEntries + 1)
        (c.node.lastApplied + 1) 0 0 with
      | error text => exact Does.fail hr hT
      | ok commands =>
        have hpos := collectCommands_pos (by omega) hc
        have hle := collectCommands_le (by omega) hc
        dsimp only
        refine Does.branch (fun hasync => ?_) fun hasync => ?_
        · refine (submitApply_does _ commands hr hT).imp fun _ y ⟨hy, hw⟩ => ?_
          have happlied : y.lastApplied = c.node.lastApplied := by rw [hy]; rfl
          have hflight : y.applyInflight = true := by rw [hy]
          have hlog : y.log = c.log := by rw [hy]; rfl
          have hattempt : y.lastSnapshotAttempt = c.node.lastSnapshotAttempt := by rw [hy]; rfl
          refine ⟨⟨?_, .inl hlog, happlied.ge, .inl happlied, hw _ hle, hbusy y,
            .inl ⟨hattempt, hlog⟩, fun hsync => ?_, fun _ => ⟨happlied, fun _ _ => hlog⟩,
            fun hdone => absurd hgo hdone⟩, .inl hflight⟩
          · rw [hy]
          · cases hasync.symm.trans hsync
        · refine Does.bind (S := fun _ y => y = { core c with
              sm := y.sm
              lastApplied := c.node.lastApplied + commands.length }) ?_ fun _ c₁ hr₁ _ hx₁ => ?_
          · refine Does.onFailure (Still.modifyNode_same (fun _ => rfl) fun _ => rfl) ?_
            refine (applyToStore_does _ commands hr hT).bind fun results c₁ hr₁ _ hx₁ => ?_
            have hlog₁ : c₁.log = c.log := congrArg Core.log hx₁
            have happlied₁ : c₁.node.lastApplied = c.node.lastApplied :=
              congrArg Core.lastApplied hx₁
            refine (finishApply_does _ _ results hr₁ (hlog₁ ▸ hT)).imp fun _ y ⟨_, hy⟩ => ?_
            rw [hy, hx₁, happlied₁]
          · have hlog₁ : c₁.log = c.log := congrArg Core.log hx₁
            have hcommit₁ : c₁.node.commitIndex = c.node.commitIndex :=
              congrArg Core.commitIndex hx₁
            have happlied₁ : c₁.node.lastApplied = c.node.lastApplied + commands.length :=
              congrArg Core.lastApplied hx₁
            have hidle₁ : c₁.node.applyInflight = false :=
              (congrArg Core.applyInflight hx₁).trans hidle
            refine (ih hr₁ hidle₁ (by rw [hcommit₁, happlied₁]; omega) (hlog₁ ▸ hT)).imp
              fun _ y ⟨hy, hrest⟩ => ?_
            rw [hx₁] at hy
            refine ⟨{ hy with
              lower := le_trans (by simp [core]) hy.lower
              upper := .inr (hy.upper.elim (fun h => ?_) id)
              rested := hbusy y
              submits := fun h => absurd h hasync
              idle := fun hdone => absurd hgo hdone }, hrest⟩
            rw [h]
            dsimp only [core]
            omega
    · exact hend hr hT hgo

/-- Committed entries are applied until the node rests. -/
theorem applyCommitted_does (hr : Requests c.node) (hT : T c.log) :
    Does applyCommitted c (fun _ y => Applied (core c) y ∧ y.Rested) T := by
  rw [applyCommitted]
  refine Does.getNode (Does.branch (fun hbusy => ?_) fun hbusy => ?_)
  · exact Does.pure hr ⟨⟨rfl, .inl rfl, le_rfl, .inl rfl, id, fun _ => rfl, .inl ⟨rfl, rfl⟩,
      fun _ => ⟨rfl, rfl⟩, fun _ => ⟨rfl, fun _ _ => rfl⟩, fun _ => rfl⟩, .inl hbusy⟩
  · exact applyBatchesLoop_does _ hr (Bool.eq_false_iff.mpr hbusy) le_rfl hT

/-! ## Committing and proposing -/

/-- The commit index may move to an entry of the current term, and what is committed is applied. -/
def Core.Advances (x y : Core) : Prop :=
  ∃ commit, (commit = x.commitIndex ∨
      x.commitIndex < commit ∧ x.log.getTerm commit = x.currentTerm) ∧
    Applied { x with commitIndex := commit } y ∧ y.Rested

theorem advanceCommitIndex_does (hr : Requests c.node) (hT : T c.log) :
    Does advanceCommitIndex c (fun _ y => (core c).Advances y) T := by
  rw [advanceCommitIndex]
  refine Does.getLog (Does.modifyNode ?_ (by split_ifs <;> rfl))
  by_cases hmove : c.node.commitIndex < c.node.majorityMatch ∧
      c.log.getTerm c.node.majorityMatch = c.node.currentTerm
  · rw [if_pos hmove]
    exact Does.imp (applyCommitted_does (by exact hr) (by exact hT))
      fun _ y hy => ⟨_, .inr hmove, hy⟩
  · rw [if_neg hmove]
    exact Does.imp (applyCommitted_does hr hT) fun _ y hy => ⟨_, .inl rfl, hy⟩

/-- No command is too large for an entry. -/
def Fitting (proposals : List Proposal) : Prop :=
  ∀ p ∈ proposals, p.command.length ≤ kMaxCommandBytes

/-- Proposals are refused, or appended by a leader in its term. -/
def Core.Proposes (x : Core) (proposals : List Proposal) (y : Core) : Prop :=
  y = x ∨ x.role = .leader ∧ Fitting proposals ∧ ∃ log,
    x.log.appendBatch (fun _ => true)
      (proposalEntries (x.log.lastIndex + 1) x.currentTerm proposals) = .ok log ∧
    Core.Advances { x with log := log } y

theorem proposeBatch_does (proposals : List Proposal) (hr : Requests c.node) (hT : T c.log)
    (hT' : c.node.role = .leader → Fitting proposals → ∀ log, c.log.appendBatch (fun _ => true)
      (proposalEntries (c.log.lastIndex + 1) c.node.currentTerm proposals) = .ok log → T log) :
    Does (proposeBatch proposals) c (fun _ y => (core c).Proposes proposals y) T := by
  rw [proposeBatch]
  refine Does.getNode (Does.getLog ?_)
  cases hadmit : c.node.admission proposals with
  | error code => exact Does.pure hr (.inl rfl)
  | ok bytes =>
    obtain ⟨-, hrole, -, hfit, -⟩ := Node.admitted_of_ok hadmit
    dsimp only
    split_ifs
    · exact Does.fail hr hT
    refine Does.bind (S := fun _ y => ∃ log, c.log.appendBatch (fun _ => true)
        (proposalEntries (c.log.lastIndex + 1) c.node.currentTerm proposals) = .ok log ∧
        y = { core c with log := log }) ?_ fun _ c₁ hr₁ _ ⟨log, hlog, hx₁⟩ => ?_
    · exact Does.onFailure (Still.touch (fun _ => rfl) (fun _ => rfl) (Still.failPending _))
        (Does.writeLog_last hr hT fun log hlog => ⟨log, hlog, rfl⟩)
    have hT₁ : T c₁.log := by
      rw [show c₁.log = log from congrArg Core.log hx₁]
      exact hT' hrole hfit log hlog
    have hT₂ : ∀ c₂ : Context, core c₂ = core c₁ → T c₂.log := fun c₂ hx₂ => by
      rw [show c₂.log = c₁.log from congrArg Core.log hx₂]
      exact hT₁
    refine Does.still_bind (Still.addPending proposals _) hr₁ hT₁ fun _ c₂ hr₂ _ hx₂ =>
      Does.modifyNode (Does.still_bind Still.broadcastAppendEntries hr₂ (hT₂ c₂ hx₂)
        fun _ c₃ hr₃ _ hx₃ => ?_)
    have hx₃ : core c₃ = core c₁ := hx₃.trans hx₂
    refine (advanceCommitIndex_does hr₃ (hT₂ c₃ hx₃)).bind fun _ c₄ hr₄ _ hadv => Does.pure hr₄ ?_
    rw [hx₃, hx₁] at hadv
    exact .inr ⟨hrole, hfit, log, hlog, hadv⟩

/-! ## Leaders and candidates -/

/-- A leader appends an empty entry of its term. -/
def Core.Leads (x y : Core) : Prop :=
  Core.Proposes { x with role := .leader, leaderId := x.nodeId } [⟨[], none⟩] y

theorem becomeLeader_does (hT : T c.log) (hT' : ∀ log, c.log.appendBatch (fun _ => true)
      (proposalEntries (c.log.lastIndex + 1) c.node.currentTerm [⟨[], none⟩]) = .ok log → T log) :
    Does becomeLeader c (fun _ y => (core c).Leads y) T := by
  rw [becomeLeader]
  refine Does.getLog (Does.modifyNode (Does.getNode (Does.observe ?_)))
  have hr₁ : Requests (c.node.asLeader c.log.lastIndex) := fun u m hm => by cases hm
  refine Does.bind (proposeBatch_does _ hr₁ hT fun _ _ => hT') fun _ c₂ hr₂ _ hx₂ => ?_
  exact ⟨hr₂, ⟨(Later.now c₂.env).trans (.now _), .inl rfl⟩, hx₂⟩

/-- The core of a candidate for the next term. -/
def Core.stand (x : Core) (deadline : ℤ) : Core :=
  { x with
    log := { x.log with hardState := some (x.currentTerm + 1, x.nodeId) }
    currentTerm := x.currentTerm + 1
    votedFor := x.nodeId
    role := .candidate
    leaderId := -1
    votes := {x.nodeId}
    electionDeadline := deadline }

/-- An election starts, and a node that needs no other vote has won it. -/
def Core.Stands (x y : Core) : Prop :=
  x.currentTerm ≠ int32Max ∧ ∃ deadline, y = x.stand deadline ∨ (x.stand deadline).Leads y

/-- The logs that the start of an election leaves. -/
structure Standing (T : AbstractLog → Prop) (x : Core) : Prop where
  start : T x.log
  hard : x.currentTerm ≠ int32Max →
    T { x.log with hardState := some (x.currentTerm + 1, x.nodeId) }
  empty : x.currentTerm ≠ int32Max → ∀ log, AbstractLog.appendBatch (fun _ => true)
    (proposalEntries (x.log.lastIndex + 1) (x.currentTerm + 1) [⟨[], none⟩])
    { x.log with hardState := some (x.currentTerm + 1, x.nodeId) } = .ok log → T log

/-- A candidate may win at once. -/
theorem becomeCandidate_does (hr : Requests c.node) (hT : Standing T (core c)) :
    Does becomeCandidate c (fun _ y => (core c).Stands y) T := by
  rw [becomeCandidate]
  refine Does.getNode (Does.branch (fun _ => Does.fail hr hT.start) fun hmax => ?_)
  refine Does.writeLog hr hT.start fun log after hlog => Does.modifyNode ?_
  obtain rfl := (saveHardState_ok hlog).1
  refine Does.bind (resetElectionTimer_does (by exact hr)) fun _ c₁ hr₁ _ ⟨deadline, _, hx₁⟩ => ?_
  have hx₁ : core c₁ = (core c).stand deadline := hx₁
  have hlog₁ : c₁.log = { c.log with hardState := some (c.node.currentTerm + 1, c.node.nodeId) } :=
    congrArg Core.log hx₁
  have hterm₁ : c₁.node.currentTerm = c.node.currentTerm + 1 := congrArg Core.currentTerm hx₁
  split_ifs
  · refine (becomeLeader_does ?_ fun log hlog => ?_).imp
      fun _ y hy => ⟨hmax, deadline, .inr (hx₁ ▸ hy)⟩
    · rw [hlog₁]
      exact hT.hard hmax
    · rw [hlog₁, hterm₁] at hlog
      exact hT.empty hmax log hlog
  · refine Does.getLog
      (Does.still (Still.broadcast rfl) hr₁ (fun _ => ⟨hmax, deadline, .inl hx₁⟩) ?_)
    rw [hlog₁]
    exact hT.hard hmax

/-- A pre-vote starts. -/
def Core.canvass (x : Core) (deadline : ℤ) : Core :=
  { x with
    role := .preCandidate
    leaderId := -1
    votes := {x.nodeId}
    electionDeadline := deadline }

/-- The fields that say who a node is. -/
def Core.ident (x : Core) : Node :=
  { nodeId := x.nodeId, allPeers := x.allPeers, running := x.running }

theorem becomePreCandidate_does (hr : Requests c.node) (hT : Standing T (core c)) :
    Does becomePreCandidate c (fun _ y => (core c).ident.quorumSize = 1 ∧ (core c).Stands y ∨
      ∃ deadline, y = (core c).canvass deadline) T := by
  rw [becomePreCandidate]
  refine Does.getNode (Does.branch (fun hsolo => ?_) fun _ => Does.branch
    (fun _ => Does.fail hr hT.start) fun hmax => ?_)
  · exact (becomeCandidate_does hr hT).imp fun _ y hy => .inl ⟨hsolo, hy⟩
  refine Does.modifyNode (Does.bind (resetElectionTimer_does (by exact hr))
    fun _ c₁ hr₁ _ ⟨deadline, _, hx₁⟩ => Does.getLog ?_)
  have hlog₁ : c₁.log = c.log := congrArg Core.log hx₁
  exact Does.still (Still.broadcast rfl) hr₁ (fun _ => .inr ⟨deadline, hx₁⟩) (hlog₁ ▸ hT.start)

/-! ## Installing a snapshot -/

/-- A complete snapshot is staged in the Raft database and installed in both. -/
def Core.Installs (x : Core) (s : Snapshot) (y : Core) : Prop :=
  ∃ staged, x.log.stageSnapshotInstall s = .ok staged ∧ staged.installSnapshot s = .ok y.log ∧
    y = { x with
      log := y.log
      sm := y.sm
      lastApplied := s.index
      commitIndex := max x.commitIndex s.index
      snapshotReceive := {} }

/-- The logs that an install leaves. -/
structure Installing (T : AbstractLog → Prop) (log : AbstractLog) (s : Snapshot) : Prop where
  start : T log
  staged : ∀ b, log.stageSnapshotInstall s = .ok b → T b
  installed : ∀ b b', log.stageSnapshotInstall s = .ok b → b.installSnapshot s = .ok b' → T b'

/-- A received snapshot is staged, installed and finished. -/
theorem installReceived_does (s : Snapshot) (hr : Requests c.node) (hT : Installing T c.log s) :
    Does (installReceived s) c (fun _ y => (core c).Installs s y) T := by
  rw [installReceived]
  refine Does.bind (S := fun _ y => c.log.stageSnapshotInstall s = .ok y.log ∧
    y = { core c with log := y.log, sm := y.sm }) ?_ fun _ c₁ hr₁ _ ⟨hstage, hx₁⟩ => ?_
  · rw [installStore]
    cases parseSnapshot s.data with
    | error text => exact Does.fail hr hT.start
    | ok entries =>
      refine Does.get ?_
      cases c.sm.replaceBatch s.index entries with
      | error text => exact Does.fail hr hT.start
      | ok batch =>
        refine Does.writeLog hr hT.start fun staged after hstage => ?_
        exact wp_crashPoint (fun _ => ⟨hr, hT.staged staged hstage⟩) fun after' =>
          ⟨hr, .crashing after', hstage, rfl⟩
  · refine Does.writeLog hr₁ (hT.staged _ hstage) fun log after hlog =>
      Does.modifyNode_last (by exact hr₁) ⟨c₁.log, hstage, hlog, ?_⟩
    change ({ core c₁ with
      log := log
      lastApplied := s.index
      commitIndex := max (core c₁).commitIndex s.index
      snapshotReceive := {} } : Core) = _
    rw [hx₁]
    rfl

end RaftKV.Local
