import RaftKV.Bytes

/-!
# The serial apply executor

`SerialApplyExecutor` runs one job at a time on a worker thread and posts the completion of the
job to the thread that owns it. Every section under the mutex is one step, and so is every step
between two of them that another thread can see : the notifications after `Submit` and `Stop`,
the work itself, the post, and the return of `join`. A run is any order of such steps, with any
number of callers. Waking the worker without a notification is a step as well, since a condition
variable may do that.

What was accepted is what has run and what is still to run, in order; what has run is what was
posted and at most one job whose completion is about to be posted; what was posted is what the
owner has completed and what it has in its queue (`Ledger`). A worker that sleeps while there is
something to do has a notification under way, so that with a fair schedule every job that was
accepted is posted (`posted_of_fair`).
-/

namespace RaftKV

/-- What a piece of work gives : its results, or its exception. -/
abbrev WorkOutcome (ε : Type*) := Except ε (List Bytes)

/-- `SerialApplyExecutor::Job`. -/
structure Job (ω κ : Type*) where
  work : ω
  completion : κ

/-- Where the worker is in `SerialApplyExecutor::Run`. -/
inductive Worker (ω κ ε : Type*) where
  /-- About to look at the condition of the wait, under the mutex. -/
  | checking
  | asleep
  | working (job : Job ω κ)
  /-- The work is done, and the worker is still busy. -/
  | finished (job : Job ω κ) (outcome : WorkOutcome ε)
  | posting (job : Job ω κ) (outcome : WorkOutcome ε)
  | exited

/-- Where the caller of `Stop` that `call_once` lets through is. -/
inductive StopState where
  | idle
  | joining
  | done
  deriving DecidableEq

/-- What a run shows. -/
inductive Shown (ω κ ε : Type*) where
  | threw (text : String)
  | refused
  | accepted (job : Job ω κ)
  | ran (job : Job ω κ) (outcome : WorkOutcome ε)
  | posted (job : Job ω κ) (outcome : WorkOutcome ε)
  | completed (job : Job ω κ) (outcome : WorkOutcome ε)
  | stopReturned

/-- `SerialApplyExecutor`, with its threads, the queue of the owner and what has been shown. -/
structure SerialApplyExecutor (ω κ ε : Type*) where
  job : Option (Job ω κ) := none
  busy : Bool := false
  stopping : Bool := false
  worker : Worker ω κ ε := .checking
  /-- Calls that have left their section and not yet notified. -/
  notifies : ℕ := 0
  stop : StopState := .idle
  owner : List (Job ω κ × WorkOutcome ε) := []
  shown : List (Shown ω κ ε) := []

/-- A step of some thread. -/
inductive Turn (ω κ ε : Type*) where
  | submit (work : Option ω) (completion : Option κ)
  | notify
  | wake
  /-- A step of the worker; the outcome counts when it works. -/
  | worker (outcome : WorkOutcome ε)
  | stop
  | join
  | stopReturn
  | owner

namespace SerialApplyExecutor

variable {ω κ ε : Type*}

/-- Something is shown. -/
def record (x : SerialApplyExecutor ω κ ε) (event : Shown ω κ ε) : SerialApplyExecutor ω κ ε :=
  { x with shown := x.shown ++ [event] }

/-- `SerialApplyExecutor::Submit`, without its notification. -/
def submit (x : SerialApplyExecutor ω κ ε) :
    Option ω → Option κ → SerialApplyExecutor ω κ ε
  | some work, some completion =>
    if x.busy ∨ x.stopping then x.record .refused
    else { x with
      job := some ⟨work, completion⟩
      busy := true
      notifies := x.notifies + 1 }.record (.accepted ⟨work, completion⟩)
  | _, _ => x.record (.threw "apply executor requires work and completion")

/-- `notify_one` of a call that has left its section. -/
def notify (x : SerialApplyExecutor ω κ ε) : SerialApplyExecutor ω κ ε :=
  if x.notifies = 0 then x
  else { x with
    notifies := x.notifies - 1
    worker := match x.worker with
      | .asleep => .checking
      | worker => worker }

/-- The worker wakes up for no reason. -/
def wake (x : SerialApplyExecutor ω κ ε) : SerialApplyExecutor ω κ ε :=
  match x.worker with
  | .asleep => { x with worker := .checking }
  | _ => x

/-- The next step of `SerialApplyExecutor::Run`. -/
def run (x : SerialApplyExecutor ω κ ε) (outcome : WorkOutcome ε) : SerialApplyExecutor ω κ ε :=
  match x.worker with
  | .checking =>
    match x.job with
    | some job => { x with job := none, worker := .working job }
    | none => if x.stopping then { x with worker := .exited } else { x with worker := .asleep }
  | .asleep => x
  | .working job => { x with worker := .finished job outcome }.record (.ran job outcome)
  | .finished job outcome => { x with busy := false, worker := .posting job outcome }
  | .posting job outcome =>
    { x with owner := x.owner ++ [(job, outcome)], worker := .checking }.record
      (.posted job outcome)
  | .exited => x

/-- The section of `SerialApplyExecutor::Stop`, which `call_once` lets one caller enter. -/
def beginStop (x : SerialApplyExecutor ω κ ε) : SerialApplyExecutor ω κ ε :=
  match x.stop with
  | .idle => { x with stopping := true, notifies := x.notifies + 1, stop := .joining }
  | _ => x

/-- The end of `join`. -/
def join (x : SerialApplyExecutor ω κ ε) : SerialApplyExecutor ω κ ε :=
  match x.stop, x.worker with
  | .joining, .exited => { x with stop := .done }
  | _, _ => x

/-- A caller of `SerialApplyExecutor::Stop` returns. -/
def stopReturn (x : SerialApplyExecutor ω κ ε) : SerialApplyExecutor ω κ ε :=
  if x.stop = .done then x.record .stopReturned else x

/-- The owner runs the next completion of its queue. -/
def ownerTurn (x : SerialApplyExecutor ω κ ε) : SerialApplyExecutor ω κ ε :=
  match x.owner with
  | [] => x
  | (job, outcome) :: rest => { x with owner := rest }.record (.completed job outcome)

/-- One step of some thread. -/
def step (x : SerialApplyExecutor ω κ ε) : Turn ω κ ε → SerialApplyExecutor ω κ ε
  | .submit work completion => x.submit work completion
  | .notify => x.notify
  | .wake => x.wake
  | .worker outcome => x.run outcome
  | .stop => x.beginStop
  | .join => x.join
  | .stopReturn => x.stopReturn
  | .owner => x.ownerTurn

/-- A new executor after some steps. -/
def after (turns : List (Turn ω κ ε)) : SerialApplyExecutor ω κ ε := turns.foldl step {}

end SerialApplyExecutor

/-! ## What a run shows -/

variable {ω κ ε : Type*}

namespace Shown

/-- The job that is accepted. -/
def accepted? : Shown ω κ ε → Option (Job ω κ)
  | .accepted job => some job
  | _ => none

/-- The job whose work has run, with what it gave. -/
def ran? : Shown ω κ ε → Option (Job ω κ × WorkOutcome ε)
  | .ran job outcome => some (job, outcome)
  | _ => none

/-- The completion that is posted. -/
def posted? : Shown ω κ ε → Option (Job ω κ × WorkOutcome ε)
  | .posted job outcome => some (job, outcome)
  | _ => none

/-- The completion that runs. -/
def completed? : Shown ω κ ε → Option (Job ω κ × WorkOutcome ε)
  | .completed job outcome => some (job, outcome)
  | _ => none

end Shown

namespace Worker

/-- The job that is in the hands of the worker. -/
def atWork : Worker ω κ ε → List (Job ω κ)
  | .working job => [job]
  | _ => []

/-- The job that has run and is not posted. -/
def unposted : Worker ω κ ε → List (Job ω κ × WorkOutcome ε)
  | .finished job outcome => [(job, outcome)]
  | .posting job outcome => [(job, outcome)]
  | _ => []

/-- The worker has a job that counts as busy. -/
def Busy : Worker ω κ ε → Prop
  | .working _ => True
  | .finished _ _ => True
  | _ => False

theorem atWork_of_not_busy {worker : Worker ω κ ε} (h : ¬ worker.Busy) : worker.atWork = [] := by
  cases worker with
  | working job => exact (h trivial).elim
  | _ => rfl

end Worker

/-- What was accepted is what has run and what is still to run, what has run is what was posted
and what is about to be, and what was posted is what was completed and what is queued. -/
structure Ledger (shown : List (Shown ω κ ε)) (worker : Worker ω κ ε) (job : Option (Job ω κ))
    (owner : List (Job ω κ × WorkOutcome ε)) : Prop where
  accepted : shown.filterMap Shown.accepted? =
    (shown.filterMap Shown.ran?).map Prod.fst ++ (worker.atWork ++ job.toList)
  ran : shown.filterMap Shown.ran? = shown.filterMap Shown.posted? ++ worker.unposted
  posted : shown.filterMap Shown.posted? = shown.filterMap Shown.completed? ++ owner

namespace Ledger

variable {shown : List (Shown ω κ ε)} {worker worker' : Worker ω κ ε} {job : Option (Job ω κ)}
  {owner : List (Job ω κ × WorkOutcome ε)} {j : Job ω κ} {outcome : WorkOutcome ε}

theorem quiet (h : Ledger shown worker job owner) {event : Shown ω κ ε}
    (hevent : event.accepted? = none ∧ event.ran? = none ∧ event.posted? = none ∧
      event.completed? = none) : Ledger (shown ++ [event]) worker job owner := by
  obtain ⟨ha, hr, hp, hc⟩ := hevent
  exact ⟨by simpa [ha, hr] using h.accepted, by simpa [hr, hp] using h.ran,
    by simpa [hp, hc] using h.posted⟩

theorem accept (h : Ledger shown worker none owner) (hworker : worker.atWork = []) (j : Job ω κ) :
    Ledger (shown ++ [.accepted j]) worker (some j) owner := by
  have haccepted := h.accepted
  rw [hworker] at haccepted
  exact ⟨by simp [List.filterMap_cons, Shown.accepted?, Shown.ran?, hworker, haccepted],
    by simpa [List.filterMap_cons, Shown.ran?, Shown.posted?] using h.ran,
    by simpa [List.filterMap_cons, Shown.posted?, Shown.completed?] using h.posted⟩

theorem move (h : Ledger shown worker job owner) (hwork : worker'.atWork = worker.atWork)
    (hunposted : worker'.unposted = worker.unposted) : Ledger shown worker' job owner :=
  ⟨by rw [hwork]; exact h.accepted, by rw [hunposted]; exact h.ran, h.posted⟩

theorem take (h : Ledger shown .checking (some j) owner) : Ledger shown (.working j) none owner :=
  ⟨h.accepted, h.ran, h.posted⟩

theorem work (h : Ledger shown (.working j) none owner) (outcome : WorkOutcome ε) :
    Ledger (shown ++ [.ran j outcome]) (.finished j outcome) none owner :=
  ⟨by simpa [List.filterMap_cons, Shown.accepted?, Shown.ran?, Worker.atWork] using h.accepted,
    by simpa [List.filterMap_cons, Shown.ran?, Shown.posted?, Worker.unposted] using h.ran,
    by simpa [List.filterMap_cons, Shown.posted?, Shown.completed?] using h.posted⟩

theorem post (h : Ledger shown (.posting j outcome) job owner) :
    Ledger (shown ++ [.posted j outcome]) .checking job (owner ++ [(j, outcome)]) :=
  ⟨by simpa [List.filterMap_cons, Shown.accepted?, Shown.ran?, Worker.atWork] using h.accepted,
    by simpa [List.filterMap_cons, Shown.ran?, Shown.posted?, Worker.unposted] using h.ran,
    by simp [List.filterMap_cons, Shown.posted?, Shown.completed?, h.posted]⟩

theorem complete (h : Ledger shown worker job ((j, outcome) :: owner)) :
    Ledger (shown ++ [.completed j outcome]) worker job owner :=
  ⟨by simpa [List.filterMap_cons, Shown.accepted?, Shown.ran?] using h.accepted,
    by simpa [List.filterMap_cons, Shown.ran?, Shown.posted?] using h.ran,
    by simpa [List.filterMap_cons, Shown.posted?, Shown.completed?] using h.posted⟩

end Ledger

namespace SerialApplyExecutor

variable {x : SerialApplyExecutor ω κ ε}

/-- The books of an executor, and when its worker is busy, sleeps or has left. -/
structure WellFormed (x : SerialApplyExecutor ω κ ε) : Prop where
  ledger : Ledger x.shown x.worker x.job x.owner
  free : x.busy = false → x.job = none ∧ ¬ x.worker.Busy
  single : x.worker.Busy → x.job = none
  asleep : x.worker = .asleep → x.job ≠ none ∨ x.stopping = true → 0 < x.notifies
  exited : x.worker = .exited → x.stopping = true ∧ x.job = none
  stopping : x.stop ≠ .idle → x.stopping = true
  done : x.stop = .done → x.worker = .exited

namespace WellFormed

theorem init : WellFormed ({} : SerialApplyExecutor ω κ ε) := by
  refine ⟨⟨rfl, rfl, rfl⟩, ?_, ?_, ?_, ?_, ?_, ?_⟩ <;> simp [Worker.Busy]

theorem quiet (h : WellFormed x) {event : Shown ω κ ε}
    (hevent : event.accepted? = none ∧ event.ran? = none ∧ event.posted? = none ∧
      event.completed? = none) : WellFormed (x.record event) :=
  { h with ledger := h.ledger.quiet hevent }

theorem submit (h : WellFormed x) (work : Option ω) (completion : Option κ) :
    WellFormed (x.submit work completion) := by
  match work, completion with
  | none, _ => exact h.quiet ⟨rfl, rfl, rfl, rfl⟩
  | some _, none => exact h.quiet ⟨rfl, rfl, rfl, rfl⟩
  | some work, some completion =>
    rw [SerialApplyExecutor.submit]
    split_ifs with hbusy
    · exact h.quiet ⟨rfl, rfl, rfl, rfl⟩
    rw [not_or, Bool.not_eq_true, Bool.not_eq_true] at hbusy
    obtain ⟨hjob, hworker⟩ := h.free hbusy.1
    refine ⟨?_, ?_, ?_, ?_, ?_, h.stopping, h.done⟩
    · have hledger := h.ledger
      rw [hjob] at hledger
      exact hledger.accept (Worker.atWork_of_not_busy hworker) _
    · intro hfree
      cases hfree
    · exact fun hocc => (hworker hocc).elim
    · exact fun _ _ => Nat.succ_pos _
    intro hexited
    have hstopping := (h.exited hexited).1
    rw [hbusy.2] at hstopping
    cases hstopping

section

variable (h : WellFormed x)
include h

theorem wakeUp (hworker : x.worker = .asleep) (n : ℕ) :
    WellFormed { x with worker := .checking, notifies := n } := by
  refine ⟨h.ledger.move ?_ ?_, fun hfree => ⟨(h.free hfree).1, id⟩, False.elim, fun hasleep => ?_,
    fun hexited => ?_, h.stopping, fun hdone => ?_⟩
  · rw [hworker]
    rfl
  · rw [hworker]
    rfl
  · cases hasleep
  · cases hexited
  · cases hworker.symm.trans (h.done hdone)

theorem wake : WellFormed x.wake := by
  rw [SerialApplyExecutor.wake]
  split
  · exact h.wakeUp ‹_› x.notifies
  · exact h

theorem notify : WellFormed x.notify := by
  rw [SerialApplyExecutor.notify]
  split_ifs with hnone
  · exact h
  split
  · exact h.wakeUp ‹_› _
  · rename_i hawake
    exact { h with asleep := fun hasleep => (hawake hasleep).elim }

theorem run (outcome : WorkOutcome ε) : WellFormed (x.run outcome) := by
  have hledger := h.ledger
  have hdone : x.worker ≠ .exited → x.stop ≠ .done := fun hworker hdone => hworker (h.done hdone)
  rw [SerialApplyExecutor.run]
  split
  · rename_i hworker
    rw [hworker] at hledger
    split
    · rename_i job hjob
      rw [hjob] at hledger
      exact ⟨hledger.take, fun hfree => absurd (h.free hfree).1 (by simp [hjob]), fun _ => rfl,
        fun hasleep => (nomatch hasleep), fun hexited => (nomatch hexited), h.stopping,
        fun hstop => (hdone (by simp [hworker]) hstop).elim⟩
    rename_i hjob
    split_ifs with hstopping
    · exact ⟨hledger.move rfl rfl, fun _ => ⟨hjob, id⟩, False.elim,
        fun hasleep => (nomatch hasleep), fun _ => ⟨hstopping, hjob⟩, h.stopping, fun _ => rfl⟩
    refine ⟨hledger.move rfl rfl, fun _ => ⟨hjob, id⟩, False.elim, fun _ hreason => ?_,
      fun hexited => (nomatch hexited), h.stopping,
      fun hstop => (hdone (by simp [hworker]) hstop).elim⟩
    exact (hreason.elim (fun hsome => hsome hjob) hstopping).elim
  · exact h
  · rename_i job hworker
    have hjob : x.job = none := h.single (by rw [hworker]; trivial)
    rw [hworker, hjob] at hledger
    refine ⟨?_, fun hfree => ?_, fun _ => hjob, fun hasleep => (nomatch hasleep),
      fun hexited => (nomatch hexited), h.stopping,
      fun hstop => (hdone (by simp [hworker]) hstop).elim⟩
    · have hwork := hledger.work outcome
      rw [← hjob] at hwork
      exact hwork
    · exact ((h.free hfree).2 (by rw [hworker]; trivial)).elim
  · rename_i job outcome hworker
    have hjob : x.job = none := h.single (by rw [hworker]; trivial)
    rw [hworker] at hledger
    exact ⟨hledger.move rfl rfl, fun _ => ⟨hjob, id⟩, False.elim, fun hasleep => (nomatch hasleep),
      fun hexited => (nomatch hexited), h.stopping,
      fun hstop => (hdone (by simp [hworker]) hstop).elim⟩
  · rename_i job outcome hworker
    rw [hworker] at hledger
    exact ⟨hledger.post, fun hfree => ⟨(h.free hfree).1, id⟩, False.elim,
      fun hasleep => (nomatch hasleep), fun hexited => (nomatch hexited), h.stopping,
      fun hstop => (hdone (by simp [hworker]) hstop).elim⟩
  · exact h

theorem beginStop : WellFormed x.beginStop := by
  rw [SerialApplyExecutor.beginStop]
  split
  · exact ⟨h.ledger, h.free, h.single, fun _ _ => Nat.succ_pos _,
      fun hexited => ⟨rfl, (h.exited hexited).2⟩, fun _ => rfl, fun hdone => (nomatch hdone)⟩
  · exact h

theorem join : WellFormed x.join := by
  rw [SerialApplyExecutor.join]
  split
  · rename_i hstop hworker
    exact { h with stopping := fun _ => (h.exited hworker).1, done := fun _ => hworker }
  · exact h

theorem stopReturn : WellFormed x.stopReturn := by
  rw [SerialApplyExecutor.stopReturn]
  split_ifs
  · exact h.quiet ⟨rfl, rfl, rfl, rfl⟩
  · exact h

theorem ownerTurn : WellFormed x.ownerTurn := by
  have hledger := h.ledger
  rw [SerialApplyExecutor.ownerTurn]
  split
  · exact h
  · rename_i job outcome rest howner
    rw [howner] at hledger
    exact { h with ledger := hledger.complete }

theorem step (turn : Turn ω κ ε) : WellFormed (x.step turn) := by
  cases turn with
  | submit work completion => exact h.submit work completion
  | notify => exact h.notify
  | wake => exact h.wake
  | worker outcome => exact h.run outcome
  | stop => exact h.beginStop
  | join => exact h.join
  | stopReturn => exact h.stopReturn
  | owner => exact h.ownerTurn

end

theorem after (turns : List (Turn ω κ ε)) : WellFormed (after turns) := by
  induction turns using List.reverseRecOn with
  | nil => exact init
  | append_singleton turns turn ih =>
    rw [SerialApplyExecutor.after, List.foldl_append]
    exact ih.step turn

end WellFormed

/-! ## Progress -/

/-- The jobs that were accepted. -/
def accepted (x : SerialApplyExecutor ω κ ε) : List (Job ω κ) := x.shown.filterMap Shown.accepted?

/-- The jobs whose work has run, with what it gave. -/
def ran (x : SerialApplyExecutor ω κ ε) : List (Job ω κ × WorkOutcome ε) :=
  x.shown.filterMap Shown.ran?

/-- The completions that were posted. -/
def posted (x : SerialApplyExecutor ω κ ε) : List (Job ω κ × WorkOutcome ε) :=
  x.shown.filterMap Shown.posted?

/-- The completions that have run. -/
def completed (x : SerialApplyExecutor ω κ ε) : List (Job ω κ × WorkOutcome ε) :=
  x.shown.filterMap Shown.completed?

/-- The steps the worker has to make until it posts. -/
def distance (x : SerialApplyExecutor ω κ ε) : ℕ :=
  match x.worker with
  | .exited => 0
  | .posting _ _ => 1
  | .finished _ _ => 2
  | .working _ => 3
  | .checking => 4
  | .asleep => 5

/-- What was accepted and not posted is in some hands. -/
theorem length_accepted (h : WellFormed x) : x.accepted.length = x.posted.length +
      (x.worker.unposted.length + x.worker.atWork.length + x.job.toList.length) := by
  have haccepted := congrArg List.length h.ledger.accepted
  have hran := congrArg List.length h.ledger.ran
  simp only [List.length_append, List.length_map] at haccepted hran
  rw [accepted, posted]
  omega

section

variable (h : WellFormed x) (hless : x.posted.length < x.accepted.length)
include h hless

/-- While something is to be done, the worker is there, and has a job unless it is at one. -/
theorem hasWork :
    x.worker ≠ .exited ∧ (x.worker = .checking ∨ x.worker = .asleep → x.job ≠ none) := by
  have hlength := length_accepted h
  refine ⟨fun hexited => ?_, fun hworker hjob => ?_⟩
  · rw [hexited, (h.exited hexited).2] at hlength
    simp [Worker.unposted, Worker.atWork] at hlength
    omega
  rcases hworker with hworker | hworker <;>
  · rw [hworker, hjob] at hlength
    simp [Worker.unposted, Worker.atWork] at hlength
    omega

/-- A step of the worker brings it closer to a post, or is one. -/
theorem run_closer (hawake : x.worker ≠ .asleep) (outcome : WorkOutcome ε) :
    x.posted.length < (x.run outcome).posted.length ∨ (x.run outcome).distance < x.distance := by
  obtain ⟨hexited, hjob⟩ := hasWork h hless
  rw [run]
  split
  · rename_i hworker
    obtain ⟨job, hsome⟩ := Option.ne_none_iff_exists'.mp (hjob (Or.inl hworker))
    rw [hsome]
    right
    simp [distance, hworker]
  · exact (hawake ‹_›).elim
  · rename_i job hworker
    right
    simp [distance, record, hworker]
  · rename_i job outcome hworker
    right
    simp [distance, hworker]
  · left
    simp [posted, record, Shown.posted?]
  · exact (hexited ‹_›).elim

/-- A notification wakes a worker that sleeps while something is to be done. -/
theorem notify_closer (hasleep : x.worker = .asleep) : x.notify.distance < x.distance := by
  have hpos := h.asleep hasleep (Or.inl ((hasWork h hless).2 (Or.inr hasleep)))
  rw [notify, if_neg (by omega)]
  simp [distance, hasleep]

/-- No step takes the worker further from a post. -/
theorem step_closer (turn : Turn ω κ ε) :
    x.posted.length < (x.step turn).posted.length ∨ (x.step turn).distance ≤ x.distance := by
  cases turn with
  | worker outcome =>
    by_cases hasleep : x.worker = .asleep
    · right
      simp [step, run, hasleep]
    · exact (run_closer h hless hasleep outcome).imp id Nat.le_of_lt
  | submit work completion =>
    right
    match work, completion with
    | none, _ => exact le_rfl
    | some _, none => exact le_rfl
    | some work, some completion =>
      rw [step, submit]
      split_ifs <;> exact le_rfl
  | notify =>
    right
    by_cases hasleep : x.worker = .asleep
    · exact (notify_closer h hless hasleep).le
    rw [step, notify]
    split_ifs
    · exact le_rfl
    · split
      · exact (hasleep ‹_›).elim
      · exact le_rfl
  | wake =>
    right
    rw [step, wake]
    split
    · simp [distance, *]
    · exact le_rfl
  | stop =>
    right
    rw [step, beginStop]
    split <;> exact le_rfl
  | join =>
    right
    rw [step, join]
    split <;> exact le_rfl
  | stopReturn =>
    right
    rw [step, stopReturn]
    split_ifs <;> exact le_rfl
  | owner =>
    right
    rw [step, ownerTurn]
    split <;> exact le_rfl

end

/-- What may be shown in a step : a job is accepted unless the executor stops, a completion runs
in a turn of the owner, and `Stop` returns once the worker has been joined. -/
def Allowed (x : SerialApplyExecutor ω κ ε) (turn : Turn ω κ ε) : Shown ω κ ε → Prop
  | .accepted _ => x.stopping = false
  | .completed _ _ => turn = .owner
  | .stopReturned => x.stop = .done
  | _ => True

section

variable (x : SerialApplyExecutor ω κ ε) (turn : Turn ω κ ε)

/-- A step shows nothing or one thing that it may show. -/
theorem shown_step : (x.step turn).shown = x.shown ∨
      ∃ event, (x.step turn).shown = x.shown ++ [event] ∧ x.Allowed turn event := by
  cases turn with
  | submit work completion =>
    right
    match work, completion with
    | none, _ => exact ⟨_, rfl, trivial⟩
    | some _, none => exact ⟨_, rfl, trivial⟩
    | some work, some completion =>
      rw [step, submit]
      split_ifs with hbusy
      · exact ⟨_, rfl, trivial⟩
      · rw [not_or, Bool.not_eq_true, Bool.not_eq_true] at hbusy
        exact ⟨_, rfl, hbusy.2⟩
  | notify =>
    rw [step, notify]
    split_ifs <;> exact Or.inl rfl
  | wake =>
    rw [step, wake]
    split <;> exact Or.inl rfl
  | worker outcome =>
    rw [step, run]
    split
    · split
      · exact Or.inl rfl
      · split_ifs <;> exact Or.inl rfl
    · exact Or.inl rfl
    · exact Or.inr ⟨_, rfl, trivial⟩
    · exact Or.inl rfl
    · exact Or.inr ⟨_, rfl, trivial⟩
    · exact Or.inl rfl
  | stop =>
    rw [step, beginStop]
    split <;> exact Or.inl rfl
  | join =>
    rw [step, join]
    split <;> exact Or.inl rfl
  | stopReturn =>
    rw [step, stopReturn]
    split_ifs with hdone
    · exact Or.inr ⟨_, rfl, hdone⟩
    · exact Or.inl rfl
  | owner =>
    rw [step, ownerTurn]
    split
    · exact Or.inl rfl
    · exact Or.inr ⟨_, rfl, rfl⟩

theorem shown_grows : x.shown <+: (x.step turn).shown := by
  rcases shown_step x turn with hsame | ⟨event, hmore, -⟩
  · rw [hsame]
  · rw [hmore]
    exact List.prefix_append _ _

/-- An executor that stops goes on stopping, and a worker that was joined stays so. -/
theorem stopping_step : (x.stopping = true → (x.step turn).stopping = true) ∧
      (x.stop = .done → (x.step turn).stop = .done) := by
  cases turn with
  | submit work completion =>
    match work, completion with
    | none, _ => exact ⟨id, id⟩
    | some _, none => exact ⟨id, id⟩
    | some work, some completion =>
      rw [step, submit]
      split_ifs <;> exact ⟨id, id⟩
  | notify =>
    rw [step, notify]
    split_ifs <;> exact ⟨id, id⟩
  | wake =>
    rw [step, wake]
    split <;> exact ⟨id, id⟩
  | worker outcome =>
    rw [step, run]
    split
    · split
      · exact ⟨id, id⟩
      · split_ifs <;> exact ⟨id, id⟩
    all_goals exact ⟨id, id⟩
  | stop =>
    rw [step, beginStop]
    split
    · rename_i hidle
      exact ⟨fun _ => rfl, fun hdone => by rw [hidle] at hdone; cases hdone⟩
    · exact ⟨id, id⟩
  | join =>
    rw [step, join]
    split
    · exact ⟨id, fun _ => rfl⟩
    · exact ⟨id, id⟩
  | stopReturn =>
    rw [step, stopReturn]
    split_ifs <;> exact ⟨id, id⟩
  | owner =>
    rw [step, ownerTurn]
    split <;> exact ⟨id, id⟩

end

/-- The states of an endless schedule. -/
def along (turns : ℕ → Turn ω κ ε) : ℕ → SerialApplyExecutor ω κ ε
  | 0 => {}
  | n + 1 => (along turns n).step (turns n)

/-- The worker and the notifications get their turns again and again. -/
structure Fair (turns : ℕ → Turn ω κ ε) : Prop where
  worker : ∀ n, ∃ m ≥ n, ∃ outcome, turns m = .worker outcome
  notify : ∀ n, ∃ m ≥ n, turns m = .notify

variable {turns : ℕ → Turn ω κ ε} {n m : ℕ}

theorem WellFormed.along (turns : ℕ → Turn ω κ ε) (n : ℕ) : WellFormed (along turns n) := by
  induction n with
  | zero => exact init
  | succ n ih => exact ih.step (turns n)

theorem shown_along (turns : ℕ → Turn ω κ ε) (h : n ≤ m) :
    (along turns n).shown <+: (along turns m).shown := by
  induction m, h using Nat.le_induction with
  | base => exact List.prefix_rfl
  | succ m _ ih => exact ih.trans (shown_grows _ _)

theorem length_accepted_along (turns : ℕ → Turn ω κ ε) (h : n ≤ m) :
    (along turns n).accepted.length ≤ (along turns m).accepted.length :=
  ((shown_along turns h).filterMap _).length_le

theorem length_posted_along (turns : ℕ → Turn ω κ ε) (h : n ≤ m) :
    (along turns n).posted.length ≤ (along turns m).posted.length :=
  ((shown_along turns h).filterMap _).length_le

/-- Without a post the distance does not grow. -/
theorem distance_along (hless : (along turns n).posted.length < (along turns n).accepted.length)
    (h : n ≤ m) (hsame : (along turns m).posted.length ≤ (along turns n).posted.length) :
    (along turns m).distance ≤ (along turns n).distance := by
  induction m, h using Nat.le_induction with
  | base => exact le_rfl
  | succ m hm ih =>
    have hstep : (along turns m).posted.length ≤ (along turns (m + 1)).posted.length :=
      length_posted_along turns (Nat.le_succ m)
    have haccepted := length_accepted_along turns hm
    have hposted := length_posted_along turns hm
    refine le_trans ?_ (ih (by omega))
    refine (step_closer (WellFormed.along turns m) (by omega) (turns m)).resolve_left ?_
    exact fun hmore => absurd (lt_of_lt_of_le hmore hsame) (by omega)

theorem distance_lt_iff : x.distance < 5 ↔ x.worker ≠ .asleep := by
  rw [distance]
  split <;> simp [*]

/-- A job that is to be posted makes the worker post. -/
theorem exists_post (hfair : Fair turns)
    (hless : (along turns n).posted.length < (along turns n).accepted.length) :
    ∃ m ≥ n, (along turns n).posted.length < (along turns m).posted.length := by
  -- The distance is the measure : the turn that the worker waits for makes it smaller.
  induction hd : (along turns n).distance using Nat.strong_induction_on generalizing n with
  | _ d ih =>
    by_contra hnone
    push Not at hnone
    have hlater : ∀ m ≥ n, (along turns m).posted.length < (along turns m).accepted.length ∧
        (along turns m).distance ≤ (along turns n).distance := fun m hm =>
      ⟨lt_of_le_of_lt (hnone m hm) (lt_of_lt_of_le hless (length_accepted_along turns hm)),
        distance_along hless hm (hnone m hm)⟩
    have hcloser : ∃ m ≥ n, (along turns m).distance < (along turns n).distance := by
      by_cases hawake : (along turns n).worker ≠ .asleep
      · obtain ⟨m, hm, outcome, hturn⟩ := hfair.worker n
        obtain ⟨hmore, hle⟩ := hlater m hm
        have hthen := distance_lt_iff.mp (lt_of_le_of_lt hle (distance_lt_iff.mpr hawake))
        have hnext : along turns (m + 1) = (along turns m).run outcome := by
          rw [along, hturn]
          rfl
        refine ⟨m + 1, by omega, ?_⟩
        rcases run_closer (WellFormed.along turns m) hmore hthen outcome with hposted | hcloser
        · rw [← hnext] at hposted
          have := hnone (m + 1) (by omega)
          have := length_posted_along turns hm
          omega
        · rw [← hnext] at hcloser
          omega
      · rw [← distance_lt_iff, not_lt] at hawake
        obtain ⟨m, hm, hturn⟩ := hfair.notify n
        obtain ⟨hmore, hle⟩ := hlater m hm
        by_cases hasleep : (along turns m).worker = .asleep
        · have hnext : along turns (m + 1) = (along turns m).notify := by
            rw [along, hturn]
            rfl
          refine ⟨m + 1, by omega, ?_⟩
          rw [hnext]
          exact lt_of_lt_of_le (notify_closer (WellFormed.along turns m) hmore hasleep) hle
        · exact ⟨m, hm, lt_of_lt_of_le (distance_lt_iff.mpr hasleep) hawake⟩
    obtain ⟨m, hm, hlt⟩ := hcloser
    have hposted := length_posted_along turns hm
    obtain ⟨k, hk, hmore⟩ := ih _ (hd ▸ hlt) (hlater m hm).1 rfl
    exact absurd (hnone k (hm.trans hk)) (by omega)

/-- With a fair schedule every job that was accepted is posted. -/
theorem posted_of_fair (hfair : Fair turns) (n : ℕ) :
    ∃ m ≥ n, (along turns n).accepted.length ≤ (along turns m).posted.length := by
  suffices hall : ∀ k ≤ (along turns n).accepted.length,
      ∃ m ≥ n, k ≤ (along turns m).posted.length from hall _ le_rfl
  intro k hk
  induction k with
  | zero => exact ⟨n, le_rfl, Nat.zero_le _⟩
  | succ k ih =>
    obtain ⟨m, hm, hposted⟩ := ih (by omega)
    by_cases hless : (along turns m).posted.length < (along turns m).accepted.length
    · obtain ⟨l, hl, hmore⟩ := exists_post hfair hless
      exact ⟨l, hm.trans hl, by omega⟩
    · have haccepted := length_accepted_along turns hm
      exact ⟨m, hm, by omega⟩

/-! ## The guarantees -/

theorem after_append (turns later : List (Turn ω κ ε)) :
    after (turns ++ later) = later.foldl step (after turns) :=
  List.foldl_append

/-- A call of `Stop` returns once the worker has left. -/
theorem done_of_stopReturned (turns : List (Turn ω κ ε))
    (h : Shown.stopReturned ∈ (after turns).shown) : (after turns).stop = .done := by
  induction turns using List.reverseRecOn with
  | nil => cases h
  | append_singleton turns turn ih =>
    rw [after_append] at h ⊢
    refine (stopping_step (after turns) turn).2 ?_
    rcases shown_step (after turns) turn with hsame | ⟨event, hmore, hallowed⟩
    · exact ih (hsame ▸ h)
    rw [List.foldl_cons, List.foldl_nil, hmore, List.mem_append, List.mem_singleton] at h
    rcases h with h | rfl
    · exact ih h
    · exact hallowed

/-- A worker that has left leaves nothing behind. -/
theorem drained (h : WellFormed x) (hexited : x.worker = .exited) :
    x.ran.map Prod.fst = x.accepted ∧ x.posted = x.ran := by
  have haccepted := h.ledger.accepted
  have hran := h.ledger.ran
  rw [hexited, (h.exited hexited).2] at haccepted
  rw [hexited] at hran
  exact ⟨(haccepted.trans (List.append_nil _)).symm, (hran.trans (List.append_nil _)).symm⟩

theorem accepted_of_stopping (h : x.stopping = true) (later : List (Turn ω κ ε)) :
    (later.foldl step x).accepted = x.accepted := by
  induction later generalizing x with
  | nil => rfl
  | cons turn later ih =>
    rw [List.foldl_cons, ih ((stopping_step x turn).1 h), accepted, accepted]
    rcases shown_step x turn with hsame | ⟨event, hmore, hallowed⟩
    · rw [hsame]
    rw [hmore, List.filterMap_append]
    cases event with
    | accepted job => cases h.symm.trans hallowed
    | _ => simp [Shown.accepted?]

/-- Completions run in turns of the owner only. -/
theorem completed_step (x : SerialApplyExecutor ω κ ε) {turn : Turn ω κ ε} (h : turn ≠ .owner) :
    (x.step turn).completed = x.completed := by
  rw [completed, completed]
  rcases shown_step x turn with hsame | ⟨event, hmore, hallowed⟩
  · rw [hsame]
  rw [hmore, List.filterMap_append]
  cases event with
  | completed job outcome => exact (h hallowed).elim
  | _ => simp [Shown.completed?]

/-- A call of `Submit` that returns `false` changes nothing. -/
theorem submit_refused {work : Option ω} {completion : Option κ}
    (h : (x.submit work completion).shown = x.shown ++ [.refused]) :
    x.submit work completion = x.record .refused := by
  match work, completion with
  | none, _ => cases (List.append_cancel_left h)
  | some _, none => cases (List.append_cancel_left h)
  | some work, some completion =>
    rw [submit] at h ⊢
    split_ifs at h ⊢
    · rfl
    · cases (List.append_cancel_left h)

end SerialApplyExecutor

open SerialApplyExecutor in
/-- Accepted work runs exactly once, and its completion is posted exactly once. -/
theorem serial_apply_executor :
    (∀ turns : List (Turn ω κ ε),
      (after turns).accepted.length ≤ (after turns).ran.length + 1 ∧
      (after turns).ran.map Prod.fst <+: (after turns).accepted ∧
      (after turns).posted <+: (after turns).ran ∧
      (after turns).completed <+: (after turns).posted ∧
      (.stopReturned ∈ (after turns).shown →
        (after turns).ran.map Prod.fst = (after turns).accepted ∧
        (after turns).posted = (after turns).ran ∧
        ∀ later, (after (turns ++ later)).accepted = (after turns).accepted)) ∧
    (∀ (x : SerialApplyExecutor ω κ ε) work completion,
      (x.submit work completion).shown = x.shown ++ [.refused] →
        x.submit work completion = x.record .refused) ∧
    (∀ (x : SerialApplyExecutor ω κ ε) turn, turn ≠ .owner →
      (x.step turn).completed = x.completed) ∧
    ∀ turns : ℕ → Turn ω κ ε, Fair turns → ∀ n, ∃ m ≥ n,
      (along turns n).accepted.length ≤ (along turns m).posted.length := by
  refine ⟨fun turns => ?_, fun x _ _ => submit_refused, fun x _ => completed_step x,
    fun turns => posted_of_fair⟩
  have h := WellFormed.after turns
  refine ⟨?_, ⟨_, h.ledger.accepted.symm⟩, ⟨_, h.ledger.ran.symm⟩, ⟨_, h.ledger.posted.symm⟩,
    fun hreturned => ?_⟩
  · have hone : ((after turns).worker.atWork ++ (after turns).job.toList).length ≤ 1 := by
      by_cases hbusy : (after turns).worker.Busy
      · rw [h.single hbusy, Option.toList_none, List.append_nil]
        cases (after turns).worker <;> simp [Worker.atWork]
      · rw [Worker.atWork_of_not_busy hbusy]
        cases (after turns).job <;> simp
    have hlength := congrArg List.length h.ledger.accepted
    rw [List.length_append, List.length_map] at hlength
    rw [accepted, ran]
    omega
  · have hexited := h.done (done_of_stopReturned turns hreturned)
    obtain ⟨haccepted, hposted⟩ := drained h hexited
    refine ⟨haccepted, hposted, fun later => ?_⟩
    rw [after_append]
    exact accepted_of_stopping (h.exited hexited).1 later

end RaftKV
