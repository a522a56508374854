import RaftKV.Guarantees.Safety

/-!
# Reads are linearizable

A read is linearizable if no proposal that had succeeded when it was called is after the read
index it is served with. Reads by rounds are, whatever messages and clocks do, as long as an
answer reaches only the process that asked (`read_index_linearizable`). Reads by the lease are
if all clocks are one and no node forgets, within the window of the lease, a leader whose
entries it took (`lease_read_linearizable`). Two kinds of steps forget a leader early : the
start of a process, and the answer of a node that is in a later term. A restarted follower helps
another node to be elected while the old leader still serves reads by its lease
(`lease_read_stale`).
-/

namespace RaftKV

open Setting

/-! ## Conditions on runs -/

/-- Each step of a run meets a condition in the state it is taken from. -/
def Along (M : Membership) (P : Cluster → Action → Prop) : Cluster → List Action → Prop
  | _, [] => True
  | s, a :: as => P s a ∧ Along M P (step M s a) as

instance decidableAlong (M : Membership) {P : Cluster → Action → Prop}
    [∀ s a, Decidable (P s a)] : ∀ s as, Decidable (Along M P s as)
  | _, [] => inferInstanceAs (Decidable True)
  | s, a :: as =>
    have := decidableAlong M (P := P) (step M s a) as
    inferInstanceAs (Decidable (_ ∧ _))

instance (s : Cluster) (a : Action) : Decidable (AnswersInPlace s a) := by
  unfold AnswersInPlace
  split <;> infer_instance

instance (n : Node) (input : Input) : Decidable (input.Forgets n) := by
  unfold Input.Forgets
  split <;> infer_instance

/-- When a node accepted entries of the leader of a term, if the event says so. -/
def acceptedAt (v term : ℤ) : ℤ × Event → Option ℤ
  | (w, .accepted t time) => if w = v ∧ t = term then some time else none
  | _ => none

theorem expired_iff {trace : List (ℤ × Event)} {v term clock : ℤ} :
    Expired trace v term clock ↔ trace.all (fun x =>
      (acceptedAt v term x).all fun time => time + leaseWindow ≤ clock) = true := by
  rw [List.all_eq_true]
  constructor
  · rintro h ⟨w, e⟩ hx
    cases e with
    | accepted t time =>
      by_cases hw : w = v ∧ t = term
      · obtain ⟨rfl, rfl⟩ := hw
        simpa [acceptedAt] using h time hx
      · simp [acceptedAt, hw]
    | _ => rfl
  · intro h time hmem
    simpa [acceptedAt] using h _ hmem

instance (trace : List (ℤ × Event)) (v term clock : ℤ) : Decidable (Expired trace v term clock) :=
  decidable_of_iff _ expired_iff.symm

theorem forgetsLate_call_iff {s : Cluster} {v : ℤ} {input : Input} {env : Env} :
    ForgetsLate s (.call v input env) ↔ (s.up v).all (fun p => input.Forgets p.node →
      Expired s.trace v p.node.currentTerm env.clock) = true := by
  rw [ForgetsLate]
  cases s.up v with
  | none => simp
  | some p =>
    rw [Option.all_some, decide_eq_true_eq]
    exact ⟨fun h => h p rfl, fun h q hq => Option.some.inj hq ▸ h⟩

instance (s : Cluster) : ∀ a, Decidable (ForgetsLate s a)
  | .call _ _ _ => decidable_of_iff _ forgetsLate_call_iff.symm
  | .restart _ _ _ => inferInstanceAs (Decidable True)
  | .crash _ => inferInstanceAs (Decidable True)

/-- All nodes read one clock, and it never goes back. -/
def oneClock (M : Membership) : Cluster → ℤ → List Action → Bool
  | _, _, [] => true
  | s, time, a :: as =>
    (a.clock.all fun clock => time ≤ clock) && oneClock M (step M s a) (timeAfter M s time a) as

namespace Setting

/-- Reads by rounds only. -/
def rounds (M : Membership) : Setting :=
  { M with clean := False, readable := False, linear := True, synced := False, leased := False }

/-- Reads by leases too, under one clock. -/
def leases (M : Membership) : Setting :=
  { M with clean := False, readable := False, linear := False, synced := True, leased := True }

theorem permitted_rounds {M : Membership} {s : Cluster} (time : ℤ) {actions : List Action}
    (hplace : Along M AnswersInPlace s actions) (hoff : ∀ a ∈ actions, a.LeaseOff) :
    (rounds M).Permitted s time actions := by
  induction actions generalizing s time with
  | nil => trivial
  | cons a as ih =>
    exact ⟨permits_intro False.elim False.elim (fun _ => hplace.1) False.elim False.elim
        (.inl (hoff a List.mem_cons_self)),
      ih _ hplace.2 fun b hb => hoff b (List.mem_cons_of_mem a hb)⟩

theorem permitted_leases {M : Membership} {s : Cluster} {time : ℤ} {actions : List Action}
    (hclock : oneClock M s time actions = true) (hkeep : Along M ForgetsLate s actions) :
    (leases M).Permitted s time actions := by
  induction actions generalizing s time with
  | nil => trivial
  | cons a as ih =>
    obtain ⟨hfirst, hrest⟩ := (Bool.and_eq_true _ _).mp hclock
    refine ⟨permits_intro False.elim False.elim False.elim (fun _ clock hc => ?_)
      (fun _ => hkeep.1) (.inr trivial), ih hrest hkeep.2⟩
    rw [hc] at hfirst
    exact of_decide_eq_true hfirst

/-- A read that was served after the call was trusted. -/
theorem ClusterOK.read_safe {S : Setting} {s : Cluster} {Γ : Ghost} {time : ℤ}
    (h : S.ClusterOK s Γ time) {j k call origin : ℕ} {v w index term readIndex lastApplied : ℤ}
    {lease : Bool} {command reply : Bytes} {error : String}
    (hok : s.trace[j]? = some (w, .proposal origin index command term true reply))
    (hcall : s.trace[call]? = some (v, .readCalled lease)) (hbefore : j < call)
    (hdone : s.trace[k]? = some (v, .readDone call true readIndex lastApplied error))
    (htrust : (lease = true → S.leased) → S.Trusted lease) :
    call < k ∧ index ≤ readIndex ∧ readIndex ≤ lastApplied := by
  obtain ⟨hlt, hle, lease', hcall', hsafe⟩ := h.shared.events k v _ hdone rfl
  have hlease : lease = lease' := by
    have := hcall.symm.trans hcall'
    simpa using this
  subst hlease
  have htrusted := htrust (h.shared.events call v _ hcall)
  exact ⟨hlt, hsafe htrusted j hbefore w origin index command term reply hok, hle⟩

end Setting

variable {M : Membership} {actions : List Action}

/-! ## Reads by rounds -/

/-- A read that is served, called after a proposal had succeeded, has a read index not before
that proposal, and the node has applied up to it. -/
theorem read_index_linearizable (hplace : Along M AnswersInPlace {} actions)
    (hoff : ∀ a ∈ actions, a.LeaseOff) {j k call origin : ℕ}
    {v w index term readIndex lastApplied : ℤ} {lease : Bool} {command reply : Bytes}
    {error : String}
    (hok : (run M actions).trace[j]? = some (w, .proposal origin index command term true reply))
    (hcall : (run M actions).trace[call]? = some (v, .readCalled lease)) (hbefore : j < call)
    (hdone : (run M actions).trace[k]? =
      some (v, .readDone call true readIndex lastApplied error)) :
    call < k ∧ index ≤ readIndex ∧ readIndex ≤ lastApplied := by
  obtain ⟨Γ, time, h⟩ := clusterOK_run (S := rounds M) (permitted_rounds 0 hplace hoff)
  refine h.read_safe hok hcall hbefore hdone fun hlease => ?_
  cases lease with
  | true => exact (hlease rfl).elim
  | false => trivial

/-- Leader 1 is asked for a read after its write. The first answer is to a request from before the
read and does not count, the second one confirms the round. -/
def readRun : List Action :=
  schedule trio (writeChoices ++
    [fun _ => .call 1 (.readIndex .done .done) { clock := 212 * ms }, deliverNth 13 (213 * ms),
      deliverNth 14 (214 * ms), deliverNth 15 (215 * ms), deliverNth 16 (216 * ms)])

theorem leaseOff_readRun : ∀ a ∈ readRun, a.LeaseOff := by
  have hdeliver := @deliverNth_cases Action.LeaseOff (fun _ _ _ => trivial) trivial
  refine forall_mem_schedule fun choose hchoose s => ?_
  simp only [writeChoices, List.cons_append, List.nil_append, List.mem_cons, List.not_mem_nil,
    or_false] at hchoose
  rcases hchoose with rfl | rfl | rfl | rfl | rfl | rfl | rfl | rfl | rfl | rfl | rfl | rfl | rfl |
    rfl | rfl | rfl | rfl | rfl | rfl | rfl | rfl
  all_goals first
    | exact hdeliver _ _ s
    | trivial

/-- The read is served once node 2 has answered a request of its round, and not before the write. -/
theorem read_index_linearizable_trio :
    ∃ call k : ℕ, ∃ readIndex lastApplied : ℤ,
      (run trio readRun).trace[11]? =
        some (1, .proposal 6 2 setCommand 1 true (ascii "+OK\r\n")) ∧
      (run trio readRun).trace[call]? = some (1, .readCalled false) ∧
      (run trio readRun).trace[17]? = some (1, .probeCounted 13 2 6 (216 * ms)) ∧
      (run trio readRun).trace[k]? = some (1, .readDone call true readIndex lastApplied "") ∧
      call < k ∧ 2 ≤ readIndex ∧ readIndex ≤ lastApplied := by
  have hplace : Along trio AnswersInPlace {} readRun := by decide +kernel
  obtain ⟨hok, hcall, hprobe, hdone⟩ : (run trio readRun).trace[11]? =
        some (1, .proposal 6 2 setCommand 1 true (ascii "+OK\r\n")) ∧
      (run trio readRun).trace[12]? = some (1, .readCalled false) ∧
      (run trio readRun).trace[17]? = some (1, .probeCounted 13 2 6 (216 * ms)) ∧
      (run trio readRun).trace[18]? = some (1, .readDone 12 true 2 2 "") := by decide +kernel
  exact ⟨12, 18, 2, 2, hok, hcall, hprobe, hdone,
    read_index_linearizable hplace leaseOff_readRun hok hcall (by decide) hdone⟩

/-! ## Reads by leases -/

/-- A read by the lease that is served, called after a proposal had succeeded, has a read index
not before that proposal. -/
theorem lease_read_linearizable {time : ℤ} (hclock : oneClock M {} time actions = true)
    (hkeep : Along M ForgetsLate {} actions) {j k call origin : ℕ}
    {v w index term readIndex lastApplied : ℤ} {command reply : Bytes} {error : String}
    (hok : (run M actions).trace[j]? = some (w, .proposal origin index command term true reply))
    (hcall : (run M actions).trace[call]? = some (v, .readCalled true)) (hbefore : j < call)
    (hdone : (run M actions).trace[k]? =
      some (v, .readDone call true readIndex lastApplied error)) :
    call < k ∧ index ≤ readIndex ∧ readIndex ≤ lastApplied := by
  obtain ⟨Γ, time', h⟩ := clusterOK_run (S := leases M) (permitted_leases hclock hkeep)
  exact h.read_safe hok hcall hbefore hdone fun _ => trivial

/-- Node 1 is elected, node 3 has its empty entry, and node 2 confirms its lease until 630 ms. -/
def leaseChoices : List (Cluster → Action) :=
  [fun _ => .restart 1 false { clock := 0 }, fun _ => .restart 2 false { clock := 0 },
    fun _ => .restart 3 false { clock := 0 }, fun _ => .call 1 .start { clock := 0 },
    fun _ => .call 2 .start { clock := 0 }, fun _ => .call 3 .start { clock := 0 },
    fun _ => .call 1 (.setLeaseReads true) { clock := 0 },
    fun _ => .call 1 .tick { clock := 200 * ms }, deliverNth 0 (201 * ms),
    deliverNth 2 (202 * ms), deliverNth 3 (203 * ms), deliverNth 5 (204 * ms),
    deliverNth 6 (205 * ms), deliverNth 7 (206 * ms), deliverNth 8 (207 * ms),
    deliverNth 10 (209 * ms), deliverNth 11 (210 * ms),
    fun _ => .call 1 .tick { clock := 340 * ms }, deliverNth 12 (341 * ms),
    deliverNth 13 (342 * ms), fun _ => .call 1 .tick { clock := 480 * ms },
    deliverNth 14 (481 * ms), deliverNth 15 (482 * ms)]

/-- A write of leader 1 succeeds, and then a read is served by its lease. -/
def leaseRun : List Action :=
  schedule trio (leaseChoices ++
    [fun _ => .call 1 (.propose [⟨setCommand, some ⟨.done, .done⟩⟩]) { clock := 483 * ms },
      deliverNth 16 (484 * ms), deliverNth 17 (485 * ms),
      fun _ => .call 1 (.readIndex .done .done) { clock := 505 * ms }])

/-- Node 2 has accepted entries of leader 1, and the read that its lease serves is not before the
write. -/
theorem lease_read_linearizable_trio :
    ∃ call k : ℕ, ∃ readIndex lastApplied : ℤ,
      (2, Event.accepted 1 (481 * ms)) ∈ (run trio leaseRun).trace ∧
      (run trio leaseRun).trace[15]? =
        some (1, .proposal 12 2 setCommand 1 true (ascii "+OK\r\n")) ∧
      (run trio leaseRun).trace[call]? = some (1, .readCalled true) ∧
      (run trio leaseRun).trace[k]? = some (1, .readDone call true readIndex lastApplied "") ∧
      call < k ∧ 2 ≤ readIndex ∧ readIndex ≤ lastApplied := by
  have hclock : oneClock trio {} 0 leaseRun = true := by decide +kernel
  have hkeep : Along trio ForgetsLate {} leaseRun := by decide +kernel
  obtain ⟨haccept, hok, hcall, hdone⟩ :
      (2, Event.accepted 1 (481 * ms)) ∈ (run trio leaseRun).trace ∧
      (run trio leaseRun).trace[15]? =
        some (1, .proposal 12 2 setCommand 1 true (ascii "+OK\r\n")) ∧
      (run trio leaseRun).trace[16]? = some (1, .readCalled true) ∧
      (run trio leaseRun).trace[17]? = some (1, .readDone 16 true 2 2 "") := by decide +kernel
  exact ⟨16, 17, 2, 2, haccept, hok, hcall, hdone,
    lease_read_linearizable hclock hkeep hok hcall (by decide) hdone⟩

/-- Node 2 takes a heartbeat of leader 1 and restarts. Node 3 is elected with the vote of node 2
and its write succeeds, and then leader 1 serves a read by its lease. -/
def staleRun : List Action :=
  schedule trio (leaseChoices ++
    [fun _ => .crash 2, fun _ => .restart 2 false { clock := 483 * ms },
      fun _ => .call 2 .start { clock := 484 * ms },
      -- node 3, which heard of node 1 at 206 ms, is elected by node 2
      fun _ => .call 3 .tick { clock := 485 * ms }, deliverNth 17 (486 * ms),
      deliverNth 18 (487 * ms), deliverNth 20 (488 * ms), deliverNth 21 (489 * ms),
      deliverNth 23 (490 * ms), deliverNth 24 (491 * ms),
      fun _ => .call 3 (.propose [⟨setCommand, some ⟨.done, .done⟩⟩]) { clock := 492 * ms },
      deliverNth 25 (493 * ms), deliverNth 26 (494 * ms), deliverNth 27 (495 * ms),
      deliverNth 28 (496 * ms),
      fun _ => .call 1 (.readIndex .done .done) { clock := 505 * ms }])

/-- A read by the lease misses a write that succeeded at another leader. -/
theorem lease_read_stale :
    oneClock trio {} 0 staleRun = true ∧
      (run trio staleRun).trace[22]? =
        some (3, .proposal 17 3 setCommand 2 true (ascii "+OK\r\n")) ∧
      (run trio staleRun).trace[23]? = some (1, .readCalled true) ∧
      (run trio staleRun).trace[24]? = some (1, .readDone 23 true 1 1 "") := by
  decide +kernel

end RaftKV
