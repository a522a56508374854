import RaftKV.Bookkeeping.Runs
import RaftKV.Guarantees.Reads

/-!
# Applying by a worker

A node applies committed entries itself, or hands them to a worker and goes on. The worker is
given one batch at a time, and its completion moves the node's own progress later. `async_apply`
says that this changes nothing that can be seen once the completions have run : in every run the
batches of a node are the committed entries in order, without gap and repetition, its progress
and that of its KV database stay between the snapshot and the commit index, and a node that is
running and waits for no completion has applied all that is committed. A node that was stopped
goes on only when it is started again, and the cut into batches can be seen by commands that write
to the records of the state machine (`stopped_behind`).
-/

namespace RaftKV

open Setting
open Consensus (Decided)

/-- The progress of a process of node `v`. -/
structure ApplyFine (s : Cluster) (v : ℤ) (p : Process) : Prop where
  outstanding : p.exec.job.toList.length + p.exec.completions.length ≤ 1
  snapshot_le : (s.disk v).log.snapshot.index ≤ p.node.lastApplied
  applied_le : p.node.lastApplied ≤ (s.disk v).sm.lastApplied
  store_le : (s.disk v).sm.lastApplied ≤ p.node.commitIndex
  caught : p.node.running = true → p.exec.loaded = false →
    p.node.lastApplied = p.node.commitIndex ∧ (s.disk v).sm.lastApplied = p.node.commitIndex

section

variable {S : Setting} {s : Cluster} {Γ : Ghost} {time : ℤ} {v : ℤ} {p : Process}

/-- One batch at most is with the executor. -/
theorem Setting.CoreOK.outstanding_le {h : History} {n : Node} {log : AbstractLog} {sm : Store}
    {exec : Executor} (hc : S.CoreOK h v n log sm exec) :
    exec.job.toList.length + exec.completions.length ≤ 1 := by
  rcases hc.exec with hq | hb
  · rw [hq.job, hq.completions]
    decide
  obtain ⟨k, -, -, ⟨hjob, hcomp, -⟩ | ⟨hjob, r, hcomp, -⟩⟩ := hb.batch
  · rw [hjob, hcomp]
    simp
  · rw [hjob, hcomp]
    simp

theorem applyFine {M : Membership} {off : Prop} (h : S.ClusterOK s Γ time) (ht : Tallied M off s)
    (hp : s.up v = some p) : ApplyFine s v p := by
  have hcore : S.CoreOK Γ.hist v p.node (s.disk v).log (s.disk v).sm p.exec := (h.loose v p hp).core
  have hl := ht.live v p hp 0 { clock := 0 }
  obtain ⟨a, k, ha, -, -, -, hsnap, -⟩ := hcore.progress
  obtain ⟨happlied, hstore⟩ := hcore.store_le
  refine
    { outstanding := hcore.outstanding_le
      snapshot_le := ha ▸ hsnap
      applied_le := happlied
      store_le := hstore
      caught := fun hrun hload => ?_ }
  have hfree : p.node.applyInflight = false := by
    by_contra hflight
    have hloaded := hl.backed (Bool.eq_true_of_not_eq_false hflight)
    rw [show (s.context v p 0 { clock := 0 }).exec = p.exec from rfl, hload] at hloaded
    cases hloaded
  have hcaught : p.node.commitIndex ≤ p.node.lastApplied := hl.caught hrun hfree
  omega

end

/-- **A worker applies what the node itself would** : the committed entries in order, and all of
them once its completions have run. If the commands touch user keys only, the KV database
is then the replay of the committed entries, as in a node that applies them itself. -/
theorem async_apply (M : Membership) (actions : List Action) :
    ∃ H : ℕ → LogEntry, Explains H (∀ a ∈ actions, a.Clean) (run M actions) ∧
      (∀ v, appliedUpTo v (run M actions).trace = some ((run M actions).disk v).sm.lastApplied) ∧
      (∀ v index busy, (v, Event.exported index busy) ∈ (run M actions).trace ∨
        (v, Event.installed index busy) ∈ (run M actions).trace → busy = false) ∧
      ∀ v p, (run M actions).up v = some p → ApplyFine (run M actions) v p := by
  obtain ⟨Γ, time, h, ht⟩ := @tallied_run False M actions False.elim
  obtain ⟨H, -, hexplains⟩ := h.exists_explains
  refine ⟨H, hexplains, h.progress, fun v index busy he => ?_, fun v p hp => applyFine h ht hp⟩
  rcases he with he | he
  · obtain ⟨j, hj⟩ := List.mem_iff_getElem?.mp he
    exact h.shared.events j v _ hj
  · obtain ⟨j, hj⟩ := List.mem_iff_getElem?.mp he
    exact h.shared.events j v _ hj

/-- A node alone is stopped while its worker has the first entry and the second is committed. -/
def stopRun (async : Bool) : List Action :=
  [.restart 1 async { clock := 0 }, .call 1 .start { clock := 0 },
    .call 1 .tick { clock := 200 * ms },
    .call 1 (.propose [⟨setCommand, some ⟨.done, .done⟩⟩]) { clock := 203 * ms },
    .call 1 .stop { clock := 204 * ms }, .call 1 .work { clock := 205 * ms },
    .call 1 .completion { clock := 206 * ms }]

/-- A node alone is given a client's record and then a request of the client, while a worker has
the entry before them. -/
def recordedRun (async : Bool) : List Action :=
  [.restart 1 async { clock := 0 }, .call 1 .start { clock := 0 },
    .call 1 .tick { clock := 200 * ms },
    .call 1 (.propose [⟨recordCommand, none⟩]) { clock := 203 * ms },
    .call 1 (.propose [⟨secondRequest, none⟩]) { clock := 204 * ms },
    .call 1 .work { clock := 205 * ms }, .call 1 .completion { clock := 206 * ms },
    .call 1 .work { clock := 207 * ms }, .call 1 .completion { clock := 208 * ms }]

/-- The stopped node stays behind, unlike one that applies the entries itself. A node that runs has
applied as much with a worker as without, but the request that follows the record in one batch is
carried out, and refused when it comes alone. -/
theorem stopped_behind :
    ((run solo (stopRun true)).up 1).map (fun p =>
        (p.exec.loaded, p.node.lastApplied, p.node.commitIndex)) = some (false, 1, 2) ∧
      ((run solo (stopRun false)).up 1).map (fun p =>
        (p.exec.loaded, p.node.lastApplied, p.node.commitIndex)) = some (false, 2, 2) ∧
      ((run solo (recordedRun true)).up 1).map (fun p =>
        (p.exec.loaded, p.node.lastApplied, p.node.commitIndex)) = some (false, 3, 3) ∧
      ((run solo (recordedRun false)).up 1).map (fun p =>
        (p.exec.loaded, p.node.lastApplied, p.node.commitIndex)) = some (false, 3, 3) ∧
      ((run solo (recordedRun true)).disk 1).sm.db[ascii "k"]? = some (ascii "v") ∧
      ((run solo (recordedRun false)).disk 1).sm.db[ascii "k"]? = none := by
  decide +kernel

end RaftKV
