import RaftKV.Bisection
import RaftKV.Node.Handlers

/-!
# Where a conflict begins

A follower that rejects an `AppendEntries` tells the leader where the run of entries with the
conflicting term begins. `ConflictIndex` finds the place by bisection between the snapshot and
the index : the terms of the entries do not decrease, so the entries with the term of the index
are the last ones up to it. A run that begins right after the snapshot is extended by the
snapshot if it has the same term (`conflictIndex_exact`).
-/

namespace RaftKV

variable {a : AbstractLog}

/-- The terms of the entries do not decrease. -/
def AbstractLog.TermsSorted (a : AbstractLog) : Prop :=
  (a.entries.map LogEntry.term).Pairwise (· ≤ ·)

namespace AbstractLog

theorem getTerm_entry {i : ℤ} (h0 : 0 ≤ a.snapshot.index) (hlow : a.snapshot.index < i)
    (hhigh : i ≤ a.lastIndex) :
    ∃ (k : ℕ) (hk : k < a.entries.length), (k : ℤ) = i - a.snapshot.index - 1 ∧
      a.getTerm i = a.entries[k].term := by
  rw [lastIndex] at hhigh
  have hk : (i - a.snapshot.index - 1).toNat < a.entries.length := by omega
  refine ⟨_, hk, by omega, ?_⟩
  rw [getTerm, if_neg (by omega), if_neg (by omega), get, if_neg (by omega),
    List.getElem?_eq_getElem hk]
  rfl

theorem TermsSorted.getTerm_le (h : a.TermsSorted) (h0 : 0 ≤ a.snapshot.index) {j k : ℤ}
    (hj : a.snapshot.index < j) (hjk : j ≤ k) (hk : k ≤ a.lastIndex) :
    a.getTerm j ≤ a.getTerm k := by
  obtain ⟨m, hm, hmj, htj⟩ := getTerm_entry h0 hj (hjk.trans hk)
  obtain ⟨n, hn, hnk, htk⟩ := getTerm_entry h0 (hj.trans_le hjk) hk
  rw [htj, htk]
  rcases eq_or_lt_of_le (show m ≤ n by omega) with rfl | hlt
  · exact le_rfl
  · have hsorted := List.pairwise_iff_getElem.mp h m n (by simpa using hm) (by simpa using hn) hlt
    simpa using hsorted

end AbstractLog

/-- The index begins a run of entries with the term of `i` that goes on to `i`. -/
def BeginsRun (a : AbstractLog) (i j : ℤ) : Prop :=
  a.snapshot.index < j ∧ j ≤ i ∧ ∀ k, j ≤ k → k ≤ i → a.getTerm k = a.getTerm i

theorem conflictSearch_eq_bisect (a : AbstractLog) (term : ℤ) (turns : ℕ) (low high : ℤ) :
    conflictSearch a term turns low high =
      Bisection.bisect (fun m => a.getTerm m = term) turns low high := by
  induction turns generalizing low high with
  | zero => rfl
  | succ turns ih =>
    rw [conflictSearch, Bisection.bisect]
    dsimp only
    simp only [ih]

/-- The loop of `ConflictIndex` ends at the first entry of the run, or at the index if that is
the snapshot. -/
theorem search_isLeast (h0 : 0 ≤ a.snapshot.index) (hsorted : a.TermsSorted) {i high : ℤ}
    (hlow : a.snapshot.index < i) (hlast : i ≤ a.lastIndex)
    (h : Bisection.Runs (fun m => a.getTerm m = a.getTerm i) a.snapshot.index i high) :
    IsLeast { j | BeginsRun a i j } high := by
  -- up to `i` the terms with the value of the last one are closed upward
  have hup : ∀ j k, a.snapshot.index < j → j ≤ k → k ≤ i → a.getTerm j = a.getTerm i →
      a.getTerm k = a.getTerm i := by
    intro j k hj hjk hk hterm
    refine le_antisymm (hsorted.getTerm_le h0 (hj.trans_le hjk) hk hlast) ?_
    rw [← hterm]
    exact hsorted.getTerm_le h0 hj hjk (hk.trans hlast)
  have hleast := h.isLeast le_rfl hlow rfl (fun j hj hle => absurd hj (not_lt.mpr hle)) hup
  have hle : high ≤ i := hleast.2 ⟨hlow, rfl⟩
  refine ⟨⟨hleast.1.1, hle, fun k hk hki => hup high k hleast.1.1 hk hki hleast.1.2⟩, ?_⟩
  intro j hj
  exact hleast.2 ⟨hj.1, hj.2.2 j le_rfl hj.2.1⟩

/-- **The conflict search is exact.** On a log whose terms do not decrease, from an index between
the snapshot and the end with a positive term, the loop of `ConflictIndex` ends. For the index of
the snapshot the result is that index. For a later one it is the least index after the snapshot
from which all entries up to the index have its term, or the index of the snapshot if that run
begins right after it and the snapshot has the same term. -/
theorem conflictIndex_exact (a : AbstractLog) (h0 : 0 ≤ a.snapshot.index) (hsorted : a.TermsSorted)
    (i : ℤ) (hlow : a.snapshot.index ≤ i) (hlast : i ≤ a.lastIndex) (hterm : 0 < a.getTerm i) :
    ∃ high, Bisection.Runs (fun m => a.getTerm m = a.getTerm i) a.snapshot.index i high ∧
      conflictIndex a i =
        (if high = a.snapshot.index + 1 ∧ 0 < a.snapshot.index ∧ a.snapshot.term = a.getTerm i then
          a.snapshot.index else high) ∧
      (i = a.snapshot.index → conflictIndex a i = a.snapshot.index) ∧
      (a.snapshot.index < i → IsLeast { j | BeginsRun a i j } high) := by
  have hruns := Bisection.runs_bisect (p := fun m => a.getTerm m = a.getTerm i)
    (i - a.snapshot.index).toNat (show i - a.snapshot.index ≤ _ by omega)
  have heq : conflictIndex a i = if Bisection.bisect (fun m => a.getTerm m = a.getTerm i)
      (i - a.snapshot.index).toNat a.snapshot.index i = a.snapshot.index + 1 ∧
      0 < a.snapshot.index ∧ a.snapshot.term = a.getTerm i then a.snapshot.index
      else Bisection.bisect (fun m => a.getTerm m = a.getTerm i) (i - a.snapshot.index).toNat
        a.snapshot.index i := by
    rw [conflictIndex, if_neg (not_le.mpr hterm)]
    dsimp only
    rw [conflictSearch_eq_bisect]
  refine ⟨_, hruns, heq, ?_, fun hlt => search_isLeast h0 hsorted hlt hlast hruns⟩
  rintro rfl
  have hstop := hruns.unique (.stop (by omega))
  rw [heq, hstop, if_neg (by omega)]

/-- A snapshot at 2 and entries of two terms, the first of which is that of the snapshot. -/
def twoTermLog : AbstractLog where
  snapshot := ⟨2, 1, []⟩
  entries := [⟨3, 1, []⟩, ⟨4, 1, []⟩, ⟨5, 2, []⟩, ⟨6, 2, []⟩]

/-- The run of the second term begins at 5, that of the first term at the snapshot. -/
theorem conflictIndex_twoTermLog :
    IsLeast { j | BeginsRun twoTermLog 6 j } 5 ∧ conflictIndex twoTermLog 4 = 2 := by
  refine ⟨?_, by decide⟩
  obtain ⟨high, -, heq, -, hleast⟩ :=
    conflictIndex_exact twoTermLog (by decide) (by unfold AbstractLog.TermsSorted; decide) 6
      (by decide) (by decide) (by decide)
  have hfive : conflictIndex twoTermLog 6 = 5 := by decide
  have hterm : ¬twoTermLog.snapshot.term = twoTermLog.getTerm 6 := by decide
  rw [hfive, if_neg fun h => hterm h.2.2] at heq
  rw [heq]
  exact hleast (by decide)

end RaftKV
