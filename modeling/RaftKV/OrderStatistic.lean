import Mathlib

/-!
# Order statistics of a list

The value at a place of a list that is sorted downwards, by counts : it is the greatest value
that as many members of the list reach as there are places up to it. Only the counts of the
list matter, so the result is about the list before it was sorted.
-/

namespace RaftKV

variable {α : Type} [LinearOrder α]

/-- A value at a place of a descending list is reached by as many as stand up to there. -/
theorem countP_ge_of_sorted {l : List α} (hl : l.Pairwise fun a b => b ≤ a) {i : ℕ}
    (hi : i < l.length) : i + 1 ≤ l.countP fun a => decide (l[i] ≤ a) := by
  have hall : ∀ a ∈ l.take (i + 1), l[i] ≤ a := by
    intro a ha
    obtain ⟨j, hj, rfl⟩ := List.getElem_of_mem ha
    rw [List.length_take] at hj
    rw [List.getElem_take]
    rcases Nat.lt_or_ge j i with hlt | hge
    · exact List.pairwise_iff_getElem.mp hl j i (by omega) hi hlt
    · have : j = i := by omega
      subst this
      exact le_rfl
  calc i + 1 = (l.take (i + 1)).length := by rw [List.length_take]; omega
    _ = (l.take (i + 1)).countP fun a => decide (l[i] ≤ a) :=
      (List.countP_eq_length.mpr fun a ha => decide_eq_true (hall a ha)).symm
    _ ≤ l.countP fun a => decide (l[i] ≤ a) := (List.take_sublist _ _).countP_le

/-- A greater value is reached only by those that stand before the place. -/
theorem countP_le_of_sorted {l : List α} (hl : l.Pairwise fun a b => b ≤ a) {i : ℕ}
    (hi : i < l.length) {m : α} (hm : l[i] < m) : (l.countP fun a => decide (m ≤ a)) ≤ i := by
  have hnone : ∀ a ∈ l.drop i, ¬m ≤ a := by
    intro a ha
    obtain ⟨j, hj, rfl⟩ := List.getElem_of_mem ha
    rw [List.length_drop] at hj
    rw [List.getElem_drop, not_le]
    refine lt_of_le_of_lt ?_ hm
    rcases Nat.eq_zero_or_pos j with rfl | hpos
    · exact le_rfl
    · exact List.pairwise_iff_getElem.mp hl i (i + j) hi (by omega) (by omega)
  have hzero : (l.drop i).countP (fun a => decide (m ≤ a)) = 0 :=
    List.countP_eq_zero.mpr fun a ha => by simpa using hnone a ha
  calc (l.countP fun a => decide (m ≤ a))
      = (l.take i ++ l.drop i).countP fun a => decide (m ≤ a) := by rw [List.take_append_drop]
    _ = (l.take i).countP fun a => decide (m ≤ a) := by rw [List.countP_append, hzero, add_zero]
    _ ≤ (l.take i).length := List.countP_le_length
    _ ≤ i := by rw [List.length_take]; omega

/-- **The value at place `i` of the list, sorted downwards**, is the greatest that `i + 1` members
reach. -/
theorem isGreatest_sorted (l : List α) {i : ℕ} (hi : i < l.length) :
    IsGreatest {m | i + 1 ≤ l.countP fun a => decide (m ≤ a)}
      ((l.insertionSort fun a b => b ≤ a).get ⟨i, by rwa [List.length_insertionSort]⟩) := by
  have hsorted := List.pairwise_insertionSort (fun a b : α => b ≤ a) l
  have hperm := List.perm_insertionSort (fun a b : α => b ≤ a) l
  have hi' : i < (l.insertionSort fun a b => b ≤ a).length := by rwa [List.length_insertionSort]
  constructor
  · rw [Set.mem_ofPred_eq, ← hperm.countP_eq]
    exact countP_ge_of_sorted hsorted hi'
  intro m hm
  rw [Set.mem_ofPred_eq, ← hperm.countP_eq] at hm
  by_contra hlt
  have := countP_le_of_sorted hsorted hi' (not_le.mp hlt)
  omega

end RaftKV
