import Mathlib

/-!
# Totals over a finite map

The sum of a weight over the entries of a finite map, and what it becomes when an entry is
added, replaced or erased. A counter that is kept beside a map is exact as long as it is the
total.
-/

namespace Totals

variable {α β : Type*}

/-- The sum of the weights of the entries. -/
def total (w : β → ℕ) (m : AList fun _ : α => β) : ℕ :=
  (m.entries.map fun e => w e.2).sum

variable {w : β → ℕ} {m : AList fun _ : α => β} {a : α} {b : β}

variable [DecidableEq α]

theorem lookup_insert_cases {a' : α} {c : β} (h : (m.insert a b).lookup a' = some c) :
    a' = a ∧ c = b ∨ a' ≠ a ∧ m.lookup a' = some c := by
  by_cases ha : a' = a
  · subst ha
    rw [AList.lookup_insert] at h
    exact .inl ⟨rfl, (Option.some.inj h).symm⟩
  · rw [AList.lookup_insert_ne ha] at h
    exact .inr ⟨ha, h⟩

theorem lookup_of_erase {a' : α} {c : β} (h : (m.erase a).lookup a' = some c) :
    m.lookup a' = some c := by
  by_cases ha : a' = a
  · subst ha
    rw [AList.lookup_erase] at h
    cases h
  · rwa [AList.lookup_erase_ne ha] at h

theorem total_eq_add_erase (h : m.lookup a = some b) : total w m = w b + total w (m.erase a) := by
  have hmem : a ∈ m.entries.keys := AList.lookup_isSome.mp (by rw [h]; rfl)
  obtain ⟨b', l₁, l₂, hnot, hsplit, herase⟩ := List.exists_of_kerase hmem
  have hb : b' = b := by
    have hlookup : m.entries.dlookup a = some b := h
    rw [hsplit, List.dlookup_append, List.dlookup_eq_none.mpr hnot, List.dlookup_cons_eq] at hlookup
    exact Option.some.inj hlookup
  subst hb
  rw [total, total, AList.erase]
  dsimp only
  rw [herase, hsplit]
  simp only [List.map_append, List.map_cons, List.sum_append, List.sum_cons]
  omega

theorem total_insert : total w (m.insert a b) = w b + total w (m.erase a) := by
  rw [total, AList.entries_insert, List.map_cons, List.sum_cons]
  rfl

theorem total_insert_of_none (h : m.lookup a = none) :
    total w (m.insert a b) = w b + total w m := by
  rw [total, AList.entries_insert_of_notMem (AList.lookup_eq_none.mp h), List.map_cons,
    List.sum_cons]
  rfl

theorem total_replace (h : m.lookup a = some b) (c : β) :
    total w (m.insert a c) + w b = total w m + w c := by
  rw [total_insert, total_eq_add_erase h]
  omega

theorem le_total (h : m.lookup a = some b) : w b ≤ total w m := by
  rw [total_eq_add_erase h]
  exact Nat.le_add_right _ _

end Totals
