import Mathlib.Order.Bounds.Basic
import Mathlib.Data.Int.Order.Basic
import Mathlib.Tactic.Linarith

/-!
# Bisection

A search that halves an interval until its ends are next to each other. It keeps a point where
the predicate holds at its upper end. If the predicate is closed upward, the search ends at the
least point above its lower end where the predicate holds.
-/

namespace Bisection

variable (p : ℤ → Prop)

/-- The runs of the loop, from the ends of an interval to the point where it stops. A run is a
finite number of turns. -/
inductive Runs : ℤ → ℤ → ℤ → Prop
  | stop {low high : ℤ} (h : high - low ≤ 1) : Runs low high high
  | left {low high result : ℤ} (h : 1 < high - low) (hp : p (low + (high - low) / 2))
      (hrest : Runs low (low + (high - low) / 2) result) : Runs low high result
  | right {low high result : ℤ} (h : 1 < high - low) (hp : ¬p (low + (high - low) / 2))
      (hrest : Runs (low + (high - low) / 2) high result) : Runs low high result

/-- The loop, for a number of turns. -/
def bisect [DecidablePred p] : ℕ → ℤ → ℤ → ℤ
  | 0, _, high => high
  | turns + 1, low, high =>
    if high - low ≤ 1 then high
    else if p (low + (high - low) / 2) then bisect turns low (low + (high - low) / 2)
    else bisect turns (low + (high - low) / 2) high

variable {p}

/-- Every turn makes the interval smaller, so as many turns as the interval is long are enough. -/
theorem runs_bisect [DecidablePred p] (turns : ℕ) {low high : ℤ} (h : high - low ≤ turns) :
    Runs p low high (bisect p turns low high) := by
  induction turns generalizing low high with
  | zero => exact .stop (by push_cast at h; omega)
  | succ turns ih =>
    rw [bisect]
    split_ifs with hdone hp
    · exact .stop hdone
    · exact .left (not_le.mp hdone) hp (ih (by push_cast at h; omega))
    · exact .right (not_le.mp hdone) hp (ih (by push_cast at h; omega))

theorem Runs.unique {low high r r' : ℤ} (h : Runs p low high r) (h' : Runs p low high r') :
    r = r' := by
  induction h with
  | stop hdone =>
    cases h' with
    | stop _ => rfl
    | left h _ _ => omega
    | right h _ _ => omega
  | left hwide hp _ ih =>
    cases h' with
    | stop _ => omega
    | left _ _ hrest => exact ih hrest
    | right _ hn _ => exact absurd hp hn
  | right hwide hn _ ih =>
    cases h' with
    | stop _ => omega
    | left _ hp _ => exact absurd hp hn
    | right _ _ hrest => exact ih hrest

/-- The search finds the least point above `bottom` where the predicate holds : the predicate is
closed upward up to `high`, it holds at the upper end and at no point up to the lower end. -/
theorem Runs.isLeast {low high result : ℤ} (h : Runs p low high result) {bottom : ℤ}
    (hbottom : bottom ≤ low) (hlt : low < high) (hhigh : p high)
    (hlow : ∀ j, bottom < j → j ≤ low → ¬p j)
    (hup : ∀ j k, bottom < j → j ≤ k → k ≤ high → p j → p k) :
    IsLeast { j | bottom < j ∧ p j } result := by
  induction h with
  | @stop low high hdone =>
    refine ⟨⟨by omega, hhigh⟩, fun j hj => ?_⟩
    by_contra hless
    exact hlow j hj.1 (by omega) hj.2
  | @left low high result hwide hp _ ih =>
    refine ih hbottom (by omega) hp hlow fun j k hj hjk hk => ?_
    exact hup j k hj hjk (by omega)
  | @right low high result hwide hn _ ih =>
    refine ih (by omega) (by omega) hhigh (fun j hj hle hp => ?_) hup
    exact hn (hup j _ hj hle (by omega) hp)

end Bisection
