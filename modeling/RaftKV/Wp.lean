import Mathlib

/-!
# Weakest preconditions of programs that throw

A program is an `EStateM` computation : it reads and updates a state, and returns a
value or throws. `wp m Q E s` says that `m`, run from `s`, returns with `Q` or throws
with `E`; the state at a throw is the state reached there, so a statement about
exceptions is a statement about what was done before them. The `simp` lemmas push `wp`
through the constructs of a `do` block, `wp_mono` is the rule of consequence, and
`wp_forM` is the invariant rule for a loop over a list.
-/

namespace RaftKV

variable {ε σ α β : Type}

/-- Running `m` from `s` returns with `Q` or throws with `E`. -/
def wp (m : EStateM ε σ α) (Q : α → σ → Prop) (E : ε → σ → Prop) (s : σ) : Prop :=
  match m s with
  | .ok a s' => Q a s'
  | .error e s' => E e s'

variable {Q : α → σ → Prop} {E : ε → σ → Prop} {s : σ}

@[simp] theorem wp_pure (a : α) : wp (pure a : EStateM ε σ α) Q E s = Q a s := rfl

@[simp] theorem wp_bind (m : EStateM ε σ β) (f : β → EStateM ε σ α) :
    wp (m >>= f) Q E s = wp m (fun b => wp (f b) Q E) E s := by
  simp only [wp, bind, EStateM.bind]
  cases m s <;> rfl

@[simp] theorem wp_map (m : EStateM ε σ β) (f : β → α) :
    wp (f <$> m) Q E s = wp m (fun b => Q (f b)) E s := by
  simp only [wp, Functor.map, EStateM.map]
  cases m s <;> rfl

@[simp] theorem wp_get {Q : σ → σ → Prop} : wp (get : EStateM ε σ σ) Q E s = Q s s := rfl

@[simp] theorem wp_set {Q : PUnit → σ → Prop} (t : σ) :
    wp (set t : EStateM ε σ PUnit) Q E s = Q ⟨⟩ t := rfl

@[simp] theorem wp_modify {Q : PUnit → σ → Prop} (f : σ → σ) :
    wp (modify f : EStateM ε σ PUnit) Q E s = Q ⟨⟩ (f s) := rfl

@[simp] theorem wp_modifyGet (f : σ → α × σ) :
    wp (modifyGet f : EStateM ε σ α) Q E s = Q (f s).1 (f s).2 := rfl

@[simp] theorem wp_throw (e : ε) : wp (throw e : EStateM ε σ α) Q E s = E e s := rfl

@[simp] theorem wp_ofExcept (x : Except ε α) :
    wp (ofExcept x : EStateM ε σ α) Q E s = match x with
      | .ok a => Q a s
      | .error e => E e s := by
  cases x <;> rfl

@[simp] theorem wp_ite (c : Prop) [Decidable c] (m₁ m₂ : EStateM ε σ α) :
    wp (if c then m₁ else m₂) Q E s = if c then wp m₁ Q E s else wp m₂ Q E s := by
  split_ifs <;> rfl

@[simp] theorem wp_tryCatch (m : EStateM ε σ α) (h : ε → EStateM ε σ α) :
    wp (tryCatch m h) Q E s = wp m Q (fun e => wp (h e) Q E) s := by
  simp only [wp, tryCatch, tryCatchThe, MonadExceptOf.tryCatch, EStateM.tryCatch]
  cases m s <;> rfl

variable {m : EStateM ε σ α}

theorem wp_mono {Q' : α → σ → Prop} {E' : ε → σ → Prop}
    (h : wp m Q E s) (hQ : ∀ a t, Q a t → Q' a t) (hE : ∀ e t, E e t → E' e t) : wp m Q' E' s := by
  unfold wp at *
  cases hm : m s with
  | ok a t => rw [hm] at h; exact hQ a t h
  | error e t => rw [hm] at h; exact hE e t h

/-- What holds of every result holds of the one a program returns with. -/
theorem wp_any (h : ∀ a t, Q a t) : wp m Q (fun _ _ => True) s := by
  unfold wp
  cases m s with
  | ok a t => exact h a t
  | error e t => trivial

theorem wp_of_ok {a : α} {t : σ} (h : wp m Q E s) (hm : m s = .ok a t) : Q a t := by
  simpa [wp, hm] using h

theorem wp_of_error {e : ε} {t : σ} (h : wp m Q E s) (hm : m s = .error e t) : E e t := by
  simpa [wp, hm] using h

theorem wp_eq_of_ok {a : α} {t : σ} (hm : m s = .ok a t) : wp m Q E s = Q a t := by
  simp [wp, hm]

/-- A loop over a list keeps an invariant that its body keeps. -/
theorem wp_forM {γ : Type} (f : γ → EStateM ε σ PUnit) (I : σ → Prop) (l : List γ)
    (body : ∀ x ∈ l, ∀ t, I t → wp (f x) (fun _ => I) E t) (hs : I s) :
    wp (forM l f) (fun _ => I) E s := by
  induction l generalizing s with
  | nil => exact hs
  | cons x l ih =>
    rw [List.forM_cons, wp_bind]
    exact wp_mono (body x List.mem_cons_self s hs)
      (fun _ t ht => ih (fun y hy => body y (List.mem_cons_of_mem _ hy)) ht) fun _ _ h => h

/-- A result that can be seen to be one. -/
theorem exists_ok_of_any {x : Except ε α} {p : α → Bool} (h : x.toOption.any p = true) :
    ∃ a, x = .ok a ∧ p a = true := by
  cases x with
  | error message => cases h
  | ok a => exact ⟨a, rfl, h⟩

end RaftKV
