import RaftKV.Wp

/-!
# Weakest preconditions with a ghost state

A proof about a program may keep a ghost beside the state, which the program does not see and
the proof moves when it likes. A `GhostLogic` fixes how ghost and state may move together,
a reflexive and transitive relation, and what holds whenever an exception is thrown.
`L.gwp m Q g s` says that `m`, run from `s` beside the ghost `g`, ends beside some ghost that is
related to the start, with `Q` or with an exception of which `L.thrown` holds.
-/

namespace RaftKV

/-- How ghost and state may move, and what holds when an exception is thrown. -/
structure GhostLogic (ε σ γ : Type) where
  rel : γ → σ → γ → σ → Prop
  refl : ∀ g s, rel g s g s
  trans : ∀ {g₁ s₁ g₂ s₂ g₃ s₃}, rel g₁ s₁ g₂ s₂ → rel g₂ s₂ g₃ s₃ → rel g₁ s₁ g₃ s₃
  thrown : ε → γ → σ → Prop

namespace GhostLogic

variable {ε σ γ α β : Type} (L : GhostLogic ε σ γ)

/-- Running `m` from `s` beside `g` ends beside a ghost where `Q` or `L.thrown` holds. -/
def gwp (m : EStateM ε σ α) (Q : α → γ → σ → Prop) (g : γ) (s : σ) : Prop :=
  wp m (fun a s' => ∃ g', L.rel g s g' s' ∧ Q a g' s')
    (fun e s' => ∃ g', L.rel g s g' s' ∧ L.thrown e g' s') s

variable {L} {Q : α → γ → σ → Prop} {g : γ} {s : σ}

theorem gwp_pure {a : α} (h : Q a g s) : L.gwp (pure a) Q g s :=
  ⟨g, L.refl g s, h⟩

theorem gwp_throw {e : ε} (h : L.thrown e g s) : L.gwp (throw e : EStateM ε σ α) Q g s :=
  ⟨g, L.refl g s, h⟩

variable {m : EStateM ε σ α}

/-- A program that returns without an effect. -/
theorem gwp_of_run {a : α} (hm : m s = .ok a s) (h : Q a g s) : L.gwp m Q g s := by
  rw [gwp, wp, hm]
  exact ⟨g, L.refl g s, h⟩

/-- The rule of consequence. The postcondition may use how ghost and state have moved. -/
theorem gwp_mono {Q' : α → γ → σ → Prop} (h : L.gwp m Q g s)
    (hQ : ∀ a g' s', L.rel g s g' s' → Q a g' s' → Q' a g' s') : L.gwp m Q' g s :=
  wp_mono h (fun a s' ⟨g', hr, hq⟩ => ⟨g', hr, hQ a g' s' hr hq⟩) fun _ _ h => h

theorem gwp_bind {m : EStateM ε σ β} {f : β → EStateM ε σ α}
    (h : L.gwp m (fun b => L.gwp (f b) Q) g s) : L.gwp (m >>= f) Q g s := by
  rw [gwp, wp_bind]
  refine wp_mono h (fun b s' ⟨g', hr, hf⟩ => ?_) fun _ _ h => h
  exact wp_mono hf (fun a t ⟨g'', hr', hq⟩ => ⟨g'', L.trans hr hr', hq⟩)
    fun e t ⟨g'', hr', he⟩ => ⟨g'', L.trans hr hr', he⟩

/-- A program followed by another, by a postcondition in between. -/
theorem gwp_seq {m : EStateM ε σ β} {f : β → EStateM ε σ α} {R : β → γ → σ → Prop}
    (hm : L.gwp m R g s) (hf : ∀ b g' s', L.rel g s g' s' → R b g' s' → L.gwp (f b) Q g' s') :
    L.gwp (m >>= f) Q g s :=
  gwp_bind (gwp_mono hm hf)

theorem gwp_ite {p : Prop} [Decidable p] {m' : EStateM ε σ α} (hm : p → L.gwp m Q g s)
    (hm' : ¬p → L.gwp m' Q g s) : L.gwp (if p then m else m') Q g s := by
  split_ifs with hp
  · exact hm hp
  · exact hm' hp

/-- A guard : the program goes on if `p` holds. -/
theorem gwp_unless {p : Prop} [Decidable p] {m' : EStateM ε σ α} (hm : ¬p → L.gwp m Q g s)
    (hm' : p → L.gwp m' Q g s) : L.gwp (if ¬p then m else m') Q g s :=
  gwp_ite hm fun hp => hm' (not_not.mp hp)

theorem gwp_ghost (g' : γ) (hr : L.rel g s g' s) (h : L.gwp m Q g' s) : L.gwp m Q g s :=
  wp_mono h (fun _ _ ⟨g'', hr', hq⟩ => ⟨g'', L.trans hr hr', hq⟩)
    fun _ _ ⟨g'', hr', he⟩ => ⟨g'', L.trans hr hr', he⟩

theorem gwp_get_bind {f : σ → EStateM ε σ α} : L.gwp (get >>= f) Q g s ↔ L.gwp (f s) Q g s := by
  simp only [gwp, wp_bind, wp_get]

theorem gwp_modifyGet {f : σ → α × σ} (g' : γ) (hr : L.rel g s g' (f s).2)
    (h : Q (f s).1 g' (f s).2) : L.gwp (modifyGet f) Q g s :=
  ⟨g', hr, h⟩

theorem gwp_modify {f : σ → σ} {Q : PUnit → γ → σ → Prop} (g' : γ) (hr : L.rel g s g' (f s))
    (h : Q ⟨⟩ g' (f s)) : L.gwp (modify f) Q g s :=
  ⟨g', hr, h⟩

theorem gwp_tryCatch {handler : ε → EStateM ε σ α} (hm : L.gwp m Q g s)
    (hh : ∀ e g' s', L.thrown e g' s' → L.gwp (handler e) Q g' s') :
    L.gwp (tryCatch m handler) Q g s := by
  rw [gwp, wp_tryCatch]
  refine wp_mono hm (fun _ _ h => h) fun e s' ⟨g', hr, he⟩ => ?_
  exact wp_mono (hh e g' s' he) (fun _ _ ⟨g'', hr', hq⟩ => ⟨g'', L.trans hr hr', hq⟩)
    fun _ _ ⟨g'', hr', he⟩ => ⟨g'', L.trans hr hr', he⟩

theorem gwp_forM {δ : Type} {f : δ → EStateM ε σ PUnit} {I : γ → σ → Prop} {l : List δ}
    (body : ∀ x ∈ l, ∀ g s, I g s → L.gwp (f x) (fun _ => I) g s) (h : I g s) :
    L.gwp (forM l f) (fun _ => I) g s := by
  induction l generalizing g s with
  | nil => exact gwp_pure h
  | cons x l ih =>
    rw [List.forM_cons]
    exact gwp_seq (body x List.mem_cons_self g s h) fun _ _ _ _ hI =>
      ih (fun y hy => body y (List.mem_cons_of_mem _ hy)) hI

end GhostLogic

end RaftKV
