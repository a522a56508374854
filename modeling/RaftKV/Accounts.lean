import Mathlib

/-!
# Calls in a trace

A trace is a list of events. Some events open a call, whose name is the place of the event in
the trace, some close a call, and some drop all calls that are open. `openCalls` runs over a
trace and keeps the open calls; it fails at an event that closes a call that is not open.

A trace on which it succeeds is sound : every close is of a call that was opened before, a call
is closed at most once (`Open.closed_once`), and a call is open iff it was opened and neither
closed nor dropped since (`Open.mem_iff`, `Open.closed_xor_mem`). A program keeps its accounts by
the rules `Open.opened`, `Open.closed`, `Open.skip` and `Open.dropped`, one for each event.
-/

namespace Accounts

/-- How events open, close and drop calls. -/
structure Scheme (ε : Type) where
  opens : ε → Bool
  closes : ε → Option ℕ
  drops : ε → Bool

variable {ε : Type} (K : Scheme ε)

/-- The open calls after the event at place `i`. -/
def next (i : ℕ) (e : ε) (calls : List ℕ) : Option (List ℕ) :=
  if K.drops e then some []
  else match K.closes e with
    | some call => if call ∈ calls then some (calls.erase call) else none
    | none => if K.opens e then some (i :: calls) else some calls

/-- The open calls after events from place `i` on. -/
def openFrom : ℕ → List ε → List ℕ → Option (List ℕ)
  | _, [], calls => some calls
  | i, e :: es, calls => (next K i e calls).bind (openFrom (i + 1) es)

/-- The open calls after a trace. -/
def openCalls (t : List ε) : Option (List ℕ) :=
  openFrom K 0 t []

theorem openFrom_append (i : ℕ) (es es' : List ε) (calls : List ℕ) :
    openFrom K i (es ++ es') calls =
      (openFrom K i es calls).bind (openFrom K (i + es.length) es') := by
  induction es generalizing i calls with
  | nil => rfl
  | cons e es ih =>
    rw [List.cons_append, openFrom, openFrom, Option.bind_assoc]
    congr 1
    funext calls'
    rw [ih, List.length_cons, show i + 1 + es.length = i + (es.length + 1) by omega]

theorem openCalls_concat (t : List ε) (e : ε) :
    openCalls K (t ++ [e]) = (openCalls K t).bind (next K t.length e) := by
  rw [openCalls, openFrom_append, Nat.zero_add, openCalls]
  congr 1
  funext calls
  rw [openFrom]
  cases next K t.length e calls <;> rfl

/-- The open calls after a trace, in any order. -/
def Open (t : List ε) (l : List ℕ) : Prop :=
  ∃ calls, openCalls K t = some calls ∧ calls.Perm l

variable {K} {t : List ε} {l : List ℕ} {e : ε} {call : ℕ}

namespace Open

theorem nil : Open K [] [] :=
  ⟨[], rfl, List.Perm.refl _⟩

theorem perm {l' : List ℕ} (h : Open K t l) (hp : l.Perm l') : Open K t l' := by
  obtain ⟨calls, hc, hl⟩ := h
  exact ⟨calls, hc, hl.trans hp⟩

theorem dropped (h : Open K t l) (hd : K.drops e = true) : Open K (t ++ [e]) [] := by
  obtain ⟨calls, hc, -⟩ := h
  refine ⟨[], ?_, List.Perm.refl _⟩
  rw [openCalls_concat, hc, Option.bind_some, next, if_pos hd]

theorem opened (h : Open K t l) (hd : K.drops e = false) (hc : K.closes e = none)
    (ho : K.opens e = true) : Open K (t ++ [e]) (t.length :: l) := by
  obtain ⟨calls, hcalls, hl⟩ := h
  refine ⟨t.length :: calls, ?_, hl.cons _⟩
  rw [openCalls_concat, hcalls, Option.bind_some, next, hd, hc, ho]
  rfl

theorem closed (h : Open K t (call :: l)) (hd : K.drops e = false)
    (hc : K.closes e = some call) : Open K (t ++ [e]) l := by
  obtain ⟨calls, hcalls, hl⟩ := h
  have hmem : call ∈ calls := hl.symm.subset List.mem_cons_self
  refine ⟨calls.erase call, ?_, ?_⟩
  · rw [openCalls_concat, hcalls, Option.bind_some, next, hd, hc]
    simp [hmem]
  · simpa using hl.erase call

theorem skip (h : Open K t l) (hd : K.drops e = false) (hc : K.closes e = none)
    (ho : K.opens e = false) : Open K (t ++ [e]) l := by
  obtain ⟨calls, hcalls, hl⟩ := h
  refine ⟨calls, ?_, hl⟩
  rw [openCalls_concat, hcalls, Option.bind_some, next, hd, hc, ho]
  rfl

end Open

/-! ## What open means -/

variable (K) in
/-- A call was opened, and neither closed nor dropped since. -/
structure Live (t : List ε) (call : ℕ) : Prop where
  opened : ∃ e, t[call]? = some e ∧ K.drops e = false ∧ K.closes e = none ∧ K.opens e = true
  since : ∀ j e, call < j → t[j]? = some e → K.drops e = false ∧ K.closes e ≠ some call

theorem Live.lt (h : Live K t call) : call < t.length := by
  obtain ⟨e, he, -⟩ := h.opened
  exact (List.getElem?_eq_some_iff.mp he).1

/-- Whether a call is live after one more event. -/
theorem live_concat_iff : Live K (t ++ [e]) call ↔
    (Live K t call ∧ K.drops e = false ∧ K.closes e ≠ some call) ∨
      (call = t.length ∧ K.drops e = false ∧ K.closes e = none ∧ K.opens e = true) := by
  constructor
  · intro h
    have hlt := h.lt
    rw [List.length_append, List.length_singleton] at hlt
    obtain ⟨e', he', hopen⟩ := h.opened
    rcases (Nat.lt_succ_iff.mp hlt).lt_or_eq with hlt | rfl
    · refine .inl ⟨⟨⟨e', ?_, hopen⟩, fun j x hj hx => h.since j x hj ?_⟩, h.since _ e hlt (by simp)⟩
      · rwa [List.getElem?_append_left hlt] at he'
      · rwa [List.getElem?_append_left (List.getElem?_eq_some_iff.mp hx).1]
    · refine .inr ⟨rfl, ?_⟩
      rw [List.getElem?_concat_length] at he'
      exact Option.some.inj he' ▸ hopen
  · rintro (⟨h, hlast⟩ | ⟨rfl, hopen⟩)
    · obtain ⟨e', he', hopen⟩ := h.opened
      refine ⟨⟨e', ?_, hopen⟩, fun j x hj hx => ?_⟩
      · rwa [List.getElem?_append_left h.lt]
      rcases lt_trichotomy j t.length with hlt | rfl | hgt
      · exact h.since j x hj (by rwa [List.getElem?_append_left hlt] at hx)
      · rw [List.getElem?_concat_length] at hx
        exact Option.some.inj hx ▸ hlast
      · rw [List.getElem?_eq_none (by simp; omega)] at hx
        cases hx
    · refine ⟨⟨e, List.getElem?_concat_length, hopen⟩, fun j x hj hx => ?_⟩
      rw [List.getElem?_eq_none (by simp; omega)] at hx
      cases hx

/-- The calls that are kept are the live ones, each once. -/
theorem openCalls_spec {calls : List ℕ} (h : openCalls K t = some calls) :
    calls.Nodup ∧ ∀ call, call ∈ calls ↔ Live K t call := by
  induction t using List.reverseRecOn generalizing calls with
  | nil =>
    obtain rfl : [] = calls := Option.some.inj h
    refine ⟨List.nodup_nil, fun call => ⟨fun hc => (by cases hc), fun hl => ?_⟩⟩
    exact absurd hl.lt (Nat.not_lt_zero _)
  | append_singleton t e ih =>
    rw [openCalls_concat] at h
    obtain ⟨before, hb, hn⟩ := Option.bind_eq_some_iff.mp h
    obtain ⟨hnodup, hmem⟩ := ih hb
    have hfresh : t.length ∉ before := fun hin => lt_irrefl _ ((hmem _).mp hin).lt
    rw [next] at hn
    by_cases hd : K.drops e = true
    · rw [if_pos hd] at hn
      obtain rfl : [] = calls := Option.some.inj hn
      refine ⟨List.nodup_nil, fun call => ?_⟩
      simp [live_concat_iff, hd]
    rw [if_neg hd] at hn
    have hd' : K.drops e = false := Bool.eq_false_iff.mpr hd
    cases hc : K.closes e with
    | some closed =>
      simp only [hc] at hn
      split_ifs at hn with hin
      obtain rfl : before.erase closed = calls := Option.some.inj hn
      refine ⟨hnodup.erase closed, fun call => ?_⟩
      rw [hnodup.mem_erase_iff, hmem, live_concat_iff]
      simp only [hd', hc, ne_eq, Option.some.injEq, true_and, reduceCtorEq, false_and, and_false,
        or_false]
      exact ⟨fun ⟨hne, hl⟩ => ⟨hl, Ne.symm hne⟩, fun ⟨hl, hne⟩ => ⟨Ne.symm hne, hl⟩⟩
    | none =>
      simp only [hc] at hn
      split_ifs at hn with ho
      · obtain rfl : t.length :: before = calls := Option.some.inj hn
        refine ⟨List.nodup_cons.mpr ⟨hfresh, hnodup⟩, fun call => ?_⟩
        rw [List.mem_cons, hmem, live_concat_iff]
        simp [hd', hc, ho, or_comm]
      obtain rfl : before = calls := Option.some.inj hn
      refine ⟨hnodup, fun call => ?_⟩
      rw [hmem, live_concat_iff]
      simp [hd', hc, ho]

namespace Open

theorem nodup (h : Open K t l) : l.Nodup := by
  obtain ⟨calls, hc, hl⟩ := h
  exact hl.nodup_iff.mp (openCalls_spec hc).1

theorem mem_iff (h : Open K t l) : call ∈ l ↔ Live K t call := by
  obtain ⟨calls, hc, hl⟩ := h
  rw [← hl.mem_iff]
  exact (openCalls_spec hc).2 call

theorem take (h : Open K t l) (k : ℕ) : ∃ l', Open K (t.take k) l' := by
  obtain ⟨calls, hc, -⟩ := h
  rw [← List.take_append_drop k t, openCalls, openFrom_append] at hc
  obtain ⟨before, hb, -⟩ := Option.bind_eq_some_iff.mp hc
  exact ⟨before, before, hb, List.Perm.refl _⟩

theorem live_of_closed (h : Open K t l) {j : ℕ} (hj : t[j]? = some e)
    (hd : K.drops e = false) (hc : K.closes e = some call) : Live K (t.take j) call := by
  obtain ⟨l', calls, hcalls, hl⟩ := h.take (j + 1)
  obtain ⟨hlt, rfl⟩ := List.getElem?_eq_some_iff.mp hj
  rw [List.take_succ_eq_append_getElem hlt, openCalls_concat] at hcalls
  obtain ⟨before, hb, hn⟩ := Option.bind_eq_some_iff.mp hcalls
  rw [next, hd, hc] at hn
  refine ((openCalls_spec hb).2 call).mp ?_
  by_contra hnot
  simp [hnot] at hn

/-- **A call is closed at most once.** -/
theorem closed_once (h : Open K t l) {i j : ℕ} {e e' : ε} (hi : t[i]? = some e)
    (hj : t[j]? = some e') (hd : K.drops e = false) (hd' : K.drops e' = false)
    (hc : K.closes e = some call) (hc' : K.closes e' = some call) : i = j := by
  have key : ∀ {i j : ℕ} {e e' : ε}, t[i]? = some e → t[j]? = some e' →
      K.drops e = false → K.drops e' = false → K.closes e = some call →
      K.closes e' = some call → ¬i < j := by
    intro i j e e' hi hj hd hd' hc hc' hlt
    have hbefore := (h.live_of_closed hi hd hc).lt
    rw [List.length_take] at hbefore
    refine ((h.live_of_closed hj hd' hc').since i e (by omega) ?_).2 hc
    rw [List.getElem?_take_of_lt hlt, hi]
  exact le_antisymm (not_lt.mp (key hj hi hd' hd hc' hc)) (not_lt.mp (key hi hj hd hd' hc hc'))

/-- **A call is closed or open, and not both**, if nothing was dropped since it was opened. -/
theorem closed_xor_mem (h : Open K t l) (hclose : ∀ e, (K.closes e).isSome → K.drops e = false)
    (hopen : ∃ e, t[call]? = some e ∧ K.drops e = false ∧ K.closes e = none ∧ K.opens e = true)
    (hkeep : ∀ j e, call < j → t[j]? = some e → K.drops e = false) :
    Xor (∃ (j : ℕ) (e : ε), t[j]? = some e ∧ K.closes e = some call) (call ∈ l) := by
  by_cases hclosed : ∃ (j : ℕ) (e : ε), t[j]? = some e ∧ K.closes e = some call
  · refine .inl ⟨hclosed, fun hmem => ?_⟩
    obtain ⟨j, e, hj, hc⟩ := hclosed
    have hlt := (h.live_of_closed hj (hclose e (by rw [hc]; rfl)) hc).lt
    rw [List.length_take] at hlt
    exact ((h.mem_iff.mp hmem).since j e (by omega) hj).2 hc
  · refine .inr ⟨h.mem_iff.mpr ⟨hopen, fun j e hlt hj => ⟨hkeep j e hlt hj, fun hc => ?_⟩⟩, hclosed⟩
    exact hclosed ⟨j, e, hj, hc⟩

end Open

end Accounts
