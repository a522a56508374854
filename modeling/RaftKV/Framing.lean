import Mathlib.Tactic

/-!
# Framing

A stream is cut into values by a parser that is run again on what it has not consumed. The
parser returns a value with the number of symbols it takes, asks for more symbols, or rejects
the stream; its answer may depend on a state that the values taken so far determine. When the
answers are stable as the stream grows, the values of a stream do not depend on how the stream
arrives : a reader that is fed pieces of it, and takes values at any moments in between, takes
the values of the whole stream in their order (`Framer.parse_read`).
-/

namespace Framing

variable {S σ α : Type*}

/-- The answer of a parser. -/
inductive Verdict (α : Type*) where
  | complete (consumed : ℕ) (value : α)
  | needMore
  | invalid
  deriving DecidableEq

/-- A parser whose values and rejections are those of every longer stream. -/
structure Framer (S σ α : Type*) where
  step : S → List σ → Verdict α
  /-- The state after a value. -/
  next : S → α → S
  consumed_pos : ∀ {s raw n a}, step s raw = .complete n a → 0 < n
  consumed_le : ∀ {s raw n a}, step s raw = .complete n a → n ≤ raw.length
  complete_append : ∀ {s raw n a} (suffix : List σ),
    step s raw = .complete n a → step s (raw ++ suffix) = .complete n a
  invalid_append : ∀ {s raw} (suffix : List σ),
    step s raw = .invalid → step s (raw ++ suffix) = .invalid

/-- The values at the start of a stream, the state after them, and what is left. -/
@[ext]
structure Parsed (S σ α : Type*) where
  values : List α
  state : S
  rest : List σ

/-- A value before those of a parsed stream. -/
def Parsed.cons (a : α) (p : Parsed S σ α) : Parsed S σ α := { p with values := a :: p.values }

/-- Values before those of a parsed stream. -/
def Parsed.behind (values : List α) (p : Parsed S σ α) : Parsed S σ α :=
  { p with values := values ++ p.values }

@[simp] theorem Parsed.nil_behind (p : Parsed S σ α) : p.behind [] = p := rfl

@[simp] theorem Parsed.behind_behind (xs ys : List α) (p : Parsed S σ α) :
    (p.behind ys).behind xs = p.behind (xs ++ ys) := by
  simp [behind]

namespace Framer

variable (F : Framer S σ α)

/-- The values of a stream, at most `fuel` of them. -/
def parseFuel : ℕ → S → List σ → Parsed S σ α
  | 0, s, raw => ⟨[], s, raw⟩
  | fuel + 1, s, raw =>
    match F.step s raw with
    | .complete n a => (parseFuel fuel (F.next s a) (raw.drop n)).cons a
    | _ => ⟨[], s, raw⟩

/-- The values of a whole stream. -/
def parse (s : S) (raw : List σ) : Parsed S σ α := F.parseFuel raw.length s raw

/-- The stream is rejected after its values. -/
def EndsInvalid (s : S) (raw : List σ) : Prop :=
  F.step (F.parse s raw).state (F.parse s raw).rest = .invalid

variable {F}

variable {raw : List σ} {s : S}

/-- Without a value, nothing is taken. -/
theorem parseFuel_stuck (h : ∀ n a, F.step s raw ≠ .complete n a)
    (fuel : ℕ) : F.parseFuel fuel s raw = ⟨[], s, raw⟩ := by
  cases fuel with
  | zero => rfl
  | succ fuel =>
    rw [parseFuel]
    cases hstep : F.step s raw with
    | complete n a => exact (h n a hstep).elim
    | needMore => rfl
    | invalid => rfl

theorem parseFuel_eq {fuel : ℕ} (h : raw.length ≤ fuel) :
    F.parseFuel fuel s raw = F.parse s raw := by
  suffices hall : ∀ fuel fuel' s (raw : List σ), raw.length ≤ fuel → raw.length ≤ fuel' →
      F.parseFuel fuel s raw = F.parseFuel fuel' s raw from hall _ _ s raw h le_rfl
  have hempty : ∀ fuel s (raw : List σ), raw.length = 0 →
      F.parseFuel fuel s raw = ⟨[], s, raw⟩ := by
    refine fun fuel s raw hraw => parseFuel_stuck (fun n a hstep => ?_) fuel
    have := F.consumed_pos hstep
    have := F.consumed_le hstep
    omega
  intro fuel
  induction fuel with
  | zero =>
    intro fuel' s raw h _
    rw [hempty _ s raw (by omega), hempty _ s raw (by omega)]
  | succ fuel ih =>
    intro fuel' s raw h h'
    cases fuel' with
    | zero => rw [hempty _ s raw (by omega), hempty _ s raw (by omega)]
    | succ fuel' =>
      rw [parseFuel, parseFuel]
      cases hstep : F.step s raw with
      | complete n a =>
        have hpos := F.consumed_pos hstep
        have hlen : (raw.drop n).length = raw.length - n := List.length_drop
        dsimp only
        rw [ih fuel' (F.next s a) (raw.drop n) (by omega) (by omega)]
      | needMore => rfl
      | invalid => rfl

theorem parse_complete {n : ℕ} {a : α} (h : F.step s raw = .complete n a) :
    F.parse s raw = (F.parse (F.next s a) (raw.drop n)).cons a := by
  have hpos := F.consumed_pos h
  have hlen : (raw.drop n).length = raw.length - n := List.length_drop
  rw [← parseFuel_eq (Nat.le_succ raw.length), parseFuel, h]
  dsimp only
  rw [parseFuel_eq (by omega)]

theorem parse_stuck (h : ∀ n a, F.step s raw ≠ .complete n a) : F.parse s raw = ⟨[], s, raw⟩ :=
  parseFuel_stuck h raw.length

/-- The recursion of the parser : a value and the rest of the stream, or no value. -/
theorem parse_induction {motive : S → List σ → Prop}
    (value : ∀ s raw n a, F.step s raw = .complete n a →
      motive (F.next s a) (raw.drop n) → motive s raw)
    (stuck : ∀ s raw, (∀ n a, F.step s raw ≠ .complete n a) → motive s raw)
    (s : S) (raw : List σ) : motive s raw := by
  induction hlen : raw.length using Nat.strong_induction_on generalizing s raw with
  | _ k ih =>
    cases hstep : F.step s raw with
    | complete n a =>
      have hpos := F.consumed_pos hstep
      have hle := F.consumed_le hstep
      exact value s raw n a hstep (ih _ (by rw [List.length_drop]; omega) _ (raw.drop n) rfl)
    | needMore => exact stuck s raw (by simp [hstep])
    | invalid => exact stuck s raw (by simp [hstep])

/-- The values of a longer stream are those of its start, then those of what that leaves. -/
theorem parse_append (s : S) (raw suffix : List σ) : F.parse s (raw ++ suffix) =
      (F.parse (F.parse s raw).state ((F.parse s raw).rest ++ suffix)).behind
        (F.parse s raw).values := by
  induction s, raw using F.parse_induction with
  | value s raw n a hstep ih =>
    rw [parse_complete (F.complete_append suffix hstep), parse_complete hstep,
      List.drop_append_of_le_length (F.consumed_le hstep), ih]
    rfl
  | stuck s raw hstuck => rw [parse_stuck hstuck, Parsed.nil_behind]

theorem endsInvalid_of_step (h : F.step s raw = .invalid) : F.EndsInvalid s raw := by
  rw [EndsInvalid, parse_stuck (by simp [h])]
  exact h

/-! ## A reader -/

/-- What happens to a reader : symbols arrive, or it tries to take a value. -/
inductive Move (σ : Type*) where
  | feed (chunk : List σ)
  | take

/-- The symbols that arrive in a move. -/
def arrived : Move σ → List σ
  | .feed chunk => chunk
  | .take => []

variable (F) in
/-- A move of a reader : the value it takes, its state, and what it has not consumed. -/
def act (s : S) (unread : List σ) : Move σ → Parsed S σ α
  | .feed chunk => ⟨[], s, unread ++ chunk⟩
  | .take =>
    match F.step s unread with
    | .complete n a => ⟨[a], F.next s a, unread.drop n⟩
    | _ => ⟨[], s, unread⟩

variable (F) in
/-- The values a reader takes in its moves, its state, and what it has not consumed. -/
def read (s : S) (unread : List σ) : List (Move σ) → Parsed S σ α
  | [] => ⟨[], s, unread⟩
  | move :: moves =>
    (read (F.act s unread move).state (F.act s unread move).rest moves).behind
      (F.act s unread move).values

/-- One move : the value taken comes before those of what is left and has yet to arrive. -/
theorem parse_act (s : S) (unread later : List σ) (move : Move σ) :
    F.parse s (unread ++ (arrived move ++ later)) =
      (F.parse (F.act s unread move).state ((F.act s unread move).rest ++ later)).behind
        (F.act s unread move).values := by
  cases move with
  | feed chunk =>
    rw [arrived, act, ← List.append_assoc]
    rfl
  | take =>
    rw [arrived, act, List.nil_append]
    cases hstep : F.step s unread with
    | complete n a =>
      rw [parse_complete (F.complete_append later hstep),
        List.drop_append_of_le_length (F.consumed_le hstep)]
      rfl
    | needMore => rfl
    | invalid => rfl

/-- A reader takes the first values of all that arrives, and leaves the others in what it has not
consumed. -/
theorem parse_read (s : S) (unread : List σ) (moves : List (Move σ)) :
    F.parse s (unread ++ moves.flatMap arrived) =
      (F.parse (F.read s unread moves).state (F.read s unread moves).rest).behind
        (F.read s unread moves).values := by
  induction moves generalizing s unread with
  | nil =>
    rw [List.flatMap_nil, List.append_nil, read]
    rfl
  | cons move moves ih =>
    rw [List.flatMap_cons, parse_act, ih, read, Parsed.behind_behind]
    rfl

end Framer

end Framing
