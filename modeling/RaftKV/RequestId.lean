import RaftKV.RespGrammar

/-!
# Request ids

`ParseRequestId` reads a decimal number into 64 bits, with a guard before each digit is added.
The guard is exact : it stops at the first digit that would take the value beyond 64 bits, so
no sum wraps around and the machine computes what the loop over natural numbers computes. With
the checks on the length and the leading zero, the texts that are accepted are the decimals of
the numbers from 1 to 2^64 - 1, each of them once (`request_id_exact`).
-/

namespace RaftKV

/-! ## Decimals -/

theorem digitByte {d : ℕ} (h : d < 10) : UInt8.ofNat d.digitChar.toNat = UInt8.ofNat (48 + d) := by
  interval_cases d <;> rfl

theorem decimal_eq_if (n : ℕ) : decimal n = if n < 10 then [UInt8.ofNat (48 + n)]
      else decimal (n / 10) ++ [UInt8.ofNat (48 + n % 10)] := by
  rw [decimal, Nat.toDigits_eq_if (by decide)]
  split_ifs with h
  · rw [List.map_singleton, digitByte h]
  · rw [List.map_append, List.map_singleton, digitByte (Nat.mod_lt n (by decide))]
    rfl

theorem decimal_ne_nil (n : ℕ) : decimal n ≠ [] := by
  rw [decimal_eq_if]
  split_ifs <;> simp

theorem toNat_digit {d : ℕ} (h : d < 10) : (UInt8.ofNat (48 + d)).toNat = 48 + d := by
  rw [toNat_ofNat_byte]
  omega

/-- The decimal of a positive number does not start with a zero. -/
theorem head_decimal {n : ℕ} (h : 0 < n) : (decimal n).head? ≠ some 48 := by
  induction n using Nat.strong_induction_on with
  | _ n ih =>
    rw [decimal_eq_if]
    split_ifs with hsmall
    · intro hzero
      have hbyte := congrArg UInt8.toNat (Option.some.inj hzero)
      rw [toNat_digit hsmall] at hbyte
      have : (48 : UInt8).toNat = 48 := rfl
      omega
    · rw [List.head?_append_of_ne_nil _ (decimal_ne_nil _)]
      exact ih (n / 10) (by omega) (by omega)

theorem decimalValue_concat (digits : Bytes) (c : UInt8) :
    decimalValue (digits ++ [c]) = decimalValue digits * 10 + (c.toNat - 48) := by
  rw [decimalValue, List.foldl_append]
  rfl

theorem isDigit_iff {c : UInt8} : isDigit c = true ↔ 48 ≤ c.toNat ∧ c.toNat ≤ 57 := by
  rw [isDigit, Bool.and_eq_true, decide_eq_true_eq, decide_eq_true_eq, UInt8.le_iff_toNat_le,
    UInt8.le_iff_toNat_le]
  rfl

theorem ofNat_digit {c : UInt8} (h : isDigit c = true) : UInt8.ofNat (48 + (c.toNat - 48)) = c := by
  have hrange := isDigit_iff.mp h
  rw [← UInt8.toNat_inj, toNat_digit (by omega)]
  omega

/-- Digits without a leading zero are the decimal of their value. -/
theorem decimal_decimalValue {digits : Bytes} (hne : digits ≠ [])
    (hdigits : digits.all isDigit = true) (hhead : digits.head? ≠ some 48) :
    decimal (decimalValue digits) = digits ∧ 0 < decimalValue digits := by
  induction digits using List.reverseRecOn with
  | nil => exact absurd rfl hne
  | append_singleton digits c ih =>
    rw [List.all_append, Bool.and_eq_true] at hdigits
    have hc : isDigit c = true := by simpa using hdigits.2
    have hrange := isDigit_iff.mp hc
    rw [decimalValue_concat]
    by_cases hnil : digits = []
    · subst hnil
      have hzero : c.toNat ≠ 48 := fun h => hhead (congrArg some (UInt8.toNat_inj.mp h))
      have hvalue : decimalValue [] = 0 := rfl
      rw [hvalue, Nat.zero_mul, Nat.zero_add, decimal_eq_if, if_pos (by omega), ofNat_digit hc]
      exact ⟨rfl, by omega⟩
    rw [List.head?_append_of_ne_nil _ hnil] at hhead
    obtain ⟨hdecimal, hpos⟩ := ih hnil hdigits.1 hhead
    have hdiv : (decimalValue digits * 10 + (c.toNat - 48)) / 10 = decimalValue digits := by omega
    have hmod : (decimalValue digits * 10 + (c.toNat - 48)) % 10 = c.toNat - 48 := by omega
    rw [decimal_eq_if, if_neg (by omega), hdiv, hmod, hdecimal, ofNat_digit hc]
    exact ⟨rfl, by omega⟩

/-! ## The loop -/

/-- The guard lets a digit pass exactly when the sum fits 64 bits. -/
theorem guard_iff {value digit : ℕ} (h : digit < 10) :
    (uint64Max - digit) / 10 < value ↔ uint64Max < value * 10 + digit := by
  have hmax : uint64Max = 18446744073709551615 := rfl
  omega

/-- The sums that the loop computes. -/
def requestIdSums : ℕ → Bytes → List ℕ
  | _, [] => []
  | value, c :: text =>
    if isDigit c then
      let digit := c.toNat - 48
      if value > (uint64Max - digit) / 10 then []
      else (value * 10 + digit) :: requestIdSums (value * 10 + digit) text
    else []

theorem requestIdSums_le (value : ℕ) (text : Bytes) :
    ∀ sum ∈ requestIdSums value text, sum ≤ uint64Max := by
  induction text generalizing value with
  | nil => simp [requestIdSums]
  | cons c text ih =>
    rw [requestIdSums]
    dsimp only
    split_ifs with hc hguard
    · simp
    · have hrange := isDigit_iff.mp hc
      rw [gt_iff_lt, guard_iff (by omega), not_lt] at hguard
      intro sum hsum
      rcases List.mem_cons.mp hsum with rfl | hrest
      · exact hguard
      · exact ih _ sum hrest
    · simp

theorem le_foldl_digits (text : Bytes) (value : ℕ) :
    value ≤ text.foldl (fun acc c => acc * 10 + (c.toNat - 48)) value := by
  induction text generalizing value with
  | nil => exact le_rfl
  | cons c text ih =>
    have hstep : value ≤ value * 10 + (c.toNat - 48) := by omega
    exact hstep.trans (ih _)

/-- The loop, from any value. -/
theorem requestIdLoop_eq_some_iff {value : ℕ} (hvalue : value ≤ uint64Max) (text : Bytes) (n : ℕ) :
    requestIdLoop value text = some n ↔ text.all isDigit = true ∧
      text.foldl (fun acc c => acc * 10 + (c.toNat - 48)) value = n ∧ n ≤ uint64Max := by
  induction text generalizing value with
  | nil =>
    rw [requestIdLoop, Option.some.injEq]
    exact ⟨fun h => ⟨rfl, h, h ▸ hvalue⟩, fun h => h.2.1⟩
  | cons c text ih =>
    rw [requestIdLoop, List.all_cons, List.foldl_cons, Bool.and_eq_true]
    by_cases hc : isDigit c = true
    swap
    · rw [if_neg hc]
      exact ⟨fun h => (by cases h), fun h => absurd h.1.1 hc⟩
    rw [if_pos hc]
    have hrange := isDigit_iff.mp hc
    have hiff : (uint64Max - (c.toNat - 48)) / 10 < value ↔
        uint64Max < value * 10 + (c.toNat - 48) := guard_iff (by omega)
    dsimp only
    by_cases hguard : value > (uint64Max - (c.toNat - 48)) / 10
    · rw [if_pos hguard]
      rw [gt_iff_lt, hiff] at hguard
      have hle := le_foldl_digits text (value * 10 + (c.toNat - 48))
      exact ⟨fun h => (by cases h), fun h => absurd h.2 (by omega)⟩
    rw [if_neg hguard]
    rw [gt_iff_lt, hiff, not_lt] at hguard
    rw [ih hguard]
    exact ⟨fun h => ⟨⟨hc, h.1⟩, h.2⟩, fun h => ⟨h.1.2, h.2⟩⟩

/-! ## The machine -/

/-- The digit loop of `ParseRequestId`, with the arithmetic of `uint64_t`. -/
def requestIdLoop64 : UInt64 → Bytes → Option UInt64
  | value, [] => some value
  | value, c :: text =>
    if isDigit c then
      let digit := c.toUInt64 - 48
      if value > (18446744073709551615 - digit) / 10 then none
      else requestIdLoop64 (value * 10 + digit) text
    else none

/-- `ParseRequestId`, with the arithmetic of `uint64_t`. -/
def parseRequestId64 (text : Bytes) : Option UInt64 :=
  if text = [] ∨ text.length > 20 ∨ text.head? = some 48 then none else requestIdLoop64 0 text

/-- The machine computes what the loop over natural numbers computes. -/
theorem requestIdLoop64_eq (value : UInt64) (text : Bytes) :
    (requestIdLoop64 value text).map UInt64.toNat = requestIdLoop value.toNat text := by
  induction text generalizing value with
  | nil => rfl
  | cons c text ih =>
    rw [requestIdLoop64, requestIdLoop]
    by_cases hc : isDigit c = true
    swap
    · rw [if_neg hc, if_neg hc]
      rfl
    rw [if_pos hc, if_pos hc]
    have hrange := isDigit_iff.mp hc
    have hmax : uint64Max = 18446744073709551615 := rfl
    have hdigit : (c.toUInt64 - 48).toNat = c.toNat - 48 := by
      rw [UInt64.toNat_sub_of_le _ _ (by rw [UInt64.le_iff_toNat_le]; exact hrange.1)]
      rfl
    have hlimit : ((18446744073709551615 - (c.toUInt64 - 48)) / 10).toNat =
        (uint64Max - (c.toNat - 48)) / 10 := by
      rw [UInt64.toNat_div, UInt64.toNat_sub_of_le _ _ ?_, hdigit]
      · rfl
      · rw [UInt64.le_iff_toNat_le, hdigit]
        show c.toNat - 48 ≤ 18446744073709551615
        omega
    dsimp only
    simp only [gt_iff_lt, UInt64.lt_iff_toNat_lt, hlimit]
    by_cases hguard : (uint64Max - (c.toNat - 48)) / 10 < value.toNat
    · rw [if_pos hguard, if_pos hguard]
      rfl
    rw [if_neg hguard, if_neg hguard, ih]
    rw [guard_iff (by omega), not_lt] at hguard
    have hten : (10 : UInt64).toNat = 10 := rfl
    rw [UInt64.toNat_add, UInt64.toNat_mul, hdigit, hten]
    congr 1
    omega

/-- **Request ids are parsed exactly.** A text is read as `n` if and only if it is the decimal of
`n` and `n` is between 1 and 2^64 - 1. On no text does a sum of the loop exceed 64 bits, and the
arithmetic of `uint64_t` gives the same result. -/
theorem request_id_exact (text : Bytes) :
    (∀ n, parseRequestId text = some n ↔ text = decimal n ∧ 1 ≤ n ∧ n ≤ 2 ^ 64 - 1) ∧
    (∀ sum ∈ requestIdSums 0 text, sum ≤ 2 ^ 64 - 1) ∧
    (parseRequestId64 text).map UInt64.toNat = parseRequestId text := by
  refine ⟨fun n => ?_, requestIdSums_le 0 text, ?_⟩
  · rw [parseRequestId]
    constructor
    · intro h
      split_ifs at h with hcheck
      push Not at hcheck
      obtain ⟨hdigits, hvalue, hmax⟩ := (requestIdLoop_eq_some_iff (Nat.zero_le _) text n).mp h
      obtain ⟨hdecimal, hpos⟩ := decimal_decimalValue hcheck.1 hdigits hcheck.2.2
      rw [decimalValue, hvalue] at hdecimal hpos
      exact ⟨hdecimal.symm, hpos, hmax⟩
    · rintro ⟨rfl, hpos, hmax⟩
      have hlength : (decimal n).length ≤ 20 := by
        rw [decimal, List.length_map, Nat.length_toDigits_le_iff (by decide) (by decide)]
        omega
      rw [if_neg (not_or.mpr ⟨decimal_ne_nil n, not_or.mpr ⟨not_lt.mpr hlength,
        head_decimal hpos⟩⟩)]
      exact (requestIdLoop_eq_some_iff (Nat.zero_le _) _ n).mpr
        ⟨decimal_digits n, decimalValue_decimal n, hmax⟩
  · rw [parseRequestId64, parseRequestId]
    split_ifs
    · rfl
    · exact requestIdLoop64_eq 0 text

example : parseRequestId (ascii "18446744073709551615") = some (2 ^ 64 - 1) ∧
    parseRequestId (ascii "18446744073709551616") = none ∧ parseRequestId (ascii "01") = none := by
  decide

end RaftKV
