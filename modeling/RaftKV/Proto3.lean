import Mathlib.Data.Nat.Digits.Lemmas

/-!
# Proto3 fields

The wire format of proto3 : a field is a tag with its number and its wire type, and its value as
a varint, or as bytes behind their length. A scalar field with the default value is left out; an
element of a repeated field is always written. Signed values are written as the 64 bits of their
two's complement.

The length of a varint is the number of its groups of seven bits (`length_varint`), so a field
takes at most eleven bytes, or its bytes and eleven more.
-/

namespace Proto3

/-- A base-128 varint, least significant group first. -/
def varint (v : ℕ) : List UInt8 :=
  if v < 128 then [UInt8.ofNat v] else UInt8.ofNat (v % 128 + 128) :: varint (v / 128)

theorem length_varint (v : ℕ) : (varint v).length = Nat.log 128 v + 1 := by
  induction v using Nat.strong_induction_on with
  | _ v ih =>
    rw [varint]
    split_ifs with h
    · rw [Nat.log_of_lt h]
      rfl
    · rw [List.length_cons, ih (v / 128) (by omega),
        Nat.log_of_one_lt_of_le (by norm_num) (not_lt.mp h)]

/-- The varint of a 64-bit value takes at most ten bytes. -/
theorem length_varint_le {v : ℕ} (h : v < 2 ^ 64) : (varint v).length ≤ 10 := by
  have hlog : Nat.log 128 v < 10 := Nat.log_lt_of_lt_pow' (by norm_num) (h.trans (by norm_num))
  rw [length_varint]
  omega

/-- The tag of a field with a wire type. -/
def tag (number wireType : ℕ) : List UInt8 :=
  varint (number * 8 + wireType)

theorem length_tag {number wireType : ℕ} (h : number ≤ 15) (hw : wireType < 8) :
    (tag number wireType).length = 1 := by
  rw [tag, varint, if_pos (by omega)]
  rfl

/-- The 64 bits of a signed value. -/
def bits64 (v : ℤ) : ℕ :=
  (v % 2 ^ 64).toNat

theorem bits64_lt (v : ℤ) : bits64 v < 2 ^ 64 := by
  rw [bits64]
  omega

/-- A field of an integer type. -/
def intField (number : ℕ) (v : ℤ) : List UInt8 :=
  if v = 0 then [] else tag number 0 ++ varint (bits64 v)

/-- A field of type `bool`. -/
def boolField (number : ℕ) (b : Bool) : List UInt8 :=
  if b then tag number 0 ++ varint 1 else []

/-- Bytes behind a tag and their length. -/
def delimited (number : ℕ) (data : List UInt8) : List UInt8 :=
  tag number 2 ++ varint data.length ++ data

/-- A field of type `bytes`. -/
def bytesField (number : ℕ) (data : List UInt8) : List UInt8 :=
  if data = [] then [] else delimited number data

section Lengths

variable {number : ℕ} (h : number ≤ 15)

include h

theorem length_intField (v : ℤ) :
    (intField number v).length = if v = 0 then 0 else 1 + (varint (bits64 v)).length := by
  rw [intField]
  split_ifs
  · rfl
  · rw [List.length_append, length_tag h (by norm_num)]

theorem length_intField_le (v : ℤ) : (intField number v).length ≤ 11 := by
  have := length_varint_le (bits64_lt v)
  rw [length_intField h]
  split_ifs <;> omega

theorem length_boolField (b : Bool) : (boolField number b).length = if b then 2 else 0 := by
  rw [boolField]
  split_ifs
  · rw [List.length_append, length_tag h (by norm_num), varint, if_pos (by norm_num)]
    rfl
  · rfl

theorem length_delimited (data : List UInt8) :
    (delimited number data).length = 1 + (varint data.length).length + data.length := by
  rw [delimited, List.length_append, List.length_append, length_tag h (by norm_num)]

theorem length_bytesField (data : List UInt8) : (bytesField number data).length =
      if data = [] then 0 else 1 + (varint data.length).length + data.length := by
  rw [bytesField]
  split_ifs
  · rfl
  · exact length_delimited h data

end Lengths

end Proto3
