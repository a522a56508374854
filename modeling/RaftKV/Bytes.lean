import Mathlib

/-!
# Byte strings and an ordered key-value engine

Fixed-width unsigned integers as byte strings, most significant byte first
(`beBytes`, `beNat`) or last (`leBytes`, `leNat`). Reading back what was written
gives the value when it fits its width (`beNat_beBytes`, `leNat_leBytes`), and
big-endian strings of one width are ordered as their values (`compare_beBytes`).

`DB` is an ordered map from byte strings to byte strings. `DB.write` applies a
batch of puts and deletes at once : a batch is atomic because it is one step of the
model. Iteration is `toList`, in key order, and two lists of pairs with increasing
keys and the same members are the same list (`eq_of_increasing`).
-/

namespace RaftKV

/-- Byte strings. -/
abbrev Bytes := List UInt8

-- One constant, so that definitions over `Bytes` need no proof of it of their own.
instance : LawfulBEq Bytes := inferInstance

/-- The bytes of an ASCII literal. -/
def ascii (s : String) : Bytes :=
  s.toList.map fun c => UInt8.ofNat c.toNat

/-! ## Fixed-width integers -/

/-- Largest value of a signed 32-bit integer. -/
def int32Max : ℤ := 2 ^ 31 - 1

/-- The low `w` bytes of `v`, most significant first. -/
def beBytes : ℕ → ℕ → Bytes
  | 0, _ => []
  | w + 1, v => beBytes w (v / 256) ++ [UInt8.ofNat v]

/-- The value of a byte string read most significant byte first. -/
def beNat (b : Bytes) : ℕ :=
  b.foldl (fun acc x => acc * 256 + x.toNat) 0

/-- The low `w` bytes of `v`, least significant first. -/
def leBytes : ℕ → ℕ → Bytes
  | 0, _ => []
  | w + 1, v => UInt8.ofNat v :: leBytes w (v / 256)

/-- The value of a byte string read least significant byte first. -/
def leNat : Bytes → ℕ
  | [] => 0
  | x :: xs => x.toNat + 256 * leNat xs

@[simp] theorem length_beBytes (w v : ℕ) : (beBytes w v).length = w := by
  induction w generalizing v with
  | zero => rfl
  | succ w ih => simp [beBytes, ih]

@[simp] theorem length_leBytes (w v : ℕ) : (leBytes w v).length = w := by
  induction w generalizing v with
  | zero => rfl
  | succ w ih => simp [leBytes, ih]

theorem toNat_ofNat_byte (v : ℕ) : (UInt8.ofNat v).toNat = v % 256 := by
  simp

/-- The last byte is the least significant digit. -/
theorem beNat_append_singleton (b : Bytes) (x : UInt8) :
    beNat (b ++ [x]) = beNat b * 256 + x.toNat := by
  simp [beNat]

/-- A value that fits its width is read back. -/
theorem beNat_beBytes {w v : ℕ} (h : v < 256 ^ w) : beNat (beBytes w v) = v := by
  induction w generalizing v with
  | zero =>
    obtain rfl : v = 0 := by simpa using h
    rfl
  | succ w ih =>
    have hdiv : v / 256 < 256 ^ w := by
      rw [Nat.div_lt_iff_lt_mul (by norm_num)]
      simpa [pow_succ] using h
    rw [beBytes, beNat_append_singleton, ih hdiv, toNat_ofNat_byte]
    omega

/-- What is read is written back. -/
theorem beBytes_beNat (b : Bytes) : beBytes b.length (beNat b) = b := by
  induction b using List.reverseRecOn with
  | nil => rfl
  | append_singleton b x ih =>
    have hdiv : (beNat b * 256 + x.toNat) / 256 = beNat b := by
      have := x.toNat_lt
      omega
    have hlow : UInt8.ofNat (beNat b * 256 + x.toNat) = x := by
      apply UInt8.toNat_inj.mp
      rw [toNat_ofNat_byte]
      have := x.toNat_lt
      omega
    rw [beNat_append_singleton, List.length_append, List.length_singleton, beBytes, hdiv, hlow, ih]

theorem beNat_lt (b : Bytes) : beNat b < 256 ^ b.length := by
  induction b using List.reverseRecOn with
  | nil => decide
  | append_singleton b x ih =>
    have := x.toNat_lt
    rw [beNat_append_singleton, List.length_append, List.length_singleton, pow_succ]
    omega

/-- A value that fits its width is read back. -/
theorem leNat_leBytes {w v : ℕ} (h : v < 256 ^ w) : leNat (leBytes w v) = v := by
  induction w generalizing v with
  | zero =>
    obtain rfl : v = 0 := by simpa using h
    rfl
  | succ w ih =>
    have hdiv : v / 256 < 256 ^ w := by
      rw [Nat.div_lt_iff_lt_mul (by norm_num)]
      simpa [pow_succ] using h
    rw [leBytes, leNat, ih hdiv, toNat_ofNat_byte]
    omega

theorem beBytes_inj {w a b : ℕ} (ha : a < 256 ^ w) (hb : b < 256 ^ w)
    (h : beBytes w a = beBytes w b) : a = b := by
  rw [← beNat_beBytes ha, h, beNat_beBytes hb]

/-- Strings of one length are compared by their fronts, then by their last bytes. -/
theorem compare_append_singleton {a b : Bytes} (hlen : a.length = b.length) (x y : UInt8) :
    compare (a ++ [x]) (b ++ [y]) = (compare a b).then (compare x y) := by
  induction a generalizing b with
  | nil =>
    obtain rfl : b = [] := List.length_eq_zero_iff.mp hlen.symm
    simp only [List.nil_append, List.compare_cons_cons, List.compare_nil_nil]
    cases compare x y <;> rfl
  | cons c a ih =>
    cases b with
    | nil => simp at hlen
    | cons d b =>
      rw [List.cons_append, List.cons_append, List.compare_cons_cons, List.compare_cons_cons,
        ih (by simpa using hlen)]
      cases compare c d <;> rfl

/-- Big-endian strings of one width are ordered as the values they hold. -/
theorem compare_beBytes {w a b : ℕ} (ha : a < 256 ^ w) (hb : b < 256 ^ w) :
    compare (beBytes w a) (beBytes w b) = compare a b := by
  induction w generalizing a b with
  | zero =>
    obtain rfl : a = 0 := by simpa using ha
    obtain rfl : b = 0 := by simpa using hb
    rfl
  | succ w ih =>
    have fits : ∀ {v : ℕ}, v < 256 ^ (w + 1) → v / 256 < 256 ^ w := by
      intro v hv
      rw [Nat.div_lt_iff_lt_mul (by norm_num)]
      simpa [pow_succ] using hv
    have hbyte : compare (UInt8.ofNat a) (UInt8.ofNat b) = compare (a % 256) (b % 256) := by
      rw [← toNat_ofNat_byte a, ← toNat_ofNat_byte b]
      simp only [compare, compareOfLessAndEq, UInt8.lt_iff_toNat_lt, UInt8.toNat_inj]
    rw [beBytes, beBytes, compare_append_singleton (by simp), ih (fits ha) (fits hb), hbyte]
    rcases lt_trichotomy (a / 256) (b / 256) with h | h | h
    · rw [Nat.compare_eq_lt.mpr h, Nat.compare_eq_lt.mpr (by omega : a < b)]
      rfl
    · rw [Nat.compare_eq_eq.mpr h]
      show compare (a % 256) (b % 256) = compare a b
      rcases lt_trichotomy (a % 256) (b % 256) with h' | h' | h'
      · rw [Nat.compare_eq_lt.mpr h', Nat.compare_eq_lt.mpr (by omega : a < b)]
      · rw [Nat.compare_eq_eq.mpr h', Nat.compare_eq_eq.mpr (by omega : a = b)]
      · rw [Nat.compare_eq_gt.mpr h', Nat.compare_eq_gt.mpr (by omega : b < a)]
    · rw [Nat.compare_eq_gt.mpr h, Nat.compare_eq_gt.mpr (by omega : b < a)]
      rfl

/-- The difference of two values of `size_t`. -/
def sizeSub (a b : ℕ) : ℕ :=
  (a + 2 ^ 64 - b) % 2 ^ 64

theorem sizeSub_of_le {a b : ℕ} (h : b ≤ a) (ha : a < 2 ^ 64) : sizeSub a b = a - b := by
  rw [sizeSub]
  omega

/-! ## The engine -/

/-- An ordered store of byte strings. -/
abbrev DB := Std.ExtTreeMap Bytes Bytes compare

/-- One operation of a write batch. -/
inductive BatchOp where
  | put (key value : Bytes)
  | delete (key : Bytes)
  deriving DecidableEq

namespace DB

/-- One operation of a batch. -/
def apply (db : DB) : BatchOp → DB
  | .put k v => db.insert k v
  | .delete k => db.erase k

/-- A whole batch, its operations in order. -/
def write (db : DB) (batch : List BatchOp) : DB :=
  batch.foldl apply db

@[simp] theorem getElem?_insert_eq (db : DB) (k v a : Bytes) :
    (db.insert k v)[a]? = if k = a then some v else db[a]? := by
  rw [Std.ExtTreeMap.getElem?_insert]
  simp only [Std.LawfulEqCmp.compare_eq_iff_eq]

@[simp] theorem getElem?_erase_eq (db : DB) (k a : Bytes) :
    (db.erase k)[a]? = if k = a then none else db[a]? := by
  rw [Std.ExtTreeMap.getElem?_erase]
  simp only [Std.LawfulEqCmp.compare_eq_iff_eq]

@[simp] theorem write_nil (db : DB) : db.write [] = db := rfl

@[simp] theorem write_cons (db : DB) (op : BatchOp) (batch : List BatchOp) :
    db.write (op :: batch) = (db.apply op).write batch := rfl

theorem write_append (db : DB) (b c : List BatchOp) : db.write (b ++ c) = (db.write b).write c := by
  simp [write]

/-- What a batch leaves at a key : the last operation on it, or the old value. -/
theorem getElem?_apply (db : DB) (op : BatchOp) (a : Bytes) :
    (db.apply op)[a]? = match op with
      | .put k v => if k = a then some v else db[a]?
      | .delete k => if k = a then none else db[a]? := by
  cases op <;> simp [apply]

/-- The key an operation touches. -/
def opKey : BatchOp → Bytes
  | .put k _ => k
  | .delete k => k

theorem getElem?_write_of_ne (db : DB) {batch : List BatchOp} {a : Bytes}
    (h : ∀ op ∈ batch, opKey op ≠ a) : (db.write batch)[a]? = db[a]? := by
  induction batch generalizing db with
  | nil => rfl
  | cons op batch ih =>
    rw [write_cons, ih _ fun o ho => h o (List.mem_cons_of_mem _ ho), getElem?_apply]
    have hop := h op List.mem_cons_self
    cases op <;> simp_all [opKey]

theorem getElem?_write_deletes (db : DB) (keys : List Bytes) (a : Bytes) :
    (db.write (keys.map .delete))[a]? = if a ∈ keys then none else db[a]? := by
  induction keys generalizing db with
  | nil => simp
  | cons k keys ih =>
    rw [List.map_cons, write_cons, ih, getElem?_apply]
    by_cases hk : k = a
    · simp [hk]
    · simp [hk, Ne.symm hk]

theorem mem_toList_iff (db : DB) (k v : Bytes) : (k, v) ∈ db.toList ↔ db[k]? = some v :=
  Std.ExtTreeMap.mem_toList_iff_getElem?_eq_some

theorem toList_increasing (db : DB) : db.toList.Pairwise fun a b => compare a.1 b.1 = .lt :=
  Std.ExtTreeMap.ordered_keys_toList

end DB

/-- Two lists with increasing keys and the same members are equal. -/
theorem eq_of_increasing {l₁ l₂ : List (Bytes × Bytes)}
    (h₁ : l₁.Pairwise fun a b => compare a.1 b.1 = .lt)
    (h₂ : l₂.Pairwise fun a b => compare a.1 b.1 = .lt) (h : ∀ p, p ∈ l₁ ↔ p ∈ l₂) : l₁ = l₂ := by
  have irrefl : ∀ a : Bytes × Bytes, compare a.1 a.1 ≠ .lt := fun a => by
    simp [Std.ReflCmp.compare_self]
  have nodup : ∀ {l : List (Bytes × Bytes)},
      l.Pairwise (fun a b => compare a.1 b.1 = .lt) → l.Nodup :=
    fun hl => hl.imp fun {a b} hab hne => by
      subst hne
      exact irrefl a hab
  refine ((List.perm_ext_iff_of_nodup (nodup h₁) (nodup h₂)).mpr h).eq_of_pairwise
    (fun a b _ _ hab hba => ?_) h₁ h₂
  have := Std.OrientedCmp.gt_of_lt hab
  rw [this] at hba
  cases hba

end RaftKV
