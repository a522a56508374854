import RaftKV.Node.Handlers

/-!
# The snapshot decoder

`KVStateMachine::InstallSnapshot` walks over a string that came from the network or from disk,
with `uint32_t` lengths and `size_t` offsets. `EntryTurn` says what a turn of its loop can find in
the bytes that are left. The check of a key length adds 4 to it as a `uint32_t`, so a length
of 2^32 - 4 or more passes, and the next length is read past the end of the string
(`Wraps`). On all other strings every read stays inside, what is accepted is exactly an
encoding, and what is rejected has changed nothing, neither the store nor the install intent.
-/

namespace RaftKV

/-! ## The reads of the decoder -/

/-- A read of the decoder : a length of four bytes at an offset, or a substring from an offset
on, which `std::string` ends with the string. -/
inductive Read where
  | length (offset : ℕ)
  | substring (offset : ℕ)

/-- A read stays inside the string. -/
def Read.Inside (bytes : Bytes) : Read → Prop
  | .length offset => offset + 4 ≤ bytes.length
  | .substring offset => offset ≤ bytes.length

instance (bytes : Bytes) (r : Read) : Decidable (r.Inside bytes) :=
  match r with
  | .length _ => inferInstanceAs (Decidable (_ ≤ _))
  | .substring _ => inferInstanceAs (Decidable (_ ≤ _))

/-- The reads of the loop of `KVStateMachine::InstallSnapshot`, up to the first that is not inside
the string. -/
def entryReads (bytes : Bytes) : ℕ → ℕ → List Read
  | 0, _ => []
  | count + 1, offset =>
    if sizeSub bytes.length offset < 4 then []
    else .length offset :: match readU32 bytes offset with
      | .error _ => []
      | .ok keyLen =>
        if sizeSub bytes.length (offset + 4) < (keyLen + 4) % 2 ^ 32 then []
        else .substring (offset + 4) :: .length (offset + 4 + keyLen) ::
          match readU32 bytes (offset + 4 + keyLen) with
          | .error _ => []
          | .ok valueLen =>
            if sizeSub bytes.length (offset + 4 + keyLen + 4) < valueLen then []
            else .substring (offset + 4 + keyLen + 4) ::
              entryReads bytes count (offset + 4 + keyLen + 4 + valueLen)

/-- The reads of the decoder of `KVStateMachine::InstallSnapshot`. -/
def snapshotReads (bytes : Bytes) : List Read :=
  if bytes.length < 4 then []
  else .length 0 :: match readU32 bytes 0 with
    | .error _ => []
    | .ok count => entryReads bytes count 4

/-! ## One turn -/

variable {bytes : Bytes}

theorem exists_u32 (h : 4 ≤ bytes.length) : ∃ k rest, bytes = u32 k ++ rest ∧ k ≤ uint32Max := by
  have hlen : (bytes.take 4).length = 4 := List.length_take_of_le h
  have hk : u32 (beNat (bytes.take 4)) = bytes.take 4 := by
    have := beBytes_beNat (bytes.take 4)
    rwa [hlen] at this
  have hlt := beNat_lt (bytes.take 4)
  rw [hlen] at hlt
  refine ⟨beNat (bytes.take 4), bytes.drop 4, ?_, ?_⟩
  · rw [hk, List.take_append_drop]
  · rw [uint32Max]
    omega

section Turns

variable {pre tail : Bytes} {count : ℕ}

/-- The reads of a turn that finds an entry are inside, and the loop goes on after it. -/
theorem entryReads_entry {e : Bytes × Bytes} {rest : Bytes}
    (hlen : (pre ++ encodeEntry e ++ rest).length ≤ kMaxSnapshotBytes) :
    (∀ r ∈ entryReads (pre ++ encodeEntry e ++ rest) (count + 1) pre.length,
      r.Inside (pre ++ encodeEntry e ++ rest)) ↔
    ∀ r ∈ entryReads (pre ++ encodeEntry e ++ rest) count (pre ++ encodeEntry e).length,
      r.Inside (pre ++ encodeEntry e ++ rest) := by
  have hsize := length_append_encodeEntry pre rest e
  simp only [kMaxSnapshotBytes] at hlen
  have hmax : uint32Max = 2 ^ 32 - 1 := rfl
  have hmod : (e.1.length + 4) % 2 ^ 32 = e.1.length + 4 := by omega
  have hoff : pre.length + 4 + e.1.length + 4 + e.2.length = (pre ++ encodeEntry e).length := by
    simp [length_encodeEntry]
    omega
  rw [entryReads, sizeSub_of_le (by omega) (by omega), if_neg (by omega), readU32_key (by omega)]
  dsimp only
  rw [sizeSub_of_le (by omega) (by omega), hmod, if_neg (by omega), readU32_value (by omega)]
  dsimp only
  rw [sizeSub_of_le (by omega) (by omega), if_neg (by omega), hoff]
  simp only [List.forall_mem_cons, Read.Inside]
  constructor
  · exact fun h => h.2.2.2.2
  · exact fun h => ⟨by omega, by omega, by omega, by omega, h⟩

/-- A key length that wraps is followed by a read past the end. -/
theorem parseEntries_wraps {k : ℕ} {rest : Bytes} (hk : 2 ^ 32 - 4 ≤ k) (hmax : k ≤ uint32Max)
    (hrest : k + 4 - 2 ^ 32 ≤ rest.length)
    (hlen : (pre ++ u32 k ++ rest).length ≤ kMaxSnapshotBytes) :
    parseEntries (pre ++ u32 k ++ rest) (count + 1) pre.length = .error outOfBounds ∧
      .length (pre.length + 4 + k) ∈ entryReads (pre ++ u32 k ++ rest) (count + 1) pre.length := by
  have hread := readU32_append pre rest hmax
  have hsize : (pre ++ u32 k ++ rest).length = pre.length + 4 + rest.length := by
    rw [List.length_append, List.length_append, length_u32]
  simp only [kMaxSnapshotBytes] at hlen
  have hmod : (k + 4) % 2 ^ 32 = k + 4 - 2 ^ 32 := by
    simp only [uint32Max] at hmax
    omega
  have hout : readU32 (pre ++ u32 k ++ rest) (pre.length + 4 + k) = .error outOfBounds := by
    rw [readU32, if_neg (by omega)]
  constructor
  · rw [parseEntries, if_neg (by omega)]
    simp only [hread, hout, hmod, bind, Except.bind]
    rw [if_neg (by omega)]
  rw [entryReads, sizeSub_of_le (by omega) (by omega), sizeSub_of_le (by omega) (by omega),
    if_neg (by omega), hread]
  dsimp only
  rw [hmod, if_neg (by omega)]
  simp

/-- A turn that finds too few bytes rejects the string, and has read inside it. -/
structure Rejects (bytes : Bytes) (count offset : ℕ) : Prop where
  parse : parseEntries bytes (count + 1) offset = .error "truncated KV snapshot"
  reads : ∀ r ∈ entryReads bytes (count + 1) offset, r.Inside bytes

theorem rejects_noKey (hlen : (pre ++ tail).length ≤ kMaxSnapshotBytes) (h : tail.length < 4) :
    Rejects (pre ++ tail) count pre.length := by
  have hsize : (pre ++ tail).length = pre.length + tail.length := List.length_append
  simp only [kMaxSnapshotBytes] at hlen
  constructor
  · rw [parseEntries, if_pos (by omega)]
    rfl
  · rw [entryReads, sizeSub_of_le (by omega) (by omega), if_pos (by omega)]
    exact fun r hr => absurd hr List.not_mem_nil

theorem rejects_shortKey {k : ℕ} {rest : Bytes} (hmax : k ≤ uint32Max)
    (hlen : (pre ++ u32 k ++ rest).length ≤ kMaxSnapshotBytes)
    (hrest : rest.length < (k + 4) % 2 ^ 32) : Rejects (pre ++ u32 k ++ rest) count pre.length := by
  have hread := readU32_append pre rest hmax
  have hsize : (pre ++ u32 k ++ rest).length = pre.length + 4 + rest.length := by
    rw [List.length_append, List.length_append, length_u32]
  simp only [kMaxSnapshotBytes] at hlen
  constructor
  · rw [parseEntries, if_neg (by omega)]
    simp only [hread, bind, Except.bind]
    rw [if_pos (by omega)]
    rfl
  rw [entryReads, sizeSub_of_le (by omega) (by omega), if_neg (by omega), hread]
  dsimp only
  rw [sizeSub_of_le (by omega) (by omega), if_pos (by omega)]
  simp only [List.forall_mem_cons, Read.Inside]
  exact ⟨by omega, fun r hr => absurd hr List.not_mem_nil⟩

theorem rejects_shortValue {key rest : Bytes} {v : ℕ} (hmax : v ≤ uint32Max)
    (hlen : (pre ++ (u32 key.length ++ key ++ u32 v ++ rest)).length ≤ kMaxSnapshotBytes)
    (hrest : rest.length < v) :
    Rejects (pre ++ (u32 key.length ++ key ++ u32 v ++ rest)) count pre.length := by
  have hsize : (pre ++ (u32 key.length ++ key ++ u32 v ++ rest)).length =
      pre.length + 4 + key.length + 4 + rest.length := by
    simp only [List.length_append, length_u32]
    omega
  simp only [kMaxSnapshotBytes] at hlen
  have hmax' : uint32Max = 2 ^ 32 - 1 := rfl
  have hkey : readU32 (pre ++ (u32 key.length ++ key ++ u32 v ++ rest)) pre.length =
      .ok key.length := by
    have hread := readU32_append pre (key ++ u32 v ++ rest)
      (show key.length ≤ uint32Max by omega)
    simpa [List.append_assoc] using hread
  have hval : readU32 (pre ++ (u32 key.length ++ key ++ u32 v ++ rest))
      (pre.length + 4 + key.length) = .ok v := by
    have hread := readU32_append (pre ++ u32 key.length ++ key) rest hmax
    simpa [List.append_assoc, length_u32, Nat.add_assoc] using hread
  have hmod : (key.length + 4) % 2 ^ 32 = key.length + 4 := by omega
  constructor
  · rw [parseEntries, if_neg (by omega)]
    simp only [hkey, hval, hmod, bind, Except.bind]
    rw [if_neg (by omega), if_pos (by omega)]
    rfl
  rw [entryReads, sizeSub_of_le (by omega) (by omega), if_neg (by omega), hkey]
  dsimp only
  rw [sizeSub_of_le (by omega) (by omega), hmod, if_neg (by omega), hval]
  dsimp only
  rw [sizeSub_of_le (by omega) (by omega), if_pos (by omega)]
  simp only [List.forall_mem_cons, Read.Inside]
  exact ⟨by omega, by omega, by omega, fun r hr => absurd hr List.not_mem_nil⟩

end Turns

/-- What the bytes that are left when a turn begins look like. -/
inductive EntryTurn (tail : Bytes) : Prop
  | entry (e : Bytes × Bytes) (rest : Bytes) (h : tail = encodeEntry e ++ rest)
  | wraps (k : ℕ) (rest : Bytes) (h : tail = u32 k ++ rest) (hk : 2 ^ 32 - 4 ≤ k)
      (hmax : k ≤ uint32Max) (hrest : k + 4 - 2 ^ 32 ≤ rest.length)
  | short (h : ∀ pre count, (pre ++ tail).length ≤ kMaxSnapshotBytes →
      Rejects (pre ++ tail) count pre.length)

theorem entryTurn_cases {tail : Bytes} (hlen : tail.length ≤ kMaxSnapshotBytes) :
    EntryTurn tail := by
  by_cases h₀ : tail.length < 4
  · exact .short fun pre count hlen => rejects_noKey hlen h₀
  obtain ⟨k, rest, rfl, hk⟩ := exists_u32 (not_lt.mp h₀)
  by_cases h₁ : rest.length < (k + 4) % 2 ^ 32
  · refine .short fun pre count hlen => ?_
    rw [← List.append_assoc] at hlen ⊢
    exact rejects_shortKey hk hlen h₁
  simp only [uint32Max, List.length_append, length_u32, kMaxSnapshotBytes] at hk hlen
  by_cases hwrap : 2 ^ 32 - 4 ≤ k
  · exact .wraps k rest rfl hwrap (by rw [uint32Max]; omega) (by omega)
  -- the key is whole, and a length follows it
  have hkey : (rest.take k).length = k := List.length_take_of_le (by omega)
  have hdrop : 4 ≤ (rest.drop k).length := by
    rw [List.length_drop]
    omega
  obtain ⟨v, rest', hv, hvmax⟩ := exists_u32 hdrop
  have hrest : rest = rest.take k ++ (u32 v ++ rest') := by rw [← hv, List.take_append_drop]
  have htail : u32 k ++ rest = u32 (rest.take k).length ++ rest.take k ++ u32 v ++ rest' := by
    rw [hkey, List.append_assoc, List.append_assoc, ← hrest]
  by_cases h₂ : rest'.length < v
  · rw [htail]
    exact .short fun pre count hlen => rejects_shortValue hvmax hlen h₂
  · have hval : (rest'.take v).length = v := List.length_take_of_le (not_lt.mp h₂)
    refine .entry (rest.take k, rest'.take v) (rest'.drop v) ?_
    rw [htail, encodeEntry, hval, List.append_assoc _ (rest'.take v), List.take_append_drop]

/-! ## The loop -/

/-- Among the next `count` entries is one whose key length wraps, and the bytes before it are
entries. -/
def WrapsIn (count : ℕ) (tail : Bytes) : Prop :=
  ∃ (entries : List (Bytes × Bytes)) (k : ℕ) (rest : Bytes), tail = entries.flatMap encodeEntry ++
      (u32 k ++ rest) ∧
    entries.length < count ∧ 2 ^ 32 - 4 ≤ k ∧ k ≤ uint32Max ∧ k + 4 - 2 ^ 32 ≤ rest.length

theorem WrapsIn.cons {count : ℕ} {tail : Bytes} (h : WrapsIn count tail) (e : Bytes × Bytes) :
    WrapsIn (count + 1) (encodeEntry e ++ tail) := by
  obtain ⟨entries, k, rest, rfl, hcount, hk⟩ := h
  exact ⟨e :: entries, k, rest, by simp, by simpa using hcount, hk⟩

/-- What the loop makes of the bytes that are left : entries, a rejection, or a read past the end,
which is its last. -/
inductive LoopOutcome (bytes : Bytes) (count : ℕ) (pre tail : Bytes) : Prop
  | ok (entries : List (Bytes × Bytes)) (rest : Bytes) (hcount : entries.length = count)
      (htail : tail = entries.flatMap encodeEntry ++ rest)
      (hparse : parseEntries bytes count pre.length =
        .ok (entries, (pre ++ entries.flatMap encodeEntry).length))
      (hreads : ∀ r ∈ entryReads bytes count pre.length, r.Inside bytes)
  | rejected (hparse : parseEntries bytes count pre.length = .error "truncated KV snapshot")
      (hreads : ∀ r ∈ entryReads bytes count pre.length, r.Inside bytes)
  | outside (hwraps : WrapsIn count tail)
      (hparse : parseEntries bytes count pre.length = .error outOfBounds)
      (hreads : ¬∀ r ∈ entryReads bytes count pre.length, r.Inside bytes)

/-- **The loop of the decoder.** -/
theorem parseEntries_outcome (count : ℕ) (pre tail : Bytes)
    (hlen : (pre ++ tail).length ≤ kMaxSnapshotBytes) :
    LoopOutcome (pre ++ tail) count pre tail := by
  induction count generalizing pre tail with
  | zero => exact .ok [] tail rfl rfl (by simp [parseEntries]) (by simp [entryReads])
  | succ count ih =>
    have htail : tail.length ≤ kMaxSnapshotBytes := by
      rw [List.length_append] at hlen
      omega
    rcases entryTurn_cases htail with ⟨e, rest, rfl⟩ | ⟨k, rest, rfl, hk, hmax, hrest⟩ | hshort
    · rw [← List.append_assoc] at hlen ⊢
      have hcons :=
        @parseEntries_cons pre rest e count (entryFits_of_length (hlen.trans (by decide)))
      have hiff := @entryReads_entry pre count e rest hlen
      rcases ih (pre ++ encodeEntry e) rest hlen with
        ⟨entries, rest', hcount, rfl, hparse, hreads⟩ | ⟨hparse, hreads⟩ |
          ⟨hwraps, hparse, hreads⟩
      · refine .ok (e :: entries) rest' (by simpa using hcount) (by simp) ?_ (hiff.mpr hreads)
        rw [hcons, hparse]
        simp [bind, Except.bind, pure, Except.pure]
      · refine .rejected ?_ (hiff.mpr hreads)
        rw [hcons, hparse]
        rfl
      · refine .outside (hwraps.cons e) ?_ fun h => hreads (hiff.mp h)
        rw [hcons, hparse]
        rfl
    · rw [← List.append_assoc] at hlen ⊢
      obtain ⟨hparse, hmem⟩ := @parseEntries_wraps pre count k rest hk hmax hrest hlen
      refine .outside ⟨[], k, rest, by simp, by simp, hk, hmax, hrest⟩ hparse fun hreads => ?_
      have hinside : pre.length + 4 + k + 4 ≤ (pre ++ u32 k ++ rest).length := hreads _ hmem
      simp only [kMaxSnapshotBytes] at hlen
      omega
    · have hrej := hshort pre count hlen
      exact .rejected hrej.parse hrej.reads

/-- A key length that wraps is found behind the entries before it. -/
theorem parseEntries_of_wrapsIn {count : ℕ} {tail : Bytes} (h : WrapsIn count tail) (pre : Bytes)
    (hlen : (pre ++ tail).length ≤ kMaxSnapshotBytes) :
    parseEntries (pre ++ tail) count pre.length = .error outOfBounds := by
  obtain ⟨entries, k, rest, rfl, hcount, hk, hmax, hrest⟩ := h
  induction entries generalizing count pre with
  | nil =>
    obtain ⟨count, rfl⟩ := Nat.exists_eq_succ_of_ne_zero (Nat.pos_iff_ne_zero.mp hcount)
    rw [List.flatMap_nil, List.nil_append, ← List.append_assoc] at hlen ⊢
    exact (parseEntries_wraps hk hmax hrest hlen).1
  | cons e entries ih =>
    obtain ⟨count, rfl⟩ := Nat.exists_eq_succ_of_ne_zero (Nat.ne_of_gt (Nat.zero_lt_of_lt hcount))
    have hcat : pre ++ ((e :: entries).flatMap encodeEntry ++ (u32 k ++ rest)) =
        pre ++ encodeEntry e ++ (entries.flatMap encodeEntry ++ (u32 k ++ rest)) := by simp
    rw [hcat] at hlen ⊢
    rw [parseEntries_cons (entryFits_of_length (hlen.trans (by decide))),
      ih (pre ++ encodeEntry e) hlen (Nat.lt_of_succ_lt_succ hcount)]
    rfl

/-! ## Snapshots -/

/-- One of the entries that the string announces has a key length that wraps. -/
def Wraps (bytes : Bytes) : Prop :=
  ∃ count tail, bytes = u32 count ++ tail ∧ count ≤ uint32Max ∧ WrapsIn count tail

theorem readU32_count (count : ℕ) (tail : Bytes) (h : count ≤ uint32Max) :
    readU32 (u32 count ++ tail) 0 = .ok count :=
  readU32_append [] tail h

theorem parseSnapshot_of_wraps (hlen : bytes.length ≤ kMaxSnapshotBytes)
    (h : Wraps bytes) : parseSnapshot bytes = .error outOfBounds := by
  obtain ⟨count, tail, rfl, hcount, hwraps⟩ := h
  have hparse := parseEntries_of_wrapsIn hwraps (u32 count) hlen
  rw [length_u32] at hparse
  rw [parseSnapshot, if_neg (by simp [length_u32])]
  simp only [readU32_count count tail hcount, hparse, bind, Except.bind]

/-- What the decoder makes of a string. -/
inductive Decoded (bytes : Bytes) : Prop
  | ok (entries : List (Bytes × Bytes)) (h : bytes = encodeEntries entries)
      (hreads : ∀ r ∈ snapshotReads bytes, r.Inside bytes)
  | rejected (text : String) (hparse : parseSnapshot bytes = .error text) (hno : text ≠ outOfBounds)
      (hreads : ∀ r ∈ snapshotReads bytes, r.Inside bytes)
  | outside (hwraps : Wraps bytes) (hreads : ¬∀ r ∈ snapshotReads bytes, r.Inside bytes)

theorem parseSnapshot_decoded (hlen : bytes.length ≤ kMaxSnapshotBytes) : Decoded bytes := by
  by_cases hshort : bytes.length < 4
  · refine .rejected "truncated KV snapshot" ?_ (by decide) ?_
    · rw [parseSnapshot, if_pos hshort]
      rfl
    · rw [snapshotReads, if_pos hshort]
      exact fun r hr => absurd hr List.not_mem_nil
  obtain ⟨count, tail, rfl, hcount⟩ := exists_u32 (not_lt.mp hshort)
  have hread := readU32_count count tail hcount
  have hiff : (∀ r ∈ snapshotReads (u32 count ++ tail), r.Inside (u32 count ++ tail)) ↔
      ∀ r ∈ entryReads (u32 count ++ tail) count 4, r.Inside (u32 count ++ tail) := by
    rw [snapshotReads, if_neg hshort, hread]
    simp only [List.forall_mem_cons, Read.Inside]
    exact and_iff_right (by omega)
  have hparse : ∀ result, parseEntries (u32 count ++ tail) count 4 = result →
      parseSnapshot (u32 count ++ tail) = (do
        let x ← result
        if x.2 ≠ (u32 count ++ tail).length then throw "KV snapshot has trailing bytes"
        return x.1) := by
    rintro result rfl
    rw [parseSnapshot, if_neg hshort]
    simp only [hread, bind, Except.bind]
  have hout := parseEntries_outcome count (u32 count) tail hlen
  rcases hout with ⟨entries, rest, rfl, rfl, hloop, hreads⟩ | ⟨hloop, hreads⟩ |
    ⟨hwraps, hloop, hreads⟩
  all_goals rw [length_u32] at hloop hreads
  · by_cases hrest : rest = []
    · subst hrest
      refine .ok entries ?_ (hiff.mpr hreads)
      rw [List.append_nil, encodeEntries]
    refine .rejected "KV snapshot has trailing bytes" ?_ (by decide) (hiff.mpr hreads)
    have hlong : (u32 entries.length ++ entries.flatMap encodeEntry).length ≠
        (u32 entries.length ++ (entries.flatMap encodeEntry ++ rest)).length := by
      have := List.length_pos_iff.mpr hrest
      simp only [List.length_append]
      omega
    rw [hparse _ hloop]
    simp only [bind, Except.bind]
    rw [if_pos hlong]
    rfl
  · refine .rejected "truncated KV snapshot" ?_ (by decide) (hiff.mpr hreads)
    rw [hparse _ hloop]
    rfl
  · exact .outside ⟨count, tail, rfl, hcount, hwraps⟩ fun h => hreads (hiff.mp h)

/-- **The reads of the decoder stay inside the string** exactly if no key length wraps. -/
theorem snapshotReads_inside_iff (hlen : bytes.length ≤ kMaxSnapshotBytes) :
    (∀ r ∈ snapshotReads bytes, r.Inside bytes) ↔ ¬Wraps bytes := by
  rcases parseSnapshot_decoded hlen with ⟨entries, rfl, hreads⟩ | ⟨text, hparse, hno, hreads⟩ |
    ⟨hwraps, hreads⟩
  · refine iff_of_true hreads fun hwraps => ?_
    have hok := parseSnapshot_encodeEntries (exportable_of_length (hlen.trans (by decide)))
    rw [parseSnapshot_of_wraps hlen hwraps] at hok
    cases hok
  · refine iff_of_true hreads fun hwraps => hno ?_
    rw [parseSnapshot_of_wraps hlen hwraps] at hparse
    exact (Except.error.inj hparse).symm
  · exact iff_of_false hreads (not_not.mpr hwraps)

/-- **What is decoded is exactly an encoding.** -/
theorem parseSnapshot_ok_iff (hlen : bytes.length ≤ kMaxSnapshotBytes)
    (entries : List (Bytes × Bytes)) :
    parseSnapshot bytes = .ok entries ↔ bytes = encodeEntries entries := by
  constructor
  · intro hok
    rcases parseSnapshot_decoded hlen with ⟨entries', rfl, -⟩ | ⟨text, hparse, -, -⟩ | ⟨hwraps, -⟩
    · rw [parseSnapshot_encodeEntries (exportable_of_length (hlen.trans (by decide)))] at hok
      rw [Except.ok.inj hok]
    · cases hok.symm.trans hparse
    · cases hok.symm.trans (parseSnapshot_of_wraps hlen hwraps)
  · rintro rfl
    exact parseSnapshot_encodeEntries (exportable_of_length (hlen.trans (by decide)))

/-! ## Refused snapshots -/

/-- A snapshot is refused : its bytes are no encoding, its index is before what is applied, or it
has the marker among its keys. -/
def Refuses (sm : Store) (index : ℤ) (bytes : Bytes) : Prop :=
  ∀ entries, bytes = encodeEntries entries →
    index < sm.lastApplied ∨ ∃ e ∈ entries, e.1 = appliedKey

theorem Store.replaceBatch_error {sm : Store} {index : ℤ} {entries : List (Bytes × Bytes)}
    (h : index < sm.lastApplied ∨ ∃ e ∈ entries, e.1 = appliedKey) :
    ∃ text, text ≠ outOfBounds ∧ sm.replaceBatch index entries = .error text := by
  rw [Store.replaceBatch]
  by_cases hback : index < sm.lastApplied
  · rw [if_pos hback]
    exact ⟨_, by decide, rfl⟩
  have hmarker : (entries.any fun e => e.1 = appliedKey) = true := by
    simpa using h.resolve_left hback
  rw [if_neg hback, if_pos hmarker]
  exact ⟨_, by decide, rfl⟩

theorem get_bind {α : Type} (f : Context → RaftM α) (c : Context) : (get >>= f) c = f c c :=
  rfl

theorem bind_of_error {α β : Type} {m : RaftM α} {f : α → RaftM β} {c c' : Context} {e : Halt}
    (h : m c = .error e c') : (m >>= f) c = .error e c' := by
  change EStateM.bind m f c = _
  rw [EStateM.bind, h]

/-- A snapshot that the store refuses changes nothing, and what is to run between validation and
write does not run. -/
theorem installStore_refused {c : Context} {index : ℤ}
    {entries : List (Bytes × Bytes)} {text : String} (hparse : parseSnapshot bytes = .ok entries)
    (hbatch : c.sm.replaceBatch index entries = .error text) (afterValidation : RaftM Unit) :
    installStore index bytes afterValidation c = .error (.failure text) c := by
  unfold installStore
  simp only [hparse]
  rw [get_bind, hbatch]
  rfl

/-- A refused snapshot changes nothing, and the install intent is not written. -/
theorem installReceived_refused {c : Context} {s : Snapshot}
    (hlen : s.data.length ≤ kMaxSnapshotBytes) (hno : ¬Wraps s.data)
    (h : Refuses c.sm s.index s.data) :
    ∃ text, text ≠ outOfBounds ∧ installReceived s c = .error (.failure text) c := by
  rcases parseSnapshot_decoded hlen with ⟨entries, hdata, -⟩ | ⟨text, hparse, htext, -⟩ |
    ⟨hwraps, -⟩
  · obtain ⟨text, htext, hbatch⟩ := Store.replaceBatch_error (h entries hdata)
    have hparse := (parseSnapshot_ok_iff hlen entries).mpr hdata
    refine ⟨text, htext, ?_⟩
    rw [installReceived]
    exact bind_of_error (installStore_refused hparse hbatch _)
  · refine ⟨text, htext, ?_⟩
    rw [installReceived, installStore, hparse]
    rfl
  · exact absurd hwraps hno

/-- **The snapshot decoder.** Its reads stay inside the string exactly if no key length wraps; then
it accepts exactly the encodings, and a snapshot that is refused has changed nothing. -/
theorem decoder_safe_iff (bytes : Bytes) (hsize : bytes.length ≤ kMaxSnapshotBytes) :
    ((∀ r ∈ snapshotReads bytes, r.Inside bytes) ↔ ¬Wraps bytes) ∧
      (¬Wraps bytes →
        (∀ entries, parseSnapshot bytes = .ok entries ↔ bytes = encodeEntries entries) ∧
        ∀ (c : Context) (index term : ℤ), Refuses c.sm index bytes →
          ∃ text, text ≠ outOfBounds ∧
            installReceived ⟨index, term, bytes⟩ c = .error (.failure text) c) :=
  ⟨snapshotReads_inside_iff hsize, fun hno =>
    ⟨parseSnapshot_ok_iff hsize, fun _ _ _ hrefused => installReceived_refused hsize hno hrefused⟩⟩

/-- Eight bytes : one entry, with a key of length 2^32 - 4. -/
def overlong : Bytes := [0, 0, 0, 1, 255, 255, 255, 252]

/-- The decoder reads past the end of them. -/
theorem read_outside_overlong : ¬∀ r ∈ snapshotReads overlong, r.Inside overlong := by
  decide +kernel

/-- Two entries, the second with an empty value. -/
def pairEntries : List (Bytes × Bytes) := [([97], [1, 2]), ([98, 99], [])]

/-- Their encoding is read back. With one byte after it, it is refused, whatever the node holds. -/
theorem decoder_safe_iff_pair :
    parseSnapshot (encodeEntries pairEntries) = .ok pairEntries ∧
      ∀ (c : Context) (index term : ℤ), ∃ text, text ≠ outOfBounds ∧
        installReceived ⟨index, term, encodeEntries pairEntries ++ [7]⟩ c =
          .error (.failure text) c := by
  have hpair := decoder_safe_iff (encodeEntries pairEntries) (by decide)
  have hpair_no := hpair.1.mp (by decide +kernel)
  have hlonger := decoder_safe_iff (encodeEntries pairEntries ++ [7]) (by decide)
  have hlonger_no := hlonger.1.mp (by decide +kernel)
  refine ⟨((hpair.2 hpair_no).1 pairEntries).mpr rfl, fun c index term =>
    (hlonger.2 hlonger_no).2 c index term fun entries hentries => ?_⟩
  have hok := ((hlonger.2 hlonger_no).1 entries).mpr hentries
  have herr : (parseSnapshot (encodeEntries pairEntries ++ [7])).isOk = false := by decide +kernel
  rw [hok] at herr
  cases herr

end RaftKV
