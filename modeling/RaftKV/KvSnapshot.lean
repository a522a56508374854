import RaftKV.StateMachine

/-!
# Snapshots of the key-value store

`KVStateMachine::ExportSnapshot` writes every key but the marker of the last applied index,
each key and value behind its length in four bytes, after their number in four bytes.
`InstallSnapshot` reads such a string back, and `ReplaceAll` puts the entries in the place of
all other keys in one durable write, after a hook that runs between validation and write.
The lengths are `uint32_t` and `key_len + 4` wraps there; a read past the end of the string,
which C++ leaves undefined, is the error `outOfBounds`.

What is exported is read back (`parseSnapshot_encodeEntries`), a replacement leaves exactly
the new contents and the marker (`Store.replaceAll_db`), and opening the database finds the
marker (`Store.construct_eq`).
-/

namespace RaftKV

/-- Largest value of a `uint32_t`. -/
def uint32Max : ℕ := 2 ^ 32 - 1

/-! ## Export -/

/-- `AppendU32`. -/
def u32 (value : ℕ) : Bytes :=
  beBytes 4 value

/-- `RocksDBStore::ExportEntries`. -/
def Store.exportEntries (s : Store) : List (Bytes × Bytes) :=
  s.db.toList.filter fun e => e.1 ≠ appliedKey

/-- The encoding of one key and its value. -/
def encodeEntry (e : Bytes × Bytes) : Bytes :=
  u32 e.1.length ++ e.1 ++ u32 e.2.length ++ e.2

/-- The number of entries, then the entries. -/
def encodeEntries (entries : List (Bytes × Bytes)) : Bytes :=
  u32 entries.length ++ entries.flatMap encodeEntry

/-- `KVStateMachine::ExportSnapshot`. -/
def Store.exportSnapshot (s : Store) : Except String Bytes :=
  if uint32Max < s.exportEntries.length then .error "KV snapshot has too many keys"
  else if s.exportEntries.any fun e => uint32Max < e.1.length ∨ uint32Max < e.2.length then
    .error "KV snapshot entry too large"
  else .ok (encodeEntries s.exportEntries)

/-! ## Install -/

/-- A read past the end of the snapshot, undefined in C++. -/
def outOfBounds : String := "read past the end of the snapshot"

/-- `ReadU32` at an offset. -/
def readU32 (bytes : Bytes) (offset : ℕ) : Except String ℕ :=
  if offset + 4 ≤ bytes.length then .ok (beNat ((bytes.drop offset).take 4))
  else .error outOfBounds

/-- The loop of `KVStateMachine::InstallSnapshot` : `count` entries from an offset, and the
offset after them. -/
def parseEntries (bytes : Bytes) : ℕ → ℕ → Except String (List (Bytes × Bytes) × ℕ)
  | 0, offset => .ok ([], offset)
  | count + 1, offset => do
    if bytes.length - offset < 4 then throw "truncated KV snapshot"
    let keyLen ← readU32 bytes offset
    let offset := offset + 4
    if bytes.length - offset < (keyLen + 4) % 2 ^ 32 then throw "truncated KV snapshot"
    let key := (bytes.drop offset).take keyLen
    let offset := offset + keyLen
    let valueLen ← readU32 bytes offset
    let offset := offset + 4
    if bytes.length - offset < valueLen then throw "truncated KV snapshot"
    let value := (bytes.drop offset).take valueLen
    let (entries, offset) ← parseEntries bytes count (offset + valueLen)
    return ((key, value) :: entries, offset)

/-- The decoder of `KVStateMachine::InstallSnapshot`. -/
def parseSnapshot (bytes : Bytes) : Except String (List (Bytes × Bytes)) := do
  if bytes.length < 4 then throw "truncated KV snapshot"
  let count ← readU32 bytes 0
  let (entries, offset) ← parseEntries bytes count 4
  if offset ≠ bytes.length then throw "KV snapshot has trailing bytes"
  return entries

/-- The write batch `RocksDBStore::ReplaceAll` builds before it calls `after_validation`. -/
def Store.replaceBatch (s : Store) (index : ℤ) (entries : List (Bytes × Bytes)) :
    Except String (List BatchOp) :=
  if index < s.lastApplied then .error "KV snapshot would move backwards"
  else if entries.any fun e => e.1 = appliedKey then .error "KV snapshot contains lastApplied"
  else .ok ((s.exportEntries.map fun e => .delete e.1) ++ (entries.map fun e => .put e.1 e.2) ++
    [.put appliedKey (encodeApplied index)])

/-- The durable write of `RocksDBStore::ReplaceAll`. -/
def Store.replaceAll (s : Store) (index : ℤ) (batch : List BatchOp) : Store :=
  ⟨s.db.write batch, index⟩

/-- `KVStateMachine::InstallSnapshot` without a callback. -/
def Store.installSnapshot (s : Store) (index : ℤ) (bytes : Bytes) : Except String Store := do
  let entries ← parseSnapshot bytes
  let batch ← s.replaceBatch index entries
  return s.replaceAll index batch

/-- The constructor of `RocksDBStore` on a database. -/
def Store.construct (db : DB) : Except String Store :=
  match db[appliedKey]? with
  | none =>
    if db.isEmpty then .ok ⟨db, 0⟩
    else .error ("legacy KV database has no lastApplied marker; " ++
      "preserve it and use a fresh paired KV/log path")
  | some value =>
    if value.length ≠ 8 then .error "corrupt lastApplied marker"
    else if int64Max < beNat value then .error "invalid lastApplied"
    else .ok ⟨db, beNat value⟩

/-! ## Round trip of the encoding -/

theorem length_u32 (v : ℕ) : (u32 v).length = 4 :=
  length_beBytes 4 v

theorem readU32_append (pre post : Bytes) {v : ℕ} (hv : v ≤ uint32Max) :
    readU32 (pre ++ u32 v ++ post) pre.length = .ok v := by
  have hlt : v < 256 ^ 4 := by
    simp only [uint32Max] at hv
    omega
  have hdrop : (pre ++ u32 v ++ post).drop pre.length = u32 v ++ post := by
    rw [List.append_assoc, List.drop_left]
  have htake : (u32 v ++ post).take 4 = u32 v := List.take_left' (length_u32 v)
  rw [readU32, if_pos (by simp [length_u32]), hdrop, htake, u32, beNat_beBytes hlt]

theorem length_encodeEntry (e : Bytes × Bytes) :
    (encodeEntry e).length = 8 + e.1.length + e.2.length := by
  simp [encodeEntry, length_u32]
  omega

theorem encodeEntry_key (pre post : Bytes) (e : Bytes × Bytes) : pre ++ encodeEntry e ++ post =
      pre ++ u32 e.1.length ++ (e.1 ++ u32 e.2.length ++ e.2 ++ post) := by
  simp [encodeEntry]

theorem encodeEntry_value (pre post : Bytes) (e : Bytes × Bytes) : pre ++ encodeEntry e ++ post =
      (pre ++ u32 e.1.length ++ e.1) ++ u32 e.2.length ++ (e.2 ++ post) := by
  simp [encodeEntry]

theorem readU32_key {pre post : Bytes} {e : Bytes × Bytes} (h : e.1.length ≤ uint32Max) :
    readU32 (pre ++ encodeEntry e ++ post) pre.length = .ok e.1.length := by
  rw [encodeEntry_key]
  exact readU32_append _ _ h

theorem readU32_value {pre post : Bytes} {e : Bytes × Bytes} (h : e.2.length ≤ uint32Max) :
    readU32 (pre ++ encodeEntry e ++ post) (pre.length + 4 + e.1.length) = .ok e.2.length := by
  have hread := readU32_append (pre ++ u32 e.1.length ++ e.1) (e.2 ++ post) h
  rw [encodeEntry_value]
  simpa [length_u32, Nat.add_assoc] using hread

theorem length_append_encodeEntry (pre post : Bytes) (e : Bytes × Bytes) :
    (pre ++ encodeEntry e ++ post).length =
      pre.length + (8 + e.1.length + e.2.length) + post.length := by
  simp [length_encodeEntry]
  omega

/-- The lengths of a key and its value fit their fields. -/
def EntryFits (e : Bytes × Bytes) : Prop :=
  e.1.length ≤ uint32Max ∧ e.2.length ≤ uint32Max

theorem entryFits_of_length {pre post : Bytes} {e : Bytes × Bytes}
    (h : (pre ++ encodeEntry e ++ post).length ≤ uint32Max) : EntryFits e := by
  have hsum := length_append_encodeEntry pre post e
  exact ⟨by omega, by omega⟩

/-- Reading one entry and then the rest. The sum `key_len + 4` may wrap : the entry is all there,
and the check is only weaker. -/
theorem parseEntries_cons {pre post : Bytes} {e : Bytes × Bytes} {count : ℕ} (hfits : EntryFits e) :
    parseEntries (pre ++ encodeEntry e ++ post) (count + 1) pre.length = (do
      let (entries, offset) ← parseEntries (pre ++ encodeEntry e ++ post) count
        (pre ++ encodeEntry e).length
      return (e :: entries, offset)) := by
  have hsum := length_append_encodeEntry pre post e
  have hk : readU32 (pre ++ encodeEntry e ++ post) pre.length = .ok e.1.length :=
    readU32_key hfits.1
  have hv : readU32 (pre ++ encodeEntry e ++ post) (pre.length + 4 + e.1.length) =
      .ok e.2.length := readU32_value hfits.2
  have hkey : ((pre ++ encodeEntry e ++ post).drop (pre.length + 4)).take e.1.length = e.1 := by
    have hpre : pre.length + 4 = (pre ++ u32 e.1.length).length := by simp [length_u32]
    rw [encodeEntry_key, hpre, List.drop_left, List.append_assoc, List.append_assoc,
      List.take_left]
  have hval : ((pre ++ encodeEntry e ++ post).drop (pre.length + 4 + e.1.length + 4)).take
      e.2.length = e.2 := by
    have hpre : pre.length + 4 + e.1.length + 4 =
        (pre ++ u32 e.1.length ++ e.1 ++ u32 e.2.length).length := by
      simp [length_u32]
      omega
    rw [encodeEntry_value, hpre, List.drop_left, List.take_left]
  have hwrap : (e.1.length + 4) % 2 ^ 32 ≤ e.1.length + 4 := Nat.mod_le _ _
  rw [parseEntries, if_neg (by omega)]
  simp only [hk, hv, hkey, hval, bind, Except.bind, pure, Except.pure]
  rw [if_neg (by omega), if_neg (by omega)]
  have hoff : pre.length + 4 + e.1.length + 4 + e.2.length = (pre ++ encodeEntry e).length := by
    simp [length_encodeEntry]
    omega
  rw [hoff]

theorem parseEntries_flatMap {entries : List (Bytes × Bytes)} (hfits : ∀ e ∈ entries, EntryFits e)
    (pre : Bytes) : parseEntries (pre ++ entries.flatMap encodeEntry) entries.length pre.length =
      .ok (entries, (pre ++ entries.flatMap encodeEntry).length) := by
  induction entries generalizing pre with
  | nil => simp [parseEntries]
  | cons e entries ih =>
    have hcat : pre ++ (e :: entries).flatMap encodeEntry =
        (pre ++ encodeEntry e) ++ entries.flatMap encodeEntry := by simp
    rw [hcat, List.length_cons, parseEntries_cons (hfits e List.mem_cons_self),
      ih fun e' he' => hfits e' (List.mem_cons_of_mem _ he')]
    rfl

theorem length_encodeEntries (entries : List (Bytes × Bytes)) :
    (encodeEntries entries).length = 4 + (entries.flatMap encodeEntry).length := by
  simp [encodeEntries, length_u32]

theorem length_le_flatMap (entries : List (Bytes × Bytes)) :
    entries.length ≤ (entries.flatMap encodeEntry).length := by
  rw [List.length_flatMap]
  have hpos : ∀ x ∈ entries.map fun e => (encodeEntry e).length, 1 ≤ x := by
    simp [length_encodeEntry]
    omega
  simpa using List.card_nsmul_le_sum _ 1 hpos

/-- What `ExportSnapshot` checks : counts and lengths fit their fields. -/
structure Exportable (entries : List (Bytes × Bytes)) : Prop where
  count : entries.length ≤ uint32Max
  fits : ∀ e ∈ entries, EntryFits e

/-- Counts and lengths in a short snapshot fit their fields. -/
theorem exportable_of_length {entries : List (Bytes × Bytes)}
    (h : (encodeEntries entries).length ≤ uint32Max) : Exportable entries := by
  have hcount := length_le_flatMap entries
  rw [length_encodeEntries] at h
  refine ⟨by omega, fun e he => ?_⟩
  have hle : (encodeEntry e).length ≤ (entries.flatMap encodeEntry).length := by
    rw [List.length_flatMap]
    exact List.le_sum_of_mem (List.mem_map_of_mem he)
  rw [length_encodeEntry] at hle
  exact ⟨by omega, by omega⟩

/-- **What is exported is read back.** -/
theorem parseSnapshot_encodeEntries {entries : List (Bytes × Bytes)} (h : Exportable entries) :
    parseSnapshot (encodeEntries entries) = .ok entries := by
  have hsize := length_encodeEntries entries
  have hread : readU32 (encodeEntries entries) 0 = .ok entries.length :=
    readU32_append [] _ h.count
  have hparse := parseEntries_flatMap h.fits (u32 entries.length)
  rw [length_u32] at hparse
  rw [parseSnapshot, if_neg (by omega)]
  simp only [hread, bind, Except.bind, pure, Except.pure]
  rw [show encodeEntries entries = u32 entries.length ++ entries.flatMap encodeEntry from rfl,
    hparse]
  simp

/-! ## Contents and marker -/

/-- An export succeeds if counts and lengths fit, with the encoding of the entries. -/
theorem Store.exportSnapshot_ok_iff {s : Store} {bytes : Bytes} : s.exportSnapshot = .ok bytes ↔
      Exportable s.exportEntries ∧ bytes = encodeEntries s.exportEntries := by
  have hany : (s.exportEntries.any fun e => uint32Max < e.1.length ∨ uint32Max < e.2.length) ↔
      ¬∀ e ∈ s.exportEntries, EntryFits e := by
    simp only [List.any_eq_true, decide_eq_true_eq, EntryFits, not_forall, not_and_or, not_le,
      exists_prop]
  rw [Store.exportSnapshot]
  constructor
  · intro h
    split_ifs at h with hcount hfits
    rw [hany, not_not] at hfits
    exact ⟨⟨not_lt.mp hcount, hfits⟩, (Except.ok.inj h).symm⟩
  · rintro ⟨hexp, rfl⟩
    rw [if_neg (not_lt.mpr hexp.count), if_neg (hany.not.mpr (not_not.mpr hexp.fits))]

theorem Store.exportSnapshot_ok {s : Store} {bytes : Bytes} (h : s.exportSnapshot = .ok bytes) :
    bytes = encodeEntries s.exportEntries :=
  (Store.exportSnapshot_ok_iff.mp h).2

/-- The marker does not show in an export. -/
theorem Store.exportEntries_marker {d : DB} (hd : d[appliedKey]? = none) (m : Bytes) (k : ℤ) :
    (Store.mk (d.insert appliedKey m) k).exportEntries = d.toList := by
  refine eq_of_increasing ((DB.toList_increasing _).filter _) (DB.toList_increasing d) ?_
  intro p
  obtain ⟨key, value⟩ := p
  have hne : d[key]? = some value → key ≠ appliedKey := by
    rintro h rfl
    rw [hd] at h
    cases h
  simp only [Store.exportEntries, List.mem_filter, DB.mem_toList_iff, DB.getElem?_insert_eq,
    decide_eq_true_eq]
  constructor
  · rintro ⟨h, hkey⟩
    rwa [if_neg (Ne.symm hkey)] at h
  · intro h
    exact ⟨by rwa [if_neg (Ne.symm (hne h))], hne h⟩

/-- An export is the database without its marker. -/
theorem Store.exportEntries_eq (s : Store) :
    s.exportEntries = (s.db.erase appliedKey : DB).toList := by
  refine eq_of_increasing ((DB.toList_increasing _).filter _) (DB.toList_increasing _) ?_
  rintro ⟨key, value⟩
  simp only [Store.exportEntries, List.mem_filter, DB.mem_toList_iff, DB.getElem?_erase_eq,
    decide_eq_true_eq]
  split_ifs with h
  · simp [h]
  · simp [Ne.symm h]

theorem Store.exportEntries_empty (k : ℤ) : (Store.mk ∅ k).exportEntries = [] := by
  simp [Store.exportEntries]

theorem DB.getElem?_write_puts (db d : DB) (a : Bytes) :
    (db.write (d.toList.map fun e => .put e.1 e.2))[a]? = (d[a]?).or db[a]? := by
  have key : ∀ (l : List (Bytes × Bytes)) (db : DB),
      (l.Pairwise fun x y => compare x.1 y.1 = .lt) →
      (∀ v, (a, v) ∈ l → (db.write (l.map fun e => .put e.1 e.2))[a]? = some v) ∧
        ((∀ v, (a, v) ∉ l) → (db.write (l.map fun e => .put e.1 e.2))[a]? = db[a]?) := by
    intro l
    induction l with
    | nil => intro db _; simp
    | cons e l ih =>
      intro db hl
      obtain ⟨hhead, htail⟩ := List.pairwise_cons.mp hl
      obtain ⟨hin, hout⟩ := ih (db.insert e.1 e.2) htail
      refine ⟨?_, ?_⟩
      · intro v hv
        rcases List.mem_cons.mp hv with rfl | hv
        · have hfresh : ∀ w, (a, w) ∉ l := by
            intro w hw
            have := hhead _ hw
            simp [Std.ReflCmp.compare_self] at this
          simpa [DB.apply] using hout hfresh
        · exact hin v hv
      · intro hv
        have hne : e.1 ≠ a := by
          rintro rfl
          exact hv e.2 List.mem_cons_self
        have := hout fun v hmem => hv v (List.mem_cons_of_mem _ hmem)
        simpa [DB.apply, hne] using this
  obtain ⟨hin, hout⟩ := key d.toList db (DB.toList_increasing d)
  cases hd : d[a]? with
  | some v => simpa using hin v ((DB.mem_toList_iff d a v).mpr hd)
  | none =>
    simpa using hout fun v hv => by
      rw [DB.mem_toList_iff, hd] at hv
      cases hv

/-- A validated replacement by the entries of `d` leaves `d` and the marker. -/
theorem Store.replaceAll_db {s : Store} {d : DB} {index : ℤ} {batch : List BatchOp}
    (h : s.replaceBatch index d.toList = .ok batch) :
    s.replaceAll index batch = ⟨d.insert appliedKey (encodeApplied index), index⟩ := by
  rw [Store.replaceBatch] at h
  split_ifs at h
  obtain rfl := Except.ok.inj h
  rw [Store.replaceAll, Store.mk.injEq]
  refine ⟨Std.ExtTreeMap.ext_getElem? fun a => ?_, rfl⟩
  rw [DB.write_append, DB.write_append]
  simp only [DB.write_cons, DB.write_nil, DB.getElem?_apply, DB.getElem?_insert_eq,
    DB.getElem?_write_puts]
  split_ifs with ha
  · rfl
  have hdel := DB.getElem?_write_deletes s.db (s.exportEntries.map Prod.fst) a
  rw [List.map_map] at hdel
  rw [show (fun e : Bytes × Bytes => BatchOp.delete e.1) = BatchOp.delete ∘ Prod.fst from rfl, hdel]
  have hnone : (if a ∈ s.exportEntries.map Prod.fst then none else s.db[a]?) = none := by
    split_ifs with hmem
    · rfl
    cases hs : s.db[a]? with
    | none => rfl
    | some v =>
      refine absurd (List.mem_map.mpr ⟨(a, v), List.mem_filter.mpr ⟨?_, ?_⟩, rfl⟩) hmem
      · exact (DB.mem_toList_iff _ _ _).mpr hs
      · simpa using Ne.symm ha
  rw [hnone, Option.or_none]

/-- The entries of a database without a marker pass the validation of a replacement. -/
theorem Store.replaceBatch_ok {s : Store} {d : DB} {index : ℤ} (hd : d[appliedKey]? = none)
    (hindex : s.lastApplied ≤ index) : ∃ batch, s.replaceBatch index d.toList = .ok batch := by
  have hany : ¬(d.toList.any fun e => e.1 = appliedKey) := by
    simp only [List.any_eq_true, decide_eq_true_eq, not_exists, not_and]
    rintro ⟨key, value⟩ hmem rfl
    rw [DB.mem_toList_iff, hd] at hmem
    cases hmem
  rw [Store.replaceBatch, if_neg (by omega), if_neg hany]
  exact ⟨_, rfl⟩

theorem beNat_encodeApplied {index : ℤ} (h0 : 0 ≤ index) (hmax : index ≤ int64Max) :
    (beNat (encodeApplied index) : ℤ) = index := by
  have hlt : (index % 2 ^ 64).toNat < 256 ^ 8 := by
    simp only [int64Max] at hmax
    omega
  rw [encodeApplied, beNat_beBytes hlt]
  simp only [int64Max] at hmax
  omega

/-- The marker of a database is the index that was applied last, and there is none before
the first. -/
def Store.Marked (s : Store) : Prop :=
  0 ≤ s.lastApplied ∧ s.lastApplied ≤ int64Max ∧
    s.db[appliedKey]? = if s.lastApplied = 0 then none else some (encodeApplied s.lastApplied)

theorem Store.construct_ok {s s' : Store} (hm : s.Marked) (h : Store.construct s.db = .ok s') :
    s' = s := by
  obtain ⟨h0, hmax, hmark⟩ := hm
  rw [Store.construct, hmark] at h
  by_cases hz : s.lastApplied = 0
  · rw [if_pos hz] at h
    simp only at h
    split_ifs at h
    rw [← Except.ok.inj h, ← hz]
  rw [if_neg hz] at h
  simp only at h
  split_ifs at h
  rw [← Except.ok.inj h, beNat_encodeApplied h0 hmax]

/-- Opening succeeds on the database of a store that is empty or has a marker. -/
theorem Store.construct_eq {s : Store} (hm : s.Marked) (hempty : s.lastApplied = 0 → s.db = ∅) :
    Store.construct s.db = .ok s := by
  obtain ⟨h0, hmax, hmark⟩ := hm
  by_cases hz : s.lastApplied = 0
  · obtain ⟨db, k⟩ := s
    obtain rfl : db = ∅ := hempty hz
    obtain rfl : k = 0 := hz
    rfl
  · rw [Store.construct, hmark, if_neg hz]
    simp only
    rw [if_neg (by simp [encodeApplied]), beNat_encodeApplied h0 hmax, if_neg (by omega)]

end RaftKV
