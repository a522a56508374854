import RaftKV.RaftLog

/-!
# `RaftLog` refines the abstract log

`Represents codec s a` : the database and the cache of `s` hold the abstract log `a`. Every
call keeps it (`Represents.call`), whether it writes, throws on a check or throws because
the engine refused the write. Reads of `s` then answer from `a`, and the constructor run on
the database of `s` gives `s` again, from the tail record (`Represents.construct`) or, when
that record of a non-empty log is removed, from the full scan
(`Represents.construct_legacy`).

The one exception is a log whose last index is the largest `int64_t` : the loop of
`VerifySuffix` has no next index to stop at, and the constructor throws
(`Represents.construct_overflow`).
-/

namespace RaftKV

namespace RaftLog

/-! ## Records read back -/

theorem toU64_eq {v : ℤ} (h₀ : 0 ≤ v) (h : v ≤ int64Max) : (toU64 v : ℤ) = v := by
  unfold toU64 int64Max at *
  omega

theorem toU64_lt (v : ℤ) : toU64 v < 256 ^ 8 := by
  unfold toU64
  omega

theorem toU32_lt (v : ℤ) : toU32 v < 256 ^ 4 := by
  unfold toU32
  omega

theorem int32Max_le_int64Max : int32Max ≤ int64Max := by decide

@[simp] theorem length_indexToKey (index : ℤ) : (indexToKey index).length = 8 := by
  simp [indexToKey]

@[simp] theorem length_encodeTail (index term : ℤ) : (encodeTail index term).length = 16 := by
  simp [encodeTail]

variable {i last : ℤ} {codec : EntryCodec} {s : RaftLog}

theorem indexToKey_inj {j : ℤ} (hi₀ : 0 ≤ i) (hi : i ≤ int64Max) (hj₀ : 0 ≤ j)
    (hj : j ≤ int64Max) (h : indexToKey i = indexToKey j) : i = j := by
  rw [← toU64_eq hi₀ hi, ← toU64_eq hj₀ hj, beBytes_inj (toU64_lt i) (toU64_lt j) h]

theorem fields_encodeTail (index term : ℤ) (rest : Bytes) :
    fields (encodeTail index term ++ rest) = (toU64 index, toU64 term) := by
  have h₁ : (encodeTail index term ++ rest).take 8 = beBytes 8 (toU64 index) := by
    rw [encodeTail, List.append_assoc, List.take_left' (by simp)]
  have h₂ : ((encodeTail index term ++ rest).drop 8).take 8 = beBytes 8 (toU64 term) := by
    rw [encodeTail, List.append_assoc, List.drop_left' (by simp), List.take_left' (by simp)]
  rw [fields, h₁, h₂, beNat_beBytes (toU64_lt _), beNat_beBytes (toU64_lt _)]

theorem hardFields_encodeHardState (h : ℤ × ℤ) :
    hardFields (encodeHardState h) = (toU32 h.1, toU32 h.2) := by
  have h₁ : (encodeHardState h).take 4 = leBytes 4 (toU32 h.1) := by
    rw [encodeHardState, List.take_left' (by simp)]
  have h₂ : ((encodeHardState h).drop 4).take 4 = leBytes 4 (toU32 h.2) := by
    rw [encodeHardState, List.drop_left' (by simp)]
    exact List.take_of_length_le (by simp)
  rw [hardFields, h₁, h₂, leNat_leBytes (toU32_lt _), leNat_leBytes (toU32_lt _)]

theorem indexToKey_not_mem_metaKeys (h₀ : 0 < i) (h : i ≤ int64Max) : indexToKey i ∉ metaKeys := by
  intro hmem
  simp only [metaKeys, List.mem_cons, List.not_mem_nil, or_false] at hmem
  rcases hmem with hk | hk | hk | hk | hk
  · have := indexToKey_inj h₀.le h le_rfl (by decide) hk
    omega
  all_goals
    have hlen := congrArg List.length hk
    rw [length_indexToKey] at hlen
    revert hlen
    decide

theorem mem_indexRange {first : ℤ} : i ∈ indexRange first last ↔ first ≤ i ∧ i ≤ last := by
  simp only [indexRange, List.mem_map, List.mem_range]
  constructor
  · rintro ⟨n, hn, rfl⟩
    omega
  · intro h
    exact ⟨(i - first).toNat, by omega, by omega⟩

/-! ## The representation -/

/-- The database and the cache of `s` hold the abstract log `a`. -/
structure Represents (codec : EntryCodec) (s : RaftLog) (a : AbstractLog) : Prop where
  lastIndex : s.lastIndex = a.lastIndex
  lastTerm : s.lastTerm = a.lastTerm
  snapshot : s.snapshot = a.snapshot
  hard : s.db[indexToKey 0]? = a.hardState.map encodeHardState
  metadata : s.db[snapshotMetaKey]? =
    if a.snapshot = {} then none else some (encodeTail a.snapshot.index a.snapshot.term)
  data : s.db[snapshotDataKey]? = if a.snapshot = {} then none else some a.snapshot.data
  intent : s.db[snapshotIntentKey]? = a.intent.map encodeIntent
  tail : s.db[tailKey]? = some (encodeTail a.lastIndex a.lastTerm) ∨
    s.db[tailKey]? = none ∧ a.lastIndex = 0
  entry : ∀ e ∈ a.entries, ∃ v, codec.serialize e = some v ∧ s.db[indexToKey e.index]? = some v
  covered : ∀ k v, s.db[k]? = some v → k ∈ metaKeys ∨ ∃ e ∈ a.entries, k = indexToKey e.index

theorem Represents.empty (codec : EntryCodec) : Represents codec {} {} where
  lastIndex := rfl
  lastTerm := rfl
  snapshot := rfl
  hard := rfl
  metadata := rfl
  data := rfl
  intent := rfl
  tail := .inr ⟨rfl, rfl⟩
  entry := by simp
  covered := by simp

section

/-! ## Reads -/

theorem entry_bounds {a : AbstractLog} (hw : a.WF) {e : LogEntry} (he : e ∈ a.entries) :
    0 < e.index ∧ a.snapshot.index < e.index ∧ e.index ≤ a.lastIndex ∧ e.index ≤ int64Max := by
  have hget := hw.get_eq_some_iff.mpr ⟨he, rfl⟩
  have := AbstractLog.get_isSome_iff.mp (Option.isSome_iff_exists.mpr ⟨e, hget⟩)
  have := hw.snapshot_index_nonneg
  have := hw.last_le
  omega

variable {codec : EntryCodec} {s : RaftLog} {a : AbstractLog}
  (hr : Represents codec s a) (hw : a.WF)
include hr hw

theorem Represents.get_eq (index : ℤ) : s.get codec index = .ok (a.get index) := by
  rw [RaftLog.get, hr.snapshot, hr.lastIndex]
  by_cases hout : index ≤ a.snapshot.index ∨ a.lastIndex < index
  · have hnone : a.get index = none := by
      rw [← Option.not_isSome_iff_eq_none, AbstractLog.get_isSome_iff]
      omega
    rw [if_pos hout, hnone]
  obtain ⟨e, hget⟩ : ∃ e, a.get index = some e := by
    rw [← Option.isSome_iff_exists, AbstractLog.get_isSome_iff]
    omega
  obtain ⟨he, rfl⟩ := hw.get_eq_some_iff.mp hget
  obtain ⟨v, hser, hv⟩ := hr.entry e he
  have hpos := hw.term_pos e he
  simp only [if_neg hout, hv, codec.parse_serialize hser, hget, ne_eq, not_true_eq_false,
    false_or]
  rw [if_neg (by omega)]

theorem Represents.getTerm_eq (index : ℤ) : s.getTerm codec index = .ok (a.getTerm index) := by
  rw [RaftLog.getTerm, AbstractLog.getTerm, hr.get_eq hw, hr.snapshot]
  split_ifs with h₀ hs hlt
  · rfl
  · rfl
  · rw [AbstractLog.get, if_pos hlt.le]
    rfl
  · cases a.get index <;> rfl

theorem Represents.loadHardState_eq : s.loadHardState = .ok a.hardState := by
  rw [RaftLog.loadHardState, hr.hard, hr.lastIndex]
  cases hh : a.hardState with
  | none =>
    have : a.lastIndex = 0 := by
      by_contra hne
      simpa [hh] using hw.hard_saved hne
    simp [this]
  | some p =>
    obtain ⟨term, votedFor⟩ := p
    obtain ⟨h₁, h₂, h₃, h₄⟩ := hw.hard (term, votedFor) hh
    have hlen : (encodeHardState (term, votedFor)).length = 8 := by simp [encodeHardState]
    simp only [Option.map_some, hlen, hardFields_encodeHardState, ne_eq, not_true_eq_false,
      if_false]
    have ht : (toU32 term : ℤ) = term := by unfold toU32 int32Max at *; omega
    have hv : votedFor = -1 ∧ toU32 votedFor = 2 ^ 32 - 1 ∨
        votedFor ≠ -1 ∧ (toU32 votedFor : ℤ) = votedFor := by
      unfold toU32 int32Max at *
      omega
    rcases hv with ⟨rfl, hv⟩ | ⟨hne, hv⟩
    · rw [if_neg (by rw [ht, hv]; omega), ht, if_pos hv]
    · have hv' : toU32 votedFor ≠ 2 ^ 32 - 1 := by unfold int32Max at *; omega
      rw [if_neg (by rw [ht, hv]; omega), ht, if_neg hv', hv]

/-- `LoadPendingSnapshot` answers from the abstract log. -/
theorem Represents.loadPendingSnapshot_eq : s.loadPendingSnapshot = a.loadPendingSnapshot := by
  rw [RaftLog.loadPendingSnapshot, AbstractLog.loadPendingSnapshot, hr.intent, hr.snapshot]
  cases hi : a.intent with
  | none => rfl
  | some p =>
    obtain ⟨hok, hlt⟩ := hw.intent p hi
    have hlen : (encodeIntent p).length = 16 + p.data.length := by simp [encodeIntent]
    have hdata := hok.data_le
    have hidx := toU64_eq hok.index_pos.le hok.index_le
    have hterm := toU64_eq hok.term_pos.le (hok.term_le.trans int32Max_le_int64Max)
    have hsnap := toU64_eq hw.snapshot_index_nonneg
      (a.snapshot_index_le_lastIndex.trans hw.last_le)
    have hdrop : (encodeIntent p).drop 16 = p.data := List.drop_left' (by simp)
    have hf : fields (encodeIntent p) = (toU64 p.index, toU64 p.term) := fields_encodeTail _ _ _
    have := hok.term_pos
    have := hok.term_le
    have := hok.index_le
    simp only [Option.map_some, hlen, hf, hdrop, hidx, hterm]
    rw [if_neg (by omega), if_neg (by omega), if_neg (by omega)]

/-- A staged install is read back, and never refused. -/
theorem Represents.pending_eq : s.loadPendingSnapshot = .ok a.intent := by
  rw [hr.loadPendingSnapshot_eq hw, AbstractLog.loadPendingSnapshot]
  cases hi : a.intent with
  | none => rfl
  | some p => exact if_neg (not_le.mpr (hw.intent p hi).2)

theorem Represents.keys (k : Bytes) : (s.db[k]?).isSome ∧ k ∉ metaKeys ↔
      ∃ i, a.snapshot.index < i ∧ i ≤ a.lastIndex ∧ k = indexToKey i := by
  constructor
  · rintro ⟨hk, hmeta⟩
    obtain ⟨v, hv⟩ := Option.isSome_iff_exists.mp hk
    obtain hmem | ⟨e, he, rfl⟩ := hr.covered k v hv
    · exact absurd hmem hmeta
    · obtain ⟨-, h₁, h₂, -⟩ := entry_bounds hw he
      exact ⟨e.index, h₁, h₂, rfl⟩
  rintro ⟨i, h₁, h₂, rfl⟩
  obtain ⟨e, hget⟩ := Option.isSome_iff_exists.mp (AbstractLog.get_isSome_iff.mpr ⟨h₁, h₂⟩)
  obtain ⟨he, rfl⟩ := hw.get_eq_some_iff.mp hget
  obtain ⟨v, -, hv⟩ := hr.entry e he
  obtain ⟨hpos, -, -, hle⟩ := entry_bounds hw he
  exact ⟨by simp [hv], indexToKey_not_mem_metaKeys hpos hle⟩

end

/-! ## Writes -/

/-- The part of the representation that is not the entries. A write of entries keeps it. -/
theorem ne_indexToKey {k : Bytes} (hk : k ∈ [snapshotMetaKey, snapshotDataKey, tailKey,
    snapshotIntentKey]) (i : ℤ) : indexToKey i ≠ k := by
  rintro rfl
  have hlen : ∀ k ∈ [snapshotMetaKey, snapshotDataKey, tailKey, snapshotIntentKey],
      k.length ≠ 8 := by decide
  exact hlen _ hk (by simp)

@[simp] theorem indexToKey_ne_tailKey (i : ℤ) : indexToKey i ≠ tailKey :=
  ne_indexToKey (by simp) i

@[simp] theorem indexToKey_ne_snapshotMetaKey (i : ℤ) : indexToKey i ≠ snapshotMetaKey :=
  ne_indexToKey (by simp) i

@[simp] theorem indexToKey_ne_snapshotDataKey (i : ℤ) : indexToKey i ≠ snapshotDataKey :=
  ne_indexToKey (by simp) i

@[simp] theorem indexToKey_ne_snapshotIntentKey (i : ℤ) : indexToKey i ≠ snapshotIntentKey :=
  ne_indexToKey (by simp) i

theorem getElem?_deleteRange (db : DB) {first : ℤ} {k : Bytes}
    (h : ∀ i, first ≤ i → i ≤ last → indexToKey i ≠ k) :
    (db.write ((indexRange first last).map fun i => .delete (indexToKey i)))[k]? = db[k]? := by
  refine DB.getElem?_write_of_ne db fun op hop => ?_
  obtain ⟨i, hi, rfl⟩ := List.mem_map.mp hop
  exact h i (mem_indexRange.mp hi).1 (mem_indexRange.mp hi).2

theorem getElem?_deleteRange_mem (db : DB) {first : ℤ} (h₁ : first ≤ i) (h₂ : i ≤ last) :
    (db.write ((indexRange first last).map fun i => .delete (indexToKey i)))[indexToKey i]? =
      none := by
  have hmap : (indexRange first last).map (fun i => BatchOp.delete (indexToKey i)) =
      ((indexRange first last).map indexToKey).map .delete := by simp
  rw [hmap, DB.getElem?_write_deletes, if_pos]
  exact List.mem_map_of_mem (mem_indexRange.mpr ⟨h₁, h₂⟩)

/-- The loop of `AppendBatch` makes the checks of the abstract append. -/
theorem appendLoop_error {es : List LogEntry} {e : String}
    (h : AbstractLog.checkAppend (fun e => (codec.serialize e).isSome) last es = .error e) :
    appendLoop codec last es = .error e := by
  induction es generalizing last with
  | nil => cases h
  | cons x es ih =>
    rw [AbstractLog.checkAppend] at h
    rw [appendLoop]
    split_ifs at h ⊢ with hbad hser
    · cases h
      rfl
    · obtain ⟨v, hv⟩ := Option.isSome_iff_exists.mp hser
      simp only [hv, ih h]
      rfl
    · rw [Option.not_isSome_iff_eq_none.mp hser]
      cases h
      rfl

/-- What the loop of `AppendBatch` puts. -/
theorem appendLoop_ok {es : List LogEntry} (h₀ : 0 ≤ last) (hmax : last ≤ int64Max)
    (h : AbstractLog.checkAppend (fun e => (codec.serialize e).isSome) last es = .ok ()) :
    ∃ puts, appendLoop codec last es = .ok (puts, last + es.length) ∧
      (∀ db : DB, ∀ e ∈ es, ∃ v, codec.serialize e = some v ∧
        (db.write puts)[indexToKey e.index]? = some v) ∧
      (∀ (db : DB) (k : Bytes), (∀ e ∈ es, indexToKey e.index ≠ k) →
        (db.write puts)[k]? = db[k]?) := by
  induction es generalizing last with
  | nil => exact ⟨[], by simp [appendLoop], by simp, fun db k _ => rfl⟩
  | cons x es ih =>
    have hidx := (AbstractLog.checkAppend_ok hmax h).1
    have hlast := (AbstractLog.checkAppend_ok hmax h).2.2.2
    rw [AbstractLog.checkAppend] at h
    split_ifs at h with hbad hser
    obtain ⟨v, hv⟩ := Option.isSome_iff_exists.mp hser
    have hx : x.index = last + 1 := by simpa using hidx 0 (Nat.zero_lt_succ _)
    simp only [List.length_cons, Nat.cast_add, Nat.cast_one] at hlast
    obtain ⟨puts, hloop, hput, hframe⟩ := ih (by omega) (by omega) h
    have hne : ∀ e ∈ es, indexToKey e.index ≠ indexToKey x.index := by
      intro e he heq
      obtain ⟨i, hi, rfl⟩ := List.getElem_of_mem he
      have hi' := hidx (i + 1) (by simpa using hi)
      simp only [List.getElem_cons_succ, Nat.cast_add, Nat.cast_one] at hi'
      have := indexToKey_inj (by omega) (by omega) (by omega) (by omega) heq
      omega
    refine ⟨.put (indexToKey x.index) v :: puts, ?_, ?_, ?_⟩
    · rw [appendLoop, if_neg hbad, hv]
      simp only [hloop, List.length_cons, Nat.cast_add, Nat.cast_one]
      show Except.ok _ = Except.ok _
      rw [hx, show last + 1 + (es.length : ℤ) = last + (es.length + 1) by ring]
    · intro db e he
      rw [DB.write_cons]
      rcases List.mem_cons.mp he with rfl | he
      · exact ⟨v, hv, by rw [hframe _ _ hne]; simp [DB.apply]⟩
      · exact hput _ e he
    · intro db k hk
      rw [DB.write_cons, hframe _ _ fun e he => hk e (List.mem_cons_of_mem _ he)]
      simp [DB.apply, hk x List.mem_cons_self]

section

variable {codec : EntryCodec} {s : RaftLog} {a : AbstractLog}
  (hr : Represents codec s a) (hw : a.WF)
include hr hw

theorem Represents.append {es : List LogEntry} {back : LogEntry} {puts : List BatchOp}
    (hback : es.getLast? = some back)
    (hput : ∀ e ∈ es, ∃ v, codec.serialize e = some v ∧
      (s.db.write puts)[indexToKey e.index]? = some v)
    (hframe : ∀ k, (∀ e ∈ es, indexToKey e.index ≠ k) → (s.db.write puts)[k]? = s.db[k]?)
    (hidx : ∀ e ∈ es, a.lastIndex < e.index ∧ e.index ≤ int64Max) :
    Represents codec
      { s with
        db := s.db.write (puts ++ [.put tailKey (encodeTail (a.lastIndex + es.length) back.term)])
        lastIndex := a.lastIndex + es.length
        lastTerm := back.term }
      { a with entries := a.entries ++ es } := by
  have hnn := hw.snapshot_index_nonneg
  have hsl := a.snapshot_index_le_lastIndex
  have hlast : AbstractLog.lastIndex { a with entries := a.entries ++ es } =
      a.lastIndex + es.length := by
    simp [AbstractLog.lastIndex, add_assoc]
  have hterm : AbstractLog.lastTerm { a with entries := a.entries ++ es } = back.term := by
    simp [AbstractLog.lastTerm, hback]
  have hdb : ∀ k, (∀ e ∈ es, indexToKey e.index ≠ k) → tailKey ≠ k →
      (s.db.write (puts ++ [.put tailKey (encodeTail (a.lastIndex + es.length) back.term)]))[k]? =
        s.db[k]? := by
    intro k hk ht
    rw [DB.write_append, DB.write_cons, DB.write_nil, DB.getElem?_apply]
    simp only [if_neg ht]
    exact hframe k hk
  refine ⟨hlast.symm, hterm.symm, hr.snapshot, ?_, ?_, ?_, ?_, .inl ?_, ?_, ?_⟩
  · rw [hdb _ _ (indexToKey_ne_tailKey 0).symm]
    · exact hr.hard
    intro e he heq
    have := hidx e he
    have := indexToKey_inj (by omega) this.2 le_rfl (by decide) heq
    omega
  · rw [hdb _ (fun e _ => by simp) (by decide)]
    exact hr.metadata
  · rw [hdb _ (fun e _ => by simp) (by decide)]
    exact hr.data
  · rw [hdb _ (fun e _ => by simp) (by decide)]
    exact hr.intent
  · rw [DB.write_append, hlast, hterm]
    simp [DB.apply]
  · intro e he
    rcases List.mem_append.mp he with he | he
    · rw [hdb _ _ (indexToKey_ne_tailKey _).symm]
      · exact hr.entry e he
      intro x hx heq
      have := hidx x hx
      obtain ⟨h₁, -, h₂, h₃⟩ := entry_bounds hw he
      have := indexToKey_inj (by omega) this.2 h₁.le h₃ heq
      omega
    · obtain ⟨v, hser, hv⟩ := hput e he
      refine ⟨v, hser, ?_⟩
      rw [DB.write_append]
      simpa [DB.apply, (indexToKey_ne_tailKey e.index).symm] using hv
  · intro k v hk
    by_cases hin : ∃ e ∈ es, indexToKey e.index = k
    · obtain ⟨e, he, rfl⟩ := hin
      exact .inr ⟨e, List.mem_append_right _ he, rfl⟩
    by_cases ht : tailKey = k
    · subst ht
      exact .inl (by simp [metaKeys])
    rw [hdb k (fun e he heq => hin ⟨e, he, heq⟩) ht] at hk
    rcases hr.covered k v hk with h | ⟨e, he, rfl⟩
    · exact .inl h
    · exact .inr ⟨e, List.mem_append_left _ he, rfl⟩

theorem Represents.truncate {start : ℤ} (hstart : a.snapshot.index < start)
    (hle : start ≤ a.lastIndex) :
    Represents codec
      { s with
        db := s.db.write ((indexRange start a.lastIndex).map (fun i => .delete (indexToKey i)) ++
          [.put tailKey (encodeTail (start - 1) (a.getTerm (start - 1)))])
        lastIndex := start - 1
        lastTerm := a.getTerm (start - 1) }
      { a with entries := a.entries.take (start - a.snapshot.index - 1).toNat } := by
  have hnn := hw.snapshot_index_nonneg
  have hmax := hw.last_le
  have hw' : AbstractLog.WF
      { a with entries := a.entries.take (start - a.snapshot.index - 1).toNat } :=
    hw.truncate (if_neg (not_le.mpr hstart))
  have hlast : AbstractLog.lastIndex
      { a with entries := a.entries.take (start - a.snapshot.index - 1).toNat } = start - 1 := by
    simp only [AbstractLog.lastIndex, List.length_take] at hle ⊢
    omega
  have hterm : AbstractLog.lastTerm
      { a with entries := a.entries.take (start - a.snapshot.index - 1).toNat } =
        a.getTerm (start - 1) := by
    rw [← hw'.getTerm_lastIndex, hlast]
    simp only [AbstractLog.getTerm, AbstractLog.get]
    split_ifs with h₀ hs hlt
    · rfl
    · rfl
    · rfl
    · rw [List.getElem?_take_of_lt (by omega)]
  have hdb : ∀ k, (∀ i, start ≤ i → i ≤ a.lastIndex → indexToKey i ≠ k) → tailKey ≠ k →
      (s.db.write ((indexRange start a.lastIndex).map (fun i => .delete (indexToKey i)) ++
        [.put tailKey (encodeTail (start - 1) (a.getTerm (start - 1)))]))[k]? = s.db[k]? := by
    intro k hk ht
    rw [DB.write_append, DB.write_cons, DB.write_nil, DB.getElem?_apply]
    simp only [if_neg ht]
    exact getElem?_deleteRange s.db hk
  refine ⟨hlast.symm, hterm.symm, hr.snapshot, ?_, ?_, ?_, ?_, .inl ?_, ?_, ?_⟩
  · rw [hdb _ _ (indexToKey_ne_tailKey 0).symm]
    · exact hr.hard
    · intro i h₁ h₂ heq
      have := indexToKey_inj (by omega) (by omega) le_rfl (by decide) heq
      omega
  · rw [hdb _ (fun i _ _ => by simp) (by decide)]
    exact hr.metadata
  · rw [hdb _ (fun i _ _ => by simp) (by decide)]
    exact hr.data
  · rw [hdb _ (fun i _ _ => by simp) (by decide)]
    exact hr.intent
  · rw [DB.write_append, hlast, hterm]
    simp [DB.apply]
  · intro e he
    obtain ⟨he, hlt⟩ := hw.mem_take_iff.mp he
    obtain ⟨h₁, -, -, h₃⟩ := entry_bounds hw he
    rw [hdb _ _ (indexToKey_ne_tailKey _).symm]
    · exact hr.entry e he
    · intro i hi hi' heq
      have := indexToKey_inj (by omega) (by omega) h₁.le h₃ heq
      omega
  · intro k v hk
    by_cases ht : tailKey = k
    · subst ht
      exact .inl (by simp [metaKeys])
    by_cases hin : ∃ i, start ≤ i ∧ i ≤ a.lastIndex ∧ indexToKey i = k
    · obtain ⟨i, h₁, h₂, rfl⟩ := hin
      rw [DB.write_append, DB.write_cons, DB.write_nil, DB.getElem?_apply] at hk
      simp only [if_neg ht, getElem?_deleteRange_mem s.db h₁ h₂] at hk
      cases hk
    rw [hdb k (fun i h₁ h₂ heq => hin ⟨i, h₁, h₂, heq⟩) ht] at hk
    rcases hr.covered k v hk with h | ⟨e, he, rfl⟩
    · exact .inl h
    refine .inr ⟨e, hw.mem_take_iff.mpr ⟨he, ?_⟩, rfl⟩
    by_contra hgt
    obtain ⟨-, -, h₂, -⟩ := entry_bounds hw he
    exact hin ⟨e.index, by omega, h₂, rfl⟩

theorem Represents.hardState {term votedFor : ℤ} :
    Represents codec
      { s with
        db := s.db.write [.put (indexToKey 0) (encodeHardState (term, votedFor))] }
      { a with hardState := some (term, votedFor) } := by
  have hdb : ∀ k, indexToKey 0 ≠ k →
      (s.db.write [.put (indexToKey 0) (encodeHardState (term, votedFor))])[k]? = s.db[k]? := by
    intro k hk
    simp [DB.apply, hk]
  refine ⟨hr.lastIndex, hr.lastTerm, hr.snapshot, by simp [DB.apply], ?_, ?_, ?_, ?_, ?_, ?_⟩
  · rw [hdb _ (by simp)]
    exact hr.metadata
  · rw [hdb _ (by simp)]
    exact hr.data
  · rw [hdb _ (by simp)]
    exact hr.intent
  · rw [hdb _ (by simp)]
    exact hr.tail
  · intro e he
    obtain ⟨h₁, -, -, h₃⟩ := entry_bounds hw he
    rw [hdb]
    · exact hr.entry e he
    · intro heq
      have := indexToKey_inj le_rfl (by decide) h₁.le h₃ heq
      omega
  · intro k v hk
    by_cases h₀ : indexToKey 0 = k
    · subst h₀
      exact .inl (by simp [metaKeys])
    · rw [hdb k h₀] at hk
      exact hr.covered k v hk

omit hw in
theorem Represents.stage {p : Snapshot} :
    Represents codec
      { s with
        db := s.db.write [.put snapshotIntentKey (encodeIntent p),
          .put tailKey (encodeTail a.lastIndex a.lastTerm)] }
      { a with intent := some p } := by
  have hdb : ∀ k, snapshotIntentKey ≠ k → tailKey ≠ k →
      (s.db.write [.put snapshotIntentKey (encodeIntent p),
        .put tailKey (encodeTail a.lastIndex a.lastTerm)])[k]? = s.db[k]? := by
    intro k hk ht
    simp [DB.apply, hk, ht]
  refine ⟨hr.lastIndex, hr.lastTerm, hr.snapshot, ?_, ?_, ?_, ?_, .inl ?_, ?_, ?_⟩
  · rw [hdb _ (by decide) (by decide)]
    exact hr.hard
  · rw [hdb _ (by decide) (by decide)]
    exact hr.metadata
  · rw [hdb _ (by decide) (by decide)]
    exact hr.data
  · have : tailKey ≠ snapshotIntentKey := by decide
    simp only [DB.write_cons, DB.write_nil, DB.getElem?_apply, this, if_false, if_true,
      Option.map_some]
  · simp only [DB.write_cons, DB.write_nil, DB.getElem?_apply, if_true]
    rfl
  · intro e he
    rw [hdb _ (indexToKey_ne_snapshotIntentKey _).symm (indexToKey_ne_tailKey _).symm]
    exact hr.entry e he
  intro k v hk
  by_cases hi : snapshotIntentKey = k
  · subst hi
    exact .inl (by simp [metaKeys])
  by_cases ht : tailKey = k
  · subst ht
    exact .inl (by simp [metaKeys])
  · rw [hdb k hi ht] at hk
    exact hr.covered k v hk

/-- A persisted snapshot, with the entries after index `through` kept. -/
theorem Represents.persist {p : Snapshot} {through : ℤ} {es : List LogEntry} {a' : AbstractLog}
    (hp : p ≠ {}) (hthrough : through ≤ int64Max)
    (hmem : ∀ e, e ∈ es ↔ e ∈ a.entries ∧ through < e.index)
    (ha' : a' = { a with snapshot := p, entries := es, intent := none }) :
    Represents codec
      { db := s.db.write ([.put snapshotMetaKey (encodeTail p.index p.term),
          .put snapshotDataKey p.data, .delete snapshotIntentKey,
          .put tailKey (encodeTail a'.lastIndex a'.lastTerm)] ++
          (indexRange (a.snapshot.index + 1) through).map fun i => .delete (indexToKey i))
        lastIndex := a'.lastIndex
        lastTerm := a'.lastTerm
        snapshot := p }
      a' := by
  have hnn := hw.snapshot_index_nonneg
  have hdel : ∀ (db : DB) (k : Bytes),
      k ∈ [snapshotMetaKey, snapshotDataKey, tailKey, snapshotIntentKey] →
      (db.write ((indexRange (a.snapshot.index + 1) through).map
        fun i => .delete (indexToKey i)))[k]? = db[k]? :=
    fun db k hk => getElem?_deleteRange db fun i _ _ => ne_indexToKey hk i
  have hrest : ∀ k, k ∉ [snapshotMetaKey, snapshotDataKey, tailKey, snapshotIntentKey] →
      (s.db.write [.put snapshotMetaKey (encodeTail p.index p.term),
        .put snapshotDataKey p.data, .delete snapshotIntentKey,
        .put tailKey (encodeTail a'.lastIndex a'.lastTerm)])[k]? = s.db[k]? := by
    intro k hk
    simp only [List.mem_cons, List.not_mem_nil, or_false, not_or] at hk
    simp [DB.apply, Ne.symm hk.1, Ne.symm hk.2.1, Ne.symm hk.2.2.1, Ne.symm hk.2.2.2]
  have hindex : ∀ i, indexToKey i ∉
      [snapshotMetaKey, snapshotDataKey, tailKey, snapshotIntentKey] :=
    fun i hi => ne_indexToKey hi i rfl
  have h₁ : snapshotDataKey ≠ snapshotMetaKey := by decide
  have h₂ : snapshotIntentKey ≠ snapshotMetaKey := by decide
  have h₃ : tailKey ≠ snapshotMetaKey := by decide
  have h₄ : snapshotIntentKey ≠ snapshotDataKey := by decide
  have h₅ : tailKey ≠ snapshotDataKey := by decide
  have h₆ : tailKey ≠ snapshotIntentKey := by decide
  have hsnap : a'.snapshot = p := by rw [ha']
  refine ⟨rfl, rfl, hsnap.symm, ?_, ?_, ?_, ?_, .inl ?_, ?_, ?_⟩
  · rw [DB.write_append, getElem?_deleteRange, hrest _ (hindex 0), ha']
    · exact hr.hard
    · intro i hi hi' heq
      have := indexToKey_inj (by omega) (by omega) le_rfl (by decide) heq
      omega
  · rw [DB.write_append, hdel _ _ (by simp), hsnap, if_neg hp]
    simp only [DB.write_cons, DB.write_nil, DB.getElem?_apply, h₁, h₂, h₃, if_false, if_true]
  · rw [DB.write_append, hdel _ _ (by simp), hsnap, if_neg hp]
    simp only [DB.write_cons, DB.write_nil, DB.getElem?_apply, h₄, h₅, if_false, if_true]
  · rw [DB.write_append, hdel _ _ (by simp), ha']
    simp only [DB.write_cons, DB.write_nil, DB.getElem?_apply, h₆, if_false, if_true,
      Option.map_none]
  · rw [DB.write_append, hdel _ _ (by simp)]
    simp only [DB.write_cons, DB.write_nil, DB.getElem?_apply, if_true]
  · intro e he
    rw [ha'] at he
    obtain ⟨he, hlt⟩ := (hmem e).mp he
    obtain ⟨h₁, -, -, h₃⟩ := entry_bounds hw he
    rw [DB.write_append, getElem?_deleteRange, hrest _ (hindex _)]
    · exact hr.entry e he
    · intro i hi hi' heq
      have := indexToKey_inj (by omega) (by omega) h₁.le h₃ heq
      omega
  · intro k v hk
    by_cases hk' : k ∈ [snapshotMetaKey, snapshotDataKey, tailKey, snapshotIntentKey]
    · left
      simp only [metaKeys, List.mem_cons] at hk' ⊢
      exact .inr hk'
    by_cases hin : ∃ i, a.snapshot.index + 1 ≤ i ∧ i ≤ through ∧ indexToKey i = k
    · obtain ⟨i, hi, hi', rfl⟩ := hin
      rw [DB.write_append, getElem?_deleteRange_mem _ hi hi'] at hk
      cases hk
    rw [DB.write_append, getElem?_deleteRange, hrest _ hk'] at hk
    · rcases hr.covered k v hk with h | ⟨e, he, rfl⟩
      · exact .inl h
      refine .inr ⟨e, ?_, rfl⟩
      rw [ha']
      refine (hmem e).mpr ⟨he, ?_⟩
      by_contra hle
      obtain ⟨-, h₁, -, -⟩ := entry_bounds hw he
      exact hin ⟨e.index, by omega, by omega, rfl⟩
    · exact fun i hi hi' heq => hin ⟨i, hi, hi', heq⟩

end

/-! ## Calls -/

@[simp] theorem wp_write {ok : Bool} {batch : List BatchOp} {operation : String}
    {Q : Unit → RaftLog → Prop} {E : String → RaftLog → Prop} :
    wp (write ok batch operation) Q E s =
      if ok then Q () { s with db := s.db.write batch } else E operation s := by
  cases ok <;> rfl

section

variable (codec : EntryCodec) (s : RaftLog)

/-- A persisted snapshot that throws, or that is not written, changes nothing. -/
theorem wp_persistSnapshot (ok : Bool) (p : Snapshot) (keep : Bool) :
    wp (persistSnapshot ok p keep) (fun _ t => ok = false → t = s) (fun _ t => t = s) s := by
  cases ok <;> simp [persistSnapshot]

/-- A call that throws, or whose write is refused, changes neither memory nor the database. -/
theorem wp_call (ok : Bool) (c : AbstractLog.Call) :
    wp (call codec ok c) (fun _ t => ok = false → t = s) (fun _ t => t = s) s := by
  cases c with
  | appendBatch es =>
    simp only [call, appendBatch]
    cases es.getLast? with
    | none => simp
    | some back =>
      cases hloop : appendLoop codec s.lastIndex es <;> cases ok <;> simp [hloop]
  | truncateSuffix start =>
    cases hterm : s.getTerm codec (start - 1) <;> cases ok <;>
      simp [call, truncateSuffix, hterm]
  | compactApplied p =>
    have hp := wp_persistSnapshot s ok p true
    cases hterm : s.getTerm codec p.index <;> simp [call, compactApplied, hterm, hp]
  | stageSnapshotInstall p => cases ok <;> simp [call, stageSnapshotInstall]
  | installSnapshot p =>
    have hp := wp_persistSnapshot s ok p
    cases hterm : s.getTerm codec p.index <;> simp [call, installSnapshot, hterm, hp]
  | saveHardState term votedFor => cases ok <;> simp [call, saveHardState]

end

/-- Whether an entry can be serialized. -/
def serializes (codec : EntryCodec) (e : LogEntry) : Bool := (codec.serialize e).isSome

section

variable {codec : EntryCodec} {s : RaftLog} {a : AbstractLog}
  (hr : Represents codec s a) (hw : a.WF)
include hr hw

/-- The last step of `CompactApplied` and `InstallSnapshot`. -/
theorem Represents.wp_persistSnapshot {p : Snapshot} {keep : Bool} (hp : p.index ≤ int64Max)
    (hkeep : keep → p.index ≤ a.lastIndex ∧ a.getTerm p.index = p.term)
    (hlt : a.snapshot.index < p.index) : wp (persistSnapshot true p keep)
      (fun _ t => ∃ a', a.persistSnapshot p keep = .ok a' ∧ Represents codec t a')
      (fun e _ => a.persistSnapshot p keep = .error e) s := by
  unfold persistSnapshot AbstractLog.persistSnapshot
  by_cases hbad : p.index ≤ 0 ∨ p.term ≤ 0 ∨ kMaxSnapshotBytes < p.data.length
  · simp [hbad]
  have hne : p ≠ {} := by
    rintro rfl
    exact hbad (.inl le_rfl)
  have hnn := hw.snapshot_index_nonneg
  simp only [if_neg hbad, wp_bind, wp_get, wp_write, wp_modify, if_true, hr.snapshot,
    hr.lastIndex, hr.lastTerm]
  refine ⟨_, rfl, ?_⟩
  cases keep with
  | false =>
    have hmem : ∀ e, e ∈ ([] : List LogEntry) ↔ e ∈ a.entries ∧ a.lastIndex < e.index := by
      intro e
      simp only [List.not_mem_nil, false_iff, not_and, not_lt]
      exact fun he => (entry_bounds hw he).2.2.1
    have := hr.persist hw hne hw.last_le hmem rfl
    simpa [AbstractLog.lastIndex, AbstractLog.lastTerm] using this
  | true =>
    obtain ⟨hle, hterm⟩ := hkeep rfl
    have hmem : ∀ e, e ∈ a.entries.drop (p.index - a.snapshot.index).toNat ↔
        e ∈ a.entries ∧ p.index < e.index := by
      intro e
      rw [hw.mem_drop_iff, show a.snapshot.index + ((p.index - a.snapshot.index).toNat : ℤ) =
        p.index by omega]
    have := hr.persist hw hne hp hmem rfl
    rw [AbstractLog.WF.lastIndex_compact hlt hle, hw.lastTerm_compact hlt hle hterm] at this
    simpa using this

/-- **A call does to the log what it does to the abstract log**, when its write is
accepted. -/
theorem Represents.call {c : AbstractLog.Call} (hg : c.Guaranteed a) :
    wp (RaftLog.call codec true c)
      (fun _ t => ∃ a', a.call (serializes codec) c = .ok a' ∧ Represents codec t a')
      (fun e _ => a.call (serializes codec) c = .error e) s := by
  have hnn := hw.snapshot_index_nonneg
  have hsl := a.snapshot_index_le_lastIndex
  cases c with
  | appendBatch es =>
    simp only [RaftLog.call, appendBatch, AbstractLog.call, AbstractLog.appendBatch]
    cases hback : es.getLast? with
    | none =>
      obtain rfl := List.getLast?_eq_none_iff.mp hback
      exact ⟨a, by simp [AbstractLog.checkAppend], hr⟩
    | some back =>
      cases hc : AbstractLog.checkAppend (serializes codec) a.lastIndex es with
      | error e =>
        simp only [wp_bind, wp_get, hr.lastIndex, wp_ofExcept, appendLoop_error hc]
        rfl
      | ok u =>
        obtain ⟨puts, hloop, hput, hframe⟩ := appendLoop_ok (by omega) hw.last_le hc
        obtain ⟨hidx, -, -, hmax⟩ := AbstractLog.checkAppend_ok hw.last_le hc
        simp only [wp_bind, wp_get, hr.lastIndex, wp_ofExcept, hloop, wp_write, wp_modify, if_true]
        refine ⟨_, rfl, hr.append hw hback (hput s.db) (hframe s.db) ?_⟩
        intro e he
        obtain ⟨i, hi, rfl⟩ := List.getElem_of_mem he
        have := hidx i hi
        omega
  | truncateSuffix start =>
    simp only [RaftLog.call, truncateSuffix, AbstractLog.call, AbstractLog.truncateSuffix,
      wp_bind, wp_get, wp_ite, wp_throw, wp_pure, wp_ofExcept, wp_write, wp_modify, hr.snapshot,
      hr.lastIndex, hr.getTerm_eq hw, if_true]
    split_ifs with hle hgt h₀
    · rfl
    · refine ⟨a, ?_, hr⟩
      rw [List.take_of_length_le]
      simp only [AbstractLog.lastIndex] at hgt
      omega
    · have := hr.truncate hw (by omega) (not_lt.mp hgt)
      rw [h₀, AbstractLog.getTerm, if_pos rfl] at this
      exact ⟨_, rfl, by simpa [h₀, hr.snapshot] using this⟩
    · have := hr.truncate hw (not_le.mp hle) (not_lt.mp hgt)
      exact ⟨_, rfl, by simpa only [hr.snapshot] using this⟩
  | compactApplied p =>
    simp only [RaftLog.call, compactApplied, AbstractLog.call, AbstractLog.compactApplied,
      wp_bind, wp_get, wp_ite, wp_throw, wp_pure, wp_ofExcept, hr.snapshot, hr.lastIndex,
      hr.getTerm_eq hw]
    by_cases hle : p.index ≤ a.snapshot.index
    · simpa [hle] using hr
    by_cases hbad : a.lastIndex < p.index ∨ a.getTerm p.index ≠ p.term
    · rcases hbad with h | h <;> simp [hle, h]
    simp only [if_neg hle, if_neg hbad]
    push Not at hbad
    rw [if_neg (not_lt.mpr hbad.1), if_neg (not_not.mpr hbad.2)]
    exact hr.wp_persistSnapshot hw (hbad.1.trans hw.last_le) (fun _ => hbad) (by omega)
  | stageSnapshotInstall p =>
    have hsome : (s.db[snapshotIntentKey]?).isSome = a.intent.isSome := by
      rw [hr.intent, Option.isSome_map]
    simp only [RaftLog.call, stageSnapshotInstall, AbstractLog.call,
      AbstractLog.stageSnapshotInstall, wp_bind, wp_get, wp_ite, wp_throw, wp_write,
      hr.snapshot, hr.lastIndex, hr.lastTerm, hsome, if_true]
    split_ifs
    · rfl
    · rfl
    · exact ⟨_, rfl, by simpa only [hr.snapshot, hr.lastIndex, hr.lastTerm] using hr.stage⟩
  | installSnapshot p =>
    obtain ⟨-, hidx, -⟩ := hg
    simp only [RaftLog.call, installSnapshot, AbstractLog.call, AbstractLog.installSnapshot,
      wp_bind, wp_get, wp_ite, wp_throw, wp_pure, wp_map, wp_ofExcept, hr.snapshot, hr.lastIndex,
      hr.getTerm_eq hw]
    split_ifs with hbad hlt heq hne hle
    · rfl
    · rfl
    · rfl
    · exact ⟨a, rfl, hr⟩
    · simp only [hle, true_and]
      exact hr.wp_persistSnapshot hw hidx (by simpa using fun h => ⟨hle, h⟩) (by omega)
    · simp only [hle, false_and, decide_false]
      exact hr.wp_persistSnapshot hw hidx (by simp) (by omega)
  | saveHardState term votedFor =>
    simp only [RaftLog.call, saveHardState, AbstractLog.call, AbstractLog.saveHardState,
      wp_bind, wp_ite, wp_throw, wp_write, if_true]
    split_ifs
    · rfl
    · exact ⟨_, rfl, hr.hardState hw⟩

/-! ## The constructor -/

theorem Represents.loadSnapshot_eq : loadSnapshot s.db = .ok a.snapshot := by
  rw [loadSnapshot, hr.metadata, hr.data]
  rcases hw.snapshot with hs | hs
  · simp [hs]
  have hne : a.snapshot ≠ {} := by
    intro h
    have := hs.index_pos
    simp [h] at this
  have hf := fields_encodeTail a.snapshot.index a.snapshot.term []
  rw [List.append_nil] at hf
  have hidx := toU64_eq hs.index_pos.le hs.index_le
  have hterm := toU64_eq hs.term_pos.le (hs.term_le.trans int32Max_le_int64Max)
  have h₁ := hs.index_pos
  have h₂ := hs.index_le
  have h₃ := hs.term_pos
  have h₄ := hs.term_le.trans int32Max_le_int64Max
  simp only [if_neg hne, hf, length_encodeTail, hidx, hterm, ne_eq, not_true_eq_false, if_false]
  rw [if_neg (by omega), if_neg (not_lt.mpr hs.data_le)]

theorem Represents.verifyLoop_eq (pre : List LogEntry) {rest : List LogEntry} {prev : ℤ}
    (ha : a.entries = pre ++ rest) (hchain : (prev :: rest.map LogEntry.term).IsChain (· ≤ ·)) :
    verifyLoop codec s (rest.length + 1) (next64 (a.snapshot.index + pre.length)) prev =
      if a.lastIndex < int64Max then .ok () else .error "corrupt or non-contiguous Raft log" := by
  have hnn := hw.snapshot_index_nonneg
  have hmax := hw.last_le
  have hlast : a.lastIndex = a.snapshot.index + pre.length + rest.length := by
    simp [AbstractLog.lastIndex, ha, add_assoc]
  induction rest generalizing pre prev with
  | nil =>
    simp only [List.length_nil, Nat.cast_zero, add_zero] at hlast
    rw [verifyLoop, hr.lastIndex, ← hlast, next64]
    by_cases hlt : a.lastIndex < int64Max
    · rw [if_neg hlt.ne, if_pos (by omega), if_pos hlt]
    have hmin : int64Min ≤ a.snapshot.index := le_trans (by decide) hnn
    have hnone : a.get int64Min = none := if_pos hmin
    have hwrap : (if a.lastIndex = int64Max then int64Min else a.lastIndex + 1) = int64Min :=
      if_pos (by omega)
    rw [hwrap, if_neg (by omega), if_neg hlt, hr.get_eq hw, hnone]
    rfl
  | cons e rest ih =>
    simp only [List.length_cons, Nat.cast_add, Nat.cast_one] at hlast
    have hnext : next64 (a.snapshot.index + pre.length) = a.snapshot.index + pre.length + 1 :=
      if_neg (by omega)
    have hidx : e.index = a.snapshot.index + pre.length + 1 := by
      have := hw.index pre.length (by simp [ha])
      simp only [ha, List.getElem_append_right, le_refl, Nat.sub_self,
        List.getElem_cons_zero] at this
      omega
    have hget : a.get (a.snapshot.index + pre.length + 1) = some e :=
      hw.get_eq_some_iff.mpr ⟨by simp [ha], hidx⟩
    have hterm : ¬e.term < prev := not_lt.mpr (by simpa using hchain.rel)
    have hrest := ih (pre ++ [e]) (by simp [ha]) hchain.tail
      (by rw [hlast]; simp only [List.length_append, List.length_singleton]; push_cast; ring)
    rw [verifyLoop, hnext, hr.lastIndex, if_neg (by omega), hr.get_eq hw, hget, ← hrest]
    simp only [List.length_append, List.length_singleton, Nat.cast_add, Nat.cast_one, add_assoc]
    show (if e.term < prev then _ else _) = _
    rw [if_neg hterm]
    rfl

/-- `VerifySuffix` accepts the suffix unless it ends at the largest index. -/
theorem Represents.verifySuffix_eq : s.verifySuffix codec = if a.lastIndex < int64Max then .ok ()
      else .error "corrupt or non-contiguous Raft log" := by
  have hprev : (if a.snapshot.index = 0 then 0 else a.snapshot.term) = a.snapshot.term := by
    rcases hw.snapshot with hs | hs
    · simp [hs]
    · rw [if_neg hs.index_pos.ne']
  have hturns : (a.lastIndex - a.snapshot.index).toNat + 1 = a.entries.length + 1 := by
    simp [AbstractLog.lastIndex]
  have := hr.verifyLoop_eq hw [] rfl hw.terms
  rw [verifySuffix, hr.lastIndex, hr.snapshot, hprev, hturns]
  simpa using this

/-- The tail record is accepted unless the log ends at the largest index. -/
theorem Represents.loadTail_eq (htail : s.db[tailKey]? = some (encodeTail a.lastIndex a.lastTerm)) :
    loadTail codec a.snapshot s.db = if a.lastIndex < int64Max then .ok (some s)
      else .error "corrupt or non-contiguous Raft log" := by
  have hnn := hw.snapshot_index_nonneg
  have hsl := a.snapshot_index_le_lastIndex
  have hmax := hw.last_le
  have hterm := hw.lastTerm_le
  have hf := fields_encodeTail a.lastIndex a.lastTerm []
  rw [List.append_nil] at hf
  have h₁ := toU64_eq (by omega : 0 ≤ a.lastIndex) hmax
  have h₂ := toU64_eq hw.lastTerm_nonneg (hterm.trans int32Max_le_int64Max)
  have hs : (⟨s.db, a.lastIndex, a.lastTerm, a.snapshot⟩ : RaftLog) = s := by
    rw [← hr.lastIndex, ← hr.lastTerm, ← hr.snapshot]
  rw [loadTail, htail]
  simp only [length_encodeTail, ne_eq, not_true_eq_false, if_false, hf, h₁, h₂, hs,
    hr.verifySuffix_eq hw]
  rw [if_neg (by omega), if_neg (by omega)]
  have hlen : a.lastIndex = a.snapshot.index + a.entries.length := rfl
  rcases List.eq_nil_or_concat a.entries with hnil | ⟨es, e, hcat⟩
  · have hterm' : a.lastTerm = a.snapshot.term := by simp [AbstractLog.lastTerm, hnil]
    rw [hnil, List.length_nil, Nat.cast_zero, add_zero] at hlen
    rcases hw.snapshot with hs | hs
    · have h₀ : a.lastIndex = 0 := by rw [hlen, hs]
      rw [if_pos h₀, if_neg (by simp [hterm', hs])]
      split_ifs <;> rfl
    · have := hs.index_pos
      rw [if_neg (by omega), if_pos hlen, if_neg (not_not.mpr hterm')]
      split_ifs <;> rfl
  · have he : e ∈ a.entries := by simp [hcat]
    have hterm' : e.term = a.lastTerm := by simp [AbstractLog.lastTerm, hcat]
    have hpos := hw.term_pos e he
    have hcons : a.entries.length = es.length + 1 := by simp [hcat]
    have hidx : e.index = a.lastIndex := by
      have := hw.index es.length (by omega)
      simp only [hcat, List.concat_eq_append, List.getElem_append_right, le_refl, Nat.sub_self,
        List.getElem_cons_zero] at this
      omega
    obtain ⟨v, hser, hv⟩ := hr.entry e he
    rw [hidx] at hv
    rw [if_neg (by omega), if_neg (by omega), hv]
    simp only [codec.parse_serialize hser]
    rw [if_neg (by omega)]
    split_ifs <;> rfl

end

/-! ## The full scan -/

/-- The scan passes over the records that are not entries. -/
theorem foldlM_scanKey_filter (codec : EntryCodec) (l : List (Bytes × Bytes)) (x : ℤ × ℤ) :
    l.foldlM (scanKey codec) x = (l.filter fun kv => kv.1 ∉ metaKeys).foldlM (scanKey codec) x := by
  induction l generalizing x with
  | nil => rfl
  | cons kv l ih =>
    by_cases hkv : kv.1 ∈ metaKeys
    · have hskip : scanKey codec x kv = .ok x := if_pos hkv
      rw [List.foldlM_cons, hskip, List.filter_cons_of_neg (by simpa using hkv), ← ih]
      rfl
    rw [List.foldlM_cons, List.filter_cons_of_pos (by simpa using hkv), List.foldlM_cons]
    cases scanKey codec x kv with
    | error e => rfl
    | ok y => exact ih y

/-- An entry as the scan sees it. -/
def stored (codec : EntryCodec) (e : LogEntry) : Bytes × Bytes :=
  (indexToKey e.index, (codec.serialize e).getD [])

section

variable {codec : EntryCodec} {s : RaftLog} {a : AbstractLog}
  (hr : Represents codec s a) (hw : a.WF)
include hr hw

theorem Represents.foldlM_stored (pre : List LogEntry) {rest : List LogEntry} {prev : ℤ}
    (ha : a.entries = pre ++ rest) (hchain : (prev :: rest.map LogEntry.term).IsChain (· ≤ ·)) :
    (rest.map (stored codec)).foldlM (scanKey codec) (a.snapshot.index + pre.length, prev) =
      .ok (a.lastIndex, (rest.getLast?.map LogEntry.term).getD prev) := by
  have hlast : a.lastIndex = a.snapshot.index + pre.length + rest.length := by
    simp [AbstractLog.lastIndex, ha, add_assoc]
  induction rest generalizing pre prev with
  | nil =>
    simp only [List.length_nil, Nat.cast_zero, add_zero] at hlast
    rw [hlast]
    rfl
  | cons e rest ih =>
    have he : e ∈ a.entries := by simp [ha]
    have hidx : e.index = a.snapshot.index + pre.length + 1 := by
      have := hw.index pre.length (by simp [ha])
      simp only [ha, List.getElem_append_right, le_refl, Nat.sub_self,
        List.getElem_cons_zero] at this
      omega
    have hterm : ¬e.term < prev := not_lt.mpr (by simpa using hchain.rel)
    have hpos := hw.term_pos e he
    obtain ⟨h₁, -, -, h₄⟩ := entry_bounds hw he
    obtain ⟨v, hser, -⟩ := hr.entry e he
    have hstep : scanKey codec (a.snapshot.index + pre.length, prev) (stored codec e) =
        .ok (a.snapshot.index + pre.length + 1, e.term) := by
      simp only [scanKey, stored, hser, Option.getD_some]
      rw [if_neg (indexToKey_not_mem_metaKeys h₁ h₄), ← hidx,
        if_neg (not_or.mpr ⟨by omega, not_not.mpr rfl⟩)]
      simp only [codec.parse_serialize hser]
      rw [if_neg (by omega)]
    have hrest := ih (pre ++ [e]) (by simp [ha]) hchain.tail
      (by rw [hlast]; simp only [List.length_append, List.length_cons, List.length_nil]
          push_cast; ring)
    rw [List.map_cons, List.foldlM_cons, hstep]
    simp only [List.length_append, List.length_singleton, Nat.cast_add, Nat.cast_one,
      ← add_assoc] at hrest
    refine hrest.trans ?_
    rw [List.getLast?_cons]
    cases rest.getLast? <;> rfl

theorem Represents.filter_toList {db : DB} (hdb : ∀ k, k ∉ metaKeys → db[k]? = s.db[k]?) :
    (db.toList.filter fun kv => kv.1 ∉ metaKeys) = a.entries.map (stored codec) := by
  refine eq_of_increasing (db.toList_increasing.filter _) ?_ ?_
  · rw [List.pairwise_map, List.pairwise_iff_getElem]
    intro i j hi hj hij
    have h₁ := hw.index i hi
    have h₂ := hw.index j hj
    obtain ⟨p₁, -, -, m₁⟩ := entry_bounds hw (List.getElem_mem hi)
    obtain ⟨p₂, -, -, m₂⟩ := entry_bounds hw (List.getElem_mem hj)
    have e₁ := toU64_eq p₁.le m₁
    have e₂ := toU64_eq p₂.le m₂
    simp only [stored, indexToKey]
    rw [compare_beBytes (toU64_lt _) (toU64_lt _), Nat.compare_eq_lt]
    omega
  · rintro ⟨k, v⟩
    rw [List.mem_filter, DB.mem_toList_iff, List.mem_map]
    simp only [decide_eq_true_eq]
    constructor
    · rintro ⟨hk, hmeta⟩
      rw [hdb k hmeta] at hk
      obtain hmem | ⟨e, he, rfl⟩ := hr.covered k v hk
      · exact absurd hmem hmeta
      · obtain ⟨v', hser, hv'⟩ := hr.entry e he
        rw [hv'] at hk
        exact ⟨e, he, by simpa [stored, hser] using hk⟩
    · rintro ⟨e, he, heq⟩
      obtain ⟨h₁, -, -, h₄⟩ := entry_bounds hw he
      obtain ⟨v', hser, hv'⟩ := hr.entry e he
      simp only [stored, hser, Option.getD_some, Prod.mk.injEq] at heq
      obtain ⟨rfl, rfl⟩ := heq
      have hmeta := indexToKey_not_mem_metaKeys h₁ h₄
      exact ⟨by rw [hdb _ hmeta, hv'], hmeta⟩

/-- A scan finds the last index and term. -/
theorem Represents.scan_eq {db : DB} (hdb : ∀ k, k ∉ metaKeys → db[k]? = s.db[k]?) :
    db.toList.foldlM (scanKey codec) (a.snapshot.index, a.snapshot.term) =
      .ok (a.lastIndex, a.lastTerm) := by
  rw [foldlM_scanKey_filter, hr.filter_toList hw hdb]
  simpa [AbstractLog.lastTerm] using hr.foldlM_stored hw [] rfl hw.terms

/-- **Reopening a log gives the log**, unless it ends at the largest index. -/
theorem Represents.construct_eq (hlt : a.lastIndex < int64Max) :
    construct codec true s.db = .ok s := by
  have hs : (⟨s.db, a.lastIndex, a.lastTerm, a.snapshot⟩ : RaftLog) = s := by
    rw [← hr.lastIndex, ← hr.lastTerm, ← hr.snapshot]
  rw [construct, hr.loadSnapshot_eq hw]
  rcases hr.tail with htail | ⟨htail, h₀⟩
  · show (loadTail codec a.snapshot s.db >>= _) = _
    rw [hr.loadTail_eq hw htail, if_pos hlt]
    rfl
  show (loadTail codec a.snapshot s.db >>= _) = _
  have hnone : loadTail codec a.snapshot s.db = .ok none := by rw [loadTail, htail]
  rw [hnone]
  show (s.db.toList.foldlM (scanKey codec) (a.snapshot.index, a.snapshot.term) >>= _) = _
  rw [hr.scan_eq hw fun _ _ => rfl]
  show (if 0 < a.lastIndex then _ else _) = _
  rw [if_neg (by omega), hs]
  rfl

/-- A log that ends at the largest index cannot be reopened. -/
theorem Represents.construct_overflow (hmax : a.lastIndex = int64Max) :
    construct codec true s.db = .error "corrupt or non-contiguous Raft log" := by
  have htail : s.db[tailKey]? = some (encodeTail a.lastIndex a.lastTerm) := by
    rcases hr.tail with h | ⟨-, h⟩
    · exact h
    · rw [hmax] at h
      exact absurd h (by decide)
  rw [construct, hr.loadSnapshot_eq hw]
  show (loadTail codec a.snapshot s.db >>= _) = _
  rw [hr.loadTail_eq hw htail, if_neg (by omega)]
  rfl

/-- Reopening a non-empty log whose tail record was removed gives the log. -/
theorem Represents.construct_legacy (hpos : 0 < a.lastIndex) :
    construct codec true (s.db.erase tailKey) = .ok s := by
  have htail : s.db[tailKey]? = some (encodeTail a.lastIndex a.lastTerm) := by
    rcases hr.tail with h | ⟨-, h⟩
    · exact h
    · omega
  have hmeta : ∀ k, k ≠ tailKey → (s.db.erase tailKey)[k]? = s.db[k]? := by
    intro k hk
    simp [Ne.symm hk]
  have hsnap : loadSnapshot (s.db.erase tailKey) = .ok a.snapshot := by
    rw [← hr.loadSnapshot_eq hw, loadSnapshot, loadSnapshot, hmeta _ (by decide),
      hmeta _ (by decide)]
  have hnone : loadTail codec a.snapshot (s.db.erase tailKey) = .ok none := by
    rw [loadTail]
    simp
  have hdb : (s.db.erase tailKey).insert tailKey (encodeTail a.lastIndex a.lastTerm) = s.db := by
    refine Std.ExtTreeMap.ext_getElem? fun k => ?_
    rw [DB.getElem?_insert_eq, DB.getElem?_erase_eq]
    split_ifs with hk
    · rw [← hk, htail]
    · rfl
  rw [construct, hsnap]
  show (loadTail codec a.snapshot (s.db.erase tailKey) >>= _) = _
  rw [hnone]
  show ((s.db.erase tailKey).toList.foldlM (scanKey codec) (a.snapshot.index, a.snapshot.term)
    >>= _) = _
  rw [hr.scan_eq hw fun k hk => hmeta k (by rintro rfl; exact hk (by simp [metaKeys]))]
  show (if 0 < a.lastIndex then _ else _) = _
  rw [if_pos hpos, hdb, ← hr.lastIndex, ← hr.lastTerm, ← hr.snapshot]
  rfl

end

/-! ## Runs -/

/-- The log after a call, whether it returned or threw. -/
def after (codec : EntryCodec) (s : RaftLog) (c : AbstractLog.Call × Bool) : RaftLog :=
  match call codec c.2 c.1 s with
  | .ok _ t => t
  | .error _ t => t

/-- The abstract log after a call : unchanged when the call throws or its write is refused. -/
def abstractAfter (codec : EntryCodec) (a : AbstractLog) (c : AbstractLog.Call × Bool) :
    AbstractLog :=
  match a.call (serializes codec) c.1 with
  | .ok a' => if c.2 then a' else a
  | .error _ => a

/-- Every call of a run is made as the node guarantees. -/
def GuaranteedRun (codec : EntryCodec) : AbstractLog → List (AbstractLog.Call × Bool) → Prop
  | _, [] => True
  | a, c :: cs => c.1.Guaranteed a ∧ GuaranteedRun codec (abstractAfter codec a c) cs

/-- The log `s` is the abstract log `a` to its callers, its database holds the entry keys
of `a` and no others, a call that throws leaves it as it is, and it reopens as it is, with
its tail record or without. -/
structure Agrees (codec : EntryCodec) (s : RaftLog) (a : AbstractLog) : Prop where
  lastIndex : s.lastIndex = a.lastIndex
  lastTerm : s.lastTerm = a.lastTerm
  snapshot : s.snapshot = a.snapshot
  get : ∀ index, s.get codec index = .ok (a.get index)
  getTerm : ∀ index, s.getTerm codec index = .ok (a.getTerm index)
  hardState : s.loadHardState = .ok a.hardState
  pending : s.loadPendingSnapshot = .ok a.intent
  keys : ∀ k, (s.db[k]?).isSome ∧ k ∉ metaKeys ↔
    ∃ i, a.snapshot.index < i ∧ i ≤ a.lastIndex ∧ k = indexToKey i
  unchanged : ∀ c ok e t, call codec ok c s = .error e t → t = s
  reopen : construct codec true s.db = .ok s
  legacy : 0 < s.lastIndex → construct codec true (s.db.erase tailKey) = .ok s

theorem Represents.after {a : AbstractLog}
    (hr : Represents codec s a) (hw : a.WF) {c : AbstractLog.Call × Bool} (hg : c.1.Guaranteed a) :
    Represents codec (s.after codec c) (abstractAfter codec a c) ∧
      (abstractAfter codec a c).WF := by
  obtain ⟨c, ok⟩ := c
  have hkeep := wp_call codec s ok c
  have hcall := hr.call hw hg
  unfold RaftLog.after abstractAfter
  cases ok with
  | false =>
    have hs : (match RaftLog.call codec false c s with
        | .ok _ t => t
        | .error _ t => t) = s := by
      cases h : RaftLog.call codec false c s with
      | ok u t => exact wp_of_ok hkeep h rfl
      | error e t => exact wp_of_error (E := fun _ t => t = s) hkeep h
    simp only [hs, Bool.false_eq_true, if_false]
    cases a.call (serializes codec) c <;> exact ⟨hr, hw⟩
  | true =>
    cases h : RaftLog.call codec true c s with
    | ok u t =>
      obtain ⟨a', ha', hr'⟩ := wp_of_ok hcall h
      simp only [ha', if_true]
      exact ⟨hr', hw.call hg ha'⟩
    | error e t =>
      obtain rfl : t = s := wp_of_error (E := fun _ t => t = s) hkeep h
      have he : a.call (serializes codec) c = .error e :=
        wp_of_error (E := fun e _ => a.call (serializes codec) c = .error e) hcall h
      simp only [he]
      exact ⟨hr, hw⟩

theorem Represents.run {a : AbstractLog}
    (hr : Represents codec s a) (hw : a.WF) {cs : List (AbstractLog.Call × Bool)}
    (hg : GuaranteedRun codec a cs) :
    Represents codec (cs.foldl (RaftLog.after codec) s) (cs.foldl (abstractAfter codec) a) ∧
      (cs.foldl (abstractAfter codec) a).WF := by
  induction cs generalizing s a with
  | nil => exact ⟨hr, hw⟩
  | cons c cs ih =>
    obtain ⟨hr', hw'⟩ := hr.after hw hg.1
    exact ih hr' hw' hg.2

/-- A represented log agrees with its abstract log exactly when it has a next index. -/
theorem Represents.agrees_iff {a : AbstractLog}
    (hr : Represents codec s a) (hw : a.WF) : Agrees codec s a ↔ a.lastIndex < int64Max := by
  constructor
  · intro h
    by_contra hge
    have hover := hr.construct_overflow hw (le_antisymm hw.last_le (not_lt.mp hge))
    rw [h.reopen] at hover
    cases hover
  intro hlt
  exact
    { lastIndex := hr.lastIndex
      lastTerm := hr.lastTerm
      snapshot := hr.snapshot
      get := hr.get_eq hw
      getTerm := hr.getTerm_eq hw
      hardState := hr.loadHardState_eq hw
      pending := hr.pending_eq hw
      keys := hr.keys hw
      unchanged := fun c ok e t h =>
        wp_of_error (E := fun _ t => t = s) (wp_call codec s ok c) h
      reopen := hr.construct_eq hw hlt
      legacy := fun hpos => hr.construct_legacy hw (hr.lastIndex ▸ hpos) }

/-- **`RaftLog` refines the abstract log and survives reopening**, after every run of calls
made as the node guarantees, as long as the log has not reached the largest index. -/
theorem agrees_iff_lastIndex_lt (codec : EntryCodec) (cs : List (AbstractLog.Call × Bool))
    (hg : GuaranteedRun codec {} cs) :
    Agrees codec (cs.foldl (after codec) {}) (cs.foldl (abstractAfter codec) {}) ↔
      (cs.foldl (abstractAfter codec) {}).lastIndex < int64Max := by
  obtain ⟨hr, hw⟩ := (Represents.empty codec).run AbstractLog.WF.empty hg
  exact hr.agrees_iff hw

/-- A codec : the two numbers as in a tail record, then the command. -/
def flatCodec : EntryCodec where
  serialize e :=
    if 0 ≤ e.index ∧ e.index ≤ int64Max ∧ 0 ≤ e.term ∧ e.term ≤ int32Max then
      some (encodeTail e.index e.term ++ e.command)
    else none
  parse v := if v.length < 16 then none else some ⟨(fields v).1, (fields v).2, v.drop 16⟩
  parse_serialize := by
    intro e v h
    split_ifs at h with hok
    obtain rfl := Option.some.inj h
    have h₁ := toU64_eq hok.1 hok.2.1
    have h₂ := toU64_eq hok.2.2.1 (hok.2.2.2.trans int32Max_le_int64Max)
    have hdrop : (encodeTail e.index e.term ++ e.command).drop 16 = e.command :=
      List.drop_left' (by simp)
    have hlen : ¬(encodeTail e.index e.term ++ e.command).length < 16 := by simp
    rw [if_neg hlen, fields_encodeTail, hdrop]
    simp [h₁, h₂]

/-- A hard state, two entries, a refused write, a compaction, an append out of order. -/
theorem agrees_after_compaction :
    Agrees flatCodec
      ([(.saveHardState 1 (-1), true), (.appendBatch [⟨1, 1, []⟩, ⟨2, 1, []⟩], true),
        (.truncateSuffix 2, false), (.compactApplied ⟨1, 1, []⟩, true),
        (.appendBatch [⟨9, 1, []⟩], true)].foldl (after flatCodec) {})
      ([(.saveHardState 1 (-1), true), (.appendBatch [⟨1, 1, []⟩, ⟨2, 1, []⟩], true),
        (.truncateSuffix 2, false), (.compactApplied ⟨1, 1, []⟩, true),
        (.appendBatch [⟨9, 1, []⟩], true)].foldl (abstractAfter flatCodec) {}) := by
  refine (agrees_iff_lastIndex_lt flatCodec _ ?_).mpr (by decide +kernel)
  simp only [GuaranteedRun, AbstractLog.Call.Guaranteed]
  decide +kernel

/-- A snapshot at the largest index is installed as the node guarantees, and the log
cannot be reopened. -/
theorem not_agrees_at_int64Max :
    GuaranteedRun flatCodec {}
        [(.saveHardState 1 (-1), true), (.installSnapshot ⟨int64Max, 1, []⟩, true)] ∧
      ¬Agrees flatCodec
        ([(.saveHardState 1 (-1), true), (.installSnapshot ⟨int64Max, 1, []⟩, true)].foldl
          (after flatCodec) {})
        ([(.saveHardState 1 (-1), true), (.installSnapshot ⟨int64Max, 1, []⟩, true)].foldl
          (abstractAfter flatCodec) {}) := by
  refine ⟨?_, fun h => ?_⟩
  · simp only [GuaranteedRun, AbstractLog.Call.Guaranteed]
    decide +kernel
  · have hreopen := h.reopen
    revert hreopen
    decide +kernel

end RaftLog

end RaftKV
