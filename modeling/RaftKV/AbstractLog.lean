import RaftKV.Store

/-!
# The log a node works with

An `AbstractLog` is what `RaftLog` keeps, without the keys and bytes it keeps it in : a
snapshot, the entries after it, the hard state and the record of a pending install. The
operations are those of `RaftLog`, with its checks in its order and the texts of its
exceptions; an operation that throws returns no new log.

`AbstractLog.WF` is the shape every operation keeps when it is called as `RaftNode` calls
it (`AbstractLog.Call.Guaranteed`) : indexes are consecutive, terms are positive, do not
decrease and fit an `int32`, and the hard state was saved before the log got its first
entry (`AbstractLog.WF.call`).
-/

namespace RaftKV

/-- `RaftLog::kMaxSnapshotBytes`. -/
def kMaxSnapshotBytes : ℕ := 32 * 1024 * 1024

/-- `raftcore::LogEntry`. -/
structure LogEntry where
  index : ℤ
  term : ℤ
  command : Bytes
  deriving DecidableEq

/-- The state of the KV database at an index, and the term of the entry there. -/
structure Snapshot where
  index : ℤ := 0
  term : ℤ := 0
  data : Bytes := []
  deriving DecidableEq

/-- A snapshot, the entries after it, the hard state (term and vote) and the pending install. -/
structure AbstractLog where
  snapshot : Snapshot := {}
  entries : List LogEntry := []
  hardState : Option (ℤ × ℤ) := none
  intent : Option Snapshot := none
  deriving DecidableEq

namespace AbstractLog

/-! ## Operations -/

/-- `RaftLog::LastIndex`. -/
def lastIndex (a : AbstractLog) : ℤ :=
  a.snapshot.index + a.entries.length

/-- `RaftLog::LastTerm`. -/
def lastTerm (a : AbstractLog) : ℤ :=
  (a.entries.getLast?.map LogEntry.term).getD a.snapshot.term

/-- `RaftLog::Get`. -/
def get (a : AbstractLog) (index : ℤ) : Option LogEntry :=
  if index ≤ a.snapshot.index then none
  else a.entries[(index - a.snapshot.index - 1).toNat]?

/-- `RaftLog::GetTerm`. -/
def getTerm (a : AbstractLog) (index : ℤ) : ℤ :=
  if index = 0 then 0
  else if index = a.snapshot.index then a.snapshot.term
  else ((a.get index).map LogEntry.term).getD (-1)

/-- The checks of `RaftLog::AppendBatch` on entries that follow index `last`. -/
def checkAppend (serializes : LogEntry → Bool) : ℤ → List LogEntry → Except String Unit
  | _, [] => .ok ()
  | last, e :: es =>
    if last = int64Max ∨ e.index ≠ last + 1 ∨ e.term ≤ 0 then
      .error "invalid Raft append index or term"
    else if serializes e then checkAppend serializes e.index es
    else .error "serialize Raft log"

/-- `RaftLog::AppendBatch`. -/
def appendBatch (serializes : LogEntry → Bool) (es : List LogEntry) (a : AbstractLog) :
    Except String AbstractLog := do
  checkAppend serializes a.lastIndex es
  return { a with entries := a.entries ++ es }

/-- `RaftLog::TruncateSuffix`. -/
def truncateSuffix (start : ℤ) (a : AbstractLog) : Except String AbstractLog :=
  if start ≤ a.snapshot.index then .error "cannot truncate snapshotted prefix"
  else .ok { a with entries := a.entries.take (start - a.snapshot.index - 1).toNat }

/-- `RaftLog::SaveHardState`. -/
def saveHardState (term votedFor : ℤ) (a : AbstractLog) : Except String AbstractLog :=
  if term < 0 ∨ votedFor < -1 then .error "invalid hard state"
  else .ok { a with hardState := some (term, votedFor) }

/-- `RaftLog::LoadHardState` : nothing for an empty log without a record. -/
def loadHardState (a : AbstractLog) : Except String (Option (ℤ × ℤ)) :=
  match a.hardState with
  | some h => .ok (some h)
  | none => if a.lastIndex = 0 then .ok none else .error "read Raft hard state"

/-- `RaftLog::PersistSnapshot`. -/
def persistSnapshot (s : Snapshot) (keepSuffix : Bool) (a : AbstractLog) :
    Except String AbstractLog :=
  if s.index ≤ 0 ∨ s.term ≤ 0 ∨ kMaxSnapshotBytes < s.data.length then
    .error "invalid Raft snapshot"
  else .ok
    { a with
      snapshot := s
      entries := if keepSuffix then a.entries.drop (s.index - a.snapshot.index).toNat else []
      intent := none }

/-- `RaftLog::CompactApplied`. -/
def compactApplied (s : Snapshot) (a : AbstractLog) : Except String AbstractLog :=
  if s.index ≤ a.snapshot.index then .ok a
  else if a.lastIndex < s.index ∨ a.getTerm s.index ≠ s.term then
    .error "cannot snapshot an absent Raft entry"
  else a.persistSnapshot s true

/-- `RaftLog::StageSnapshotInstall`. -/
def stageSnapshotInstall (s : Snapshot) (a : AbstractLog) : Except String AbstractLog :=
  if s.index ≤ a.snapshot.index ∨ s.term ≤ 0 ∨ int32Max < s.term ∨
      kMaxSnapshotBytes < s.data.length then
    .error "invalid pending Raft snapshot"
  else if a.intent.isSome then
    .error "pending Raft snapshot must recover before another install"
  else .ok { a with intent := some s }

/-- `RaftLog::LoadPendingSnapshot`. -/
def loadPendingSnapshot (a : AbstractLog) : Except String (Option Snapshot) :=
  match a.intent with
  | none => .ok none
  | some s =>
    if s.index ≤ a.snapshot.index then .error "invalid pending Raft snapshot metadata"
    else .ok (some s)

/-- `RaftLog::InstallSnapshot`. -/
def installSnapshot (s : Snapshot) (a : AbstractLog) : Except String AbstractLog :=
  if s.index ≤ 0 ∨ s.term ≤ 0 then .error "invalid Raft snapshot"
  else if s.index < a.snapshot.index then .error "Raft snapshot would move backwards"
  else if s.index = a.snapshot.index then
    if s.term ≠ a.snapshot.term then .error "Raft snapshot term mismatch" else .ok a
  else a.persistSnapshot s (s.index ≤ a.lastIndex ∧ a.getTerm s.index = s.term)

theorem snapshot_index_le_lastIndex (a : AbstractLog) : a.snapshot.index ≤ a.lastIndex := by
  simp [lastIndex]

/-- An index has an entry exactly when it is after the snapshot and not after the end. -/
theorem get_isSome_iff {a : AbstractLog} {index : ℤ} :
    (a.get index).isSome ↔ a.snapshot.index < index ∧ index ≤ a.lastIndex := by
  unfold get lastIndex
  split_ifs with hle
  · simp only [Option.isSome_none, Bool.false_eq_true, false_iff]
    omega
  · simp only [isSome_getElem?]
    omega

section

variable {a : AbstractLog} {i : ℤ}

theorem getTerm_before (h0 : 0 < i) (hi : i < a.snapshot.index) : a.getTerm i = -1 := by
  rw [getTerm, if_neg (by omega), if_neg (by omega), get, if_pos (by omega)]
  rfl

theorem getTerm_after (h0 : 0 ≤ a.snapshot.index) (hi : a.lastIndex < i) : a.getTerm i = -1 := by
  have hle := a.snapshot_index_le_lastIndex
  have hnone : a.get i = none := by
    rw [← Option.not_isSome_iff_eq_none, get_isSome_iff]
    omega
  rw [getTerm, if_neg (by omega), if_neg (by omega), hnone]
  rfl

/-- A term that is found is at an index of the log. -/
theorem le_lastIndex_of_getTerm (h0 : 0 ≤ a.snapshot.index) (hi : a.getTerm i ≠ -1) :
    i ≤ a.lastIndex := by
  by_contra hlt
  exact hi (getTerm_after h0 (not_le.mp hlt))

theorem snapshot_le_of_getTerm (h0 : 0 < i) (hi : a.getTerm i ≠ -1) : a.snapshot.index ≤ i := by
  by_contra hlt
  exact hi (getTerm_before h0 (not_le.mp hlt))

end

/-- What the checks of an append establish. -/
theorem checkAppend_ok {serializes : LogEntry → Bool} {es : List LogEntry} {last : ℤ}
    (hmax : last ≤ int64Max) (h : checkAppend serializes last es = .ok ()) :
    (∀ i (hi : i < es.length), es[i].index = last + 1 + i) ∧ (∀ e ∈ es, 0 < e.term) ∧
      (∀ e ∈ es, serializes e) ∧ last + es.length ≤ int64Max := by
  induction es generalizing last with
  | nil => simpa using hmax
  | cons e es ih =>
    rw [checkAppend] at h
    split_ifs at h with hbad hser
    obtain ⟨hne, hidx, hterm⟩ : last ≠ int64Max ∧ e.index = last + 1 ∧ 0 < e.term := by
      push Not at hbad
      exact hbad
    obtain ⟨h₁, h₂, h₃, h₄⟩ := ih (by omega) h
    refine ⟨?_, by simpa using ⟨hterm, h₂⟩, by simpa using ⟨hser, h₃⟩, ?_⟩
    · intro i hi
      cases i with
      | zero => simpa using hidx
      | succ i =>
        have := h₁ i (by simpa using hi)
        simp only [List.getElem_cons_succ, Nat.cast_add, Nat.cast_one]
        omega
    · simp only [List.length_cons, Nat.cast_add, Nat.cast_one]
      omega

/-! ## Calls and what the node guarantees of them -/

/-- A call of one of the six operations that write. -/
inductive Call where
  | appendBatch (es : List LogEntry)
  | truncateSuffix (start : ℤ)
  | compactApplied (s : Snapshot)
  | stageSnapshotInstall (s : Snapshot)
  | installSnapshot (s : Snapshot)
  | saveHardState (term votedFor : ℤ)
  deriving DecidableEq

/-- What a call makes of the log. -/
def call (serializes : LogEntry → Bool) (a : AbstractLog) : Call → Except String AbstractLog
  | .appendBatch es => a.appendBatch serializes es
  | .truncateSuffix start => a.truncateSuffix start
  | .compactApplied s => a.compactApplied s
  | .stageSnapshotInstall s => a.stageSnapshotInstall s
  | .installSnapshot s => a.installSnapshot s
  | .saveHardState term votedFor => a.saveHardState term votedFor

/-- What `RaftNode` guarantees of a call : its arguments are values of their types, terms
fit an `int32` and do not decrease along the log, and the hard state was saved before the
first append or install. -/
def Call.Guaranteed (a : AbstractLog) : Call → Prop
  | .appendBatch es => a.hardState.isSome ∧ (∀ e ∈ es, e.term ≤ int32Max) ∧
      (a.lastTerm :: es.map LogEntry.term).IsChain (· ≤ ·)
  | .truncateSuffix _ => True
  | .compactApplied _ => True
  | .stageSnapshotInstall s => s.index ≤ int64Max
  | .installSnapshot s => a.hardState.isSome ∧ s.index ≤ int64Max ∧ s.term ≤ int32Max
  | .saveHardState term votedFor => term ≤ int32Max ∧ votedFor ≤ int32Max

/-! ## Well-formed logs -/

/-- A snapshot that may be stored. -/
structure SnapshotOk (s : Snapshot) : Prop where
  index_pos : 0 < s.index
  index_le : s.index ≤ int64Max
  term_pos : 0 < s.term
  term_le : s.term ≤ int32Max
  data_le : s.data.length ≤ kMaxSnapshotBytes

/-- The shape of a log. -/
structure WF (a : AbstractLog) : Prop where
  snapshot : a.snapshot = {} ∨ SnapshotOk a.snapshot
  index : ∀ i (hi : i < a.entries.length), a.entries[i].index = a.snapshot.index + 1 + i
  term_pos : ∀ e ∈ a.entries, 0 < e.term
  term_le : ∀ e ∈ a.entries, e.term ≤ int32Max
  terms : (a.snapshot.term :: a.entries.map LogEntry.term).IsChain (· ≤ ·)
  last_le : a.lastIndex ≤ int64Max
  hard : ∀ h ∈ a.hardState, 0 ≤ h.1 ∧ h.1 ≤ int32Max ∧ -1 ≤ h.2 ∧ h.2 ≤ int32Max
  hard_saved : a.lastIndex ≠ 0 → a.hardState.isSome
  intent : ∀ s ∈ a.intent, SnapshotOk s ∧ a.snapshot.index < s.index

theorem WF.empty : WF {} where
  snapshot := .inl rfl
  index := by simp
  term_pos := by simp
  term_le := by simp
  terms := by simp
  last_le := by decide
  hard := by simp
  hard_saved := by decide
  intent := by simp

namespace WF

variable {a : AbstractLog} (h : WF a)
include h

theorem snapshot_index_nonneg : 0 ≤ a.snapshot.index := by
  rcases h.snapshot with h | h
  · simp [h]
  · exact h.index_pos.le

theorem snapshot_term_le : a.snapshot.term ≤ int32Max := by
  rcases h.snapshot with h | h
  · simp [h, int32Max]
  · exact h.term_le

theorem snapshot_term_nonneg : 0 ≤ a.snapshot.term := by
  rcases h.snapshot with h | h
  · simp [h]
  · exact h.term_pos.le

/-- The entry at a position of the list is the one at its index. -/
theorem get_eq_some_iff {index : ℤ} {e : LogEntry} :
    a.get index = some e ↔ e ∈ a.entries ∧ e.index = index := by
  unfold get
  constructor
  · intro hget
    split_ifs at hget with hle
    obtain ⟨hi, rfl⟩ := List.getElem?_eq_some_iff.mp hget
    refine ⟨List.getElem_mem hi, ?_⟩
    have := h.index _ hi
    omega
  rintro ⟨hmem, rfl⟩
  obtain ⟨i, hi, rfl⟩ := List.getElem_of_mem hmem
  have hidx := h.index i hi
  rw [if_neg (by omega), List.getElem?_eq_some_iff]
  refine ⟨by omega, ?_⟩
  congr 1
  omega

theorem mem_take_iff {n : ℕ} {e : LogEntry} :
    e ∈ a.entries.take n ↔ e ∈ a.entries ∧ e.index ≤ a.snapshot.index + n := by
  constructor
  · intro he
    obtain ⟨i, hi, rfl⟩ := List.getElem_of_mem he
    have hi' : i < n ∧ i < a.entries.length := by simpa using hi
    have := h.index i hi'.2
    rw [List.getElem_take]
    exact ⟨List.getElem_mem _, by omega⟩
  rintro ⟨he, hle⟩
  obtain ⟨i, hi, rfl⟩ := List.getElem_of_mem he
  have := h.index i hi
  exact List.mem_take_iff_getElem.mpr ⟨i, by omega, rfl⟩

theorem mem_drop_iff {n : ℕ} {e : LogEntry} :
    e ∈ a.entries.drop n ↔ e ∈ a.entries ∧ a.snapshot.index + n < e.index := by
  constructor
  · intro he
    obtain ⟨i, hi, rfl⟩ := List.getElem_of_mem he
    have hi' : n + i < a.entries.length := by
      simp only [List.length_drop] at hi
      omega
    have := h.index (n + i) hi'
    rw [List.getElem_drop]
    exact ⟨List.getElem_mem _, by omega⟩
  · rintro ⟨he, hlt⟩
    obtain ⟨i, hi, rfl⟩ := List.getElem_of_mem he
    have := h.index i hi
    refine List.mem_drop_iff_getElem.mpr ⟨i - n, by omega, ?_⟩
    congr 1
    omega

theorem getTerm_lastIndex : a.getTerm a.lastIndex = a.lastTerm := by
  have hnn := h.snapshot_index_nonneg
  rcases List.eq_nil_or_concat a.entries with hnil | ⟨es, e, hcat⟩
  · rcases h.snapshot with hs | hs
    · simp [getTerm, lastIndex, lastTerm, hnil, hs]
    have := hs.index_pos
    simp only [getTerm, lastIndex, lastTerm, hnil, List.length_nil, Nat.cast_zero, add_zero,
      List.getLast?_nil, Option.map_none, Option.getD_none, if_true]
    rw [if_neg (by omega)]
  have hlen : a.entries.length = es.length + 1 := by simp [hcat]
  have hget : a.get a.lastIndex = some e := by
    rw [h.get_eq_some_iff]
    refine ⟨by simp [hcat], ?_⟩
    have := h.index es.length (by omega)
    simp only [hcat, List.concat_eq_append, List.getElem_append_right, le_refl, Nat.sub_self,
      List.getElem_cons_zero] at this
    rw [this, lastIndex, hlen]
    push_cast
    ring
  rw [getTerm, if_neg (by simp only [lastIndex]; omega),
    if_neg (by simp only [lastIndex]; omega), hget]
  simp [lastTerm, hcat]

theorem lastTerm_le : a.lastTerm ≤ int32Max := by
  unfold lastTerm
  cases hl : a.entries.getLast? with
  | none => simpa using h.snapshot_term_le
  | some e => simpa using h.term_le e (List.mem_of_getLast? hl)

theorem lastTerm_nonneg : 0 ≤ a.lastTerm := by
  unfold lastTerm
  cases hl : a.entries.getLast? with
  | none => simpa using h.snapshot_term_nonneg
  | some e => simpa using (h.term_pos e (List.mem_of_getLast? hl)).le

/-- The terms of a log do not decrease, so a prefix of them ends below the rest. -/
theorem chain_append {es : List LogEntry}
    (hes : (a.lastTerm :: es.map LogEntry.term).IsChain (· ≤ ·)) :
    (a.snapshot.term :: (a.entries ++ es).map LogEntry.term).IsChain (· ≤ ·) := by
  rw [List.map_append, ← List.cons_append, List.isChain_append]
  refine ⟨h.terms, hes.tail, ?_⟩
  intro x hx y hy
  have hlast : x = a.lastTerm := by
    rw [lastTerm]
    rcases List.eq_nil_or_concat a.entries with hnil | ⟨l, e, hcat⟩
    · simpa [hnil, eq_comm] using hx
    · rw [hcat, List.concat_eq_append, List.map_append, ← List.cons_append, List.map_singleton,
        List.getLast?_concat] at hx
      simpa [hcat, eq_comm] using hx
  subst hlast
  cases es with
  | nil => simp at hy
  | cons e es =>
    obtain rfl : e.term = y := by simpa using hy
    simpa using hes.rel

theorem append {serializes : LogEntry → Bool} {es : List LogEntry} {a' : AbstractLog}
    (hg : Call.Guaranteed a (.appendBatch es)) (ha : a.appendBatch serializes es = .ok a') :
    WF a' := by
  obtain ⟨hhard, hle, hchain⟩ := hg
  unfold appendBatch at ha
  cases hc : checkAppend serializes a.lastIndex es with
  | error e => rw [hc] at ha; cases ha
  | ok u =>
    rw [hc] at ha
    obtain rfl := Except.ok.inj ha
    obtain ⟨hidx, hpos, -, hmax⟩ := checkAppend_ok h.last_le hc
    refine { h with
      index := ?_, term_pos := ?_, term_le := ?_, terms := h.chain_append hchain,
      last_le := ?_, hard_saved := fun _ => hhard }
    · intro i hi
      rcases lt_or_ge i a.entries.length with hlt | hge
      · simpa [List.getElem_append_left hlt] using h.index i hlt
      · have := hidx (i - a.entries.length) (by simp at hi; omega)
        simp only [List.getElem_append_right hge, this, lastIndex]
        omega
    · intro e he
      rcases List.mem_append.mp he with he | he
      · exact h.term_pos e he
      · exact hpos e he
    · intro e he
      rcases List.mem_append.mp he with he | he
      · exact h.term_le e he
      · exact hle e he
    · simp only [lastIndex, List.length_append, Nat.cast_add] at hmax ⊢
      omega

theorem truncate {start : ℤ} {a' : AbstractLog} (ha : a.truncateSuffix start = .ok a') : WF a' := by
  unfold truncateSuffix at ha
  split_ifs at ha with hle
  obtain rfl := Except.ok.inj ha
  have hsub : ∀ e ∈ a.entries.take (start - a.snapshot.index - 1).toNat, e ∈ a.entries :=
    fun e he => List.mem_of_mem_take he
  have hlen := List.length_take_le' (start - a.snapshot.index - 1).toNat a.entries
  refine { h with
    index := ?_, term_pos := fun e he => h.term_pos e (hsub e he),
    term_le := fun e he => h.term_le e (hsub e he), terms := ?_, last_le := ?_,
    hard_saved := ?_ }
  · intro i hi
    have hi' : i < a.entries.length := by simp at hi; omega
    simpa using h.index i hi'
  · have := h.terms.take ((start - a.snapshot.index - 1).toNat + 1)
    simpa [List.map_take] using this
  · have := h.last_le
    simp only [lastIndex] at *
    omega
  intro hne
  refine h.hard_saved fun h0 => hne ?_
  have := h.snapshot_index_nonneg
  simp only [lastIndex] at *
  omega

variable {s : Snapshot}

theorem replace (hs : SnapshotOk s) (hhard : a.hardState.isSome) :
    WF { a with snapshot := s, entries := [], intent := none } where
  snapshot := .inr hs
  index := by simp
  term_pos := by simp
  term_le := by simp
  terms := by simp
  last_le := by simpa [lastIndex] using hs.index_le
  hard := h.hard
  hard_saved := fun _ => hhard
  intent := by simp

/-- The terms from a snapshotted entry on. -/
theorem terms_drop (hlt : a.snapshot.index < s.index) (hle : s.index ≤ a.lastIndex)
    (hterm : a.getTerm s.index = s.term) :
    (s.term :: (a.entries.drop (s.index - a.snapshot.index).toNat).map LogEntry.term).IsChain
      (· ≤ ·) := by
  obtain ⟨m, hm⟩ : ∃ m : ℕ, s.index = a.snapshot.index + 1 + m :=
    ⟨(s.index - a.snapshot.index - 1).toNat, by omega⟩
  have hlen : m < a.entries.length := by
    simp only [lastIndex] at hle
    omega
  have hn : (s.index - a.snapshot.index).toNat = m + 1 := by omega
  have hnn := h.snapshot_index_nonneg
  have hget : a.get s.index = some a.entries[m] := by
    rw [h.get_eq_some_iff]
    exact ⟨List.getElem_mem hlen, by rw [h.index m hlen, hm]⟩
  rw [getTerm, if_neg (by omega), if_neg (by omega), hget] at hterm
  have hdrop := h.terms.drop (m + 1)
  rw [List.drop_succ_cons, ← List.map_drop, List.drop_eq_getElem_cons hlen, List.map_cons] at hdrop
  rw [hn, ← hterm]
  exact hdrop

theorem compact (hs : SnapshotOk s) (hhard : a.hardState.isSome)
    (hlt : a.snapshot.index < s.index) (hle : s.index ≤ a.lastIndex)
    (hterm : a.getTerm s.index = s.term) :
    WF { a with
      snapshot := s
      entries := a.entries.drop (s.index - a.snapshot.index).toNat
      intent := none } where
  snapshot := .inr hs
  index := by
    intro i hi
    have := h.index ((s.index - a.snapshot.index).toNat + i) (by simp at hi; omega)
    simp only [List.getElem_drop, this]
    omega
  term_pos := fun e he => h.term_pos e (List.mem_of_mem_drop he)
  term_le := fun e he => h.term_le e (List.mem_of_mem_drop he)
  terms := h.terms_drop hlt hle hterm
  last_le := by
    have := h.last_le
    simp only [lastIndex, List.length_drop] at *
    omega
  hard := h.hard
  hard_saved := fun _ => hhard
  intent := by simp

omit h in
theorem lastIndex_compact (hlt : a.snapshot.index < s.index)
    (hle : s.index ≤ a.lastIndex) (i : Option Snapshot) :
    lastIndex { a with
      snapshot := s
      entries := a.entries.drop (s.index - a.snapshot.index).toNat
      intent := i } = a.lastIndex := by
  simp only [lastIndex, List.length_drop] at *
  omega

theorem lastTerm_compact (hlt : a.snapshot.index < s.index)
    (hle : s.index ≤ a.lastIndex) (hterm : a.getTerm s.index = s.term) (i : Option Snapshot) :
    lastTerm { a with
      snapshot := s
      entries := a.entries.drop (s.index - a.snapshot.index).toNat
      intent := i } = a.lastTerm := by
  have hlen : (a.lastIndex : ℤ) = a.snapshot.index + a.entries.length := rfl
  rcases hle.lt_or_eq with hlt' | heq
  · rw [lastTerm, lastTerm, List.getLast?_drop, if_neg (by omega)]
    obtain ⟨e, he⟩ : ∃ e, a.entries.getLast? = some e :=
      Option.isSome_iff_exists.mp (by rw [List.getLast?_isSome]; intro hnil; simp_all; omega)
    simp [he]
  have hdrop : a.entries.drop (s.index - a.snapshot.index).toNat = [] :=
    List.drop_eq_nil_of_le (by omega)
  rw [← h.getTerm_lastIndex, ← heq, hterm]
  simp [lastTerm, hdrop]

theorem persist {keep : Bool} {a' : AbstractLog} (hs : s.index ≤ int64Max)
    (ht : s.term ≤ int32Max) (hhard : a.hardState.isSome) (hlt : a.snapshot.index < s.index)
    (hkeep : keep → s.index ≤ a.lastIndex ∧ a.getTerm s.index = s.term)
    (ha : a.persistSnapshot s keep = .ok a') : WF a' := by
  rw [persistSnapshot] at ha
  by_cases hbad : s.index ≤ 0 ∨ s.term ≤ 0 ∨ kMaxSnapshotBytes < s.data.length
  · rw [if_pos hbad] at ha
    cases ha
  rw [if_neg hbad] at ha
  push Not at hbad
  have hok : SnapshotOk s := ⟨hbad.1, hs, hbad.2.1, ht, hbad.2.2⟩
  cases keep with
  | false => exact Except.ok.inj ha ▸ h.replace hok hhard
  | true => exact Except.ok.inj ha ▸ h.compact hok hhard hlt (hkeep rfl).1 (hkeep rfl).2

/-- **Every call the node makes keeps a log well formed.** -/
theorem call {serializes : LogEntry → Bool} {c : Call} {a' : AbstractLog}
    (hg : c.Guaranteed a) (ha : a.call serializes c = .ok a') : WF a' := by
  cases c with
  | appendBatch es => exact h.append hg ha
  | truncateSuffix start => exact h.truncate ha
  | compactApplied s =>
    simp only [AbstractLog.call, compactApplied] at ha
    split_ifs at ha with hle hbad
    · exact Except.ok.inj ha ▸ h
    push Not at hbad
    have hpos : a.lastIndex ≠ 0 := by
      have := h.snapshot_index_nonneg
      omega
    have hterm : s.term ≤ int32Max := by
      rw [← hbad.2, getTerm]
      split_ifs
      · decide
      · exact h.snapshot_term_le
      · cases hget : a.get s.index with
        | none => decide
        | some e => exact h.term_le e (h.get_eq_some_iff.mp hget).1
    exact h.persist (hbad.1.trans h.last_le) hterm (h.hard_saved hpos) (by omega)
      (fun _ => hbad) ha
  | stageSnapshotInstall s =>
    simp only [AbstractLog.call, stageSnapshotInstall] at ha
    split_ifs at ha with hbad hint
    push Not at hbad
    obtain rfl := Except.ok.inj ha
    have := h.snapshot_index_nonneg
    refine { h with intent := ?_ }
    rintro s' hs'
    obtain rfl := Option.some.inj hs'
    exact ⟨⟨by omega, hg, hbad.2.1, hbad.2.2.1, hbad.2.2.2⟩, hbad.1⟩
  | installSnapshot s =>
    obtain ⟨hhard, hidx, hterm⟩ := hg
    simp only [AbstractLog.call, installSnapshot] at ha
    split_ifs at ha with hbad hlt heq hne
    · exact Except.ok.inj ha ▸ h
    · exact h.persist hidx hterm hhard (by omega) (by simp) ha
  | saveHardState term votedFor =>
    simp only [AbstractLog.call, saveHardState] at ha
    split_ifs at ha with hbad
    push Not at hbad
    obtain rfl := Except.ok.inj ha
    refine { h with hard := ?_, hard_saved := fun _ => rfl }
    rintro t ht
    obtain rfl := Option.some.inj ht
    exact ⟨hbad.1, hg.1, hbad.2, hg.2⟩

end WF

end AbstractLog

end RaftKV
