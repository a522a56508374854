import RaftKV.AbstractLog

/-!
# The durable log

`RaftLog` keeps the hard state, the entries, the snapshot, a pending install and the tail
record (last index and term) of a node in one database, and caches the last index, the
last term and the snapshot in memory. An entry is stored under the eight big-endian bytes
of its index; index 0 is the hard state.

Each method that writes does so in one batch, and updates the cache after it. Its argument
`ok` says whether the engine accepts that write. The entries are protobuf messages : the
codec is a parameter, of which we ask that it reads back what it wrote.

`RaftLog.construct` is the constructor. It reads the tail record when there is one and
then reads every entry after the snapshot (`verifySuffix`); without a tail record it scans
the whole database. The loop of `verifySuffix` counts in `int64_t`, where the successor of
the largest value is not defined; `next64` takes it to be the smallest one, as the
processors do.
-/

namespace RaftKV

/-- Smallest value of a signed 64-bit integer. -/
def int64Min : ℤ := -2 ^ 63

/-- `++index` on an `int64_t`. -/
def next64 (index : ℤ) : ℤ :=
  if index = int64Max then int64Min else index + 1

/-- `static_cast<uint64_t>`. -/
def toU64 (v : ℤ) : ℕ := (v % 2 ^ 64).toNat

/-- `static_cast<uint32_t>`. -/
def toU32 (v : ℤ) : ℕ := (v % 2 ^ 32).toNat

/-- `SerializeToString` and `ParseFromString` of an entry. -/
structure EntryCodec where
  serialize : LogEntry → Option Bytes
  parse : Bytes → Option LogEntry
  parse_serialize : ∀ {e v}, serialize e = some v → parse v = some e

/-- `RaftLog` : the database and the cached fields. -/
structure RaftLog where
  db : DB := ∅
  lastIndex : ℤ := 0
  lastTerm : ℤ := 0
  snapshot : Snapshot := {}
  deriving DecidableEq

/-- A method of the log. -/
abbrev RaftLogM := EStateM String RaftLog

namespace RaftLog

/-! ## Keys and records -/

/-- `RaftLog::SnapshotMetaKey`. -/
def snapshotMetaKey : Bytes := ascii "raftkv-snapshot-meta"

/-- `RaftLog::SnapshotDataKey`. -/
def snapshotDataKey : Bytes := ascii "raftkv-snapshot-data"

/-- `RaftLog::TailKey`. -/
def tailKey : Bytes := ascii "raftkv-log-tail"

/-- `RaftLog::SnapshotIntentKey`. -/
def snapshotIntentKey : Bytes := ascii "raftkv-install-intent-v1"

/-- `RaftLog::IndexToKey`. -/
def indexToKey (index : ℤ) : Bytes := beBytes 8 (toU64 index)

/-- `RaftLog::EncodeTail`. -/
def encodeTail (index term : ℤ) : Bytes := beBytes 8 (toU64 index) ++ beBytes 8 (toU64 term)

/-- The record of the hard state. -/
def encodeHardState (h : ℤ × ℤ) : Bytes := leBytes 4 (toU32 h.1) ++ leBytes 4 (toU32 h.2)

/-- The record of a pending install. -/
def encodeIntent (s : Snapshot) : Bytes := encodeTail s.index s.term ++ s.data

/-- The two big-endian fields of a record. -/
def fields (raw : Bytes) : ℕ × ℕ := (beNat (raw.take 8), beNat ((raw.drop 8).take 8))

/-- The two little-endian fields of the hard state record. -/
def hardFields (raw : Bytes) : ℕ × ℕ := (leNat (raw.take 4), leNat ((raw.drop 4).take 4))

/-- The keys that are not entries. -/
def metaKeys : List Bytes :=
  [indexToKey 0, snapshotMetaKey, snapshotDataKey, tailKey, snapshotIntentKey]

/-- The indexes from `first` to `last`. -/
def indexRange (first last : ℤ) : List ℤ :=
  (List.range (last + 1 - first).toNat).map fun n : ℕ => first + n

/-- A durable write of one batch. -/
def write (ok : Bool) (batch : List BatchOp) (operation : String) : RaftLogM Unit :=
  if ok then modify fun s => { s with db := s.db.write batch } else throw operation

/-! ## Methods -/

section Methods

variable (codec : EntryCodec)

/-- The loop of `AppendBatch` : the puts, after the checks. -/
def appendLoop : ℤ → List LogEntry → Except String (List BatchOp × ℤ)
  | last, [] => .ok ([], last)
  | last, e :: es =>
    if last = int64Max ∨ e.index ≠ last + 1 ∨ e.term ≤ 0 then
      .error "invalid Raft append index or term"
    else match codec.serialize e with
      | none => .error "serialize Raft log"
      | some value => do
        let (puts, last) ← appendLoop e.index es
        return (.put (indexToKey e.index) value :: puts, last)

/-- `RaftLog::AppendBatch`. -/
def appendBatch (ok : Bool) (es : List LogEntry) : RaftLogM Unit := do
  match es.getLast? with
  | none => return
  | some back =>
    let s ← MonadState.get
    let (puts, last) ← ofExcept (appendLoop codec s.lastIndex es)
    write ok (puts ++ [.put tailKey (encodeTail last back.term)]) "append Raft log batch"
    modify fun s => { s with lastIndex := last, lastTerm := back.term }

/-- `RaftLog::Get`. -/
def get (s : RaftLog) (index : ℤ) : Except String (Option LogEntry) :=
  if index ≤ s.snapshot.index ∨ s.lastIndex < index then .ok none
  else match s.db[indexToKey index]? with
    | none => .error "read Raft log"
    | some value =>
      match codec.parse value with
      | none => .error "corrupt Raft log entry"
      | some e =>
        if e.index ≠ index ∨ e.term ≤ 0 then .error "corrupt Raft log entry" else .ok (some e)

/-- `RaftLog::GetTerm`. -/
def getTerm (s : RaftLog) (index : ℤ) : Except String ℤ :=
  if index = 0 then .ok 0
  else if index = s.snapshot.index then .ok s.snapshot.term
  else if index < s.snapshot.index then .ok (-1)
  else do
    match ← s.get codec index with
    | some e => return e.term
    | none => return -1

/-- `RaftLog::TruncateSuffix`. -/
def truncateSuffix (ok : Bool) (start : ℤ) : RaftLogM Unit := do
  let s ← MonadState.get
  if start ≤ s.snapshot.index then throw "cannot truncate snapshotted prefix"
  if s.lastIndex < start then return
  let newLastIndex := start - 1
  let newLastTerm ← if newLastIndex = 0 then pure 0 else ofExcept (s.getTerm codec newLastIndex)
  write ok ((indexRange start s.lastIndex).map (fun i => .delete (indexToKey i)) ++
    [.put tailKey (encodeTail newLastIndex newLastTerm)]) "truncate Raft log"
  modify fun s => { s with lastIndex := newLastIndex, lastTerm := newLastTerm }

/-- `RaftLog::SaveHardState`. -/
def saveHardState (ok : Bool) (term votedFor : ℤ) : RaftLogM Unit := do
  if term < 0 ∨ votedFor < -1 then throw "invalid hard state"
  write ok [.put (indexToKey 0) (encodeHardState (term, votedFor))] "persist Raft hard state"

/-- `RaftLog::LoadHardState`. -/
def loadHardState (s : RaftLog) : Except String (Option (ℤ × ℤ)) :=
  match s.db[indexToKey 0]? with
  | none => if s.lastIndex = 0 then .ok none else .error "read Raft hard state"
  | some value =>
    if value.length ≠ 8 then .error "corrupt Raft hard state"
    else
      let (term, votedFor) := hardFields value
      if int32Max < term ∨ (int32Max < votedFor ∧ votedFor ≠ 2 ^ 32 - 1) then
        .error "invalid Raft hard state"
      else .ok (some (term, if votedFor = 2 ^ 32 - 1 then -1 else votedFor))

/-- `RaftLog::PersistSnapshot`. -/
def persistSnapshot (ok : Bool) (p : Snapshot) (keepSuffix : Bool) : RaftLogM Unit := do
  if p.index ≤ 0 ∨ p.term ≤ 0 ∨ kMaxSnapshotBytes < p.data.length then
    throw "invalid Raft snapshot"
  let s ← MonadState.get
  let deleteThrough := if keepSuffix then p.index else s.lastIndex
  write ok
    ([.put snapshotMetaKey (encodeTail p.index p.term), .put snapshotDataKey p.data,
      .delete snapshotIntentKey,
      .put tailKey (encodeTail (if keepSuffix then s.lastIndex else p.index)
        (if keepSuffix then s.lastTerm else p.term))] ++
      (indexRange (s.snapshot.index + 1) deleteThrough).map fun i => .delete (indexToKey i))
    "persist Raft snapshot"
  modify fun s =>
    { s with
      snapshot := p
      lastIndex := if keepSuffix then s.lastIndex else p.index
      lastTerm := if keepSuffix then s.lastTerm else p.term }

/-- `RaftLog::CompactApplied`. -/
def compactApplied (ok : Bool) (p : Snapshot) : RaftLogM Unit := do
  let s ← MonadState.get
  if p.index ≤ s.snapshot.index then return
  if s.lastIndex < p.index then throw "cannot snapshot an absent Raft entry"
  if (← ofExcept (s.getTerm codec p.index)) ≠ p.term then
    throw "cannot snapshot an absent Raft entry"
  persistSnapshot ok p true

/-- `RaftLog::StageSnapshotInstall`. -/
def stageSnapshotInstall (ok : Bool) (p : Snapshot) : RaftLogM Unit := do
  let s ← MonadState.get
  if p.index ≤ s.snapshot.index ∨ p.term ≤ 0 ∨ int32Max < p.term ∨
      kMaxSnapshotBytes < p.data.length then
    throw "invalid pending Raft snapshot"
  if (s.db[snapshotIntentKey]?).isSome then
    throw "pending Raft snapshot must recover before another install"
  write ok [.put snapshotIntentKey (encodeIntent p),
    .put tailKey (encodeTail s.lastIndex s.lastTerm)]
    "stage Raft snapshot install"

/-- `RaftLog::LoadPendingSnapshot`. -/
def loadPendingSnapshot (s : RaftLog) : Except String (Option Snapshot) :=
  match s.db[snapshotIntentKey]? with
  | none => .ok none
  | some record =>
    if record.length < 16 ∨ kMaxSnapshotBytes < record.length - 16 then
      .error "corrupt pending Raft snapshot"
    else
      let (index, term) := fields record
      if index ≤ toU64 s.snapshot.index ∨ int64Max < index ∨ term = 0 ∨ int32Max < term then
        .error "invalid pending Raft snapshot metadata"
      else .ok (some ⟨index, term, record.drop 16⟩)

/-- `RaftLog::InstallSnapshot`. -/
def installSnapshot (ok : Bool) (p : Snapshot) : RaftLogM Unit := do
  if p.index ≤ 0 ∨ p.term ≤ 0 then throw "invalid Raft snapshot"
  let s ← MonadState.get
  if p.index < s.snapshot.index then throw "Raft snapshot would move backwards"
  if p.index = s.snapshot.index then
    if p.term ≠ s.snapshot.term then throw "Raft snapshot term mismatch"
    return
  let keepSuffix ← if p.index ≤ s.lastIndex then
      (fun term => decide (term = p.term)) <$> ofExcept (s.getTerm codec p.index)
    else pure false
  persistSnapshot ok p keepSuffix

/-! ## The constructor -/

/-- `RaftLog::LoadSnapshot`. -/
def loadSnapshot (db : DB) : Except String Snapshot :=
  match db[snapshotMetaKey]? with
  | none => .ok {}
  | some record =>
    if record.length ≠ 16 then .error "corrupt Raft snapshot metadata"
    else
      let (index, term) := fields record
      if index = 0 ∨ int64Max < index ∨ term = 0 ∨ int64Max < term then
        .error "invalid Raft snapshot metadata"
      else match db[snapshotDataKey]? with
        | none => .error "read Raft snapshot data"
        | some data =>
          if kMaxSnapshotBytes < data.length then .error "Raft snapshot too large"
          else .ok ⟨index, term, data⟩

/-- The loop of `VerifySuffix`. The number bounds the turns it can take; `verifySuffix`
gives it enough. -/
def verifyLoop (s : RaftLog) : ℕ → ℤ → ℤ → Except String Unit
  | 0, _, _ => .error "more turns than indexes"
  | turns + 1, index, previousTerm =>
    if s.lastIndex < index then .ok ()
    else do
      match ← s.get codec index with
      | none => throw "corrupt or non-contiguous Raft log"
      | some e =>
        if e.term < previousTerm then throw "corrupt or non-contiguous Raft log"
        verifyLoop s turns (next64 index) e.term

/-- `RaftLog::VerifySuffix`. -/
def verifySuffix (s : RaftLog) : Except String Unit :=
  verifyLoop codec s ((s.lastIndex - s.snapshot.index).toNat + 1) (next64 s.snapshot.index)
    (if s.snapshot.index = 0 then 0 else s.snapshot.term)

/-- `RaftLog::LoadTail` : nothing for a log written before the tail record. -/
def loadTail (snapshot : Snapshot) (db : DB) : Except String (Option RaftLog) :=
  match db[tailKey]? with
  | none => .ok none
  | some raw =>
    if raw.length ≠ 16 then .error "corrupt Raft log tail"
    else do
      let index : ℤ := (fields raw).1
      let term : ℤ := (fields raw).2
      if int64Max < index ∨ int32Max < term then throw "invalid Raft log tail"
      if index < snapshot.index then throw "Raft log tail precedes its snapshot"
      if index = 0 then
        if term ≠ 0 ∨ snapshot.index ≠ 0 then throw "invalid empty Raft log tail"
      else if index = snapshot.index then
        if term ≠ snapshot.term then throw "Raft log tail does not match its snapshot"
      else match db[indexToKey index]? with
        | none => throw "read Raft log tail entry"
        | some value =>
          match codec.parse value with
          | none => throw "corrupt Raft log tail entry"
          | some e =>
            if e.index ≠ index ∨ e.term ≠ term ∨ term ≤ 0 then
              throw "corrupt Raft log tail entry"
      let s : RaftLog := ⟨db, index, term, snapshot⟩
      s.verifySuffix codec
      return some s

/-- One key of the full scan : the last index and term so far. -/
def scanKey (last : ℤ × ℤ) (kv : Bytes × Bytes) : Except String (ℤ × ℤ) :=
  if kv.1 ∈ metaKeys then .ok last
  else if last.1 = int64Max ∨ kv.1 ≠ indexToKey (last.1 + 1) then
    .error "corrupt or non-contiguous Raft log"
  else match codec.parse kv.2 with
    | none => .error "corrupt or non-contiguous Raft log"
    | some e =>
      if e.index ≠ last.1 + 1 ∨ e.term ≤ 0 ∨ e.term < last.2 then
        .error "corrupt or non-contiguous Raft log"
      else .ok (last.1 + 1, e.term)

/-- The constructor on a database. -/
def construct (ok : Bool) (db : DB) : Except String RaftLog := do
  let snapshot ← loadSnapshot db
  match ← loadTail codec snapshot db with
  | some s => return s
  | none =>
    let (last, term) ← db.toList.foldlM (scanKey codec) (snapshot.index, snapshot.term)
    if 0 < last then
      if ok then return ⟨db.insert tailKey (encodeTail last term), last, term, snapshot⟩
      else throw "persist Raft log tail"
    else return ⟨db, last, term, snapshot⟩

/-- A call of one of the methods that write. -/
def call (ok : Bool) : AbstractLog.Call → RaftLogM Unit
  | .appendBatch es => appendBatch codec ok es
  | .truncateSuffix start => truncateSuffix codec ok start
  | .compactApplied s => compactApplied codec ok s
  | .stageSnapshotInstall s => stageSnapshotInstall ok s
  | .installSnapshot s => installSnapshot codec ok s
  | .saveHardState term votedFor => saveHardState ok term votedFor

end Methods

end RaftLog

end RaftKV
