import RaftKV.Node.Facts
import RaftKV.PeerManager
import RaftKV.Proto3

/-!
# Requests on the wire

The requests of a leader in proto3, and the four limits they meet : the bytes of a batch with an
estimate of what the fields take, the size of a snapshot chunk, the limit of the codec on a
frame, and the bound of `PeerManager::Send` on the bytes that wait for a peer.

A batch of entries fits all of them. A chunk fits the codec, but `SetSnapshotChunkBytes` lets
chunks through that are larger than the bound of `Send` : such a frame is refused even when
nothing waits, and so is every later attempt, which sends the same chunk again
(`frames_sendable`).
-/

namespace RaftKV

open Proto3 PeerManager

/-! ## Messages in proto3 -/

/-- `LogEntry::SerializeToString`. -/
def LogEntry.encode (e : LogEntry) : Bytes :=
  intField 1 e.index ++ intField 2 e.term ++ bytesField 3 e.command

/-- `AppendEntries::SerializeToString`. -/
def AppendEntries.encode (r : AppendEntries) : Bytes :=
  intField 1 r.term ++ intField 2 r.leaderId ++ intField 3 r.prevLogIndex ++
    intField 4 r.prevLogTerm ++ (r.entries.flatMap fun e => delimited 5 e.encode) ++
    intField 6 r.leaderCommit ++ intField 7 r.rpcId

/-- `InstallSnapshot::SerializeToString`. -/
def InstallSnapshot.encode (r : InstallSnapshot) : Bytes :=
  intField 1 r.term ++ intField 2 r.leaderId ++ intField 3 r.lastIncludedIndex ++
    intField 4 r.lastIncludedTerm ++ intField 5 r.offset ++ bytesField 6 r.data ++
    boolField 7 r.done ++ intField 8 r.rpcId

theorem length_varint_eq (v : ℤ) : (varint (bits64 v)).length = varintSize v := by
  rw [length_varint, varintSize, bits64, Nat.log2_eq_log_two, ← Nat.log_pow_left]

theorem bits64_natCast {n : ℕ} (h : n < 2 ^ 64) : bits64 n = n := by
  rw [bits64]
  omega

/-- `ByteSizeLong` is the number of bytes that are written. -/
theorem LogEntry.length_encode {e : LogEntry} (h : e.command.length ≤ kMaxCommandBytes) :
    e.encode.length = e.byteSizeLong := by
  have hmax : kMaxCommandBytes = 1048576 := rfl
  have hcommand : (varint e.command.length).length = varintSize e.command.length := by
    rw [← length_varint_eq, bits64_natCast (by omega)]
  rw [LogEntry.encode, LogEntry.byteSizeLong, List.length_append, List.length_append,
    length_intField (by norm_num), length_intField (by norm_num), length_bytesField (by norm_num),
    length_varint_eq, length_varint_eq, hcommand]

/-! ## Batches of entries -/

/-- The first entry fits an empty batch. -/
theorem collectEntries_ne_nil {a : AbstractLog}
    (hsmall : ∀ e ∈ a.entries, e.command.length ≤ kMaxCommandBytes) {k turns : ℕ}
    (hk : k < a.entries.length) {es : List LogEntry}
    (h : collectEntries a (turns + 1) (a.snapshot.index + 1 + k) 0 128 = .ok es) : es ≠ [] := by
  rintro rfl
  have hsize := LogEntry.byteSizeLong_le (hsmall _ (List.getElem_mem hk))
  rw [collectEntries, if_neg (by rw [AbstractLog.lastIndex]; omega), a.get_above,
    List.getElem?_eq_getElem hk] at h
  simp only [if_neg (not_lt.mpr hsize)] at h
  rw [if_neg (by simp only [kMaxBatchEntries]; omega)] at h
  cases hrest : collectEntries a turns (a.snapshot.index + 1 + k + 1) (0 + 1)
      (128 + (a.entries[k].byteSizeLong + 16)) with
  | error text =>
    rw [hrest] at h
    cases h
  | ok rest =>
    rw [hrest] at h
    cases h

/-- The envelope of a request and its entries take no more than was counted for them. -/
theorem AppendEntries.length_encode_le {r : AppendEntries}
    (hsmall : ∀ e ∈ r.entries, e.command.length ≤ kMaxCommandBytes) :
    r.encode.length ≤ 128 + (r.entries.map LogEntry.counted).sum := by
  have hentries : (r.entries.flatMap fun e => delimited 5 e.encode).length ≤
      (r.entries.map LogEntry.counted).sum := by
    rw [List.length_flatMap]
    refine List.sum_le_sum fun e he => ?_
    have hlen := LogEntry.length_encode (hsmall e he)
    have hsize := LogEntry.byteSizeLong_le (hsmall e he)
    have hmax : kMaxBatchBytes = 2097152 := rfl
    have hvarint := length_varint_le (v := e.encode.length) (by omega)
    rw [length_delimited (by norm_num), LogEntry.counted]
    omega
  have h₁ := length_intField_le (show 1 ≤ 15 by norm_num) r.term
  have h₂ := length_intField_le (show 2 ≤ 15 by norm_num) r.leaderId
  have h₃ := length_intField_le (show 3 ≤ 15 by norm_num) r.prevLogIndex
  have h₄ := length_intField_le (show 4 ≤ 15 by norm_num) r.prevLogTerm
  have h₆ := length_intField_le (show 6 ≤ 15 by norm_num) r.leaderCommit
  have h₇ := length_intField_le (show 7 ≤ 15 by norm_num) r.rpcId
  rw [AppendEntries.encode]
  simp only [List.length_append]
  omega

/-- The bytes of a field of an integer type. -/
def fieldSize (v : ℤ) : ℕ :=
  if v = 0 then 0 else 1 + varintSize v

/-- What a chunk of `size` bytes takes besides them. -/
def chunkOverhead (term leaderId index indexTerm offset : ℤ) (size : ℕ) (done : Bool)
    (rpcId : ℕ) : ℕ :=
  fieldSize term + fieldSize leaderId + fieldSize index + fieldSize indexTerm + fieldSize offset +
    fieldSize size + (if done then 2 else 0) + fieldSize rpcId

theorem length_intField_eq {number : ℕ} (h : number ≤ 15) (v : ℤ) :
    (intField number v).length = fieldSize v := by
  rw [length_intField h, fieldSize, length_varint_eq]

theorem fieldSize_le (v : ℤ) : fieldSize v ≤ 11 := by
  rw [← length_intField_eq (show 1 ≤ 15 by norm_num)]
  exact length_intField_le (by norm_num) v

theorem chunkOverhead_le (term leaderId index indexTerm offset : ℤ) (size : ℕ) (done : Bool)
    (rpcId : ℕ) : chunkOverhead term leaderId index indexTerm offset size done rpcId ≤ 79 := by
  have h₁ := fieldSize_le term
  have h₂ := fieldSize_le leaderId
  have h₃ := fieldSize_le index
  have h₄ := fieldSize_le indexTerm
  have h₅ := fieldSize_le offset
  have h₆ := fieldSize_le size
  have h₈ := fieldSize_le rpcId
  rw [chunkOverhead]
  split_ifs <;> omega

/-- The data of a chunk stands behind a tag and its length, as an integer does behind a tag. -/
theorem length_bytesField_eq {number : ℕ} (h : number ≤ 15) {data : Bytes}
    (hdata : data.length < 2 ^ 64) :
    (bytesField number data).length = data.length + fieldSize data.length := by
  have hvarint : (varint data.length).length = varintSize data.length := by
    rw [← length_varint_eq, bits64_natCast hdata]
  rw [length_bytesField h, fieldSize, hvarint]
  by_cases hnil : data = []
  · rw [if_pos hnil, if_pos (by simp [hnil]), hnil]
    rfl
  · rw [if_neg hnil, if_neg (by simpa using hnil)]
    omega

theorem InstallSnapshot.length_encode (r : InstallSnapshot) (h : r.data.length < 2 ^ 64) :
    r.encode.length = r.data.length + chunkOverhead r.term r.leaderId r.lastIncludedIndex
      r.lastIncludedTerm r.offset r.data.length r.done r.rpcId := by
  rw [InstallSnapshot.encode, chunkOverhead]
  simp only [List.length_append, length_intField_eq (show 1 ≤ 15 by norm_num),
    length_intField_eq (show 2 ≤ 15 by norm_num), length_intField_eq (show 3 ≤ 15 by norm_num),
    length_intField_eq (show 4 ≤ 15 by norm_num), length_intField_eq (show 5 ≤ 15 by norm_num),
    length_intField_eq (show 8 ≤ 15 by norm_num), length_bytesField_eq (show 6 ≤ 15 by norm_num) h,
    length_boolField (show 7 ≤ 15 by norm_num)]
  omega

/-! ## What a leader offers to the transport -/

/-- The messages that a method gives to `PeerManager::Send` when each is taken. -/
def offers (m : RaftM Unit) (c : Context) : List Message :=
  match m { c with net := [], env := { clock := c.env.clock } } with
  | .ok _ c' => c'.net.map Envelope.message
  | .error _ _ => []

theorem offers_of_wp {m : RaftM Unit} {c : Context} {messages : List Message}
    (h : wp m (fun _ c' => c'.net.map Envelope.message = messages) (fun _ _ => False)
      { c with net := [], env := { clock := c.env.clock } }) : offers m c = messages := by
  rw [offers]
  rw [wp] at h
  split at h
  · rename_i heq
    rw [heq]
    exact h
  · exact h.elim

theorem nextRpcId_ok {c : Context} (h : c.node.rpcSequence ≠ uint64Max) :
    nextRpcId c = .ok (c.node.rpcSequence + 1)
      { c with node := { c.node with rpcSequence := c.node.rpcSequence + 1 } } := by
  show (if c.node.rpcSequence = uint64Max then _ else _ : RaftM ℕ) c = _
  rw [if_neg h]
  rfl

/-- A request with the entries from the next index of the peer. -/
def newAppendEntries (c : Context) (peer : ℤ) (entries : List LogEntry) : AppendEntries where
  term := c.node.currentTerm
  leaderId := c.node.nodeId
  prevLogIndex := c.node.nextIndex peer - 1
  prevLogTerm := c.log.getTerm (c.node.nextIndex peer - 1)
  entries := entries
  leaderCommit := c.node.commitIndex
  rpcId := c.node.rpcSequence + 1

theorem offers_sendAppendEntries {c : Context} {peer : ℤ} {es : List LogEntry}
    (hid : (c.node.inflight peer).id = 0) (hseq : c.node.rpcSequence ≠ uint64Max)
    (hnext : ¬(0 < c.log.snapshot.index ∧ c.node.nextIndex peer ≤ c.log.snapshot.index))
    (hes : collectEntries c.log (kMaxBatchEntries + 1) (c.node.nextIndex peer) 0 128 = .ok es) :
    offers (sendAppendEntries peer) c = [.appendEntries (newAppendEntries c peer es)] := by
  refine offers_of_wp ?_
  rw [sendAppendEntries, wp_getNode, wp_getLog]
  dsimp only
  rw [if_neg (by simp [hid]), if_neg hnext, sendNewEntries, wp_getNode, wp_getLog, wp_bind,
    wp_eq_of_ok (nextRpcId_ok (by exact hseq))]
  dsimp only
  rw [hes]
  rfl

/-- The chunk of the snapshot in flight to a peer. -/
def newInstallSnapshot (c : Context) (peer : ℤ) : InstallSnapshot where
  term := c.node.currentTerm
  leaderId := c.node.nodeId
  lastIncludedIndex := (c.node.inflight peer).snapshotIndex
  lastIncludedTerm := (c.node.inflight peer).snapshotTerm
  offset := (c.node.inflight peer).snapshotOffset
  data := ((c.node.inflight peer).snapshotData.drop (c.node.inflight peer).snapshotOffset).take
    (min c.node.snapshotChunkBytes
      ((c.node.inflight peer).snapshotData.length - (c.node.inflight peer).snapshotOffset))
  done := (c.node.inflight peer).snapshotOffset + min c.node.snapshotChunkBytes
      ((c.node.inflight peer).snapshotData.length - (c.node.inflight peer).snapshotOffset) =
    (c.node.inflight peer).snapshotData.length
  rpcId := c.node.rpcSequence + 1

theorem offers_sendSnapshotChunk {c : Context} {peer : ℤ} (hseq : c.node.rpcSequence ≠ uint64Max)
    (hoff : (c.node.inflight peer).snapshotOffset ≤ (c.node.inflight peer).snapshotData.length) :
    offers (sendSnapshotChunk peer) c = [.installSnapshot (newInstallSnapshot c peer)] := by
  refine offers_of_wp ?_
  rw [sendSnapshotChunk, wp_getNode]
  dsimp only
  rw [if_neg (not_lt.mpr hoff), wp_bind, wp_eq_of_ok (nextRpcId_ok (by exact hseq))]
  rfl

/-- The start of the transfer of the snapshot to a peer. -/
def startTransfer (c : Context) (peer : ℤ) : Context :=
  { c with
    node := c.node.setInflight peer
      { c.node.inflight peer with
        snapshot := true
        snapshotData := c.log.snapshot.data
        snapshotIndex := c.log.snapshot.index
        snapshotTerm := c.log.snapshot.term
        snapshotOffset := 0 } }

/-- A next index in the snapshot starts the transfer of the snapshot. -/
theorem offers_startTransfer {c : Context} {peer : ℤ} (hid : (c.node.inflight peer).id = 0)
    (hnext : 0 < c.log.snapshot.index ∧ c.node.nextIndex peer ≤ c.log.snapshot.index) :
    offers (sendAppendEntries peer) c = offers (sendSnapshotChunk peer) (startTransfer c peer) := by
  have hrun : ∀ c₀ : Context, c₀.node = c.node → c₀.log = c.log →
      sendAppendEntries peer c₀ = sendSnapshotChunk peer (startTransfer c₀ peer) := by
    intro c₀ hnode hlog
    show (if (c₀.node.inflight peer).id ≠ 0 then _ else if 0 < c₀.log.snapshot.index ∧
      c₀.node.nextIndex peer ≤ c₀.log.snapshot.index then _ else _ : RaftM Unit) c₀ = _
    rw [if_neg (by simp [hnode, hid]), if_pos (by rwa [hnode, hlog])]
    rfl
  exact congrArg (fun r : EStateM.Result Halt Context Unit => match r with
    | .ok _ c' => c'.net.map Envelope.message
    | .error _ _ => [])
    (hrun { c with net := [], env := { clock := c.env.clock } } rfl rfl)

theorem length_first_chunk (c : Context) (peer : ℤ) :
    (newInstallSnapshot (startTransfer c peer) peer).data.length =
      min c.node.snapshotChunkBytes c.log.snapshot.data.length := by
  simp [newInstallSnapshot, startTransfer, Node.setInflight]

/-! ## The limits -/

/-- The frame of a payload is given to the connection whenever no bytes wait there. -/
def Sendable (type : RaftMsgType) (payload : Bytes) : Prop :=
  ∀ (m : PeerManager) (output : ConnId → Output) (peer : ℤ) (conn : ConnId), 0 ≤ m.selfId →
    m.connections peer = some conn → output conn = ⟨true, 0⟩ →
    ∃ frame, m.send output peer type payload = .ok (some (conn, frame))

theorem encode_ok {type : RaftMsgType} {sender : ℤ} (hsender : 0 ≤ sender)
    {payload : Bytes} (h : payload.length ≤ RaftCodec.kMaxFrameSize - 5) :
    RaftCodec.encode type.code sender payload =
      .ok (RaftCodec.frame type.code sender.toNat payload) := by
  have htype : RaftCodec.isValidType type.code = true := by cases type <;> rfl
  rw [RaftCodec.encode, if_neg (by simp [htype]; omega), if_neg (by omega)]

theorem sendable_iff (type : RaftMsgType) (payload : Bytes) :
    Sendable type payload ↔ payload.length + RaftCodec.kHeaderSize ≤ maxQueued := by
  have hmax : maxQueued = 4194304 := rfl
  have hheader : RaftCodec.kHeaderSize = 9 := rfl
  have hframe : RaftCodec.kMaxFrameSize = 10485760 := rfl
  constructor
  · intro h
    by_contra hlong
    obtain ⟨frame, hsend⟩ := h
      { selfId := 1, allPeers := [], connections := fun _ => some 0 } (fun _ => ⟨true, 0⟩) 2 0
      (by norm_num) rfl rfl
    have hrefused : maxQueued < 0 ∨ maxQueued - RaftCodec.kHeaderSize < payload.length ∨
        maxQueued - 0 < payload.length + RaftCodec.kHeaderSize := by omega
    simp only [PeerManager.send, if_pos hrefused] at hsend
    cases hsend
  · intro h m output peer conn hself hconn hout
    refine ⟨RaftCodec.frame type.code m.selfId.toNat payload, ?_⟩
    simp only [PeerManager.send, hconn, hout]
    rw [if_neg (by simp), if_neg (by omega), encode_ok hself (by omega)]
    rfl

/-- The next chunk of a transfer, of at most `bytes` bytes, stays with its fields 9 bytes below
4 MiB. -/
def ChunkFits (n : Node) (transfer : Inflight) (bytes : ℕ) : Prop :=
  let size := min bytes (transfer.snapshotData.length - transfer.snapshotOffset)
  size + chunkOverhead n.currentTerm n.nodeId transfer.snapshotIndex transfer.snapshotTerm
    transfer.snapshotOffset size (transfer.snapshotOffset + size = transfer.snapshotData.length)
    (n.rpcSequence + 1) ≤ 4194295

/-- **Every replication frame fits the transport, except for large chunks.** A request with
entries carries them from the next index on, at least one if there is one and at most 128,
takes no more bytes than a batch may, and is sent when no bytes wait. A chunk is within the
limit of the codec for every size that `SetSnapshotChunkBytes` accepts; it is sent if and only
if its data, with the at most 79 bytes around it, stays 9 bytes below 4 MiB, so chunks of up to
4194216 bytes always are. -/
theorem frames_sendable (c : Context) (peer : ℤ) (hseq : c.node.rpcSequence ≠ uint64Max) :
    ((c.node.inflight peer).id = 0 → 0 ≤ c.log.snapshot.index →
      c.log.snapshot.index < c.node.nextIndex peer →
      (∀ e ∈ c.log.entries, e.command.length ≤ kMaxCommandBytes) →
      ∃ r, offers (sendAppendEntries peer) c = [.appendEntries r] ∧
        r.prevLogIndex = c.node.nextIndex peer - 1 ∧
        (∀ i (hi : i < r.entries.length),
          c.log.get (c.node.nextIndex peer + i) = some r.entries[i]) ∧
        (c.node.nextIndex peer ≤ c.log.lastIndex → r.entries ≠ []) ∧
        r.entries.length ≤ kMaxBatchEntries ∧ r.encode.length ≤ kMaxBatchBytes ∧
        r.encode.length ≤ RaftCodec.kMaxFrameSize - 5 ∧ Sendable .kAppendEntries r.encode) ∧
    ∀ (c' : Context) (bytes : ℕ), setSnapshotChunkBytes bytes c = .ok () c' →
      (c.node.inflight peer).snapshotOffset ≤ (c.node.inflight peer).snapshotData.length →
      ∃ r, offers (sendSnapshotChunk peer) c' = [.installSnapshot r] ∧
        r.data = ((c.node.inflight peer).snapshotData.drop
          (c.node.inflight peer).snapshotOffset).take bytes ∧
        r.encode.length ≤ RaftCodec.kMaxFrameSize - 5 ∧
        (Sendable .kInstallSnapshot r.encode ↔ ChunkFits c.node (c.node.inflight peer) bytes) ∧
        (bytes ≤ 4194216 → Sendable .kInstallSnapshot r.encode) := by
  have hframe : RaftCodec.kMaxFrameSize = 10485760 := rfl
  have hheader : RaftCodec.kHeaderSize = 9 := rfl
  have hqueued : maxQueued = 4194304 := rfl
  have hbatch : kMaxBatchBytes = 2097152 := rfl
  refine ⟨fun hid h0 hnext hsmall => ?_, fun c' bytes hset hoff => ?_⟩
  · obtain ⟨k, hk⟩ : ∃ k : ℕ, c.node.nextIndex peer = c.log.snapshot.index + 1 + k :=
      ⟨(c.node.nextIndex peer - c.log.snapshot.index - 1).toNat, by omega⟩
    obtain ⟨es, hes, hpre, hlen, hsum⟩ := collectEntries_fits hsmall (kMaxBatchEntries + 1) k 0 128
      (by decide) (by decide)
    rw [← hk] at hes
    have hcommands : ∀ e ∈ es, e.command.length ≤ kMaxCommandBytes := fun e he =>
      hsmall e (List.mem_of_mem_drop (hpre.subset he))
    have hsize : (newAppendEntries c peer es).encode.length ≤ kMaxBatchBytes :=
      (AppendEntries.length_encode_le hcommands).trans hsum
    rw [Nat.zero_add] at hlen
    refine ⟨newAppendEntries c peer es, offers_sendAppendEntries hid hseq (by omega) hes, rfl, ?_,
      ?_, hlen, hsize, by omega, (sendable_iff _ _).mpr (by omega)⟩
    · intro i hi
      obtain ⟨rest, hrest⟩ := hpre
      rw [hk, add_assoc, ← Nat.cast_add, c.log.get_above, ← List.getElem?_drop, ← hrest,
        List.getElem?_append_left (by exact hi)]
      exact List.getElem?_eq_getElem hi
    · intro hle
      rw [hk] at hes
      refine collectEntries_ne_nil hsmall (k := k) ?_ hes
      rw [AbstractLog.lastIndex] at hle
      omega
  · by_cases hbad : bytes = 0 ∨ RaftCodec.kMaxFrameSize / 2 < bytes
    · rw [setSnapshotChunkBytes, if_pos hbad] at hset
      cases hset
    rw [setSnapshotChunkBytes, if_neg hbad] at hset
    obtain ⟨-, rfl⟩ := EStateM.Result.ok.inj hset
    have hlimit : RaftCodec.kMaxFrameSize = 10485760 := rfl
    set r := newInstallSnapshot
      { c with node := { c.node with snapshotChunkBytes := bytes } } peer with hr
    have hdata : r.data = ((c.node.inflight peer).snapshotData.drop
        (c.node.inflight peer).snapshotOffset).take bytes := by
      show List.take (min bytes _) _ = _
      rw [List.take_eq_take_iff, List.length_drop]
      omega
    have hlen : r.data.length = min bytes ((c.node.inflight peer).snapshotData.length -
        (c.node.inflight peer).snapshotOffset) := by
      rw [hdata, List.length_take, List.length_drop]
    have hsize := r.length_encode (by omega)
    have hle := chunkOverhead_le r.term r.leaderId r.lastIncludedIndex r.lastIncludedTerm r.offset
      r.data.length r.done r.rpcId
    have hfits : r.encode.length ≤ 4194295 ↔ ChunkFits c.node (c.node.inflight peer) bytes := by
      rw [hsize, hlen]
      exact Iff.rfl
    refine ⟨r, offers_sendSnapshotChunk hseq hoff, hdata, by omega, ?_, fun hbytes => ?_⟩
    · rw [sendable_iff, ← hfits]
      omega
    · rw [sendable_iff]
      omega

/-- A leader with a snapshot of `n` bytes and with chunks of `bytes` bytes. -/
def snapshotLeader (n bytes : ℕ) : Context where
  node := { nodeId := 1, allPeers := [1, 2, 3], currentTerm := 1, role := .leader,
            snapshotChunkBytes := bytes }
  log := { snapshot := ⟨1, 1, List.replicate n 0⟩ }
  sm := ⟨∅, 0⟩
  exec := {}
  net := []
  trace := []
  incarnation := 0
  replyTo := 0
  env := { clock := 0 }

/-- A chunk of 4 bytes of a snapshot of 9 bytes is sent. -/
theorem frames_sendable_small :
    ∃ r, offers (sendSnapshotChunk 2) (startTransfer (snapshotLeader 9 4) 2) =
        [.installSnapshot r] ∧ r.data = [0, 0, 0, 0] ∧ Sendable .kInstallSnapshot r.encode := by
  obtain ⟨r, hoffers, hdata, -, -, hsend⟩ :=
    (frames_sendable (startTransfer (snapshotLeader 9 262144) 2) 2 (by decide)).2
      (startTransfer (snapshotLeader 9 4) 2) 4 rfl (Nat.zero_le _)
  exact ⟨r, hoffers, hdata, hsend (by decide)⟩

/-- `SetSnapshotChunkBytes` accepts 5 MiB, and then a snapshot of 5 MiB is never sent : the
request for a peer that needs it is refused though no bytes wait. -/
theorem large_chunk_refused :
    ∃ r, setSnapshotChunkBytes 5242880 (snapshotLeader 5242880 262144) =
        .ok () (snapshotLeader 5242880 5242880) ∧
      offers (sendAppendEntries 2) (snapshotLeader 5242880 5242880) = [.installSnapshot r] ∧
      ¬Sendable .kInstallSnapshot r.encode := by
  set c := startTransfer (snapshotLeader 5242880 5242880) 2 with hc
  have hoffers : offers (sendAppendEntries 2) (snapshotLeader 5242880 5242880) =
      [.installSnapshot (newInstallSnapshot c 2)] := by
    rw [offers_startTransfer rfl ⟨Int.zero_lt_one, le_rfl⟩]
    exact offers_sendSnapshotChunk (by decide) (Nat.zero_le _)
  have hdata : (newInstallSnapshot c 2).data.length = 5242880 := by
    rw [hc, length_first_chunk]
    show min 5242880 (List.replicate 5242880 (0 : UInt8)).length = 5242880
    rw [List.length_replicate, min_self]
  have hsize := (newInstallSnapshot c 2).length_encode (by omega)
  refine ⟨newInstallSnapshot c 2, rfl, hoffers, ?_⟩
  rw [sendable_iff, hsize, hdata]
  have hqueued : maxQueued = 4194304 := rfl
  omega

end RaftKV
