import RaftKV.Node.State

/-!
# Sending the log to a peer

`SendAppendEntries` and `SendSnapshotChunk`. A leader has one request in flight to each
peer : it sends the entries from the peer's next index, bounded in number and in bytes, or
its snapshot in chunks when the next index is compacted away, and sends the same bytes again
when there is no answer. A request that is sent as `AppendEntries` also counts as a probe of
the first read round that has none for this peer yet (`bindReadIndexProbe`).
-/

namespace RaftKV

open RaftM

/-! ## Sizes -/

/-- The bytes of a varint. -/
def varintSize (value : ℤ) : ℕ :=
  Nat.log2 (value % 2 ^ 64).toNat / 7 + 1

/-- `LogEntry::ByteSizeLong` in proto3, where a field with the default value is left out. -/
def LogEntry.byteSizeLong (e : LogEntry) : ℕ :=
  (if e.index = 0 then 0 else 1 + varintSize e.index) +
    (if e.term = 0 then 0 else 1 + varintSize e.term) +
    if e.command = [] then 0 else 1 + varintSize e.command.length + e.command.length

theorem varintSize_le (value : ℤ) : varintSize value ≤ 10 := by
  have hlt : (value % 2 ^ 64).toNat < 2 ^ 64 := by omega
  have hlog : Nat.log2 (value % 2 ^ 64).toNat < 64 := by
    rcases Nat.eq_zero_or_pos (value % 2 ^ 64).toNat with h0 | hpos
    · rw [h0]
      decide
    · exact (Nat.log2_lt hpos.ne').mpr hlt
  rw [varintSize]
  omega

/-- An entry with an admitted command fits in a request. -/
theorem LogEntry.byteSizeLong_le {e : LogEntry} (h : e.command.length ≤ kMaxCommandBytes) :
    e.byteSizeLong + 16 ≤ kMaxBatchBytes - 128 := by
  have h₁ := varintSize_le e.index
  have h₂ := varintSize_le e.term
  have h₃ := varintSize_le e.command.length
  have hmax : kMaxBatchBytes - 128 = 2096896 + 128 := rfl
  have hcommand : kMaxCommandBytes = 1048576 := rfl
  rw [LogEntry.byteSizeLong]
  split_ifs <;> omega

/-- The loop of `SendAppendEntries` over the entries from `index`, with `count` entries of
`bytes` bytes before it. The first argument bounds the turns left; the limit on the number of
entries stops the loop before it does. -/
def collectEntries (log : AbstractLog) : ℕ → ℤ → ℕ → ℕ → Except String (List LogEntry)
  | 0, _, _, _ => .ok []
  | turns + 1, index, count, bytes =>
    if log.lastIndex < index then .ok []
    else match log.get index with
      | none => .error "missing replication entry"
      | some e =>
        if kMaxBatchBytes - 128 < e.byteSizeLong + 16 then .error "oversized Raft entry"
        else if kMaxBatchEntries ≤ count ∨ kMaxBatchBytes - bytes < e.byteSizeLong + 16 then .ok []
        else do
          let rest ←
            collectEntries log turns (index + 1) (count + 1) (bytes + (e.byteSizeLong + 16))
          return e :: rest

/-! ## Probes of read rounds -/

/-- The loop of `RaftNode::BindReadIndexProbe`. -/
def bindProbe (peer : ℤ) (rpcId : ℕ) : List HeartbeatRound → List HeartbeatRound
  | [] => []
  | round :: rounds =>
    if round.confirmed ∨ (round.probeRpcIds peer).isSome then round :: bindProbe peer rpcId rounds
    else { round with probeRpcIds := Function.update round.probeRpcIds peer (some rpcId) } :: rounds

/-- `RaftNode::BindReadIndexProbe`. -/
def bindReadIndexProbe (peer : ℤ) (rpcId : ℕ) : RaftM Unit :=
  modifyNode fun n => { n with heartbeatRounds := bindProbe peer rpcId n.heartbeatRounds }

/-! ## Requests -/

/-- `++_rpc_sequence`, with the check before it. -/
def nextRpcId : RaftM ℕ := do
  let n ← getNode
  if n.rpcSequence = uint64Max then fail "Raft RPC sequence exhausted"
  else
    modifyNode fun n => { n with rpcSequence := n.rpcSequence + 1 }
    return n.rpcSequence + 1

/-- `RaftNode::SendSnapshotChunk`. -/
def sendSnapshotChunk (peer : ℤ) : RaftM Unit := do
  let n ← getNode
  let flight := n.inflight peer
  if flight.snapshotData.length < flight.snapshotOffset then
    fail "snapshot send offset past the end"
  else
    let remain := flight.snapshotData.length - flight.snapshotOffset
    let chunk := min n.snapshotChunkBytes remain
    let id ← nextRpcId
    let request := Message.installSnapshot
      { term := n.currentTerm
        leaderId := n.nodeId
        lastIncludedIndex := flight.snapshotIndex
        lastIncludedTerm := flight.snapshotTerm
        offset := flight.snapshotOffset
        data := (flight.snapshotData.drop flight.snapshotOffset).take chunk
        done := flight.snapshotOffset + chunk = flight.snapshotData.length
        rpcId := id }
    let flight :=
      { flight with
        id := id
        snapshotChunk := chunk
        lastIndex := flight.snapshotIndex
        elapsedMs := 0
        type := .kInstallSnapshot
        payload := some request }
    modifyNode fun n => n.setInflight peer flight
    if ← send peer request then pure ()
    else modifyNode fun n => n.setInflight peer { flight with id := 0 }

/-- The end of `RaftNode::SendAppendEntries` : a new request with the entries from the next
index of the peer. -/
def sendNewEntries (peer : ℤ) : RaftM Unit := do
  let n ← getNode
  let log ← getLog
  let previous := n.nextIndex peer - 1
  let id ← nextRpcId
  match collectEntries log (kMaxBatchEntries + 1) (n.nextIndex peer) 0 128 with
  | .error text => fail text
  | .ok entries =>
    let request := Message.appendEntries
      { term := n.currentTerm
        leaderId := n.nodeId
        prevLogIndex := previous
        prevLogTerm := log.getTerm previous
        entries := entries
        leaderCommit := n.commitIndex
        rpcId := id }
    let leaseSentAt ← now
    if ← send peer request then
      modifyNode fun n => n.setInflight peer
        { n.inflight peer with
          id := id
          lastIndex := previous + entries.length
          elapsedMs := 0
          type := .kAppendEntries
          snapshot := false
          payload := some request
          leaseSentAt := leaseSentAt }
      bindReadIndexProbe peer id
    else pure ()

/-- Sends the request in flight to a peer again when it is old enough. -/
def retryInflight (peer : ℤ) (flight : Inflight) : RaftM Unit := do
  if kRpcRetryMs ≤ flight.elapsedMs then
    match flight.payload with
    | none => pure ()
    | some message =>
      if ← send peer message then
        modifyNode fun n => n.setInflight peer { flight with elapsedMs := 0 }
      else pure ()
  else pure ()

/-- `RaftNode::SendAppendEntries`. -/
def sendAppendEntries (peer : ℤ) : RaftM Unit := do
  let n ← getNode
  let log ← getLog
  let flight := n.inflight peer
  if flight.id ≠ 0 then retryInflight peer flight
  else if 0 < log.snapshot.index ∧ n.nextIndex peer ≤ log.snapshot.index then
    modifyNode fun n => n.setInflight peer
      { flight with
        snapshot := true
        snapshotData := log.snapshot.data
        snapshotIndex := log.snapshot.index
        snapshotTerm := log.snapshot.term
        snapshotOffset := 0 }
    sendSnapshotChunk peer
  else sendNewEntries peer

/-- `RaftNode::BroadcastAppendEntries`. -/
def broadcastAppendEntries : RaftM Unit := do
  let n ← getNode
  n.others.forM sendAppendEntries

end RaftKV
