import RaftKV.Node.Election

/-!
# Handlers of replication, the timer, and the constructor

What a node does with `AppendEntries`, `InstallSnapshot` and their replies, at a tick of the
timer, when it is started and stopped, and when it is constructed on its two databases. A
snapshot is installed by three durable writes : the intent in the Raft database, the new
contents in the KV database, and the snapshot in the Raft database. The constructor finishes
an install whose intent it finds.
-/

namespace RaftKV

open RaftM

/-! ## `AppendEntries` -/

/-- The checks of `RaftNode::HandleAppendEntries` on the entries of a request. -/
def validEntries (term : ℤ) : ℤ → ℤ → List LogEntry → Bool
  | _, _, [] => true
  | index, previousTerm, e :: es =>
    e.index = index && decide (0 < e.term) && decide (previousTerm ≤ e.term) &&
      decide (e.term ≤ term) && decide (e.command.length ≤ kMaxCommandBytes) &&
      validEntries term (index + 1) e.term es

/-- The early returns of `RaftNode::HandleAppendEntries`. -/
def AppendEntries.valid (request : AppendEntries) (n : Node) (peer : ℤ) : Bool :=
  n.running && n.isRemotePeer peer && request.leaderId = peer && decide (0 < request.term) &&
    request.rpcId ≠ 0 && decide (0 ≤ request.prevLogIndex) && decide (0 ≤ request.prevLogTerm) &&
    decide (request.prevLogTerm ≤ request.term) && decide (0 ≤ request.leaderCommit) &&
    decide (request.prevLogIndex ≤ int64Max - request.entries.length) &&
    decide (request.prevLogIndex = 0 ↔ request.prevLogTerm = 0) &&
    validEntries request.term (request.prevLogIndex + 1) request.prevLogTerm request.entries

/-- The loop of `RaftNode::HandleAppendEntries` : an entry of another term is truncated with
all that follows it, and the entries after the end of the log are collected. -/
def reconcile : List LogEntry → RaftM (List LogEntry)
  | [] => return []
  | e :: es => do
    let log ← getLog
    let n ← getNode
    if log.getTerm e.index ≠ -1 ∧ log.getTerm e.index ≠ e.term then
      if e.index ≤ n.commitIndex then fail "attempt to replace committed Raft entry"
      else
        writeLog "truncate Raft log" (AbstractLog.truncateSuffix e.index)
        let rest ← reconcile es
        return e :: rest
    else if log.lastIndex < e.index then
      let rest ← reconcile es
      return e :: rest
    else reconcile es

/-- Appends what `reconcile` collected. -/
def appendMissing (entries : List LogEntry) : RaftM Unit :=
  if entries.isEmpty then pure ()
  else onFailure (modifyNode fun n => { n with storageHealthy := false })
    (writeLog "append Raft log batch" (AbstractLog.appendBatch (fun _ => true) entries))

/-- The loop of `RaftNode::ConflictIndex`. -/
def conflictSearch (log : AbstractLog) (term : ℤ) : ℕ → ℤ → ℤ → ℤ
  | 0, _, high => high
  | turns + 1, low, high =>
    if high - low ≤ 1 then high
    else
      let mid := low + (high - low) / 2
      if log.getTerm mid = term then conflictSearch log term turns low mid
      else conflictSearch log term turns mid high

/-- `RaftNode::ConflictIndex`. -/
def conflictIndex (log : AbstractLog) (index : ℤ) : ℤ :=
  let term := log.getTerm index
  let snapshot := log.snapshot.index
  if term ≤ 0 then index
  else
    let high := conflictSearch log term (index - snapshot).toNat snapshot index
    if high = snapshot + 1 ∧ 0 < snapshot ∧ log.snapshot.term = term then snapshot else high

/-- The hint in a rejection. -/
def rejectHint (log : AbstractLog) (prevLogIndex : ℤ) : ℤ :=
  if prevLogIndex ≤ log.lastIndex then
    let conflict := if 0 < log.getTerm prevLogIndex then conflictIndex log prevLogIndex
      else log.snapshot.index
    if 0 < conflict then conflict - 1 else 0
  else log.lastIndex

/-- The reply to an `AppendEntries`. -/
def replyAppend (peer : ℤ) (rpcId : ℕ) (success : Bool) (lastLogIndex : ℤ) : RaftM Unit := do
  let n ← getNode
  reply peer (.appendEntriesResponse
    { term := n.currentTerm, success := success, lastLogIndex := lastLogIndex, rpcId := rpcId })

/-- The part of `RaftNode::HandleAppendEntries` for a request that fits the log. -/
def acceptEntries (peer : ℤ) (request : AppendEntries) : RaftM Unit := do
  let missing ← reconcile request.entries
  appendMissing missing
  let matched := request.prevLogIndex + request.entries.length
  observe (.accepted request.term (← get).env.clock)
  modifyNode fun n => { n with
    commitIndex := max n.commitIndex (min request.leaderCommit matched) }
  applyCommitted
  replyAppend peer request.rpcId true matched

/-- The part of `RaftNode::HandleAppendEntries` for a request of the current term. -/
def followLeader (peer : ℤ) (request : AppendEntries) : RaftM Unit := do
  modifyNode fun n => { n with leaderId := peer }
  resetElectionTimer
  let log ← getLog
  if log.getTerm request.prevLogIndex = request.prevLogTerm then acceptEntries peer request
  else replyAppend peer request.rpcId false (rejectHint log request.prevLogIndex)

/-- `RaftNode::HandleAppendEntries`. -/
def handleAppendEntries (peer : ℤ) (request : AppendEntries) : RaftM Unit := do
  let n ← getNode
  let log ← getLog
  if ¬request.valid n peer then pure ()
  else if request.term < n.currentTerm then replyAppend peer request.rpcId false log.lastIndex
  else if n.currentTerm < request.term ∨ n.role ≠ .follower then
    becomeFollower request.term
    followLeader peer request
  else followLeader peer request

/-- Sends to a peer whose next index is in the log. -/
def sendIfBehind (peer : ℤ) : RaftM Unit := do
  let n ← getNode
  let log ← getLog
  if n.nextIndex peer ≤ log.lastIndex then sendAppendEntries peer else pure ()

/-- Broadcasts when the commit index has moved past `before`. -/
def broadcastIfCommitted (before : ℤ) : RaftM Unit := do
  let n ← getNode
  if before < n.commitIndex then broadcastAppendEntries else pure ()

/-- The part of `RaftNode::HandleAppendEntriesResponse` after a success. -/
def noteSuccess (peer : ℤ) (flight : Inflight) : RaftM Unit := do
  modifyNode fun n => { n with
    leaseConfirmed := if flight.type = .kAppendEntries then
        Function.update n.leaseConfirmed peer (some flight.leaseSentAt)
      else n.leaseConfirmed
    inflight := Function.update n.inflight peer {}
    matchIndex := Function.update n.matchIndex peer (max (n.matchIndex peer) flight.lastIndex)
    nextIndex := Function.update n.nextIndex peer (max (n.matchIndex peer) flight.lastIndex + 1) }
  let n ← getNode
  advanceCommitIndex
  finishReadIndexRounds
  broadcastIfCommitted n.commitIndex
  sendIfBehind peer

/-- The part of `RaftNode::HandleAppendEntriesResponse` after a rejection. -/
def noteRejection (peer : ℤ) (lastLogIndex : ℤ) : RaftM Unit := do
  let hint := if lastLogIndex = int64Max then int64Max else lastLogIndex + 1
  modifyNode fun n => { n with
    inflight := Function.update n.inflight peer {}
    nextIndex := Function.update n.nextIndex peer
      (max (n.matchIndex peer + 1) (min (n.nextIndex peer - 1) hint)) }
  finishReadIndexRounds
  sendAppendEntries peer

/-- The end of `RaftNode::HandleAppendEntriesResponse`, after the probe was counted. -/
def useAppendResponse (peer : ℤ) (response : AppendEntriesResponse) : RaftM Unit := do
  let n ← getNode
  let flight := n.inflight peer
  if flight.id = 0 ∨ response.rpcId ≠ flight.id ∨ response.lastLogIndex < 0 then
    finishReadIndexRounds
  else if response.success ∧ response.lastLogIndex ≠ flight.lastIndex then finishReadIndexRounds
  else if response.success then noteSuccess peer flight
  else noteRejection peer response.lastLogIndex

/-- Counts a reply to the request in flight as the acknowledgement of a read round. -/
def countProbe (peer : ℤ) (response : AppendEntriesResponse) : RaftM Unit := do
  let n ← getNode
  if (n.inflight peer).id ≠ 0 ∧ response.rpcId = (n.inflight peer).id then
    ackReadIndexProbe peer (n.inflight peer).id
  else pure ()

/-- `RaftNode::HandleAppendEntriesResponse`. -/
def handleAppendEntriesResponse (peer : ℤ) (response : AppendEntriesResponse) : RaftM Unit := do
  let n ← getNode
  if ¬(n.running ∧ n.isRemotePeer peer) then pure ()
  else if n.currentTerm < response.term then becomeFollower response.term
  else if ¬n.isLeader ∨ response.term ≠ n.currentTerm then pure ()
  else
    notePeerContact peer
    checkReadIndexTimeout
    countProbe peer response
    useAppendResponse peer response

/-! ## `InstallSnapshot` -/

/-- The early returns of `RaftNode::HandleInstallSnapshot`. -/
def InstallSnapshot.valid (request : InstallSnapshot) (n : Node) (peer : ℤ) : Bool :=
  n.running && n.isRemotePeer peer && request.leaderId = peer && decide (0 < request.term) &&
    request.rpcId ≠ 0 && decide (0 < request.lastIncludedIndex) &&
    decide (0 < request.lastIncludedTerm) && decide (request.lastIncludedTerm ≤ request.term) &&
    decide (0 ≤ request.offset) && decide (request.data.length ≤ kMaxSnapshotBytes)

/-- The reply to an `InstallSnapshot`. -/
def replyInstall (peer : ℤ) (rpcId : ℕ) (success complete : Bool) : RaftM Unit := do
  let n ← getNode
  reply peer (.installSnapshotResponse
    { term := n.currentTerm, success := success, complete := complete, rpcId := rpcId })

/-- `KVStateMachine::InstallSnapshot`, with what runs between validation and write. -/
def installStore (index : ℤ) (bytes : Bytes) (afterValidation : RaftM Unit) : RaftM Unit := do
  match parseSnapshot bytes with
  | .error text => fail text
  | .ok entries =>
    match (← get).sm.replaceBatch index entries with
    | .error text => fail text
    | .ok batch =>
      afterValidation
      crashPoint
      modify fun c => { c with sm := c.sm.replaceAll index batch }
      observe (.installed index (← get).busy)

/-- The install of a complete snapshot. -/
def installReceived (s : Snapshot) : RaftM Unit := do
  installStore s.index s.data
    (writeLog "stage Raft snapshot install" (AbstractLog.stageSnapshotInstall s))
  writeLog "persist Raft snapshot" (AbstractLog.installSnapshot s)
  modifyNode fun n => { n with
    lastApplied := s.index
    commitIndex := max n.commitIndex s.index
    snapshotReceive := {} }

/-- What is received when a chunk comes in : a chunk at offset 0 starts over. -/
def SnapshotReceive.start (r : SnapshotReceive) (request : InstallSnapshot) : SnapshotReceive :=
  if request.offset = 0 then ⟨request.lastIncludedIndex, request.lastIncludedTerm, []⟩ else r

/-- The part of `RaftNode::HandleInstallSnapshot` that takes a chunk. -/
def receiveChunk (peer : ℤ) (request : InstallSnapshot) : RaftM Unit := do
  let n ← getNode
  let received := n.snapshotReceive.start request
  if received.index = request.lastIncludedIndex ∧ received.term = request.lastIncludedTerm ∧
      request.offset = received.data.length then
    if kMaxSnapshotBytes < (received.data ++ request.data).length then
      modifyNode fun n => { n with snapshotReceive := {} }
      replyInstall peer request.rpcId false false
    else if ¬request.done then
      modifyNode fun n => { n with
        snapshotReceive := { received with data := received.data ++ request.data } }
      replyInstall peer request.rpcId true false
    else
      modifyNode fun n => { n with
        snapshotReceive := { received with data := received.data ++ request.data } }
      installReceived ⟨request.lastIncludedIndex, request.lastIncludedTerm,
        received.data ++ request.data⟩
      replyInstall peer request.rpcId true true
  else
    modifyNode fun n => { n with snapshotReceive := {} }
    replyInstall peer request.rpcId false false

/-- The part of `RaftNode::HandleInstallSnapshot` for a request of the current term. -/
def followSnapshot (peer : ℤ) (request : InstallSnapshot) : RaftM Unit := do
  modifyNode fun n => { n with leaderId := peer }
  resetElectionTimer
  let n ← getNode
  if request.lastIncludedIndex ≤ n.lastApplied then
    modifyNode fun n => { n with snapshotReceive := {} }
    replyInstall peer request.rpcId true true
  else if n.applyInflight then replyInstall peer request.rpcId false false
  else if kMaxSnapshotBytes - request.data.length < request.offset.toNat then
    modifyNode fun n => { n with snapshotReceive := {} }
    replyInstall peer request.rpcId false false
  else receiveChunk peer request

/-- `RaftNode::HandleInstallSnapshot`. -/
def handleInstallSnapshot (peer : ℤ) (request : InstallSnapshot) : RaftM Unit := do
  let n ← getNode
  if ¬request.valid n peer then pure ()
  else if request.term < n.currentTerm then replyInstall peer request.rpcId false false
  else if n.currentTerm < request.term then
    becomeFollower request.term
    followSnapshot peer request
  else followSnapshot peer request

/-- `RaftNode::HandleInstallSnapshotResponse`. -/
def handleInstallSnapshotResponse (peer : ℤ) (response : InstallSnapshotResponse) :
    RaftM Unit := do
  let n ← getNode
  if ¬(n.running ∧ n.isRemotePeer peer) then pure ()
  else if n.currentTerm < response.term then becomeFollower response.term
  else if ¬n.isLeader ∨ response.term ≠ n.currentTerm then pure ()
  else
    notePeerContact peer
    let flight := n.inflight peer
    if ¬flight.snapshot ∨ flight.id = 0 ∨ response.rpcId ≠ flight.id then pure ()
    else if ¬response.success then
      modifyNode fun n => n.setInflight peer { flight with snapshotOffset := 0 }
      sendSnapshotChunk peer
    else if ¬response.complete then
      modifyNode fun n => n.setInflight peer { flight with
        snapshotOffset :=
          if flight.snapshotData.length ≤ flight.snapshotOffset + flight.snapshotChunk then 0
          else flight.snapshotOffset + flight.snapshotChunk }
      sendSnapshotChunk peer
    else
      modifyNode fun n => { n with
        inflight := Function.update n.inflight peer {}
        matchIndex := Function.update n.matchIndex peer
          (max (n.matchIndex peer) flight.snapshotIndex)
        nextIndex := Function.update n.nextIndex peer
          (max (n.matchIndex peer) flight.snapshotIndex + 1) }
      sendIfBehind peer

/-! ## The timer, start and stop, settings -/

/-- The part of `RaftNode::Tick` that sends. -/
def tickSend : RaftM Unit := do
  modifyNode fun n => { n with
    inflight := fun peer =>
      if (n.inflight peer).id = 0 then n.inflight peer
      else { n.inflight peer with elapsedMs := (n.inflight peer).elapsedMs + kTickIntervalMs }
    heartbeatTimerMs := n.heartbeatTimerMs - kTickIntervalMs }
  let n ← getNode
  if n.heartbeatTimerMs ≤ 0 then
    broadcastAppendEntries
    modifyNode fun n => { n with heartbeatTimerMs := kHeartbeatIntervalMs }
  else
    n.others.forM fun peer => do
      let n ← getNode
      if (n.inflight peer).id = 0 then sendAppendEntries peer else pure ()

/-- The end of `RaftNode::Tick`, after `CheckQuorum`. -/
def tickReads : RaftM Unit := do
  let n ← getNode
  if ¬n.isLeader then pure ()
  else
    expireUncommittedProposals
    finishReadIndexRounds

/-- The part of `RaftNode::Tick` of a leader. -/
def tickLeader : RaftM Unit := do
  let n ← getNode
  if n.role = .leader then
    tickSend
    checkReadIndexTimeout
    checkQuorum
    tickReads
  else pure ()

/-- The part of `RaftNode::Tick` of a node that is not leader. -/
def tickElection : RaftM Unit := do
  let n ← getNode
  if n.role ≠ .leader then
    let time ← now
    if n.electionDeadline ≤ time then becomePreCandidate else pure ()
  else pure ()

/-- `RaftNode::Tick`. -/
def tick : RaftM Unit := do
  let n ← getNode
  if ¬n.running then pure ()
  else
    tickElection
    tickLeader

/-- `RaftNode::Start`. -/
def start : RaftM Unit := do
  modifyNode fun n => { n with running := true }
  let n ← getNode
  becomeFollower n.currentTerm
  applyCommitted

/-- `RaftNode::Stop`. -/
def stop : RaftM Unit := do
  modifyNode fun n => { n with running := false, role := .follower, leaderId := -1 }
  failPending "-ERR server stopped; outcome unknown\r\n"
  clearReadIndexQueues "server stopped"
  modifyNode fun n => { n with canServeRead := false }

/-- `RaftNode::SetSnapshotThreshold`. -/
def setSnapshotThreshold (entries : ℤ) : RaftM Unit := do
  let log ← getLog
  if entries < 0 then fail "negative snapshot threshold"
  else modifyNode fun n => { n with
    snapshotThreshold := entries, lastSnapshotAttempt := log.snapshot.index }

/-- `RaftNode::SetSnapshotChunkBytes`. -/
def setSnapshotChunkBytes (bytes : ℕ) : RaftM Unit :=
  if bytes = 0 ∨ RaftCodec.kMaxFrameSize / 2 < bytes then fail "invalid snapshot chunk size"
  else modifyNode fun n => { n with snapshotChunkBytes := bytes }

/-- `RaftNode::SetLeaseReads`. -/
def setLeaseReads (enabled : Bool) : RaftM Unit :=
  modifyNode fun n => { n with leaseReads := enabled }

/-! ## The constructor -/

/-- `ValidatePeers` on the ids of the peers. -/
def validatePeers (id : ℤ) (peers : List ℤ) : Except String Unit :=
  if peers.any (· < 0) ∨ ¬peers.Nodup then .error "invalid or duplicate Raft peer"
  else if id ∉ peers then .error "self is not a Raft peer"
  else .ok ()

/-- Opening the KV database. -/
def openStore : RaftM Unit := do
  match Store.construct (← get).sm.db with
  | .error text => fail text
  | .ok sm => modify fun c => { c with sm }

/-- Opening the Raft database. By the results on `RaftLog`, this gives the log that was
stored, unless that reaches the last index of an `int64_t`. -/
def openLog : RaftM Unit := do
  let log ← getLog
  if log.lastIndex = int64Max then fail "corrupt or non-contiguous Raft log" else pure ()

/-- The recovery of a pending install in the constructor of `RaftNode`. -/
def recoverInstall (term : ℤ) : RaftM Unit := do
  let log ← getLog
  match log.loadPendingSnapshot with
  | .error text => fail text
  | .ok none => pure ()
  | .ok (some s) =>
    if term < s.term then fail "pending snapshot term exceeds durable hard state"
    else
      installStore s.index s.data (pure ())
      writeLog "persist Raft snapshot" (AbstractLog.installSnapshot s)

/-- The last lines of the constructor of `RaftNode`. -/
def checkRecovered (term votedFor : ℤ) : RaftM Unit := do
  let c ← get
  if c.sm.lastApplied < c.log.snapshot.index ∨ c.log.lastIndex < c.sm.lastApplied ∨
      term < c.log.lastTerm then
    fail "inconsistent KV/log recovery state"
  else if votedFor ≠ -1 ∧ votedFor ∉ c.node.allPeers then
    fail "persisted vote is outside the static membership"
  else modifyNode fun n => { n with
    currentTerm := term
    votedFor := votedFor
    lastApplied := c.sm.lastApplied
    commitIndex := c.sm.lastApplied }

/-- The constructor of `RaftNode` after the Raft database was opened. -/
def recover : RaftM Unit := do
  let log ← getLog
  match log.loadHardState with
  | .error text => fail text
  | .ok hardState =>
    let hard := hardState.getD (0, -1)
    if hard.1 < log.lastTerm then fail "inconsistent Raft term recovery state"
    else
      recoverInstall hard.1
      checkRecovered hard.1 hard.2

/-- The start of the process : both databases are opened and `RaftNode` is constructed, on a
context whose node has only its id, its peers and its executor. -/
def construct : RaftM Unit := do
  observe .booted
  openStore
  let n ← getNode
  match validatePeers n.nodeId n.allPeers with
  | .error text => fail text
  | .ok () =>
    openLog
    recover

end RaftKV
