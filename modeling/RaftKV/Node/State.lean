import RaftKV.AbstractLog
import RaftKV.KvSnapshot
import RaftKV.RaftCodec

/-!
# The state of a Raft node

The messages of the Raft RPCs, the fields of `RaftNode`, and what a method of `RaftNode`
works on : its own fields, the two databases, the executor that applies batches, the network
and the clock. A method is a program over that context (`RaftM`). It stops early when an
exception escapes (`Halt.failure`) or when the process crashes (`Halt.crash`). A crash can
come before every durable write, every message and every callback (`crashPoint`); the parts
of the context that outlive the process keep what was done before it.

What the program does not decide is in `Env` : the clock, the random election timeouts,
whether `PeerManager::Send` takes a message, how fast the apply worker is, and when the
process crashes. Storage itself does not fail.
-/

namespace RaftKV

/-! ## Messages -/

/-- `raftcore::RequestVote`. -/
structure RequestVote where
  term : ℤ
  candidateId : ℤ
  lastLogIndex : ℤ
  lastLogTerm : ℤ
  prevote : Bool := false
  deriving DecidableEq

/-- `raftcore::RequestVoteResponse`. -/
structure RequestVoteResponse where
  term : ℤ
  voteGranted : Bool
  prevote : Bool
  deriving DecidableEq

/-- `raftcore::AppendEntries`. -/
structure AppendEntries where
  term : ℤ
  leaderId : ℤ
  prevLogIndex : ℤ
  prevLogTerm : ℤ
  entries : List LogEntry
  leaderCommit : ℤ
  rpcId : ℕ
  deriving DecidableEq

/-- `raftcore::AppendEntriesResponse`. -/
structure AppendEntriesResponse where
  term : ℤ
  success : Bool
  lastLogIndex : ℤ
  rpcId : ℕ
  deriving DecidableEq

/-- `raftcore::InstallSnapshot`. -/
structure InstallSnapshot where
  term : ℤ
  leaderId : ℤ
  lastIncludedIndex : ℤ
  lastIncludedTerm : ℤ
  offset : ℤ
  data : Bytes
  done : Bool
  rpcId : ℕ
  deriving DecidableEq

/-- `raftcore::InstallSnapshotResponse`. -/
structure InstallSnapshotResponse where
  term : ℤ
  success : Bool
  complete : Bool
  rpcId : ℕ
  deriving DecidableEq

/-- A message between two nodes, of one of the types of `RaftMsgType`. -/
inductive Message where
  | requestVote (m : RequestVote)
  | requestVoteResponse (m : RequestVoteResponse)
  | appendEntries (m : AppendEntries)
  | appendEntriesResponse (m : AppendEntriesResponse)
  | installSnapshot (m : InstallSnapshot)
  | installSnapshotResponse (m : InstallSnapshotResponse)
  deriving DecidableEq

/-- A message on the network. `incarnation` counts the starts of the process that made the
request, also in the reply to it. -/
structure Envelope where
  src : ℤ
  dst : ℤ
  incarnation : ℕ
  sentAt : ℤ
  message : Message
  deriving DecidableEq

/-! ## Callbacks -/

/-- What a session does when a command of it completes : `RequestReadIndex` calls one after
the other, each with what follows its success and its failure. -/
inductive Script where
  | done
  | read (onOk onFail rest : Script)
  deriving DecidableEq

/-- The calls in a script. -/
def Script.weight : Script → ℕ
  | .done => 0
  | .read onOk onFail rest => 1 + onOk.weight + onFail.weight + rest.weight

/-- The callback of a `RequestReadIndex` call. `call` is the place of the call in the trace. -/
structure ReadIndexCallback where
  call : ℕ
  onOk : Script
  onFail : Script
  deriving DecidableEq

/-- The callback of a proposal. -/
structure ProposeCallback where
  onOk : Script
  onFail : Script
  deriving DecidableEq

/-- `RaftNode::Proposal`. -/
structure Proposal where
  command : Bytes
  callback : Option ProposeCallback
  deriving DecidableEq

/-- What an observer of a node sees. -/
inductive Event where
  /-- The process starts. -/
  | booted
  /-- The node becomes leader of a term. -/
  | leader (term : ℤ)
  /-- The node takes an `AppendEntries` of the leader of a term, at a time. -/
  | accepted (term : ℤ) (time : ℤ)
  /-- A proposal is admitted; `callback` says whether it has one. -/
  | proposed (index term : ℤ) (command : Bytes) (callback : Bool)
  /-- A batch reaches the KV database. -/
  | applied (first : ℤ) (commands results : List Bytes)
  /-- A snapshot of the KV database is taken; `busy` says whether a batch is outstanding. -/
  | exported (index : ℤ) (busy : Bool)
  /-- A snapshot replaces the KV database. -/
  | installed (index : ℤ) (busy : Bool)
  /-- The callback of a proposal is invoked. `call` is the place of its admission in the trace. -/
  | proposal (call : ℕ) (index : ℤ) (command : Bytes) (term : ℤ) (ok : Bool) (reply : Bytes)
  /-- `RequestReadIndex` is called and takes the lease path or not. -/
  | readCalled (lease : Bool)
  /-- A round starts for some calls, when `sequence` RPC ids have been given out. -/
  | roundStarted (calls : List ℕ) (sequence : ℕ) (sentAt : ℤ)
  /-- An answer to an RPC counts for the round that started at a place in the trace. -/
  | probeCounted (round : ℕ) (peer : ℤ) (rpcId : ℕ) (time : ℤ)
  /-- The callback of a read is invoked, by a node that has applied up to `lastApplied`. -/
  | readDone (call : ℕ) (ok : Bool) (readIndex lastApplied : ℤ) (error : String)
  /-- An exception leaves the process. -/
  | failed (text : String)
  deriving DecidableEq

/-! ## Constants -/

/-- Nanoseconds in a millisecond; times are in nanoseconds. -/
def ms : ℤ := 1000000

/-- `RaftNode::kTickIntervalMs`. -/
def kTickIntervalMs : ℤ := 10

/-- `RaftNode::kHeartbeatIntervalMs`. -/
def kHeartbeatIntervalMs : ℤ := 50

/-- `RaftNode::kMinElectionTimeoutMs`. -/
def kMinElectionTimeoutMs : ℤ := 150

/-- `RaftNode::kMaxElectionTimeoutMs`. -/
def kMaxElectionTimeoutMs : ℤ := 300

/-- `RaftNode::kProposalTimeoutMs`. -/
def kProposalTimeoutMs : ℤ := 1000

/-- `RaftNode::kRpcRetryMs`. -/
def kRpcRetryMs : ℤ := kHeartbeatIntervalMs

/-- `RaftNode::kMaxPending`. -/
def kMaxPending : ℕ := 1024

/-- `RaftNode::kMaxPendingBytes`. -/
def kMaxPendingBytes : ℕ := 16 * 1024 * 1024

/-- `RaftNode::kMaxBatchBytes`. -/
def kMaxBatchBytes : ℕ := 2 * 1024 * 1024

/-- `RaftNode::kMaxBatchEntries`. -/
def kMaxBatchEntries : ℕ := 128

/-- `RaftNode::kMaxPendingReadIndex`. -/
def kMaxPendingReadIndex : ℕ := 10000

/-- `RaftNode::kReadIndexTimeoutMs`. -/
def kReadIndexTimeoutMs : ℤ := 1000

/-! ## The fields of a node -/

/-- `RaftNode::State`. -/
inductive Role where
  | follower
  | preCandidate
  | candidate
  | leader
  deriving DecidableEq

/-- `RaftNode::Inflight`. An `id` of 0 means that nothing is in flight. -/
structure Inflight where
  id : ℕ := 0
  lastIndex : ℤ := 0
  elapsedMs : ℤ := 0
  leaseSentAt : ℤ := 0
  payload : Option Message := none
  type : RaftMsgType := .kAppendEntries
  snapshot : Bool := false
  snapshotOffset : ℕ := 0
  snapshotChunk : ℕ := 0
  snapshotIndex : ℤ := 0
  snapshotTerm : ℤ := 0
  snapshotData : Bytes := []

/-- `RaftNode::SnapshotReceive`. -/
structure SnapshotReceive where
  index : ℤ := -1
  term : ℤ := -1
  data : Bytes := []

/-- `RaftNode::ReadIndexRequest`. -/
structure ReadIndexRequest where
  readIndex : ℤ
  callback : ReadIndexCallback
  createdAt : ℤ

/-- The calls in the callback of a request, with its own. -/
def ReadIndexRequest.weight (r : ReadIndexRequest) : ℕ :=
  1 + r.callback.onOk.weight + r.callback.onFail.weight

/-- `RaftNode::HeartbeatRound`. `start` is the place of its start in the trace. -/
structure HeartbeatRound where
  roundId : ℕ
  start : ℕ
  acks : Finset ℤ
  requests : List ReadIndexRequest
  probeRpcIds : ℤ → Option ℕ := fun _ => none
  sentAt : ℤ
  confirmed : Bool := false

/-- `RaftNode::Pending`, with the place of its admission in the trace, and the term and the
command it was admitted with. -/
structure Pending where
  callback : Option ProposeCallback
  bytes : ℕ
  createdAt : ℤ
  call : ℕ
  term : ℤ
  command : Bytes

/-- `RaftNode`. Counters that only feed metrics are left out, and so is
`_heartbeat_in_flight`, which nothing reads. -/
structure Node where
  nodeId : ℤ
  allPeers : List ℤ
  /-- There is an `ApplyExecutor`. -/
  async : Bool := false
  applyInflight : Bool := false
  storageHealthy : Bool := true
  currentTerm : ℤ := 0
  votedFor : ℤ := -1
  role : Role := .follower
  running : Bool := false
  commitIndex : ℤ := 0
  lastApplied : ℤ := 0
  leaderId : ℤ := -1
  votes : Finset ℤ := ∅
  nextIndex : ℤ → ℤ := fun _ => 1
  matchIndex : ℤ → ℤ := fun _ => 0
  inflight : ℤ → Inflight := fun _ => {}
  snapshotReceive : SnapshotReceive := {}
  snapshotThreshold : ℤ := 0
  lastSnapshotAttempt : ℤ := 0
  leaseReads : Bool := false
  snapshotChunkBytes : ℕ := 256 * 1024
  rpcSequence : ℕ := 0
  electionDeadline : ℤ := 0
  leaderSince : ℤ := 0
  peerActive : ℤ → Option ℤ := fun _ => none
  leaseConfirmed : ℤ → Option ℤ := fun _ => none
  heartbeatTimerMs : ℤ := 0
  pending : List (ℤ × Pending) := []
  pendingBytes : ℕ := 0
  canServeRead : Bool := false
  nextRoundId : ℕ := 0
  heartbeatRounds : List HeartbeatRound := []
  completingReads : Bool := false
  unsentReads : List ReadIndexRequest := []
  pendingReads : List ReadIndexRequest := []

namespace Node

/-- `RaftNode::IsLeader`. -/
def isLeader (n : Node) : Bool :=
  n.running && n.role = .leader

/-- `RaftNode::QuorumSize`. -/
def quorumSize (n : Node) : ℕ :=
  n.allPeers.length / 2 + 1

/-- `RaftNode::IsRemotePeer`. -/
def isRemotePeer (n : Node) (id : ℤ) : Bool :=
  id ≠ n.nodeId && id ∈ n.allPeers

/-- `RaftNode::PendingReadIndexCount`. -/
def pendingReadIndexCount (n : Node) : ℕ :=
  n.pendingReads.length + n.unsentReads.length +
    (n.heartbeatRounds.map fun r => r.requests.length).sum

/-- The peers other than the node itself, in the order of the configuration. -/
def others (n : Node) : List ℤ :=
  n.allPeers.filter (· ≠ n.nodeId)

/-- Sets what is in flight to a peer. -/
def setInflight (n : Node) (peer : ℤ) (f : Inflight) : Node :=
  { n with inflight := Function.update n.inflight peer f }

end Node

/-! ## The executor -/

/-- A batch handed to the worker. -/
structure ApplyJob where
  first : ℤ
  commands : List Bytes

/-- A completion posted to the owner : the batch it is about, and what `ApplyBatch` did. -/
structure Completion where
  first : ℤ
  count : ℕ
  results : Except String (List Bytes)

/-- `SerialApplyExecutor` : the accepted job, and the completions the owner has not run. -/
structure Executor where
  job : Option ApplyJob := none
  completions : List Completion := []

/-! ## The context of a method -/

/-- What the program does not decide. Lists are used from the front, and an empty list means
no delay, the shortest timeout, a message taken, a worker that waits. -/
structure Env where
  clock : ℤ
  delays : List ℕ := []
  timeouts : List ℕ := []
  sends : List Bool := []
  works : List Bool := []
  /-- The number of effects before the process crashes, if it does. -/
  crashAfter : Option ℕ := none
  /-- The process does not crash if that effect is a write to the Raft log : RocksDB refuses it. -/
  refuses : Bool := false

/-- What a method works on. The network and the trace are those of the whole cluster. -/
structure Context where
  node : Node
  log : AbstractLog
  sm : Store
  exec : Executor
  net : List Envelope
  trace : List (ℤ × Event)
  incarnation : ℕ
  /-- The incarnation the request being handled came from. -/
  replyTo : ℕ
  env : Env

/-- A batch is with the executor, or its completion has not been run to the end. -/
def Context.busy (c : Context) : Bool :=
  c.node.applyInflight || c.exec.job.isSome || !c.exec.completions.isEmpty

/-- Why a method does not return. -/
inductive Halt where
  | crash
  | failure (text : String)
  deriving DecidableEq

/-- A method of `RaftNode`. -/
abbrev RaftM := EStateM Halt Context

namespace RaftM

/-- The fields of the node. -/
def getNode : RaftM Node :=
  return (← get).node

def modifyNode (f : Node → Node) : RaftM Unit :=
  modify fun c => { c with node := f c.node }

/-- The Raft log. -/
def getLog : RaftM AbstractLog :=
  return (← get).log

/-- An exception that leaves the method. -/
def fail {α : Type} (text : String) : RaftM α :=
  throw (.failure text)

/-- The process may crash here. -/
def crashPoint : RaftM Unit := do
  match (← get).env.crashAfter with
  | none => pure ()
  | some 0 => throw .crash
  | some (n + 1) => modify fun c => { c with env := { c.env with crashAfter := some n } }

/-- `RaftNode::Now`. -/
def now : RaftM ℤ :=
  modifyGet fun c =>
    (c.env.clock + c.env.delays.headD 0,
      { c with env := { c.env with
          clock := c.env.clock + c.env.delays.headD 0
          delays := c.env.delays.tail } })

/-- A value of `uniform_int_distribution` between the shortest and the longest timeout. -/
def drawTimeout : RaftM ℤ :=
  modifyGet fun c =>
    (max kMinElectionTimeoutMs (min kMaxElectionTimeoutMs (c.env.timeouts.headD 0)),
      { c with env := { c.env with timeouts := c.env.timeouts.tail } })

/-- Adds an event to the trace. -/
def observe (e : Event) : RaftM Unit :=
  modify fun c => { c with trace := c.trace ++ [(c.node.nodeId, e)] }

/-- Adds an event to the trace and returns its place there. -/
def mark (e : Event) : RaftM ℕ := do
  let c ← get
  observe e
  return c.trace.length

/-- `PeerManager::Send` of a request (from this incarnation) or of a reply (to another). -/
def sendFrom (incarnation : ℕ) (peer : ℤ) (message : Message) : RaftM Bool := do
  crashPoint
  modifyGet fun c =>
    (c.env.sends.headD true,
      { c with
        net := if c.env.sends.headD true then
            c.net ++ [⟨c.node.nodeId, peer, incarnation, c.env.clock, message⟩]
          else c.net
        env := { c.env with sends := c.env.sends.tail } })

/-- Sends a request. -/
def send (peer : ℤ) (message : Message) : RaftM Bool := do
  sendFrom (← get).incarnation peer message

/-- Replies to the request being handled. -/
def reply (peer : ℤ) (message : Message) : RaftM Unit := do
  let _ ← sendFrom (← get).replyTo peer message
  pure ()

/-- `PeerManager::Broadcast`. -/
def broadcast (message : Message) : RaftM Unit := do
  let n ← getNode
  n.others.forM fun peer => do
    let _ ← send peer message
    pure ()

/-- A durable write to the Raft log, after the checks of `op`. `RequireStorageOK` throws when
RocksDB refuses it. -/
def writeLog (operation : String) (op : AbstractLog → Except String AbstractLog) : RaftM Unit := do
  let c ← get
  match op c.log with
  | .error text => fail text
  | .ok log =>
    if c.env.refuses = true ∧ c.env.crashAfter = some 0 then
      modify fun c => { c with env := { c.env with crashAfter := none } }
      fail operation
    else
      crashPoint
      modify fun c => { c with log }

/-- A call of the state machine that may write. -/
def runStore {α : Type} (m : StoreM α) : RaftM α := do
  crashPoint
  match m (← get).sm with
  | .ok a sm =>
    modify fun c => { c with sm }
    pure a
  | .error text sm =>
    modify fun c => { c with sm }
    fail text

/-- The handler `cleanup` runs when an exception (not a crash) leaves `body`. -/
def onFailure {α : Type} (cleanup : RaftM Unit) (body : RaftM α) : RaftM α :=
  tryCatch body fun
    | .crash => throw .crash
    | .failure text => do
      cleanup
      fail text

end RaftM

end RaftKV
