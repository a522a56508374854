import RaftKV.Node.Replication

/-!
# Read index

`RequestReadIndex` and the rounds that confirm it. A read waits in `_unsent_reads` for a
round, in a round for acknowledgements of a majority, and in `_pending_reads` for the state
machine; a valid lease skips the round.

Callbacks call `RequestReadIndex` again. While a loop invokes callbacks, `_completing_reads`
is set and such a call only rejects or enqueues : it starts no loop of its own. So the body
of the method is one definition (`requestReadIndexWith`) that takes the two loops it may start
as arguments; the calls made by loops run it without them (`runNested`), and the calls of the
server and of proposals run it with them (`runScript`). The bound on the turns of a loop is
the number of calls in the scripts of its queue, which each turn lowers.
-/

namespace RaftKV

open RaftM

/-! ## The body of `RequestReadIndex` -/

/-- The number of peers, with the node itself, whose confirmation is in the lease window. -/
def Node.freshLease (n : Node) (time : ℤ) : ℕ :=
  1 + (n.others.filter fun peer =>
    match n.leaseConfirmed peer with
    | some sentAt => time - sentAt < kMinElectionTimeoutMs * ms
    | none => false).length

/-- `RaftNode::ReadLeaseValid`. -/
def readLeaseValid : RaftM Bool := do
  let n ← getNode
  if ¬n.leaseReads ∨ ¬n.isLeader ∨ ¬n.canServeRead then return false
  else
    let time ← now
    if time - n.leaderSince < kMaxElectionTimeoutMs * ms then return false
    else if n.quorumSize ≤ 1 then return true
    else return n.quorumSize ≤ n.freshLease time

/-- Invokes the callback of a read. `next` is what the callback does. -/
def invokeRead (call : ℕ) (ok : Bool) (readIndex : ℤ) (error : String) (next : RaftM Unit) :
    RaftM Unit := do
  crashPoint
  let n ← getNode
  observe (.readDone call ok readIndex n.lastApplied error)
  next

/-- A call that is refused. -/
def rejectRead (error : String) (next : RaftM Unit) : RaftM Bool := do
  let call ← mark (.readCalled false)
  invokeRead call false (-1) error next
  return false

/-- The part of `RaftNode::RequestReadIndex` with a valid lease. -/
def leaseRead (processPending : RaftM Unit) (runOk : RaftM Unit) (onOk onFail : Script) :
    RaftM Bool := do
  let call ← mark (.readCalled true)
  let n ← getNode
  let createdAt ← now
  if n.lastApplied < n.commitIndex ∨ n.completingReads then
    modifyNode fun n => { n with
      pendingReads := n.pendingReads ++ [⟨n.commitIndex, ⟨call, onOk, onFail⟩, createdAt⟩] }
    return true
  else
    modifyNode fun n => { n with completingReads := true }
    invokeRead call true n.commitIndex "" runOk
    modifyNode fun n => { n with completingReads := false }
    processPending
    return true

/-- The part of `RaftNode::RequestReadIndex` without a lease. -/
def roundRead (finishRounds : RaftM Unit) (onOk onFail : Script) : RaftM Bool := do
  let call ← mark (.readCalled false)
  let n ← getNode
  let createdAt ← now
  modifyNode fun n => { n with
    unsentReads := n.unsentReads ++ [⟨n.commitIndex, ⟨call, onOk, onFail⟩, createdAt⟩] }
  if n.completingReads then return true
  else
    finishRounds
    return true

/-- The body of `RaftNode::RequestReadIndex`. -/
def requestReadIndexWith (processPending finishRounds : RaftM Unit) (runOk runFail : RaftM Unit)
    (onOk onFail : Script) : RaftM Bool := do
  let n ← getNode
  if ¬n.isLeader then
    rejectRead (if n.leaderId = -1 then "no leader" else "not leader") runFail
  else if ¬n.canServeRead then rejectRead "waiting for leader to commit no-op" runFail
  else if kMaxPendingReadIndex ≤ n.pendingReadIndexCount then
    rejectRead "read index queue full" runFail
  else if ← readLeaseValid then leaseRead processPending runOk onOk onFail
  else roundRead finishRounds onOk onFail

/-- What a callback does : its calls of `RequestReadIndex`, one after the other. -/
def runScriptWith (processPending finishRounds : RaftM Unit) : Script → RaftM Unit
  | .done => pure ()
  | .read onOk onFail rest => do
    let _ ← requestReadIndexWith processPending finishRounds
      (runScriptWith processPending finishRounds onOk)
      (runScriptWith processPending finishRounds onFail) onOk onFail
    runScriptWith processPending finishRounds rest

/-- A callback invoked by a loop, under `_completing_reads`. -/
def runNested : Script → RaftM Unit :=
  runScriptWith (pure ()) (pure ())

/-- Invokes the callback of a queued read from a loop. -/
def invokeQueued (request : ReadIndexRequest) (ok : Bool) (readIndex : ℤ) (error : String) :
    RaftM Unit :=
  invokeRead request.callback.call ok readIndex error
    (runNested (if ok then request.callback.onOk else request.callback.onFail))

/-- The calls in the scripts of a queue. -/
def queueWeight (queue : List ReadIndexRequest) : ℕ :=
  (queue.map ReadIndexRequest.weight).sum

/-! ## Rounds -/

/-- `RaftNode::ProcessConfirmedRound` on the requests of a round. -/
def processConfirmedRound (requests : List ReadIndexRequest) : RaftM Unit := do
  let nested := (← getNode).completingReads
  modifyNode fun n => { n with completingReads := true }
  requests.forM fun request => do
    let n ← getNode
    if request.readIndex ≤ n.lastApplied then invokeQueued request true request.readIndex ""
    else modifyNode fun n => { n with pendingReads := n.pendingReads ++ [request] }
  modifyNode fun n => { n with completingReads := nested }

/-- The loop of `RaftNode::TryStartReadRound`. -/
def startReadRounds : ℕ → RaftM Unit
  | 0 => pure ()
  | turns + 1 => do
    let n ← getNode
    if n.unsentReads.isEmpty ∨ ¬n.heartbeatRounds.isEmpty then pure ()
    else
      let sentAt ← now
      let start ← mark (.roundStarted (n.unsentReads.map (·.callback.call)) n.rpcSequence sentAt)
      let round : HeartbeatRound :=
        { roundId := n.nextRoundId + 1
          start := start
          acks := {n.nodeId}
          requests := n.unsentReads
          sentAt := sentAt }
      modifyNode fun n => { n with
        nextRoundId := n.nextRoundId + 1
        unsentReads := []
        heartbeatRounds := [round] }
      if n.quorumSize ≠ 1 then pure ()
      else
        modifyNode fun n => { n with
          heartbeatRounds := [{ round with confirmed := true, requests := [] }] }
        processConfirmedRound round.requests
        modifyNode fun n => { n with heartbeatRounds := n.heartbeatRounds.tail }
        startReadRounds turns

/-- `RaftNode::TryStartReadRound`. -/
def tryStartReadRound : RaftM Unit := do
  startReadRounds (queueWeight (← getNode).unsentReads)

/-- `RaftNode::MaybeSendReadProbes`. -/
def maybeSendReadProbes : RaftM Unit := do
  let n ← getNode
  match n.heartbeatRounds with
  | [] => pure ()
  | round :: _ =>
    if round.confirmed then pure ()
    else n.others.forM fun peer => do
      let bound := match (← getNode).heartbeatRounds with
        | [] => true
        | round :: _ => (round.probeRpcIds peer).isSome
      if bound then pure () else sendAppendEntries peer

/-- `RaftNode::FinishReadIndexRounds`. -/
def finishReadIndexRounds : RaftM Unit := do
  modifyNode fun n => { n with
    heartbeatRounds := n.heartbeatRounds.dropWhile fun round => round.confirmed }
  tryStartReadRound
  maybeSendReadProbes

/-! ## Reads that wait for the state machine -/

/-- The loop of `RaftNode::ProcessPendingReads`. -/
def servePendingReads : ℕ → RaftM Unit
  | 0 => pure ()
  | turns + 1 => do
    let n ← getNode
    match n.pendingReads with
    | [] => pure ()
    | request :: rest =>
      if request.readIndex ≤ n.lastApplied then
        modifyNode fun n => { n with pendingReads := rest }
        invokeQueued request true request.readIndex ""
        servePendingReads turns
      else pure ()

/-- `RaftNode::ProcessPendingReads`. -/
def processPendingReads : RaftM Unit := do
  let n ← getNode
  modifyNode fun n => { n with completingReads := true }
  servePendingReads (queueWeight n.pendingReads)
  modifyNode fun m => { m with completingReads := n.completingReads }
  if n.completingReads then pure () else finishReadIndexRounds

/-- A callback invoked outside the loops. -/
def runScript : Script → RaftM Unit :=
  runScriptWith processPendingReads finishReadIndexRounds

/-- `RaftNode::RequestReadIndex`. -/
def requestReadIndex (onOk onFail : Script) : RaftM Bool :=
  requestReadIndexWith processPendingReads finishReadIndexRounds (runScript onOk)
    (runScript onFail) onOk onFail

/-! ## Acknowledgements, expiry and failure -/

/-- Changes the round at a position. -/
def modifyRound (i : ℕ) (f : HeartbeatRound → HeartbeatRound) : RaftM Unit :=
  modifyNode fun n => { n with heartbeatRounds := n.heartbeatRounds.modify i f }

/-- A round that an acknowledgement of a peer may count for. -/
def HeartbeatRound.awaits (round : HeartbeatRound) (peer : ℤ) (rpcId : ℕ) : Bool :=
  !round.confirmed && round.probeRpcIds peer = some rpcId

/-- `RaftNode::AckReadIndexProbe`. -/
def ackReadIndexProbe (peer : ℤ) (rpcId : ℕ) : RaftM Unit := do
  let time ← now
  let n ← getNode
  match n.heartbeatRounds.findIdx? fun round => round.awaits peer rpcId with
  | none => pure ()
  | some i =>
    match n.heartbeatRounds[i]? with
    | none => pure ()
    | some round =>
      if kMinElectionTimeoutMs * ms ≤ time - round.sentAt then pure ()
      else
        observe (.probeCounted round.start peer rpcId time)
        modifyRound i fun round => { round with acks := insert peer round.acks }
        if n.quorumSize ≤ (insert peer round.acks).card then
          modifyRound i fun round => { round with confirmed := true, requests := [] }
          processConfirmedRound round.requests
        else pure ()

/-- The loop of `RaftNode::CheckReadIndexTimeout` over the rounds. -/
def expireRounds (time : ℤ) : ℕ → RaftM Unit
  | 0 => pure ()
  | turns + 1 => do
    match (← getNode).heartbeatRounds with
    | [] => pure ()
    | round :: _ =>
      if time - round.sentAt < kMinElectionTimeoutMs * ms then pure ()
      else
        round.requests.forM fun request => invokeQueued request false (-1) "read index timeout"
        modifyNode fun n => { n with heartbeatRounds := n.heartbeatRounds.tail }
        expireRounds time turns

/-- The lambda `timeout_queue` of `RaftNode::CheckReadIndexTimeout`, on the queue that `queue`
reads and `pop` shortens. -/
def expireQueue (time : ℤ) (queue : Node → List ReadIndexRequest) (pop : Node → Node)
    (reason : String) : ℕ → RaftM Unit
  | 0 => pure ()
  | turns + 1 => do
    match queue (← getNode) with
    | [] => pure ()
    | request :: _ =>
      if time - request.createdAt ≤ kReadIndexTimeoutMs * ms then pure ()
      else
        invokeQueued request false (-1) reason
        modifyNode pop
        expireQueue time queue pop reason turns

/-- `RaftNode::CheckReadIndexTimeout`. -/
def checkReadIndexTimeout : RaftM Unit := do
  let time ← now
  let n ← getNode
  modifyNode fun n => { n with completingReads := true }
  expireRounds time n.heartbeatRounds.length
  expireQueue time (·.unsentReads) (fun n => { n with unsentReads := n.unsentReads.tail })
    "read index timeout" (queueWeight (← getNode).unsentReads)
  expireQueue time (·.pendingReads) (fun n => { n with pendingReads := n.pendingReads.tail })
    "apply timeout" (queueWeight (← getNode).pendingReads)
  modifyNode fun m => { m with completingReads := n.completingReads }

/-- `RaftNode::ClearReadIndexQueues`. -/
def clearReadIndexQueues (reason : String) : RaftM Unit := do
  let n ← getNode
  modifyNode fun n => { n with completingReads := true }
  (n.heartbeatRounds.flatMap fun round => round.requests).forM fun request =>
    invokeQueued request false (-1) reason
  modifyNode fun n => { n with heartbeatRounds := [] }
  (← getNode).unsentReads.forM fun request => invokeQueued request false (-1) reason
  modifyNode fun n => { n with unsentReads := [] }
  (← getNode).pendingReads.forM fun request => invokeQueued request false (-1) reason
  modifyNode fun n => { n with pendingReads := [] }
  modifyNode fun m => { m with completingReads := n.completingReads }

end RaftKV
