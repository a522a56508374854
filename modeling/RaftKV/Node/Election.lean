import RaftKV.Node.Apply

/-!
# Elections

The roles of a node and the handlers of votes. An election timeout starts a pre-vote, which
changes neither the term nor the vote; a majority of pre-votes starts an election in the next
term, and a majority of votes makes the node leader, which proposes an empty command in its
term. The term and the vote are durable before anything is sent.
-/

namespace RaftKV

open RaftM

/-! ## Timers -/

/-- `RaftNode::ResetElectionTimer`. -/
def resetElectionTimer : RaftM Unit := do
  let timeout ← drawTimeout
  let time ← now
  modifyNode fun n => { n with electionDeadline := time + timeout * ms }

/-- `RaftNode::NotePeerContact`. -/
def notePeerContact (peer : ℤ) : RaftM Unit := do
  let time ← now
  modifyNode fun n => { n with peerActive := Function.update n.peerActive peer (some time) }

/-! ## Roles -/

/-- The fields that `BecomeFollower` resets. -/
def Node.asFollower (n : Node) : Node :=
  { n with
    role := .follower
    leaderId := -1
    votes := ∅
    peerActive := fun _ => none
    leaseConfirmed := fun _ => none
    inflight := fun _ => {}
    snapshotReceive := {} }

/-- The first lines of `RaftNode::BecomeFollower` : a higher term is made durable. -/
def adoptTerm (term : ℤ) : RaftM Unit := do
  let n ← getNode
  if n.currentTerm < term then
    writeLog "persist Raft hard state" (AbstractLog.saveHardState term (-1))
    modifyNode fun n => { n with currentTerm := term, votedFor := -1 }
  else pure ()

/-- `RaftNode::BecomeFollower`. -/
def becomeFollower (term : ℤ) : RaftM Unit := do
  adoptTerm term
  modifyNode Node.asFollower
  resetElectionTimer
  failPending "-ERR leadership lost; outcome unknown\r\n"
  clearReadIndexQueues "leadership lost"
  modifyNode fun n => { n with canServeRead := false }

/-- The fields that `BecomeLeader` sets before it proposes. -/
def Node.asLeader (n : Node) (lastIndex : ℤ) : Node :=
  { n with
    role := .leader
    leaderId := n.nodeId
    peerActive := fun _ => none
    leaseConfirmed := fun _ => none
    nextIndex := fun _ => lastIndex + 1
    matchIndex := Function.update (fun _ => 0) n.nodeId lastIndex
    inflight := fun _ => {}
    heartbeatTimerMs := kHeartbeatIntervalMs
    canServeRead := false }

/-- `RaftNode::BecomeLeader`. -/
def becomeLeader : RaftM Unit := do
  let log ← getLog
  modifyNode fun n => n.asLeader log.lastIndex
  let n ← getNode
  observe (.leader n.currentTerm)
  let _ ← proposeBatch [⟨[], none⟩]
  let time ← now
  modifyNode fun n => { n with leaderSince := time }
  notePeerContact n.nodeId

/-- `RaftNode::BecomeCandidate`. -/
def becomeCandidate : RaftM Unit := do
  let n ← getNode
  if n.currentTerm = int32Max then fail "Raft term exhausted"
  else
    writeLog "persist Raft hard state" (AbstractLog.saveHardState (n.currentTerm + 1) n.nodeId)
    modifyNode fun n => { n with
      currentTerm := n.currentTerm + 1
      votedFor := n.nodeId
      role := .candidate
      leaderId := -1
      votes := {n.nodeId} }
    resetElectionTimer
    if n.quorumSize = 1 then becomeLeader
    else
      let log ← getLog
      broadcast (.requestVote
        { term := n.currentTerm + 1
          candidateId := n.nodeId
          lastLogIndex := log.lastIndex
          lastLogTerm := log.lastTerm })

/-- `RaftNode::BecomePreCandidate`. -/
def becomePreCandidate : RaftM Unit := do
  let n ← getNode
  if n.quorumSize = 1 then becomeCandidate
  else if n.currentTerm = int32Max then fail "Raft term exhausted"
  else
    modifyNode fun n => { n with role := .preCandidate, leaderId := -1, votes := {n.nodeId} }
    resetElectionTimer
    let log ← getLog
    broadcast (.requestVote
      { term := n.currentTerm + 1
        candidateId := n.nodeId
        lastLogIndex := log.lastIndex
        lastLogTerm := log.lastTerm
        prevote := true })

/-- The peers that were heard of in the window before `time`. -/
def Node.freshPeers (n : Node) (time : ℤ) : ℕ :=
  (n.allPeers.filter fun peer =>
    match n.peerActive peer with
    | some seen => time - seen < kMinElectionTimeoutMs * ms
    | none => false).length

/-- `RaftNode::CheckQuorum`. -/
def checkQuorum : RaftM Unit := do
  let n ← getNode
  notePeerContact n.nodeId
  if n.quorumSize ≤ 1 then pure ()
  else
    let time ← now
    let n ← getNode
    if time - n.leaderSince < kMinElectionTimeoutMs * ms then pure ()
    else if n.quorumSize ≤ n.freshPeers time then pure ()
    else becomeFollower n.currentTerm

/-! ## Votes -/

/-- `RaftNode::IsLogUpToDate`. -/
def isLogUpToDate (log : AbstractLog) (index term : ℤ) : Bool :=
  if term ≠ log.lastTerm then log.lastTerm < term else log.lastIndex ≤ index

/-- The early returns of `RaftNode::HandleRequestVote`. -/
def RequestVote.valid (request : RequestVote) (n : Node) (peer : ℤ) : Bool :=
  n.running && n.isRemotePeer peer && request.candidateId = peer && decide (0 < request.term) &&
    decide (0 ≤ request.lastLogIndex) && decide (0 ≤ request.lastLogTerm) &&
    decide (request.lastLogTerm ≤ request.term)

/-- The lambda `reply` of `RaftNode::HandleRequestVote`. -/
def replyVote (peer : ℤ) (prevote granted : Bool) : RaftM Unit := do
  let n ← getNode
  reply peer (.requestVoteResponse
    { term := n.currentTerm, voteGranted := granted, prevote := prevote })

/-- The rule by which a follower that has heard of a leader recently refuses. -/
def suppressed (peer : ℤ) : RaftM Bool := do
  let n ← getNode
  if n.role = .follower ∧ n.leaderId ≠ -1 ∧ n.leaderId ≠ peer then
    let time ← now
    return time < n.electionDeadline
  else return false

/-- The end of `RaftNode::HandleRequestVote` : a vote in the current term. -/
def castVote (peer : ℤ) (request : RequestVote) : RaftM Unit := do
  let n ← getNode
  let log ← getLog
  if request.term = n.currentTerm ∧ (n.votedFor = -1 ∨ n.votedFor = peer) ∧
      isLogUpToDate log request.lastLogIndex request.lastLogTerm then
    writeLog "persist Raft hard state" (AbstractLog.saveHardState n.currentTerm peer)
    modifyNode fun n => { n with votedFor := peer }
    resetElectionTimer
    replyVote peer false true
  else replyVote peer false false

/-- `RaftNode::HandleRequestVote`. -/
def handleRequestVote (peer : ℤ) (request : RequestVote) : RaftM Unit := do
  let n ← getNode
  let log ← getLog
  if ¬request.valid n peer then pure ()
  else if request.prevote ∧ n.role = .leader then replyVote peer request.prevote false
  else if ← suppressed peer then replyVote peer request.prevote false
  else if request.prevote then
    replyVote peer request.prevote (n.currentTerm < request.term ∧
      isLogUpToDate log request.lastLogIndex request.lastLogTerm)
  else if n.currentTerm < request.term then
    becomeFollower request.term
    castVote peer request
  else castVote peer request

/-- `RaftNode::HandleRequestVoteResponse`. -/
def handleRequestVoteResponse (peer : ℤ) (response : RequestVoteResponse) : RaftM Unit := do
  let n ← getNode
  if ¬(n.running ∧ n.isRemotePeer peer) then pure ()
  else if n.currentTerm < response.term then becomeFollower response.term
  else if n.role = .preCandidate then
    if response.prevote ∧ response.voteGranted ∧ response.term ≤ n.currentTerm then
      modifyNode fun n => { n with votes := insert peer n.votes }
      if n.quorumSize ≤ (insert peer n.votes).card then becomeCandidate else pure ()
    else pure ()
  else if n.role ≠ .candidate ∨ response.prevote ∨ response.term ≠ n.currentTerm then pure ()
  else if response.voteGranted then
    modifyNode fun n => { n with votes := insert peer n.votes }
    if n.quorumSize ≤ (insert peer n.votes).card then becomeLeader else pure ()
  else pure ()

end RaftKV
