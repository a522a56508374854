import RaftKV.Node.ReadIndex

/-!
# Commit, apply and propose

`AdvanceCommitIndex`, `ApplyCommitted` and `FinishApply`, the snapshots a node takes of its
own state machine, and `ProposeBatch`. Committed entries are applied in batches, by the
node itself or by the executor's worker; the completion of a batch moves `_last_applied`,
serves the reads that waited for it, and then invokes the callbacks of the proposals in it.
-/

namespace RaftKV

open RaftM

/-! ## Callbacks of proposals -/

/-- Invokes the callback of a row of the pending table, if there is one. -/
def invokeProposal (item : ℤ × Pending) (ok : Bool) (reply : Bytes) : RaftM Unit :=
  match item.2.callback with
  | none => pure ()
  | some callback => do
    crashPoint
    observe (.proposal item.2.call item.1 item.2.command item.2.term ok reply)
    runScript (if ok then callback.onOk else callback.onFail)

/-- Fails the proposals in a list. -/
def failProposals (reply : Bytes) (items : List (ℤ × Pending)) : RaftM Unit :=
  items.forM fun item => invokeProposal item false reply

/-- `RaftNode::FailPending`. -/
def failPending (result : String) : RaftM Unit := do
  let n ← getNode
  modifyNode fun n => { n with pending := [], pendingBytes := 0 }
  failProposals (ascii result) n.pending

/-- The bytes of pending proposals. -/
def pendingSize (items : List (ℤ × Pending)) : ℕ :=
  (items.map fun item => item.2.bytes).sum

/-- `RaftNode::ExpireUncommittedProposals`. -/
def expireUncommittedProposals : RaftM Unit := do
  let time ← now
  let n ← getNode
  let expired := n.pending.filter fun item =>
    n.commitIndex < item.1 ∧ kProposalTimeoutMs * ms ≤ time - item.2.createdAt
  modifyNode fun n => { n with
    pending := n.pending.filter fun item =>
      ¬(n.commitIndex < item.1 ∧ kProposalTimeoutMs * ms ≤ time - item.2.createdAt)
    pendingBytes := n.pendingBytes - pendingSize expired }
  failProposals (ascii "-ERR proposal timeout; outcome unknown\r\n") expired

/-! ## Snapshots of the state machine -/

/-- The checks of `RaftNode::MaybeSnapshot`. -/
def Node.snapshotDue (n : Node) (log : AbstractLog) : Bool :=
  n.running && !n.applyInflight && decide (0 < n.snapshotThreshold) &&
    decide (log.snapshot.index < n.lastApplied) &&
    decide (max log.snapshot.index n.lastSnapshotAttempt < n.lastApplied) &&
    decide (n.snapshotThreshold ≤ n.lastApplied - max log.snapshot.index n.lastSnapshotAttempt) &&
    decide (0 < log.getTerm n.lastApplied)

/-- `RaftNode::MaybeSnapshot`. -/
def maybeSnapshot : RaftM Unit := do
  let n ← getNode
  let log ← getLog
  if n.snapshotDue log then
    match (← get).sm.exportSnapshot with
    | .error text => fail text
    | .ok data =>
      observe (.exported n.lastApplied (← get).busy)
      modifyNode fun m => { m with lastSnapshotAttempt := n.lastApplied }
      if kMaxSnapshotBytes < data.length then pure ()
      else
        writeLog "persist Raft snapshot"
          (AbstractLog.compactApplied ⟨n.lastApplied, log.getTerm n.lastApplied, data⟩)
  else pure ()

/-! ## Applying -/

/-- The proposals of a batch, taken out of the pending table. -/
def takePending (first : ℤ) (count : ℕ) : RaftM (List (ℤ × Pending)) := do
  let n ← getNode
  let finished := n.pending.filter fun item => first ≤ item.1 ∧ item.1 < first + count
  modifyNode fun n => { n with
    pending := n.pending.filter fun item => ¬(first ≤ item.1 ∧ item.1 < first + count)
    pendingBytes := n.pendingBytes - pendingSize finished }
  return finished

/-- Reads are served once an entry of the current term is committed. -/
def enableReads : RaftM Unit := do
  let log ← getLog
  modifyNode fun n =>
    if n.role = .leader ∧ ¬n.canServeRead ∧ 0 < n.commitIndex ∧
        log.getTerm n.commitIndex = n.currentTerm then
      { n with canServeRead := true }
    else n

/-- `RaftNode::FinishApply`. -/
def finishApply (first : ℤ) (count : ℕ) (results : List Bytes) : RaftM Unit := do
  let n ← getNode
  if first ≠ n.lastApplied + 1 ∨ results.length ≠ count then
    fail "out-of-order state machine completion"
  else
    modifyNode fun n => { n with lastApplied := n.lastApplied + count }
    enableReads
    processPendingReads
    let finished ← takePending first count
    finished.forM fun item =>
      invokeProposal item true (results.getD (item.1 - first).toNat [])

/-- The loop of `RaftNode::ApplyCommitted` that collects the commands of a batch, from `index`
to the commit index, with `count` commands of `bytes` bytes before it. The first argument
bounds the turns left; the limit on the number of commands stops the loop before it does. -/
def collectCommands (log : AbstractLog) (commit : ℤ) : ℕ → ℤ → ℕ → ℕ → Except String (List Bytes)
  | 0, _, _, _ => .ok []
  | turns + 1, index, count, bytes =>
    if commit < index then .ok []
    else match log.get index with
      | none => .error "missing committed entry"
      | some e =>
        if kMaxCommandBytes < e.command.length then .error "oversized committed entry"
        else if 0 < count ∧
            (kMaxBatchEntries ≤ count ∨ kMaxBatchBytes - bytes < e.command.length) then .ok []
        else do
          let rest ← collectCommands log commit turns (index + 1) (count + 1)
            (bytes + e.command.length)
          return e.command :: rest

/-- `KVStateMachine::ApplyBatch` by the node itself. -/
def applyToStore (first : ℤ) (commands : List Bytes) : RaftM (List Bytes) := do
  let results ← runStore (applyBatch true first commands)
  observe (.applied first commands results)
  return results

/-- The worker of the executor runs the accepted job and posts its completion. -/
def runWorker : RaftM Unit := do
  match (← get).exec.job with
  | none => pure ()
  | some job =>
    crashPoint
    match applyBatch true job.first job.commands (← get).sm with
    | .ok results sm =>
      modify fun c => { c with
        sm
        exec := { job := none
                  completions := c.exec.completions ++
                    [⟨job.first, job.commands.length, .ok results⟩] } }
      observe (.applied job.first job.commands results)
    | .error text sm =>
      modify fun c => { c with
        sm
        exec := { job := none
                  completions := c.exec.completions ++
                    [⟨job.first, job.commands.length, .error text⟩] } }

/-- Hands a batch to the executor. The worker may be done with it at once. -/
def submitApply (first : ℤ) (commands : List Bytes) : RaftM Unit := do
  modifyNode fun n => { n with applyInflight := true }
  if (← get).exec.job.isSome then fail "state machine executor unavailable"
  else
    modify fun c => { c with exec := { c.exec with job := some ⟨first, commands⟩ } }
    let work := (← get).env.works.headD false
    modify fun c => { c with env := { c.env with works := c.env.works.tail } }
    if work then runWorker else pure ()

/-- The loop of `RaftNode::ApplyCommitted`, and what follows it. -/
def applyBatchesLoop : ℕ → RaftM Unit
  | 0 => maybeSnapshot
  | turns + 1 => do
    let n ← getNode
    let log ← getLog
    if n.running ∧ n.lastApplied < n.commitIndex then
      match collectCommands log n.commitIndex (kMaxBatchEntries + 1) (n.lastApplied + 1) 0 0 with
      | .error text => fail text
      | .ok commands =>
        if n.async then submitApply (n.lastApplied + 1) commands
        else
          onFailure (modifyNode fun n => { n with storageHealthy := false }) do
            let results ← applyToStore (n.lastApplied + 1) commands
            finishApply (n.lastApplied + 1) commands.length results
          applyBatchesLoop turns
    else maybeSnapshot

/-- `RaftNode::ApplyCommitted`. -/
def applyCommitted : RaftM Unit := do
  let n ← getNode
  if n.applyInflight then pure ()
  else applyBatchesLoop (n.commitIndex - n.lastApplied).toNat

/-- The completion of a batch, run by the owner. -/
def runCompletion : RaftM Unit := do
  match (← get).exec.completions with
  | [] => pure ()
  | completion :: rest =>
    modify fun c => { c with exec := { c.exec with completions := rest } }
    match completion.results with
    | .error text =>
      modifyNode fun n => { n with storageHealthy := false }
      fail text
    | .ok results =>
      finishApply completion.first completion.count results
      modifyNode fun n => { n with applyInflight := false }
      applyCommitted

/-! ## Commit index -/

/-- The largest index that a majority has matched. -/
def Node.majorityMatch (n : Node) : ℤ :=
  ((n.allPeers.map n.matchIndex).insertionSort (fun a b => b ≤ a)).getD (n.quorumSize - 1) 0

/-- `RaftNode::AdvanceCommitIndex`. -/
def advanceCommitIndex : RaftM Unit := do
  let log ← getLog
  modifyNode fun n =>
    if n.commitIndex < n.majorityMatch ∧ log.getTerm n.majorityMatch = n.currentTerm then
      { n with commitIndex := n.majorityMatch }
    else n
  applyCommitted

/-! ## Proposals -/

/-- The loop of `RaftNode::ProposeBatch` over the sizes of the commands : their sum, or `none`
when one is too large. -/
def admitBytes : ℕ → List Proposal → Option ℕ
  | bytes, [] => some bytes
  | bytes, p :: ps =>
    if kMaxCommandBytes < p.command.length ∨ kMaxPendingBytes - bytes < p.command.length then none
    else admitBytes (bytes + p.command.length) ps

/-- The admission checks of `RaftNode::ProposeBatch` : the bytes of the batch, or the negative
result. -/
def Node.admission (n : Node) (proposals : List Proposal) : Except ℤ ℕ :=
  if ¬n.isLeader then .error (-1)
  else if ¬n.storageHealthy then .error (-3)
  else if proposals.isEmpty ∨ kMaxBatchEntries < proposals.length ∨
      kMaxPending - n.pending.length < proposals.length then .error (-2)
  else match admitBytes 0 proposals with
    | none => .error (-2)
    | some bytes =>
      if kMaxPendingBytes - n.pendingBytes < bytes ∨
          kMaxBatchBytes - 128 - proposals.length * 64 < bytes then .error (-2)
      else .ok bytes

/-- The log entries of a batch of proposals. -/
def proposalEntries (first term : ℤ) (proposals : List Proposal) : List LogEntry :=
  proposals.mapIdx fun i p => ⟨first + i, term, p.command⟩

/-- The rows of a batch of proposals in the pending table, with one clock reading each. -/
def addPending (first : ℤ) : List Proposal → RaftM Unit
  | [] => pure ()
  | p :: ps => do
    let time ← now
    let n ← getNode
    let call ← mark (.proposed first n.currentTerm p.command p.callback.isSome)
    modifyNode fun n => { n with
      pending := n.pending ++
        [(first, ⟨p.callback, p.command.length, time, call, n.currentTerm, p.command⟩)] }
    addPending (first + 1) ps

/-- `RaftNode::ProposeBatch`. -/
def proposeBatch (proposals : List Proposal) : RaftM ℤ := do
  let n ← getNode
  let log ← getLog
  match n.admission proposals with
  | .error code => return code
  | .ok bytes =>
    if int64Max - proposals.length - 1 < log.lastIndex then fail "Raft index exhausted"
    else
      let first := log.lastIndex + 1
      onFailure
        (do
          modifyNode fun n => { n with storageHealthy := false }
          failPending "-ERR storage failure; outcome unknown\r\n")
        (writeLog "append Raft log batch" (AbstractLog.appendBatch (fun _ => true)
          (proposalEntries first n.currentTerm proposals)))
      addPending first proposals
      modifyNode fun n => { n with
        pendingBytes := n.pendingBytes + bytes
        matchIndex := Function.update n.matchIndex n.nodeId (first + proposals.length - 1) }
      broadcastAppendEntries
      advanceCommitIndex
      return first

end RaftKV
