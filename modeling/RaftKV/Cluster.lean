import RaftKV.Node.Handlers

/-!
# Clusters

A fixed membership of nodes, each with its two databases, over a network that loses,
duplicates, delays and reorders messages : every message ever sent stays on the network, and
any of them may be handed to its receiver at any time. A step runs one public method of one
node, or one batch of its apply worker, or starts a process on its databases, or crashes it.
Methods also crash in the middle, as their environment says. An exception that leaves a
method ends the process, as the server's `main` does, and is recorded in the trace.

`run` is the state after a list of steps; a step that is not possible changes nothing, so
every reachable state is `run` of some list.
-/

namespace RaftKV

/-- The ids of the members. -/
structure Membership where
  peers : List ℤ
  nodup : peers.Nodup
  nonneg : ∀ p ∈ peers, 0 ≤ p

/-- A node alone. -/
def solo : Membership := ⟨[1], by decide, by decide⟩

/-- Three nodes. -/
def trio : Membership := ⟨[1, 2, 3], by decide, by decide⟩

/-- The databases of a node. -/
structure Disk where
  log : AbstractLog := {}
  sm : Store := ⟨∅, 0⟩

/-- What a running process has in memory. -/
structure Process where
  node : Node
  exec : Executor := {}

/-- The state of all nodes, the network, and what was observed. -/
structure Cluster where
  disk : ℤ → Disk := fun _ => {}
  up : ℤ → Option Process := fun _ => none
  incarnation : ℤ → ℕ := fun _ => 0
  net : List Envelope := []
  trace : List (ℤ × Event) := []

/-- What a running process is asked to do. -/
inductive Input where
  | deliver (e : Envelope)
  | tick
  | start
  | stop
  | propose (proposals : List Proposal)
  | readIndex (onOk onFail : Script)
  | work
  | completion
  | setSnapshotThreshold (entries : ℤ)
  | setSnapshotChunkBytes (bytes : ℕ)
  | setLeaseReads (enabled : Bool)

/-- One step of a cluster. -/
inductive Action where
  | call (v : ℤ) (input : Input) (env : Env)
  | restart (v : ℤ) (async : Bool) (env : Env)
  | crash (v : ℤ)

/-- `OnRaftMessage`. -/
def handleMessage (peer : ℤ) : Message → RaftM Unit
  | .requestVote m => handleRequestVote peer m
  | .requestVoteResponse m => handleRequestVoteResponse peer m
  | .appendEntries m => handleAppendEntries peer m
  | .appendEntriesResponse m => handleAppendEntriesResponse peer m
  | .installSnapshot m => handleInstallSnapshot peer m
  | .installSnapshotResponse m => handleInstallSnapshotResponse peer m

namespace Input

/-- The method an input calls. -/
def run : Input → RaftM Unit
  | deliver e => handleMessage e.src e.message
  | tick => RaftKV.tick
  | start => RaftKV.start
  | stop => RaftKV.stop
  | propose proposals => do
    let _ ← proposeBatch proposals
    pure ()
  | readIndex onOk onFail => do
    let _ ← requestReadIndex onOk onFail
    pure ()
  | work => runWorker
  | completion => runCompletion
  | setSnapshotThreshold entries => RaftKV.setSnapshotThreshold entries
  | setSnapshotChunkBytes bytes => RaftKV.setSnapshotChunkBytes bytes
  | setLeaseReads enabled => RaftKV.setLeaseReads enabled

/-- The incarnation a reply goes to. -/
def replyTo : Input → ℕ
  | deliver e => e.incarnation
  | _ => 0

/-- Only messages on the network are delivered, each to the node it was sent to. -/
def Enabled (s : Cluster) (v : ℤ) : Input → Prop
  | deliver e => e ∈ s.net ∧ e.dst = v
  | _ => True

instance (s : Cluster) (v : ℤ) (input : Input) : Decidable (input.Enabled s v) :=
  match input with
  | deliver _ => inferInstanceAs (Decidable (_ ∧ _))
  | tick | start | stop | propose _ | readIndex _ _ | work | completion
  | setSnapshotThreshold _ | setSnapshotChunkBytes _ | setLeaseReads _ =>
    inferInstanceAs (Decidable True)

end Input

namespace Cluster

/-- The context of a process of node `v`. -/
def context (s : Cluster) (v : ℤ) (p : Process) (replyTo : ℕ) (env : Env) : Context where
  node := p.node
  log := (s.disk v).log
  sm := (s.disk v).sm
  exec := p.exec
  net := s.net
  trace := s.trace
  incarnation := s.incarnation v
  replyTo := replyTo
  env := env

/-- The databases, the network and the trace as a method leaves them. -/
def store (s : Cluster) (v : ℤ) (c : Context) : Cluster :=
  { s with
    disk := Function.update s.disk v ⟨c.log, c.sm⟩
    net := c.net
    trace := c.trace }

/-- Node `v` has the process `p`. -/
def setUp (s : Cluster) (v : ℤ) (p : Option Process) : Cluster :=
  { s with up := Function.update s.up v p }

/-- The end of a method. -/
def finish (s : Cluster) (v : ℤ) : EStateM.Result Halt Context Unit → Cluster
  | .ok _ c => (s.store v c).setUp v (some ⟨c.node, c.exec⟩)
  | .error .crash c => (s.store v c).setUp v none
  | .error (.failure text) c =>
    (s.store v { c with trace := c.trace ++ [(v, .failed text)] }).setUp v none

end Cluster

variable (M : Membership)

/-- A node whose process starts. -/
def Membership.boot (v : ℤ) (async : Bool) : Node :=
  { nodeId := v, allPeers := M.peers, async }

/-- One step. -/
def step (s : Cluster) : Action → Cluster
  | .call v input env =>
    match s.up v with
    | none => s
    | some p =>
      if input.Enabled s v then
        s.finish v (input.run (s.context v p input.replyTo env))
      else s
  | .restart v async env =>
    if v ∈ M.peers ∧ (s.up v).isNone then
      let s := { s with incarnation := Function.update s.incarnation v (s.incarnation v + 1) }
      s.finish v (construct (s.context v ⟨M.boot v async, {}⟩ 0 env))
    else s
  | .crash v => s.setUp v none

/-- The state after some steps. -/
def run (actions : List Action) : Cluster :=
  actions.foldl (step M) {}

end RaftKV
