import RaftKV.Refinement.Replica

/-!
# The relation between a cluster and the protocol

A cluster runs the protocol of `Consensus` : there is a state of the protocol, kept as a
ghost beside the cluster, whose nodes have the terms, votes and logical logs of the cluster's
nodes. The relation has four parts. `DiskOK` is about the two databases of a node and holds
at every instant, also in the middle of a method and after a crash. `NodeOK` is about the
process of a node and holds between methods. `MsgOK` says what a message on the network
tells about its sender, and `EventOK` what an event tells; both are facts about history and
stay true.

Some facts hold only in some runs. A `Setting` fixes the members and five conditions on
the run : proposed commands touch user keys only (`clean`), they can be decoded (`readable`; with
`clean`, they are as the server builds them : `served`), replies reach only the incarnation that
asked (`linear`), clocks agree and nobody forgets a leader early (`synced`), and lease reads are
switched on somewhere (`leased`). What depends on a condition is stated under it.
-/

namespace RaftKV

open Consensus (lastTerm Decided IsQuorum)

/-- The state of the protocol. -/
abbrev History := Consensus.State ℤ LogEntry

/-- The members, and conditions on a run. -/
structure Setting extends Membership where
  clean : Prop
  readable : Prop
  linear : Prop
  synced : Prop
  leased : Prop

/-- The state of the protocol, the number of RPC ids each incarnation of a node has given out,
and the terms of all nodes when an id was given out. -/
structure Ghost where
  hist : History
  alloc : ℤ → ℕ → ℕ
  floor : ℤ → ℕ → ℕ → ℤ → ℤ

/-- What all nodes share. -/
structure World where
  ghost : Ghost
  net : List Envelope
  trace : List (ℤ × Event)
  clock : ℤ

abbrev World.hist (W : World) : History := W.ghost.hist

/-- The world of a method. -/
def Context.world (c : Context) (Γ : Ghost) : World :=
  ⟨Γ, c.net, c.trace, c.env.clock⟩

/-- The time a follower that has accepted entries does not help another. -/
def leaseWindow : ℤ := kMinElectionTimeoutMs * ms

namespace Setting

variable (S : Setting)

def members : Finset ℤ := S.peers.toFinset

/-- Proposals are as the server builds them. -/
def served : Prop := S.clean ∧ S.readable

/-- The entries a leader may write at position `i`. -/
def Good (i : ℕ) (e : LogEntry) : Prop :=
  e.index = i + 1 ∧ e.index < int64Max ∧ e.term ≤ int32Max ∧
    e.command.length ≤ kMaxCommandBytes ∧ (S.clean → Clean e.command) ∧
    (S.readable → (decodeCommand e.command).isSome)

/-! ## Databases -/

/-- The data of a snapshot of a log. -/
def SnapData (s : Snapshot) (L : List LogEntry) : Prop :=
  s.data.length ≤ kMaxSnapshotBytes ∧
    (S.clean → 0 < s.index → s.data = snapshotOf (L.take s.index.toNat))

/-- No install is pending. -/
structure Settled (log : AbstractLog) (sm : Store) (L : List LogEntry) : Prop where
  intent : log.intent = none
  rep : LogRep log L
  applied : log.snapshot.index ≤ sm.lastApplied
  data : S.SnapData log.snapshot L

/-- An install of `s` is pending; the logical log is already the one after it. -/
structure Staged (h : History) (v : ℤ) (log : AbstractLog) (sm : Store) (s : Snapshot) :
    Prop where
  intent : log.intent = some s
  index : ∃ k : ℕ, s.index = k ∧ 0 < k ∧ k ≤ (h.log v).length ∧
    s.term = lastTerm ((h.log v).take k) ∧ Decided S.members h (h.term v) ((h.log v).take k)
  data : S.SnapData s (h.log v)
  newer : log.snapshot.index < s.index
  old_term : log.lastTerm ≤ h.term v
  old_last : log.lastIndex < int64Max
  behind : sm.lastApplied ≤ s.index
  install : ∃ b, log.installSnapshot s = .ok b ∧ b.snapshot = s ∧ b.hardState = log.hardState ∧
    b.intent = none ∧ LogRep b (h.log v)

/-- The databases of node `v`. -/
structure DiskOK (h : History) (v : ℤ) (log : AbstractLog) (sm : Store) : Prop where
  hard : log.hardState = some (h.term v, (h.ballot v (h.term v)).getD (-1)) ∨
    log.hardState = none ∧ h.term v = 0
  marked : sm.Marked
  applied : ∃ k : ℕ, sm.lastApplied = k ∧ k ≤ (h.log v).length ∧
    Decided S.members h (h.term v) ((h.log v).take k) ∧
    (S.clean → sm = storeOf ((h.log v).take k))
  body : S.Settled log sm (h.log v) ∨ ∃ s, S.Staged h v log sm s

/-! ## Messages -/

/-- A real vote request tells the log its sender voted for itself with. -/
def VoteOK (h : History) (src : ℤ) (m : RequestVote) : Prop :=
  m.prevote = false → h.ballot src m.term = some src ∧
    m.lastLogIndex = (h.voteLog src m.term).length ∧
    m.lastLogTerm = lastTerm (h.voteLog src m.term)

/-- A granted vote was cast. -/
def VoteReplyOK (h : History) (src dst : ℤ) (m : RequestVoteResponse) : Prop :=
  m.term ≤ h.term src ∧
    (m.voteGranted = true → m.prevote = false → h.ballot src m.term = some dst)

/-- Entries are a piece of the leader's log, and its commit index covers a decided prefix. -/
def EntriesOK (h : History) (src : ℤ) (m : AppendEntries) : Prop :=
  h.leader m.term = some src ∧
    (∃ pre : List LogEntry, pre.length = m.prevLogIndex ∧ lastTerm pre = m.prevLogTerm ∧
      pre ++ m.entries <+: h.leaderLog m.term) ∧
    ∃ p : List LogEntry, p.length = m.leaderCommit ∧ p <+: h.leaderLog m.term ∧
      Decided S.members h m.term p

/-- Node `src` accepted the request `rpcId` of the leader `dst` after it was sent. -/
def Heard (net : List Envelope) (trace : List (ℤ × Event)) (src dst term : ℤ) (rpcId : ℕ) :
    Prop :=
  ∃ time, (src, Event.accepted term time) ∈ trace ∧ ∃ e ∈ net, e.src = dst ∧ e.sentAt ≤ time ∧
    ∃ m, e.message = .appendEntries m ∧ m.term = term ∧ m.rpcId = rpcId

/-- A reply is not older than its request, and a success is an acknowledgement. -/
def EntriesReplyOK (W : World) (src dst : ℤ) (inc : ℕ) (m : AppendEntriesResponse) : Prop :=
  m.term ≤ W.hist.term src ∧ m.rpcId ≤ W.ghost.alloc dst inc ∧
    W.ghost.floor dst inc m.rpcId src ≤ m.term ∧
    (m.success = true → (∃ k : ℕ, m.lastLogIndex = k ∧ k ≤ W.hist.ack src m.term) ∧
      (S.synced → Heard W.net W.trace src dst m.term m.rpcId))

/-- A chunk is a piece of the snapshot of a decided prefix of the leader's log. -/
def ChunkOK (h : History) (src : ℤ) (m : InstallSnapshot) : Prop :=
  h.leader m.term = some src ∧ ∃ P : List LogEntry, P.length = m.lastIncludedIndex ∧
    lastTerm P = m.lastIncludedTerm ∧ P <+: h.leaderLog m.term ∧
    Decided S.members h m.term P ∧
    (S.clean → (snapshotOf P).length ≤ kMaxSnapshotBytes ∧
      m.data <+: (snapshotOf P).drop m.offset.toNat ∧
      (m.done = true → m.offset + m.data.length = (snapshotOf P).length))

/-- A finished install is an acknowledgement of the snapshot that was sent. -/
def ChunkReplyOK (W : World) (src dst : ℤ) (m : InstallSnapshotResponse) : Prop :=
  m.term ≤ W.hist.term src ∧
    (m.complete = true → ∃ e ∈ W.net, e.src = dst ∧ ∃ m', e.message = .installSnapshot m' ∧
      m'.term = m.term ∧ m'.rpcId = m.rpcId ∧
      ∃ k : ℕ, m'.lastIncludedIndex = k ∧ k ≤ W.hist.ack src m.term)

/-- The fields of a request that say nothing of the history. -/
def Signed (src : ℤ) : Message → Prop
  | .requestVote m => m.candidateId = src ∧ 0 < m.term ∧ 0 ≤ m.lastLogIndex ∧
      0 ≤ m.lastLogTerm ∧ m.lastLogTerm ≤ m.term
  | .appendEntries m => m.leaderId = src ∧ m.rpcId ≠ 0
  | .installSnapshot m => m.leaderId = src ∧ m.rpcId ≠ 0 ∧ 0 < m.lastIncludedIndex ∧
      0 ≤ m.offset ∧ m.data.length ≤ kMaxSnapshotBytes
  | _ => True

/-- What a message tells. -/
def MsgOK (W : World) (e : Envelope) : Prop :=
  Signed e.src e.message ∧ match e.message with
  | .requestVote m => VoteOK W.hist e.src m
  | .requestVoteResponse m => VoteReplyOK W.hist e.src e.dst m
  | .appendEntries m =>
    S.EntriesOK W.hist e.src m ∧ m.rpcId ≤ W.ghost.alloc e.src e.incarnation
  | .appendEntriesResponse m => S.EntriesReplyOK W e.src e.dst e.incarnation m
  | .installSnapshot m =>
    S.ChunkOK W.hist e.src m ∧ m.rpcId ≤ W.ghost.alloc e.src e.incarnation
  | .installSnapshotResponse m => ChunkReplyOK W e.src e.dst m

/-! ## Events -/

/-- The conditions under which a read by the lease or by a round is linearizable. -/
def Trusted (lease : Bool) : Prop :=
  if lease then S.synced else S.linear

/-- No proposal that succeeded before the call is after the read index. -/
def ReadSafe (events : List (ℤ × Event)) (call : ℕ) (readIndex : ℤ) : Prop :=
  ∀ j < call, ∀ w origin index command term reply,
    events[j]? = some (w, .proposal origin index command term true reply) → index ≤ readIndex

/-- The texts of the exceptions a process may die of : a counter is exhausted, a snapshot
exceeds the format, a setting is refused, or RocksDB refuses a write to the Raft log. -/
def expected : List String :=
  ["Raft term exhausted", "Raft index exhausted", "Raft RPC sequence exhausted",
    "KV snapshot has too many keys", "KV snapshot entry too large",
    "negative snapshot threshold", "invalid snapshot chunk size",
    "append Raft log batch", "truncate Raft log", "persist Raft hard state",
    "persist Raft snapshot", "stage Raft snapshot install"]

/-- What an event tells. -/
def EventOK (W : World) (j : ℕ) (v : ℤ) : Event → Prop
  | .leader term => W.hist.leader term = some v
  | .proposal _ index command term ok _ => ok = true → W.hist.leader term = some v ∧
      ∃ P e, P.length + 1 = index ∧ Decided S.members W.hist term (P ++ [e]) ∧
        e.term = term ∧ e.command = command
  | .applied first commands _ => ∃ b P Q, P.length + 1 = first ∧
      Q.map LogEntry.command = commands ∧ Decided S.members W.hist b (P ++ Q)
  | .exported _ busy => busy = false
  | .installed _ busy => busy = false
  | .readDone call ok readIndex lastApplied _ => ok = true → call < j ∧ readIndex ≤ lastApplied ∧
      ∃ lease, W.trace[call]? = some (v, .readCalled lease) ∧
        (S.Trusted lease → ReadSafe W.trace call readIndex)
  | .failed text => S.served → text ∈ expected
  | .readCalled lease => lease = true → S.leased
  | .booted | .accepted _ _ | .proposed _ _ _ _ | .roundStarted _ _ _ | .probeCounted _ _ _ _ =>
      True

/-! ## Progress -/

/-- How far the KV database is after an event, if the event is about what comes next. -/
def progress (p : ℤ) : Event → Option ℤ
  | .applied first commands _ => if first = p + 1 then some (p + commands.length) else none
  | .installed index _ => if p ≤ index then some index else none
  | _ => some p

/-- How far the events of node `v` have brought its KV database, if there is no gap and no
repetition in them. -/
def appliedUpTo (v : ℤ) (trace : List (ℤ × Event)) : Option ℤ :=
  (trace.filter fun x => x.1 = v).foldlM (fun p x => progress p x.2) 0

/-! ## Leases -/

/-- The leader of a term has gone on to another. -/
def Moved (h : History) (term : ℤ) : Prop :=
  ∃ c, h.leader term = some c ∧ term < h.term c

/-- A leader of a later term exists. -/
def Succeeded (h : History) (term : ℤ) : Prop :=
  ∃ t, term < t ∧ (h.leader t).isSome

/-- What leases rest on. -/
structure LeaseOK (W : World) : Prop where
  /-- Whoever accepted entries of a leader stays in its term for a while. -/
  promise : ∀ u term time, (u, Event.accepted term time) ∈ W.trace →
    time + leaseWindow ≤ W.clock ∨ Succeeded W.hist term ∨ Moved W.hist term ∨
      W.hist.term u = term
  /-- A leader of a later term had a majority that no longer held a promise. -/
  elected : ∀ term, Succeeded W.hist term → Moved W.hist term ∨ ∃ q, IsQuorum S.members q ∧
    ∀ u ∈ q, term < W.hist.term u ∧
      ∀ time, (u, Event.accepted term time) ∈ W.trace → time + leaseWindow ≤ W.clock
  accepted_le : ∀ u term time, (u, Event.accepted term time) ∈ W.trace → time ≤ W.clock
  sent_le : ∀ e ∈ W.net, e.sentAt ≤ W.clock

/-! ## The shared part -/

/-- The part of the relation that is about all nodes. -/
structure Shared (W : World) : Prop where
  reach : Consensus.Reachable S.members S.Good W.hist
  term_nonneg : ∀ w, 0 ≤ W.hist.term w
  term_le : ∀ w, W.hist.term w ≤ int32Max
  floor_le : ∀ v inc k u, W.ghost.floor v inc k u ≤ W.hist.term u
  msgs : ∀ e ∈ W.net, S.MsgOK W e
  routes : ∀ e ∈ W.net, e.src ∈ S.members ∧ e.dst ∈ S.members ∧ e.src ≠ e.dst
  events : ∀ j v e, W.trace[j]? = some (v, e) → S.EventOK W j v e
  lease : S.synced → S.LeaseOK W

/-! ## Processes -/

/-- The outcome of a batch that the worker has run after the entry `applied`. -/
def Outcome (applied : ℤ) (sm : Store) (count : ℕ) : Except String (List Bytes) → Prop
  | .ok results => results.length = count ∧ sm.lastApplied = applied + count
  | .error _ => ¬S.served ∧ sm.lastApplied = applied

/-- Nothing is handed to the executor. -/
structure Quiet (applied : ℤ) (exec : Executor) (sm : Store) : Prop where
  job : exec.job = none
  completions : exec.completions = []
  applied : sm.lastApplied = applied

/-- A batch of committed entries is with the worker, or its completion with the owner. -/
structure Busy (inflight : Bool) (applied commit : ℤ) (exec : Executor) (sm : Store)
    (L : List LogEntry) : Prop where
  inflight : inflight = true
  batch : ∃ k : ℕ, 0 < k ∧ applied + k ≤ commit ∧
    ((exec.job = some ⟨applied + 1, ((L.drop applied.toNat).take k).map LogEntry.command⟩ ∧
        exec.completions = [] ∧ sm.lastApplied = applied) ∨
      (exec.job = none ∧ ∃ r, exec.completions = [⟨applied + 1, k, r⟩] ∧
        S.Outcome applied sm k r))

/-- Term, vote and progress of a process. -/
structure CoreOK (h : History) (v : ℤ) (n : Node) (log : AbstractLog) (sm : Store)
    (exec : Executor) : Prop where
  id : n.nodeId = v
  peers : n.allPeers = S.peers
  term : n.currentTerm = h.term v
  vote : n.votedFor = (h.ballot v (h.term v)).getD (-1)
  settled : S.Settled log sm (h.log v)
  progress : ∃ a k : ℕ, n.lastApplied = a ∧ n.commitIndex = k ∧ a ≤ k ∧ k ≤ (h.log v).length ∧
    log.snapshot.index ≤ a ∧ Decided S.members h (h.term v) ((h.log v).take k)
  exec : Quiet n.lastApplied exec sm ∨
    S.Busy n.applyInflight n.lastApplied n.commitIndex exec sm (h.log v)
  active : n.role ≠ .follower → n.running = true
  receive : 0 < n.snapshotReceive.index → ∃ P : List LogEntry,
    P.length = n.snapshotReceive.index ∧ lastTerm P = n.snapshotReceive.term ∧
    Decided S.members h (h.term v) P ∧ (S.clean → n.snapshotReceive.data <+: snapshotOf P)
  candidate : n.role = .candidate → h.ballot v (h.term v) = some v ∧
    h.leader (h.term v) ≠ some v ∧
    (h.voteLog v (h.term v) = h.log v ∨ (h.leader (h.term v)).isSome) ∧
    ∀ w ∈ n.votes, w ∈ S.members ∧ h.ballot w (h.term v) = some v
  leader : n.role = .leader → h.leader (h.term v) = some v
  serve : n.role = .leader → n.canServeRead = true →
    ((h.startLog (h.term v)).length : ℤ) < n.commitIndex
  lease : n.leaseReads = true → S.leased

/-- A snapshot in flight is of a decided prefix of the log. -/
def ShippedOK (h : History) (v : ℤ) (f : Inflight) : Prop :=
  f.snapshotOffset ≤ f.snapshotData.length ∧ f.snapshotData.length ≤ kMaxSnapshotBytes ∧
    ∃ P : List LogEntry, 0 < P.length ∧ P.length = f.snapshotIndex ∧
      lastTerm P = f.snapshotTerm ∧ P <+: h.log v ∧ Decided S.members h (h.term v) P ∧
      (S.clean → f.snapshotData = snapshotOf P)

/-- What is in flight to the peer `u` was sent, by a node that has given out `seq` ids. -/
structure FlightOK (h : History) (v : ℤ) (inc : ℕ) (net : List Envelope) (seq : ℕ) (u : ℤ)
    (f : Inflight) : Prop where
  sent : f.id ≠ 0 → f.id ≤ seq ∧ ∃ e ∈ net, e.src = v ∧ e.dst = u ∧ e.incarnation = inc ∧
    f.payload = some e.message ∧
    ((∃ m, e.message = .appendEntries m ∧ m.term = h.term v ∧ m.rpcId = f.id ∧
        f.snapshot = false) ∨
      ∃ m, e.message = .installSnapshot m ∧ m.term = h.term v ∧ m.rpcId = f.id ∧
        m.lastIncludedIndex = f.snapshotIndex)
  snapshot : f.snapshot = true → S.ShippedOK h v f
  lease : S.synced → f.id ≠ 0 → f.type = .kAppendEntries →
    ∀ e ∈ net, e.src = v → ∀ m, e.message = .appendEntries m → m.term = h.term v →
      m.rpcId = f.id → f.leaseSentAt ≤ e.sentAt

/-- The term and the id of a request of a leader. -/
def requestId : Message → Option (ℤ × ℕ)
  | .appendEntries m => some (m.term, m.rpcId)
  | .installSnapshot m => some (m.term, m.rpcId)
  | _ => none

/-- The process of a leader. -/
structure LeadOK (W : World) (v : ℤ) (n : Node) (inc : ℕ) : Prop where
  matched : ∀ u ∈ S.members, ∃ k : ℕ, n.matchIndex u = k ∧ k ≤ W.hist.ack u (W.hist.term v)
  next : ∀ u ∈ S.members, 1 ≤ n.nextIndex u ∧ n.nextIndex u ≤ (W.hist.log v).length + 1
  flights : ∀ u, S.FlightOK W.hist v inc W.net n.rpcSequence u (n.inflight u)
  requests : ∀ e ∈ W.net, e.src = v → ∀ k, requestId e.message = some (W.hist.term v, k) →
    k ≤ n.rpcSequence
  unique : ∀ e ∈ W.net, ∀ e' ∈ W.net, e.src = v → e'.src = v → ∀ k,
    requestId e.message = some (W.hist.term v, k) →
    requestId e'.message = some (W.hist.term v, k) → e.message = e'.message
  acknowledged : ∀ origin index command reply,
    (v, Event.proposal origin index command (W.hist.term v) true reply) ∈ W.trace →
    index ≤ n.commitIndex
  confirmed : S.synced → ∀ u time, n.leaseConfirmed u = some time →
    ∃ heard, (u, Event.accepted (W.hist.term v) heard) ∈ W.trace ∧ time ≤ heard

/-- The entry of a pending proposal. -/
def RowOK (h : History) (v : ℤ) (item : ℤ × Pending) : Prop :=
  ∃ i : ℕ, ∃ e, item.1 = i + 1 ∧ (h.log v)[i]? = some e ∧ e.term = h.term v ∧
    e.term = item.2.term ∧ e.command = item.2.command

/-- The proposals of a leader that wait for their outcome. -/
def PendingOK (h : History) (v : ℤ) (n : Node) : Prop :=
  ∀ item ∈ n.pending, RowOK h v item

/-- A read that waits for a round. Whatever succeeded before it is covered by its index, or
was decided in a later term that a majority had entered when the terms were at least `floor`. -/
def RequestOK (W : World) (v : ℤ) (floor : ℤ → ℤ) (q : ReadIndexRequest) : Prop :=
  W.trace[q.callback.call]? = some (v, .readCalled false) ∧
    (S.linear → ∀ j < q.callback.call, ∀ w origin index command term reply,
      W.trace[j]? = some (w, .proposal origin index command term true reply) →
      index ≤ q.readIndex ∨ W.hist.term v < term ∧
        ∃ quorum, IsQuorum S.members quorum ∧ ∀ u ∈ quorum, term ≤ floor u)

/-- A read that only waits for the state machine. -/
def WaitingOK (W : World) (v : ℤ) (q : ReadIndexRequest) : Prop :=
  ∃ lease, W.trace[q.callback.call]? = some (v, .readCalled lease) ∧
    (S.Trusted lease → ReadSafe W.trace q.callback.call q.readIndex)

/-- A round : its probes were given out, and its acknowledgements were made, after its reads
were requested. -/
def RoundOK (W : World) (v : ℤ) (inc : ℕ) (r : HeartbeatRound) : Prop :=
  ∃ floor : ℤ → ℤ, (∀ u, floor u ≤ W.hist.term u) ∧
    (∀ q ∈ r.requests, S.RequestOK W v floor q) ∧ r.acks ⊆ S.members ∧
    (S.linear → ∀ u ∈ r.acks, floor u ≤ W.hist.term v) ∧
    ∀ u k, r.probeRpcIds u = some k →
      k ≤ W.ghost.alloc v inc ∧ floor u ≤ W.ghost.floor v inc k u

/-- The reads of a leader. -/
structure ReadsOK (W : World) (v : ℤ) (n : Node) (inc : ℕ) : Prop where
  rounds : ∀ r ∈ n.heartbeatRounds, S.RoundOK W v inc r
  unsent : ∀ q ∈ n.unsentReads, S.RequestOK W v W.hist.term q
  pending : ∀ q ∈ n.pendingReads, S.WaitingOK W v q

/-- A process that has accepted entries keeps to its leader for a while. -/
def PromiseOK (W : World) (v : ℤ) (n : Node) : Prop :=
  ∀ term time, (v, Event.accepted term time) ∈ W.trace →
    time + leaseWindow ≤ W.clock ∨ Succeeded W.hist term ∨ Moved W.hist term ∨
      (n.role = .follower ∧ n.currentTerm = term ∧ n.leaderId ≠ -1 ∧
        W.hist.leader term = some n.leaderId ∧ time + leaseWindow ≤ n.electionDeadline)

/-- The process of node `v`, apart from the queues of a node that is not leader. -/
structure LooseOK (W : World) (v : ℤ) (n : Node) (log : AbstractLog) (sm : Store)
    (exec : Executor) (inc : ℕ) : Prop where
  core : S.CoreOK W.hist v n log sm exec
  rpc : n.rpcSequence = W.ghost.alloc v inc
  lead : n.role = .leader → S.LeadOK W v n inc
  proposals : n.role = .leader → PendingOK W.hist v n
  reads : n.role = .leader → S.ReadsOK W v n inc
  promise : S.synced → n.running = true → PromiseOK W v n

/-- A node that is not leader has no waiting proposals and reads. -/
structure Idle (n : Node) : Prop where
  pending : n.pending = []
  rounds : n.heartbeatRounds = []
  unsent : n.unsentReads = []
  reads : n.pendingReads = []

end Setting

end RaftKV
