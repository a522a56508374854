import RaftKV.Cluster
import RaftKV.GhostWp

/-!
# What sends, reads and callbacks leave alone

A node by itself, whatever its peers send. The `Core` of a context is what decides about terms,
votes, the log and the state machine, with the replies on the network. Most of a node's code
is about requests to peers and about reads; it leaves the core alone (`Still`), whether it
returns or throws. The only assumption is that what is in flight to a peer is a request, since
that is sent again.
-/

namespace RaftKV.Local

open RaftM

variable {α β : Type}

/-! ## The core -/

/-- A message of one of the three types of replies. -/
def isReply : Message → Bool
  | .requestVote _ | .appendEntries _ | .installSnapshot _ => false
  | .requestVoteResponse _ | .appendEntriesResponse _ | .installSnapshotResponse _ => true

/-- The replies on the network, with their receivers. -/
def repliesOn (net : List Envelope) : List (ℤ × Message) :=
  (net.filter fun e => isReply e.message).map fun e => (e.dst, e.message)

/-- The part of a context that decides about terms, votes, the log and the state machine. -/
structure Core where
  log : AbstractLog
  sm : Store
  exec : Executor
  nodeId : ℤ
  allPeers : List ℤ
  async : Bool
  applyInflight : Bool
  currentTerm : ℤ
  votedFor : ℤ
  role : Role
  running : Bool
  commitIndex : ℤ
  lastApplied : ℤ
  leaderId : ℤ
  votes : Finset ℤ
  snapshotReceive : SnapshotReceive
  snapshotThreshold : ℤ
  lastSnapshotAttempt : ℤ
  electionDeadline : ℤ
  replies : List (ℤ × Message)

def core (c : Context) : Core where
  log := c.log
  sm := c.sm
  exec := c.exec
  nodeId := c.node.nodeId
  allPeers := c.node.allPeers
  async := c.node.async
  applyInflight := c.node.applyInflight
  currentTerm := c.node.currentTerm
  votedFor := c.node.votedFor
  role := c.node.role
  running := c.node.running
  commitIndex := c.node.commitIndex
  lastApplied := c.node.lastApplied
  leaderId := c.node.leaderId
  votes := c.node.votes
  snapshotReceive := c.node.snapshotReceive
  snapshotThreshold := c.node.snapshotThreshold
  lastSnapshotAttempt := c.node.lastSnapshotAttempt
  electionDeadline := c.node.electionDeadline
  replies := repliesOn c.net

/-- What is in flight to a peer is a request. -/
def Requests (n : Node) : Prop :=
  ∀ u m, (n.inflight u).payload = some m → isReply m = false

/-- A request may be put in flight to a peer. -/
theorem Requests.setInflight {n : Node} (hr : Requests n) (peer : ℤ) {f : Inflight}
    (hf : ∀ m, f.payload = some m → isReply m = false) : Requests (n.setInflight peer f) := by
  intro u m hm
  change (Function.update n.inflight peer f u).payload = some m at hm
  by_cases hu : u = peer
  · rw [hu, Function.update_self] at hm
    exact hf m hm
  · rw [Function.update_of_ne hu] at hm
    exact hr u m hm

/-- The time that a method reads first. -/
def reading (env : Env) : ℤ :=
  env.clock + env.delays.headD 0

/-- The earliest that an election timer ends that is set at a time. -/
def earliest (time : ℤ) : ℤ :=
  time + kMinElectionTimeoutMs * ms

/-- Time has not gone back, and no answer of `PeerManager::Send` is new. -/
structure Later (e e' : Env) : Prop where
  time : reading e ≤ reading e'
  sends : e'.sends <:+ e.sends

theorem Later.refl (e : Env) : Later e e :=
  ⟨le_rfl, List.suffix_rfl⟩

theorem Later.trans {e e' e'' : Env} (h : Later e e') (h' : Later e' e'') : Later e e'' :=
  ⟨h.time.trans h'.time, h'.sends.trans h.sends⟩

/-- Reading the clock takes a delay. -/
theorem Later.now (e : Env) :
    Later e { e with clock := e.clock + e.delays.headD 0, delays := e.delays.tail } :=
  ⟨le_add_of_nonneg_right (by positivity), List.suffix_rfl⟩

/-- The core is as before. -/
structure Unmoved (c c' : Context) : Prop where
  core : core c' = core c
  later : Later c.env c'.env

theorem Unmoved.refl (c : Context) : Unmoved c c :=
  ⟨rfl, .refl _⟩

theorem Unmoved.trans {c c' c'' : Context} (h : Unmoved c c') (h' : Unmoved c' c'') :
    Unmoved c c'' :=
  ⟨h'.core.trans h.core, h.later.trans h'.later⟩

/-- A part of a method that leaves the core alone. -/
def Still (m : RaftM α) : Prop :=
  ∀ c, Requests c.node → wp m (fun _ c' => Requests c'.node ∧ Unmoved c c')
    (fun _ c' => Requests c'.node ∧ Unmoved c c') c

namespace Still

/-! ## Rules -/

theorem pure (a : α) : Still (Pure.pure a : RaftM α) :=
  fun c hr => ⟨hr, .refl c⟩

theorem bind {m : RaftM β} {k : β → RaftM α} (hm : Still m) (hk : ∀ b, Still (k b)) :
    Still (m >>= k) := by
  intro c hr
  rw [wp_bind]
  refine wp_mono (hm c hr) (fun b c₁ ⟨hr₁, hc₁⟩ => ?_) fun _ _ h => h
  exact wp_mono (hk b c₁ hr₁) (fun _ _ ⟨hr₂, hc₂⟩ => ⟨hr₂, hc₁.trans hc₂⟩)
    fun _ _ ⟨hr₂, hc₂⟩ => ⟨hr₂, hc₁.trans hc₂⟩

theorem ite {p : Prop} [Decidable p] {m m' : RaftM α} (hm : Still m) (hm' : Still m') :
    Still (if p then m else m') := by
  split_ifs
  · exact hm
  · exact hm'

theorem forM {γ : Type} {l : List γ} {f : γ → RaftM PUnit} (hf : ∀ x, Still (f x)) :
    Still (l.forM f) := by
  induction l with
  | nil => exact pure ()
  | cons x l ih => exact (hf x).bind fun _ => ih

theorem getNode {k : Node → RaftM α} (hk : ∀ n, Still (k n)) : Still (RaftM.getNode >>= k) :=
  fun c hr => hk c.node c hr

theorem getLog {k : AbstractLog → RaftM α} (hk : ∀ log, Still (k log)) :
    Still (RaftM.getLog >>= k) :=
  fun c hr => hk c.log c hr

theorem get {k : Context → RaftM α} (hk : ∀ c, Still (k c)) : Still (MonadState.get >>= k) :=
  fun c hr => by
    rw [wp_bind, wp_get]
    exact hk c c hr

theorem fail (text : String) : Still (RaftM.fail text : RaftM α) :=
  fun c hr => ⟨hr, .refl c⟩

/-- A change of the node that the core does not show. -/
theorem modifyNode {f : Node → Node} (hf : ∀ n, Requests n → Requests (f n))
    (hc : ∀ c : Context, core { c with node := f c.node } = core c) :
    Still (RaftM.modifyNode f) :=
  fun c hr => ⟨hf c.node hr, hc c, .refl _⟩

/-- A change of fields outside the core, with the requests in flight as they are. -/
theorem modifyNode_same {f : Node → Node} (hf : ∀ n, (f n).inflight = n.inflight)
    (hc : ∀ c : Context, core { c with node := f c.node } = core c) :
    Still (RaftM.modifyNode f) :=
  modifyNode (fun n hr u m hm => hr u m (by rwa [hf n] at hm)) hc

/-- The same, with what follows. -/
theorem touch {f : Node → Node} {k : Unit → RaftM α} (hf : ∀ n, (f n).inflight = n.inflight)
    (hc : ∀ c : Context, core { c with node := f c.node } = core c) (hk : Still (k ())) :
    Still (RaftM.modifyNode f >>= k) :=
  bind (modifyNode_same hf hc) fun _ => hk

theorem now : Still RaftM.now :=
  fun c hr => ⟨hr, rfl, .now c.env⟩

/-- A crash leaves the core as it was. -/
theorem crashPoint : Still RaftM.crashPoint := by
  refine get fun c => ?_
  rcases c.env.crashAfter with _ | _ | n
  · exact pure ()
  · exact fun _ hr => ⟨hr, rfl, .refl _⟩
  · exact fun _ hr => ⟨hr, rfl, ⟨le_rfl, List.suffix_rfl⟩⟩

theorem observe (e : Event) : Still (RaftM.observe e) :=
  fun _ hr => ⟨hr, rfl, .refl _⟩

theorem mark (e : Event) : Still (RaftM.mark e) :=
  get fun _ => (observe e).bind fun _ => pure _

/-- A request is not a reply. -/
theorem sendFrom (incarnation : ℕ) (peer : ℤ) {message : Message} (hm : isReply message = false) :
    Still (RaftM.sendFrom incarnation peer message) := by
  refine crashPoint.bind fun _ c hr => ⟨hr, ?_, ⟨le_rfl, List.tail_suffix _⟩⟩
  cases c.env.sends.headD true with
  | false => rfl
  | true => simp [core, repliesOn, hm]

/-- A message that is no reply is not seen by the core. -/
theorem send (peer : ℤ) {message : Message} (hm : isReply message = false) :
    Still (RaftM.send peer message) :=
  get fun c => sendFrom c.incarnation peer hm

theorem broadcast {message : Message} (hm : isReply message = false) :
    Still (RaftM.broadcast message) :=
  getNode fun _ => forM fun peer => (send peer hm).bind fun _ => pure ()

/-! ## Requests to peers -/

theorem setInflight (peer : ℤ) {f : Inflight} (hf : ∀ m, f.payload = some m → isReply m = false) :
    Still (RaftM.modifyNode fun n => n.setInflight peer f) :=
  modifyNode (fun _ hr => hr.setInflight peer hf) fun _ => rfl

theorem bindReadIndexProbe (peer : ℤ) (rpcId : ℕ) : Still (bindReadIndexProbe peer rpcId) :=
  modifyNode_same (fun _ => rfl) fun _ => rfl

/-- The sequence of RPC ids may end here, by an exception. -/
theorem nextRpcId : Still nextRpcId :=
  getNode fun _ => ite (fail _)
    (touch (fun _ => rfl) (fun _ => rfl) <| pure _)

/-- A chunk is a request, also while it is in flight. -/
theorem sendSnapshotChunk (peer : ℤ) : Still (sendSnapshotChunk peer) := by
  refine getNode fun n => ite (fail _) (nextRpcId.bind fun id => ?_)
  refine (setInflight peer fun m hm => ?_).bind fun _ => (send peer rfl).bind fun sent =>
    ite (pure ()) (setInflight peer fun m hm => ?_) <;>
  · obtain rfl := Option.some.inj hm
    rfl

/-- So are new entries. -/
theorem sendNewEntries (peer : ℤ) : Still (sendNewEntries peer) := by
  refine getNode fun n => getLog fun log => nextRpcId.bind fun id => ?_
  rcases collectEntries log (kMaxBatchEntries + 1) (n.nextIndex peer) 0 128 with text | entries
  · exact fail text
  refine now.bind fun leaseSentAt => (send peer rfl).bind fun sent => ite ?_ (pure ())
  refine Still.bind (modifyNode (fun n hr => hr.setInflight peer fun m hm => ?_) fun _ => rfl)
    fun _ => bindReadIndexProbe peer id
  obtain rfl := Option.some.inj hm
  rfl

/-- What is sent again is what was in flight. -/
theorem retryInflight (peer : ℤ) {flight : Inflight}
    (hf : ∀ m, flight.payload = some m → isReply m = false) :
    Still (retryInflight peer flight) := by
  refine ite ?_ (pure ())
  rcases hp : flight.payload with _ | message
  · exact pure ()
  · refine (send peer (hf message hp)).bind fun _ => ite (setInflight peer fun m hm => ?_) (pure ())
    exact hf m (hp.trans hm)

/-- A peer is sent a chunk, what was in flight, or new entries. -/
theorem sendAppendEntries (peer : ℤ) : Still (sendAppendEntries peer) := by
  intro c hr
  have hsnapshot : Still (do
      RaftM.modifyNode fun n => n.setInflight peer
        { c.node.inflight peer with
          snapshot := true
          snapshotData := c.log.snapshot.data
          snapshotIndex := c.log.snapshot.index
          snapshotTerm := c.log.snapshot.term
          snapshotOffset := 0 }
      RaftKV.sendSnapshotChunk peer) :=
    Still.bind (setInflight peer (hr peer ·)) fun _ => sendSnapshotChunk peer
  exact (ite (retryInflight peer (hr peer)) (ite hsnapshot (sendNewEntries peer))) c hr

theorem broadcastAppendEntries : Still broadcastAppendEntries :=
  getNode fun _ => forM fun peer => sendAppendEntries peer

theorem sendIfBehind (peer : ℤ) : Still (sendIfBehind peer) :=
  getNode fun _ => getLog fun _ => ite (sendAppendEntries peer) (pure ())

theorem broadcastIfCommitted (before : ℤ) : Still (broadcastIfCommitted before) :=
  getNode fun _ => ite broadcastAppendEntries (pure ())

/-! ## Calls of `RequestReadIndex` -/

theorem readLeaseValid : Still readLeaseValid :=
  getNode fun _ => ite (pure _) (now.bind fun _ => ite (pure _) (ite (pure _) (pure _)))

/-- The callback of a read is its script. -/
theorem invokeRead (call : ℕ) (ok : Bool) (readIndex : ℤ) (error : String) {next : RaftM Unit}
    (hn : Still next) : Still (invokeRead call ok readIndex error next) :=
  crashPoint.bind fun _ => getNode fun _ => (observe _).bind fun _ => hn

theorem rejectRead (error : String) {next : RaftM Unit} (hn : Still next) :
    Still (rejectRead error next) :=
  (mark _).bind fun _ => (invokeRead _ _ _ _ hn).bind fun _ => pure _

/-- A read under the lease waits or is served. -/
theorem leaseRead {processPending runOk : RaftM Unit} (hp : Still processPending)
    (hok : Still runOk) (onOk onFail : Script) :
    Still (leaseRead processPending runOk onOk onFail) := by
  refine (mark _).bind fun call => getNode fun n => now.bind fun createdAt => ite ?_ ?_
  · exact touch (fun _ => rfl) (fun _ => rfl) <| pure _
  · exact touch (fun _ => rfl) (fun _ => rfl) <|
      (invokeRead _ _ _ _ hok).bind fun _ =>
        touch (fun _ => rfl) (fun _ => rfl) <| hp.bind fun _ => pure _

/-- A read that needs a round joins the queue. -/
theorem roundRead {finishRounds : RaftM Unit} (hf : Still finishRounds) (onOk onFail : Script) :
    Still (roundRead finishRounds onOk onFail) :=
  (mark _).bind fun _ => getNode fun _ => now.bind fun _ =>
    touch (fun _ => rfl) (fun _ => rfl) <|
      ite (pure _) (hf.bind fun _ => pure _)

section Scripts

variable {processPending finishRounds : RaftM Unit}

theorem requestReadIndexWith (hp : Still processPending) (hf : Still finishRounds)
    {runOk runFail : RaftM Unit} (hok : Still runOk) (hfail : Still runFail)
    (onOk onFail : Script) :
    Still (requestReadIndexWith processPending finishRounds runOk runFail onOk onFail) :=
  getNode fun _ => ite (rejectRead _ hfail) (ite (rejectRead _ hfail) (ite (rejectRead _ hfail)
    (readLeaseValid.bind fun _ => ite (leaseRead hp hok onOk onFail) (roundRead hf onOk onFail))))

/-- By induction on the script, since a callback may read again. -/
theorem runScriptWith (hp : Still processPending) (hf : Still finishRounds) :
    ∀ script, Still (runScriptWith processPending finishRounds script)
  | .done => pure ()
  | .read onOk onFail rest =>
    (requestReadIndexWith hp hf (runScriptWith hp hf onOk) (runScriptWith hp hf onFail) onOk
      onFail).bind fun _ => runScriptWith hp hf rest

end Scripts

theorem invokeQueued (request : ReadIndexRequest) (ok : Bool) (readIndex : ℤ) (error : String) :
    Still (invokeQueued request ok readIndex error) :=
  invokeRead _ _ _ _ (runScriptWith (pure ()) (pure ()) _)

/-! ## Rounds -/

theorem processConfirmedRound (requests : List ReadIndexRequest) :
    Still (processConfirmedRound requests) := by
  refine getNode fun n => touch (fun _ => rfl) (fun _ => rfl) <|
    Still.bind (forM fun request => ?_) fun _ => modifyNode_same (fun _ => rfl) fun _ => rfl
  exact getNode fun _ => ite (invokeQueued _ _ _ _) (modifyNode_same (fun _ => rfl) fun _ => rfl)

/-- By induction on the number of rounds it may start. -/
theorem startReadRounds : ∀ turns, Still (startReadRounds turns)
  | 0 => pure ()
  | turns + 1 => by
    refine getNode fun n => ite (pure ()) (now.bind fun sentAt => (mark _).bind fun start => ?_)
    refine touch (fun _ => rfl) (fun _ => rfl) <| ite (pure ()) ?_
    exact touch (fun _ => rfl) (fun _ => rfl) <|
      (processConfirmedRound _).bind fun _ =>
        touch (fun _ => rfl) (fun _ => rfl) <| startReadRounds turns

theorem maybeSendReadProbes : Still maybeSendReadProbes := by
  refine getNode fun n => ?_
  rcases n.heartbeatRounds with _ | ⟨round, rounds⟩
  · exact pure ()
  · exact ite (pure ()) (forM fun peer => getNode fun _ => ite (pure ()) (sendAppendEntries peer))

theorem finishReadIndexRounds : Still finishReadIndexRounds :=
  touch (fun _ => rfl) (fun _ => rfl) <|
    (getNode fun _ => startReadRounds _).bind fun _ => maybeSendReadProbes

/-- By induction on the reads that wait. -/
theorem servePendingReads : ∀ turns, Still (servePendingReads turns)
  | 0 => pure ()
  | turns + 1 => by
    refine getNode fun n => ?_
    rcases n.pendingReads with _ | ⟨request, rest⟩
    · exact pure ()
    · exact ite (touch (fun _ => rfl) (fun _ => rfl) <|
        (invokeQueued _ _ _ _).bind fun _ => servePendingReads turns) (pure ())

theorem processPendingReads : Still processPendingReads :=
  getNode fun _ => touch (fun _ => rfl) (fun _ => rfl) <|
    (servePendingReads _).bind fun _ => touch (fun _ => rfl) (fun _ => rfl) <|
      ite (pure ()) finishReadIndexRounds

theorem runScript (script : Script) : Still (runScript script) :=
  runScriptWith processPendingReads finishReadIndexRounds script

/-- `RequestReadIndex` leaves the core alone, whatever its callbacks do. -/
theorem requestReadIndex (onOk onFail : Script) : Still (requestReadIndex onOk onFail) :=
  requestReadIndexWith processPendingReads finishReadIndexRounds (runScript onOk)
    (runScript onFail) onOk onFail

/-- An answered probe may confirm a round. -/
theorem ackReadIndexProbe (peer : ℤ) (rpcId : ℕ) : Still (ackReadIndexProbe peer rpcId) := by
  refine now.bind fun time => getNode fun n => ?_
  generalize (n.heartbeatRounds.findIdx? fun round => round.awaits peer rpcId) = position
  rcases position with _ | i
  · exact pure ()
  dsimp only
  rcases n.heartbeatRounds[i]? with _ | round
  · exact pure ()
  refine ite (pure ()) ((observe _).bind fun _ =>
    touch (fun _ => rfl) (fun _ => rfl) <| ite ?_ (pure ()))
  exact touch (fun _ => rfl) (fun _ => rfl) <| processConfirmedRound _

/-- By induction on the rounds that are too old. -/
theorem expireRounds (time : ℤ) : ∀ turns, Still (expireRounds time turns)
  | 0 => pure ()
  | turns + 1 => by
    refine getNode fun n => ?_
    rcases n.heartbeatRounds with _ | ⟨round, rounds⟩
    · exact pure ()
    · exact ite (pure ()) ((forM fun request => invokeQueued _ _ _ _).bind fun _ =>
        touch (fun _ => rfl) (fun _ => rfl) <| expireRounds time turns)

/-- A queue whose requests fail from the front. -/
theorem expireQueue (time : ℤ) (queue : Node → List ReadIndexRequest) {pop : Node → Node}
    (reason : String) (hf : ∀ n, (pop n).inflight = n.inflight)
    (hc : ∀ c : Context, core { c with node := pop c.node } = core c) :
    ∀ turns, Still (expireQueue time queue pop reason turns)
  | 0 => pure ()
  | turns + 1 => by
    refine getNode fun n => ?_
    rcases queue n with _ | ⟨request, rest⟩
    · exact pure ()
    · exact ite (pure ()) ((invokeQueued _ _ _ _).bind fun _ => touch hf hc <|
        expireQueue time queue reason hf hc turns)

theorem checkReadIndexTimeout : Still checkReadIndexTimeout := by
  refine now.bind fun _ => getNode fun _ => touch (fun _ => rfl) (fun _ => rfl) <|
    (expireRounds _ _).bind fun _ => getNode fun _ => Still.bind ?_ fun _ => getNode fun _ =>
      Still.bind ?_ fun _ => modifyNode_same (fun _ => rfl) fun _ => rfl
  · refine expireQueue _ _ _ ?_ ?_ _ <;> exact fun _ => rfl
  · refine expireQueue _ _ _ ?_ ?_ _ <;> exact fun _ => rfl

/-- All reads fail. -/
theorem clearReadIndexQueues (reason : String) : Still (clearReadIndexQueues reason) := by
  refine getNode fun n => touch (fun _ => rfl) (fun _ => rfl) <|
    Still.bind (forM fun request => invokeQueued _ _ _ _) fun _ =>
      touch (fun _ => rfl) (fun _ => rfl) <| getNode fun _ => ?_
  refine Still.bind (forM fun request => invokeQueued _ _ _ _) fun _ =>
    touch (fun _ => rfl) (fun _ => rfl) <| getNode fun _ => ?_
  exact Still.bind (forM fun request => invokeQueued _ _ _ _) fun _ =>
    touch (fun _ => rfl) (fun _ => rfl) <| modifyNode_same (fun _ => rfl) fun _ => rfl

/-! ## Proposals, peers and the timer of a leader -/

/-- The callback of a proposal is its script. -/
theorem invokeProposal (item : ℤ × Pending) (ok : Bool) (reply : Bytes) :
    Still (invokeProposal item ok reply) := by
  rw [RaftKV.invokeProposal]
  rcases item.2.callback with _ | callback
  · exact pure ()
  · exact crashPoint.bind fun _ => (observe _).bind fun _ => runScript _

/-- All proposals that wait fail. -/
theorem failPending (result : String) : Still (failPending result) :=
  getNode fun _ => touch (fun _ => rfl) (fun _ => rfl) <|
    forM fun item => invokeProposal item _ _

theorem expireUncommittedProposals : Still expireUncommittedProposals :=
  now.bind fun _ => getNode fun _ => touch (fun _ => rfl) (fun _ => rfl) <|
    forM fun item => invokeProposal item _ _

theorem takePending (first : ℤ) (count : ℕ) : Still (takePending first count) :=
  getNode fun _ => touch (fun _ => rfl) (fun _ => rfl) <| pure _

/-- By induction on the proposals that were admitted. -/
theorem addPending : ∀ (proposals : List Proposal) (first : ℤ), Still (addPending first proposals)
  | [], _ => pure ()
  | _ :: ps, first => now.bind fun _ => getNode fun _ => (mark _).bind fun _ =>
    touch (fun _ => rfl) (fun _ => rfl) <| addPending ps (first + 1)

/-- A leader whose first entry is applied may serve reads. -/
theorem enableReads : Still enableReads := by
  refine getLog fun log => modifyNode_same (fun n => ?_) fun c => ?_
  · split_ifs <;> rfl
  · split_ifs <;> rfl

theorem notePeerContact (peer : ℤ) : Still (notePeerContact peer) :=
  now.bind fun _ => modifyNode_same (fun _ => rfl) fun _ => rfl

theorem countProbe (peer : ℤ) (response : AppendEntriesResponse) :
    Still (countProbe peer response) :=
  getNode fun _ => ite (ackReadIndexProbe peer _) (pure ())

/-- The timer of a leader sends requests and probes. -/
theorem tickSend : Still tickSend := by
  refine Still.bind (modifyNode (fun n hr u m hm => hr u m ?_) fun _ => rfl) fun _ =>
    getNode fun n => ite ?_ ?_
  · dsimp only at hm
    split_ifs at hm <;> exact hm
  · exact broadcastAppendEntries.bind fun _ => modifyNode_same (fun _ => rfl) fun _ => rfl
  · exact forM fun peer => getNode fun _ => ite (sendAppendEntries peer) (pure ())

end Still

end RaftKV.Local
