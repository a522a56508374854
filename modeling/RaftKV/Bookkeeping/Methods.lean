import RaftKV.Bookkeeping.Proposals
import RaftKV.Refinement.Relation

/-!
# Every method keeps the books

A public method takes a node between methods to a node between methods (`Live`). Most parts of
it apply nothing (`Mild`). The others end in `ApplyCommitted`, which catches up with the commit
index, or install a snapshot into a node that holds nothing.
-/

namespace RaftKV

open RaftM GhostLogic Accounts
open Setting (Idle)

variable {M : Membership} {v : ℤ} {off : Prop} {h : Hand} {c c' : Context} {α β : Type}

/-! ## Methods -/

variable (M v off) in
/-- A method, or the rest of one, that keeps the books. -/
def Keeps (m : RaftM α) : Prop :=
  ∀ c, Live M v off c → (books M v).gwp m (fun _ _ c' => Live M v off c') () c

namespace Keeps

theorem mild {m : RaftM α} (hm : Mild M v off m) : Keeps M v off m :=
  fun _ hl => hl.mild hm

theorem bind {m : RaftM β} {k : β → RaftM α} (hm : Keeps M v off m)
    (hk : ∀ b, Keeps M v off (k b)) : Keeps M v off (m >>= k) :=
  fun c hl => gwp_seq (hm c hl) fun b _ c' _ hl' => hk b c' hl'

theorem ite {p : Prop} [Decidable p] {m m' : RaftM α} (hm : Keeps M v off m)
    (hm' : Keeps M v off m') : Keeps M v off (if p then m else m') := by
  split_ifs
  · exact hm
  · exact hm'

theorem getNode {k : Node → RaftM α} (hk : ∀ n, Keeps M v off (k n)) :
    Keeps M v off (RaftM.getNode >>= k) :=
  fun c hl => hk c.node c hl

theorem getLog {k : AbstractLog → RaftM α} (hk : ∀ log, Keeps M v off (k log)) :
    Keeps M v off (RaftM.getLog >>= k) :=
  fun c hl => hk c.log c hl

theorem pure (a : α) : Keeps M v off (Pure.pure a : RaftM α) :=
  fun _ hl => gwp_pure hl

end Keeps

/-! ## Small parts -/

namespace Calm

theorem resetElectionTimer : Calm M v off resetElectionTimer :=
  drawTimeout.bind fun _ => now.bind fun _ => modifyNode (fun _ => rfl) fun _ => rfl

theorem notePeerContact (peer : ℤ) : Calm M v off (notePeerContact peer) :=
  now.bind fun _ => modifyNode (fun _ => rfl) fun _ => rfl

theorem replyVote (peer : ℤ) (prevote granted : Bool) :
    Calm M v off (replyVote peer prevote granted) :=
  Leaves.getNode fun _ => reply peer _

theorem replyAppend (peer : ℤ) (rpcId : ℕ) (success : Bool) (lastLogIndex : ℤ) :
    Calm M v off (replyAppend peer rpcId success lastLogIndex) :=
  Leaves.getNode fun _ => reply peer _

theorem replyInstall (peer : ℤ) (rpcId : ℕ) (success complete : Bool) :
    Calm M v off (replyInstall peer rpcId success complete) :=
  Leaves.getNode fun _ => reply peer _

theorem sendIfBehind (peer : ℤ) : Calm M v off (sendIfBehind peer) :=
  Leaves.getNode fun _ => Leaves.getLog fun _ =>
    Leaves.ite (sendAppendEntries peer) (Leaves.pure ())

theorem broadcastIfCommitted (before : ℤ) : Calm M v off (broadcastIfCommitted before) :=
  Leaves.getNode fun _ => Leaves.ite broadcastAppendEntries (Leaves.pure ())

theorem suppressed (peer : ℤ) : Calm M v off (suppressed peer) :=
  Leaves.getNode fun _ => Leaves.ite (now.bind fun _ => Leaves.pure _) (Leaves.pure _)

theorem tickSend : Calm M v off tickSend := by
  refine Leaves.bind (modifyNode (fun _ => rfl) fun _ => rfl) fun _ => Leaves.getNode fun n =>
    Leaves.ite (broadcastAppendEntries.bind fun _ => modifyNode (fun _ => rfl) fun _ => rfl) ?_
  exact Leaves.forM fun peer => Leaves.getNode fun _ =>
    Leaves.ite (sendAppendEntries peer) (Leaves.pure ())

end Calm

theorem Mild.writeLog (operation : String) (op : AbstractLog → Except String AbstractLog) :
    Mild M v off (writeLog operation op) := by
  intro h c _ hb
  rw [← bind_pure (RaftM.writeLog operation op)]
  exact books_writeLog hb.sound fun _ _ _ => gwp_pure ⟨hb.congr rfl, rfl⟩

/-- A durable write that marks the node unhealthy when it fails. -/
theorem Mild.appendMissing (entries : List LogEntry) : Mild M v off (appendMissing entries) := by
  refine Leaves.ite (Leaves.pure ()) fun h c _ hb => ?_
  rw [← bind_pure (onFailure _ _)]
  exact books_onFailure_writeLog hb.sound (fun _ _ _ => gwp_pure ⟨hb.congr rfl, rfl⟩)
    fun _ => books_modifyNode_last hb.sound

theorem Mild.reconcile : ∀ entries : List LogEntry, Mild M v off (reconcile entries)
  | [] => Leaves.pure _
  | e :: es => by
    refine Leaves.getLog fun log => Leaves.getNode fun n => ?_
    exact Leaves.ite (Leaves.ite (Leaves.fail _) ((Mild.writeLog _ _).bind fun _ =>
      (Mild.reconcile es).bind fun _ => Leaves.pure _))
      (Leaves.ite ((Mild.reconcile es).bind fun _ => Leaves.pure _) (Mild.reconcile es))

section

variable (hv : v ∈ M.peers)

include hv

/-! ## Roles -/

/-- `BecomeFollower` fails everything the node holds. -/
theorem becomeFollower_spec (term : ℤ) (hh : h.reads = []) (hb : Books M v off h c) :
    (books M v).gwp (becomeFollower term) (fun _ _ c' => Books M v off h c' ∧
      applyView c' = applyView c ∧ Idle c'.node) () c := by
  have hadopt : Mild M v off (adoptTerm term) := Leaves.getNode fun _ =>
    Leaves.ite ((Mild.writeLog _ _).bind fun _ => Leaves.modifyNode (fun _ => rfl) fun _ => rfl)
      (Leaves.pure ())
  rw [becomeFollower]
  refine gwp_seq (hadopt h c hh hb) fun _ _ c₁ _ hp => books_modifyNode ?_
  obtain ⟨hb₁, hv₁⟩ := hp
  refine gwp_seq (Calm.resetElectionTimer h _ hh (hb₁.congr rfl)) fun _ _ c₂ _ hp => ?_
  obtain ⟨hb₂, hv₂⟩ := hp
  have hrole : c₂.node.role = .follower := congrArg (fun x => x.2.2) hv₂
  have hidle : c₂.node.isLeader = false := by rw [Node.isLeader, hrole]; simp
  refine gwp_seq (failPending_idle hv _ hh hb₂ hidle) fun _ _ c₃ _ hp => ?_
  obtain ⟨hb₃, hn₃, he₃⟩ := hp
  have hidle₃ : c₃.node.isLeader = false := by rw [hn₃]; exact hidle
  refine gwp_seq (clearReadIndexQueues_spec _ hh hb₃ hidle₃) fun _ _ c₄ _ hp => ?_
  obtain ⟨hb₄, hn₄, he₄⟩ := hp
  refine books_modifyNode_last ⟨hb₄.congr rfl, ?_, ?_⟩
  · have hview : applyView c₄ = applyView c₂ := by
      rw [applyView, hn₄, hn₃, he₄, he₃]
      rfl
    exact (hview.trans (congrArg Prod.fst hv₂)).trans hv₁
  · refine ⟨?_, ?_, ?_, ?_⟩ <;> simp only [hn₄, hn₃]

theorem Mild.becomeFollower (term : ℤ) : Mild M v off (becomeFollower term) := fun _ _ hh hb =>
  gwp_mono (becomeFollower_spec hv term hh hb) fun _ _ _ _ hc => ⟨hc.1, hc.2.1⟩

theorem Mild.checkQuorum : Mild M v off checkQuorum := by
  refine Leaves.getNode fun n => (Calm.notePeerContact _).mild.bind fun _ =>
    Leaves.ite (Leaves.pure ()) (Calm.now.mild.bind fun _ => Leaves.getNode fun _ => ?_)
  exact Leaves.ite (Leaves.pure ()) (Leaves.ite (Leaves.pure ()) (Mild.becomeFollower hv _))

omit hv in
variable (M v off) in
/-- A node between methods whose log goes at least as far as its state machine. -/
structure Fit (c : Context) : Prop extends Live M v off c where
  last : c.node.lastApplied ≤ c.log.lastIndex

omit hv in
theorem Fit.still (hf : Fit M v off c)
    (hb : Books M v off ⟨[], [], c.node.lastApplied, c.node.lastApplied⟩ c')
    (ha : applyView c' = applyView c) (hlast : c'.log.lastIndex = c.log.lastIndex) :
    Fit M v off c' := by
  refine ⟨hf.toLive.still hb ha, ?_⟩
  have happlied : c'.node.lastApplied = c.node.lastApplied := congrArg ApplyView.lastApplied ha
  rw [happlied, hlast]
  exact hf.last

omit hv in
theorem Fit.calm {m : RaftM α} (hf : Fit M v off c) (hm : Calm M v off m) :
    (books M v).gwp m (fun _ _ c' => Fit M v off c' ∧ c'.node.role = c.node.role) () c :=
  gwp_mono (hm _ _ rfl hf.kept) fun _ _ _ _ ⟨hb, ha⟩ =>
    ⟨hf.still hb (congrArg Prod.fst ha) (congrArg (fun x => x.2.1) ha),
      congrArg (fun x => x.2.2) ha⟩

/-- A new leader proposes its empty entry. -/
theorem becomeLeader_spec (hf : Fit M v off c) :
    (books M v).gwp becomeLeader (fun _ _ c' => Live M v off c') () c := by
  rw [becomeLeader, books_getLog]
  refine books_modifyNode ?_
  rw [books_getNode]
  refine books_observe hf.kept.id ?_
  have hk : Books M v off ⟨[], [], c.node.lastApplied, c.node.lastApplied⟩
      { c with
        node := c.node.asLeader c.log.lastIndex
        trace := c.trace ++ [(v, .leader c.node.currentTerm)] } :=
    (hf.kept.note (e := .leader c.node.currentTerm) rfl).congr rfl
  refine gwp_seq (proposeBatch_spec hv _ ⟨hk, hf.caught, hf.backed⟩ hf.last) fun _ _ c₁ _ hl => ?_
  exact (Keeps.mild (Calm.now.mild.bind fun _ => Leaves.bind
    (Leaves.modifyNode (fun _ => rfl) fun _ => rfl) fun _ => (Calm.notePeerContact _).mild)) c₁ hl

omit hv in
theorem saveHardState_lastIndex {term votedFor : ℤ} {a b : AbstractLog}
    (hs : a.saveHardState term votedFor = .ok b) : b.lastIndex = a.lastIndex := by
  rw [AbstractLog.saveHardState] at hs
  split_ifs at hs
  cases hs
  rfl

theorem becomeCandidate_spec (hf : Fit M v off c) :
    (books M v).gwp becomeCandidate (fun _ _ c' => Live M v off c') () c := by
  rw [becomeCandidate, books_getNode]
  refine gwp_ite (fun _ => books_fail hf.kept.sound) fun hterm => ?_
  refine books_writeLog hf.kept.sound fun log env hlog => books_modifyNode ?_
  have hf₁ : Fit M v off { c with
      node := { c.node with
        currentTerm := c.node.currentTerm + 1
        votedFor := c.node.nodeId
        role := .candidate
        leaderId := -1
        votes := {c.node.nodeId} }
      log := log
      env := env } := hf.still (hf.kept.congr rfl) rfl (saveHardState_lastIndex hlog)
  refine gwp_seq (hf₁.calm Calm.resetElectionTimer) fun _ _ c₂ _ ⟨hf₂, _⟩ => ?_
  split_ifs
  · exact becomeLeader_spec hv hf₂
  · exact (Keeps.getLog fun _ => Keeps.mild (Calm.broadcast _).mild) c₂ hf₂.toLive

theorem becomePreCandidate_spec (hf : Fit M v off c) :
    (books M v).gwp becomePreCandidate (fun _ _ c' => Live M v off c') () c := by
  rw [becomePreCandidate, books_getNode]
  split_ifs
  · exact becomeCandidate_spec hv hf
  · exact books_fail hf.kept.sound
  · exact (Keeps.mild (Leaves.bind (Leaves.modifyNode (fun _ => rfl) fun _ => rfl) fun _ =>
      Calm.resetElectionTimer.mild.bind fun _ => Leaves.getLog fun _ => (Calm.broadcast _).mild))
      c hf.toLive

/-! ## Votes -/

omit hv in
theorem Mild.castVote (peer : ℤ) (request : RequestVote) : Mild M v off (castVote peer request) :=
  Leaves.getNode fun _ => Leaves.getLog fun _ => Leaves.ite
    ((Mild.writeLog _ _).bind fun _ => Leaves.bind (Leaves.modifyNode (fun _ => rfl) fun _ => rfl)
      fun _ => Calm.resetElectionTimer.mild.bind fun _ => (Calm.replyVote _ _ _).mild)
    (Calm.replyVote _ _ _).mild

theorem Mild.handleRequestVote (peer : ℤ) (request : RequestVote) :
    Mild M v off (handleRequestVote peer request) := by
  refine Leaves.getNode fun n => Leaves.getLog fun log => Leaves.ite (Leaves.pure ())
    (Leaves.ite (Calm.replyVote _ _ _).mild ((Calm.suppressed peer).mild.bind fun _ =>
      Leaves.ite (Calm.replyVote _ _ _).mild (Leaves.ite (Calm.replyVote _ _ _).mild ?_)))
  exact Leaves.ite ((Mild.becomeFollower hv _).bind fun _ => Mild.castVote peer request)
    (Mild.castVote peer request)

theorem handleRequestVoteResponse_spec (peer : ℤ) (response : RequestVoteResponse)
    (hf : Fit M v off c) :
    (books M v).gwp (handleRequestVoteResponse peer response)
      (fun _ _ c' => Live M v off c') () c := by
  have hvotes : Fit M v off { c with node := { c.node with votes := insert peer c.node.votes } } :=
    hf.still (hf.kept.congr rfl) rfl rfl
  rw [handleRequestVoteResponse, books_getNode]
  refine gwp_ite (fun _ => gwp_pure hf.toLive) fun hfrom => ?_
  split_ifs
  · exact hf.toLive.mild (Mild.becomeFollower hv _)
  · exact books_modifyNode (becomeCandidate_spec hv hvotes)
  · exact books_modifyNode (gwp_pure hvotes.toLive)
  · exact gwp_pure hf.toLive
  · exact gwp_pure hf.toLive
  · exact books_modifyNode (becomeLeader_spec hv hvotes)
  · exact books_modifyNode (gwp_pure hvotes.toLive)
  · exact gwp_pure hf.toLive

/-! ## Replication -/

theorem Keeps.acceptEntries (peer : ℤ) (request : AppendEntries) :
    Keeps M v off (acceptEntries peer request) := by
  refine (Keeps.mild (Mild.reconcile _)).bind fun missing =>
    (Keeps.mild (Mild.appendMissing missing)).bind fun _ c hl => ?_
  rw [gwp_get_bind]
  refine books_observe hl.kept.id (books_modifyNode ?_)
  refine gwp_seq (applyCommitted_spec hv ?_ hl.backed) fun _ _ c₁ _ hl₁ =>
    hl₁.mild (Calm.replyAppend _ _ _ _).mild
  exact ((hl.kept.note rfl).commit (le_max_left _ _)).congr rfl

theorem Keeps.followLeader (peer : ℤ) (request : AppendEntries) :
    Keeps M v off (followLeader peer request) :=
  (Keeps.mild (Leaves.modifyNode (fun _ => rfl) fun _ => rfl)).bind fun _ =>
    (Keeps.mild Calm.resetElectionTimer.mild).bind fun _ => Keeps.getLog fun _ =>
      Keeps.ite (Keeps.acceptEntries hv peer request) (Keeps.mild (Calm.replyAppend _ _ _ _).mild)

theorem Keeps.handleAppendEntries (peer : ℤ) (request : AppendEntries) :
    Keeps M v off (handleAppendEntries peer request) :=
  Keeps.getNode fun _ => Keeps.getLog fun _ => Keeps.ite (Keeps.pure ())
    (Keeps.ite (Keeps.mild (Calm.replyAppend _ _ _ _).mild)
      (Keeps.ite ((Keeps.mild (Mild.becomeFollower hv _)).bind fun _ =>
        Keeps.followLeader hv peer request) (Keeps.followLeader hv peer request)))

theorem Keeps.advanceCommitIndex : Keeps M v off advanceCommitIndex :=
  fun _ hl => advanceCommitIndex_spec hv hl.kept hl.backed

theorem Keeps.noteSuccess (peer : ℤ) (flight : Inflight) :
    Keeps M v off (noteSuccess peer flight) :=
  (Keeps.mild (Leaves.modifyNode (fun _ => rfl) fun _ => rfl)).bind fun _ => Keeps.getNode fun _ =>
    (Keeps.advanceCommitIndex hv).bind fun _ =>
      (Keeps.mild (Calm.finishReadIndexRounds hv).mild).bind fun _ =>
        (Keeps.mild (Calm.broadcastIfCommitted _).mild).bind fun _ =>
          Keeps.mild (Calm.sendIfBehind peer).mild

theorem Calm.noteRejection (peer lastLogIndex : ℤ) :
    Calm M v off (noteRejection peer lastLogIndex) :=
  (Calm.modifyNode (fun _ => rfl) fun _ => rfl).bind fun _ =>
    (Calm.finishReadIndexRounds hv).bind fun _ => Calm.sendAppendEntries peer

theorem Keeps.useAppendResponse (peer : ℤ) (response : AppendEntriesResponse) :
    Keeps M v off (useAppendResponse peer response) :=
  Keeps.getNode fun _ => Keeps.ite (Keeps.mild (Calm.finishReadIndexRounds hv).mild)
    (Keeps.ite (Keeps.mild (Calm.finishReadIndexRounds hv).mild)
      (Keeps.ite (Keeps.noteSuccess hv peer _) (Keeps.mild (Calm.noteRejection hv peer _).mild)))

theorem Keeps.handleAppendEntriesResponse (peer : ℤ) (response : AppendEntriesResponse) :
    Keeps M v off (handleAppendEntriesResponse peer response) := by
  intro c hl
  rw [RaftKV.handleAppendEntriesResponse, books_getNode]
  refine gwp_ite (fun _ => gwp_pure hl) fun hfrom => ?_
  push Not at hfrom
  have hpeer : peer ∈ M.peers := by
    have := hfrom.2
    rw [Node.isRemotePeer, Bool.and_eq_true, hl.kept.peers] at this
    exact of_decide_eq_true this.2
  have hcount : Mild M v off (countProbe peer response) := Leaves.getNode fun _ =>
    Leaves.ite (Calm.ackReadIndexProbe hpeer _).mild (Leaves.pure ())
  exact (Keeps.ite (Keeps.mild (Mild.becomeFollower hv _)) (Keeps.ite (Keeps.pure ())
    ((Keeps.mild (Calm.notePeerContact peer).mild).bind fun _ =>
      (Keeps.mild Calm.checkReadIndexTimeout.mild).bind fun _ => (Keeps.mild hcount).bind fun _ =>
        Keeps.useAppendResponse hv peer response))) c hl

/-! ## Snapshots -/

omit hv in
/-- A node that holds nothing is at another index. -/
theorem Books.relocate {floor served : ℤ} (hb : Books M v off ⟨[], [], floor, served⟩ c)
    (hidle : Idle c.node) (applied commit : ℤ) :
    Books M v off ⟨[], [], applied, applied⟩ { c with node := { c.node with
      lastApplied := applied, commitIndex := commit } } := by
  have hheld : readsHeld c.node [] = [] := by
    simp [readsHeld, hidle.rounds, hidle.unsent, hidle.reads]
  exact
    { hb with
      rows := fun item hi => by
        change item ∈ c.node.pending at hi
        rw [hidle.pending] at hi
        cases hi
      served := le_rfl
      bound := fun _ q hq => by
        change q ∈ readsHeld c.node [] at hq
        rw [hheld] at hq
        cases hq
      ahead := fun _ q hq => by
        change q ∈ c.node.pendingReads at hq
        rw [hidle.reads] at hq
        cases hq }

omit hv in
theorem installStore_spec (index : ℤ) (bytes : Bytes) {afterValidation : RaftM Unit}
    (hafter : (books M v).gwp afterValidation (fun _ _ c' => Books M v off h c' ∧
      c'.node = c.node) () c) (hb : Books M v off h c) :
    (books M v).gwp (installStore index bytes afterValidation) (fun _ _ c' => Books M v off h c' ∧
      c'.node = c.node) () c := by
  rw [installStore]
  cases parseSnapshot bytes with
  | error text => exact books_fail hb.sound
  | ok entries =>
    rw [gwp_get_bind]
    cases c.sm.replaceBatch index entries with
    | error text => exact books_fail hb.sound
    | ok batch =>
      refine gwp_seq hafter fun _ _ c₁ _ ⟨hb₁, hn₁⟩ => books_crashPoint hb₁.sound fun env => ?_
      refine gwp_bind (gwp_modify () List.prefix_rfl ?_)
      rw [gwp_get_bind, ← bind_pure (observe _)]
      exact books_observe hb₁.id (gwp_pure ⟨(hb₁.note rfl).congr rfl, hn₁⟩)

omit hv in
theorem writeLog_node (operation : String) (op : AbstractLog → Except String AbstractLog)
    (hb : Books M v off h c) : (books M v).gwp (writeLog operation op)
      (fun _ _ c' => Books M v off h c' ∧ c'.node = c.node) () c := by
  rw [← bind_pure (writeLog operation op)]
  exact books_writeLog hb.sound fun _ _ _ => gwp_pure ⟨hb.congr rfl, rfl⟩

omit hv in
/-- A snapshot of later entries is installed into a node that holds nothing. -/
theorem installReceived_spec (s : Snapshot) (hl : Live M v off c) (hidle : Idle c.node)
    (hlt : c.node.lastApplied < s.index) (hfree : c.node.applyInflight = false) :
    (books M v).gwp (installReceived s) (fun _ _ c' => Live M v off c') () c := by
  rw [installReceived]
  refine gwp_seq (installStore_spec s.index s.data (writeLog_node _ _ hl.kept) hl.kept)
    fun _ _ c₁ _ ⟨hb₁, hn₁⟩ => gwp_seq (writeLog_node _ _ hb₁) fun _ _ c₂ _ ⟨hb₂, hn₂⟩ => ?_
  have hn : c₂.node = c.node := hn₂.trans hn₁
  refine books_modifyNode_last ⟨?_, fun hrun _ => ?_, fun hflight => ?_⟩
  · have hidle₂ : Idle c₂.node := hn ▸ hidle
    exact (hb₂.relocate hidle₂ s.index (max c₂.node.commitIndex s.index)).congr rfl
  · have hcaught := hl.caught ((congrArg Node.running hn).symm.trans hrun) hfree
    change max c₂.node.commitIndex s.index ≤ s.index
    rw [hn]
    omega
  · have hflight₁ := (congrArg Node.applyInflight hn).symm.trans hflight
    rw [hfree] at hflight₁
    cases hflight₁

omit hv in
theorem receiveChunk_spec (peer : ℤ) (request : InstallSnapshot) (hl : Live M v off c)
    (hidle : Idle c.node) (hlt : c.node.lastApplied < request.lastIncludedIndex)
    (hfree : c.node.applyInflight = false) :
    (books M v).gwp (receiveChunk peer request) (fun _ _ c' => Live M v off c') () c := by
  have hreply : ∀ (received : SnapshotReceive) (success complete : Bool),
      (books M v).gwp (do
        modifyNode fun n => { n with snapshotReceive := received }
        replyInstall peer request.rpcId success complete) (fun _ _ c' => Live M v off c') () c :=
    fun received success complete => (Keeps.mild (Leaves.bind
      (Leaves.modifyNode (fun _ => rfl) fun _ => rfl) fun _ =>
        (Calm.replyInstall peer request.rpcId success complete).mild)) c hl
  rw [receiveChunk, books_getNode]
  refine gwp_ite (fun hfits => ?_) fun hfits => ?_
  · refine gwp_ite (fun _ => hreply _ _ _) fun hlarge => ?_
    refine gwp_ite (fun _ => hreply _ _ _) fun hmore => ?_
    refine books_modifyNode (gwp_seq
      (installReceived_spec _ ⟨hl.kept.congr rfl, hl.caught, hl.backed⟩
      { hidle with } hlt hfree) fun _ _ _ _ hl₁ => hl₁.mild (Calm.replyInstall _ _ _ _).mild)
  · exact hreply _ _ _

omit hv in
theorem followSnapshot_spec (peer : ℤ) (request : InstallSnapshot) (hl : Live M v off c)
    (hidle : Idle c.node) :
    (books M v).gwp (followSnapshot peer request) (fun _ _ c' => Live M v off c') () c := by
  rw [followSnapshot]
  refine books_modifyNode ?_
  rw [resetElectionTimer, bind_assoc]
  refine books_drawTimeout fun timeout env => ?_
  rw [bind_assoc]
  refine books_now fun time env' => books_modifyNode ?_
  rw [books_getNode]
  have hl₁ : ∀ received, Live M v off { c with
      node := { c.node with
        leaderId := peer
        electionDeadline := time + timeout * ms
        snapshotReceive := received }
      env := env' } := fun received => ⟨hl.kept.congr rfl, hl.caught, hl.backed⟩
  refine gwp_ite (fun _ => books_modifyNode ((hl₁ {}).mild (Calm.replyInstall _ _ _ _).mild))
    fun hold => ?_
  refine gwp_ite (fun _ => (hl₁ _).mild (Calm.replyInstall _ _ _ _).mild) fun hbusy => ?_
  split_ifs
  · exact books_modifyNode ((hl₁ {}).mild (Calm.replyInstall _ _ _ _).mild)
  · exact receiveChunk_spec peer request (hl₁ _) { hidle with } (not_le.mp hold)
      (Bool.not_eq_true _ ▸ hbusy)

/-- A leader gets no snapshot of its own term. -/
theorem handleInstallSnapshot_spec (peer : ℤ) (request : InstallSnapshot) (hl : Live M v off c)
    (hidle : request.valid c.node peer = true → request.term = c.node.currentTerm → Idle c.node) :
    (books M v).gwp (handleInstallSnapshot peer request) (fun _ _ c' => Live M v off c') () c := by
  rw [handleInstallSnapshot, books_getNode]
  refine gwp_ite (fun _ => gwp_pure hl) fun hvalid => ?_
  push Not at hvalid
  refine gwp_ite (fun _ => hl.mild (Calm.replyInstall _ _ _ _).mild) fun hstale => ?_
  refine gwp_ite (fun hnew => ?_) fun hnew => ?_
  · refine gwp_seq (becomeFollower_spec hv _ rfl hl.kept) fun _ _ c₁ _ ⟨hb₁, hv₁, hidle₁⟩ => ?_
    exact followSnapshot_spec peer request (hl.still hb₁ hv₁) hidle₁
  · exact followSnapshot_spec peer request hl (hidle hvalid (by omega))

theorem Mild.handleInstallSnapshotResponse (peer : ℤ) (response : InstallSnapshotResponse) :
    Mild M v off (handleInstallSnapshotResponse peer response) := by
  refine Leaves.getNode fun n => Leaves.ite (Leaves.pure ()) (Leaves.ite (Mild.becomeFollower hv _)
    (Leaves.ite (Leaves.pure ()) ((Calm.notePeerContact peer).mild.bind fun _ =>
      Leaves.ite (Leaves.pure ()) ?_)))
  refine Leaves.ite ((Calm.setInflight peer _).bind fun _ => Calm.sendSnapshotChunk peer).mild
    (Leaves.ite ((Calm.setInflight peer _).bind fun _ => Calm.sendSnapshotChunk peer).mild
      (Leaves.bind (Leaves.modifyNode (fun _ => rfl) fun _ => rfl) fun _ =>
        (Calm.sendIfBehind peer).mild))

/-! ## The timer, start and stop, settings -/

theorem Mild.tickReads : Mild M v off tickReads :=
  Leaves.getNode fun _ => Leaves.ite (Leaves.pure ())
    ((Calm.expireUncommittedProposals hv).mild.bind fun _ => (Calm.finishReadIndexRounds hv).mild)

theorem Mild.tickLeader : Mild M v off tickLeader :=
  Leaves.getNode fun _ => Leaves.ite (Calm.tickSend.mild.bind fun _ =>
    Calm.checkReadIndexTimeout.mild.bind fun _ => (Mild.checkQuorum hv).bind fun _ =>
      Mild.tickReads hv) (Leaves.pure ())

/-- A tick lets proposals and reads expire. -/
theorem tick_spec (hf : Fit M v off c) :
    (books M v).gwp tick (fun _ _ c' => Live M v off c') () c := by
  rw [tick, books_getNode]
  split_ifs
  · refine gwp_seq (R := fun _ _ c' => Live M v off c') ?_ fun _ _ _ _ hl =>
      hl.mild (Mild.tickLeader hv)
    rw [tickElection, books_getNode]
    refine gwp_ite (fun hrole => ?_) fun hrole => ?_
    · refine books_now fun time env => ?_
      have hf₁ : Fit M v off { c with env := env } := hf.still (hf.kept.congr rfl) rfl rfl
      split_ifs
      · exact becomePreCandidate_spec hv hf₁
      · exact gwp_pure hf₁.toLive
    · exact gwp_pure hf.toLive
  · exact gwp_pure hf.toLive

/-- `Start` applies what is left. -/
theorem start_spec (hl : Live M v off c) :
    (books M v).gwp start (fun _ _ c' => Live M v off c') () c := by
  rw [start]
  refine books_modifyNode ?_
  rw [books_getNode]
  refine gwp_seq (becomeFollower_spec hv _ rfl (hl.kept.congr rfl)) fun _ _ c₁ _ ⟨hb₁, hv₁, _⟩ => ?_
  refine applyCommitted_spec hv (hb₁.settled (congrArg ApplyView.lastApplied hv₁)) fun hflight => ?_
  exact (congrArg ApplyView.loaded hv₁).trans
    (hl.backed ((congrArg ApplyView.applyInflight hv₁).symm.trans hflight))

/-- `Stop` fails everything the node holds. -/
theorem stop_spec (hl : Live M v off c) :
    (books M v).gwp stop (fun _ _ c' => Live M v off c') () c := by
  rw [stop]
  refine books_modifyNode ?_
  refine gwp_seq (failPending_idle hv _ rfl (hl.kept.congr rfl) rfl)
    fun _ _ c₁ _ ⟨hb₁, hn₁, he₁⟩ => ?_
  have hidle : c₁.node.isLeader = false := by rw [hn₁]; rfl
  refine gwp_seq (clearReadIndexQueues_spec _ rfl hb₁ hidle) fun _ _ c₂ _ ⟨hb₂, hn₂, he₂⟩ =>
    books_modifyNode_last ⟨?_, fun hrun => ?_, fun hflight => ?_⟩
  · have hlast : c₂.node.lastApplied = c.node.lastApplied := by rw [hn₂, hn₁]
    exact (hb₂.settled hlast).congr rfl
  · rw [hn₂, hn₁] at hrun
    cases hrun
  rw [hn₂, hn₁] at hflight
  change c₂.exec.loaded = true
  rw [he₂, he₁]
  exact hl.backed hflight

omit hv in
theorem Mild.setSnapshotThreshold (entries : ℤ) : Mild M v off (setSnapshotThreshold entries) :=
  Leaves.getLog fun _ => Leaves.ite (Leaves.fail _)
    (Leaves.modifyNode (fun _ => rfl) fun _ => rfl)

omit hv in
theorem Mild.setSnapshotChunkBytes (bytes : ℕ) : Mild M v off (setSnapshotChunkBytes bytes) :=
  Leaves.ite (Leaves.fail _) (Leaves.modifyNode (fun _ => rfl) fun _ => rfl)

omit hv in
theorem setLeaseReads_spec {enabled : Bool} (hoff : off → enabled = false) (hl : Live M v off c) :
    (books M v).gwp (setLeaseReads enabled) (fun _ _ c' => Live M v off c') () c :=
  books_modifyNode_last ⟨{ hl.kept with lease := hoff }, hl.caught, hl.backed⟩

/-! ## The constructor -/

omit hv in
/-- A new process drops what the one before it held. -/
theorem Sound.booted {t : List (ℤ × Event)} (hs : Sound M v t) :
    Open (proposalCalls v) (t ++ [(v, .booted)]) [] ∧ Open (readCalls v) (t ++ [(v, .booted)]) [] ∧
      Sound M v (t ++ [(v, .booted)]) := by
  obtain ⟨l, hl⟩ := hs.proposals
  obtain ⟨r, hr⟩ := hs.reads
  have hp : Open (proposalCalls v) (t ++ [(v, .booted)]) [] := hl.dropped (callsOf_drops ..)
  have hd : Open (readCalls v) (t ++ [(v, .booted)]) [] := hr.dropped (callsOf_drops ..)
  exact ⟨hp, hd, hs.concat ⟨_, hp⟩ ⟨_, hd⟩ fun _ => trivial⟩

omit hv in
/-- A new process has empty books. -/
theorem books_boot (hs : Sound M v c.trace) (async : Bool) (hn : c.node = M.boot v async)
    (he : c.exec = {}) :
    Books M v off ⟨[], [], 0, 0⟩ { c with trace := c.trace ++ [(v, .booted)] } := by
  obtain ⟨hp, hr, hs'⟩ := hs.booted
  have hheld : readsHeld c.node [] = [] := by rw [hn]; rfl
  exact
    { id := by rw [hn]; rfl
      peers := by rw [hn]; rfl
      calm := by rw [hn]; rfl
      sound := hs'
      proposals := by
        change Open (proposalCalls v) (c.trace ++ [(v, .booted)]) (proposalsHeld c.node.pending)
        rw [hn]
        exact hp
      rows := by
        rw [hn]
        exact fun item hi => by cases hi
      bytes := by rw [hn]; rfl
      capacity := by
        rw [hn]
        exact ⟨Nat.zero_le _, Nat.zero_le _⟩
      completions := by
        rw [he]
        exact fun x hx => by cases hx
      reads := by
        change Open (readCalls v) (c.trace ++ [(v, .booted)]) ((readsHeld c.node []).map _)
        rw [hheld]
        exact hr
      rounds := by
        rw [hn]
        exact Nat.zero_le 1
      round := by
        rw [hn]
        exact fun r hr => by cases hr
      waiting := by
        rw [hn]
        exact fun q hq => by cases hq
      served := by rw [hn]; rfl
      lease := by
        rw [hn]
        exact fun _ => rfl
      order := by
        change off → (readsHeld c.node []).Pairwise _
        rw [hheld]
        exact fun _ => List.Pairwise.nil
      bound := by
        change off → ∀ q ∈ readsHeld c.node [], _
        rw [hheld]
        exact fun _ q hq => by cases hq
      ahead := by
        rw [hn]
        exact fun _ q hq => by cases hq }

omit hv in
/-- Opening the databases and finishing an install leave the new node alone. -/
theorem recover_spec (hb : Books M v off ⟨[], [], 0, 0⟩ c) (hidle : Idle c.node)
    (hfree : c.node.applyInflight = false) :
    (books M v).gwp recover (fun _ _ c' => Live M v off c') () c := by
  rw [recover, books_getLog]
  cases c.log.loadHardState with
  | error text => exact books_fail hb.sound
  | ok hardState =>
    dsimp only
    split_ifs
    · exact books_fail hb.sound
    refine gwp_seq (R := fun _ _ c' => Books M v off ⟨[], [], 0, 0⟩ c' ∧ c'.node = c.node) ?_
      fun _ _ c₁ _ ⟨hb₁, hn₁⟩ => ?_
    · rw [recoverInstall, books_getLog]
      cases c.log.loadPendingSnapshot with
      | error text => exact books_fail hb.sound
      | ok pending =>
        cases pending with
        | none => exact gwp_pure ⟨hb, rfl⟩
        | some s =>
          dsimp only
          split_ifs
          · exact books_fail hb.sound
          refine gwp_seq (installStore_spec s.index s.data (gwp_pure ⟨hb, rfl⟩) hb)
            fun _ _ c₂ _ ⟨hb₂, hn₂⟩ => ?_
          exact gwp_mono (writeLog_node _ _ hb₂) fun _ _ _ _ ⟨hb₃, hn₃⟩ => ⟨hb₃, hn₃.trans hn₂⟩
    · rw [checkRecovered, gwp_get_bind]
      split_ifs
      · exact books_fail hb₁.sound
      · exact books_fail hb₁.sound
      have hidle₁ : Idle c₁.node := hn₁ ▸ hidle
      refine books_modifyNode_last ⟨(hb₁.relocate hidle₁ c₁.sm.lastApplied
        c₁.sm.lastApplied).congr rfl, fun _ _ => le_rfl, fun hflight => ?_⟩
      have hflight₁ := (congrArg Node.applyInflight hn₁).symm.trans hflight
      rw [hfree] at hflight₁
      cases hflight₁

omit hv in
theorem construct_books (hs : Sound M v c.trace) (async : Bool) (hn : c.node = M.boot v async)
    (he : c.exec = {}) : (books M v).gwp construct (fun _ _ c' => Live M v off c') () c := by
  have hid : c.node.nodeId = v := by rw [hn]; rfl
  have hidle : Idle c.node := by rw [hn]; exact ⟨rfl, rfl, rfl, rfl⟩
  have hb : Books M v off ⟨[], [], 0, 0⟩ { c with trace := c.trace ++ [(v, .booted)] } :=
    books_boot hs async hn he
  rw [construct]
  refine books_observe hid ?_
  rw [openStore, bind_assoc, gwp_get_bind]
  cases Store.construct c.sm.db with
  | error text => exact gwp_bind (books_fail hb.sound)
  | ok sm =>
    refine gwp_bind (gwp_modify () List.prefix_rfl ?_)
    rw [books_getNode]
    cases validatePeers c.node.nodeId c.node.allPeers with
    | error text => exact books_fail hb.sound
    | ok _ =>
      rw [openLog, bind_assoc, books_getLog]
      split_ifs
      · exact gwp_bind (books_fail hb.sound)
      · rw [pure_bind]
        exact recover_spec (hb.congr rfl) hidle (by rw [hn]; rfl)

/-! ## Inputs -/

omit hv in
/-- A snapshot of the current term finds a node that holds nothing. -/
def Spared (n : Node) : Input → Prop
  | .deliver e => ∀ m, e.message = .installSnapshot m → m.valid n e.src = true →
      m.term = n.currentTerm → Idle n
  | _ => True

/-- **Every input keeps the books.** -/
theorem input_live (input : Input) (hf : Fit M v off c) (hspared : Spared c.node input)
    (hoff : off → ∀ enabled, input = .setLeaseReads enabled → enabled = false) :
    (books M v).gwp input.run (fun _ _ c' => Live M v off c') () c := by
  have hl := hf.toLive
  cases input with
  | deliver e =>
    rw [Input.run]
    cases hm : e.message with
    | requestVote m => exact hl.mild (Mild.handleRequestVote hv _ m)
    | requestVoteResponse m => exact handleRequestVoteResponse_spec hv _ m hf
    | appendEntries m => exact Keeps.handleAppendEntries hv _ m c hl
    | appendEntriesResponse m => exact Keeps.handleAppendEntriesResponse hv _ m c hl
    | installSnapshot m => exact handleInstallSnapshot_spec hv _ m hl (hspared m hm)
    | installSnapshotResponse m => exact hl.mild (Mild.handleInstallSnapshotResponse hv _ m)
  | tick => exact tick_spec hv hf
  | start => exact start_spec hv hl
  | stop => exact stop_spec hv hl
  | propose proposals =>
    exact gwp_seq (proposeBatch_spec hv proposals hl hf.last) fun _ _ _ _ hl' => gwp_pure hl'
  | readIndex onOk onFail =>
    exact gwp_seq (hl.mild (Calm.requestReadIndex hv onOk onFail).mild)
      fun _ _ _ _ hl' => gwp_pure hl'
  | work => exact hl.mild Mild.runWorker
  | completion => exact runCompletion_spec hv hl
  | setSnapshotThreshold entries => exact hl.mild (Mild.setSnapshotThreshold entries)
  | setSnapshotChunkBytes bytes => exact hl.mild (Mild.setSnapshotChunkBytes bytes)
  | setLeaseReads enabled => exact setLeaseReads_spec (fun h => hoff h enabled rfl) hl

end

end RaftKV
