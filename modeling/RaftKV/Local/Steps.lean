import RaftKV.Local.Moves

/-!
# What an input does to the core

For every input of a node, the core it ends with (`Core.Steps`). The relations follow the
handlers branch by branch; what they leave open is the time and what the other parts of the
node, the network and the worker decide. `Tears` lists, for every input, the logs that a
handler may leave when it throws.
-/

namespace RaftKV.Local

open RaftM

variable {c : Context} {T : AbstractLog → Prop}

/-! ## Replies -/

variable {peer time : ℤ} {taken : Prop} {x y : Core}

/-- A context with the core `x`, not before `time`. Under `taken` all messages are taken. -/
structure At (x : Core) (time : ℤ) (taken : Prop) (c : Context) : Prop where
  core : core c = x
  requests : Requests c.node
  time : time ≤ reading c.env
  sends : taken → c.env.sends = []

namespace At

/-- A part of a method, and what follows from the core that it leaves. -/
theorem bind {α β : Type} {m : RaftM β} {k : β → RaftM α} {S : β → Core → Prop}
    {R : α → Core → Prop} (h : At x time taken c) (hm : Does m c S T)
    (hk : ∀ b y c', At y time taken c' → S b y → Does (k b) c' R T) : Does (m >>= k) c R T := by
  refine hm.bind fun b c' hr hs hy =>
    hk b _ c' ⟨rfl, hr, h.time.trans hs.later.time, fun ht => ?_⟩ hy
  have hsends := hs.later.sends
  rw [h.sends ht] at hsends
  exact List.suffix_nil.mp hsends

theorem reply (h : At x time taken c) (peer : ℤ) {message : Message}
    (hm : isReply message = true) (hT : T x.log) :
    Does (RaftM.reply peer message) c (fun _ y => x.Answers taken peer message y) T := by
  obtain rfl := h.core
  refine (reply_does peer hm h.requests hT).imp fun _ y ⟨replies, hy, hreplies⟩ => ?_
  exact ⟨replies, hy, fun ht => hreplies (h.sends ht)⟩

end At

/-- The log is closed under compaction. -/
def Closed (T : AbstractLog → Prop) : Prop :=
  ∀ a b index, T a → Compacted index a b → T b

/-! ## Votes -/

def voteReply (x : Core) (granted prevote : Bool) : Message :=
  .requestVoteResponse ⟨x.currentTerm, granted, prevote⟩

theorem replyVote_does (h : At x time taken c) (peer : ℤ) (prevote granted : Bool) (hT : T x.log) :
    Does (replyVote peer prevote granted) c
      (fun _ y => x.Answers taken peer (voteReply x granted prevote) y) T := by
  obtain rfl := h.core
  exact h.reply peer rfl hT

/-- The vote of a node is free for a candidate of its term. -/
def Core.Free (x : Core) (peer : ℤ) (request : RequestVote) : Prop :=
  request.term = x.currentTerm ∧ (x.votedFor = -1 ∨ x.votedFor = peer) ∧
    isLogUpToDate x.log request.lastLogIndex request.lastLogTerm = true

instance (x : Core) (peer : ℤ) (request : RequestVote) : Decidable (x.Free peer request) :=
  inferInstanceAs (Decidable (_ ∧ _ ∧ _))

/-- The core of a node that has voted for a peer. -/
def Core.vote (x : Core) (peer deadline : ℤ) : Core :=
  { x with
    log := { x.log with hardState := some (x.currentTerm, peer) }
    votedFor := peer
    electionDeadline := deadline }

/-- A vote in the current term. -/
def Core.Casts (x : Core) (taken : Prop) (peer : ℤ) (request : RequestVote) (y : Core) : Prop :=
  if x.Free peer request then
    ∃ deadline, (x.vote peer deadline).Answers taken peer (voteReply x true false) y
  else x.Answers taken peer (voteReply x false false) y

theorem castVote_does (h : At x time taken c) (peer : ℤ) (request : RequestVote) (hT : T x.log)
    (hT' : T { x.log with hardState := some (x.currentTerm, peer) }) :
    Does (castVote peer request) c (fun _ y => x.Casts taken peer request y) T := by
  obtain rfl := h.core
  rw [castVote]
  refine Does.getNode (Does.getLog ?_)
  refine Does.ite Iff.rfl (fun _ => ?_) fun _ => replyVote_does h peer false false hT
  refine Does.writeLog h.requests hT fun log after hlog => Does.modifyNode ?_
  obtain rfl := (saveHardState_ok hlog).1
  refine At.bind ⟨rfl, h.requests, h.time, h.sends⟩
    (resetElectionTimer_does (by exact h.requests)) ?_
  rintro _ _ c₁ h₁ ⟨deadline, -, rfl⟩
  exact (replyVote_does h₁ peer false true hT').imp fun _ y hy => ⟨deadline, hy⟩

instance (x : Core) (peer time : ℤ) : Decidable (x.Suppresses peer time) :=
  inferInstanceAs (Decidable (_ ∧ _ ∧ _ ∧ _))

/-- A pre-vote request would be granted. -/
def Core.Ahead (x : Core) (request : RequestVote) : Prop :=
  x.currentTerm < request.term ∧
    isLogUpToDate x.log request.lastLogIndex request.lastLogTerm = true

instance (x : Core) (request : RequestVote) : Decidable (x.Ahead request) :=
  inferInstanceAs (Decidable (_ ∧ _))

/-- `HandleRequestVote` after the leader rule. -/
def Core.Considers (x : Core) (taken : Prop) (peer : ℤ) (request : RequestVote) (y : Core) : Prop :=
  if request.prevote = true then
    x.Answers taken peer (voteReply x (decide (x.Ahead request)) request.prevote) y
  else if x.currentTerm < request.term then
    ∃ deadline, (x.follow request.term deadline).Casts taken peer request y
  else x.Casts taken peer request y

/-- `HandleRequestVote`. -/
def Core.HandlesVote (x : Core) (time : ℤ) (taken : Prop) (peer : ℤ) (request : RequestVote)
    (y : Core) : Prop :=
  if request.valid x.ident peer = true then
    if request.prevote = true ∧ x.role = .leader ∨ x.Suppresses peer time then
      x.Answers taken peer (voteReply x false request.prevote) y
    else x.Considers taken peer request y
  else y = x

/-- The logs that a vote request leaves. -/
structure VoteTears (T : AbstractLog → Prop) (x : Core) (peer term : ℤ) : Prop where
  start : T x.log
  adopted : T (x.adopt term).log
  cast : T { (x.adopt term).log with hardState := some ((x.adopt term).currentTerm, peer) }

theorem considers_does (h : At x time taken c) (peer : ℤ) (request : RequestVote)
    (hT : VoteTears T x peer request.term) :
    Does (if request.prevote then
        replyVote peer request.prevote (x.currentTerm < request.term ∧
          isLogUpToDate x.log request.lastLogIndex request.lastLogTerm)
      else if x.currentTerm < request.term then do
        becomeFollower request.term
        castVote peer request
      else castVote peer request) c (fun _ y => x.Considers taken peer request y) T := by
  refine Does.ite Iff.rfl (fun _ => replyVote_does h peer request.prevote _ hT.start) fun _ =>
    Does.ite Iff.rfl (fun hnew => ?_) fun hold => ?_
  · obtain rfl := h.core
    refine h.bind (becomeFollower_does request.term h.requests hT.start hT.adopted) ?_
    rintro _ _ c₁ h₁ ⟨deadline, rfl⟩
    exact (castVote_does h₁ peer request hT.adopted hT.cast).imp fun _ y hy => ⟨deadline, hy⟩
  · have hcast := hT.cast
    rw [Core.adopt_of_le (not_lt.mp hold)] at hcast
    exact castVote_does h peer request hT.start hcast

theorem handleRequestVote_does (h : At x (reading c.env) taken c) (peer : ℤ) (request : RequestVote)
    (hT : request.valid x.ident peer = true → VoteTears T x peer request.term) :
    Does (handleRequestVote peer request) c
      (fun _ y => x.HandlesVote (reading c.env) taken peer request y) T := by
  obtain rfl := h.core
  rw [handleRequestVote]
  refine Does.getNode (Does.getLog ?_)
  rw [ite_not]
  refine Does.ite Iff.rfl (fun hvalid => ?_) fun _ => Does.pure h.requests rfl
  have hT := hT hvalid
  refine Does.branch (fun hlead => ?_) fun hlead => ?_
  · refine (replyVote_does h peer _ _ hT.start).imp fun _ y hy => ?_
    rw [if_pos (.inl hlead)]
    exact hy
  refine h.bind (suppressed_does peer h.requests) ?_
  rintro b _ c₁ h₁ ⟨rfl, hb⟩
  refine Does.branch (fun hheard => ?_) fun hheard => ?_
  · refine (replyVote_does h₁ peer _ _ hT.start).imp fun _ y hy => ?_
    rw [if_pos (.inr (hb.mp hheard))]
    exact hy
  · refine Does.imp (considers_does h₁ peer request hT) fun _ y hy => ?_
    rw [if_neg (by rintro (h | h); exacts [hlead h, hheard (hb.mpr h)])]
    exact hy

/-- `HandleRequestVoteResponse`. -/
def Core.HandlesVoteReply (x : Core) (peer : ℤ) (response : RequestVoteResponse) (y : Core) :
    Prop :=
  if x.running = true ∧ x.ident.isRemotePeer peer = true then
    if x.currentTerm < response.term then ∃ deadline, y = x.follow response.term deadline
    else if x.role = .preCandidate ∧ response.prevote = true ∧ response.voteGranted = true then
      if x.ident.quorumSize ≤ (insert peer x.votes).card then
        Core.Stands { x with votes := insert peer x.votes } y
      else y = { x with votes := insert peer x.votes }
    else if x.role = .candidate ∧ response.prevote = false ∧ response.term = x.currentTerm ∧
        response.voteGranted = true then
      Core.Leads { x with votes := insert peer x.votes } y ∨
        y = { x with votes := insert peer x.votes }
    else y = x
  else y = x

/-- The logs that a vote response leaves. -/
structure VoteReplyTears (T : AbstractLog → Prop) (x : Core) (peer term : ℤ) : Prop where
  start : T x.log
  adopted : T (x.adopt term).log
  stand : x.role = .preCandidate → x.ident.quorumSize ≤ (insert peer x.votes).card →
    Standing T x
  lead : x.role = .candidate → ∀ log, x.log.appendBatch (fun _ => true)
    (proposalEntries (x.log.lastIndex + 1) x.currentTerm [⟨[], none⟩]) = .ok log → T log

theorem handleRequestVoteResponse_does (peer : ℤ) (response : RequestVoteResponse)
    (hr : Requests c.node) (hT : VoteReplyTears T (core c) peer response.term) :
    Does (handleRequestVoteResponse peer response) c
      (fun _ y => (core c).HandlesVoteReply peer response y) T := by
  rw [handleRequestVoteResponse]
  refine Does.getNode ?_
  rw [ite_not]
  refine Does.ite Iff.rfl (fun _ => ?_) fun _ => Does.pure hr rfl
  refine Does.ite Iff.rfl (fun _ => becomeFollower_does _ hr hT.start hT.adopted) fun hterm => ?_
  have hle : response.term ≤ c.node.currentTerm := not_lt.mp hterm
  refine Does.branch (fun hpre => ?_) fun hpre => ?_
  · have hno : ¬((core c).role = .candidate ∧ response.prevote = false ∧
        response.term = (core c).currentTerm ∧ response.voteGranted = true) := fun h => by
      have := h.1.symm.trans hpre
      cases this
    simp only [if_neg hno]
    refine Does.ite ⟨fun h => ⟨hpre, h.1, h.2.1⟩, fun h => ⟨h.2.1, h.2.2, hle⟩⟩ (fun _ => ?_)
      fun _ => Does.pure hr rfl
    refine Does.modifyNode (Does.ite Iff.rfl (fun hquorum => ?_) fun _ => Does.pure hr rfl)
    exact becomeCandidate_does (by exact hr) { hT.stand hpre hquorum with }
  · have hno : ¬((core c).role = .preCandidate ∧ response.prevote = true ∧
        response.voteGranted = true) := fun h => hpre h.1
    simp only [if_neg hno]
    refine Does.branch (fun hother => ?_) fun hother => ?_
    · refine Does.pure hr ?_
      rw [if_neg]
      rintro ⟨hrole, hprevote, hsame, -⟩
      rcases hother with h | h | h
      · exact h hrole
      · rw [hprevote] at h
        cases h
      · exact h hsame
    push Not at hother
    refine Does.ite ⟨fun h => ⟨hother.1, Bool.eq_false_iff.mpr hother.2.1, hother.2.2, h⟩,
      fun h => h.2.2.2⟩ (fun hgranted => Does.modifyNode ?_) fun _ => Does.pure hr rfl
    split_ifs
    · exact Does.imp (becomeLeader_does (by exact hT.start) (by exact hT.lead hgranted.1))
        fun _ y hy => .inl hy
    · exact Does.pure hr (.inr rfl)

/-! ## `AppendEntries` -/

def appendReply (x : Core) (rpcId : ℕ) (success : Bool) (lastLogIndex : ℤ) : Message :=
  .appendEntriesResponse ⟨x.currentTerm, success, lastLogIndex, rpcId⟩

theorem replyAppend_does (h : At x time taken c) (peer : ℤ) (rpcId : ℕ) (success : Bool)
    (lastLogIndex : ℤ) (hT : T x.log) : Does (replyAppend peer rpcId success lastLogIndex) c
      (fun _ y => x.Answers taken peer (appendReply x rpcId success lastLogIndex) y) T := by
  obtain rfl := h.core
  exact h.reply peer rfl hT

/-- The last index that a request covers. -/
def covered (request : AppendEntries) : ℤ :=
  request.prevLogIndex + request.entries.length

/-- The entries of a request become part of the log, and what the leader has committed of them is
applied. -/
def Core.Accepts (x : Core) (taken : Prop) (peer : ℤ) (request : AppendEntries) (y : Core) :
    Prop :=
  ∃ missing log log' z, Reconciled x.log x.commitIndex request.entries missing log ∧
    log.appendBatch (fun _ => true) missing = .ok log' ∧
    Applied { x with
      log := log'
      commitIndex := max x.commitIndex (min request.leaderCommit (covered request)) } z ∧
    z.Rested ∧ z.Answers taken peer (appendReply z request.rpcId true (covered request)) y

/-- A request of the current term, handled at a time. -/
def Core.FollowsLeader (x : Core) (time : ℤ) (taken : Prop) (peer : ℤ) (request : AppendEntries)
    (y : Core) : Prop :=
  ∃ deadline, earliest time ≤ deadline ∧
    if x.log.getTerm request.prevLogIndex = request.prevLogTerm then
      Core.Accepts { x with leaderId := peer, electionDeadline := deadline } taken peer request y
    else Core.Answers { x with leaderId := peer, electionDeadline := deadline } taken peer
      (appendReply x request.rpcId false (rejectHint x.log request.prevLogIndex)) y

/-- `HandleAppendEntries`. -/
def Core.HandlesAppend (x : Core) (time : ℤ) (taken : Prop) (peer : ℤ) (request : AppendEntries)
    (y : Core) : Prop :=
  if request.valid x.ident peer = true then
    if request.term < x.currentTerm then
      x.Answers taken peer (appendReply x request.rpcId false x.log.lastIndex) y
    else if x.currentTerm < request.term ∨ x.role ≠ .follower then
      ∃ deadline, (x.follow request.term deadline).FollowsLeader time taken peer request y
    else x.FollowsLeader time taken peer request y
  else y = x

/-- The logs that an `AppendEntries` leaves : the log before it, and what the entries make of it. -/
structure AppendTears (T : AbstractLog → Prop) (x : Core) (request : AppendEntries) : Prop where
  start : T x.log
  adopted : T (x.adopt request.term).log
  reconciled : (x.adopt request.term).log.getTerm request.prevLogIndex = request.prevLogTerm →
    ∀ missing log, Reconciled (x.adopt request.term).log x.commitIndex
      request.entries missing log → T log ∧
      ∀ log', log.appendBatch (fun _ => true) missing = .ok log' → T log'

theorem appendMissing_does (missing : List LogEntry) (hr : Requests c.node) (hT : T c.log) :
    Does (appendMissing missing) c (fun _ y => ∃ log,
      c.log.appendBatch (fun _ => true) missing = .ok log ∧ y = { core c with log := log }) T := by
  rw [appendMissing]
  split_ifs with hnil
  · obtain rfl := List.isEmpty_iff.mp hnil
    exact Does.pure hr ⟨c.log, by simp [AbstractLog.appendBatch, AbstractLog.checkAppend], rfl⟩
  · exact Does.onFailure (Still.modifyNode_same (fun _ => rfl) fun _ => rfl)
      (Does.writeLog_last hr hT fun log hlog => ⟨log, hlog, rfl⟩)

theorem acceptEntries_does (h : At x time taken c) (peer : ℤ) (request : AppendEntries)
    (h0 : 0 ≤ x.log.snapshot.index)
    (hsorted : request.entries.Pairwise fun e e' => e.index < e'.index) (hT : T x.log)
    (hrec : ∀ missing log, Reconciled x.log x.commitIndex request.entries missing log →
      T log ∧ ∀ log', log.appendBatch (fun _ => true) missing = .ok log' → T log')
    (hclosed : Closed T) :
    Does (acceptEntries peer request) c (fun _ y => x.Accepts taken peer request y) T := by
  obtain rfl := h.core
  rw [acceptEntries]
  refine h.bind (S := fun missing y => Reconciled c.log c.node.commitIndex request.entries
    missing y.log ∧ y = { core c with log := y.log }) ?_ fun missing y c₁ h₁ ⟨hrec₁, hy⟩ => ?_
  · refine wp_mono (wp_reconcile h0 hsorted) ?_ ?_
    · rintro missing c' ⟨hrec', after, hc'⟩
      rw [hc']
      exact ⟨h.requests, .crashing after, hrec', rfl⟩
    · rintro _ c' ⟨after, hc'⟩
      rw [hc']
      exact ⟨h.requests, hT⟩
  obtain ⟨hT₁, hT₂⟩ := hrec missing y.log hrec₁
  obtain rfl := h₁.core
  refine h₁.bind (appendMissing_does missing h₁.requests hT₁) ?_
  rintro _ _ c₂ h₂ ⟨log, hlog, hx₂⟩
  obtain rfl := h₂.core
  have hT₂ : T c₂.log := by
    rw [show c₂.log = log from congrArg Core.log hx₂]
    exact hT₂ log hlog
  refine Does.get (Does.observe (Does.modifyNode ?_))
  refine At.bind ⟨rfl, h₂.requests, h₂.time, h₂.sends⟩
    (applyCommitted_does (by exact h₂.requests) (by exact hT₂)) fun _ z c₃ h₃ ⟨happ, hrest⟩ => ?_
  refine (replyAppend_does h₃ peer request.rpcId true _ (hclosed _ _ _ hT₂ happ.log)).imp
    fun _ y hans => ⟨missing, c₁.log, log, z, hrec₁, hlog, ?_, hrest, hans⟩
  have happ : Applied { core c₂ with
      commitIndex := max (core c₂).commitIndex (min request.leaderCommit (covered request)) } z :=
    happ
  rw [hx₂, hy] at happ
  exact happ

theorem followLeader_does (h : At x time taken c) (peer : ℤ) (request : AppendEntries)
    (h0 : 0 ≤ x.log.snapshot.index)
    (hsorted : request.entries.Pairwise fun e e' => e.index < e'.index) (hT : T x.log)
    (hrec : x.log.getTerm request.prevLogIndex = request.prevLogTerm → ∀ missing log,
      Reconciled x.log x.commitIndex request.entries missing log →
      T log ∧ ∀ log', log.appendBatch (fun _ => true) missing = .ok log' → T log')
    (hclosed : Closed T) :
    Does (followLeader peer request) c
      (fun _ y => x.FollowsLeader time taken peer request y) T := by
  obtain rfl := h.core
  rw [followLeader]
  refine Does.modifyNode (At.bind ⟨rfl, h.requests, h.time, h.sends⟩
    (resetElectionTimer_does (by exact h.requests)) ?_)
  rintro _ _ c₁ h₁ ⟨deadline, hdeadline, rfl⟩
  refine Does.getLog ?_
  rw [show c₁.log = c.log from congrArg Core.log h₁.core]
  exact Does.imp (Does.ite Iff.rfl (fun hmatch => acceptEntries_does h₁ peer request h0 hsorted hT
    (hrec hmatch) hclosed) fun _ => replyAppend_does h₁ peer request.rpcId false _ hT)
    fun _ y hy => ⟨deadline, (add_le_add_left h.time _).trans hdeadline, hy⟩

theorem AppendEntries.valid_entries {request : AppendEntries} {n : Node}
    (h : request.valid n peer = true) : EntriesFit request.term (request.prevLogIndex + 1)
      request.prevLogTerm request.entries := by
  rw [AppendEntries.valid, Bool.and_eq_true] at h
  exact entriesFit_of_valid h.2

theorem handleAppendEntries_does (h : At x time taken c) (peer : ℤ) (request : AppendEntries)
    (h0 : 0 ≤ x.log.snapshot.index) (hT₀ : T x.log)
    (hT : request.valid x.ident peer = true → x.currentTerm ≤ request.term →
      AppendTears T x request) (hclosed : Closed T) : Does (handleAppendEntries peer request) c
      (fun _ y => x.HandlesAppend time taken peer request y) T := by
  obtain rfl := h.core
  rw [handleAppendEntries]
  refine Does.getNode (Does.getLog ?_)
  rw [ite_not]
  refine Does.ite Iff.rfl (fun hvalid => ?_) fun _ => Does.pure h.requests rfl
  have hsorted := (AppendEntries.valid_entries hvalid).sorted
  refine Does.ite Iff.rfl (fun _ => replyAppend_does h peer _ _ _ hT₀) fun hterm => ?_
  have hT := hT hvalid (not_lt.mp hterm)
  refine Does.ite Iff.rfl (fun _ => ?_) fun hsame => ?_
  · refine h.bind (becomeFollower_does request.term h.requests hT.start hT.adopted) ?_
    rintro _ _ c₁ h₁ ⟨deadline, rfl⟩
    refine (followLeader_does h₁ peer request ?_ hsorted hT.adopted ?_ hclosed).imp
      fun _ y hy => ⟨deadline, hy⟩
    · rw [Core.follow, Core.adopt_snapshot]
      exact h0
    · rw [Core.follow, Core.adopt_commitIndex]
      exact hT.reconciled
  · push Not at hsame
    have hrec := hT.reconciled
    rw [Core.adopt_of_le (by exact hsame.1)] at hrec
    exact followLeader_does h peer request h0 hsorted hT.start hrec hclosed

theorem noteSuccess_does (peer : ℤ) (flight : Inflight) (hr : Requests c.node) (hT : T c.log)
    (hclosed : Closed T) : Does (noteSuccess peer flight) c (fun _ y => (core c).Advances y) T := by
  rw [noteSuccess]
  have hr₁ : Requests (c.node.setInflight peer {}) := hr.setInflight peer fun m hm => by cases hm
  refine Does.modifyNode (Does.getNode (Does.bind (advanceCommitIndex_does (by exact hr₁)
    (by exact hT)) fun _ c₂ hr₂ _ hx₂ => ?_))
  obtain ⟨commit, hcommit, happ, hrest⟩ := hx₂
  exact Does.still (Still.finishReadIndexRounds.bind fun _ =>
    (Still.broadcastIfCommitted _).bind fun _ => Still.sendIfBehind peer) hr₂
    (fun _ => ⟨commit, hcommit, happ, hrest⟩) (hclosed _ _ _ hT happ.log)

theorem noteRejection_still (peer lastLogIndex : ℤ) : Still (noteRejection peer lastLogIndex) :=
  Still.bind
    (Still.modifyNode (fun _ hr => hr.setInflight peer fun m hm => by cases hm) fun _ => rfl)
    fun _ => Still.finishReadIndexRounds.bind fun _ => Still.sendAppendEntries peer

theorem useAppendResponse_does (peer : ℤ) (response : AppendEntriesResponse)
    (hr : Requests c.node) (hT : T c.log) (hclosed : Closed T) :
    Does (useAppendResponse peer response) c (fun _ y => y = core c ∨ (core c).Advances y) T := by
  rw [useAppendResponse]
  refine Does.getNode ?_
  dsimp only
  split_ifs
  · exact Does.still Still.finishReadIndexRounds hr (fun _ => .inl rfl) hT
  · exact Does.still Still.finishReadIndexRounds hr (fun _ => .inl rfl) hT
  · exact (noteSuccess_does peer _ hr hT hclosed).imp fun _ y hy => .inr hy
  · exact Does.still (noteRejection_still peer _) hr (fun _ => .inl rfl) hT

/-- A reply of a peer with a higher term ends what the node is doing. -/
def Core.Yields (x : Core) (peer term : ℤ) (y : Core) : Prop :=
  (x.running = true ∧ x.ident.isRemotePeer peer = true ∧ x.currentTerm < term) ∧
    ∃ deadline, y = x.follow term deadline

/-- `HandleAppendEntriesResponse` : a higher term is adopted, or a leader may commit. -/
def Core.HandlesAppendReply (x : Core) (peer term : ℤ) (y : Core) : Prop :=
  y = x ∨ x.Yields peer term y ∨ x.running = true ∧ x.Advances y

theorem handleAppendEntriesResponse_does (peer : ℤ) (response : AppendEntriesResponse)
    (hr : Requests c.node) (hT : T c.log) (hT' : T ((core c).adopt response.term).log)
    (hclosed : Closed T) : Does (handleAppendEntriesResponse peer response) c
      (fun _ y => (core c).HandlesAppendReply peer response.term y) T := by
  rw [handleAppendEntriesResponse]
  refine Does.getNode ?_
  split_ifs with hfrom hnew
  · exact (becomeFollower_does _ hr hT hT').imp
      fun _ y hy => .inr (.inl ⟨⟨hfrom.1, hfrom.2, hnew⟩, hy⟩)
  · exact Does.pure hr (.inl rfl)
  · refine Does.still_bind (Still.notePeerContact peer) hr hT fun _ c₁ hr₁ _ hx₁ => ?_
    refine Does.still_bind Still.checkReadIndexTimeout hr₁ (Does.of_core hx₁ hT)
      fun _ c₂ hr₂ _ hx₂ => ?_
    have hx₂ := hx₂.trans hx₁
    refine Does.still_bind (Still.countProbe peer response) hr₂ (Does.of_core hx₂ hT)
      fun _ c₃ hr₃ _ hx₃ => ?_
    have hx₃ := hx₃.trans hx₂
    refine (useAppendResponse_does peer response hr₃ (Does.of_core hx₃ hT) hclosed).imp
      fun _ y hy => ?_
    rw [hx₃] at hy
    exact hy.imp_right fun hy => .inr ⟨hfrom.1, hy⟩
  · exact Does.pure hr (.inl rfl)

/-! ## `InstallSnapshot` -/

def installReply (x : Core) (rpcId : ℕ) (success complete : Bool) : Message :=
  .installSnapshotResponse ⟨x.currentTerm, success, complete, rpcId⟩

theorem replyInstall_does (h : At x time taken c) (peer : ℤ) (rpcId : ℕ)
    (success complete : Bool) (hT : T x.log) : Does (replyInstall peer rpcId success complete) c
      (fun _ y => x.Answers taken peer (installReply x rpcId success complete) y) T := by
  obtain rfl := h.core
  exact h.reply peer rfl hT

/-- A core with another partial snapshot. -/
def Core.holding (x : Core) (received : SnapshotReceive) : Core :=
  { x with snapshotReceive := received }

/-- A chunk continues what was received, or starts a snapshot. -/
def Core.Fits (x : Core) (request : InstallSnapshot) : Prop :=
  (x.snapshotReceive.start request).index = request.lastIncludedIndex ∧
    (x.snapshotReceive.start request).term = request.lastIncludedTerm ∧
    request.offset = (x.snapshotReceive.start request).data.length

instance (x : Core) (request : InstallSnapshot) : Decidable (x.Fits request) :=
  inferInstanceAs (Decidable (_ ∧ _ ∧ _))

/-- What was received, with a chunk that fits. -/
def Core.extended (x : Core) (request : InstallSnapshot) : SnapshotReceive :=
  { x.snapshotReceive.start request with
    data := (x.snapshotReceive.start request).data ++ request.data }

/-- The snapshot that a last chunk completes. -/
def Core.complete (x : Core) (request : InstallSnapshot) : Snapshot :=
  ⟨request.lastIncludedIndex, request.lastIncludedTerm, (x.extended request).data⟩

/-- A chunk is taken. -/
def Core.Receives (x : Core) (taken : Prop) (peer : ℤ) (request : InstallSnapshot) (y : Core) :
    Prop :=
  if x.Fits request then
    if kMaxSnapshotBytes < (x.extended request).data.length then
      (x.holding {}).Answers taken peer (installReply x request.rpcId false false) y
    else if request.done = true then
      ∃ z, (x.holding (x.extended request)).Installs (x.complete request) z ∧
        z.Answers taken peer (installReply x request.rpcId true true) y
    else (x.holding (x.extended request)).Answers taken peer
      (installReply x request.rpcId true false) y
  else (x.holding {}).Answers taken peer (installReply x request.rpcId false false) y

theorem At.replyHolding (h : At x time taken c) (received : SnapshotReceive) (peer : ℤ) (rpcId : ℕ)
    (success complete : Bool) (hT : T x.log) :
    Does (do
      modifyNode fun n => { n with snapshotReceive := received }
      replyInstall peer rpcId success complete) c (fun _ y => (x.holding received).Answers taken
        peer (installReply x rpcId success complete) y) T := by
  obtain rfl := h.core
  have h' : At ((Local.core c).holding received) time taken
      { c with node := { c.node with snapshotReceive := received } } :=
    ⟨rfl, h.requests, h.time, h.sends⟩
  exact Does.modifyNode (replyInstall_does h' peer rpcId success complete hT)

theorem receiveChunk_does (h : At x time taken c) (peer : ℤ) (request : InstallSnapshot)
    (hT : Installing T x.log (x.complete request)) :
    Does (receiveChunk peer request) c (fun _ y => x.Receives taken peer request y) T := by
  obtain rfl := h.core
  rw [receiveChunk]
  refine Does.getNode (Does.ite Iff.rfl (fun _ => Does.ite Iff.rfl
    (fun _ => h.replyHolding _ peer _ _ _ hT.start) fun _ => ?_)
    fun _ => h.replyHolding _ peer _ _ _ hT.start)
  rw [ite_not]
  refine Does.ite Iff.rfl (fun _ => ?_) fun _ => h.replyHolding _ peer _ _ _ hT.start
  refine Does.modifyNode (At.bind ⟨rfl, h.requests, h.time, h.sends⟩ (installReceived_does
    ((core c).complete request) (by exact h.requests) (by exact hT)) ?_)
  rintro _ z c₁ h₁ ⟨staged, hstage, hinstall, hz⟩
  refine (replyInstall_does h₁ peer _ _ _ (hT.installed staged _ hstage hinstall)).imp
    fun _ y hy => ⟨z, ⟨staged, hstage, hinstall, hz⟩, ?_⟩
  have hreply : installReply z request.rpcId true true =
      installReply (core c) request.rpcId true true := by
    rw [hz]
    rfl
  rwa [hreply] at hy

/-- A request of the current term. -/
def Core.FollowsSnapshot (x : Core) (taken : Prop) (peer : ℤ) (request : InstallSnapshot)
    (y : Core) : Prop :=
  ∃ deadline, if request.lastIncludedIndex ≤ x.lastApplied then
      Core.Answers { x with
        leaderId := peer
        electionDeadline := deadline
        snapshotReceive := {} } taken peer (installReply x request.rpcId true true) y
    else if x.applyInflight = true then
      Core.Answers { x with leaderId := peer, electionDeadline := deadline } taken peer
        (installReply x request.rpcId false false) y
    else if kMaxSnapshotBytes - request.data.length < request.offset.toNat then
      Core.Answers { x with
        leaderId := peer
        electionDeadline := deadline
        snapshotReceive := {} } taken peer (installReply x request.rpcId false false) y
    else
      Core.Receives { x with leaderId := peer, electionDeadline := deadline } taken peer request y

theorem followSnapshot_does (h : At x time taken c) (peer : ℤ) (request : InstallSnapshot)
    (hT : T x.log) (hT' : x.lastApplied < request.lastIncludedIndex →
      Installing T x.log (x.complete request)) :
    Does (followSnapshot peer request) c (fun _ y => x.FollowsSnapshot taken peer request y) T := by
  obtain rfl := h.core
  rw [followSnapshot]
  refine Does.modifyNode (At.bind ⟨rfl, h.requests, h.time, h.sends⟩
    (resetElectionTimer_does (by exact h.requests)) ?_)
  rintro _ _ c₁ h₁ ⟨deadline, -, rfl⟩
  have happlied₁ : c₁.node.lastApplied = c.node.lastApplied := congrArg Core.lastApplied h₁.core
  have hflight₁ : c₁.node.applyInflight = c.node.applyInflight :=
    congrArg Core.applyInflight h₁.core
  refine Does.getNode (Does.imp (Does.ite (by rw [happlied₁]; rfl)
    (fun _ => h₁.replyHolding {} peer _ true true hT) fun hlt => Does.ite (by rw [hflight₁]; rfl)
      (fun _ => replyInstall_does h₁ peer _ false false hT) fun _ => Does.ite Iff.rfl
        (fun _ => h₁.replyHolding {} peer _ false false hT) fun _ =>
          receiveChunk_does h₁ peer request (hT' (not_le.mp hlt))) fun _ y hy => ⟨deadline, hy⟩)

/-- `HandleInstallSnapshot`. -/
def Core.HandlesInstall (x : Core) (taken : Prop) (peer : ℤ) (request : InstallSnapshot)
    (y : Core) : Prop :=
  if request.valid x.ident peer = true then
    if request.term < x.currentTerm then
      x.Answers taken peer (installReply x request.rpcId false false) y
    else if x.currentTerm < request.term then
      ∃ deadline, (x.follow request.term deadline).FollowsSnapshot taken peer request y
    else x.FollowsSnapshot taken peer request y
  else y = x

/-- The logs that an `InstallSnapshot` leaves. -/
structure InstallTears (T : AbstractLog → Prop) (x : Core) (request : InstallSnapshot) :
    Prop where
  start : T x.log
  adopted : T (x.adopt request.term).log
  install : x.lastApplied < request.lastIncludedIndex → ∀ s : Snapshot,
    s.index = request.lastIncludedIndex → s.term = request.lastIncludedTerm →
    Installing T (x.adopt request.term).log s

theorem handleInstallSnapshot_does (h : At x time taken c) (peer : ℤ) (request : InstallSnapshot)
    (hT₀ : T x.log) (hT : request.valid x.ident peer = true → x.currentTerm ≤ request.term →
      InstallTears T x request) : Does (handleInstallSnapshot peer request) c
      (fun _ y => x.HandlesInstall taken peer request y) T := by
  obtain rfl := h.core
  rw [handleInstallSnapshot]
  refine Does.getNode ?_
  rw [ite_not]
  refine Does.ite Iff.rfl (fun hvalid => ?_) fun _ => Does.pure h.requests rfl
  refine Does.ite Iff.rfl (fun _ => replyInstall_does h peer _ _ _ hT₀) fun hterm => ?_
  have hT := hT hvalid (not_lt.mp hterm)
  refine Does.ite Iff.rfl (fun _ => ?_) fun hsame => ?_
  · refine h.bind (becomeFollower_does request.term h.requests hT.start hT.adopted) ?_
    rintro _ _ c₁ h₁ ⟨deadline, rfl⟩
    refine (followSnapshot_does h₁ peer request hT.adopted fun hlt => ?_).imp
      fun _ y hy => ⟨deadline, hy⟩
    rw [Core.follow, Core.adopt_eq] at hlt
    exact hT.install hlt _ rfl rfl
  · have hinstall := hT.install
    rw [Core.adopt_of_le (not_lt.mp (by exact hsame))] at hinstall
    exact followSnapshot_does h peer request hT.start fun hlt => hinstall hlt _ rfl rfl

theorem handleInstallSnapshotResponse_does (peer : ℤ) (response : InstallSnapshotResponse)
    (hr : Requests c.node) (hT : T c.log) (hT' : T ((core c).adopt response.term).log) :
    Does (handleInstallSnapshotResponse peer response) c
      (fun _ y => y = core c ∨ (core c).Yields peer response.term y) T := by
  rw [handleInstallSnapshotResponse]
  refine Does.getNode (Does.branch (fun _ => Does.pure hr (.inl rfl)) fun hfrom =>
    Does.branch (fun hnew => ?_) fun _ =>
      Does.branch (fun _ => Does.pure hr (.inl rfl)) fun _ => ?_)
  · have hfrom := not_not.mp hfrom
    exact (becomeFollower_does _ hr hT hT').imp
      fun _ y hy => .inr ⟨⟨hfrom.1, hfrom.2, hnew⟩, hy⟩
  refine Does.still_bind (Still.notePeerContact peer) hr hT fun _ c₁ hr₁ _ hx₁ => ?_
  refine Does.still (Still.ite (Still.pure ()) (Still.ite
    (Still.bind (Still.setInflight peer (hr peer ·)) fun _ => Still.sendSnapshotChunk peer)
    (Still.ite
      (Still.bind (Still.setInflight peer (hr peer ·)) fun _ => Still.sendSnapshotChunk peer)
      (Still.bind (Still.modifyNode (fun n hn => hn.setInflight peer fun m hm => ?_) fun _ => rfl)
        fun _ => Still.sendIfBehind peer)))) hr₁ (fun _ => .inl hx₁) (Does.of_core hx₁ hT)
  cases hm

/-! ## The timer, start and stop, and the executor -/

theorem Core.Stands.tears (h : x.Stands y) (hT : Standing T x) (hclosed : Closed T) : T y.log := by
  obtain ⟨hmax, deadline, rfl | hlead⟩ := h
  · exact hT.hard hmax
  · rcases hlead with rfl | ⟨-, -, log, hlog, commit, -, happ, -⟩
    · exact hT.hard hmax
    · exact hclosed _ _ _ (hT.empty hmax log hlog) happ.log

/-- An election or a pre-vote starts, when the election timer has ended. -/
def Core.Campaigns (x : Core) (time : ℤ) (y : Core) : Prop :=
  y = x ∨ (x.running = true ∧ x.role ≠ .leader ∧ x.electionDeadline ≤ time) ∧
    ((x.ident.quorumSize = 1 ∧ x.Stands y) ∨ ∃ deadline, y = x.canvass deadline)

/-- A leader without a majority steps down. -/
def Core.StepsDown (x y : Core) : Prop :=
  y = x ∨ (x.role = .leader ∧ 1 < x.ident.quorumSize) ∧
    ∃ deadline, y = x.follow x.currentTerm deadline

/-- `Tick` : a campaign may start, and a leader may step down. -/
def Core.Ticks (x : Core) (time : ℤ) (y : Core) : Prop :=
  ∃ z, x.Campaigns time z ∧ z.StepsDown y

theorem tickElection_does (hr : Requests c.node) (hrun : c.node.running = true)
    (hT : Standing T (core c)) :
    Does tickElection c (fun _ y => (core c).Campaigns (reading c.env) y) T := by
  rw [tickElection]
  refine Does.getNode ?_
  split_ifs with hrole
  · refine Does.now ?_
    split_ifs with hended
    · exact Does.imp (becomePreCandidate_does (by exact hr) { hT with })
        fun _ y hy => .inr ⟨⟨hrun, hrole, hended⟩, hy⟩
    · exact Does.pure hr (.inl rfl)
  · exact Does.pure hr (.inl rfl)

theorem checkQuorum_does (hr : Requests c.node) (hT : T c.log) :
    Does checkQuorum c (fun _ y => y = core c ∨ 1 < (core c).ident.quorumSize ∧
      ∃ deadline, y = (core c).follow (core c).currentTerm deadline) T := by
  rw [checkQuorum]
  refine Does.getNode (Does.still_bind (Still.notePeerContact _) hr hT fun _ c₁ hr₁ _ hx₁ => ?_)
  refine Does.branch (fun _ => Does.pure hr₁ (.inl hx₁)) fun hsolo => ?_
  have hT₁ := Does.of_core hx₁ hT
  refine Does.still_bind Still.now hr₁ hT₁ fun time c₂ hr₂ _ hx₂ => Does.getNode ?_
  have hx₂ := hx₂.trans hx₁
  have hT₂ := Does.of_core hx₂ hT
  split_ifs
  · exact Does.pure hr₂ (.inl hx₂)
  · exact Does.pure hr₂ (.inl hx₂)
  refine (becomeFollower_does _ hr₂ hT₂ ?_).imp
    fun _ y hy => .inr ⟨not_le.mp (by exact hsolo), ?_⟩
  · change T ((core c₂).adopt (core c₂).currentTerm).log
    rw [Core.adopt_of_le le_rfl]
    exact hT₂
  · change ∃ deadline, y = (core c₂).follow (core c₂).currentTerm deadline at hy
    rwa [hx₂] at hy

theorem tickLeader_does (hr : Requests c.node) (hT : T c.log) :
    Does tickLeader c (fun _ y => (core c).StepsDown y) T := by
  rw [tickLeader]
  refine Does.getNode (Does.branch (fun hrole => ?_) fun _ => Does.pure hr (.inl rfl))
  refine Does.still_bind Still.tickSend hr hT fun _ c₁ hr₁ _ hx₁ => ?_
  refine Does.still_bind Still.checkReadIndexTimeout hr₁ (Does.of_core hx₁ hT)
    fun _ c₂ hr₂ _ hx₂ => ?_
  have hx₂ := hx₂.trans hx₁
  refine (checkQuorum_does hr₂ (Does.of_core hx₂ hT)).bind fun _ c₃ hr₃ _ hx₃ => ?_
  rw [hx₂] at hx₃
  have hlog₃ : c₃.log = c.log := by
    rcases hx₃ with hx₃ | ⟨-, deadline, hx₃⟩
    · exact congrArg Core.log hx₃
    · have hlog := congrArg Core.log hx₃
      exact hlog.trans (congrArg Core.log (Core.adopt_of_le (x := core c) le_rfl))
  have hreads : Still tickReads := Still.getNode fun _ => Still.ite (Still.pure ())
    (Still.expireUncommittedProposals.bind fun _ => Still.finishReadIndexRounds)
  exact Does.still hreads hr₃ (fun _ => hx₃.imp_right fun h => ⟨⟨hrole, h.1⟩, h.2⟩) (hlog₃ ▸ hT)

theorem tick_does (hr : Requests c.node) (hT : Standing T (core c)) (hclosed : Closed T) :
    Does tick c (fun _ y => (core c).Ticks (reading c.env) y) T := by
  rw [tick]
  refine Does.getNode ?_
  rw [ite_not]
  split_ifs with hrun
  · refine (tickElection_does hr hrun hT).bind fun _ c₁ hr₁ _ hx₁ => ?_
    have hT₁ : T c₁.log := by
      rcases hx₁ with hx₁ | ⟨-, ⟨-, hx₁⟩ | ⟨deadline, hx₁⟩⟩
      · exact Does.of_core hx₁ hT.start
      · exact hx₁.tears hT hclosed
      · have hlog₁ : c₁.log = c.log := congrArg Core.log hx₁
        exact hlog₁ ▸ hT.start
    exact (tickLeader_does hr₁ hT₁).imp fun _ y hy => ⟨core c₁, hx₁, hy⟩
  · exact Does.pure hr ⟨core c, .inl rfl, .inl rfl⟩

/-- `Start` : a follower, which applies what is committed. -/
def Core.Starts (x y : Core) : Prop :=
  ∃ deadline, Applied (Core.follow { x with running := true } x.currentTerm deadline) y ∧ y.Rested

theorem start_does (hr : Requests c.node) (hT : T c.log) :
    Does start c (fun _ y => (core c).Starts y) T := by
  rw [start]
  refine Does.modifyNode (Does.getNode (Does.bind (becomeFollower_does c.node.currentTerm
    (by exact hr) (by exact hT) ?_) fun _ c₁ hr₁ _ ⟨deadline, hx₁⟩ => ?_))
  · rw [Core.adopt_of_le (by exact le_rfl)]
    exact hT
  have hlog₁ : c₁.log = c.log := by
    have hlog := congrArg Core.log hx₁
    exact hlog.trans (congrArg Core.log (Core.adopt_of_le (by exact le_rfl)))
  refine (applyCommitted_does hr₁ (hlog₁ ▸ hT)).imp fun _ y hy => ⟨deadline, ?_⟩
  rw [hx₁] at hy
  exact hy

theorem stop_does (hr : Requests c.node) (hT : T c.log) :
    Does stop c (fun _ y => y = { core c with
      running := false
      role := .follower
      leaderId := -1 }) T := by
  rw [stop]
  exact Does.modifyNode (Does.still ((Still.failPending _).bind fun _ =>
    (Still.clearReadIndexQueues _).bind fun _ => Still.modifyNode_same (fun _ => rfl) fun _ => rfl)
    (by exact hr) (fun _ => rfl) (by exact hT))

/-- The completion of a batch. -/
def Core.Completes (x y : Core) : Prop :=
  (x.exec.completions = [] ∧ y = x) ∨ ∃ completion rest, x.exec.completions = completion :: rest ∧
    Applied { x with
      exec := { x.exec with completions := rest }
      lastApplied := x.lastApplied + completion.count
      applyInflight := false } y ∧ y.Rested ∧ completion.first = x.lastApplied + 1

theorem runCompletion_does (hr : Requests c.node) (hT : T c.log) :
    Does runCompletion c (fun _ y => (core c).Completes y) T := by
  rw [runCompletion]
  refine Does.get ?_
  cases hq : c.exec.completions with
  | nil => exact Does.pure hr (.inl ⟨hq, rfl⟩)
  | cons completion rest =>
    refine Does.modify_bind ⟨.refl _, .inl rfl⟩ ?_
    cases completion.results with
    | error text => exact Does.modifyNode (Does.fail hr hT)
    | ok results =>
      refine Does.bind (finishApply_does _ _ results (by exact hr) (by exact hT))
        fun _ c₁ hr₁ _ ⟨hfirst, hx₁⟩ => Does.modifyNode ?_
      have hlog₁ : c₁.log = c.log := congrArg Core.log hx₁
      refine Does.imp (applyCommitted_does (by exact hr₁) (by exact hlog₁ ▸ hT))
        fun _ y hy => .inr ⟨completion, rest, hq, ?_, hy.2, hfirst⟩
      have happ : Applied { core c₁ with applyInflight := false } y := hy.1
      rw [hx₁] at happ
      exact happ

/-! ## Inputs -/

/-- What an input does to the core, when the time it reads first is `time`; under `taken`,
`PeerManager::Send` takes all messages. -/
def Core.Steps (x : Core) (time : ℤ) (taken : Prop) : Input → Core → Prop
  | .deliver e, y => match e.message with
    | .requestVote m => x.HandlesVote time taken e.src m y
    | .requestVoteResponse m => x.HandlesVoteReply e.src m y
    | .appendEntries m => x.HandlesAppend time taken e.src m y
    | .appendEntriesResponse m => x.HandlesAppendReply e.src m.term y
    | .installSnapshot m => x.HandlesInstall taken e.src m y
    | .installSnapshotResponse m => y = x ∨ x.Yields e.src m.term y
  | .tick, y => x.Ticks time y
  | .start, y => x.Starts y
  | .stop, y => y = { x with running := false, role := .follower, leaderId := -1 }
  | .propose proposals, y => x.Proposes proposals y
  | .work, y => y = { x with sm := y.sm, exec := y.exec } ∧
      (∀ commit, Executor.Within x.exec commit → Executor.Within y.exec commit) ∧
      (x.exec.job = none → y.exec = x.exec)
  | .completion, y => x.Completes y
  | .setSnapshotThreshold entries, y =>
    y = { x with snapshotThreshold := entries, lastSnapshotAttempt := x.log.snapshot.index }
  | .readIndex _ _, y | .setSnapshotChunkBytes _, y | .setLeaseReads _, y => y = x

/-- The logs that an input may leave when it throws. -/
def Tears (T : AbstractLog → Prop) (x : Core) : Input → Prop
  | .deliver e => match e.message with
    | .requestVote m => m.valid x.ident e.src = true → VoteTears T x e.src m.term
    | .requestVoteResponse m => VoteReplyTears T x e.src m.term
    | .appendEntries m => m.valid x.ident e.src = true → x.currentTerm ≤ m.term → AppendTears T x m
    | .appendEntriesResponse m => T (x.adopt m.term).log
    | .installSnapshot m =>
      m.valid x.ident e.src = true → x.currentTerm ≤ m.term → InstallTears T x m
    | .installSnapshotResponse m => T (x.adopt m.term).log
  | .tick => Standing T x
  | .propose proposals => x.role = .leader → Fitting proposals →
      ∀ log, x.log.appendBatch (fun _ => true)
      (proposalEntries (x.log.lastIndex + 1) x.currentTerm proposals) = .ok log → T log
  | _ => True

/-- **Every input does to the core what `Core.Steps` says**, or throws. -/
theorem input_does (input : Input) (hr : Requests c.node) (h0 : 0 ≤ c.log.snapshot.index)
    (hT₀ : T c.log) (hclosed : Closed T) (hT : Tears T (core c) input) : Does input.run c
      (fun _ y => (core c).Steps (reading c.env) (c.env.sends = []) input y) T := by
  have hat : At (core c) (reading c.env) (c.env.sends = []) c := ⟨rfl, hr, le_rfl, fun h => h⟩
  cases input with
  | deliver e =>
    obtain ⟨src, dst, inc, sentAt, message⟩ := e
    cases message with
    | requestVote m => exact handleRequestVote_does hat src m hT
    | requestVoteResponse m => exact handleRequestVoteResponse_does src m hr hT
    | appendEntries m => exact handleAppendEntries_does hat src m h0 hT₀ hT hclosed
    | appendEntriesResponse m => exact handleAppendEntriesResponse_does src m hr hT₀ hT hclosed
    | installSnapshot m => exact handleInstallSnapshot_does hat src m hT₀ hT
    | installSnapshotResponse m => exact handleInstallSnapshotResponse_does src m hr hT₀ hT
  | tick => exact tick_does hr hT hclosed
  | start => exact start_does hr hT₀
  | stop => exact stop_does hr hT₀
  | propose proposals =>
    exact (proposeBatch_does proposals hr hT₀ hT).bind fun _ c₁ hr₁ _ hx₁ => Does.pure hr₁ hx₁
  | readIndex onOk onFail =>
    exact Does.still ((Still.requestReadIndex onOk onFail).bind fun _ => Still.pure ()) hr
      (fun _ => rfl) hT₀
  | work => exact runWorker_does hr hT₀
  | completion => exact runCompletion_does hr hT₀
  | setSnapshotThreshold entries =>
    refine Does.getLog ?_
    split_ifs
    · exact Does.fail hr hT₀
    · exact Does.modifyNode_last hr rfl
  | setSnapshotChunkBytes bytes =>
    exact Does.still
      (Still.ite (Still.fail _) (Still.modifyNode_same (fun _ => rfl) fun _ => rfl)) hr
      (fun _ => rfl) hT₀
  | setLeaseReads enabled =>
    rw [Input.run, setLeaseReads]
    exact Does.still (Still.modifyNode_same (fun _ => rfl) fun _ => rfl) hr (fun _ => rfl) hT₀

theorem tears_trivial (x : Core) (input : Input) : Tears (fun _ => True) x input := by
  cases input with
  | deliver e =>
    obtain ⟨src, dst, inc, sentAt, message⟩ := e
    cases message with
    | requestVote m => exact fun _ => ⟨trivial, trivial, trivial⟩
    | requestVoteResponse m =>
      exact ⟨trivial, trivial, fun _ _ => ⟨trivial, fun _ => trivial, fun _ _ _ => trivial⟩,
        fun _ _ _ => trivial⟩
    | appendEntries m =>
      exact fun _ _ => ⟨trivial, trivial, fun _ _ _ _ => ⟨trivial, fun _ _ => trivial⟩⟩
    | installSnapshot m =>
      exact fun _ _ => ⟨trivial, trivial, fun _ _ _ _ =>
        ⟨trivial, fun _ _ => trivial, fun _ _ _ _ => trivial⟩⟩
    | appendEntriesResponse m => exact trivial
    | installSnapshotResponse m => exact trivial
  | tick => exact ⟨trivial, fun _ => trivial, fun _ _ _ => trivial⟩
  | propose proposals => exact fun _ _ _ _ => trivial
  | _ => exact trivial

/-- What an input that returns has done. -/
theorem steps_of_ok (input : Input) {c' : Context} (hr : Requests c.node)
    (h0 : 0 ≤ c.log.snapshot.index) (h : input.run c = .ok () c') : Requests c'.node ∧ Passed c c' ∧
      (core c).Steps (reading c.env) (c.env.sends = []) input (core c') := by
  have hdoes := input_does (T := fun _ => True) input hr h0 trivial (fun _ _ _ _ _ => trivial)
    (tears_trivial _ _)
  obtain ⟨hr', hpassed, hy⟩ := wp_of_ok hdoes h
  exact ⟨hr', hpassed, hy⟩

end RaftKV.Local
