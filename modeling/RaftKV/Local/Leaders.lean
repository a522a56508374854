import RaftKV.Local.Appends

/-!
# Whom a node takes for the leader

The role of a node, the leader it knows and the votes it has collected are written in many
places. `Posture.Move` says once how an input may change them, for every input of a node. A
node that is not a follower knows no other leader (`Led`), with one exception :
`HandleInstallSnapshot` steps down for a higher term only, so a leader, candidate or
pre-candidate that is handed a snapshot of its own term keeps its role and takes the sender for
the leader (`Usurps`). The invariant holds in a run exactly when that never happens.
-/

namespace RaftKV.Local

open RaftM

/-! ## Postures -/

/-- The role of a node and what belongs to it. -/
structure Posture where
  nodeId : ℤ
  running : Bool
  term : ℤ
  role : Role
  leaderId : ℤ
  votes : Finset ℤ

/-- The posture of a node. -/
def postureOf (n : Node) : Posture where
  nodeId := n.nodeId
  running := n.running
  term := n.currentTerm
  role := n.role
  leaderId := n.leaderId
  votes := n.votes

def Core.posture (x : Core) : Posture where
  nodeId := x.nodeId
  running := x.running
  term := x.currentTerm
  role := x.role
  leaderId := x.leaderId
  votes := x.votes

namespace Posture

/-- A follower that knows no leader, in a term that is not older than `term`. -/
def following (p : Posture) (term : ℤ) : Posture :=
  { p with term := max p.term term, role := .follower, leaderId := -1, votes := ∅ }

/-- How an input may change a posture; under `usurped`, a node that is not a follower may take
another for the leader. -/
inductive Move (usurped : Prop) (p : Posture) : Posture → Prop
  | stay : Move usurped p p
  | follow (term : ℤ) : Move usurped p (p.following term)
  | obey (term leader : ℤ) (h : leader ≠ p.nodeId) :
      Move usurped p { p.following term with leaderId := leader }
  | heed (leader : ℤ) (h : leader ≠ p.nodeId) (hrole : p.role = .follower) :
      Move usurped p { p with leaderId := leader }
  | usurp (leader : ℤ) (h : usurped) : Move usurped p { p with leaderId := leader }
  | tally (votes : Finset ℤ) (hrole : p.role = .preCandidate ∨ p.role = .candidate) :
      Move usurped p { p with votes := votes }
  | canvass (votes : Finset ℤ) :
      Move usurped p { p with role := .preCandidate, leaderId := -1, votes := votes }
  | stand (term : ℤ) (votes : Finset ℤ) :
      Move usurped p { p with term := term, role := .candidate, leaderId := -1, votes := votes }
  | lead (term : ℤ) (votes : Finset ℤ) :
      Move usurped p { p with term := term, role := .leader, leaderId := p.nodeId, votes := votes }
  | start : Move usurped p { p.following p.term with running := true }
  | stop : Move usurped p { p with running := false, role := .follower, leaderId := -1 }

end Posture

section Postures

variable {x y : Core} {taken : Prop} {peer time : ℤ}

theorem Core.Answers.posture {message : Message} (h : x.Answers taken peer message y) :
    y.posture = x.posture := by
  obtain ⟨replies, rfl, -⟩ := h
  rfl

theorem Core.follow_posture (x : Core) (term deadline : ℤ) :
    (x.follow term deadline).posture = x.posture.following term := by
  rw [Core.follow, Core.adopt_eq]
  rfl

theorem Applied.posture (h : Applied x y) : y.posture = x.posture := by
  rw [h.same]
  rfl

theorem Core.Advances.posture (h : x.Advances y) : y.posture = x.posture := by
  obtain ⟨commit, -, happ, -⟩ := h
  exact happ.posture

theorem Core.Proposes.posture {proposals : List Proposal} (h : x.Proposes proposals y) :
    y.posture = x.posture := by
  rcases h with rfl | ⟨-, -, log, -, hadv⟩
  · rfl
  · exact hadv.posture

theorem Core.Leads.posture (h : x.Leads y) :
    y.posture = { x.posture with role := .leader, leaderId := x.nodeId } :=
  Core.Proposes.posture (x := { x with role := .leader, leaderId := x.nodeId }) h

theorem Core.Stands.posture (h : x.Stands y) :
    y.posture = { x.posture with
        term := x.currentTerm + 1, role := .candidate, leaderId := -1, votes := {x.nodeId} } ∨
      y.posture = { x.posture with
        term := x.currentTerm + 1, role := .leader, leaderId := x.nodeId,
        votes := {x.nodeId} } := by
  obtain ⟨-, deadline, rfl | hlead⟩ := h
  · exact .inl rfl
  · exact .inr hlead.posture

theorem Core.Casts.posture {request : RequestVote} (h : x.Casts taken peer request y) :
    y.posture = x.posture := by
  unfold Core.Casts at h
  split_ifs at h
  · obtain ⟨deadline, h⟩ := h
    exact h.posture
  · exact h.posture

theorem Core.HandlesVote.posture {request : RequestVote}
    (h : x.HandlesVote time taken peer request y) :
    y.posture = x.posture ∨ y.posture = x.posture.following request.term := by
  unfold Core.HandlesVote Core.Considers at h
  split_ifs at h
  · exact .inl h.posture
  · exact .inl h.posture
  · obtain ⟨deadline, h⟩ := h
    exact .inr (h.posture.trans (x.follow_posture _ _))
  · exact .inl h.posture
  · exact .inl (congrArg Core.posture h)

theorem Core.Accepts.posture {request : AppendEntries} (h : x.Accepts taken peer request y) :
    y.posture = x.posture := by
  obtain ⟨missing, log, log', z, -, -, hz, -, hans⟩ := h
  exact hans.posture.trans hz.posture

theorem Core.FollowsLeader.posture {request : AppendEntries}
    (h : x.FollowsLeader time taken peer request y) :
    y.posture = { x.posture with leaderId := peer } := by
  obtain ⟨deadline, -, h⟩ := h
  split_ifs at h
  · exact h.posture
  · exact h.posture

/-- A valid request whose term is not old makes a follower. -/
theorem Core.HandlesAppend.posture {request : AppendEntries}
    (h : x.HandlesAppend time taken peer request y) (hvalid : request.valid x.ident peer = true)
    (hterm : x.currentTerm ≤ request.term) :
    (x.role = .follower ∧ x.currentTerm = request.term ∧
      y.posture = { x.posture with leaderId := peer }) ∨
      (x.currentTerm < request.term ∨ x.role ≠ .follower) ∧
        y.posture = { x.posture.following request.term with leaderId := peer } := by
  rw [Core.HandlesAppend, if_pos hvalid, if_neg (not_lt.mpr hterm)] at h
  split_ifs at h with hnew
  · obtain ⟨deadline, h⟩ := h
    rw [h.posture, x.follow_posture]
    exact .inr ⟨hnew, rfl⟩
  · push Not at hnew
    exact .inl ⟨hnew.2, le_antisymm hterm hnew.1, h.posture⟩

theorem Core.Installs.posture {s : Snapshot} (h : x.Installs s y) : y.posture = x.posture := by
  obtain ⟨staged, -, -, hy⟩ := h
  rw [hy]
  rfl

theorem Core.Receives.posture {request : InstallSnapshot} (h : x.Receives taken peer request y) :
    y.posture = x.posture := by
  unfold Core.Receives at h
  split_ifs at h
  · exact h.posture
  · obtain ⟨z, hz, hans⟩ := h
    exact hans.posture.trans hz.posture
  · exact h.posture
  · exact h.posture

theorem Core.FollowsSnapshot.posture {request : InstallSnapshot}
    (h : x.FollowsSnapshot taken peer request y) :
    y.posture = { x.posture with leaderId := peer } := by
  obtain ⟨deadline, h⟩ := h
  split_ifs at h
  · exact h.posture
  · exact h.posture
  · exact h.posture
  · exact h.posture

/-- A valid request whose term is not old makes a follower only if its term is new. -/
theorem Core.HandlesInstall.posture {request : InstallSnapshot}
    (h : x.HandlesInstall taken peer request y) (hvalid : request.valid x.ident peer = true)
    (hterm : x.currentTerm ≤ request.term) :
    y.posture = { (if x.currentTerm < request.term then x.posture.following request.term
      else x.posture) with leaderId := peer } := by
  rw [Core.HandlesInstall, if_pos hvalid, if_neg (not_lt.mpr hterm)] at h
  split_ifs at h ⊢
  · obtain ⟨deadline, h⟩ := h
    rw [h.posture, x.follow_posture]
  · exact h.posture

end Postures

/-! ## The moves of every input -/

/-- A node that is not a follower is handed a snapshot of its own term. -/
def Usurps (n : Node) : Input → Prop
  | .deliver e => match e.message with
    | .installSnapshot m => m.valid n e.src = true ∧ m.term = n.currentTerm ∧ n.role ≠ .follower
    | _ => False
  | _ => False

theorem Usurps.cases {n : Node} {input : Input} (h : Usurps n input) :
    ∃ src dst inc sentAt m, input = .deliver ⟨src, dst, inc, sentAt, .installSnapshot m⟩ ∧
      m.valid n src = true ∧ m.term = n.currentTerm ∧ n.role ≠ .follower := by
  cases input with
  | deliver e =>
    obtain ⟨src, dst, inc, sentAt, message⟩ := e
    cases message with
    | installSnapshot m => exact ⟨src, dst, inc, sentAt, m, rfl, h⟩
    | _ => cases h
  | _ => cases h

variable {peer : ℤ}

theorem ne_of_isRemotePeer {x : Core} (h : x.ident.isRemotePeer peer = true) : peer ≠ x.nodeId := by
  rw [Node.isRemotePeer, Bool.and_eq_true, decide_eq_true_eq] at h
  exact h.1

theorem mem_of_isRemotePeer {x : Core} (h : x.ident.isRemotePeer peer = true) :
    peer ∈ x.allPeers := by
  rw [Node.isRemotePeer, Bool.and_eq_true, decide_eq_true_eq, decide_eq_true_eq] at h
  exact h.2

theorem isRemotePeer_of_install {x : Core} {request : InstallSnapshot}
    (h : request.valid x.ident peer = true) : x.ident.isRemotePeer peer = true := by
  simp only [InstallSnapshot.valid, Bool.and_eq_true] at h
  exact h.1.1.1.1.1.1.1.1.2

theorem running_of_install {n : Node} {request : InstallSnapshot}
    (h : request.valid n peer = true) : n.running = true := by
  simp only [InstallSnapshot.valid, Bool.and_eq_true] at h
  exact h.1.1.1.1.1.1.1.1.1

section Moves

variable {x y : Core} {taken : Prop} {peer time : ℤ}

variable {usurped : Prop}

theorem Core.HandlesVoteReply.move {response : RequestVoteResponse}
    (h : x.HandlesVoteReply peer response y) : Posture.Move usurped x.posture y.posture := by
  unfold Core.HandlesVoteReply at h
  split_ifs at h with hfrom hnew hpre hquorum hcand
  · obtain ⟨deadline, rfl⟩ := h
    rw [x.follow_posture]
    exact .follow _
  · rcases h.posture with h | h
    · rw [h]
      exact .stand _ _
    · rw [h]
      exact .lead _ _
  · rw [h]
    exact .tally _ (.inl hpre.1)
  · rcases h with h | h
    · rw [h.posture]
      exact .lead _ _
    · rw [h]
      exact .tally _ (.inr hcand.1)
  · rw [h]
    exact .stay
  · rw [h]
    exact .stay

theorem Core.HandlesAppend.move {request : AppendEntries}
    (h : x.HandlesAppend time taken peer request y) : Posture.Move usurped x.posture y.posture := by
  by_cases hvalid : request.valid x.ident peer = true
  swap
  · rw [Core.HandlesAppend, if_neg hvalid] at h
    rw [h]
    exact .stay
  by_cases hold : request.term < x.currentTerm
  · rw [Core.HandlesAppend, if_pos hvalid, if_pos hold] at h
    rw [h.posture]
    exact .stay
  have hne := ne_of_isRemotePeer (appendChecks_of_valid hvalid).peer
  rcases h.posture hvalid (not_lt.mp hold) with ⟨hrole, -, h⟩ | ⟨-, h⟩
  · rw [h]
    exact .heed peer hne hrole
  · rw [h]
    exact .obey _ peer hne

theorem Core.HandlesInstall.move {request : InstallSnapshot}
    (h : x.HandlesInstall taken peer request y)
    (hu : request.valid x.ident peer = true ∧ request.term = x.currentTerm ∧ x.role ≠ .follower →
      usurped) : Posture.Move usurped x.posture y.posture := by
  by_cases hvalid : request.valid x.ident peer = true
  swap
  · rw [Core.HandlesInstall, if_neg hvalid] at h
    rw [h]
    exact .stay
  by_cases hold : request.term < x.currentTerm
  · rw [Core.HandlesInstall, if_pos hvalid, if_pos hold] at h
    rw [h.posture]
    exact .stay
  have hne := ne_of_isRemotePeer (isRemotePeer_of_install hvalid)
  rw [h.posture hvalid (not_lt.mp hold)]
  split_ifs with hnew
  · exact .obey _ peer hne
  · by_cases hrole : x.role = .follower
    · exact .heed peer hne hrole
    · exact .usurp peer (hu ⟨hvalid, by omega, hrole⟩)

theorem Core.Ticks.move (h : x.Ticks time y) : Posture.Move usurped x.posture y.posture := by
  obtain ⟨z, hz, hy⟩ := h
  -- a campaign, after which only a node that has won it at once may step down
  rcases hz with rfl | ⟨-, ⟨-, hz⟩ | ⟨deadline, rfl⟩⟩
  · rcases hy with rfl | ⟨-, deadline, rfl⟩
    · exact .stay
    · rw [Core.follow_posture]
      exact .follow _
  · rcases hy with rfl | ⟨-, deadline, rfl⟩
    · rcases hz.posture with hz | hz
      · rw [hz]
        exact .stand _ _
      · rw [hz]
        exact .lead _ _
    have hfollow : z.posture.following z.currentTerm =
        x.posture.following (x.currentTerm + 1) := by
      have hmax : max x.posture.term (x.currentTerm + 1) = x.currentTerm + 1 :=
        max_eq_right (by exact (lt_add_one x.currentTerm).le)
      have hterm : z.currentTerm = z.posture.term := rfl
      rw [hterm, Posture.following, Posture.following, max_self, hmax]
      rcases hz.posture with hz | hz
      · rw [hz]
      · rw [hz]
    rw [z.follow_posture, hfollow]
    exact .follow _
  · rcases hy with rfl | ⟨hlead, -⟩
    · exact .canvass _
    · cases hlead.1

/-- **How an input changes the posture of a node.** -/
theorem steps_move {c : Context} {input : Input} (h : (core c).Steps time taken input y) :
    Posture.Move (Usurps c.node input) (core c).posture y.posture := by
  have hyields : ∀ {peer term : ℤ} {u : Prop}, (core c).Yields peer term y →
      Posture.Move u (core c).posture y.posture := by
    rintro peer term u ⟨-, deadline, rfl⟩
    rw [Core.follow_posture]
    exact .follow _
  cases input with
  | deliver e =>
    obtain ⟨src, dst, inc, sentAt, message⟩ := e
    cases message with
    | requestVote m =>
      rcases Core.HandlesVote.posture h with h | h
      · rw [h]
        exact .stay
      · rw [h]
        exact .follow _
    | requestVoteResponse m => exact Core.HandlesVoteReply.move h
    | appendEntries m => exact Core.HandlesAppend.move h
    | appendEntriesResponse m =>
      rcases h with rfl | h | ⟨-, h⟩
      · exact .stay
      · exact hyields h
      · rw [h.posture]
        exact .stay
    | installSnapshot m => exact Core.HandlesInstall.move h fun hu => hu
    | installSnapshotResponse m =>
      rcases h with rfl | h
      · exact .stay
      · exact hyields h
  | tick => exact Core.Ticks.move h
  | start =>
    obtain ⟨deadline, happ, -⟩ := h
    rw [happ.posture, Core.follow_posture]
    exact .start
  | stop =>
    rw [h]
    exact .stop
  | propose proposals =>
    rw [Core.Proposes.posture h]
    exact .stay
  | work =>
    rw [h.1]
    exact .stay
  | completion =>
    rcases h with ⟨-, rfl⟩ | ⟨completion, rest, -, happ, -⟩
    · exact .stay
    · rw [happ.posture]
      exact .stay
  | setSnapshotThreshold entries =>
    rw [h]
    exact .stay
  | readIndex _ _ | setSnapshotChunkBytes _ | setLeaseReads _ =>
    rw [h]
    exact .stay

end Moves

/-! ## What every posture keeps -/

/-- A follower has collected no votes. -/
def Posture.Unvoted (p : Posture) : Prop :=
  p.running = true → p.role = .follower → p.votes = ∅

/-- The leader is the one that takes itself for the leader, and only a follower takes another
node for the leader. -/
structure Posture.Led (p : Posture) : Prop where
  self : p.leaderId = p.nodeId ↔ p.role = .leader
  other : p.leaderId ≠ -1 → p.leaderId ≠ p.nodeId → p.role = .follower

section Kept

variable {usurped : Prop} {p q : Posture}

theorem Posture.Move.mono {usurped' : Prop} (h : Posture.Move usurped p q)
    (hu : usurped → usurped') : Posture.Move usurped' p q := by
  cases h with
  | stay => exact .stay
  | follow term => exact .follow term
  | obey term leader hleader => exact .obey term leader hleader
  | heed leader hleader hrole => exact .heed leader hleader hrole
  | usurp leader h => exact .usurp leader (hu h)
  | tally votes hrole => exact .tally votes hrole
  | canvass votes => exact .canvass votes
  | stand term votes => exact .stand term votes
  | lead term votes => exact .lead term votes
  | start => exact .start
  | stop => exact .stop

theorem Posture.Move.unvoted (h : Posture.Move usurped p q) (hp : p.Unvoted) : q.Unvoted := by
  cases h with
  | stay => exact hp
  | follow | obey | start => exact fun _ _ => rfl
  | heed | usurp => exact hp
  | tally votes hrole =>
    intro _ hfollower
    rcases hrole with hrole | hrole
    · cases hfollower.symm.trans hrole
    · cases hfollower.symm.trans hrole
  | canvass | stand | lead => exact fun _ hrole => (nomatch hrole)
  | stop => exact fun hrun => (nomatch hrun)

theorem Posture.Move.led (h : Posture.Move usurped p q) (hu : ¬usurped) (hid : 0 ≤ p.nodeId)
    (hp : p.Led) : q.Led := by
  have hne : -1 ≠ p.nodeId := by omega
  cases h with
  | stay | tally => exact ⟨hp.self, hp.other⟩
  | follow | start | stop => exact ⟨iff_of_false hne (by simp [Posture.following]), fun _ _ => rfl⟩
  | obey term leader hleader =>
    exact ⟨iff_of_false hleader (by simp [Posture.following]), fun _ _ => rfl⟩
  | heed leader hleader hrole =>
    exact ⟨iff_of_false hleader (by simp [hrole]), fun _ _ => hrole⟩
  | usurp leader h => exact absurd h hu
  | canvass | stand => exact ⟨iff_of_false hne (by simp), fun h _ => absurd rfl h⟩
  | lead => exact ⟨iff_of_true rfl rfl, fun _ h => absurd rfl h⟩

end Kept

/-! ## Runs -/

/-- A step at which a node that is not a follower takes another for the leader. -/
def Usurped (M : Membership) (s : Cluster) : Action → Prop
  | .call v input env => input.Enabled (withMessage s (.call v input env)) v ∧
      (∃ p, s.up v = some p ∧ Usurps p.node input) ∧
      ((strayStep M s (.call v input env)).up v).isSome = true
  | _ => False

section Runs

variable {codec : EntryCodec} {M : Membership} {s : Cluster} {a : Action} {v : ℤ} {p p' : Process}

/-- The posture of a node after a step. -/
theorem Hosts.posture (h : Hosts codec s) (hids : ∀ p ∈ M.peers, p ≤ int32Max)
    (hup' : (strayStep M s a).up v = some p') : (∃ p, s.up v = some p ∧
      Posture.Move (Usurped M s a) (postureOf p.node) (postureOf p'.node)) ∨
      v ∈ M.peers ∧ ∃ async, postureOf p'.node =
        { postureOf (M.boot v async) with term := p'.node.currentTerm } := by
  cases strayStep_lives hup' with
  | same hup => exact .inl ⟨p', hup, .stay⟩
  | @call p input env c c' hup henabled hc hret hp =>
    obtain ⟨-, hsteps⟩ := h.steps hup hc hret
    have hnode : c.node = p.node := congrArg Context.node hc
    have hmove : Posture.Move (Usurps c.node input) (postureOf c.node) (postureOf c'.node) :=
      steps_move hsteps
    rw [hnode] at hmove
    rw [hp]
    rw [hp] at hup'
    exact .inl ⟨p, hup, hmove.mono fun hu =>
      ⟨henabled, ⟨p, hup, hu⟩, Option.isSome_iff_exists.mpr ⟨_, hup'⟩⟩⟩
  | @restart async env c c' hv hdown hnode hexec hlog hret hp =>
    have hrec := congrArg Core.posture (h.recovers hids hv hnode hexec hlog hret).2
    have hrec : postureOf c'.node = { postureOf c.node with term := c'.node.currentTerm } := hrec
    rw [hnode] at hrec
    rw [hp]
    exact .inr ⟨hv, async, hrec⟩

theorem Hosts.nodeId_nonneg (h : Hosts codec s) (hup : s.up v = some p) : 0 ≤ p.node.nodeId :=
  ((h.coherent v p hup).ids _ (List.mem_cons_self ..)).1

variable {actions : List Action}

theorem unvoted_strayRun (hcodec : Covers codec) (hids : ∀ p ∈ M.peers, p ≤ int32Max)
    (ht : ∀ a ∈ actions, TypedAction a) (hup : (strayRun M actions).up v = some p) :
    (postureOf p.node).Unvoted := by
  induction actions using List.reverseRecOn generalizing v p with
  | nil => cases hup
  | append_singleton actions a ih =>
    rw [strayRun_concat] at hup
    have ht' : ∀ b ∈ actions, TypedAction b := fun b hb => ht b (List.mem_append_left _ hb)
    rcases (hosts_strayRun hcodec hids ht').posture hids hup with ⟨q, hq, hmove⟩ | ⟨-, _, hboot⟩
    · exact hmove.unvoted (ih ht' hq)
    · rw [hboot]
      exact fun _ _ => rfl

/-- All processes of a state are led. -/
def AllLed (s : Cluster) : Prop :=
  ∀ v p, s.up v = some p → (postureOf p.node).Led

theorem led_strayRun (hcodec : Covers codec) (hids : ∀ p ∈ M.peers, p ≤ int32Max)
    (ht : ∀ a ∈ actions, TypedAction a)
    (hno : ∀ before a, before ++ [a] <+: actions → ¬Usurped M (strayRun M before) a) :
    AllLed (strayRun M actions) := by
  induction actions using List.reverseRecOn with
  | nil => exact fun _ _ hup => (nomatch hup)
  | append_singleton actions a ih =>
    intro v p hup
    rw [strayRun_concat] at hup
    have ht' : ∀ b ∈ actions, TypedAction b := fun b hb => ht b (List.mem_append_left _ hb)
    have hhosts := hosts_strayRun hcodec hids ht'
    have hled := ih ht' fun before b hb => hno before b (hb.trans (List.prefix_append _ _))
    rcases hhosts.posture hids hup with ⟨q, hq, hmove⟩ | ⟨hv, _, hboot⟩
    · exact hmove.led (hno actions a List.prefix_rfl) (hhosts.nodeId_nonneg hq) (hled v q hq)
    have hne : -1 ≠ v := by
      have := M.nonneg v hv
      omega
    rw [hboot]
    exact ⟨iff_of_false hne fun h => (nomatch (h : Role.follower = Role.leader)),
      fun _ _ => rfl⟩

/-- A node that has taken another for the leader, without being a follower, is not led. -/
theorem Hosts.not_led (h : Hosts codec s) (hu : Usurped M s a) : ¬AllLed (strayStep M s a) := by
  cases a with
  | call v input env =>
    obtain ⟨henabled, ⟨p, hup, husurps⟩, hsome⟩ := hu
    obtain ⟨p', hup'⟩ := Option.isSome_iff_exists.mp hsome
    intro hall
    have hled := hall v p' hup'
    cases strayStep_lives hup' with
    | same _ _ hidle => exact hidle input env rfl henabled
    | @call q _ _ c c' hq _ hc hret hp =>
      obtain rfl := Option.some.inj (hup.symm.trans hq)
      obtain ⟨-, hsteps⟩ := h.steps hup hc hret
      have hnode : c.node = p.node := congrArg Context.node hc
      rw [← hnode] at husurps
      obtain ⟨src, dst, inc, sentAt, m, rfl, hvalid, hterm, hrole⟩ := husurps.cases
      have hpost := Core.HandlesInstall.posture hsteps hvalid hterm.ge
      rw [if_neg (show ¬(core c).currentTerm < m.term from not_lt.mpr hterm.le)] at hpost
      have hpost : postureOf c'.node = { postureOf c.node with leaderId := src } := hpost
      rw [hp, hpost] at hled
      have hpeer : (core c).ident.isRemotePeer src = true := isRemotePeer_of_install hvalid
      have hmem : src ∈ p.node.allPeers := hnode ▸ mem_of_isRemotePeer hpeer
      have hsrc := ((h.coherent v p hup).ids src (List.mem_cons_of_mem _ hmem)).1
      exact hrole (hled.other (by dsimp only; omega) (ne_of_isRemotePeer hpeer))
  | _ => exact absurd hu id

/-- **Who leads in a run.** -/
theorem allLed_iff (hcodec : Covers codec) (hids : ∀ p ∈ M.peers, p ≤ int32Max)
    (ht : ∀ a ∈ actions, TypedAction a) :
    (∀ before, before <+: actions → AllLed (strayRun M before)) ↔
      ∀ before a, before ++ [a] <+: actions → ¬Usurped M (strayRun M before) a := by
  have ht' : ∀ before, before <+: actions → ∀ a ∈ before, TypedAction a :=
    fun before hb a ha => ht a (hb.subset ha)
  constructor
  · intro hled before a hb hu
    have hbefore := (List.prefix_append before [a]).trans hb
    refine (hosts_strayRun hcodec hids (ht' before hbefore)).not_led hu ?_
    rw [← strayRun_concat]
    exact hled _ hb
  · intro hno before hb
    exact led_strayRun hcodec hids (ht' before hb) fun b a hba => hno b a (hba.trans hb)

end Runs

/-! ## The two handlers -/

/-- A node has accepted a leader. -/
structure Accepted (n : Node) (peer term : ℤ) : Prop where
  role : n.role = .follower
  term : n.currentTerm = term
  leader : n.leaderId = peer
  votes : n.votes = ∅

section Accepted

variable {c c' : Context} {peer : ℤ}

/-- A follower of the term keeps its votes when it handles an `AppendEntries`. -/
theorem accepted_of_append_iff {request : AppendEntries} (hr : Requests c.node)
    (h0 : 0 ≤ c.log.snapshot.index) (hvalid : request.valid c.node peer = true)
    (hterm : c.node.currentTerm ≤ request.term)
    (hret : handleAppendEntries peer request c = .ok () c') :
    Accepted c'.node peer request.term ↔
      c.node.currentTerm < request.term ∨ c.node.role ≠ .follower ∨ c.node.votes = ∅ := by
  obtain ⟨-, -, hsteps⟩ := steps_of_ok
    (.deliver ⟨peer, c.node.nodeId, 0, 0, .appendEntries request⟩) hr h0 hret
  have hpost : (c.node.role = .follower ∧ c.node.currentTerm = request.term ∧
      postureOf c'.node = { postureOf c.node with leaderId := peer }) ∨
      (c.node.currentTerm < request.term ∨ c.node.role ≠ .follower) ∧
        postureOf c'.node = { (postureOf c.node).following request.term with leaderId := peer } :=
    Core.HandlesAppend.posture hsteps hvalid hterm
  rcases hpost with ⟨hrole, hsame, hpost⟩ | ⟨hnew, hpost⟩
  · have hvotes : c'.node.votes = c.node.votes := congrArg Posture.votes hpost
    constructor
    · exact fun haccepted => .inr (.inr (hvotes.symm.trans haccepted.votes))
    rintro (h | h | h)
    · exact absurd hsame h.ne
    · exact absurd hrole h
    · exact ⟨(congrArg Posture.role hpost).trans hrole, (congrArg Posture.term hpost).trans hsame,
        congrArg Posture.leaderId hpost, hvotes.trans h⟩
  · exact iff_of_true ⟨congrArg Posture.role hpost,
      (congrArg Posture.term hpost).trans (max_eq_right hterm),
      congrArg Posture.leaderId hpost, congrArg Posture.votes hpost⟩ (hnew.imp_right .inl)

/-- A node keeps its role and its votes when it handles an `InstallSnapshot` of its term. -/
theorem accepted_of_install_iff {request : InstallSnapshot} (hr : Requests c.node)
    (h0 : 0 ≤ c.log.snapshot.index) (hvalid : request.valid c.node peer = true)
    (hterm : c.node.currentTerm ≤ request.term)
    (hret : handleInstallSnapshot peer request c = .ok () c') :
    Accepted c'.node peer request.term ↔
      c.node.currentTerm < request.term ∨ c.node.role = .follower ∧ c.node.votes = ∅ := by
  obtain ⟨-, -, hsteps⟩ := steps_of_ok
    (.deliver ⟨peer, c.node.nodeId, 0, 0, .installSnapshot request⟩) hr h0 hret
  have hpost : postureOf c'.node = { (if c.node.currentTerm < request.term then
      (postureOf c.node).following request.term else postureOf c.node) with leaderId := peer } :=
    Core.HandlesInstall.posture hsteps hvalid hterm
  by_cases hnew : c.node.currentTerm < request.term
  · rw [if_pos hnew] at hpost
    exact iff_of_true ⟨congrArg Posture.role hpost,
      (congrArg Posture.term hpost).trans (max_eq_right hterm),
      congrArg Posture.leaderId hpost, congrArg Posture.votes hpost⟩ (.inl hnew)
  rw [if_neg hnew] at hpost
  have hrole : c'.node.role = c.node.role := congrArg Posture.role hpost
  have hvotes : c'.node.votes = c.node.votes := congrArg Posture.votes hpost
  constructor
  · intro haccepted
    exact .inr ⟨hrole.symm.trans haccepted.role, hvotes.symm.trans haccepted.votes⟩
  rintro (h | ⟨hfollower, hnone⟩)
  · exact absurd h hnew
  exact ⟨hrole.trans hfollower,
    (congrArg Posture.term hpost).trans (le_antisymm hterm (not_lt.mp hnew)),
    congrArg Posture.leaderId hpost, hvotes.trans hnone⟩

end Accepted

/-- **A node that accepts a leader gives up its own campaign.** After an `AppendEntries` it has
done so exactly if the term is new, it was no follower or it had no votes, and after an
`InstallSnapshot` exactly if the term is new or it was a follower without votes. In a run no
follower has votes, and the roles agree with the known leaders exactly as long as no other node is
handed a snapshot of its own term. -/
theorem leader_ends_campaign_iff (M : Membership) (hids : ∀ p ∈ M.peers, p ≤ int32Max)
    (codec : EntryCodec) (hcodec : Covers codec) (actions : List Action)
    (ht : ∀ a ∈ actions, TypedAction a) :
    (∀ c c' : Context, Requests c.node → 0 ≤ c.log.snapshot.index → ∀ peer,
      (∀ request : AppendEntries, request.valid c.node peer = true →
        c.node.currentTerm ≤ request.term → handleAppendEntries peer request c = .ok () c' →
        (Accepted c'.node peer request.term ↔ c.node.currentTerm < request.term ∨
          c.node.role ≠ .follower ∨ c.node.votes = ∅)) ∧
      ∀ request : InstallSnapshot, request.valid c.node peer = true →
        c.node.currentTerm ≤ request.term → handleInstallSnapshot peer request c = .ok () c' →
        (Accepted c'.node peer request.term ↔ c.node.currentTerm < request.term ∨
          c.node.role = .follower ∧ c.node.votes = ∅)) ∧
    (∀ v p, (strayRun M actions).up v = some p → (postureOf p.node).Unvoted) ∧
    ((∀ before, before <+: actions → AllLed (strayRun M before)) ↔
      ∀ before a, before ++ [a] <+: actions → ¬Usurped M (strayRun M before) a) :=
  ⟨fun _ _ hr h0 _ =>
      ⟨fun _ hvalid hterm hret => accepted_of_append_iff hr h0 hvalid hterm hret,
        fun _ hvalid hterm hret => accepted_of_install_iff hr h0 hvalid hterm hret⟩,
    fun _ _ hup => unvoted_strayRun hcodec hids ht hup, allLed_iff hcodec hids ht⟩

/-- Node 1 of two starts, and stands in term 1 when its timer has ended and node 2 would vote for
it. -/
def standing : List Action :=
  started ++ [.call 1 .tick { clock := 1000 * ms },
    .call 1 (.deliver ⟨2, 1, 1, 0, .requestVoteResponse ⟨0, true, true⟩⟩)
      { clock := 1001 * ms }]

/-- The first chunk of a snapshot that node 2 sends in term 1. -/
def snapshotOfTwo : InstallSnapshot := ⟨1, 2, 7, 1, 0, [0], false, 1⟩

/-- Node 1 is handed the chunk. -/
def handChunk : Action :=
  .call 1 (.deliver ⟨2, 1, 1, 0, .installSnapshot snapshotOfTwo⟩) { clock := 1002 * ms }

/-- A candidate that is handed a snapshot of its own term stays a candidate, and takes the sender
for the leader. -/
theorem candidate_keeps_role :
    ((strayRun duo standing).up 1).any (fun p => p.node.currentTerm = 1 ∧
        p.node.role = .candidate ∧ snapshotOfTwo.valid p.node 2) = true ∧
      ((strayRun duo (standing ++ [handChunk])).up 1).any (fun p => p.node.currentTerm = 1 ∧
        p.node.role = .candidate ∧ p.node.leaderId = 2 ∧ p.node.votes = {1}) = true :=
  ⟨by decide +kernel, by decide +kernel⟩

theorem typed_handChunk : ∀ a ∈ standing ++ [handChunk], TypedAction a := by
  intro a ha
  rw [standing, List.append_assoc, List.mem_append] at ha
  rcases ha with ha | ha
  · exact typed_started a ha
  simp only [List.cons_append, List.nil_append, List.mem_cons, List.not_mem_nil, or_false] at ha
  rcases ha with rfl | rfl | rfl
  · trivial
  · exact (by decide : IsInt32 0)
  · exact ⟨(by decide : IsInt32 1), (by decide : IsInt32 2), (by decide : IsInt64 7),
      (by decide : IsInt64 1), (by decide : IsInt64 0), (by decide : 1 < 2 ^ 64)⟩

/-- The snapshot is what makes the difference in that run. -/
theorem leader_ends_campaign_iff_chunk :
    ∃ before a, before ++ [a] <+: standing ++ [handChunk] ∧
      Usurped duo (strayRun duo before) a := by
  have hiff := (leader_ends_campaign_iff duo (by decide) RaftLog.flatCodec covers_flatCodec
    (standing ++ [handChunk]) typed_handChunk).2.2
  by_contra hno
  push Not at hno
  have hany : ((strayRun duo (standing ++ [handChunk])).up 1).any (fun p =>
      p.node.role = .candidate ∧ p.node.leaderId = 2 ∧ p.node.nodeId = 1) = true := by
    decide +kernel
  obtain ⟨p, hp, hok⟩ := (Option.any_eq_true _ _).mp hany
  rw [decide_eq_true_eq] at hok
  obtain ⟨hrole, hleader, hid⟩ := hok
  have hled := hiff.mpr hno _ List.prefix_rfl 1 p hp
  have hfollower : p.node.role = .follower := hled.other
    (by change p.node.leaderId ≠ -1; omega) (by change p.node.leaderId ≠ p.node.nodeId; omega)
  cases hrole.symm.trans hfollower

end RaftKV.Local
