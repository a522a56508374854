import RaftKV.Local.Leaders

/-!
# The promise of a follower

A follower that has answered a leader does not help to elect another before the shortest
election timeout has passed. The promise is kept in three fields : the node is a follower, it
knows the leader, and its election timer has not ended (`Shielded`). Every handler that
changes one of them is looked at here. Besides the leaders of a higher term, which end the
promise, three kinds of messages break it (`Disturbs`) : a response of a higher term, whose
handler forgets the leader; a vote request of a higher term from the leader itself; and a
request of the same term from a second leader. In a run without them the promise is kept.
-/

namespace RaftKV.Local

open RaftM

/-- The node is a follower; if it is running, it follows `leader`, and its election timer runs at
least for the shortest timeout from `time` on. -/
structure Shielded (n : Node) (leader time : ℤ) : Prop where
  role : n.role = .follower
  known : n.running = true → n.leaderId = leader
  timer : n.running = true → earliest time ≤ n.electionDeadline

/-- The node accepts a leader of a higher term. -/
def Deposes (n : Node) : Input → Prop
  | .deliver e => match e.message with
    | .appendEntries m => m.valid n e.src = true ∧ n.currentTerm < m.term
    | .installSnapshot m => m.valid n e.src = true ∧ n.currentTerm < m.term
    | _ => False
  | _ => False

/-- The messages that make a follower of `leader` forget it. -/
def Disturbs (n : Node) (leader : ℤ) : Input → Prop
  | .deliver e => match e.message with
    | .requestVoteResponse m =>
      n.running = true ∧ n.isRemotePeer e.src = true ∧ n.currentTerm < m.term
    | .appendEntriesResponse m =>
      n.running = true ∧ n.isRemotePeer e.src = true ∧ n.currentTerm < m.term
    | .installSnapshotResponse m =>
      n.running = true ∧ n.isRemotePeer e.src = true ∧ n.currentTerm < m.term
    | .requestVote m => m.valid n e.src = true ∧ e.src = leader ∧ m.prevote = false ∧
        n.currentTerm < m.term
    | .appendEntries m => m.valid n e.src = true ∧ e.src ≠ leader ∧ m.term = n.currentTerm
    | .installSnapshot m => m.valid n e.src = true ∧ e.src ≠ leader ∧ m.term = n.currentTerm
  | _ => False

/-! ## One step -/

section Step

variable {c c' : Context} {leader time : ℤ}

/-- A request of another candidate is refused. -/
def Refused (x : Core) (taken : Prop) (peer : ℤ) (request : RequestVote) (y : Core) : Prop :=
  if request.valid x.ident peer = true then
    x.Answers taken peer (voteReply x false request.prevote) y
  else y = x

variable {peer dst sentAt src : ℤ} {inc : ℕ}

theorem Shielded.suppresses {now : ℤ} (h : Shielded c.node leader time) (hl : leader ≠ -1)
    (hrun : c.node.running = true) (hpeer : peer ≠ leader) (hnow : now < earliest time) :
    (core c).Suppresses peer now := by
  refine ⟨h.role, ?_, ?_, hnow.trans_le (h.timer hrun)⟩
  · rw [show (core c).leaderId = leader from h.known hrun]
    exact hl
  · rw [show (core c).leaderId = leader from h.known hrun]
    exact hpeer.symm

/-- What a step leaves of a shield. -/
structure Held (n : Node) (leader : ℤ) (input : Input) (y : Core) : Prop where
  role : y.role = .follower
  known : ¬Deposes n input → ¬Disturbs n leader input → input ≠ .start → y.running = true →
    n.running = true ∧ y.leaderId = leader

variable {input : Input} {x y : Core} {now : ℤ} {taken : Prop}

theorem Shielded.held_same (h : Shielded c.node leader time) (hy : y.posture = (core c).posture) :
    Held c.node leader input y := by
  refine ⟨(congrArg Posture.role hy).trans h.role, fun _ _ _ hrun => ?_⟩
  have hrun : c.node.running = true := (congrArg Posture.running hy).symm.trans hrun
  exact ⟨hrun, (congrArg Posture.leaderId hy).trans (h.known hrun)⟩

theorem held_of_follow {p : Posture} {term : ℤ} (hy : y.posture = p.following term)
    (hbroken : Deposes c.node input ∨ Disturbs c.node leader input ∨ input = .start) :
    Held c.node leader input y := by
  refine ⟨congrArg Posture.role hy, fun hd hdist hstart => ?_⟩
  rcases hbroken with h | h | h
  · exact absurd h hd
  · exact absurd h hdist
  · exact absurd h hstart

/-- `leader` is followed from now on, or was followed already. -/
theorem Shielded.held_leader (h : Shielded c.node leader time)
    (hrun : c.node.running = true) (hy : y.posture = { (core c).posture with leaderId := peer })
    (hpeer : ¬Disturbs c.node leader input → peer = leader) : Held c.node leader input y :=
  ⟨(congrArg Posture.role hy).trans h.role, fun _ hdist _ _ =>
    ⟨hrun, (congrArg Posture.leaderId hy).trans (hpeer hdist)⟩⟩

theorem held_of_depose {term : ℤ} {p : Posture}
    (hy : y.posture = { p.following term with leaderId := peer }) (hd : Deposes c.node input) :
    Held c.node leader input y :=
  ⟨congrArg Posture.role hy, fun hno => absurd hd hno⟩

theorem Shielded.refused {request : RequestVote} (h : Shielded c.node leader time)
    (hl : leader ≠ -1) (hnow : now < earliest time) (hpeer : peer ≠ leader)
    (hy : (core c).HandlesVote now taken peer request y) :
    Refused (core c) taken peer request y := by
  unfold Core.HandlesVote at hy
  unfold Refused
  split_ifs at hy ⊢ with hvalid hsup
  · exact hy
  · have hrun : c.node.running = true := by
      simp only [RequestVote.valid, Bool.and_eq_true] at hvalid
      exact hvalid.1.1.1.1.1.1
    exact absurd (.inr (h.suppresses hl hrun hpeer hnow)) hsup
  · exact hy

theorem Refused.posture {request : RequestVote}
    (h : Refused x taken peer request y) : y.posture = x.posture := by
  unfold Refused at h
  split_ifs at h
  · exact h.posture
  · rw [h]

section

variable (h : Shielded c.node leader time)
include h

theorem Shielded.held_vote {request : RequestVote} (hl : leader ≠ -1) (hnow : now < earliest time)
    (hy : (core c).HandlesVote now taken src request y) :
    Held c.node leader (.deliver ⟨src, dst, inc, sentAt, .requestVote request⟩) y := by
  by_cases hpeer : src = leader
  swap
  · exact h.held_same (h.refused hl hnow hpeer hy).posture
  unfold Core.HandlesVote Core.Considers at hy
  split_ifs at hy with hvalid _ hprevote hnew
  · exact h.held_same hy.posture
  · exact h.held_same hy.posture
  · obtain ⟨deadline, hy⟩ := hy
    exact held_of_follow (hy.posture.trans (Core.follow_posture _ _ _))
      (.inr (.inl ⟨hvalid, hpeer, Bool.eq_false_iff.mpr hprevote, hnew⟩))
  · exact h.held_same hy.posture
  · exact h.held_same (congrArg Core.posture hy)

theorem Shielded.held_voteReply {response : RequestVoteResponse}
    (hy : (core c).HandlesVoteReply src response y) :
    Held c.node leader (.deliver ⟨src, dst, inc, sentAt, .requestVoteResponse response⟩) y := by
  unfold Core.HandlesVoteReply at hy
  split_ifs at hy with hfrom hnew hpre _ hcand
  · obtain ⟨deadline, rfl⟩ := hy
    exact held_of_follow (Core.follow_posture _ _ _) (.inr (.inl ⟨hfrom.1, hfrom.2, hnew⟩))
  · cases hpre.1.symm.trans h.role
  · cases hpre.1.symm.trans h.role
  · cases hcand.1.symm.trans h.role
  · exact h.held_same (congrArg Core.posture hy)
  · exact h.held_same (congrArg Core.posture hy)

theorem Shielded.held_append {request : AppendEntries}
    (hy : (core c).HandlesAppend now taken src request y) :
    Held c.node leader (.deliver ⟨src, dst, inc, sentAt, .appendEntries request⟩) y := by
  by_cases hvalid : request.valid c.node src = true
  swap
  · rw [Core.HandlesAppend, if_neg (by exact hvalid)] at hy
    exact h.held_same (congrArg Core.posture hy)
  by_cases hold : request.term < c.node.currentTerm
  · rw [Core.HandlesAppend, if_pos (by exact hvalid), if_pos (by exact hold)] at hy
    exact h.held_same hy.posture
  have hrun : c.node.running = true := (appendChecks_of_valid (x := core c) hvalid).running
  rcases hy.posture hvalid (not_lt.mp hold) with ⟨-, hterm, hy⟩ | ⟨hnew | hrole, hy⟩
  · refine h.held_leader hrun hy fun hno => ?_
    by_contra hne
    exact hno ⟨hvalid, hne, hterm.symm⟩
  · exact held_of_depose hy ⟨hvalid, hnew⟩
  · exact absurd h.role hrole

theorem Shielded.held_install {request : InstallSnapshot}
    (hy : (core c).HandlesInstall taken src request y) :
    Held c.node leader (.deliver ⟨src, dst, inc, sentAt, .installSnapshot request⟩) y := by
  by_cases hvalid : request.valid c.node src = true
  swap
  · rw [Core.HandlesInstall, if_neg (by exact hvalid)] at hy
    exact h.held_same (congrArg Core.posture hy)
  by_cases hold : request.term < c.node.currentTerm
  · rw [Core.HandlesInstall, if_pos (by exact hvalid), if_pos (by exact hold)] at hy
    exact h.held_same hy.posture
  have hpost := hy.posture hvalid (not_lt.mp hold)
  by_cases hnew : c.node.currentTerm < request.term
  · rw [if_pos (by exact hnew)] at hpost
    exact held_of_depose hpost ⟨hvalid, hnew⟩
  rw [if_neg (by exact hnew)] at hpost
  refine h.held_leader (running_of_install hvalid) hpost fun hno => ?_
  by_contra hne
  exact hno ⟨hvalid, hne, le_antisymm (not_lt.mp hnew) (not_lt.mp hold)⟩

theorem Shielded.ticks (hnow : now < earliest time) (hy : (core c).Ticks now y) : y = core c := by
  obtain ⟨z, hz, hy⟩ := hy
  have hz : z = core c := by
    rcases hz with hz | ⟨⟨hrun, -, hended⟩, -⟩
    · exact hz
    · exact absurd (hnow.trans_le (h.timer hrun)) (not_lt.mpr hended)
  subst hz
  rcases hy with hy | ⟨⟨hrole, -⟩, -⟩
  · exact hy
  · cases hrole.symm.trans h.role

/-- **What an input leaves of a shield.** -/
theorem Shielded.held (hl : leader ≠ -1)
    (hnow : now < earliest time) (hy : (core c).Steps now taken input y) :
    Held c.node leader input y := by
  have hyields : ∀ {src term : ℤ}, (core c).Yields src term y →
      (c.node.running = true ∧ c.node.isRemotePeer src = true ∧ c.node.currentTerm < term →
        Disturbs c.node leader input) → Held c.node leader input y := by
    rintro src term ⟨hguard, deadline, rfl⟩ hd
    exact held_of_follow (Core.follow_posture _ _ _) (.inr (.inl (hd hguard)))
  cases input with
  | deliver e =>
    obtain ⟨src, dst, inc, sentAt, message⟩ := e
    cases message with
    | requestVote m => exact h.held_vote hl hnow hy
    | requestVoteResponse m => exact h.held_voteReply hy
    | appendEntries m => exact h.held_append hy
    | appendEntriesResponse m =>
      rcases hy with rfl | hy | ⟨-, hy⟩
      · exact h.held_same rfl
      · exact hyields hy fun hguard => hguard
      · exact h.held_same hy.posture
    | installSnapshot m => exact h.held_install hy
    | installSnapshotResponse m =>
      rcases hy with rfl | hy
      · exact h.held_same rfl
      · exact hyields hy fun hguard => hguard
  | tick => exact h.held_same (congrArg Core.posture (h.ticks hnow hy))
  | start =>
    obtain ⟨deadline, happ, -⟩ := hy
    exact held_of_follow (happ.posture.trans (Core.follow_posture _ _ _)) (.inr (.inr rfl))
  | stop =>
    rw [show y = _ from hy]
    exact ⟨rfl, fun _ _ _ hrun => (nomatch hrun)⟩
  | propose proposals => exact h.held_same (Core.Proposes.posture hy)
  | work =>
    have hy := congrArg Core.posture hy.1
    exact h.held_same hy
  | completion =>
    rcases hy with ⟨-, rfl⟩ | ⟨completion, rest, -, happ, -⟩
    · exact h.held_same rfl
    · exact h.held_same happ.posture
  | setSnapshotThreshold entries =>
    rw [show y = _ from hy]
    exact h.held_same rfl
  | readIndex _ _ | setSnapshotChunkBytes _ | setLeaseReads _ =>
    exact h.held_same (congrArg Core.posture hy)

theorem Shielded.step (hl : leader ≠ -1)
    (htime : time ≤ reading c.env) (hnow : reading c.env < earliest time) (hpassed : Passed c c')
    (hy : (core c).Steps (reading c.env) taken input (core c')) (hstart : input ≠ .start)
    (hd : ¬Deposes c.node input) (hdist : ¬Disturbs c.node leader input) :
    Shielded c'.node leader time := by
  have hheld := h.held hl hnow hy
  refine ⟨hheld.role, fun hrun => (hheld.known hd hdist hstart hrun).2, fun hrun => ?_⟩
  rcases hpassed.deadline with hsame | hset
  · rw [hsame]
    exact h.timer (hheld.known hd hdist hstart hrun).1
  · exact (add_le_add_left htime _).trans hset

end

theorem Core.FollowsLeader.deadline {peer : ℤ} {request : AppendEntries}
    (h : x.FollowsLeader now taken peer request y) : earliest now ≤ y.electionDeadline := by
  obtain ⟨deadline, hset, h⟩ := h
  split_ifs at h
  · obtain ⟨missing, log, log', z, -, -, hz, -, replies, rfl, -⟩ := h
    change earliest now ≤ z.electionDeadline
    rw [hz.same]
    exact hset
  · obtain ⟨replies, rfl, -⟩ := h
    exact hset

/-- **A follower that has answered a leader is shielded.** -/
theorem shielded_of_append {request : AppendEntries}
    (hy : (core c).HandlesAppend now taken peer request (core c'))
    (hvalid : request.valid c.node peer = true) (hterm : c.node.currentTerm ≤ request.term) :
    Shielded c'.node peer now := by
  have hdeadline : earliest now ≤ c'.node.electionDeadline := by
    rw [Core.HandlesAppend, if_pos (by exact hvalid), if_neg (by exact not_lt.mpr hterm)] at hy
    split_ifs at hy
    · obtain ⟨deadline, hy⟩ := hy
      exact hy.deadline
    · exact hy.deadline
  rcases hy.posture hvalid hterm with ⟨hrole, -, hpost⟩ | ⟨-, hpost⟩
  · exact ⟨(congrArg Posture.role hpost).trans hrole, fun _ => congrArg Posture.leaderId hpost,
      fun _ => hdeadline⟩
  · exact ⟨congrArg Posture.role hpost, fun _ => congrArg Posture.leaderId hpost,
      fun _ => hdeadline⟩

end Step

/-! ## Runs -/

/-- The steps that the promise of node `v` at `time` is about : the node is not restarted, the
clock is between `time` and the end of the shortest timeout, and no leader of a higher term is
accepted. -/
def Spans (v time : ℤ) (s : Cluster) : Action → Prop
  | .call w input env => w = v → time ≤ reading env ∧ reading env < earliest time ∧
      input ≠ .start ∧ ∀ p, s.up v = some p → ¬Deposes p.node input
  | .restart w _ _ => w ≠ v
  | .crash _ => True

/-- A step that does not make node `v` forget its leader. -/
def Undisturbed (v leader : ℤ) (s : Cluster) : Action → Prop
  | .call w input _ => w = v → ∀ p, s.up v = some p → ¬Disturbs p.node leader input
  | _ => True

/-- Node `v` is handed an `AppendEntries` of a leader. -/
def handAppend (v leader : ℤ) (inc : ℕ) (request : AppendEntries) (env : Env) : Action :=
  .call v (.deliver ⟨leader, v, inc, 0, .appendEntries request⟩) env

section Runs

variable {codec : EntryCodec} {M : Membership} {s : Cluster} {v leader time : ℤ} {p p' : Process}

theorem Hosts.shielded_append (h : Hosts codec s) (hup : s.up v = some p) {inc : ℕ}
    {request : AppendEntries} {env : Env} (hvalid : request.valid p.node leader = true)
    (hterm : p.node.currentTerm ≤ request.term)
    (hup' : (strayStep M s (handAppend v leader inc request env)).up v = some p') :
    Shielded p'.node leader (reading env) := by
  cases strayStep_lives hup' with
  | same _ _ hidle =>
    exact absurd ⟨List.mem_append_right _ (List.mem_singleton_self _), rfl⟩ (hidle _ _ rfl)
  | @call q _ _ c c' hq _ hc hret hp =>
    obtain rfl := Option.some.inj (hup.symm.trans hq)
    obtain ⟨-, hsteps⟩ := h.steps hup hc hret
    have hnode : c.node = p.node := congrArg Context.node hc
    rw [hp]
    exact shielded_of_append hsteps (hnode ▸ hvalid) (hnode ▸ hterm)

theorem Hosts.shielded_step (h : Hosts codec s) {a : Action} (hl : leader ≠ -1)
    (hsh : ∀ p, s.up v = some p → Shielded p.node leader time) (hspans : Spans v time s a)
    (hund : Undisturbed v leader s a) (hup' : (strayStep M s a).up v = some p') :
    Shielded p'.node leader time := by
  cases strayStep_lives hup' with
  | same hup => exact hsh p' hup
  | @call p input env c c' hup _ hc hret hp =>
    obtain ⟨hpassed, hsteps⟩ := h.steps hup hc hret
    obtain ⟨htime, hnow, hstart, hd⟩ := hspans rfl
    have hnode : c.node = p.node := congrArg Context.node hc
    have henv : reading c.env = reading env := congrArg (fun d => reading d.env) hc
    rw [hp]
    rw [← henv] at hsteps htime hnow
    exact Shielded.step (hnode ▸ hsh p hup) hl htime hnow hpassed hsteps hstart
      (hnode ▸ hd p hup) (hnode ▸ hund rfl p hup)
  | restart => exact absurd rfl hspans

theorem shielded_run (hcodec : Covers codec) (hids : ∀ p ∈ M.peers, p ≤ int32Max)
    {before after : List Action} {inc : ℕ} {request : AppendEntries} {env : Env}
    (ht : ∀ a ∈ before ++ handAppend v leader inc request env :: after, TypedAction a)
    (hup : (strayRun M before).up v = some p) (hvalid : request.valid p.node leader = true)
    (hterm : p.node.currentTerm ≤ request.term) (hl : leader ≠ -1)
    (hspans : ∀ pre a, pre ++ [a] <+: after → Spans v (reading env)
      (strayRun M (before ++ handAppend v leader inc request env :: pre)) a)
    (hund : ∀ pre a, pre ++ [a] <+: after → Undisturbed v leader
      (strayRun M (before ++ handAppend v leader inc request env :: pre)) a)
    (hup' : (strayRun M (before ++ handAppend v leader inc request env :: after)).up v = some p') :
    Shielded p'.node leader (reading env) := by
  induction after using List.reverseRecOn generalizing p' with
  | nil =>
    have ht' : ∀ b ∈ before, TypedAction b := fun b hb => ht b (List.mem_append_left _ hb)
    rw [strayRun_concat] at hup'
    exact (hosts_strayRun hcodec hids ht').shielded_append hup hvalid hterm hup'
  | append_singleton after a ih =>
    rw [← List.cons_append, ← List.append_assoc] at ht hup'
    have ht' := fun b hb => ht b (List.mem_append_left _ hb)
    rw [strayRun_concat] at hup'
    refine (hosts_strayRun hcodec hids ht').shielded_step hl (fun q hq => ?_)
      (hspans after a List.prefix_rfl) (hund after a List.prefix_rfl) hup'
    exact ih ht' (fun pre b hb => hspans pre b (hb.trans (List.prefix_append _ _)))
      (fun pre b hb => hund pre b (hb.trans (List.prefix_append _ _))) hq

end Runs

/-- **A follower that has just answered a leader does not help elect another**, in every run whose
steps since then do not make it forget the leader : a vote request of another candidate is refused
and changes nothing else, and the node does not canvass or stand itself. -/
theorem promise_kept (M : Membership) (hids : ∀ p ∈ M.peers, p ≤ int32Max) (codec : EntryCodec)
    (hcodec : Covers codec) (before after : List Action) (v leader : ℤ) (inc : ℕ)
    (request : AppendEntries) (env : Env)
    (ht : ∀ a ∈ before ++ handAppend v leader inc request env :: after, TypedAction a)
    (p : Process) (hup : (strayRun M before).up v = some p)
    (hvalid : request.valid p.node leader = true) (hterm : p.node.currentTerm ≤ request.term)
    (hspans : ∀ pre a, pre ++ [a] <+: after → Spans v (reading env)
      (strayRun M (before ++ handAppend v leader inc request env :: pre)) a)
    (hund : ∀ pre a, pre ++ [a] <+: after → Undisturbed v leader
      (strayRun M (before ++ handAppend v leader inc request env :: pre)) a)
    (p' : Process)
    (hup' : (strayRun M (before ++ handAppend v leader inc request env :: after)).up v = some p')
    (input : Input) (now : Env) (hnow : reading now < earliest (reading env)) (c' : Context) :
    let c := (strayRun M (before ++ handAppend v leader inc request env :: after)).context v p'
      input.replyTo now
    input.run c = .ok () c' →
      c'.node.role = .follower ∧ (input = .tick → core c' = core c) ∧
        ∀ src dst inc' sentAt vote,
          input = .deliver ⟨src, dst, inc', sentAt, .requestVote vote⟩ → src ≠ leader →
          Refused (core c) (now.sends = []) src vote (core c') := by
  intro c hret
  have hpeer : (coreAt {} p).ident.isRemotePeer leader = true :=
    (appendChecks_of_valid (x := coreAt {} p) hvalid).peer
  have hhosts := hosts_strayRun hcodec hids ht
  have hl : leader ≠ -1 := by
    have hids := (hosts_strayRun hcodec hids fun b hb => ht b (List.mem_append_left _ hb)).coherent
      v p hup
    have := (hids.ids leader (List.mem_cons_of_mem _ (mem_of_isRemotePeer hpeer))).1
    omega
  have hsh : Shielded c.node leader (reading env) :=
    shielded_run hcodec hids ht hup hvalid hterm hl hspans hund hup'
  obtain ⟨-, -, hsteps⟩ :=
    steps_of_ok (c := c) _ (hhosts.requests v p' hup') (hhosts.disk v).wf.snapshot_index_nonneg hret
  refine ⟨(hsh.held hl hnow hsteps).role, ?_, ?_⟩
  · rintro rfl
    exact hsh.ticks hnow hsteps
  · rintro src dst inc' sentAt vote rfl hsrc
    exact hsh.refused hl hnow hsrc hsteps

/-! ## A response of a higher term -/

/-- The heartbeat of node 2 in term 1. -/
def heartbeatOfTwo : AppendEntries := ⟨1, 2, 0, 0, [], 0, 1⟩

/-- Node 1 of three answers a heartbeat of node 2. -/
def answered : List Action :=
  started ++ [handAppend 1 2 1 heartbeatOfTwo { clock := ms }]

/-- Node 3 asks for a vote in term 2. -/
def voteOfThree : Input :=
  .deliver ⟨3, 1, 1, 0, .requestVote ⟨2, 3, 0, 0, false⟩⟩

/-- Two milliseconds after it has answered node 2, node 1 votes for node 3, because it was handed a
response of node 3 with a higher term in between. -/
theorem vote_after_response :
    ((strayRun trio answered).up 1).any (fun p => p.node.leaderId = 2 ∧
        p.node.currentTerm = 1) = true ∧
      ((strayRun trio (answered ++
        [.call 1 (.deliver ⟨3, 1, 1, 0, .appendEntriesResponse ⟨2, false, 0, 1⟩⟩)
            { clock := 2 * ms },
          .call 1 voteOfThree { clock := 3 * ms }])).up 1).any (fun p =>
        p.node.currentTerm = 2 ∧ p.node.votedFor = 3) = true :=
  ⟨by decide +kernel, by decide +kernel⟩

theorem typed_answered :
    ∀ a ∈ started ++ handAppend 1 2 1 heartbeatOfTwo { clock := ms } ::
      [.call 1 .tick { clock := 50 * ms }], TypedAction a := by
  intro a ha
  rw [List.mem_append] at ha
  rcases ha with ha | ha
  · exact typed_started a ha
  simp only [List.mem_cons, List.not_mem_nil, or_false] at ha
  rcases ha with rfl | rfl
  · exact (by decide : Typed (.appendEntries heartbeatOfTwo))
  · trivial

/-- Without the response, node 1 refuses. -/
theorem promise_kept_vote :
    ∃ p c', (strayRun trio (answered ++ [.call 1 .tick { clock := 50 * ms }])).up 1 = some p ∧
      Refused (core ((strayRun trio (answered ++ [.call 1 .tick { clock := 50 * ms }])).context
        1 p 1 { clock := 150 * ms })) True 3 ⟨2, 3, 0, 0, false⟩ (core c') := by
  have hrun : answered ++ [.call 1 .tick { clock := 50 * ms }] = started ++
      handAppend 1 2 1 heartbeatOfTwo { clock := ms } :: [.call 1 .tick { clock := 50 * ms }] := by
    rw [answered, List.append_assoc]
    rfl
  obtain ⟨p, hp, hvalid⟩ := (Option.any_eq_true _ _).mp (by decide +kernel :
    ((strayRun trio started).up 1).any (fun p => heartbeatOfTwo.valid p.node 2 &&
      decide (p.node.currentTerm ≤ 1)) = true)
  rw [Bool.and_eq_true, decide_eq_true_eq] at hvalid
  obtain ⟨p', hp', hret⟩ := (Option.any_eq_true _ _).mp (by decide +kernel :
    ((strayRun trio (started ++ handAppend 1 2 1 heartbeatOfTwo { clock := ms } ::
      [.call 1 .tick { clock := 50 * ms }])).up 1).any (fun p => returned voteOfThree.run
        ((strayRun trio (started ++ handAppend 1 2 1 heartbeatOfTwo { clock := ms } ::
          [.call 1 .tick { clock := 50 * ms }])).context 1 p 1 { clock := 150 * ms })) = true)
  obtain ⟨c', hc', -⟩ := exists_of_returned hret
  have honly : ∀ pre a, pre ++ [a] <+: [Action.call 1 .tick { clock := 50 * ms }] →
      a = .call 1 .tick { clock := 50 * ms } := by
    intro pre a hpre
    exact List.mem_singleton.mp (hpre.subset (List.mem_append_right _ (List.mem_singleton_self a)))
  rw [hrun]
  refine ⟨p', c', hp', ?_⟩
  have hkept := promise_kept trio (by decide) RaftLog.flatCodec covers_flatCodec started
    [.call 1 .tick { clock := 50 * ms }] 1 2 1 heartbeatOfTwo { clock := ms } typed_answered p hp
    hvalid.1 hvalid.2 (fun pre a hpre => ?_) (fun pre a hpre => ?_) p' hp' voteOfThree
    { clock := 150 * ms } (by decide) c' hc'
  · have hrefused := hkept.2.2 3 1 1 0 ⟨2, 3, 0, 0, false⟩ rfl (by decide)
    rw [show (({ clock := 150 * ms } : Env).sends = []) = True from eq_true rfl] at hrefused
    exact hrefused
  · rw [honly pre a hpre]
    exact fun _ => ⟨by decide, by decide, nofun, fun _ _ => id⟩
  · rw [honly pre a hpre]
    exact fun _ _ _ => id

end RaftKV.Local
