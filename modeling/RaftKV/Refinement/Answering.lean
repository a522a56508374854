import RaftKV.Refinement.Installing

/-!
# Answers to a leader, the timer, and the settings keep the relation

A success counts as far as the node that sent it has acknowledged (`EntriesReplyOK`,
`ChunkReplyOK`), and it is about the request in flight because no two requests of a leader in
its term have the same id. An answer from a later term makes the node a follower; under
`synced` it may only do so when the node has no promise left, which the caller has to say.
-/

namespace RaftKV

open RaftM GhostLogic
open Consensus (lastTerm Decided IsQuorum)

namespace Setting

variable {S : Setting} {v peer : ℤ} {W : World} {Γ : Ghost} {c : Context}

/-! ## Progress of a peer -/

theorem FlightOK.none {h : History} {inc : ℕ} {net : List Envelope} {seq : ℕ} {u : ℤ} :
    S.FlightOK h v inc net seq u {} :=
  ⟨fun hne => absurd rfl hne, (fun hs => by cases hs), fun _ hne => absurd rfl hne⟩

section

variable (h : S.Steady v Γ c) (hr : c.node.role = .leader)
include h hr

/-- What a peer has acknowledged to a leader is in the leader's log. -/
theorem Steady.ack_le (u : ℤ) : Γ.hist.ack u (Γ.hist.term v) ≤ (Γ.hist.log v).length := by
  rcases Nat.eq_zero_or_pos (Γ.hist.ack u (Γ.hist.term v)) with h0 | hpos
  · omega
  · rw [h.own_log hr]
    exact (h.shared.inv.ack_bound hpos).2.2

theorem Steady.setPeers
    {matchIndex nextIndex : ℤ → ℤ} {inflight : ℤ → Inflight} {lease : ℤ → Option ℤ}
    (hmatch : ∀ u ∈ S.members, ∃ k : ℕ, matchIndex u = k ∧ k ≤ Γ.hist.ack u (Γ.hist.term v))
    (hnext : ∀ u ∈ S.members, 1 ≤ nextIndex u ∧ nextIndex u ≤ (Γ.hist.log v).length + 1)
    (hflights : ∀ u, S.FlightOK Γ.hist v c.incarnation c.net c.node.rpcSequence u (inflight u))
    (hlease : S.synced → ∀ u time, lease u = some time →
      ∃ heard, (u, Event.accepted (Γ.hist.term v) heard) ∈ c.trace ∧ time ≤ heard) :
    S.Steady v Γ { c with node := { c.node with
      leaseConfirmed := lease, inflight := inflight
      matchIndex := matchIndex, nextIndex := nextIndex } } :=
  { h with
    loose := { h.loose with
      core := { h.loose.core with }
      lead := fun hr => { h.loose.lead hr with
        matched := hmatch, next := hnext, flights := hflights, confirmed := hlease }
      reads := fun hr => { h.loose.reads hr with }
      promise := h.loose.promise }
    idle := fun hne => absurd hr hne }

theorem Steady.advanceMatch
    (hp : peer ∈ S.members) {lease : ℤ → Option ℤ}
    (hlease : S.synced → ∀ u time, lease u = some time →
      ∃ heard, (u, Event.accepted (Γ.hist.term v) heard) ∈ c.trace ∧ time ≤ heard)
    {k : ℕ} (hk : k ≤ Γ.hist.ack peer (Γ.hist.term v)) :
    S.Steady v Γ { c with node := { c.node with
      leaseConfirmed := lease
      inflight := Function.update c.node.inflight peer {}
      matchIndex := Function.update c.node.matchIndex peer (max (c.node.matchIndex peer) k)
      nextIndex := Function.update c.node.nextIndex peer
        (max (c.node.matchIndex peer) k + 1) } } := by
  have hlead := h.loose.lead hr
  obtain ⟨j, hj, hack⟩ : ∃ j : ℕ, c.node.matchIndex peer = j ∧
    j ≤ Γ.hist.ack peer (Γ.hist.term v) := hlead.matched peer hp
  have hle := h.ack_le hr peer
  refine h.setPeers hr
    ((Function.forall_update_iff _ fun u (x : ℤ) => u ∈ S.members → ∃ k : ℕ, x = k ∧
      k ≤ Γ.hist.ack u (Γ.hist.term v)).mpr ⟨fun _ => ?_, fun u _ => hlead.matched u⟩)
    ((Function.forall_update_iff _ fun u (x : ℤ) => u ∈ S.members → 1 ≤ x ∧
      x ≤ (Γ.hist.log v).length + 1).mpr ⟨fun _ => ?_, fun u _ => hlead.next u⟩)
    ((Function.forall_update_iff _ fun u x => S.FlightOK Γ.hist v c.incarnation c.net
      c.node.rpcSequence u x).mpr ⟨FlightOK.none, fun u _ => hlead.flights u⟩) hlease
  · exact ⟨max j k, by rw [hj]; push_cast; rfl, max_le hack hk⟩
  · rw [hj]
    omega

theorem Steady.retreat (hp : peer ∈ S.members)
    (hint : ℤ) :
    S.Steady v Γ { c with node := { c.node with
      inflight := Function.update c.node.inflight peer {}
      nextIndex := Function.update c.node.nextIndex peer
        (max (c.node.matchIndex peer + 1) (min (c.node.nextIndex peer - 1) hint)) } } := by
  have hlead := h.loose.lead hr
  obtain ⟨j, hj, hack⟩ : ∃ j : ℕ, c.node.matchIndex peer = j ∧
    j ≤ Γ.hist.ack peer (Γ.hist.term v) := hlead.matched peer hp
  obtain ⟨h₁, h₂⟩ : 1 ≤ c.node.nextIndex peer ∧
    c.node.nextIndex peer ≤ (Γ.hist.log v).length + 1 := hlead.next peer hp
  have hle := h.ack_le hr peer
  refine h.setPeers hr hlead.matched
    ((Function.forall_update_iff _ fun u (x : ℤ) => u ∈ S.members → 1 ≤ x ∧
      x ≤ (Γ.hist.log v).length + 1).mpr ⟨fun _ => ?_, fun u _ => hlead.next u⟩)
    ((Function.forall_update_iff _ fun u x => S.FlightOK Γ.hist v c.incarnation c.net
      c.node.rpcSequence u x).mpr ⟨FlightOK.none, fun u _ => hlead.flights u⟩) hlead.confirmed
  rw [hj]
  omega

end

/-! ## Answers to `AppendEntries` -/

theorem sendIfBehind_keeps (hp : peer ∈ S.members) (hne : peer ≠ v) :
    S.KeepsLead v (sendIfBehind peer) := by
  intro Γ c h hr
  rw [sendIfBehind, gwp_getNode, gwp_getLog]
  split_ifs
  · exact sendAppendEntries_keeps hp hne Γ c h hr
  · exact gwp_pure ⟨h, Stays.refl Γ c⟩

theorem broadcastIfCommitted_keeps (before : ℤ) : S.KeepsLead v (broadcastIfCommitted before) := by
  intro Γ c h hr
  rw [broadcastIfCommitted, gwp_getNode]
  split_ifs
  · exact broadcastAppendEntries_keeps Γ c h hr
  · exact gwp_pure ⟨h, Stays.refl Γ c⟩

section

variable (h : S.Steady v Γ c) (hr : c.node.role = .leader) (hp : peer ∈ S.members)
include h hr hp

theorem noteSuccess_spec (hne : peer ≠ v) (hid : (c.node.inflight peer).id ≠ 0) {k : ℕ}
    (hk : (c.node.inflight peer).lastIndex = k) (hack : k ≤ Γ.hist.ack peer (Γ.hist.term v))
    (hheard : S.synced → Heard c.net c.trace peer v (Γ.hist.term v) (c.node.inflight peer).id) :
    (S.logic v).gwp (noteSuccess peer (c.node.inflight peer))
      (fun _ Γ' c' => S.Steady v Γ' c') Γ c := by
  have hlead := h.loose.lead hr
  rw [noteSuccess, hk]
  refine gwp_modifyNode ?_
  have hlease : S.synced → ∀ u time, (if (c.node.inflight peer).type = .kAppendEntries then
        Function.update c.node.leaseConfirmed peer (some (c.node.inflight peer).leaseSentAt)
      else c.node.leaseConfirmed) u = some time →
      ∃ heard, (u, Event.accepted (Γ.hist.term v) heard) ∈ c.trace ∧ time ≤ heard := by
    intro hy u time hu
    by_cases hup : u = peer
    · split_ifs at hu with htype
      · subst hup
        rw [Function.update_self] at hu
        obtain ⟨heard, hmem, e, he, hsrc, hle, m, hm, hterm, hrpc⟩ := hheard hy
        have hsent := (hlead.flights u).lease hy hid htype e he hsrc m hm hterm hrpc
        exact ⟨heard, hmem, by rw [← Option.some.inj hu]; exact hsent.trans hle⟩
      · exact hlead.confirmed hy u time hu
    · refine hlead.confirmed hy u time ?_
      split_ifs at hu with htype
      · rwa [Function.update_of_ne hup] at hu
      · exact hu
  have h₁ := h.advanceMatch hr hp hlease hack
  rw [gwp_getNode]
  refine gwp_seq (advanceCommitIndex_spec h₁ hr) fun _ Γ₂ c₂ _ ⟨h₂, hadv⟩ => ?_
  have hr₂ : c₂.node.role = .leader := hadv.role.trans hr
  refine finishReadIndexRounds_keeps.seq h₂ fun _ Γ₃ c₃ _ h₃ hst₃ => ?_
  have hr₃ := hst₃.role.trans hr₂
  refine (broadcastIfCommitted_keeps _).seq h₃ hr₃ fun _ Γ₄ c₄ _ h₄ hst₄ => ?_
  exact gwp_mono (sendIfBehind_keeps hp hne Γ₄ c₄ h₄ (hst₄.role.trans hr₃))
    fun _ _ _ _ hq => hq.1

theorem noteRejection_spec (hne : peer ≠ v) (last : ℤ) :
    (S.logic v).gwp (noteRejection peer last) (fun _ Γ' c' => S.Steady v Γ' c') Γ c := by
  rw [noteRejection]
  refine gwp_modifyNode ?_
  refine finishReadIndexRounds_keeps.seq (h.retreat hr hp _) fun _ Γ₁ c₁ _ h₁ hst₁ => ?_
  exact gwp_mono (sendAppendEntries_keeps hp hne Γ₁ c₁ h₁ (hst₁.role.trans hr))
    fun _ _ _ _ hq => hq.1

theorem useAppendResponse_spec (hne : peer ≠ v) {inc : ℕ} {m : AppendEntriesResponse}
    (hm : S.EntriesReplyOK (c.world Γ) peer v inc m) (hterm : m.term = Γ.hist.term v) :
    (S.logic v).gwp (useAppendResponse peer m) (fun _ Γ' c' => S.Steady v Γ' c') Γ c := by
  have finish : (S.logic v).gwp finishReadIndexRounds (fun _ Γ' c' => S.Steady v Γ' c') Γ c :=
    gwp_mono (finishReadIndexRounds_keeps Γ c h) fun _ _ _ _ hq => hq.1
  rw [useAppendResponse, gwp_getNode]
  simp only
  refine gwp_ite (fun _ => finish) fun hstale => ?_
  push Not at hstale
  obtain ⟨hid, hrpc, -⟩ := hstale
  refine gwp_ite (fun _ => finish) fun hodd => ?_
  split_ifs with hs
  · obtain ⟨⟨k, hk, hack⟩, hheard⟩ := hm.2.2.2 hs
    rw [hterm] at hack hheard
    have hlast : m.lastLogIndex = (c.node.inflight peer).lastIndex := by
      by_contra hne'
      exact hodd ⟨hs, hne'⟩
    exact noteSuccess_spec h hr hp hne hid (hlast.symm.trans hk) hack
      fun hy => hrpc ▸ hheard hy
  · exact noteRejection_spec h hr hp hne _

theorem countProbe_spec {inc : ℕ} {m : AppendEntriesResponse}
    (hm : S.EntriesReplyOK (c.world Γ) peer v inc m) (hterm : m.term = Γ.hist.term v)
    (hinc : S.linear → inc = c.incarnation) : (S.logic v).gwp (countProbe peer m)
      (fun _ Γ' c' => S.Steady v Γ' c' ∧ Stays Γ c Γ' c') Γ c := by
  rw [countProbe, gwp_getNode]
  split_ifs with hc
  · refine ackReadIndexProbe_spec h hr hp fun hlin => ?_
    have hfloor := hm.2.2.1
    rw [hinc hlin, hterm] at hfloor
    rw [← hc.2]
    exact hfloor
  · exact gwp_pure ⟨h, Stays.refl Γ c⟩

end

theorem notePeerContact_keeps (w : ℤ) : S.Keeps v (notePeerContact w) := by
  intro Γ c h
  rw [← bind_pure (notePeerContact w)]
  refine gwp_notePeerContact fun env active henv => gwp_pure ⟨?_, rfl⟩
  exact (h.env henv).tweak ..

theorem isLeader_iff {n : Node} : n.isLeader = true ↔ n.running = true ∧ n.role = .leader := by
  simp [Node.isLeader]

theorem handleAppendEntriesResponse_spec (h : S.Steady v Γ c) {inc : ℕ}
    {m : AppendEntriesResponse} (hm : S.EntriesReplyOK (c.world Γ) peer v inc m)
    (hinc : S.linear → inc = c.incarnation)
    (hfree : S.synced → c.node.currentTerm < m.term → Freed (c.world Γ) v) :
    (S.logic v).gwp (handleAppendEntriesResponse peer m) (fun _ Γ' c' => S.Steady v Γ' c') Γ c := by
  rw [handleAppendEntriesResponse, gwp_getNode]
  refine gwp_unless (fun _ => gwp_pure h) fun hrun => ?_
  obtain ⟨hp, hne⟩ := mem_of_isRemotePeer h hrun.2
  refine gwp_ite (fun hlt => ?_) fun hlt => ?_
  · exact gwp_mono (becomeFollower_spec h (hm.1.trans (h.shared.term_le peer))
      fun hy => hfree hy hlt) fun _ _ _ _ hs => hs.1
  refine gwp_ite (fun _ => gwp_pure h) fun hskip => ?_
  push Not at hskip
  obtain ⟨hlead, hterm⟩ := hskip
  have hr := (isLeader_iff.mp hlead).2
  rw [h.core.term] at hterm
  refine (notePeerContact_keeps peer).seq h fun _ Γ₁ c₁ hext₁ h₁ hst₁ => ?_
  have hr₁ := hst₁.role.trans hr
  refine checkReadIndexTimeout_keeps.seq h₁ hr₁ fun _ Γ₂ c₂ hext₂ h₂ hst₂ => ?_
  have hr₂ := hst₂.role.trans hr₁
  have hm₂ : S.EntriesReplyOK (c₂.world Γ₂) peer v inc m := (hm.mono hext₁.grows).mono hext₂.grows
  have hterm₂ : m.term = Γ₂.hist.term v := by rw [hterm, (hst₁.trans hst₂).hist]
  refine gwp_seq (countProbe_spec h₂ hr₂ hp hm₂ hterm₂ fun hl => ?_)
    fun _ Γ₃ c₃ hext₃ ⟨h₃, hst₃⟩ => ?_
  · rw [hinc hl, hext₂.incarnation, hext₁.incarnation]
  · exact useAppendResponse_spec h₃ (hst₃.role.trans hr₂) hp hne (hm₂.mono hext₃.grows)
      (by rw [hterm₂, hst₃.hist])

/-! ## Answers to `InstallSnapshot` -/

theorem Steady.seek (h : S.Steady v Γ c) (hr : c.node.role = .leader) (peer : ℤ) {offset : ℕ}
    (hle : offset ≤ (c.node.inflight peer).snapshotData.length) :
    S.Steady v Γ { c with
      node := c.node.setInflight peer
        { (c.node.inflight peer) with snapshotOffset := offset } } := by
  have hf := (h.loose.lead hr).flights peer
  exact h.setInflight hr { hf with
    snapshot := fun hs => ⟨hle, (hf.snapshot hs).2⟩ }

/-- The snapshot that was acknowledged is the one in flight. -/
theorem Steady.shipped_ack (h : S.Steady v Γ c) (hr : c.node.role = .leader)
    {m : InstallSnapshotResponse} (hm : ChunkReplyOK (c.world Γ) peer v m)
    (hterm : m.term = Γ.hist.term v) (hsnap : (c.node.inflight peer).snapshot = true)
    (hid : (c.node.inflight peer).id ≠ 0) (hrpc : m.rpcId = (c.node.inflight peer).id)
    (hc : m.complete = true) : ∃ k : ℕ, (c.node.inflight peer).snapshotIndex = k ∧
      k ≤ Γ.hist.ack peer (Γ.hist.term v) := by
  have hlead := h.loose.lead hr
  obtain ⟨e', he', hsrc', m', hm', hterm', hrpc', k, hk, hack⟩ := hm.2 hc
  obtain ⟨-, e, he, hsrc, -, -, -, hkind⟩ := (hlead.flights peer).sent hid
  rcases hkind with ⟨a, -, -, -, hno⟩ | ⟨a, ha, hterma, hrpca, hidx⟩
  · rw [hsnap] at hno
    cases hno
  have heq := hlead.unique e he e' he' hsrc hsrc' (c.node.inflight peer).id
    (by rw [ha, requestId, hterma, hrpca])
    (by rw [hm', requestId, hterm', hterm, hrpc', hrpc]; rfl)
  rw [ha, hm'] at heq
  rw [hterm] at hack
  refine ⟨k, ?_, hack⟩
  rw [← hidx, Message.installSnapshot.inj heq, hk]

theorem handleInstallSnapshotResponse_spec (h : S.Steady v Γ c) {m : InstallSnapshotResponse}
    (hm : ChunkReplyOK (c.world Γ) peer v m)
    (hfree : S.synced → c.node.currentTerm < m.term → Freed (c.world Γ) v) :
    (S.logic v).gwp (handleInstallSnapshotResponse peer m)
      (fun _ Γ' c' => S.Steady v Γ' c') Γ c := by
  rw [handleInstallSnapshotResponse, gwp_getNode]
  refine gwp_unless (fun _ => gwp_pure h) fun hrun => ?_
  obtain ⟨hp, hne⟩ := mem_of_isRemotePeer h hrun.2
  refine gwp_ite (fun hlt => ?_) fun hlt => ?_
  · exact gwp_mono (becomeFollower_spec h (hm.1.trans (h.shared.term_le peer))
      fun hy => hfree hy hlt) fun _ _ _ _ hs => hs.1
  refine gwp_ite (fun _ => gwp_pure h) fun hskip => ?_
  push Not at hskip
  obtain ⟨hlead, hterm⟩ := hskip
  have hr := (isLeader_iff.mp hlead).2
  rw [h.core.term] at hterm
  refine gwp_notePeerContact fun env active henv => ?_
  have h₁ : S.Steady v Γ { c with env := env, node := { c.node with peerActive := active } } :=
    (h.env henv).tweak ..
  simp only
  refine gwp_ite (fun _ => gwp_pure h₁) fun hstale => ?_
  push Not at hstale
  obtain ⟨hsnap, hid, hrpc⟩ := hstale
  -- the same snapshot from another offset
  have resume : ∀ offset ≤ (c.node.inflight peer).snapshotData.length, (S.logic v).gwp
      (do
        modifyNode fun n =>
          n.setInflight peer { (c.node.inflight peer) with snapshotOffset := offset }
        sendSnapshotChunk peer)
      (fun _ Γ' c' => S.Steady v Γ' c') Γ
      { c with env := env, node := { c.node with peerActive := active } } := by
    intro offset hle
    refine gwp_modifyNode (gwp_mono (sendSnapshotChunk_spec (h₁.seek hr peer hle) hr hp hne ?_)
      fun _ _ _ _ hq => hq.1)
    simp [Node.setInflight, hsnap]
  refine gwp_unless (fun _ => resume 0 (Nat.zero_le _)) fun hs => ?_
  by_cases hc : m.complete = true
  swap
  · rw [if_pos hc]
    refine resume _ ?_
    split_ifs with hend
    · exact Nat.zero_le _
    · omega
  rw [if_neg (not_not.mpr hc)]
  obtain ⟨k, hk, hack⟩ := h.shipped_ack hr hm hterm hsnap hid hrpc hc
  rw [hk]
  have h₂ := h₁.advanceMatch hr hp (h₁.loose.lead hr).confirmed hack
  exact gwp_modifyNode (gwp_mono (sendIfBehind_keeps hp hne Γ _ h₂ hr) fun _ _ _ _ hq => hq.1)

/-! ## The timer -/

theorem Steady.setElapsed (h : S.Steady v Γ c) (hr : c.node.role = .leader)
    (elapsed : ℤ → ℤ) (timer : ℤ) :
    S.Steady v Γ { c with node := { c.node with
      inflight := fun u => if (c.node.inflight u).id = 0 then c.node.inflight u
        else { (c.node.inflight u) with elapsedMs := elapsed u }
      heartbeatTimerMs := timer } } := by
  have hlead := h.loose.lead hr
  exact { h with
    loose := { h.loose with
      core := { h.loose.core with }
      lead := fun hr => { hlead with
        flights := fun u => by
          simp only
          split_ifs
          · exact hlead.flights u
          · exact { hlead.flights u with } }
      reads := fun hr => { h.loose.reads hr with }
      promise := h.loose.promise }
    idle := fun hne => absurd hr hne }

theorem tickSend_keeps : S.KeepsLead v tickSend := by
  intro Γ c h hr
  rw [tickSend]
  refine gwp_modifyNode ?_
  have h₁ := h.setElapsed hr (fun u => (c.node.inflight u).elapsedMs + kTickIntervalMs)
    (c.node.heartbeatTimerMs - kTickIntervalMs)
  rw [gwp_getNode]
  split_ifs
  · refine broadcastAppendEntries_keeps.seq h₁ hr fun _ Γ₂ c₂ _ h₂ hst₂ =>
      gwp_modifyNode_last ⟨?_, hst₂⟩
    exact h₂.tweak ..
  refine KeepsLead.forM (fun peer hpeer => ?_) Γ _ h₁ hr
  obtain ⟨hp, hne⟩ := h₁.toReady.mem_of_others hpeer
  intro Γ₂ c₂ h₂ hr₂
  rw [gwp_getNode]
  split_ifs
  · exact sendAppendEntries_keeps hp hne Γ₂ c₂ h₂ hr₂
  · exact gwp_pure ⟨h₂, Stays.refl Γ₂ c₂⟩

section

variable (h : S.Steady v Γ c)
include h

theorem tickReads_spec : (S.logic v).gwp tickReads (fun _ Γ' c' => S.Steady v Γ' c') Γ c := by
  rw [tickReads, gwp_getNode]
  refine gwp_unless (fun _ => gwp_pure h) fun hlead => ?_
  refine expireUncommittedProposals_keeps.seq h (isLeader_iff.mp hlead).2
    fun _ Γ₁ c₁ _ h₁ _ => ?_
  exact gwp_mono (finishReadIndexRounds_keeps Γ₁ c₁ h₁) fun _ _ _ _ hq => hq.1

theorem tickLeader_spec : (S.logic v).gwp tickLeader (fun _ Γ' c' => S.Steady v Γ' c') Γ c := by
  rw [tickLeader, gwp_getNode]
  split_ifs with hr
  · refine tickSend_keeps.seq h hr fun _ Γ₁ c₁ _ h₁ hst₁ => ?_
    have hr₁ := hst₁.role.trans hr
    refine checkReadIndexTimeout_keeps.seq h₁ hr₁ fun _ Γ₂ c₂ _ h₂ hst₂ => ?_
    refine gwp_seq (checkQuorum_spec h₂ (hst₂.role.trans hr₁)) fun _ Γ₃ c₃ _ h₃ => ?_
    exact tickReads_spec h₃
  · exact gwp_pure h

/-- Only a node whose deadline has passed campaigns. -/
theorem tickElection_spec (hrun : c.node.running = true) :
    (S.logic v).gwp tickElection (fun _ Γ' c' => S.Steady v Γ' c') Γ c := by
  rw [tickElection, gwp_getNode]
  split_ifs with hr
  · refine gwp_now fun env henv => ?_
    have h₁ := h.env henv
    split_ifs with hd
    · exact becomePreCandidate_spec h₁ hrun hr fun hy =>
        (h₁.loose.promise hy hrun).freed_of_deadline hd
    · exact gwp_pure h₁
  · exact gwp_pure h

theorem tick_spec : (S.logic v).gwp tick (fun _ Γ' c' => S.Steady v Γ' c') Γ c := by
  rw [tick, gwp_getNode]
  refine gwp_unless (fun _ => gwp_pure h) fun hrun => ?_
  exact gwp_seq (tickElection_spec h hrun) fun _ _ _ _ h₁ => tickLeader_spec h₁

/-! ## Start, stop and settings -/

/-- A node that starts forgets its leader. -/
theorem start_spec (hfree : S.synced → Freed (c.world Γ) v) :
    (S.logic v).gwp start (fun _ Γ' c' => S.Steady v Γ' c') Γ c := by
  rw [start]
  refine gwp_modifyNode ?_
  have h₁ : S.Steady v Γ { c with node := { c.node with running := true } } :=
    { h with
      loose := { h.loose with
        core := { h.loose.core with active := fun _ => rfl }
        lead := fun hr => { h.loose.lead hr with }
        reads := fun hr => { h.loose.reads hr with }
        promise := fun hy _ => (hfree hy).promise _ }
      idle := fun hr => { h.idle hr with } }
  rw [gwp_getNode]
  have hmax : c.node.currentTerm ≤ int32Max := h.core.term ▸ h.shared.term_le v
  refine gwp_seq (becomeFollower_spec h₁ hmax hfree) fun _ Γ₂ c₂ _ ⟨h₂, _⟩ => ?_
  exact gwp_mono (applyCommitted_spec h₂) fun _ _ _ _ hq => hq.1

theorem stop_spec : (S.logic v).gwp stop (fun _ Γ' c' => S.Steady v Γ' c') Γ c := by
  rw [stop]
  refine gwp_modifyNode ?_
  have hready := h.toReady.restate c.log.hardState (n :=
      { c.node with running := false, role := .follower, leaderId := -1 })
    (Consensus.Le.refl v Γ.hist) h.shared rfl h.disk.hard
    ⟨rfl, rfl, rfl, rfl, rfl, rfl, rfl, .inl rfl⟩ h.core.term h.core.vote (by simp)
    (fun hne => absurd rfl hne) (fun hc => by cases hc) fun _ hrun => by cases hrun
  exact gwp_mono (drain_spec hready (by simp) _ _) fun _ _ _ _ hq => hq.1

theorem setSnapshotThreshold_spec (entries : ℤ) :
    (S.logic v).gwp (setSnapshotThreshold entries) (fun _ Γ' c' => S.Steady v Γ' c') Γ c := by
  rw [setSnapshotThreshold, gwp_getLog]
  split_ifs
  · exact gwp_fail h.toSafe fun _ => by decide
  · exact gwp_modifyNode_last (h.tweak ..)

theorem setSnapshotChunkBytes_spec (bytes : ℕ) :
    (S.logic v).gwp (setSnapshotChunkBytes bytes) (fun _ Γ' c' => S.Steady v Γ' c') Γ c := by
  rw [setSnapshotChunkBytes]
  split_ifs
  · exact gwp_fail h.toSafe fun _ => by decide
  · exact gwp_modifyNode_last (h.tweak ..)

theorem setLeaseReads_spec {enabled : Bool} (hon : enabled = true → S.leased) :
    (S.logic v).gwp (setLeaseReads enabled) (fun _ Γ' c' => S.Steady v Γ' c') Γ c := by
  rw [setLeaseReads]
  exact gwp_modifyNode_last { h with
    loose := { h.loose with
      core := { h.loose.core with lease := hon }
      lead := fun hr => { h.loose.lead hr with }
      reads := fun hr => { h.loose.reads hr with }
      promise := h.loose.promise }
    idle := fun hr => { h.idle hr with } }

end

end Setting

end RaftKV
