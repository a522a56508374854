import RaftKV.Refinement.Elections

/-!
# Campaigns and votes keep the relation

A campaign is a step of the protocol in which the node votes for itself, and a granted vote one
in which it votes for another; both are made when the hard state is durable. A pre-vote is no
step. A vote that is counted was cast, as the message that brings it tells, so a node that
counts a majority may become leader.
-/

namespace RaftKV

open RaftM GhostLogic
open Consensus (lastTerm Decided IsQuorum)

/-- Node `v` votes for `w` in its term. -/
def Ghost.grant (Γ : Ghost) (v w : ℤ) : Ghost :=
  Γ.setHist (Γ.hist.cast v (Γ.hist.term v) w)

namespace Setting

variable {S : Setting} {v : ℤ} {W : World} {Γ : Ghost} {c : Context}

theorem member_nonneg (hv : v ∈ S.members) : 0 ≤ v :=
  S.nonneg v (List.mem_toFinset.mp hv)

theorem saveHardState_eq (log : AbstractLog) {term w : ℤ} (ht : 0 ≤ term) (hw : w ∈ S.members) :
    log.saveHardState term w = .ok { log with hardState := some (term, w) } := by
  have := member_nonneg hw
  rw [AbstractLog.saveHardState, if_neg (by omega)]

/-! ## Vote requests -/

theorem broadcast_spec (h : S.Steady v Γ c) {m : RequestVote} (hsigned : Signed v (.requestVote m))
    (hm : VoteOK Γ.hist v m) : (S.logic v).gwp (broadcast (.requestVote m))
      (fun _ Γ' c' => S.Steady v Γ' c' ∧ Stays Γ c Γ' c') Γ c := by
  rw [broadcast, gwp_getNode]
  refine gwp_forM (I := fun Γ' c' => S.Steady v Γ' c' ∧ Stays Γ c Γ' c')
    (fun peer hpeer Γ' c' ⟨hs, hst⟩ => ?_) ⟨h, Stays.refl Γ c⟩
  obtain ⟨hp, hne⟩ := h.toReady.mem_of_others hpeer
  have hmsg : S.MsgOK (c'.world Γ') ⟨v, peer, c'.incarnation, c'.env.clock, .requestVote m⟩ := by
    refine ⟨hsigned, ?_⟩
    change VoteOK Γ'.hist v m
    rw [hst.hist]
    exact hm
  refine gwp_send hs.toSafe (fun env henv => gwp_pure ⟨?_, hst⟩)
    fun env henv => gwp_pure ⟨hs.env henv.ge, hst⟩
  have hsent := hs.toReady.send hmsg rfl hp hne
  exact Steady.env { hsent with idle := hs.idle } henv.ge

/-- The last term of a log is not after the term of its node. -/
theorem lastTerm_bounds (h : S.Shared W) (w : ℤ) :
    0 ≤ lastTerm (W.hist.log w) ∧ lastTerm (W.hist.log w) ≤ W.hist.term w := by
  by_cases hne : W.hist.log w = []
  · rw [hne]
    exact ⟨le_rfl, h.term_nonneg w⟩
  · rw [Consensus.lastTerm_eq_getElem hne]
    have hmem := List.getLast_mem hne
    exact ⟨(h.inv.term_pos (h.inv.log_matched w) hmem).le, h.inv.log_terms w _ hmem⟩

theorem Steady.signed_vote (h : S.Steady v Γ c) (term : ℤ) (hpos : 0 < term)
    (hterm : Γ.hist.term v ≤ term) (prevote : Bool) : Signed v (.requestVote
      { term := term, candidateId := c.node.nodeId, lastLogIndex := c.log.lastIndex
        lastLogTerm := c.log.lastTerm, prevote := prevote }) := by
  have hrep := h.core.settled.rep
  obtain ⟨hnn, hle⟩ : 0 ≤ lastTerm (Γ.hist.log v) ∧ lastTerm (Γ.hist.log v) ≤ Γ.hist.term v :=
    lastTerm_bounds h.shared v
  rw [← hrep.lastTerm_eq] at hnn hle
  refine ⟨h.core.id, hpos, ?_, hnn, hle.trans hterm⟩
  simp only [hrep.lastIndex_eq]
  omega

/-! ## Campaigns -/

theorem Shared.campaign (h : S.Shared (c.world Γ)) (hv : v ∈ S.members)
    (hmax : Γ.hist.term v < int32Max) (hfree : S.synced → Freed (c.world Γ) v) :
    S.Shared (c.world (Γ.campaign v)) ∧ Consensus.Le v Γ.hist (Γ.campaign v).hist := by
  have hnn : 0 ≤ Γ.hist.term v := h.term_nonneg v
  have hstep : Consensus.Step S.members S.Good v Γ.hist (Γ.campaign v).hist :=
    .campaign (by omega) (by omega)
  have hle := (h.inv.step hstep).2
  refine ⟨h.setHist hv hstep ?_ fun hy => (h.lease hy).raise hle rfl (hfree hy), hle⟩
  simp only [Consensus.State.cast, Consensus.State.setTerm, Function.update_self]
  omega

theorem Steady.campaign (h : S.Steady v Γ c) (hrun : c.node.running = true)
    (hr : c.node.role ≠ .leader) (hmax : Γ.hist.term v < int32Max)
    (hfree : S.synced → Freed (c.world Γ) v) :
    S.Steady v (Γ.campaign v) { c with
      log := { c.log with hardState := some (c.node.currentTerm + 1, c.node.nodeId) }
      node := { c.node with
        currentTerm := c.node.currentTerm + 1
        votedFor := c.node.nodeId
        role := .candidate
        leaderId := -1
        votes := {c.node.nodeId} } } := by
  obtain ⟨hshared, hle⟩ := h.shared.campaign h.member hmax hfree
  have hterm : (Γ.campaign v).hist.term v = Γ.hist.term v + 1 := Function.update_self ..
  have hballot : (Γ.campaign v).hist.ballot v (Γ.hist.term v + 1) = some v := if_pos ⟨rfl, rfl⟩
  have hvote : (Γ.campaign v).hist.voteLog v (Γ.hist.term v + 1) = Γ.hist.log v :=
    if_pos ⟨rfl, rfl⟩
  have hnone : Γ.hist.leader (Γ.hist.term v + 1) ≠ some v := by
    intro hl
    have hle' : Γ.hist.term v + 1 ≤ Γ.hist.term v := (h.shared.inv.leader_bound hl).2
    omega
  have hready := h.toReady.restate (some (c.node.currentTerm + 1, c.node.nodeId)) (n :=
      { c.node with
        currentTerm := c.node.currentTerm + 1
        votedFor := c.node.nodeId
        role := .candidate
        leaderId := -1
        votes := {c.node.nodeId} }) hle hshared rfl
    (.inl (by rw [hterm, hballot, h.core.term, h.core.id]; rfl))
    ⟨rfl, rfl, rfl, rfl, rfl, rfl, rfl, .inl rfl⟩ (by rw [hterm, ← h.core.term])
    (by rw [hterm, hballot]; exact h.core.id) (by simp) (fun _ => hrun)
    (fun _ => by
      rw [hterm]
      refine ⟨hballot, hnone, .inl hvote, fun w hw => ?_⟩
      rw [Finset.mem_singleton.mp hw, h.core.id]
      exact ⟨h.member, hballot⟩)
    fun hy _ => ((hfree hy).mono (World.Grows.setHist hle) fun _ _ he => he).promise _
  exact { hready with idle := fun _ => { h.idle hr with } }

theorem becomeCandidate_spec (h : S.Steady v Γ c) (hrun : c.node.running = true)
    (hr : c.node.role ≠ .leader) (hfree : S.synced → Freed (c.world Γ) v) :
    (S.logic v).gwp becomeCandidate (fun _ Γ' c' => S.Steady v Γ' c') Γ c := by
  have hnn : 0 ≤ Γ.hist.term v := h.shared.term_nonneg v
  have hmax : Γ.hist.term v ≤ int32Max := h.shared.term_le v
  rw [becomeCandidate, gwp_getNode]
  refine gwp_ite (fun _ => gwp_fail h.toSafe fun _ => by decide) fun hend => ?_
  have hlt : Γ.hist.term v < int32Max := lt_of_le_of_ne hmax (h.core.term ▸ hend)
  have hwrite : c.log.saveHardState (c.node.currentTerm + 1) c.node.nodeId =
      .ok { c.log with hardState := some (c.node.currentTerm + 1, c.node.nodeId) } :=
    saveHardState_eq c.log (by rw [h.core.term]; omega) (h.core.id.symm ▸ h.member)
  obtain ⟨-, hle⟩ := h.shared.campaign h.member hlt hfree
  refine gwp_writeLog_step h.toSafe hwrite hle fun env henv => gwp_modifyNode ?_
  have h₁ := (h.campaign hrun hr hlt hfree).env henv.ge
  refine gwp_resetElectionTimer fun env' deadline henv' hd => ?_
  have h₂ := (h₁.env henv').setDeadline hd
  have hterm : (Γ.campaign v).hist.term v = Γ.hist.term v + 1 := Function.update_self ..
  refine gwp_ite (fun hq => becomeLeader_spec h₂ rfl (le_of_eq hq)) fun hq => ?_
  refine gwp_mono (broadcast_spec h₂ (h₂.signed_vote (c.node.currentTerm + 1)
    (by rw [h.core.term]; omega) (by rw [hterm, h.core.term]) false) fun _ => ?_)
    fun _ _ _ _ hs => hs.1
  have hvote : (Γ.campaign v).hist.voteLog v (Γ.hist.term v + 1) = Γ.hist.log v :=
    if_pos ⟨rfl, rfl⟩
  have hrep := h₂.core.settled.rep
  change LogRep _ (Γ.hist.log v) at hrep
  rw [h.core.term, hvote]
  exact ⟨if_pos ⟨rfl, rfl⟩, hrep.lastIndex_eq, hrep.lastTerm_eq⟩

/-- A pre-vote changes neither the term nor the vote. -/
theorem becomePreCandidate_spec (h : S.Steady v Γ c) (hrun : c.node.running = true)
    (hr : c.node.role ≠ .leader) (hfree : S.synced → Freed (c.world Γ) v) :
    (S.logic v).gwp becomePreCandidate (fun _ Γ' c' => S.Steady v Γ' c') Γ c := by
  have hnn : 0 ≤ Γ.hist.term v := h.shared.term_nonneg v
  rw [becomePreCandidate, gwp_getNode]
  refine gwp_ite (fun _ => becomeCandidate_spec h hrun hr hfree) fun hq => ?_
  refine gwp_ite (fun _ => gwp_fail h.toSafe fun _ => by decide) fun hend => ?_
  have hready := h.toReady.restate c.log.hardState (n :=
      { c.node with role := .preCandidate, leaderId := -1, votes := {c.node.nodeId} })
    (Consensus.Le.refl v Γ.hist) h.shared rfl h.disk.hard
    ⟨rfl, rfl, rfl, rfl, rfl, rfl, rfl, .inl rfl⟩ h.core.term h.core.vote (by simp)
    (fun _ => hrun) (fun hc => by cases hc) fun hy _ => (hfree hy).promise _
  have h₁ : S.Steady v Γ { c with
      node := { c.node with role := .preCandidate, leaderId := -1, votes := {c.node.nodeId} } } :=
    { hready with idle := fun _ => { h.idle hr with } }
  refine gwp_modifyNode (gwp_resetElectionTimer fun env deadline henv hd => ?_)
  have h₂ := (h₁.env henv).setDeadline hd
  rw [gwp_getLog]
  exact gwp_mono (broadcast_spec h₂ (h₂.signed_vote (c.node.currentTerm + 1)
    (by rw [h.core.term]; omega) (by rw [h.core.term]; omega) true) fun hp => by cases hp)
    fun _ _ _ _ hs => hs.1

/-! ## A leader without a majority -/

theorem checkQuorum_spec (h : S.Steady v Γ c) (hr : c.node.role = .leader) :
    (S.logic v).gwp checkQuorum (fun _ Γ' c' => S.Steady v Γ' c') Γ c := by
  rw [checkQuorum, gwp_getNode]
  refine gwp_notePeerContact fun env active henv => ?_
  have h₁ : S.Steady v Γ { c with env := env, node := { c.node with peerActive := active } } :=
    (h.env henv).tweak ..
  refine gwp_ite (fun _ => gwp_pure h₁) fun hq => ?_
  refine gwp_now fun env' henv' => ?_
  have h₂ := h₁.env henv'
  rw [gwp_getNode]
  split_ifs
  · exact gwp_pure h₂
  · exact gwp_pure h₂
  have hmax : c.node.currentTerm ≤ int32Max := h.core.term ▸ h.shared.term_le v
  refine gwp_mono (becomeFollower_spec h₂ hmax fun hy => ?_) fun _ _ _ _ hs => hs.1
  exact (h₂.loose.promise hy (h₂.core.active (by rw [hr]; decide))).freed_of_role
    (by rw [hr]; decide)

/-! ## Votes for others -/

/-- What a node says of its vote is true of its term. -/
theorem replyVote_spec (h : S.Steady v Γ c) {peer : ℤ} (hp : peer ∈ S.members) (hne : peer ≠ v)
    {prevote granted : Bool} (hvote : granted = true → prevote = false →
      Γ.hist.ballot v (Γ.hist.term v) = some peer) :
    (S.logic v).gwp (replyVote peer prevote granted) (fun _ Γ' c' => S.Steady v Γ' c') Γ c := by
  rw [replyVote, gwp_getNode, h.core.term]
  refine gwp_mono (h.reply ?_ rfl hp hne) fun _ _ _ _ hs => hs.1
  exact ⟨trivial, le_rfl, hvote⟩

theorem Shared.ballot_mem (h : S.Shared W) {w t d : ℤ} (hb : W.hist.ballot w t = some d) :
    d ∈ S.members := by
  by_contra hd
  have := ballot_eq_none_of_not_mem h.reach hd t
  rw [h.inv.ballot_self hb] at this
  cases this

/-- The vote in memory is the vote that was cast. -/
theorem Steady.ballot_cases (h : S.Steady v Γ c) {peer : ℤ}
    (hvote : c.node.votedFor = -1 ∨ c.node.votedFor = peer) :
    Γ.hist.ballot v (Γ.hist.term v) = none ∨ Γ.hist.ballot v (Γ.hist.term v) = some peer := by
  rw [h.core.vote] at hvote
  cases hb : Γ.hist.ballot v (Γ.hist.term v) with
  | none => exact .inl rfl
  | some d =>
    have hd := member_nonneg (h.shared.ballot_mem hb)
    rw [hb, Option.getD_some] at hvote
    rcases hvote with hvote | hvote
    · omega
    · exact .inr (congrArg some hvote)

/-- A node that has not voted for itself campaigns not, and leads not. -/
theorem Steady.bystander (h : S.Steady v Γ c) (hb : Γ.hist.ballot v (Γ.hist.term v) ≠ some v) :
    c.node.role ≠ .candidate ∧ c.node.role ≠ .leader :=
  ⟨fun hr => hb (h.core.candidate hr).1,
    fun hr => hb (h.shared.inv.leader_ballot (h.core.leader hr))⟩

/-- The rule of the source is the one of the protocol. -/
theorem upToDate_of_isLogUpToDate {log : AbstractLog} {L L' : List LogEntry} (h : LogRep log L)
    {index term : ℤ} (hi : index = L'.length) (ht : term = lastTerm L')
    (hup : isLogUpToDate log index term = true) : Consensus.UpToDate L' L := by
  rw [isLogUpToDate, h.lastTerm_eq, h.lastIndex_eq, hi, ht] at hup
  split_ifs at hup with hne
  · exact .inl (of_decide_eq_true hup)
  · exact .inr ⟨not_not.mp hne, by exact_mod_cast of_decide_eq_true hup⟩

theorem Steady.grant (h : S.Steady v Γ c) {w : ℤ} {h' : History}
    (hle : Consensus.Le v Γ.hist h') (hshared : S.Shared ((c.world Γ).setHist h'))
    (hlog : h'.log v = Γ.hist.log v) (hterm : h'.term v = Γ.hist.term v)
    (hb : h'.ballot v (Γ.hist.term v) = some w) (hr : c.node.role ≠ .candidate)
    (hr' : c.node.role ≠ .leader) :
    S.Steady v (Γ.setHist h') { c with
      log := { c.log with hardState := some (c.node.currentTerm, w) }
      node := { c.node with votedFor := w } } := by
  have hready := h.toReady.restate (some (c.node.currentTerm, w)) (n :=
      { c.node with votedFor := w }) hle hshared hlog
    (.inl (by rw [hterm, hb, h.core.term]; rfl)) ⟨rfl, rfl, rfl, rfl, rfl, rfl, rfl, .inl rfl⟩
    (by rw [hterm]; exact h.core.term) (by rw [hterm, hb]; rfl) hr' h.core.active
    (fun hc => absurd hc hr)
    fun hy hrun => (h.loose.promise hy hrun).mono (World.Grows.setHist hle) fun _ _ he => he
  exact { hready with idle := fun _ => { h.idle hr' with } }

section

variable (h : S.Steady v Γ c)
include h

theorem castVote_spec {peer : ℤ} (hp : peer ∈ S.members) (hne : peer ≠ v)
    {m : RequestVote} (hm : VoteOK Γ.hist peer m) (hpre : m.prevote = false) :
    (S.logic v).gwp (castVote peer m) (fun _ Γ' c' => S.Steady v Γ' c') Γ c := by
  have hnn : 0 ≤ Γ.hist.term v := h.shared.term_nonneg v
  rw [castVote, gwp_getNode, gwp_getLog]
  refine gwp_ite (fun hc => ?_) fun hc => ?_
  swap
  · exact replyVote_spec h hp hne fun hg => by cases hg
  obtain ⟨hterm, hvote, hup⟩ := hc
  rw [h.core.term] at hterm
  obtain ⟨hself, hidx, hlast⟩ := hm hpre
  rw [hterm] at hself hidx hlast
  have hcases := h.ballot_cases hvote
  have hbne : Γ.hist.ballot v (Γ.hist.term v) ≠ some v := by
    rcases hcases with hb | hb <;> rw [hb] <;> simp [hne]
  obtain ⟨hr, hr'⟩ := h.bystander hbne
  -- the step, or none if the node has voted for the peer before
  obtain ⟨h', hle, hshared, hlog', hterm', hb'⟩ : ∃ h' : History, Consensus.Le v Γ.hist h' ∧
      S.Shared ((c.world Γ).setHist h') ∧ h'.log v = Γ.hist.log v ∧
      h'.term v = Γ.hist.term v ∧ h'.ballot v (Γ.hist.term v) = some peer := by
    rcases hcases with hb | hb
    · have hstep : Consensus.Step S.members S.Good v Γ.hist (Γ.grant v peer).hist :=
        .grant hb hself (upToDate_of_isLogUpToDate h.core.settled.rep hidx hlast hup)
      exact ⟨_, (h.shared.inv.step hstep).2, h.shared.setHist_of_eq h.member hstep rfl rfl, rfl,
        rfl, if_pos ⟨rfl, rfl⟩⟩
    · exact ⟨Γ.hist, Consensus.Le.refl v _, h.shared, rfl, rfl, hb⟩
  have hwrite : c.log.saveHardState c.node.currentTerm peer = _ :=
    saveHardState_eq c.log (by rw [h.core.term]; exact hnn) hp
  refine gwp_writeLog_step h.toSafe hwrite hle fun env henv => gwp_modifyNode ?_
  have h₁ := (h.grant hle hshared hlog' hterm' hb' hr hr').env henv.ge
  refine gwp_resetElectionTimer fun env' deadline henv' hd => ?_
  refine replyVote_spec ((h₁.env henv').setDeadline hd) hp hne fun _ _ => ?_
  change h'.ballot v (h'.term v) = some peer
  rw [hterm']
  exact hb'

/-- Whoever is not held back by the rule has no promise to another. -/
theorem suppressed_spec (peer : ℤ) :
    (S.logic v).gwp (suppressed peer) (fun b Γ' c' => S.Steady v Γ' c' ∧ Γ'.hist = Γ.hist ∧
      c'.node = c.node ∧ c'.log = c.log ∧ (b = false → c.node.role = .follower →
        c.node.leaderId ≠ -1 → c.node.leaderId = peer ∨
          c.node.electionDeadline ≤ c'.env.clock)) Γ c := by
  rw [suppressed, gwp_getNode]
  refine gwp_ite (fun hc => ?_) fun hc => ?_
  · refine gwp_now fun env henv => gwp_pure ⟨h.env henv, rfl, rfl, rfl, fun hb _ _ => .inr ?_⟩
    exact not_lt.mp (of_decide_eq_false hb)
  · refine gwp_pure ⟨h, rfl, rfl, rfl, fun _ hr hl => .inl ?_⟩
    by_contra hne
    exact hc ⟨hr, hl, hne⟩

theorem mem_of_isRemotePeer {peer : ℤ}
    (hp : c.node.isRemotePeer peer = true) : peer ∈ S.members ∧ peer ≠ v := by
  simp only [Node.isRemotePeer, Bool.and_eq_true, decide_eq_true_eq, h.core.id,
    h.core.peers] at hp
  exact ⟨List.mem_toFinset.mpr hp.2, hp.1⟩

theorem handleRequestVote_spec {peer : ℤ} {m : RequestVote} (hm : VoteOK Γ.hist peer m) :
    (S.logic v).gwp (handleRequestVote peer m) (fun _ Γ' c' => S.Steady v Γ' c') Γ c := by
  rw [handleRequestVote, gwp_getNode, gwp_getLog]
  refine gwp_unless (fun _ => gwp_pure h) fun hvalid => ?_
  simp only [RequestVote.valid, Bool.and_eq_true] at hvalid
  have hrun := hvalid.1.1.1.1.1.1
  obtain ⟨hp, hne⟩ := mem_of_isRemotePeer h hvalid.1.1.1.1.1.2
  refine gwp_ite (fun _ => replyVote_spec h hp hne fun hg => by cases hg) fun hlead => ?_
  refine gwp_seq (suppressed_spec h peer) fun b Γ₁ c₁ _ ⟨h₁, hhist, hnode, hlog, hfree⟩ => ?_
  rw [← hhist] at hm
  cases b with
  | true => exact replyVote_spec h₁ hp hne fun hg => by cases hg
  | false =>
    simp only [Bool.false_eq_true, if_false]
    refine gwp_ite (fun hpre => ?_) fun hpre => ?_
    · rw [hpre]
      exact replyVote_spec h₁ hp hne fun _ hf => by cases hf
    have hpre' : m.prevote = false := by simpa using hpre
    refine gwp_ite (fun hlt => ?_) fun hlt => ?_
    swap
    · exact castVote_spec h₁ hp hne hm hpre'
    have hbound := (h₁.shared.inv.ballot_bound (hm hpre').1).2
    refine gwp_seq (becomeFollower_spec h₁ (hbound.trans (h₁.shared.term_le peer)) fun hy => ?_)
      fun _ Γ₂ c₂ hext ⟨h₂, _⟩ => castVote_spec h₂ hp hne
        (VoteOK.mono hext.grows hm) hpre'
    refine (h₁.loose.promise hy (by rw [hnode]; exact hrun)).freed fun hr hl hleader => ?_
    rw [hnode] at hr hl hleader ⊢
    rcases hfree rfl hr hl with heq | hd
    · -- the leader itself asks, in a later term
      rw [heq] at hleader
      exact .inr (.inr ⟨peer, hleader, hlt.trans_le hbound⟩)
    · exact .inl hd

/-! ## Votes that are counted -/

theorem Steady.addVote {w : ℤ}
    (hw : c.node.role = .candidate → w ∈ S.members ∧ Γ.hist.ballot w (Γ.hist.term v) = some v) :
    S.Steady v Γ { c with node := { c.node with votes := insert w c.node.votes } } :=
  { h with
    loose := { h.loose with
      core := { h.loose.core with
        candidate := fun hr => by
          obtain ⟨h₁, h₂, h₃, h₄⟩ := h.core.candidate hr
          refine ⟨h₁, h₂, h₃, fun u hu => ?_⟩
          rcases Finset.mem_insert.mp hu with rfl | hu
          · exact hw hr
          · exact h₄ u hu }
      lead := fun hr => { h.loose.lead hr with }
      reads := fun hr => { h.loose.reads hr with }
      promise := h.loose.promise }
    idle := fun hr => { h.idle hr with } }

theorem handleRequestVoteResponse_spec {peer : ℤ} {m : RequestVoteResponse}
    (hm : VoteReplyOK Γ.hist peer v m)
    (hfree : S.synced → c.node.currentTerm < m.term → Freed (c.world Γ) v) :
    (S.logic v).gwp (handleRequestVoteResponse peer m) (fun _ Γ' c' => S.Steady v Γ' c') Γ c := by
  rw [handleRequestVoteResponse, gwp_getNode]
  refine gwp_unless (fun _ => gwp_pure h) fun hrun => ?_
  obtain ⟨hp, hne⟩ := mem_of_isRemotePeer h hrun.2
  refine gwp_ite (fun hlt => ?_) fun hlt => ?_
  · exact gwp_mono (becomeFollower_spec h (hm.1.trans (h.shared.term_le peer))
      fun hy => hfree hy hlt) fun _ _ _ _ hs => hs.1
  refine gwp_ite (fun hr => ?_) fun hr => ?_
  · have hrole : c.node.role ≠ .leader := by rw [hr]; decide
    split_ifs with hc hq
    · refine gwp_modifyNode (becomeCandidate_spec (h.addVote fun hcand => ?_) hrun.1 hrole
        fun hy => ?_)
      · rw [hr] at hcand
        cases hcand
      · exact (h.loose.promise hy hrun.1).freed_of_role (by rw [hr]; decide)
    · exact gwp_modifyNode (gwp_pure (h.addVote fun hcand => by rw [hr] at hcand; cases hcand))
    · exact gwp_pure h
  refine gwp_ite (fun _ => gwp_pure h) fun hc => ?_
  push Not at hc
  obtain ⟨hcand, hpre, hterm⟩ := hc
  split_ifs with hg hq
  · have hb := hm.2 hg (by simpa using hpre)
    rw [hterm, h.core.term] at hb
    exact gwp_modifyNode (becomeLeader_spec (h.addVote fun _ => ⟨hp, hb⟩) hcand hq)
  · have hb := hm.2 hg (by simpa using hpre)
    rw [hterm, h.core.term] at hb
    exact gwp_modifyNode (gwp_pure (h.addVote fun _ => ⟨hp, hb⟩))
  · exact gwp_pure h

end

end Setting

end RaftKV
