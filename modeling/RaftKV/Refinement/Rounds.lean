import RaftKV.Refinement.Reading

/-!
# The queues of reads

The loops over rounds and queues keep the relation. They invoke callbacks of reads that have
nothing left to wait for, so each loop carries that its reads still have nothing to wait for
as the trace grows (`processConfirmedRound_spec`, `servePendingReads_keeps`).
-/

namespace RaftKV

open RaftM GhostLogic
open Consensus (IsQuorum)

namespace Setting

variable {S : Setting} {v : ℤ} {W : World} {Γ : Ghost} {c : Context}

/-! ## Callbacks from the loops -/

theorem invokeQueued_ok (h : S.Steady v Γ c) {request : ReadIndexRequest}
    (hw : S.WaitingOK (c.world Γ) v request) (hle : request.readIndex ≤ c.node.lastApplied) :
    (S.logic v).gwp (invokeQueued request true request.readIndex "")
      (fun _ Γ' c' => S.Steady v Γ' c' ∧ Stays Γ c Γ' c') Γ c := by
  rw [invokeQueued]
  exact gwp_invokeRead h.toReady (fun _ => ⟨hle, hw⟩) fun trace env hs =>
    runNested_keeps _ Γ _ { hs with idle := h.idle }

theorem invokeQueued_fail (request : ReadIndexRequest) (readIndex : ℤ) (error : String) :
    S.Keeps v (invokeQueued request false readIndex error) := by
  intro Γ c h
  rw [invokeQueued]
  exact gwp_invokeRead h.toReady (fun hf => by cases hf) fun trace env hs =>
    runNested_keeps _ Γ _ { hs with idle := h.idle }

/-! ## Rounds -/

/-- The reads of a confirmed round are served or wait for the state machine. -/
theorem processConfirmedRound_spec (h : S.Steady v Γ c) (hr : c.node.role = .leader)
    {requests : List ReadIndexRequest} (hw : ∀ q ∈ requests, S.WaitingOK (c.world Γ) v q) :
    (S.logic v).gwp (processConfirmedRound requests)
      (fun _ Γ' c' => S.Steady v Γ' c' ∧ Stays Γ c Γ' c') Γ c := by
  rw [processConfirmedRound, gwp_getNode]
  refine gwp_modifyNode (gwp_seq (gwp_forM (I := fun Γ' c' =>
    (S.Steady v Γ' c' ∧ Stays Γ c Γ' c') ∧ Extends v Γ c Γ' c') (fun q hq Γ₁ c₁ hI => ?_)
    ⟨⟨h.setCompleting true, rfl⟩, World.Grows.refl v _, rfl, rfl⟩)
    fun _ Γ₁ c₁ _ hI => gwp_modifyNode_last ⟨hI.1.1.setCompleting _, hI.1.2⟩)
  obtain ⟨⟨hs, hst⟩, hext⟩ := hI
  have hq' : S.WaitingOK (c₁.world Γ₁) v q := (hw q hq).mono hext.grows
  rw [gwp_getNode]
  refine gwp_ite (fun hle => ?_) fun hle => ?_
  · exact gwp_mono (invokeQueued_ok hs hq' hle) fun _ _ _ hrel hs' =>
      ⟨⟨hs'.1, hst.trans hs'.2⟩, (S.logic v).trans hext hrel⟩
  have hr₁ := hst.role.trans hr
  refine gwp_modifyNode_last ⟨⟨hs.setReads hr₁ (hs.loose.reads hr₁).rounds
    (hs.loose.reads hr₁).unsent fun q' hmem => ?_, hst⟩, hext.grows, hext.incarnation,
    hext.replyTo⟩
  rcases List.mem_append.mp hmem with hmem | hmem
  · exact (hs.loose.reads hr₁).pending q' hmem
  · rw [List.mem_singleton.mp hmem]
    exact hq'

theorem RoundOK.confirm {inc : ℕ} {r : HeartbeatRound} (h : S.RoundOK W v inc r) :
    S.RoundOK W v inc { r with confirmed := true, requests := [] } := by
  obtain ⟨floor, h₁, -, h₃⟩ := h
  exact ⟨floor, h₁, by simp, h₃⟩

theorem Steady.newRound (h : S.Steady v Γ c) (hr : c.node.role = .leader) (roundId start : ℕ)
    (time : ℤ) :
    S.RoundOK (c.world Γ) v c.incarnation
      { roundId := roundId, start := start, acks := {c.node.nodeId}, requests := c.node.unsentReads
        sentAt := time } := by
  refine ⟨Γ.hist.term, fun _ => le_rfl, (h.loose.reads hr).unsent, ?_, fun _ u hu => ?_,
    fun u k hk => by cases hk⟩
  · rw [h.core.id, Finset.singleton_subset_iff]
    exact h.member
  · rw [h.core.id] at hu
    rw [Finset.mem_singleton.mp hu]
    exact le_rfl

theorem Steady.leader_of {P : Prop} (h : S.Steady v Γ c) (hidle : Idle c.node → P) (hP : ¬P) :
    c.node.role = .leader := by
  by_contra hr
  exact hP (hidle (h.idle hr))

theorem Steady.popRound (h : S.Steady v Γ c) (hr : c.node.role = .leader) :
    S.Steady v Γ { c with node := { c.node with
      heartbeatRounds := c.node.heartbeatRounds.tail } } :=
  h.setRounds hr fun r hmem => (h.loose.reads hr).rounds r (List.mem_of_mem_tail hmem)

theorem startReadRounds_keeps : ∀ turns, S.Keeps v (startReadRounds turns)
  | 0 => Keeps.pure ()
  | turns + 1 => by
    intro Γ c h
    rw [startReadRounds, gwp_getNode]
    refine gwp_ite (fun _ => gwp_pure ⟨h, Stays.refl Γ c⟩) fun hnone => ?_
    push Not at hnone
    have hr := h.leader_of (fun hi => by rw [hi.unsent]; rfl) hnone.1
    refine gwp_now fun env henv => gwp_mark h.id (gwp_modifyNode ?_)
    have hs := (h.env henv).note (e := .roundStarted
      (c.node.unsentReads.map (·.callback.call)) c.node.rpcSequence env.clock) trivial rfl
    have hround := hs.newRound hr (c.node.nextRoundId + 1) c.trace.length env.clock
    refine gwp_ite (fun hone => ?_) fun hone => ?_
    · exact gwp_pure ⟨hs.setReads hr (by simpa using hround) (by simp)
        (hs.loose.reads hr).pending, rfl⟩
    refine gwp_modifyNode ?_
    have hwait := hround.waiting (by
      rw [Node.quorumSize, h.core.peers] at hone
      simpa using (not_not.mp hone).le)
    have hs₁ : S.Steady v Γ { c with
        trace := c.trace ++ [(v, .roundStarted (c.node.unsentReads.map (·.callback.call))
          c.node.rpcSequence env.clock)]
        env := env
        node := { c.node with
          nextRoundId := c.node.nextRoundId + 1, unsentReads := [], heartbeatRounds :=
            [{ roundId := c.node.nextRoundId + 1, start := c.trace.length
               acks := {c.node.nodeId}, requests := [], sentAt := env.clock
               confirmed := true }] } } :=
      hs.setReads hr (by simpa using hround.confirm) (by simp) (hs.loose.reads hr).pending
    refine gwp_seq (processConfirmedRound_spec hs₁ hr hwait)
      fun _ Γ₂ c₂ _ hp => gwp_modifyNode ?_
    obtain ⟨hs₂, hst₂⟩ := hp
    have hr₂ : c₂.node.role = .leader := hst₂.role.trans hr
    exact gwp_mono (startReadRounds_keeps turns Γ₂ _ (hs₂.popRound hr₂))
      fun _ _ _ _ hq => ⟨hq.1, hst₂.trans hq.2⟩

theorem tryStartReadRound_keeps : S.Keeps v tryStartReadRound := by
  intro Γ c h
  rw [tryStartReadRound, gwp_getNode]
  exact startReadRounds_keeps _ Γ c h

theorem maybeSendReadProbes_keeps : S.Keeps v maybeSendReadProbes := by
  intro Γ c h
  rw [maybeSendReadProbes, gwp_getNode]
  rcases hrounds : c.node.heartbeatRounds with _ | ⟨round, rounds⟩
  · exact gwp_pure ⟨h, Stays.refl Γ c⟩
  have hr := h.leader_of (fun hi => hi.rounds) (by simp [hrounds])
  by_cases hconf : round.confirmed = true
  · simp only [hconf, if_true]
    exact gwp_pure ⟨h, Stays.refl Γ c⟩
  simp only [hconf, Bool.false_eq_true, if_false]
  refine KeepsLead.forM (fun peer hpeer Γ₁ c₁ h₁ hr₁ => ?_) Γ c h hr
  rw [gwp_getNode]
  split_ifs
  · exact gwp_pure ⟨h₁, Stays.refl Γ₁ c₁⟩
  · obtain ⟨hp, hne⟩ := h.toReady.mem_of_others hpeer
    exact sendAppendEntries_keeps hp hne Γ₁ c₁ h₁ hr₁

theorem finishReadIndexRounds_keeps : S.Keeps v finishReadIndexRounds := by
  intro Γ c h
  rw [finishReadIndexRounds]
  refine gwp_modifyNode ?_
  have hs : S.Steady v Γ { c with node := { c.node with
      heartbeatRounds := c.node.heartbeatRounds.dropWhile fun round => round.confirmed } } := by
    by_cases hr : c.node.role = .leader
    · exact h.setRounds hr fun r hmem =>
        (h.loose.reads hr).rounds r ((List.dropWhile_sublist _).subset hmem)
    have hnil := (h.idle hr).rounds
    exact { h with
      loose := { h.loose with
        core := { h.loose.core with }
        lead := fun hl => absurd hl hr
        reads := fun hl => absurd hl hr
        promise := h.loose.promise }
      idle := fun _ => { h.idle hr with rounds := by simp [hnil] } }
  exact (tryStartReadRound_keeps.bind fun _ => maybeSendReadProbes_keeps) Γ _ hs

/-! ## Reads that wait for the state machine -/

theorem servePendingReads_keeps : ∀ turns, S.Keeps v (servePendingReads turns)
  | 0 => Keeps.pure ()
  | turns + 1 => by
    intro Γ c h
    rw [servePendingReads, gwp_getNode]
    rcases hpending : c.node.pendingReads with _ | ⟨request, rest⟩
    · exact gwp_pure ⟨h, Stays.refl Γ c⟩
    have hr := h.leader_of (fun hi => hi.reads) (by simp [hpending])
    have hreads := h.loose.reads hr
    simp only
    refine gwp_ite (fun hle => ?_) fun hle => ?_
    · refine gwp_modifyNode (gwp_seq (invokeQueued_ok (h.setReads hr hreads.rounds hreads.unsent
        fun q hq => hreads.pending q (by rw [hpending]; exact List.mem_cons_of_mem _ hq))
        (hreads.pending request (by rw [hpending]; exact List.mem_cons_self)) hle)
        fun _ Γ₂ c₂ _ hs₂ => ?_)
      exact gwp_mono (servePendingReads_keeps turns Γ₂ c₂ hs₂.1)
        fun _ _ _ _ hq => ⟨hq.1, hs₂.2.trans hq.2⟩
    · exact gwp_pure ⟨h, Stays.refl Γ c⟩

theorem processPendingReads_keeps : S.Keeps v processPendingReads := by
  intro Γ c h
  rw [processPendingReads, gwp_getNode]
  refine gwp_modifyNode (gwp_seq (servePendingReads_keeps _ Γ _ (h.setCompleting true))
    fun _ Γ₂ c₂ _ hs₂ => gwp_modifyNode ?_)
  have hs₃ := hs₂.1.setCompleting c.node.completingReads
  split_ifs
  · exact gwp_pure ⟨hs₃, hs₂.2⟩
  · exact gwp_mono (finishReadIndexRounds_keeps Γ₂ _ hs₃)
      fun _ _ _ _ hq => ⟨hq.1, hs₂.2.trans hq.2⟩

theorem runScript_keeps (script : Script) : S.Keeps v (runScript script) :=
  runScriptWith_keeps processPendingReads_keeps finishReadIndexRounds_keeps script

theorem runScript_passive (script : Script) : S.Passive v (runScript script) :=
  runScriptWith_passive _ _ script

theorem requestReadIndex_keeps (onOk onFail : Script) : S.Keeps v (requestReadIndex onOk onFail) :=
  (requestReadIndexWith_keeps processPendingReads_keeps finishReadIndexRounds_keeps
    (runScript_keeps onOk) (runScript_keeps onFail) onOk onFail).keeps
    (requestReadIndexWith_passive (runScript_passive onFail) onOk onFail)

/-! ## Acknowledgements -/

theorem mem_modify {α : Type} {l : List α} {i : ℕ} {f : α → α} {x : α} (h : x ∈ l.modify i f) :
    x ∈ l ∨ ∃ y, l[i]? = some y ∧ x = f y := by
  obtain ⟨j, hj⟩ := List.mem_iff_getElem?.mp h
  rw [List.getElem?_modify] at hj
  obtain ⟨y, hy, rfl⟩ := Option.map_eq_some_iff.mp hj
  by_cases hij : i = j
  · subst hij
    exact .inr ⟨y, hy, if_pos rfl⟩
  · rw [if_neg hij]
    exact .inl (List.mem_of_getElem? hy)

/-- The answer to a probe acknowledges its round. -/
theorem RoundOK.ack {inc rpcId : ℕ} {peer : ℤ} {r : HeartbeatRound} (h : S.RoundOK W v inc r)
    (hp : peer ∈ S.members) (hprobe : r.probeRpcIds peer = some rpcId)
    (hfloor : S.linear → W.ghost.floor v inc rpcId peer ≤ W.hist.term v) :
    S.RoundOK W v inc { r with acks := insert peer r.acks } := by
  obtain ⟨floor, h₁, h₂, h₃, h₄, h₅⟩ := h
  refine ⟨floor, h₁, h₂, Finset.insert_subset hp h₃, fun hlin u hu => ?_, h₅⟩
  rcases Finset.mem_insert.mp hu with rfl | hu
  · exact (h₅ u rpcId hprobe).2.trans (hfloor hlin)
  · exact h₄ hlin u hu

theorem ackReadIndexProbe_spec (h : S.Steady v Γ c) (hr : c.node.role = .leader) {peer : ℤ}
    {rpcId : ℕ} (hp : peer ∈ S.members)
    (hfloor : S.linear → Γ.floor v c.incarnation rpcId peer ≤ Γ.hist.term v) :
    (S.logic v).gwp (ackReadIndexProbe peer rpcId)
      (fun _ Γ' c' => S.Steady v Γ' c' ∧ Stays Γ c Γ' c') Γ c := by
  rw [ackReadIndexProbe]
  refine gwp_now fun env henv => ?_
  have hs := h.env henv
  have hrounds := (hs.loose.reads hr).rounds
  rw [gwp_getNode]
  rcases hfind : c.node.heartbeatRounds.findIdx? fun round => round.awaits peer rpcId with _ | i
  · simp only [hfind]
    exact gwp_pure ⟨hs, rfl⟩
  obtain ⟨hi, hawaits, -⟩ := List.findIdx?_eq_some_iff_getElem.mp hfind
  have hget : c.node.heartbeatRounds[i]? = some c.node.heartbeatRounds[i] :=
    List.getElem?_eq_getElem hi
  simp only [hfind, hget]
  refine gwp_ite (fun _ => gwp_pure ⟨hs, rfl⟩) fun hold => ?_
  have hprobe : c.node.heartbeatRounds[i].probeRpcIds peer = some rpcId := by
    simp only [HeartbeatRound.awaits, Bool.and_eq_true, decide_eq_true_eq] at hawaits
    exact hawaits.2
  set event := Event.probeCounted c.node.heartbeatRounds[i].start peer rpcId env.clock with hevent
  replace hs := hs.note (e := event) trivial rfl
  replace hrounds := (hs.loose.reads hr).rounds
  have hack := (hrounds _ (List.getElem_mem hi)).ack hp hprobe hfloor
  refine gwp_observe h.id (gwp_modifyNode ?_)
  have hs₁ : S.Steady v Γ { c with
      trace := c.trace ++ [(v, event)], env := env, node := { c.node with
      heartbeatRounds := c.node.heartbeatRounds.modify i fun round =>
        { round with acks := insert peer round.acks } } } := by
    refine hs.setRounds hr fun r hmem => ?_
    rcases mem_modify hmem with hmem | ⟨y, hy, rfl⟩
    · exact hrounds r hmem
    · obtain rfl := Option.some.inj (hget.symm.trans hy)
      exact hack
  refine gwp_ite (fun hq => ?_) fun hq => ?_
  · refine gwp_modifyNode ?_
    rw [Node.quorumSize, h.core.peers] at hq
    have hs₂ : S.Steady v Γ { c with
        trace := c.trace ++ [(v, event)], env := env, node := { c.node with
        heartbeatRounds := (c.node.heartbeatRounds.modify i fun round =>
          { round with acks := insert peer round.acks }).modify i fun round =>
            { round with confirmed := true, requests := [] } } } := by
      refine hs₁.setRounds hr fun r hmem => ?_
      rcases mem_modify hmem with hmem | ⟨y, hy, rfl⟩
      · exact (hs₁.loose.reads hr).rounds r hmem
      · exact ((hs₁.loose.reads hr).rounds y (List.mem_of_getElem? hy)).confirm
    exact processConfirmedRound_spec hs₂ hr (hack.waiting hq)
  · exact gwp_pure ⟨hs₁, rfl⟩

/-! ## Expiry -/

theorem failReads_keeps (requests : List ReadIndexRequest) (reason : String) :
    S.KeepsLead v (requests.forM fun request => invokeQueued request false (-1) reason) :=
  KeepsLead.forM fun request _ => (invokeQueued_fail request (-1) reason).lead

theorem expireRounds_keeps (time : ℤ) : ∀ turns, S.KeepsLead v (expireRounds time turns)
  | 0 => (Keeps.pure ()).lead
  | turns + 1 => by
    intro Γ c h hr
    rw [expireRounds, gwp_getNode]
    rcases c.node.heartbeatRounds with _ | ⟨round, rounds⟩
    · exact gwp_pure ⟨h, Stays.refl Γ c⟩
    simp only
    refine gwp_ite (fun _ => gwp_pure ⟨h, Stays.refl Γ c⟩) fun hfresh => ?_
    refine (failReads_keeps round.requests _).seq h hr fun _ Γ₂ c₂ _ hs₂ hst₂ => gwp_modifyNode ?_
    have hr₂ := hst₂.role.trans hr
    exact gwp_mono (expireRounds_keeps time turns Γ₂ _ (hs₂.popRound hr₂) hr₂)
      fun _ _ _ _ hq => ⟨hq.1, hst₂.trans hq.2⟩

theorem expireQueue_keeps (time : ℤ) (queue : Node → List ReadIndexRequest) (pop : Node → Node)
    (reason : String) (hpop : S.KeepsLead v (modifyNode pop)) :
    ∀ turns, S.KeepsLead v (expireQueue time queue pop reason turns)
  | 0 => (Keeps.pure ()).lead
  | turns + 1 => by
    intro Γ c h hr
    rw [expireQueue, gwp_getNode]
    rcases queue c.node with _ | ⟨request, requests⟩
    · exact gwp_pure ⟨h, Stays.refl Γ c⟩
    simp only
    refine gwp_ite (fun _ => gwp_pure ⟨h, Stays.refl Γ c⟩) fun hfresh => ?_
    exact ((invokeQueued_fail request (-1) reason).lead.bind fun _ => hpop.bind fun _ =>
      expireQueue_keeps time queue pop reason hpop turns) Γ c h hr

theorem popUnsent_keeps :
    S.KeepsLead v (modifyNode fun n => { n with unsentReads := n.unsentReads.tail }) := by
  intro Γ c h hr
  have hreads := h.loose.reads hr
  exact gwp_modifyNode_last ⟨h.setReads hr hreads.rounds
    (fun q hq => hreads.unsent q (List.mem_of_mem_tail hq)) hreads.pending, rfl⟩

theorem popPending_keeps :
    S.KeepsLead v (modifyNode fun n => { n with pendingReads := n.pendingReads.tail }) := by
  intro Γ c h hr
  have hreads := h.loose.reads hr
  exact gwp_modifyNode_last ⟨h.setReads hr hreads.rounds hreads.unsent
    fun q hq => hreads.pending q (List.mem_of_mem_tail hq), rfl⟩

theorem checkReadIndexTimeout_keeps : S.KeepsLead v checkReadIndexTimeout := by
  intro Γ c h hr
  rw [checkReadIndexTimeout]
  refine gwp_now fun env henv => ?_
  rw [gwp_getNode]
  refine gwp_modifyNode ?_
  have hs := (h.env henv).setCompleting true
  refine (expireRounds_keeps _ _).seq hs hr fun _ Γ₁ c₁ _ hs₁ hst₁ => ?_
  have hr₁ := hst₁.role.trans hr
  rw [gwp_getNode]
  refine (expireQueue_keeps _ _ _ _ popUnsent_keeps _).seq hs₁ hr₁ fun _ Γ₂ c₂ _ hs₂ hst₂ => ?_
  have hr₂ := hst₂.role.trans hr₁
  rw [gwp_getNode]
  refine (expireQueue_keeps _ _ _ _ popPending_keeps _).seq hs₂ hr₂ fun _ Γ₃ c₃ _ hs₃ hst₃ => ?_
  exact gwp_modifyNode_last ⟨hs₃.setCompleting _, (hst₁.trans hst₂).trans hst₃⟩

/-! ## Failure of all reads -/

theorem Ready.setQueues (h : S.Ready v Γ c) (hr : c.node.role ≠ .leader)
    (rounds : List HeartbeatRound) (completing : Bool) (unsent pending : List ReadIndexRequest) :
    S.Ready v Γ { c with node := { c.node with
      heartbeatRounds := rounds, completingReads := completing, unsentReads := unsent
      pendingReads := pending } } :=
  { h with
    loose := { h.loose with
      core := { h.loose.core with }
      lead := fun hl => absurd hl hr
      reads := fun hl => absurd hl hr
      promise := h.loose.promise } }

theorem clearReadIndexQueues_spec (h : S.Ready v Γ c) (hr : c.node.role ≠ .leader)
    (reason : String) :
    (S.logic v).gwp (clearReadIndexQueues reason) (fun _ Γ' c' => S.Ready v Γ' c' ∧
      Untouched Γ { c with node := { c.node with
        heartbeatRounds := [], unsentReads := [], pendingReads := [] } } Γ' c') Γ c := by
  have fail : ∀ requests : List ReadIndexRequest, S.Passive v (requests.forM fun request =>
      invokeQueued request false (-1) reason) := fun requests =>
    Passive.forM fun request _ => invokeQueued_passive request (-1) reason
  rw [clearReadIndexQueues, gwp_getNode]
  refine gwp_modifyNode (gwp_seq (fail _ Γ _ (h.setQueues hr _ true _ _) hr)
    fun _ Γ₁ c₁ _ ⟨h₁, hu₁⟩ => gwp_modifyNode ?_)
  have hr₁ : c₁.node.role ≠ .leader := by rw [hu₁.node]; exact hr
  have h₁' := h₁.setQueues hr₁ [] c₁.node.completingReads c₁.node.unsentReads c₁.node.pendingReads
  rw [gwp_getNode]
  refine gwp_seq (fail _ Γ₁ _ h₁' hr₁) fun _ Γ₂ c₂ _ ⟨h₂, hu₂⟩ => gwp_modifyNode ?_
  have hr₂ : c₂.node.role ≠ .leader := by rw [hu₂.node]; exact hr₁
  have h₂' := h₂.setQueues hr₂ c₂.node.heartbeatRounds c₂.node.completingReads []
    c₂.node.pendingReads
  rw [gwp_getNode]
  refine gwp_seq (fail _ Γ₂ _ h₂' hr₂) fun _ Γ₃ c₃ _ ⟨h₃, hu₃⟩ => gwp_modifyNode ?_
  have hr₃ : c₃.node.role ≠ .leader := by rw [hu₃.node]; exact hr₂
  refine gwp_modifyNode_last ⟨h₃.setQueues hr₃ _ _ _ [], ?_⟩
  have hn : c₃.node = { c.node with
      heartbeatRounds := [], completingReads := true, unsentReads := [] } := by
    rw [hu₃.node]
    simp only [hu₂.node, hu₁.node]
  refine ⟨hu₃.ghost.trans (hu₂.ghost.trans hu₁.ghost), by rw [hn],
    hu₃.log.trans (hu₂.log.trans hu₁.log), hu₃.sm.trans (hu₂.sm.trans hu₁.sm),
    hu₃.exec.trans (hu₂.exec.trans hu₁.exec)⟩

end Setting

end RaftKV
