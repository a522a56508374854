import RaftKV.Refinement.Answering

/-!
# Starting a process on its databases

The constructor reads the hard state and the log as they were left, finishes an install whose
intent it finds, and starts with what the KV database has applied. The checks it makes on the
way pass in every state a crash can leave (`construct_spec`).
-/

namespace RaftKV

open RaftM GhostLogic
open Consensus (lastTerm Decided IsQuorum)

namespace Setting

variable {S : Setting} {v : ℤ} {W : World} {Γ : Ghost} {c : Context}

/-! ## What a crash leaves -/

theorem Shared.log_eq_nil (h : S.Shared W) (h0 : W.hist.term v = 0) : W.hist.log v = [] := by
  rw [List.eq_nil_iff_forall_not_mem]
  intro e he
  have h₁ := h.inv.term_pos (h.inv.log_matched v) he
  have h₂ := h.inv.log_terms v e he
  omega

section

variable (h : S.Safe v Γ c)
include h

theorem Safe.loadHardState : ∃ hard, c.log.loadHardState = .ok hard ∧
    hard.getD (0, -1) = (Γ.hist.term v, (Γ.hist.ballot v (Γ.hist.term v)).getD (-1)) := by
  rcases h.disk.hard with hh | ⟨hh, h0⟩
  · exact ⟨_, by rw [AbstractLog.loadHardState, hh], rfl⟩
  have hnil : Γ.hist.log v = [] := h.shared.log_eq_nil h0
  have hlast : c.log.lastIndex = 0 := by
    rcases h.disk.body with hset | ⟨s, hst⟩
    · rw [hset.rep.lastIndex_eq, hnil]
      rfl
    · obtain ⟨k, -, hpos, hle, -⟩ := hst.index
      rw [hnil] at hle
      exact absurd hle (by simpa using hpos.ne')
  refine ⟨none, by rw [AbstractLog.loadHardState, hh, hlast]; rfl, ?_⟩
  have hnone : Γ.hist.ballot v 0 = none := by
    by_contra hne
    obtain ⟨d, hd⟩ := Option.ne_none_iff_exists'.mp hne
    exact absurd (h.shared.inv.ballot_bound hd).1 (lt_irrefl _)
  rw [h0, hnone]
  rfl

theorem Safe.log_bounds : c.log.lastIndex < int64Max ∧ c.log.lastTerm ≤ Γ.hist.term v := by
  rcases h.disk.body with hset | ⟨s, hst⟩
  · rw [hset.rep.lastIndex_eq, hset.rep.lastTerm_eq]
    exact ⟨h.shared.length_lt v, (lastTerm_bounds h.shared v).2⟩
  · exact ⟨hst.old_last, hst.old_term⟩

/-! ## The constructor -/

theorem openStore_spec : (S.logic v).gwp openStore (fun _ Γ' c' => Γ' = Γ ∧ c' = c) Γ c := by
  rw [openStore, gwp_get_bind]
  cases hopen : Store.construct c.sm.db with
  | error text =>
    refine gwp_fail h fun hy => ?_
    obtain ⟨k, -, hle, -, hclean⟩ := h.disk.applied
    have hlt : ((Γ.hist.log v).length : ℤ) < int64Max := h.shared.length_lt v
    have hconstruct : Store.construct (storeOf ((Γ.hist.log v).take k)).db = .ok _ :=
      construct_storeOf (fun e he => h.shared.clean hy.1 v e (List.mem_of_mem_take he))
        (by rw [List.length_take]; omega)
    rw [hclean hy.1, hconstruct] at hopen
    cases hopen
  | ok sm =>
    obtain rfl := Store.construct_ok h.disk.marked hopen
    exact gwp_modify Γ ⟨World.Grows.refl v _, rfl, rfl⟩ ⟨rfl, rfl⟩

theorem recoverInstall_spec (hbusy : c.busy = false) :
    (S.logic v).gwp (recoverInstall (Γ.hist.term v)) (fun _ Γ' c' => S.Safe v Γ' c' ∧ Γ' = Γ ∧
      S.Settled c'.log c'.sm (Γ.hist.log v) ∧ c'.node = c.node ∧ c'.exec = c.exec ∧
      c'.incarnation = c.incarnation) Γ c := by
  rw [recoverInstall, gwp_getLog]
  rcases h.disk.body with hset | ⟨s, hst⟩
  · rw [AbstractLog.loadPendingSnapshot, hset.intent]
    exact gwp_pure ⟨h, rfl, hset, rfl, rfl, rfl⟩
  obtain ⟨k, hk, hpos, hle, hterm, hdec⟩ := hst.index
  have hnewer := hst.newer
  have hlen : ((Γ.hist.log v).take k).length = k := by rw [List.length_take]; omega
  have hne : (Γ.hist.log v).take k ≠ [] := by
    rw [← List.length_pos_iff, hlen]
    exact hpos
  have hbound : s.term ≤ Γ.hist.term v := by
    rw [hterm, Consensus.lastTerm_eq_getElem hne]
    exact h.shared.inv.log_terms v _ (List.mem_of_mem_take (List.getLast_mem hne))
  rw [AbstractLog.loadPendingSnapshot, hst.intent]
  simp only
  rw [if_neg (by omega)]
  simp only
  rw [if_neg (by omega)]
  refine gwp_installStore h (by rw [hlen]; exact hk) hne hst.data.1
    (fun hy => ⟨fun e he => h.shared.clean hy v e (List.mem_of_mem_take he), ?_⟩) hst.behind
    fun batch hb => ?_
  · have := hst.data.2 hy (by omega)
    rwa [hk, Int.toNat_natCast] at this
  rw [pure_bind]
  refine gwp_replaceStore h hst hb (by rw [hlen]; exact hk) (List.take_prefix _ _) hbusy
    fun env henv hsafe hst' => ?_
  obtain ⟨log, hinstall, -, -, hset, hsafe'⟩ := hsafe.settle hst' rfl
  rw [← bind_pure (writeLog _ _)]
  exact gwp_writeLog hsafe hinstall fun env' henv' =>
    gwp_pure ⟨hsafe'.env henv'.ge, rfl, hset, rfl, rfl, rfl⟩

theorem Safe.boot (hset : S.Settled c.log c.sm (Γ.hist.log v)) {async : Bool}
    (hnode : c.node = { nodeId := v, allPeers := S.peers, async })
    (hexec : c.exec = {}) (hrpc : Γ.alloc v c.incarnation = 0) :
    S.Steady v Γ { c with node := { c.node with
      currentTerm := Γ.hist.term v
      votedFor := (Γ.hist.ballot v (Γ.hist.term v)).getD (-1)
      lastApplied := c.sm.lastApplied
      commitIndex := c.sm.lastApplied } } := by
  obtain ⟨k, hk, hle, hdec, -⟩ := h.disk.applied
  obtain ⟨node, log, sm, exec, net, trace, incarnation, replyTo, env⟩ := c
  obtain rfl := hnode
  obtain rfl := hexec
  refine { h with
    loose :=
      { core :=
          { id := rfl
            peers := rfl
            term := rfl
            vote := rfl
            settled := hset
            progress := ⟨k, k, hk, hk, le_rfl, hle, by rw [← hk]; exact hset.applied, hdec⟩
            exec := .inl ⟨rfl, rfl, rfl⟩
            active := fun hne => absurd rfl hne
            receive := fun hpos => absurd (show (0 : ℤ) < -1 from hpos) (by decide)
            candidate := fun hc => by cases hc
            leader := fun hc => by cases hc
            serve := fun hc => by cases hc
            lease := fun hc => by cases hc }
        rpc := hrpc.symm
        lead := fun hc => by cases hc
        proposals := fun hc => by cases hc
        reads := fun hc => by cases hc
        promise := fun _ hrun => by cases hrun }
    idle := fun _ => ⟨rfl, rfl, rfl, rfl⟩ }

theorem checkRecovered_spec (hset : S.Settled c.log c.sm (Γ.hist.log v))
    {async : Bool} (hnode : c.node = { nodeId := v, allPeers := S.peers, async })
    (hexec : c.exec = {}) (hrpc : Γ.alloc v c.incarnation = 0) :
    (S.logic v).gwp
      (checkRecovered (Γ.hist.term v) ((Γ.hist.ballot v (Γ.hist.term v)).getD (-1)))
      (fun _ Γ' c' => S.Steady v Γ' c') Γ c := by
  obtain ⟨k, hk, hle, -⟩ := h.disk.applied
  have happlied := hset.applied
  have hbounds := h.log_bounds
  rw [checkRecovered, gwp_get_bind, if_neg, if_neg]
  · exact gwp_modifyNode_last (h.boot hset hnode hexec hrpc)
  · rintro ⟨hne, hout⟩
    cases hb : Γ.hist.ballot v (Γ.hist.term v) with
    | none => exact hne (by rw [hb]; rfl)
    | some d =>
      refine hout ?_
      rw [hb, hnode]
      exact List.mem_toFinset.mp (h.shared.ballot_mem hb)
  · rw [hset.rep.lastIndex_eq]
    omega

/-- The constructor succeeds on whatever a crash has left. -/
theorem construct_spec (async : Bool)
    (hnode : c.node = { nodeId := v, allPeers := S.peers, async })
    (hexec : c.exec = {}) (hrpc : Γ.alloc v c.incarnation = 0) :
    (S.logic v).gwp construct (fun _ Γ' c' => S.Steady v Γ' c') Γ c := by
  have hbusy : c.busy = false := by
    rw [Context.busy, hnode, hexec]
    rfl
  have hpeers : validatePeers c.node.nodeId c.node.allPeers = .ok () := by
    rw [hnode, validatePeers, if_neg, if_neg]
    · exact not_not.mpr (List.mem_toFinset.mp h.member)
    · simp only [List.any_eq_true, decide_eq_true_eq, not_or, not_exists, not_and, not_lt, not_not]
      exact ⟨S.nonneg, S.nodup⟩
  rw [construct]
  refine gwp_observe h.id ?_
  have h₁ : S.Safe v Γ { c with trace := c.trace ++ [(v, .booted)] } :=
    h.observe trivial (fun _ _ heq => by cases heq) rfl
  refine gwp_seq (openStore_spec h₁) fun _ Γ₂ c₂ _ hp => ?_
  obtain ⟨rfl, rfl⟩ := hp
  rw [gwp_getNode]
  simp only [hpeers]
  rw [openLog, bind_assoc, gwp_getLog, if_neg h₁.log_bounds.1.ne, pure_bind, recover, gwp_getLog]
  obtain ⟨hard, hload, hvalue⟩ := h₁.loadHardState
  simp only [hload, hvalue]
  rw [if_neg (not_lt.mpr h₁.log_bounds.2)]
  refine gwp_seq (recoverInstall_spec h₁ hbusy)
    fun _ Γ₃ c₃ _ hp => ?_
  obtain ⟨h₃, rfl, hset, hn, he, hi⟩ := hp
  exact checkRecovered_spec h₃ hset (hn.trans hnode) (he.trans hexec) (by rw [hi]; exact hrpc)

end

end Setting

end RaftKV
