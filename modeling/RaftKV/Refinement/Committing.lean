import RaftKV.Refinement.Applying

/-!
# Committing and proposing keep the relation

The commit index of a leader only moves to an index that a majority has acknowledged and whose
entry is of the leader's own term (`majorityMatch_quorum`, `advanceCommitIndex_spec`), so what
it covers is decided. A proposal is a step of the protocol that appends to the leader's log,
followed by the leader's own acknowledgement; both are made when the write is durable
(`Steady.append`, `proposeBatch_spec`).
-/

namespace RaftKV

open RaftM GhostLogic
open Consensus (lastTerm Decided Committed IsQuorum)

/-- A proposal as the server makes it. -/
def Proposal.Served (p : Proposal) : Prop :=
  ∃ command, decodeCommand p.command = some command ∧ command.Valid

/-- A proposal as the setting says. -/
def Setting.Proper (S : Setting) (p : Proposal) : Prop :=
  (S.clean → Clean p.command) ∧ (S.readable → (decodeCommand p.command).isSome)

/-- A leader appends entries to its log and acknowledges them. -/
def Ghost.append (Γ : Ghost) (v : ℤ) (es : List LogEntry) : Ghost :=
  Γ.setHist ((Γ.hist.setLeaderLog v (Γ.hist.term v) (Γ.hist.log v ++ es)).setAck v (Γ.hist.term v)
    (Γ.hist.log v ++ es).length)

namespace Setting

variable {S : Setting} {v : ℤ} {W : World} {Γ : Ghost} {c : Context}

/-! ## The commit index -/

/-- A majority has matched what `majorityMatch` says. -/
theorem majorityMatch_quorum {n : Node} (hpeers : n.allPeers = S.peers) (hv : v ∈ S.members) :
    ∃ q, IsQuorum S.members q ∧ ∀ u ∈ q, n.majorityMatch ≤ n.matchIndex u := by
  have hne : n.allPeers ≠ [] := by
    rw [hpeers]
    exact List.ne_nil_of_mem (List.mem_toFinset.mp hv)
  have hcount : n.quorumSize ≤ n.matchedBy n.majorityMatch := (Node.isGreatest_majorityMatch hne).1
  rw [Node.quorumSize, Node.matchedBy, hpeers, List.countP_eq_length_filter] at hcount
  refine ⟨(S.peers.filter fun p => decide (n.majorityMatch ≤ n.matchIndex p)).toFinset,
    ⟨?_, ?_⟩, fun u hu => ?_⟩
  · exact fun u hu => List.mem_toFinset.mpr (List.mem_of_mem_filter (List.mem_toFinset.mp hu))
  · rw [List.toFinset_card_of_nodup (S.nodup.filter _), card_members]
    exact hcount
  · simpa using (List.mem_filter.mp (List.mem_toFinset.mp hu)).2

theorem Steady.setCommit (h : S.Steady v Γ c) {k : ℕ} (hle : c.node.commitIndex ≤ k)
    (hlen : k ≤ (Γ.hist.log v).length)
    (hdec : Decided S.members Γ.hist (Γ.hist.term v) ((Γ.hist.log v).take k)) :
    S.Steady v Γ { c with node := { c.node with commitIndex := k } } :=
  { h with
    loose := { h.loose with
      core := { h.loose.core with
        progress := by
          obtain ⟨a, k', ha, hk', hak, -, hsa, -⟩ := h.core.progress
          exact ⟨a, k, ha, rfl, by omega, hlen, hsa, hdec⟩
        exec := by
          refine h.core.exec.imp_right fun hb => ⟨hb.inflight, ?_⟩
          obtain ⟨j, hj, hjle, hbatch⟩ := hb.batch
          exact ⟨j, hj, hjle.trans hle, hbatch⟩
        serve := fun hr hs => (h.core.serve hr hs).trans_le hle }
      lead := fun hr => { h.loose.lead hr with
        acknowledged := fun origin index command reply he =>
          ((h.loose.lead hr).acknowledged origin index command reply he).trans hle }
      reads := fun hr => { h.loose.reads hr with }
      promise := h.loose.promise }
    idle := fun hr => { h.idle hr with } }

theorem Steady.decided_majority (h : S.Steady v Γ c) (hr : c.node.role = .leader)
    (hpos : 0 < c.node.majorityMatch)
    (hterm : c.log.getTerm c.node.majorityMatch = c.node.currentTerm) :
    ∃ k : ℕ, c.node.majorityMatch = k ∧ k ≤ (Γ.hist.log v).length ∧
      Decided S.members Γ.hist (Γ.hist.term v) ((Γ.hist.log v).take k) := by
  have hl := h.core.leader hr
  have hbound := h.shared.inv.leader_bound hl
  obtain ⟨k, hk⟩ : ∃ k : ℕ, c.node.majorityMatch = k := ⟨c.node.majorityMatch.toNat, by omega⟩
  rw [hk, h.core.term] at hterm
  obtain ⟨hlen, hlast⟩ := h.core.settled.rep.of_getTerm (i := k) (by
    rw [hterm]
    have := hbound.1
    omega)
  refine ⟨k, hk, hlen, .inr ⟨Γ.hist.term v, k, le_rfl, ⟨by omega, ?_, ?_⟩, ?_⟩⟩
  · rw [← h.own_log hr]
    exact hlast.symm.trans hterm
  · obtain ⟨q, hq, hmatch⟩ := majorityMatch_quorum h.core.peers h.member
    refine ⟨q, hq, fun u hu => ?_⟩
    obtain ⟨j, hj, hack⟩ := (h.loose.lead hr).matched u (hq.1 hu)
    have := hmatch u hu
    have hack' : j ≤ Γ.hist.ack u (Γ.hist.term v) := hack
    omega
  · rw [← h.own_log hr]

theorem advanceCommitIndex_spec (h : S.Steady v Γ c) (hr : c.node.role = .leader) :
    (S.logic v).gwp advanceCommitIndex
      (fun _ Γ' c' => S.Steady v Γ' c' ∧ Advances Γ c Γ' c') Γ c := by
  rw [advanceCommitIndex, gwp_getLog]
  refine gwp_modifyNode ?_
  split_ifs with hcond
  · obtain ⟨hlt, hterm⟩ := hcond
    obtain ⟨a, k', -, hk', -⟩ := h.core.progress
    obtain ⟨k, hk, hlen, hdec⟩ := h.decided_majority hr (by omega) hterm
    rw [hk] at hlt ⊢
    refine gwp_mono (applyCommitted_spec (h.setCommit hlt.le hlen hdec)) fun _ _ _ _ hq => ?_
    exact ⟨hq.1, hq.2.hist, hq.2.role, hq.2.running, hlt.le.trans hq.2.commit⟩
  · exact applyCommitted_spec h

/-! ## A new log -/

/-- The KV database is not ahead of what is committed. -/
theorem CoreOK.store_le {h : History} {n : Node} {log : AbstractLog} {sm : Store} {exec : Executor}
    (hc : S.CoreOK h v n log sm exec) :
    n.lastApplied ≤ sm.lastApplied ∧ sm.lastApplied ≤ n.commitIndex := by
  obtain ⟨a, k, ha, hk, hak, -⟩ := hc.progress
  rcases hc.exec with hq | hb
  · have := hq.applied
    omega
  obtain ⟨j, hj, hle, ⟨-, -, hsm⟩ | ⟨-, r, -, hout⟩⟩ := hb.batch
  · omega
  cases r with
  | ok results =>
    have := hout.2
    omega
  | error text =>
    have := hout.2
    omega

theorem slice_eq_of_take_eq {L L' : List LogEntry} {k : ℕ} (h : L'.take k = L.take k) {a j : ℕ}
    (hle : a + j ≤ k) : (L'.drop a).take j = (L.drop a).take j := by
  have key : ∀ l : List LogEntry, (l.drop a).take j = ((l.take k).drop a).take j := by
    intro l
    rw [List.drop_take, List.take_take, min_eq_left (by omega)]
  rw [key L', key L, h]

section NewLog

variable {h h' : History} {n : Node} {log log' : AbstractLog} {sm : Store} {exec : Executor}
  (hle : Consensus.Le v h h') (hinv : Consensus.Inv S.members S.Good h)
  (hterm : h'.term v = h.term v) (hballot : h'.ballot v = h.ballot v)
include hle hinv hterm hballot

theorem DiskOK.setLog (hd : S.DiskOK h v log sm) {k : ℕ}
    (hlog : (h'.log v).take k = (h.log v).take k) (hsm : sm.lastApplied ≤ k)
    (hhard : log'.hardState = log.hardState)
    (hbody : S.Settled log' sm (h'.log v) ∨ ∃ s, S.Staged h' v log' sm s) :
    S.DiskOK h' v log' sm := by
  refine ⟨?_, hd.marked, ?_, hbody⟩
  · rw [hhard, hterm, hballot]
    exact hd.hard
  obtain ⟨j, hj, hjlen, hdec, hserved⟩ := hd.applied
  have htake : (h'.log v).take j = (h.log v).take j := by
    have := slice_eq_of_take_eq hlog (a := 0) (j := j) (by omega)
    simpa using this
  have hlen : j ≤ (h'.log v).length := by
    have := congrArg List.length htake
    simp only [List.length_take] at this
    omega
  refine ⟨j, hj, hlen, ?_⟩
  rw [htake, hterm]
  exact ⟨hdec.step hle hinv, hserved⟩

omit hinv in
/-- A candidate whose term another leads stays one. -/
theorem CoreOK.outvoted (hc : S.CoreOK h v n log sm exec) (hl : (h.leader (h.term v)).isSome)
    (hr : n.role = .candidate) : h'.ballot v (h'.term v) = some v ∧ h'.leader (h'.term v) ≠ some v ∧
      (h'.voteLog v (h'.term v) = h'.log v ∨ (h'.leader (h'.term v)).isSome) ∧
      ∀ w ∈ n.votes, w ∈ S.members ∧ h'.ballot w (h'.term v) = some v := by
  obtain ⟨h₁, h₂, -, h₄⟩ := hc.candidate hr
  obtain ⟨d, hd⟩ := Option.isSome_iff_exists.mp hl
  have hd' := (hle.leader hd).1
  rw [hterm]
  refine ⟨by rw [hballot]; exact h₁, fun hl' => h₂ ?_, .inr (by rw [hd']; rfl), fun w hw => ?_⟩
  · rw [hd, ← hd', hl']
  · exact ⟨(h₄ w hw).1, (hle.ballot (h₄ w hw).2).1⟩

theorem CoreOK.setLog (hc : S.CoreOK h v n log sm exec) {k : ℕ} (hk : n.commitIndex = k)
    (hlog : (h'.log v).take k = (h.log v).take k) (hset : S.Settled log' sm (h'.log v))
    (hsnap : log'.snapshot.index ≤ n.lastApplied)
    (hcand : n.role = .candidate → (h.leader (h.term v)).isSome) :
    S.CoreOK h' v n log' sm exec := by
  obtain ⟨a, k', ha, hk', hak, hklen, hsa, hdec⟩ := hc.progress
  obtain rfl : k' = k := by omega
  have hlen : k' ≤ (h'.log v).length := by
    have := congrArg List.length hlog
    simp only [List.length_take] at this
    omega
  refine
    { hc with
      term := by rw [hterm]; exact hc.term
      vote := by rw [hterm, hballot]; exact hc.vote
      settled := hset
      progress := ⟨a, k', ha, hk', hak, hlen, ha ▸ hsnap, by
        rw [hlog, hterm]; exact hdec.step hle hinv⟩
      exec := hc.exec.imp_right fun hb => ⟨hb.inflight, ?_⟩
      receive := fun hr => ?_
      candidate := fun hr => hc.outvoted hle hterm hballot (hcand hr) hr
      leader := fun hr => by rw [hterm]; exact (hle.leader (hc.leader hr)).1
      serve := fun hr hs => by
        rw [hterm, (hle.leader (hc.leader hr)).2.1]
        exact hc.serve hr hs }
  · obtain ⟨j, hj, hjle, hbatch⟩ := hb.batch
    refine ⟨j, hj, hjle, ?_⟩
    rw [slice_eq_of_take_eq hlog (by omega)]
    exact hbatch
  · obtain ⟨P, h₁, h₂, h₃, h₄⟩ := hc.receive hr
    rw [hterm]
    exact ⟨P, h₁, h₂, h₃.step hle hinv, h₄⟩

end NewLog

section Append

variable {es : List LogEntry}

/-- The two steps of the protocol. -/
theorem Shared.append (h : S.Shared (c.world Γ)) (hv : v ∈ S.members)
    (hl : Γ.hist.leader (Γ.hist.term v) = some v) (hterm : ∀ e ∈ es, e.term = Γ.hist.term v)
    (hgood : ∀ i (hi : i < es.length), S.Good ((Γ.hist.log v).length + i) es[i]) :
    S.Shared (c.world (Γ.append v es)) ∧ Consensus.Le v Γ.hist (Γ.append v es).hist := by
  have hstep : Consensus.Step S.members S.Good v Γ.hist
      (Γ.hist.setLeaderLog v (Γ.hist.term v) (Γ.hist.log v ++ es)) := .append hl hterm hgood
  have h₁ := h.setHist_of_eq hv hstep rfl rfl
  have hle₁ := (h.inv.step hstep).2
  have hown : (Γ.hist.setLeaderLog v (Γ.hist.term v) (Γ.hist.log v ++ es)).log v =
      Γ.hist.log v ++ es := Function.update_self ..
  have hstep' : Consensus.Step S.members S.Good v
      (Γ.hist.setLeaderLog v (Γ.hist.term v) (Γ.hist.log v ++ es)) (Γ.append v es).hist := by
    refine Consensus.Step.acknowledge hl (by rw [hown]) ?_
    rw [hown, List.take_length]
    simp [Consensus.State.setLeaderLog]
  exact ⟨h₁.setHist_of_eq hv hstep' rfl rfl, hle₁.trans (h₁.inv.step hstep').2⟩

theorem log_append (Γ : Ghost) (v : ℤ) (es : List LogEntry) :
    (Γ.append v es).hist.log v = Γ.hist.log v ++ es :=
  Function.update_self ..

theorem Settled.append {log : AbstractLog} {sm : Store} {L : List LogEntry}
    (h : S.Settled log sm L) (es : List LogEntry) :
    S.Settled { log with entries := log.entries ++ es } sm (L ++ es) := by
  obtain ⟨base, hb, hle, -⟩ := h.rep
  refine ⟨h.intent, h.rep.append es, h.applied, h.data.1, fun hy hpos => ?_⟩
  rw [List.take_append_of_le_length (by simp only [hb]; omega)]
  exact h.data.2 hy hpos

theorem Steady.append (h : S.Steady v Γ c) (hr : c.node.role = .leader)
    (hterm : ∀ e ∈ es, e.term = Γ.hist.term v)
    (hgood : ∀ i (hi : i < es.length), S.Good ((Γ.hist.log v).length + i) es[i]) :
    S.Steady v (Γ.append v es) { c with log := { c.log with entries := c.log.entries ++ es } } := by
  obtain ⟨hshared, hle⟩ := h.shared.append h.member (h.core.leader hr) hterm hgood
  have hg : (c.world Γ).Grows v (c.world (Γ.append v es)) := World.Grows.setHist hle
  have hinv := h.shared.inv
  have hlog := log_append Γ v es
  have hset := h.core.settled.append es
  rw [← hlog] at hset
  obtain ⟨a, k, ha, hk, -, hklen, hsa, -⟩ := h.core.progress
  have htake : ((Γ.append v es).hist.log v).take k = (Γ.hist.log v).take k := by
    rw [hlog, List.take_append_of_le_length hklen]
  have hlead := h.loose.lead hr
  refine
    { member := h.member
      id := h.id
      shared := hshared
      disk := h.disk.setLog hle hinv rfl rfl htake (hk ▸ h.core.store_le.2) rfl (.inl hset)
      progress := h.progress
      fresh := h.fresh
      loose :=
        { core := h.core.setLog hle hinv rfl rfl hk htake hset (ha ▸ hsa) (by simp [hr])
          rpc := h.loose.rpc
          lead := fun _ => { hlead with
            matched := fun u hu => ?_
            next := fun u hu => ?_
            flights := fun u => ?_ }
          proposals := fun _ item hitem => ?_
          reads := fun hr => (h.loose.reads hr).mono hg rfl
          promise := fun hy hrun => (h.loose.promise hy hrun).mono hg fun _ _ he => he }
      idle := fun hne => absurd hr hne }
  · obtain ⟨j, h₁, h₂⟩ := hlead.matched u hu
    exact ⟨j, h₁, h₂.trans (hle.ack_le _ _)⟩
  · obtain ⟨h₁, h₂⟩ := hlead.next u hu
    refine ⟨h₁, h₂.trans ?_⟩
    change ((Γ.hist.log v).length : ℤ) + 1 ≤ ((Γ.append v es).hist.log v).length + 1
    rw [hlog, List.length_append]
    omega
  · have hf := hlead.flights u
    refine ⟨hf.sent, fun hs => ?_, hf.lease⟩
    obtain ⟨h₁, h₂, P, h₃, h₄, h₅, h₆, h₇, h₈⟩ := hf.snapshot hs
    refine ⟨h₁, h₂, P, h₃, h₄, h₅, ?_, h₇.step hle hinv, h₈⟩
    change P <+: (Γ.append v es).hist.log v
    rw [hlog]
    exact h₆.trans (List.prefix_append _ _)
  · obtain ⟨i, e, h₁, h₂, h₃⟩ := h.loose.proposals hr item hitem
    replace h₂ : (Γ.hist.log v)[i]? = some e := h₂
    refine ⟨i, e, h₁, ?_, h₃⟩
    change ((Γ.append v es).hist.log v)[i]? = some e
    rw [hlog, List.getElem?_append_left (List.getElem?_eq_some_iff.mp h₂).1]
    exact h₂

end Append

theorem Steady.setMatch (h : S.Steady v Γ c) (hr : c.node.role = .leader)
    {matchIndex nextIndex : ℤ → ℤ} {bytes : ℕ}
    (hmatch : ∀ u ∈ S.members, ∃ k : ℕ, matchIndex u = k ∧ k ≤ Γ.hist.ack u (Γ.hist.term v))
    (hnext : ∀ u ∈ S.members, 1 ≤ nextIndex u ∧ nextIndex u ≤ (Γ.hist.log v).length + 1) :
    S.Steady v Γ { c with node := { c.node with
      matchIndex := matchIndex, nextIndex := nextIndex, pendingBytes := bytes } } :=
  { h with
    loose := { h.loose with
      core := { h.loose.core with }
      lead := fun hr => { h.loose.lead hr with matched := hmatch, next := hnext }
      reads := fun hr => { h.loose.reads hr with }
      promise := h.loose.promise }
    idle := fun hne => absurd hr hne }

theorem Steady.pushPending (h : S.Steady v Γ c) (hr : c.node.role = .leader) (item : ℤ × Pending)
    (hitem : RowOK Γ.hist v item) :
    S.Steady v Γ { c with node := { c.node with pending := c.node.pending ++ [item] } } :=
  { h with
    loose := { h.loose with
      core := { h.loose.core with }
      lead := fun hr => { h.loose.lead hr with }
      proposals := fun hr item' hmem => by
        rcases List.mem_append.mp hmem with hmem | hmem
        · exact h.loose.proposals hr item' hmem
        · rw [List.mem_singleton.mp hmem]
          exact hitem
      reads := fun hr => { h.loose.reads hr with }
      promise := h.loose.promise }
    idle := fun hne => absurd hr hne }

/-- The rows of a batch whose entries are in the log from `first`. -/
theorem addPending_keeps : ∀ (ps : List Proposal) {Γ : Ghost} {c : Context} {i : ℕ},
    S.Steady v Γ c → c.node.role = .leader →
    (∀ j (hj : j < ps.length), ∃ e, (Γ.hist.log v)[i + j]? = some e ∧ e.term = Γ.hist.term v ∧
      e.command = ps[j].command) →
    (S.logic v).gwp (addPending (i + 1) ps)
      (fun _ Γ' c' => S.Steady v Γ' c' ∧ Stays Γ c Γ' c') Γ c
  | [], Γ, c, _, h, _, _ => gwp_pure ⟨h, Stays.refl Γ c⟩
  | p :: ps, Γ, c, i, h, hr, hps => by
    rw [addPending]
    refine gwp_now fun env henv => ?_
    have hs := h.env henv
    rw [gwp_getNode]
    refine gwp_mark h.id (gwp_modifyNode ?_)
    have hs₁ := hs.note (e := .proposed (i + 1) c.node.currentTerm p.command p.callback.isSome)
      trivial rfl
    obtain ⟨e, he, hterm, hcommand⟩ := hps 0 (by simp)
    have hs₂ := hs₁.pushPending hr (i + 1, ⟨p.callback, p.command.length, env.clock,
      c.trace.length, c.node.currentTerm, p.command⟩)
      ⟨i, e, rfl, he, hterm, hterm.trans h.core.term.symm, hcommand⟩
    have hrest := addPending_keeps ps (i := i + 1) hs₂ hr fun j hj => by
      have := hps (j + 1) (by simpa using hj)
      rwa [show i + (j + 1) = i + 1 + j by omega, List.getElem_cons_succ] at this
    rw [Nat.cast_add, Nat.cast_one] at hrest
    exact hrest

theorem proposalEntries_spec {first term : ℤ} {ps : List Proposal} {i : ℕ}
    (hi : i < (proposalEntries first term ps).length) (hi' : i < ps.length) :
    (proposalEntries first term ps)[i] = ⟨first + i, term, ps[i].command⟩ := by
  simp [proposalEntries]

theorem Steady.proposalEntries_good (h : S.Steady v Γ c) {ps : List Proposal}
    (hmax : c.log.lastIndex + ps.length < int64Max)
    (hsmall : ∀ p ∈ ps, p.command.length ≤ kMaxCommandBytes)
    (hproper : ∀ p ∈ ps, S.Proper p) (i : ℕ)
    (hi : i < (proposalEntries (c.log.lastIndex + 1) c.node.currentTerm ps).length) :
    S.Good ((Γ.hist.log v).length + i)
      (proposalEntries (c.log.lastIndex + 1) c.node.currentTerm ps)[i] := by
  have hi' : i < ps.length := by simpa [proposalEntries] using hi
  rw [proposalEntries_spec hi hi', h.core.settled.rep.lastIndex_eq] at *
  have hle : c.node.currentTerm ≤ int32Max := h.core.term ▸ h.shared.term_le v
  exact ⟨by push_cast; omega, by simp only; omega, hle, hsmall _ (List.getElem_mem hi'),
    hproper _ (List.getElem_mem hi')⟩

theorem Steady.matchSelf (h : S.Steady v Γ c) (hr : c.node.role = .leader) (last : ℤ)
    (hlast : last = (Γ.hist.log v).length)
    (hack : (Γ.hist.log v).length ≤ Γ.hist.ack v (Γ.hist.term v)) (bytes : ℕ) :
    S.Steady v Γ { c with node := { c.node with
      pendingBytes := bytes
      matchIndex := Function.update c.node.matchIndex c.node.nodeId last } } := by
  refine h.setMatch hr (fun u hu => ?_) (h.loose.lead hr).next
  rw [h.core.id]
  by_cases huv : u = v
  · subst huv
    exact ⟨_, by rw [Function.update_self, hlast], hack⟩
  · rw [Function.update_of_ne huv]
    exact (h.loose.lead hr).matched u hu

/-- The handler of a refused write : a leader answers all its proposals, and none with success. -/
theorem refusedWrite_spec (h : S.Steady v Γ c) (hr : c.node.role = .leader) (result : String) :
    (S.logic v).gwp (do
        modifyNode fun n => { n with storageHealthy := false }
        failPending result) (fun _ Γ' c' => S.Safe v Γ' c') Γ c := by
  refine gwp_modifyNode ?_
  rw [failPending, gwp_getNode]
  refine gwp_modifyNode ?_
  have hs : S.Steady v Γ { c with node := { c.node with storageHealthy := false } } :=
    { h with
      loose := { h.loose with
        core := { h.loose.core with }
        lead := fun hr => { h.loose.lead hr with }
        proposals := h.loose.proposals
        reads := fun hr => { h.loose.reads hr with }
        promise := h.loose.promise }
      idle := fun hne => absurd hr hne }
  exact gwp_mono (failProposals_keeps _ _ Γ _ (hs.setPending hr fun _ hmem => by cases hmem) hr)
    fun _ _ _ _ hp => hp.1.toSafe

theorem proposeBatch_spec (h : S.Steady v Γ c) (ps : List Proposal)
    (hproper : ∀ p ∈ ps, S.Proper p) :
    (S.logic v).gwp (proposeBatch ps) (fun _ Γ' c' => S.Steady v Γ' c' ∧
      c'.node.role = c.node.role ∧ c'.node.running = c.node.running ∧
      Γ'.hist.term = Γ.hist.term) Γ c := by
  rw [proposeBatch, gwp_getNode, gwp_getLog]
  cases hadmission : c.node.admission ps with
  | error code => exact gwp_pure ⟨h, rfl, rfl, rfl⟩
  | ok bytes =>
    obtain ⟨hrun, hr, hpos, hsmall, -⟩ := Node.admitted_of_ok hadmission
    simp only
    refine gwp_ite (fun _ => gwp_fail h.toSafe fun _ => by simp [expected]) fun hmax => ?_
    have hrep := h.core.settled.rep
    set es := proposalEntries (c.log.lastIndex + 1) c.node.currentTerm ps with hes
    have hlen : es.length = ps.length := by simp [hes, proposalEntries]
    have hget : ∀ i (hi : i < es.length) (hi' : i < ps.length),
        es[i] = ⟨c.log.lastIndex + 1 + i, c.node.currentTerm, ps[i].command⟩ :=
      fun i hi hi' => proposalEntries_spec hi hi'
    have hterm : ∀ e ∈ es, e.term = Γ.hist.term v := by
      intro e he
      obtain ⟨i, hi, rfl⟩ := List.getElem_of_mem he
      rw [hget i hi (hlen ▸ hi)]
      exact h.core.term
    have hgood := h.proposalEntries_good (by omega) hsmall hproper
    have hl := h.core.leader hr
    have hbound : 0 < Γ.hist.term v := (h.shared.inv.leader_bound hl).1
    have hlast := hrep.lastIndex_eq
    have hwrite : c.log.appendBatch (fun _ => true) es =
        .ok { c.log with entries := c.log.entries ++ es } := by
      refine hrep.appendBatch_eq _ (fun i hi => ?_) (by omega)
      rw [hget i hi (hlen ▸ hi)]
      exact ⟨by simp only; omega, by rw [h.core.term]; exact hbound⟩
    refine gwp_onFailure_writeLog h.toSafe hwrite
      (h.shared.append h.member hl hterm hgood).2 (fun env henv => ?_)
      fun env henv => refusedWrite_spec (h.env henv.ge) hr _
    have hs : S.Steady v (Γ.append v es)
        { c with log := { c.log with entries := c.log.entries ++ es }, env := env } :=
      (h.append hr hterm hgood).env henv.ge
    have hlog := log_append Γ v es
    have hrows := addPending_keeps ps hs hr (i := (Γ.hist.log v).length) fun j hj => by
      refine ⟨es[j], ?_, hterm _ (List.getElem_mem _), ?_⟩
      · rw [hlog, List.getElem?_append_right (by omega), Nat.add_sub_cancel_left,
          List.getElem?_eq_getElem (by omega)]
      · rw [hget j (by omega) hj]
    rw [← hlast] at hrows
    refine gwp_seq hrows fun _ Γ₁ c₁ _ hp => gwp_modifyNode ?_
    obtain ⟨h₁, hst₁⟩ := hp
    have hhist : Γ₁.hist = (Γ.append v es).hist := hst₁.hist
    have hr₁ : c₁.node.role = .leader := hst₁.role.trans hr
    have hs₁ := h₁.matchSelf hr₁ (c.log.lastIndex + 1 + ps.length - 1)
      (by rw [hhist, hlog, List.length_append, hlast]; push_cast; omega)
      (by
        rw [hhist, hlog]
        simp [Ghost.append, Ghost.setHist, Consensus.State.setAck, Consensus.State.setLeaderLog])
      (c₁.node.pendingBytes + bytes)
    refine broadcastAppendEntries_keeps.seq hs₁ hr₁ fun _ Γ₂ c₂ _ h₂ hst₂ => ?_
    have hr₂ : c₂.node.role = .leader := hst₂.role.trans hr₁
    refine gwp_seq (advanceCommitIndex_spec h₂ hr₂) fun _ Γ₃ c₃ _ hp => gwp_pure ⟨hp.1, ?_⟩
    have hadv := hp.2
    refine ⟨hadv.role.trans (hr₂.trans hr.symm), ?_, ?_⟩
    · exact hadv.running.trans (hst₂.running.trans hst₁.running)
    · rw [hadv.hist, hst₂.hist, hhist]
      rfl

end Setting

end RaftKV
