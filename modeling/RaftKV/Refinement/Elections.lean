import RaftKV.Refinement.Committing

/-!
# Elections keep the relation

A node that adopts a term, campaigns, votes or becomes leader takes a step of the protocol when
its hard state is durable. What a step needs from the votes of others comes from the messages
they sent (`VoteOK`, `VoteReplyOK`). Under `synced`, a node may only leave the term of a leader
whose entries it accepted when it has no promise left (`Freed`); where that comes from is the
subject of the first section.
-/

namespace RaftKV

open RaftM GhostLogic
open Consensus (lastTerm Decided IsQuorum)

theorem ballot_eq_none_of_not_mem {members : Finset ℤ} {Good : ℕ → LogEntry → Prop} {h : History}
    (hr : Consensus.Reachable members Good h) {w : ℤ} (hw : w ∉ members) (t : ℤ) :
    h.ballot w t = none := by
  induction hr with
  | init => rfl
  | step hr hv hs ih =>
    rw [((hr.inv.step hs).2.other (ne_of_mem_of_not_mem hv hw).symm).2.2.1]
    exact ih

/-- Node `v` becomes leader of its term and acknowledges its own log. -/
def Ghost.crown (Γ : Ghost) (v : ℤ) : Ghost :=
  Γ.setHist ((Γ.hist.crown v (Γ.hist.term v)).setAck v (Γ.hist.term v) (Γ.hist.log v).length)

/-- Node `v` campaigns in the next term. -/
def Ghost.campaign (Γ : Ghost) (v : ℤ) : Ghost :=
  Γ.setHist ((Γ.hist.setTerm v (Γ.hist.term v + 1)).cast v (Γ.hist.term v + 1) v)

namespace Setting

variable {S : Setting} {v : ℤ} {W : World} {Γ : Ghost} {c : Context}

/-! ## Promises -/

/-- A node is free when its promise to its leader, if it has one, has ended. -/
theorem PromiseOK.freed {n : Node} (h : PromiseOK W v n)
    (hend : n.role = .follower → n.leaderId ≠ -1 → W.hist.leader n.currentTerm = some n.leaderId →
      n.electionDeadline ≤ W.clock ∨ Succeeded W.hist n.currentTerm ∨
        Moved W.hist n.currentTerm) : Freed W v := by
  intro term time he
  rcases h term time he with h₁ | h₁ | h₁ | ⟨h₁, rfl, h₂, h₃, h₄⟩
  · exact .inl h₁
  · exact .inr (.inl h₁)
  · exact .inr (.inr h₁)
  · exact (hend h₁ h₂ h₃).imp_left fun hd => h₄.trans hd

theorem PromiseOK.freed_of_role {n : Node} (h : PromiseOK W v n) (hr : n.role ≠ .follower) :
    Freed W v :=
  h.freed fun hf => absurd hf hr

theorem PromiseOK.freed_of_deadline {n : Node} (h : PromiseOK W v n)
    (hd : n.electionDeadline ≤ W.clock) : Freed W v :=
  h.freed fun _ _ _ => .inl hd

/-- Promises end when a later leader exists. -/
theorem PromiseOK.freed_of_succeeded {n : Node} (h : PromiseOK W v n)
    (hs : Succeeded W.hist n.currentTerm) : Freed W v :=
  h.freed fun _ _ _ => .inr (.inl hs)

theorem Freed.promise (h : Freed W v) (n : Node) : PromiseOK W v n := by
  intro term time he
  rcases h term time he with h₁ | h₁ | h₁
  · exact .inl h₁
  · exact .inr (.inl h₁)
  · exact .inr (.inr (.inl h₁))

theorem Freed.mono {W' : World} (hg : W.Grows v W')
    (hacc : ∀ term time, (v, Event.accepted term time) ∈ W'.trace →
      (v, Event.accepted term time) ∈ W.trace) (h : Freed W v) : Freed W' v := by
  intro term time he
  rcases h term time (hacc term time he) with h₁ | h₁ | h₁
  · exact .inl (h₁.trans hg.clock_le)
  · exact .inr (.inl (Succeeded.mono hg h₁))
  · exact .inr (.inr (Moved.mono hg h₁))

/-! ## Timers -/

theorem gwp_resetElectionTimer {α : Type} {Q : α → Ghost → Context → Prop} {k : Unit → RaftM α}
    (h : ∀ (env : Env) (deadline : ℤ), c.env.clock ≤ env.clock →
      env.clock + leaseWindow ≤ deadline →
      (S.logic v).gwp (k ()) Q Γ { c with
        env := env, node := { c.node with electionDeadline := deadline } }) :
    (S.logic v).gwp (resetElectionTimer >>= k) Q Γ c := by
  rw [resetElectionTimer, bind_assoc]
  refine gwp_drawTimeout fun timeout env ht henv => ?_
  rw [bind_assoc]
  refine gwp_now fun env' henv' => gwp_modifyNode (h env' _ (henv.ge.trans henv') ?_)
  rw [leaseWindow]
  have : kMinElectionTimeoutMs * ms ≤ timeout * ms := by
    rw [kMinElectionTimeoutMs, ms] at *
    omega
  omega

theorem gwp_notePeerContact {peer : ℤ} {α : Type} {Q : α → Ghost → Context → Prop}
    {k : Unit → RaftM α} (hk : ∀ (env : Env) (active : ℤ → Option ℤ), c.env.clock ≤ env.clock →
      (S.logic v).gwp (k ()) Q Γ { c with
        env := env, node := { c.node with peerActive := active } }) :
    (S.logic v).gwp (notePeerContact peer >>= k) Q Γ c := by
  rw [notePeerContact, bind_assoc]
  exact gwp_now fun env henv => gwp_modifyNode (hk env _ henv)

theorem Steady.setDeadline (h : S.Steady v Γ c) {deadline : ℤ}
    (hd : c.env.clock + leaseWindow ≤ deadline) :
    S.Steady v Γ { c with node := { c.node with electionDeadline := deadline } } :=
  { h with
    loose := { h.loose with
      core := { h.loose.core with }
      lead := fun hr => { h.loose.lead hr with }
      reads := fun hr => { h.loose.reads hr with }
      promise := fun hy hrun term time he => by
        rcases h.loose.promise hy hrun term time he with h₁ | h₁ | h₁ | ⟨h₁, h₂, h₃, h₄, -⟩
        · exact .inl h₁
        · exact .inr (.inl h₁)
        · exact .inr (.inr (.inl h₁))
        · have hle : time ≤ c.env.clock := (h.shared.lease hy).accepted_le v term time he
          exact .inr (.inr (.inr ⟨h₁, h₂, h₃, h₄, by simp only; omega⟩)) }
    idle := fun hr => { h.idle hr with } }

/-! ## A new hard state -/

/-- What a change of term, vote and role leaves alone. -/
structure Kept (n n' : Node) : Prop where
  nodeId : n'.nodeId = n.nodeId
  allPeers : n'.allPeers = n.allPeers
  lastApplied : n'.lastApplied = n.lastApplied
  commitIndex : n'.commitIndex = n.commitIndex
  applyInflight : n'.applyInflight = n.applyInflight
  leaseReads : n'.leaseReads = n.leaseReads
  rpcSequence : n'.rpcSequence = n.rpcSequence
  receive : n'.snapshotReceive = n.snapshotReceive ∨ n'.snapshotReceive = {}

/-- Term, vote and role change, and the log stays. The node is not leader afterwards. -/
theorem Ready.restate (h : S.Ready v Γ c) {h' : History} (hard : Option (ℤ × ℤ)) {n : Node}
    (hle : Consensus.Le v Γ.hist h') (hshared : S.Shared ((c.world Γ).setHist h'))
    (hlog : h'.log v = Γ.hist.log v)
    (hhard : hard = some (h'.term v, (h'.ballot v (h'.term v)).getD (-1)) ∨
      hard = none ∧ h'.term v = 0) (hkept : Kept c.node n) (hterm : n.currentTerm = h'.term v)
    (hvote : n.votedFor = (h'.ballot v (h'.term v)).getD (-1)) (hrole : n.role ≠ .leader)
    (hactive : n.role ≠ .follower → n.running = true)
    (hcand : n.role = .candidate → h'.ballot v (h'.term v) = some v ∧
      h'.leader (h'.term v) ≠ some v ∧
      (h'.voteLog v (h'.term v) = h'.log v ∨ (h'.leader (h'.term v)).isSome) ∧
      ∀ w ∈ n.votes, w ∈ S.members ∧ h'.ballot w (h'.term v) = some v)
    (hpromise : S.synced → n.running = true → PromiseOK ((c.world Γ).setHist h') v n) :
    S.Ready v (Γ.setHist h') { c with log := { c.log with hardState := hard }, node := n } := by
  have hinv := h.shared.inv
  have hset : S.Settled { c.log with hardState := hard } c.sm (h'.log v) := by
    rw [hlog]
    exact { h.core.settled with rep := h.core.settled.rep.congr rfl rfl }
  have hmono : ∀ {P}, Decided S.members Γ.hist (Γ.hist.term v) P →
      Decided S.members h' (h'.term v) P := fun hd =>
    (hd.step hle hinv).mono (hle.term_le v)
  refine
    { member := h.member
      id := hkept.nodeId.trans h.id
      shared := hshared
      disk := ⟨hhard, h.disk.marked, ?_, .inl hset⟩
      progress := h.progress
      fresh := h.fresh
      loose :=
        { core :=
            { id := hkept.nodeId.trans h.core.id
              peers := hkept.allPeers.trans h.core.peers
              term := hterm
              vote := hvote
              settled := hset
              progress := ?_
              exec := ?_
              active := hactive
              receive := fun hpos => ?_
              candidate := hcand
              leader := fun hr => absurd hr hrole
              serve := fun hr => absurd hr hrole
              lease := fun hon => h.core.lease (hkept.leaseReads.symm.trans hon) }
          rpc := hkept.rpcSequence.trans h.loose.rpc
          lead := fun hr => absurd hr hrole
          proposals := fun hr => absurd hr hrole
          reads := fun hr => absurd hr hrole
          promise := hpromise } }
  · obtain ⟨k, h₁, h₂, h₃, h₄⟩ := h.disk.applied
    refine ⟨k, h₁, ?_⟩
    change k ≤ (h'.log v).length ∧ Decided S.members h' (h'.term v) ((h'.log v).take k) ∧
      (S.clean → _ = storeOf ((h'.log v).take k))
    rw [hlog]
    exact ⟨h₂, hmono h₃, h₄⟩
  · obtain ⟨a, k, h₁, h₂, h₃, h₄, h₅, h₆⟩ := h.core.progress
    refine ⟨a, k, hkept.lastApplied.trans h₁, hkept.commitIndex.trans h₂, h₃, ?_⟩
    change k ≤ (h'.log v).length ∧ _ ∧ Decided S.members h' (h'.term v) ((h'.log v).take k)
    rw [hlog]
    exact ⟨h₄, h₅, hmono h₆⟩
  · change Quiet n.lastApplied _ _ ∨
      S.Busy n.applyInflight n.lastApplied n.commitIndex _ _ (h'.log v)
    rw [hlog, hkept.applyInflight, hkept.lastApplied, hkept.commitIndex]
    exact h.core.exec
  simp only at hpos ⊢
  rcases hkept.receive with heq | heq
  · rw [heq] at hpos ⊢
    obtain ⟨P, h₁, h₂, h₃, h₄⟩ := h.core.receive hpos
    exact ⟨P, h₁, h₂, hmono h₃, h₄⟩
  · rw [heq] at hpos
    exact absurd hpos (by decide)

/-! ## A node steps down -/

theorem Ready.demote (h : S.Ready v Γ c) {h' : History} (hard : Option (ℤ × ℤ))
    (hle : Consensus.Le v Γ.hist h') (hshared : S.Shared ((c.world Γ).setHist h'))
    (hlog : h'.log v = Γ.hist.log v)
    (hhard : hard = some (h'.term v, (h'.ballot v (h'.term v)).getD (-1)) ∨
      hard = none ∧ h'.term v = 0)
    (hfree : S.synced → Freed (c.world Γ) v) :
    S.Ready v (Γ.setHist h') { c with
      log := { c.log with hardState := hard }
      node := { c.node with
        currentTerm := h'.term v, votedFor := (h'.ballot v (h'.term v)).getD (-1) }.asFollower } :=
  h.restate hard hle hshared hlog hhard ⟨rfl, rfl, rfl, rfl, rfl, rfl, rfl, .inr rfl⟩ rfl rfl
    (by simp [Node.asFollower]) (fun hne => absurd rfl hne) (fun hr => by cases hr)
    fun hy _ => ((hfree hy).mono (World.Grows.setHist hle) fun _ _ he => he).promise _

theorem drain_spec (h : S.Ready v Γ c) (hr : c.node.role ≠ .leader) (result reason : String) :
    (S.logic v).gwp
      (do
        failPending result
        clearReadIndexQueues reason
        modifyNode fun n => { n with canServeRead := false })
      (fun _ Γ' c' => S.Steady v Γ' c' ∧ Untouched Γ { c with node := { c.node with
        pending := [], pendingBytes := 0, heartbeatRounds := [], unsentReads := []
        pendingReads := [], canServeRead := false } } Γ' c') Γ c := by
  refine gwp_seq (failPending_spec h hr result) fun _ Γ₁ c₁ _ ⟨h₁, hu₁⟩ => ?_
  have hr₁ : c₁.node.role ≠ .leader := by rw [hu₁.node]; exact hr
  refine gwp_seq (clearReadIndexQueues_spec h₁ hr₁ reason) fun _ Γ₂ c₂ _ ⟨h₂, hu₂⟩ => ?_
  have hn : c₂.node = { c.node with
      pending := [], pendingBytes := 0, heartbeatRounds := [], unsentReads := []
      pendingReads := [] } := by
    rw [hu₂.node]
    simp only [hu₁.node]
  have hr₂ : c₂.node.role ≠ .leader := by rw [hn]; exact hr
  refine gwp_modifyNode_last ⟨{ h₂ with
    loose := { h₂.loose with
      core := { h₂.loose.core with serve := fun hl => absurd hl hr₂ }
      lead := fun hl => absurd hl hr₂
      reads := fun hl => absurd hl hr₂
      promise := h₂.loose.promise }
    idle := fun _ => by simp only [hn]; exact ⟨rfl, rfl, rfl, rfl⟩ }, ?_⟩
  exact ⟨hu₂.ghost.trans hu₁.ghost, by rw [hn], hu₂.log.trans hu₁.log, hu₂.sm.trans hu₁.sm,
    hu₂.exec.trans hu₁.exec⟩

theorem Shared.adopt (h : S.Shared (c.world Γ)) (hv : v ∈ S.members) {t : ℤ}
    (ht : Γ.hist.term v < t) (hmax : t ≤ int32Max) (hfree : S.synced → Freed (c.world Γ) v) :
    S.Shared ((c.world Γ).setHist (Γ.hist.setTerm v t)) ∧
      Consensus.Le v Γ.hist (Γ.hist.setTerm v t) := by
  have hle := h.inv.le_setTerm ht
  refine ⟨h.setHist hv (.adopt ht) ?_ fun hy => (h.lease hy).raise hle rfl (hfree hy), hle⟩
  simpa [Consensus.State.setTerm] using hmax

/-- What is left of a node that has stepped down. -/
structure Demoted (c : Context) (term : ℤ) (c' : Context) : Prop where
  role : c'.node.role = .follower
  term : c'.node.currentTerm = max c.node.currentTerm term
  running : c'.node.running = c.node.running

theorem becomeFollower_spec (h : S.Steady v Γ c) {term : ℤ} (hmax : term ≤ int32Max)
    (hfree : S.synced → Freed (c.world Γ) v) : (S.logic v).gwp (becomeFollower term)
      (fun _ Γ' c' => S.Steady v Γ' c' ∧ Demoted c term c') Γ c := by
  -- what follows the change of role
  have tail : ∀ {Γ₁ : Ghost} {c₁ : Context}, S.Ready v Γ₁ c₁ → Demoted c term c₁ →
      c₁.node.leaderId = -1 → (S.logic v).gwp
        (do
          resetElectionTimer
          failPending "-ERR leadership lost; outcome unknown\r\n"
          clearReadIndexQueues "leadership lost"
          modifyNode fun n => { n with canServeRead := false })
        (fun _ Γ' c' => S.Steady v Γ' c' ∧ Demoted c term c') Γ₁ c₁ := by
    intro Γ₁ c₁ h₁ hd₁ hid₁
    have hr₁ : c₁.node.role ≠ .leader := by rw [hd₁.role]; decide
    refine gwp_resetElectionTimer fun env deadline henv _ => ?_
    have h₂ := h₁.env henv
    have hs₂ : S.Ready v Γ₁ { c₁ with
        env := env, node := { c₁.node with electionDeadline := deadline } } :=
      { h₂ with
        loose := { h₂.loose with
          core := { h₂.loose.core with }
          lead := fun hl => absurd hl hr₁
          reads := fun hl => absurd hl hr₁
          promise := fun hy hrun =>
            ((h₂.loose.promise hy hrun).freed fun _ hne => absurd hid₁ hne).promise _ } }
    refine gwp_mono (drain_spec hs₂ hr₁ _ _) fun _ Γ₃ c₃ _ ⟨h₃, hu₃⟩ => ⟨h₃, ?_, ?_, ?_⟩
    · rw [hu₃.node]
      exact hd₁.role
    · rw [hu₃.node]
      exact hd₁.term
    · rw [hu₃.node]
      exact hd₁.running
  rw [becomeFollower, adoptTerm]
  refine gwp_bind ?_
  rw [gwp_getNode]
  refine gwp_ite (fun hlt => ?_) fun hlt => ?_
  · rw [h.core.term] at hlt
    obtain ⟨hshared, hle⟩ := h.shared.adopt h.member hlt hmax hfree
    have hnn := h.shared.term_nonneg v
    have hterm : (Γ.hist.setTerm v term).term v = term := Function.update_self ..
    have hnone : (Γ.hist.setTerm v term).ballot v term = none := h.shared.inv.ballot_none hlt
    have hwrite : c.log.saveHardState term (-1) =
        .ok { c.log with hardState := some (term, -1) } := by
      have hnn' : 0 ≤ Γ.hist.term v := hnn
      rw [AbstractLog.saveHardState, if_neg (by omega)]
    have hready := h.toReady.demote (some (term, -1)) hle hshared rfl
      (.inl (by rw [hterm, hnone]; rfl)) hfree
    rw [hterm, hnone] at hready
    refine gwp_writeLog_step h.toSafe hwrite hle fun env henv => gwp_modifyNode_last ?_
    refine gwp_modifyNode (tail (hready.env henv.ge) ⟨rfl, ?_, rfl⟩ rfl)
    rw [h.core.term, max_eq_right hlt.le]
    rfl
  · have hready :=
      h.toReady.demote c.log.hardState (Consensus.Le.refl v Γ.hist) h.shared rfl h.disk.hard hfree
    refine gwp_pure (gwp_modifyNode (tail ?_ ⟨rfl, ?_, rfl⟩ rfl))
    · rw [← h.core.vote, ← h.core.term] at hready
      exact hready
    · rw [max_eq_left (not_lt.mp hlt)]
      rfl

/-! ## A node becomes leader -/

/-- The term of a candidate with a majority has no leader yet, and the log is as it was when
the node voted for itself. -/
theorem Steady.electable (h : S.Steady v Γ c) (hr : c.node.role = .candidate)
    (hq : c.node.quorumSize ≤ c.node.votes.card) :
    Γ.hist.leader (Γ.hist.term v) = none ∧ Γ.hist.voteLog v (Γ.hist.term v) = Γ.hist.log v ∧
      IsQuorum S.members c.node.votes ∧
      ∀ w ∈ c.node.votes, Γ.hist.ballot w (Γ.hist.term v) = some v := by
  obtain ⟨-, hne, hlog, hvotes⟩ := h.core.candidate hr
  have hquorum : IsQuorum S.members c.node.votes := by
    refine ⟨fun w hw => (hvotes w hw).1, ?_⟩
    rw [card_members]
    rwa [Node.quorumSize, h.core.peers] at hq
  have hnone : Γ.hist.leader (Γ.hist.term v) = none := by
    rcases hl : Γ.hist.leader (Γ.hist.term v) with _ | w
    · rfl
    · have := h.shared.inv.leader_unique hl hquorum fun w hw => (hvotes w hw).2
      exact absurd (this ▸ hl) hne
  refine ⟨hnone, hlog.resolve_right ?_, hquorum, fun w hw => (hvotes w hw).2⟩
  rw [hnone]
  decide

theorem Shared.crown (h : S.Shared (c.world Γ)) (hv : v ∈ S.members)
    (hnone : Γ.hist.leader (Γ.hist.term v) = none)
    (hlog : Γ.hist.voteLog v (Γ.hist.term v) = Γ.hist.log v) {q : Finset ℤ}
    (hq : IsQuorum S.members q) (hvotes : ∀ w ∈ q, Γ.hist.ballot w (Γ.hist.term v) = some v) :
    S.Shared (c.world (Γ.crown v)) ∧ Consensus.Le v Γ.hist (Γ.crown v).hist := by
  have hstep : Consensus.Step S.members S.Good v Γ.hist (Γ.hist.crown v (Γ.hist.term v)) :=
    .elect hnone hlog hq hvotes
  have h₁ := h.setHist hv hstep (h.term_le v) fun hy =>
    (h.lease hy).crown h.inv hnone hq hvotes
  have hl : (Γ.hist.crown v (Γ.hist.term v)).leader (Γ.hist.term v) = some v :=
    Function.update_self ..
  have hstep' : Consensus.Step S.members S.Good v (Γ.hist.crown v (Γ.hist.term v))
      (Γ.crown v).hist := by
    refine Consensus.Step.acknowledge hl le_rfl ?_
    have : (Γ.hist.crown v (Γ.hist.term v)).leaderLog (Γ.hist.term v) = Γ.hist.log v :=
      Function.update_self ..
    change (Γ.hist.log v).take (Γ.hist.log v).length <+:
      (Γ.hist.crown v (Γ.hist.term v)).leaderLog (Γ.hist.term v)
    rw [this, List.take_length]
  exact ⟨h₁.setHist_of_eq hv hstep' rfl rfl,
    (h.inv.step hstep).2.trans (h₁.inv.step hstep').2⟩

/-- A node that was not leader of its term has sent no requests in it. -/
theorem Shared.no_requests (h : S.Shared W) {t : ℤ} (hnone : W.hist.leader t = none) {e : Envelope}
    (he : e ∈ W.net) (k : ℕ) : requestId e.message ≠ some (t, k) := by
  intro hid
  have hmsg := (h.msgs e he).2
  cases hm : e.message <;> simp only [hm, requestId] at hid hmsg <;> cases hid
  · rw [hmsg.1.1] at hnone
    cases hnone
  · rw [hmsg.1.1] at hnone
    cases hnone

theorem Idle.pendingOK {n : Node} (h : Idle n) {hist : History} : PendingOK hist v n := by
  intro item hitem
  rw [h.pending] at hitem
  cases hitem

theorem Idle.readsOK {n : Node} {inc : ℕ} (h : Idle n) : S.ReadsOK W v n inc where
  rounds := by simp [h.rounds]
  unsent := by simp [h.unsent]
  pending := by simp [h.reads]

theorem Steady.crown (h : S.Steady v Γ c) (hr : c.node.role = .candidate)
    (hq : c.node.quorumSize ≤ c.node.votes.card) :
    S.Steady v (Γ.crown v) { c with node := c.node.asLeader c.log.lastIndex } := by
  obtain ⟨hnone, hlog, hquorum, hvotes⟩ := h.electable hr hq
  obtain ⟨hshared, hle⟩ := h.shared.crown h.member hnone hlog hquorum hvotes
  have hg : (c.world Γ).Grows v (c.world (Γ.crown v)) := World.Grows.setHist hle
  have hinv := h.shared.inv
  have hidle := h.idle (by rw [hr]; decide)
  have hl : (Γ.crown v).hist.leader (Γ.hist.term v) = some v := Function.update_self ..
  obtain ⟨a, k, ha, hk, hak, hklen, hsa, hdec⟩ := h.core.progress
  refine
    { member := h.member
      id := h.id
      shared := hshared
      disk := h.disk.setLog hle hinv rfl rfl (k := k) rfl (hk ▸ h.core.store_le.2) rfl
        (.inl h.core.settled)
      progress := h.progress
      fresh := h.fresh
      loose :=
        { core := { h.core with
            progress := ⟨a, k, ha, hk, hak, hklen, hsa, hdec.step hle hinv⟩
            active := fun _ => h.core.active (by rw [hr]; decide)
            receive := fun hpos => ?_
            candidate := fun hc => by cases hc
            leader := fun _ => hl
            serve := fun _ hs => by cases hs }
          rpc := h.loose.rpc
          lead := fun _ =>
            { matched := fun u hu => ?_
              next := fun u hu => ?_
              flights := fun u => ⟨fun hne => absurd rfl hne,
                (fun hs => by simp [Node.asLeader] at hs),
                fun _ hne => absurd rfl hne⟩
              requests := fun e he _ j hj => absurd hj (h.shared.no_requests hnone he j)
              unique := fun e he _ _ _ _ j hj => absurd hj (h.shared.no_requests hnone he j)
              acknowledged := fun origin index command reply he => ?_
              confirmed := fun _ _ _ ht => by cases ht }
          proposals := fun _ => hidle.pendingOK
          reads := fun _ => { hidle.readsOK with }
          promise := fun hy hrun =>
            (((h.loose.promise hy hrun).freed_of_role (by rw [hr]; decide)).mono hg
              fun _ _ he => he).promise _ }
      idle := fun hne => absurd rfl hne }
  · obtain ⟨P, h₁, h₂, h₃, h₄⟩ := h.core.receive hpos
    exact ⟨P, h₁, h₂, h₃.step hle hinv, h₄⟩
  · by_cases huv : u = v
    · refine ⟨(Γ.hist.log v).length, ?_, ?_⟩
      · simp only [Node.asLeader, huv, h.core.id, Function.update_self]
        exact h.core.settled.rep.lastIndex_eq
      · simp [huv, Ghost.crown, Ghost.setHist, Context.world, Consensus.State.setAck,
          Consensus.State.crown]
    · refine ⟨0, ?_, Nat.zero_le _⟩
      simp [Node.asLeader, h.core.id, Function.update_of_ne huv]
  · have := h.core.settled.rep.lastIndex_eq
    change 1 ≤ c.log.lastIndex + 1 ∧ c.log.lastIndex + 1 ≤ (Γ.hist.log v).length + 1
    omega
  · obtain ⟨j, hj⟩ := List.getElem?_of_mem he
    have := (h.shared.events j v _ hj rfl).1
    exact absurd (hnone.symm.trans this) (by simp)

theorem becomeLeader_spec (h : S.Steady v Γ c) (hr : c.node.role = .candidate)
    (hq : c.node.quorumSize ≤ c.node.votes.card) :
    (S.logic v).gwp becomeLeader (fun _ Γ' c' => S.Steady v Γ' c') Γ c := by
  have hle := (h.shared.crown h.member (h.electable hr hq).1 (h.electable hr hq).2.1
    (h.electable hr hq).2.2.1 (h.electable hr hq).2.2.2).2
  have hs := h.crown hr hq
  rw [becomeLeader, gwp_getLog]
  refine gwp_bind (gwp_modify (Γ.crown v) ⟨World.Grows.setHist hle, rfl, rfl⟩ ?_)
  rw [gwp_getNode]
  refine gwp_observe hs.id ?_
  have hs₁ := hs.note (e := .leader c.node.currentTerm)
    (by rw [h.core.term]; exact hs.core.leader rfl) rfl
  refine gwp_seq (proposeBatch_spec hs₁ [⟨[], none⟩] fun p hp => ?_)
    fun _ Γ₂ c₂ _ ⟨h₂, _⟩ => ?_
  · rw [List.mem_singleton.mp hp]
    refine ⟨fun _ command hc => ?_, fun _ => rfl⟩
    rw [← Option.some.inj (show some Command.noop = some command from hc)]
    trivial
  refine gwp_now fun env henv => gwp_modifyNode ?_
  rw [← bind_pure (notePeerContact _)]
  refine gwp_notePeerContact fun env' active henv' => gwp_pure ?_
  have hs₃ := (h₂.env henv).env henv'
  exact hs₃.tweak ..

end Setting

end RaftKV
