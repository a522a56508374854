import RaftKV.Cluster
import RaftKV.Refinement.Recovery

/-!
# Every run keeps the relation

`ClusterOK` relates the state of a cluster between two steps to a state of the protocol. Every
step keeps it (`ClusterOK.step`) if it meets the conditions of the setting, so it holds after
every run whose steps do (`clusterOK_run`). Every run meets the conditions of a `plain`
setting (`exists_clusterOK`).
-/

namespace RaftKV

open RaftM GhostLogic
open Consensus (lastTerm Decided IsQuorum)

/-! ## Conditions on runs -/

/-- The context a method ends in. -/
def endContext : EStateM.Result Halt Context Unit → Context
  | .ok _ c => c
  | .error _ c => c

/-- The clock after a step. -/
def timeAfter (M : Membership) (s : Cluster) (time : ℤ) : Action → ℤ
  | .call v input env =>
    match s.up v with
    | none => time
    | some p =>
      if input.Enabled s v then
        (endContext (input.run (s.context v p input.replyTo env))).env.clock
      else time
  | .restart v async env =>
    if v ∈ M.peers ∧ (s.up v).isNone then
      let s := { s with incarnation := Function.update s.incarnation v (s.incarnation v + 1) }
      (endContext (construct (s.context v ⟨M.boot v async, {}⟩ 0 env))).env.clock
    else time
  | .crash _ => time

/-- What node `v` accepted in a term was accepted a while ago. -/
def Expired (trace : List (ℤ × Event)) (v term clock : ℤ) : Prop :=
  ∀ time, (v, Event.accepted term time) ∈ trace → time + leaseWindow ≤ clock

/-- The proposals of a step are as the server builds them. -/
def Action.Served : Action → Prop
  | .call _ (.propose proposals) _ => ∀ p ∈ proposals, p.Served
  | _ => True

/-- The commands proposed in a step touch user keys only, if they can be decoded. -/
def Action.Clean : Action → Prop
  | .call _ (.propose proposals) _ => ∀ p ∈ proposals, RaftKV.Clean p.command
  | _ => True

/-- The commands proposed in a step can be decoded. -/
def Action.Readable : Action → Prop
  | .call _ (.propose proposals) _ => ∀ p ∈ proposals, (decodeCommand p.command).isSome
  | _ => True

theorem Action.Served.clean {a : Action} (h : a.Served) : a.Clean := by
  cases a with
  | call v input env =>
    cases input with
    | propose proposals =>
      intro p hp c hc
      obtain ⟨c', hc', hvalid⟩ := h p hp
      exact Option.some.inj (hc.symm.trans hc') ▸ hvalid
    | _ => trivial
  | _ => trivial

theorem Action.Served.readable {a : Action} (h : a.Served) : a.Readable := by
  cases a with
  | call v input env =>
    cases input with
    | propose proposals =>
      intro p hp
      obtain ⟨c, hc, -⟩ := h p hp
      exact Option.isSome_iff_exists.mpr ⟨c, hc⟩
    | _ => trivial
  | _ => trivial

/-- An answer to `AppendEntries` reaches only the process that asked. -/
def AnswersInPlace (s : Cluster) : Action → Prop
  | .call v (.deliver ⟨_, _, incarnation, _, .appendEntriesResponse _⟩) _ =>
    incarnation = s.incarnation v
  | _ => True

/-- Lease reads stay off. -/
def Action.LeaseOff : Action → Prop
  | .call _ (.setLeaseReads enabled) _ => enabled = false
  | _ => True

/-- The clock at the start of a step. -/
def Action.clock : Action → Option ℤ
  | .call _ _ env => some env.clock
  | .restart _ _ env => some env.clock
  | .crash _ => none

/-- The node that acts in a step. -/
def Action.actor : Action → ℤ
  | .call v _ _ => v
  | .restart v _ _ => v
  | .crash v => v

/-- A node that takes this input forgets its leader. -/
def Input.Forgets (n : Node) : Input → Prop
  | .start => True
  | .deliver ⟨_, _, _, _, .requestVoteResponse m⟩ => n.currentTerm < m.term
  | .deliver ⟨_, _, _, _, .appendEntriesResponse m⟩ => n.currentTerm < m.term
  | .deliver ⟨_, _, _, _, .installSnapshotResponse m⟩ => n.currentTerm < m.term
  | _ => False

/-- A node forgets a leader only a while after it took entries of it. -/
def ForgetsLate (s : Cluster) : Action → Prop
  | .call v input env => ∀ p, s.up v = some p → input.Forgets p.node →
      Expired s.trace v p.node.currentTerm env.clock
  | _ => True

namespace Setting

variable (S : Setting)

/-- The conditions on a call of a process. -/
def Allows (s : Cluster) (v : ℤ) (n : Node) (clock : ℤ) : Input → Prop
  | .deliver ⟨_, _, _, _, .requestVoteResponse m⟩ =>
    S.synced → n.currentTerm < m.term → Expired s.trace v n.currentTerm clock
  | .deliver ⟨_, _, incarnation, _, .appendEntriesResponse m⟩ =>
    (S.linear → incarnation = s.incarnation v) ∧
      (S.synced → n.currentTerm < m.term → Expired s.trace v n.currentTerm clock)
  | .deliver ⟨_, _, _, _, .installSnapshotResponse m⟩ =>
    S.synced → n.currentTerm < m.term → Expired s.trace v n.currentTerm clock
  | .start => S.synced → Expired s.trace v n.currentTerm clock
  | .propose proposals => ∀ p ∈ proposals, S.Proper p
  | .setLeaseReads enabled => enabled = true → S.leased
  | _ => True

/-- The conditions on a step at a time. -/
def Permits (s : Cluster) (time : ℤ) : Action → Prop
  | .call v input env => (S.synced → time ≤ env.clock) ∧
      ∀ p, s.up v = some p → S.Allows s v p.node env.clock input
  | .restart _ _ env => S.synced → time ≤ env.clock
  | .crash _ => True

/-- The conditions on a run from a state at a time. -/
def Permitted (s : Cluster) (time : ℤ) : List Action → Prop
  | [] => True
  | a :: as => S.Permits s time a ∧
      Permitted (RaftKV.step S.toMembership s a) (timeAfter S.toMembership s time a) as

end Setting

/-! ## The relation between steps -/

/-- The world of a cluster at a time. -/
def Cluster.world (s : Cluster) (Γ : Ghost) (time : ℤ) : World :=
  ⟨Γ, s.net, s.trace, time⟩

namespace Setting

/-- The relation between a cluster and the protocol. -/
structure ClusterOK (S : Setting) (s : Cluster) (Γ : Ghost) (time : ℤ) : Prop where
  shared : S.Shared (s.world Γ time)
  fresh : ∀ v inc, s.incarnation v < inc → Γ.alloc v inc = 0
  disk : ∀ v, S.DiskOK Γ.hist v (s.disk v).log (s.disk v).sm
  progress : ∀ v, appliedUpTo v s.trace = some (s.disk v).sm.lastApplied
  member : ∀ v p, s.up v = some p → v ∈ S.members
  loose : ∀ v p, s.up v = some p → S.LooseOK (s.world Γ time) v p.node (s.disk v).log
    (s.disk v).sm p.exec (s.incarnation v)
  idle : ∀ v p, s.up v = some p → p.node.role ≠ .leader → Idle p.node

variable {S : Setting} {v : ℤ} {W : World} {Γ Γ' : Ghost} {s : Cluster} {time : ℤ} {c c' : Context}

theorem LooseOK.reclock {n : Node} {log : AbstractLog} {sm : Store} {exec : Executor} {inc : ℕ}
    (h : S.LooseOK W v n log sm exec inc) {t : ℤ} (hle : S.synced → W.clock ≤ t) :
    S.LooseOK (W.tick t) v n log sm exec inc where
  core := h.core
  rpc := h.rpc
  lead hr := { h.lead hr with }
  proposals := h.proposals
  reads hr := { h.reads hr with }
  promise hy hrun := (h.promise hy hrun).mono (World.Grows.tick (v := v) (hle hy)) fun _ _ he => he

namespace ClusterOK

theorem inv (h : S.ClusterOK s Γ time) : Consensus.Inv S.members S.Good Γ.hist :=
  h.shared.inv

theorem reclock (h : S.ClusterOK s Γ time) {t : ℤ} (hle : S.synced → time ≤ t) :
    S.ClusterOK s Γ t :=
  { h with
    shared := h.shared.tick hle
    loose := fun v p hp => (h.loose v p hp).reclock hle }

/-- Node `v` has run a method, and its process is `q` afterwards. -/
theorem update (h : S.ClusterOK s Γ c.env.clock) (hnet : c.net = s.net)
    (htrace : c.trace = s.trace) (hinc : c.incarnation = s.incarnation v)
    (hext : Extends v Γ c Γ' c') (hsafe : S.Safe v Γ' c') {q : Option Process}
    (hloose : ∀ p, q = some p → S.LooseOK (c'.world Γ') v p.node c'.log c'.sm p.exec c'.incarnation)
    (hidle : ∀ p, q = some p → p.node.role ≠ .leader → Idle p.node) :
    S.ClusterOK ((s.store v c').setUp v q) Γ' c'.env.clock := by
  have hw : s.world Γ c.env.clock = c.world Γ := by rw [Cluster.world, Context.world, hnet, htrace]
  have hg : (s.world Γ c.env.clock).Grows v (c'.world Γ') := hw ▸ hext.grows
  have hinv := h.shared.inv
  have hother : ∀ w, w ≠ v → ((s.store v c').setUp v q).disk w = s.disk w := fun w hne =>
    Function.update_of_ne hne ..
  have hself : ((s.store v c').setUp v q).disk v = ⟨c'.log, c'.sm⟩ := Function.update_self ..
  have hup : ∀ w p, w ≠ v → ((s.store v c').setUp v q).up w = some p → s.up w = some p :=
    fun w p hne hp => (Function.update_of_ne hne ..).symm.trans hp
  have hup' : ∀ p, ((s.store v c').setUp v q).up v = some p → q = some p :=
    fun p hp => by simpa [Cluster.setUp] using hp
  refine
    { shared := hsafe.shared
      fresh := fun w inc hlt => ?_
      disk := fun w => ?_
      progress := fun w => ?_
      member := fun w p hp => ?_
      loose := fun w p hp => ?_
      idle := fun w p hp => ?_ }
  · by_cases hne : w = v
    · subst hne
      exact hsafe.fresh inc (by rw [hext.incarnation, hinc]; exact hlt)
    · exact (congrFun (hg.alloc_other w hne) inc).trans (h.fresh w inc hlt)
  · by_cases hne : w = v
    · rw [hne, hself]
      exact hsafe.disk
    · rw [hother w hne]
      exact DiskOK.mono hg (hg.frames hne 0) hinv (h.disk w)
  · by_cases hne : w = v
    · rw [hne, hself]
      exact hsafe.progress
    rw [hother w hne, ← h.progress w]
    obtain ⟨new, hnew, hall⟩ := hg.trace
    change appliedUpTo w c'.trace = _
    rw [show c'.trace = s.trace ++ new from hnew]
    exact appliedUpTo_append_other hne hall _
  · by_cases hne : w = v
    · exact hne ▸ hsafe.member
    · exact h.member w p (hup w p hne hp)
  · by_cases hne : w = v
    · subst hne
      rw [hself]
      have := hloose p (hup' p hp)
      rw [hext.incarnation, hinc] at this
      exact this
    · rw [hother w hne]
      exact (h.loose w p (hup w p hne hp)).mono hg (hg.frames hne p.node.commitIndex) hinv rfl
  · by_cases hne : w = v
    · exact hidle p (hup' p (hne ▸ hp))
    · exact h.idle w p (hup w p hne hp)

theorem finish (h : S.ClusterOK s Γ c.env.clock) (hnet : c.net = s.net)
    (htrace : c.trace = s.trace) (hinc : c.incarnation = s.incarnation v) {m : RaftM Unit}
    (hm : (S.logic v).gwp m (fun _ Γ' c' => S.Steady v Γ' c') Γ c) :
    ∃ Γ', S.ClusterOK (s.finish v (m c)) Γ' (endContext (m c)).env.clock ∧
      (s.world Γ c.env.clock).Grows v
        ((s.finish v (m c)).world Γ' (endContext (m c)).env.clock) := by
  have hw : s.world Γ c.env.clock = c.world Γ := by rw [Cluster.world, Context.world, hnet, htrace]
  rw [gwp, wp] at hm
  cases hrun : m c with
  | ok a c' =>
    rw [hrun] at hm
    obtain ⟨Γ', hext, hs⟩ := hm
    refine ⟨Γ', h.update hnet htrace hinc hext hs.toSafe (q := some ⟨c'.node, c'.exec⟩) ?_ ?_, ?_⟩
    · rintro p ⟨⟩
      exact hs.loose
    · rintro p ⟨⟩
      exact hs.idle
    · rw [hw]
      exact hext.grows
  | error e c' =>
    rw [hrun] at hm
    obtain ⟨Γ', hext, hsafe, htext⟩ := hm
    cases e with
    | crash =>
      refine ⟨Γ', h.update hnet htrace hinc hext hsafe (q := none) ?_ ?_, ?_⟩
      · exact fun p hp => by cases hp
      · exact fun p hp => by cases hp
      · rw [hw]
        exact hext.grows
    | failure text =>
      have hsafe' : S.Safe v Γ' { c' with trace := c'.trace ++ [(v, .failed text)] } :=
        hsafe.observe (htext text rfl) (fun _ _ heq => by cases heq) rfl
      have hext' : Extends v Γ c Γ' { c' with trace := c'.trace ++ [(v, .failed text)] } :=
        ⟨hext.grows.trans (World.Grows.observe _), hext.incarnation, hext.replyTo⟩
      refine ⟨Γ', h.update hnet htrace hinc hext' hsafe' (q := none) ?_ ?_, ?_⟩
      · exact fun p hp => by cases hp
      · exact fun p hp => by cases hp
      · rw [hw]
        exact hext'.grows

end ClusterOK

/-! ## One step -/

/-- A node whose acceptances of its current term are old has no promise to keep. -/
theorem Steady.freed (h : S.Steady v Γ c) (hy : S.synced)
    (hold : Expired c.trace v c.node.currentTerm c.env.clock) : Freed (c.world Γ) v := by
  intro term time he
  rcases (h.shared.lease hy).promise v term time he with hle | hs | hm | hterm
  · exact .inl hle
  · exact .inr (.inl hs)
  · exact .inr (.inr hm)
  · refine .inl (hold time ?_)
    rw [h.core.term, show Γ.hist.term v = term from hterm]
    exact he

theorem handleMessage_spec (h : S.Steady v Γ c) {e : Envelope} (hmem : e ∈ c.net)
    (hdst : e.dst = v) (hreply : c.replyTo = e.incarnation) (htrace : c.trace = s.trace)
    (hinc : c.incarnation = s.incarnation v)
    (hallow : S.Allows s v c.node c.env.clock (.deliver e)) :
    (S.logic v).gwp (handleMessage e.src e.message) (fun _ Γ' c' => S.Steady v Γ' c') Γ c := by
  have hm := (h.shared.msgs e hmem).2
  have hhandling : Handling v e.src e.message c := ⟨e, hmem, rfl, hdst, hreply.symm, rfl⟩
  have hfree : ∀ {t : ℤ}, (S.synced → c.node.currentTerm < t →
      Expired s.trace v c.node.currentTerm c.env.clock) →
      S.synced → c.node.currentTerm < t → Freed (c.world Γ) v :=
    fun hold hy hlt => h.freed hy (htrace ▸ hold hy hlt)
  obtain ⟨src, dst, inc, sentAt, message⟩ := e
  subst hdst
  cases message with
  | requestVote m => exact handleRequestVote_spec h hm
  | requestVoteResponse m => exact handleRequestVoteResponse_spec h hm (hfree hallow)
  | appendEntries m => exact handleAppendEntries_spec h hhandling
  | appendEntriesResponse m =>
    exact handleAppendEntriesResponse_spec h hm (fun hl => (hallow.1 hl).trans hinc.symm)
      (hfree hallow.2)
  | installSnapshot m => exact handleInstallSnapshot_spec h hhandling
  | installSnapshotResponse m => exact handleInstallSnapshotResponse_spec h hm (hfree hallow)

theorem input_spec (h : S.Steady v Γ c) {input : Input} (henabled : input.Enabled s v)
    (hnet : c.net = s.net) (htrace : c.trace = s.trace) (hinc : c.incarnation = s.incarnation v)
    (hreply : c.replyTo = input.replyTo) (hallow : S.Allows s v c.node c.env.clock input) :
    (S.logic v).gwp input.run (fun _ Γ' c' => S.Steady v Γ' c') Γ c := by
  cases input with
  | deliver e =>
    exact handleMessage_spec h (hnet ▸ henabled.1) henabled.2 hreply htrace hinc hallow
  | tick => exact tick_spec h
  | start => exact start_spec h fun hy => h.freed hy (htrace ▸ hallow hy)
  | stop => exact stop_spec h
  | propose ps => exact gwp_seq (proposeBatch_spec h ps hallow) fun _ _ _ _ h₁ => gwp_pure h₁.1
  | readIndex onOk onFail =>
    exact (requestReadIndex_keeps onOk onFail).seq h fun _ _ _ _ h₁ _ => gwp_pure h₁
  | work => exact gwp_mono (runWorker_spec h) fun _ _ _ _ h₁ => h₁.1
  | completion => exact gwp_mono (runCompletion_spec h) fun _ _ _ _ h₁ => h₁.1
  | setSnapshotThreshold entries => exact setSnapshotThreshold_spec h entries
  | setSnapshotChunkBytes bytes => exact setSnapshotChunkBytes_spec h bytes
  | setLeaseReads enabled => exact setLeaseReads_spec h hallow

namespace ClusterOK

theorem safe (h : S.ClusterOK s Γ time) (hv : v ∈ S.members) {p : Process} (hid : p.node.nodeId = v)
    (replyTo : ℕ) {env : Env} (htime : env.clock = time) :
    S.Safe v Γ (s.context v p replyTo env) where
  member := hv
  id := hid
  shared := by
    subst htime
    exact h.shared
  disk := h.disk v
  progress := h.progress v
  fresh := h.fresh v

theorem steady (h : S.ClusterOK s Γ time) {p : Process} (hp : s.up v = some p) (replyTo : ℕ)
    {env : Env} (htime : env.clock = time) : S.Steady v Γ (s.context v p replyTo env) :=
  { h.safe (h.member v p hp) (h.loose v p hp).core.id replyTo htime with
    loose := by
      subst htime
      exact h.loose v p hp
    idle := h.idle v p hp }

theorem step (h : S.ClusterOK s Γ time) {a : Action} (ha : S.Permits s time a) :
    (∃ Γ', S.ClusterOK (RaftKV.step S.toMembership s a) Γ' (timeAfter S.toMembership s time a)) ∧
    ∃ new, (RaftKV.step S.toMembership s a).trace = s.trace ++ new ∧ ∀ x ∈ new, x.1 = a.actor := by
  have hnone : ∃ new, s.trace = s.trace ++ new ∧ ∀ x ∈ new, x.1 = a.actor :=
    ⟨[], (List.append_nil _).symm, fun x hx => by cases hx⟩
  cases a with
  | call v input env =>
    rcases hp : s.up v with _ | p
    · simp only [RaftKV.step, timeAfter, hp]
      exact ⟨⟨Γ, h⟩, hnone⟩
    simp only [RaftKV.step, timeAfter, hp]
    split_ifs with hin
    swap
    · exact ⟨⟨Γ, h⟩, hnone⟩
    have h₁ := h.reclock ha.1
    obtain ⟨Γ', h₂, hg⟩ := finish (c := s.context v p input.replyTo env) h₁ rfl rfl rfl
      (input_spec (h₁.steady hp input.replyTo rfl) hin rfl rfl rfl rfl (ha.2 p hp))
    exact ⟨⟨Γ', h₂⟩, hg.trace⟩
  | restart v async env =>
    simp only [RaftKV.step, timeAfter]
    split_ifs with hin
    swap
    · exact ⟨⟨Γ, h⟩, hnone⟩
    have h₁ := h.reclock (t := env.clock) ha
    have hdown : s.up v = none := Option.isNone_iff_eq_none.mp hin.2
    -- the new incarnation has given out no ids
    have h₂ : S.ClusterOK { s with
        incarnation := Function.update s.incarnation v (s.incarnation v + 1) } Γ env.clock :=
      { h₁ with
        fresh := fun w inc hlt => by
          refine h.fresh w inc (lt_of_le_of_lt ?_ hlt)
          change s.incarnation w ≤ Function.update s.incarnation v (s.incarnation v + 1) w
          by_cases hw : w = v
          · rw [hw, Function.update_self]
            exact Nat.le_succ _
          · rw [Function.update_of_ne hw]
        loose := fun w p hp => by
          have hw : w ≠ v := by
            rintro rfl
            rw [show s.up w = some p from hp] at hdown
            cases hdown
          have hinc : Function.update s.incarnation v (s.incarnation v + 1) w = s.incarnation w :=
            Function.update_of_ne hw ..
          have hloose := h₁.loose w p hp
          rw [← hinc] at hloose
          exact hloose }
    have hrpc : Γ.alloc v (s.incarnation v + 1) = 0 := h.fresh v _ (Nat.lt_succ_self _)
    obtain ⟨Γ', h₃, hg⟩ := finish (v := v) h₂ rfl rfl rfl
      (construct_spec
        (h₂.safe (p := ⟨S.boot v async, {}⟩) (List.mem_toFinset.mpr hin.1) rfl 0 rfl) async rfl rfl
        ((congrArg (Γ.alloc v) (Function.update_self ..)).trans hrpc))
    exact ⟨⟨Γ', h₃⟩, hg.trace⟩
  | crash v =>
    refine ⟨⟨Γ, { h with
      member := fun w p hp => ?_
      loose := fun w p hp => ?_
      idle := fun w p hp => ?_ }⟩, hnone⟩
    all_goals
      have hp' : s.up w = some p := by
        by_cases hw : w = v
        · simp [RaftKV.step, Cluster.setUp, hw] at hp
        · simpa [RaftKV.step, Cluster.setUp, hw] using hp
    · exact h.member w p hp'
    · exact h.loose w p hp'
    · exact h.idle w p hp'

theorem init (S : Setting) (time : ℤ) :
    S.ClusterOK {} ⟨Consensus.State.init, fun _ _ => 0, fun _ _ _ _ => 0⟩ time where
  shared :=
    { reach := .init
      term_nonneg := fun _ => le_rfl
      term_le := fun _ => show (0 : ℤ) ≤ int32Max by decide
      floor_le := fun _ _ _ _ => le_rfl
      msgs := fun _ he => by cases he
      routes := fun _ he => by cases he
      events := fun _ _ _ he => by simp [Cluster.world] at he
      lease := fun _ =>
        { promise := fun _ _ _ he => by cases he
          elected := fun term ⟨t, _, ht⟩ => by cases ht
          accepted_le := fun _ _ _ he => by cases he
          sent_le := fun _ he => by cases he } }
  fresh _ _ _ := rfl
  disk _ :=
    { hard := .inr ⟨rfl, rfl⟩
      marked := marked_storeOf (P := []) (fun _ he => by cases he) (by decide)
      applied := ⟨0, rfl, le_rfl, .inl rfl, fun _ => rfl⟩
      body := .inl ⟨rfl, LogRep.empty, le_rfl, Nat.zero_le _,
        fun _ hpos => absurd (show (0 : ℤ) < 0 from hpos) (lt_irrefl _)⟩ }
  progress _ := rfl
  member _ _ hp := by cases hp
  loose _ _ hp := by cases hp
  idle _ _ hp := by cases hp

end ClusterOK

/-! ## Runs -/

theorem ClusterOK.foldl (h : S.ClusterOK s Γ time) {actions : List Action}
    (ha : S.Permitted s time actions) :
    ∃ Γ' time', S.ClusterOK (actions.foldl (RaftKV.step S.toMembership) s) Γ' time' := by
  induction actions generalizing s Γ time with
  | nil => exact ⟨Γ, time, h⟩
  | cons a as ih =>
    obtain ⟨Γ₁, h₁⟩ := (h.step ha.1).1
    exact ih h₁ ha.2

/-- **Every run keeps the relation.** -/
theorem clusterOK_run {time : ℤ} {actions : List Action} (h : S.Permitted {} time actions) :
    ∃ Γ time', S.ClusterOK (run S.toMembership actions) Γ time' :=
  (ClusterOK.init S time).foldl h

theorem permits_intro {a : Action} (hclean : S.clean → a.Clean)
    (hreadable : S.readable → a.Readable)
    (hlinear : S.linear → AnswersInPlace s a)
    (hclock : S.synced → ∀ clock, a.clock = some clock → time ≤ clock)
    (hkeep : S.synced → ForgetsLate s a) (hlease : a.LeaseOff ∨ S.leased) : S.Permits s time a := by
  cases a with
  | call v input env =>
    refine ⟨fun hy => hclock hy _ rfl, fun p hp => ?_⟩
    cases input with
    | deliver e =>
      obtain ⟨src, dst, inc, sentAt, message⟩ := e
      cases message with
      | appendEntriesResponse m => exact ⟨hlinear, fun hy hlt => hkeep hy p hp hlt⟩
      | requestVoteResponse m => exact fun hy hlt => hkeep hy p hp hlt
      | installSnapshotResponse m => exact fun hy hlt => hkeep hy p hp hlt
      | requestVote m => trivial
      | appendEntries m => trivial
      | installSnapshot m => trivial
    | start => exact fun hy => hkeep hy p hp trivial
    | propose ps => exact fun p hp => ⟨fun hy => hclean hy p hp, fun hy => hreadable hy p hp⟩
    | setLeaseReads enabled =>
      intro hon
      refine hlease.resolve_left fun hoff => ?_
      rw [show enabled = false from hoff] at hon
      cases hon
    | tick => trivial
    | stop => trivial
    | readIndex onOk onFail => trivial
    | work => trivial
    | completion => trivial
    | setSnapshotThreshold entries => trivial
    | setSnapshotChunkBytes bytes => trivial
  | restart v async env => exact fun hy => hclock hy _ rfl
  | crash v => trivial

/-- The setting of a run, with no more conditions than it meets. -/
def plain (M : Membership) (actions : List Action) : Setting :=
  { M with
    clean := ∀ a ∈ actions, a.Clean
    readable := ∀ a ∈ actions, a.Readable
    linear := False
    synced := False
    leased := True }

/-- Every run is permitted in its plain setting. -/
theorem permitted_plain (M : Membership) (s : Cluster) (time : ℤ) {actions as : List Action}
    (h : as ⊆ actions) : (plain M actions).Permitted s time as := by
  induction as generalizing s time with
  | nil => trivial
  | cons a as ih =>
    obtain ⟨ha, has⟩ := List.cons_subset.mp h
    exact ⟨permits_intro (fun hs => hs a ha) (fun hs => hs a ha) False.elim False.elim False.elim
      (.inr trivial), ih _ _ has⟩

/-- The relation holds after every run, without what depends on the order of messages and on
clocks. -/
theorem exists_clusterOK (M : Membership) (actions : List Action) :
    ∃ Γ time, (plain M actions).ClusterOK (run M actions) Γ time :=
  clusterOK_run (S := plain M actions) (permitted_plain M {} 0 (List.Subset.refl actions))

theorem served_plain {M : Membership} {actions : List Action} (h : ∀ a ∈ actions, a.Served) :
    (plain M actions).served :=
  ⟨fun a ha => (h a ha).clean, fun a ha => (h a ha).readable⟩

end Setting

end RaftKV
