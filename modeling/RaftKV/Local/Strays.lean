import RaftKV.Local.Coherence

/-!
# Runs with messages that nobody sent

A cluster as in `step`, except that any message may be handed to a node, whether or not a node
has sent it, as long as its fields are values of their types. All processes that are up
are coherent in every such run, and the databases of the others hold logs that `RaftLog`
keeps (`Hosts`), so that the constructor gives a coherent process again.

`local_state_iff` : the orderings between the snapshot, what is applied, what is committed and
the end of the log hold in every such run, every input moves them only forward, and the log
reopens as what is in memory exactly as long as it has not reached the largest index.
-/

namespace RaftKV.Local

open RaftM

/-! ## Runs -/

/-- The cluster with the message of a step on its network. -/
def withMessage (s : Cluster) : Action → Cluster
  | .call _ (.deliver e) _ => { s with net := s.net ++ [e] }
  | _ => s

/-- One step, whose message need not have been sent. -/
def strayStep (M : Membership) (s : Cluster) (a : Action) : Cluster :=
  step M (withMessage s a) a

/-- The state after some steps with messages that need not have been sent. -/
def strayRun (M : Membership) (actions : List Action) : Cluster :=
  actions.foldl (strayStep M) {}

theorem strayRun_concat (M : Membership) (actions : List Action) (a : Action) :
    strayRun M (actions ++ [a]) = strayStep M (strayRun M actions) a := by
  rw [strayRun, List.foldl_append]
  rfl

/-- The message of a step, if it has one, is typed. -/
def TypedAction : Action → Prop
  | .call _ input _ => TypedInput input
  | _ => True

theorem withMessage_disk (s : Cluster) (a : Action) : (withMessage s a).disk = s.disk := by
  rcases a with ⟨_, input, _⟩ | _ | _
  · cases input <;> rfl
  · rfl
  · rfl

theorem withMessage_up (s : Cluster) (a : Action) : (withMessage s a).up = s.up := by
  rcases a with ⟨_, input, _⟩ | _ | _
  · cases input <;> rfl
  · rfl
  · rfl

/-! ## Processes and databases -/

/-- The core of a process on its databases. -/
def coreAt (d : Disk) (p : Process) : Core :=
  core
    { node := p.node, log := d.log, sm := d.sm, exec := p.exec, net := [], trace := [],
      incarnation := 0, replyTo := 0, env := { clock := 0 } }

/-- Every process is coherent, and every database holds a log that `RaftLog` keeps. -/
structure Hosts (codec : EntryCodec) (s : Cluster) : Prop where
  disk : ∀ v, Logged codec (s.disk v).log
  coherent : ∀ v p, s.up v = some p → Coherent codec (coreAt (s.disk v) p)
  caught : ∀ v p, s.up v = some p → (coreAt (s.disk v) p).Caught
  requests : ∀ v p, s.up v = some p → Requests p.node

section Hosts

variable {codec : EntryCodec} {s : Cluster} {v : ℤ} {c : Context}

theorem Hosts.empty (codec : EntryCodec) : Hosts codec {} :=
  ⟨fun _ => Logged.empty codec, fun _ _ h => (nomatch h), fun _ _ h => (nomatch h),
    fun _ _ h => (nomatch h)⟩

theorem Hosts.down (h : Hosts codec s) (v : ℤ) : Hosts codec (s.setUp v none) := by
  have hup : ∀ w p, (s.setUp v none).up w = some p → s.up w = some p := by
    intro w p hp
    change Function.update s.up v none w = some p at hp
    by_cases hw : w = v
    · rw [hw, Function.update_self] at hp
      cases hp
    · rwa [Function.update_of_ne hw] at hp
  exact ⟨h.disk, fun w p hp => h.coherent w p (hup w p hp),
    fun w p hp => h.caught w p (hup w p hp), fun w p hp => h.requests w p (hup w p hp)⟩

theorem Hosts.disk_update (h : Hosts codec s) {d : Disk} (hd : Logged codec d.log) (w : ℤ) :
    Logged codec (Function.update s.disk v d w).log := by
  by_cases hw : w = v
  · rw [hw, Function.update_self]
    exact hd
  · rw [Function.update_of_ne hw]
    exact h.disk w

/-- An exception or a crash leaves the databases of a node. -/
theorem Hosts.stored (h : Hosts codec s) (hl : Logged codec c.log) :
    Hosts codec ((s.store v c).setUp v none) := by
  refine ⟨h.disk_update hl, ?_, ?_, ?_⟩
  all_goals
    intro w p hp
    change Function.update s.up v none w = some p at hp
    by_cases hw : w = v
    · rw [hw, Function.update_self] at hp
      cases hp
    rw [Function.update_of_ne hw] at hp
  · rw [show ((s.store v c).setUp v none).disk w = s.disk w from Function.update_of_ne hw _ _]
    exact h.coherent w p hp
  · rw [show ((s.store v c).setUp v none).disk w = s.disk w from Function.update_of_ne hw _ _]
    exact h.caught w p hp
  · exact h.requests w p hp

theorem Hosts.returned (h : Hosts codec s) (hr : Requests c.node) (hc : Coherent codec (core c))
    (hcaught : (core c).Caught) : Hosts codec ((s.store v c).setUp v (some ⟨c.node, c.exec⟩)) := by
  have hd : ∀ w, w ≠ v →
      ((s.store v c).setUp v (some ⟨c.node, c.exec⟩)).disk w = s.disk w :=
    fun w hw => Function.update_of_ne hw _ _
  have hself : ((s.store v c).setUp v (some ⟨c.node, c.exec⟩)).disk v = ⟨c.log, c.sm⟩ :=
    Function.update_self _ _ _
  refine ⟨h.disk_update hc.logged, ?_, ?_, ?_⟩
  all_goals
    intro w p hp
    change Function.update s.up v (some ⟨c.node, c.exec⟩) w = some p at hp
    by_cases hw : w = v
  · rw [hw, Function.update_self] at hp
    obtain rfl := Option.some.inj hp
    rw [hw, hself]
    exact { hc with }
  · rw [Function.update_of_ne hw] at hp
    rw [hd w hw]
    exact h.coherent w p hp
  · rw [hw, Function.update_self] at hp
    obtain rfl := Option.some.inj hp
    rw [hw, hself]
    exact hcaught
  · rw [Function.update_of_ne hw] at hp
    rw [hd w hw]
    exact h.caught w p hp
  · rw [hw, Function.update_self] at hp
    obtain rfl := Option.some.inj hp
    exact hr
  · rw [Function.update_of_ne hw] at hp
    exact h.requests w p hp

/-- The end of a method, however it ends. -/
theorem Hosts.finish (h : Hosts codec s) {m : RaftM Unit}
    (hm : Does m c (fun _ y => Coherent codec y ∧ y.Caught) (Logged codec)) :
    Hosts codec (s.finish v (m c)) := by
  rw [Does, wp] at hm
  cases hres : m c with
  | ok a c' =>
    rw [hres] at hm
    exact h.returned hm.1 hm.2.2.1 hm.2.2.2
  | error e c' =>
    rw [hres] at hm
    cases e with
    | crash => exact h.stored hm.2
    | failure text => exact h.stored hm.2

end Hosts

/-! ## The constructor -/

section Constructor

variable {codec : EntryCodec} {c : Context}

/-- A node before its constructor has read the databases. -/
structure Fresh (x : Core) : Prop where
  exec : x.exec = {}
  role : x.role = .follower
  ids : ∀ id ∈ x.nodeId :: x.allPeers, 0 ≤ id ∧ id ≤ int32Max

theorem Fresh.within {x : Core} (h : Fresh x) (commit : ℤ) : Executor.Within x.exec commit := by
  rw [h.exec]
  exact ⟨fun _ hj => (nomatch hj), fun _ hk => (nomatch hk)⟩

theorem Fresh.passive {x : Core} (h : Fresh x) : ¬(x.role = .candidate ∨ x.role = .leader) := by
  rw [h.role]
  decide

/-- What the constructor reads from the databases; everything else is as it was. -/
def Core.Recovers (x y : Core) : Prop :=
  y.commitIndex = y.lastApplied ∧ y = { x with
    log := y.log
    sm := y.sm
    currentTerm := y.currentTerm
    votedFor := y.votedFor
    commitIndex := y.commitIndex
    lastApplied := y.lastApplied }

theorem checkRecovered_does {term votedFor : ℤ} (hr : Requests c.node) (hl : Logged codec c.log)
    (hhard : c.log.hardState.getD (0, -1) = (term, votedFor)) (hfresh : Fresh (core c)) :
    Does (checkRecovered term votedFor) c
      (fun _ y => Coherent codec y ∧ y.Caught ∧ (core c).Recovers y) (Logged codec) := by
  rw [checkRecovered]
  refine Does.get ?_
  by_cases hbad : c.sm.lastApplied < c.log.snapshot.index ∨ c.log.lastIndex < c.sm.lastApplied ∨
      term < c.log.lastTerm
  · rw [if_pos hbad]
    exact Does.fail hr hl
  rw [if_neg hbad]
  split_ifs
  · exact Does.fail hr hl
  push Not at hbad
  exact Does.modifyNode_last hr ⟨⟨hl, hhard, hbad.2.2, hbad.1, le_rfl, hbad.2.1, hfresh.within _,
    fun hrole => absurd hrole hfresh.passive, hfresh.ids⟩, fun _ _ => le_rfl, rfl, rfl⟩

theorem installSnapshot_hardState {s : Snapshot} {a b : AbstractLog}
    (h : a.installSnapshot s = .ok b) : b.hardState = a.hardState := by
  rw [AbstractLog.installSnapshot] at h
  split_ifs at h
  · rw [Except.ok.inj h]
  rw [AbstractLog.persistSnapshot] at h
  split_ifs at h
  · rw [← Except.ok.inj h]
  · rw [← Except.ok.inj h]

section

variable (hr : Requests c.node) (hl : Logged codec c.log)
include hr hl

theorem recoverInstall_does {term votedFor : ℤ}
    (hhard : c.log.hardState.getD (0, -1) = (term, votedFor)) :
    Does (recoverInstall term) c (fun _ y => Logged codec y.log ∧
      y.log.hardState = c.log.hardState ∧ y = { core c with log := y.log, sm := y.sm })
      (Logged codec) := by
  rw [recoverInstall]
  refine Does.getLog ?_
  cases hpending : c.log.loadPendingSnapshot with
  | error text => exact Does.fail hr hl
  | ok pending =>
    cases pending with
    | none => exact Does.pure hr ⟨hl, rfl, rfl⟩
    | some s =>
      dsimp only
      split_ifs with hterm
      · exact Does.fail hr hl
      -- the intent is well formed, and its term shows that there is a hard state
      have hintent : c.log.intent = some s := by
        rw [AbstractLog.loadPendingSnapshot] at hpending
        cases hi : c.log.intent with
        | none =>
          rw [hi] at hpending
          cases hpending
        | some s' =>
          rw [hi] at hpending
          dsimp only at hpending
          split_ifs at hpending
          exact congrArg some (Option.some.inj (Except.ok.inj hpending))
      obtain ⟨hok, -⟩ := hl.wf.intent s hintent
      have hsaved : c.log.hardState.isSome = true := by
        cases hs : c.log.hardState with
        | none =>
          rw [hs] at hhard
          have := (Prod.mk.inj hhard).1
          have := hok.term_pos
          omega
        | some _ => rfl
      have hcall : ∀ log, c.log.installSnapshot s = .ok log → Logged codec log := fun log hlog =>
        hl.call (c := .installSnapshot s) ⟨hsaved, hok.index_le, hok.term_le⟩ hlog
      refine Does.bind (S := fun _ y => y = { core c with sm := y.sm }) ?_
        fun _ c₁ hr₁ _ hx₁ => ?_
      · rw [installStore]
        cases parseSnapshot s.data with
        | error text => exact Does.fail hr hl
        | ok entries =>
          refine Does.get ?_
          cases c.sm.replaceBatch s.index entries with
          | error text => exact Does.fail hr hl
          | ok batch => exact wp_crashPoint (fun _ => ⟨hr, hl⟩) fun after =>
              ⟨hr, .crashing after, rfl⟩
      · have hlog₁ : c₁.log = c.log := congrArg Core.log hx₁
        refine Does.writeLog_last hr₁ (hlog₁ ▸ hl) fun log hlog => ?_
        rw [hlog₁] at hlog
        refine ⟨hcall log hlog, installSnapshot_hardState hlog, ?_⟩
        rw [hx₁]

theorem openStore_does :
    Does openStore c (fun _ y => y = { core c with sm := y.sm }) (Logged codec) := by
  rw [openStore]
  refine Does.get ?_
  cases Store.construct c.sm.db with
  | error text => exact Does.fail hr hl
  | ok sm => exact ⟨hr, ⟨.refl _, .inl rfl⟩, rfl⟩

/-- **The constructor gives a coherent process**, or throws. -/
theorem construct_does (hfresh : Fresh (core c)) :
    Does construct c (fun _ y => Coherent codec y ∧ y.Caught ∧ (core c).Recovers y)
      (Logged codec) := by
  rw [construct]
  refine Does.observe (Does.bind (openStore_does (by exact hr) (by exact hl))
    fun _ c₁ hr₁ _ hx₁ => Does.getNode ?_)
  have hx₁ : core c₁ = { core c with sm := c₁.sm } := hx₁
  have hl₁ : Logged codec c₁.log := by
    rw [show c₁.log = c.log from congrArg Core.log hx₁]
    exact hl
  have hfresh₁ : Fresh (core c₁) := by
    rw [hx₁]
    exact { hfresh with }
  cases validatePeers c₁.node.nodeId c₁.node.allPeers with
  | error text => exact Does.fail hr₁ hl₁
  | ok u =>
    dsimp only
    refine Does.bind (S := fun _ y => y = core c₁) ?_ fun _ c₂ hr₂ _ hx₂ => ?_
    · rw [openLog]
      refine Does.getLog ?_
      split_ifs
      · exact Does.fail hr₁ hl₁
      · exact Does.pure hr₁ rfl
    have hl₂ := Does.of_core hx₂ hl₁
    have hfresh₂ : Fresh (core c₂) := hx₂ ▸ hfresh₁
    rw [recover]
    refine Does.getLog ?_
    cases hload : c₂.log.loadHardState with
    | error text => exact Does.fail hr₂ hl₂
    | ok hard =>
      have hhard : c₂.log.hardState = hard := by
        rw [AbstractLog.loadHardState] at hload
        cases hs : c₂.log.hardState with
        | none =>
          rw [hs] at hload
          dsimp only at hload
          split_ifs at hload
          exact Except.ok.inj hload
        | some h =>
          rw [hs] at hload
          exact Except.ok.inj hload
      dsimp only
      split_ifs
      · exact Does.fail hr₂ hl₂
      have hpair : c₂.log.hardState.getD (0, -1) =
          ((hard.getD (0, -1)).1, (hard.getD (0, -1)).2) := by rw [hhard]
      refine (recoverInstall_does hr₂ hl₂ hpair).bind fun _ c₃ hr₃ _ ⟨hl₃, hhard₃, hx₃⟩ => ?_
      refine (checkRecovered_does hr₃ hl₃ ?_ ?_).mono (fun _ y hy => ⟨hy.1, hy.2.1, ?_⟩)
        fun _ h => h
      · have hhard₃ : c₃.log.hardState = c₂.log.hardState := hhard₃
        rw [hhard₃, hhard]
      · rw [hx₃]
        exact { hfresh₂ with }
      · have hy := hy.2.2
        rw [hx₃, hx₂, hx₁] at hy
        exact hy

end

end Constructor

/-! ## Steps -/

section Steps

variable {codec : EntryCodec} {M : Membership} {s : Cluster} {v : ℤ} {p p' : Process}
  {input : Input}

/-- A process is as coherent inside a call as between two. -/
theorem Hosts.coherent_context (h : Hosts codec s) (hup : s.up v = some p) (replyTo : ℕ)
    (env : Env) : Coherent codec (core (s.context v p replyTo env)) :=
  { h.coherent v p hup with }

theorem Hosts.input_does (h : Hosts codec s) (hcodec : Covers codec) (hup : s.up v = some p)
    (ht : TypedInput input) (replyTo : ℕ) (env : Env) : Does input.run (s.context v p replyTo env)
      (fun _ y => Becomes codec (coreAt (s.disk v) p).view y ∧ y.Caught) (Logged codec) := by
  have hc := h.coherent_context hup replyTo env
  refine (Local.input_does input (h.requests v p hup) hc.logged.wf.snapshot_index_nonneg hc.logged
    (Coherent.closed_logged codec) (hc.tears hcodec ht)).mono (fun _ y hy => ?_) fun _ h => h
  exact hc.steps hcodec (h.caught v p hup) ht hy

theorem fresh_boot (hids : ∀ p ∈ M.peers, p ≤ int32Max) (hv : v ∈ M.peers) (s : Cluster)
    (async : Bool) (replyTo : ℕ) (env : Env) :
    Fresh (core (s.context v ⟨M.boot v async, {}⟩ replyTo env)) := by
  refine ⟨rfl, rfl, fun id hid => ?_⟩
  have hmem : id ∈ M.peers := by
    rcases List.mem_cons.mp hid with rfl | hid
    · exact hv
    · exact hid
  exact ⟨M.nonneg id hmem, hids id hmem⟩

theorem Hosts.step (h : Hosts codec s) (hcodec : Covers codec)
    (hids : ∀ p ∈ M.peers, p ≤ int32Max) {a : Action} (ht : TypedAction a) :
    Hosts codec (step M s a) := by
  cases a with
  | call v input env =>
    rw [RaftKV.step]
    cases hup : s.up v with
    | none => exact h
    | some p =>
      dsimp only
      split_ifs
      · exact h.finish ((h.input_does hcodec hup ht _ env).mono
          (fun _ y hy => ⟨hy.1.coherent, hy.2⟩) fun _ h => h)
      · exact h
  | restart v async env =>
    rw [RaftKV.step]
    split_ifs with hstart
    · have hs : Hosts codec { s with
          incarnation := Function.update s.incarnation v (s.incarnation v + 1) } := { h with }
      refine hs.finish (Does.mono (construct_does ?_ (h.disk v)
        (fresh_boot hids hstart.1 _ async 0 env)) (fun _ y hy => ⟨hy.1, hy.2.1⟩) fun _ h => h)
      exact fun u m hm => (nomatch hm)
    · exact h
  | crash v => exact h.down v

theorem Hosts.withMessage (h : Hosts codec s) (a : Action) : Hosts codec (withMessage s a) := by
  rcases a with ⟨_, input, _⟩ | _ | _
  · cases input with
    | deliver e => exact { h with }
    | _ => exact h
  · exact h
  · exact h

/-- **Every process is coherent in every run**, whatever messages it is handed. -/
theorem hosts_strayRun (hcodec : Covers codec) (hids : ∀ p ∈ M.peers, p ≤ int32Max)
    {actions : List Action} (ht : ∀ a ∈ actions, TypedAction a) :
    Hosts codec (strayRun M actions) := by
  induction actions using List.reverseRecOn with
  | nil => exact Hosts.empty codec
  | append_singleton actions a ih =>
    rw [strayRun_concat]
    have h := ih fun b hb => ht b (List.mem_append_left _ hb)
    exact (h.withMessage a).step hcodec hids (ht a (by simp))

/-! ## One node of a run -/

/-- How a node comes to have the process `p'` after a step : nothing is done to it, a method of its
process returns, or its process starts. -/
inductive Lives (M : Membership) (s : Cluster) (v : ℤ) (d : Disk) (p' : Process) : Action → Prop
  | same {a : Action} (hup : s.up v = some p') (hd : d = s.disk v)
      (hidle : ∀ input env, a = .call v input env → ¬input.Enabled (withMessage s a) v) :
      Lives M s v d p' a
  | call {p : Process} {input : Input} {env : Env} {c c' : Context} (hup : s.up v = some p)
      (henabled : input.Enabled (withMessage s (.call v input env)) v)
      (hc : c = (withMessage s (.call v input env)).context v p input.replyTo env)
      (hret : input.run c = .ok () c') (hp : p' = ⟨c'.node, c'.exec⟩) (hd : d = ⟨c'.log, c'.sm⟩) :
      Lives M s v d p' (.call v input env)
  | restart {async : Bool} {env : Env} {c c' : Context} (hv : v ∈ M.peers) (hdown : s.up v = none)
      (hnode : c.node = M.boot v async) (hexec : c.exec = {}) (hlog : c.log = (s.disk v).log)
      (hret : construct c = .ok () c') (hp : p' = ⟨c'.node, c'.exec⟩)
      (hd : d = ⟨c'.log, c'.sm⟩) : Lives M s v d p' (.restart v async env)

theorem finish_cases {w : ℤ} {res : EStateM.Result Halt Context Unit}
    (hup' : (s.finish w res).up v = some p') :
    (w ≠ v ∧ s.up v = some p' ∧ (s.finish w res).disk v = s.disk v) ∨
      w = v ∧ ∃ c', res = .ok () c' ∧ p' = ⟨c'.node, c'.exec⟩ ∧
        (s.finish w res).disk v = ⟨c'.log, c'.sm⟩ := by
  have hup : (s.finish w res).up = Function.update s.up w (match res with
      | .ok _ c => some ⟨c.node, c.exec⟩
      | .error _ _ => none) := by
    rcases res with ⟨_, c⟩ | ⟨e, c⟩
    · rfl
    · cases e <;> rfl
  by_cases hw : v = w
  swap
  · have hdisk : (s.finish w res).disk v = s.disk v := by
      rcases res with ⟨_, c⟩ | ⟨e, c⟩
      · exact Function.update_of_ne hw _ _
      · cases e <;> exact Function.update_of_ne hw _ _
    rw [hup, Function.update_of_ne hw] at hup'
    exact .inl ⟨Ne.symm hw, hup', hdisk⟩
  subst hw
  rw [hup, Function.update_self] at hup'
  rcases res with ⟨_, c⟩ | ⟨e, c⟩
  · exact .inr ⟨rfl, c, rfl, (Option.some.inj hup').symm, Function.update_self _ _ _⟩
  · cases hup'

/-- **The process of a node after a step.** -/
theorem strayStep_lives {a : Action} (hup' : (strayStep M s a).up v = some p') :
    Lives M s v ((strayStep M s a).disk v) p' a := by
  have hsame : (withMessage s a).up v = some p' →
      (∀ input env, a = .call v input env → ¬input.Enabled (withMessage s a) v) →
      Lives M s v ((withMessage s a).disk v) p' a := by
    rw [withMessage_up, withMessage_disk]
    exact fun h hidle => .same h rfl hidle
  rw [strayStep] at hup' ⊢
  cases a with
  | call w input env =>
    rw [RaftKV.step] at hup' ⊢
    cases hw : (withMessage s (.call w input env)).up w with
    | none =>
      rw [hw] at hup'
      refine hsame hup' fun _ _ ha => ?_
      obtain rfl := (Action.call.inj ha).1
      cases hw.symm.trans hup'
    | some p =>
      rw [hw] at hup'
      dsimp only at hup' ⊢
      split_ifs at hup' ⊢ with henabled
      · rcases finish_cases hup' with ⟨hne, hup, hd⟩ | ⟨rfl, c', hret, hp, hd⟩
        · rw [hd]
          exact hsame hup fun _ _ ha => absurd (Action.call.inj ha).1 hne
        · rw [withMessage_up] at hw
          rw [hd]
          exact .call hw henabled rfl hret hp rfl
      · refine hsame hup' fun _ _ ha => ?_
        obtain ⟨rfl, rfl, rfl⟩ := Action.call.inj ha
        exact henabled
  | restart w async env =>
    rw [RaftKV.step] at hup' ⊢
    split_ifs at hup' ⊢ with hstart
    · rcases finish_cases hup' with ⟨-, hup, hd⟩ | ⟨rfl, c', hret, hp, hd⟩
      · rw [hd]
        exact .same hup rfl fun _ _ ha => (nomatch ha)
      · rw [hd]
        exact .restart hstart.1 (Option.isNone_iff_eq_none.mp hstart.2) rfl rfl rfl hret hp rfl
    · exact hsame hup' fun _ _ ha => (nomatch ha)
  | crash w =>
    by_cases hw : v = w
    · subst hw
      rw [RaftKV.step, show (withMessage s (.crash v)).setUp v none = s.setUp v none from rfl,
        show (s.setUp v none).up v = none from Function.update_self _ _ _] at hup'
      cases hup'
    · change Function.update s.up w none v = some p' at hup'
      rw [Function.update_of_ne hw] at hup'
      exact .same hup' rfl fun _ _ ha => (nomatch ha)

theorem Hosts.steps (h : Hosts codec s) (hup : s.up v = some p) {replyTo : ℕ} {env : Env}
    {c c' : Context} {a : Action} (hc : c = (Local.withMessage s a).context v p replyTo env)
    (hret : input.run c = .ok () c') :
    Passed c c' ∧ (core c).Steps (reading env) (env.sends = []) input (core c') := by
  have hdisk : c.log = (s.disk v).log := by
    rw [hc]
    exact congrArg (fun d => (d v).log) (withMessage_disk s a)
  have h0 : 0 ≤ c.log.snapshot.index := by
    rw [hdisk]
    exact (h.disk v).wf.snapshot_index_nonneg
  have hr : Requests c.node := by
    rw [hc]
    exact h.requests v p hup
  have henv : c.env = env := by rw [hc]; rfl
  obtain ⟨-, hpassed, hsteps⟩ := steps_of_ok _ hr h0 hret
  rw [henv] at hsteps
  exact ⟨hpassed, hsteps⟩

theorem Hosts.recovers (h : Hosts codec s) (hids : ∀ p ∈ M.peers, p ≤ int32Max) (hv : v ∈ M.peers)
    {async : Bool} {c c' : Context} (hnode : c.node = M.boot v async) (hexec : c.exec = {})
    (hlog : c.log = (s.disk v).log) (hret : construct c = .ok () c') :
    (core c).Recovers (core c') := by
  have hr : Requests c.node := by
    rw [hnode]
    exact fun u m hm => (nomatch hm)
  have hl : Logged codec c.log := by
    rw [hlog]
    exact h.disk v
  have hfresh : Fresh (core c) := by
    refine ⟨hexec, congrArg Node.role hnode, fun id hid => ?_⟩
    change id ∈ c.node.nodeId :: c.node.allPeers at hid
    rw [hnode] at hid
    exact (fresh_boot hids hv s async 0 { clock := 0 }).ids id hid
  obtain ⟨-, -, -, -, hrec⟩ := wp_of_ok (construct_does hr hl hfresh) hret
  exact hrec

/-- The fields of a process that outlive a handler, with its log. -/
def viewAt (d : Disk) (p : Process) : View where
  log := d.log
  currentTerm := p.node.currentTerm
  votedFor := p.node.votedFor
  commitIndex := p.node.commitIndex
  lastApplied := p.node.lastApplied

/-- A handler that returns moves its process only forward. -/
theorem Hosts.grows (h : Hosts codec s) (hcodec : Covers codec) (hup : s.up v = some p)
    (ht : TypedInput input) {env : Env}
    (hup' : (RaftKV.step M s (.call v input env)).up v = some p') :
    (viewAt (s.disk v) p).Grows (viewAt ((RaftKV.step M s (.call v input env)).disk v) p') := by
  have hdoes := h.input_does hcodec hup ht input.replyTo env
  rw [RaftKV.step, hup] at hup' ⊢
  dsimp only at hup' ⊢
  split_ifs at hup' ⊢
  · rw [Does, wp] at hdoes
    cases hres : input.run (s.context v p input.replyTo env) with
    | ok u c =>
      rw [hres] at hup' hdoes
      rw [Cluster.finish]
      change Function.update s.up v (some ⟨c.node, c.exec⟩) v = some p' at hup'
      rw [Function.update_self] at hup'
      obtain rfl := Option.some.inj hup'
      rw [show ((s.store v c).setUp v (some ⟨c.node, c.exec⟩)).disk v = ⟨c.log, c.sm⟩ from
        Function.update_self _ _ _]
      exact hdoes.2.2.1.grows
    | error e c =>
      rw [hres] at hup'
      have hnone : (s.finish v (.error e c)).up v = none := by
        cases e <;> exact Function.update_self _ _ _
      rw [hnone] at hup'
      cases hup'
  · obtain rfl := Option.some.inj (hup.symm.trans hup')
    exact .refl _

end Steps

/-! ## The local state -/

/-- The orders between the parts of a node. -/
structure View.Ordered (w : View) : Prop where
  snapshot : w.log.snapshot.index ≤ w.lastApplied
  applied : w.lastApplied ≤ w.commitIndex
  commit : w.commitIndex ≤ w.log.lastIndex
  terms : (w.log.snapshot.term :: w.log.entries.map LogEntry.term).IsChain (· ≤ ·)
  last : w.log.lastTerm ≤ w.currentTerm

/-- The Raft log `s` has the bounds and the snapshot of `w` in memory, the hard state it loads is
the term and the vote of `w`, and it reopens as it is. -/
structure View.Stored (codec : EntryCodec) (w : View) (s : RaftLog) : Prop where
  lastIndex : s.lastIndex = w.log.lastIndex
  lastTerm : s.lastTerm = w.log.lastTerm
  snapshot : s.snapshot = w.log.snapshot
  hard : ∃ hard, s.loadHardState = .ok hard ∧ hard.getD (0, -1) = (w.currentTerm, w.votedFor)
  reopen : RaftLog.construct codec true s.db = .ok s

theorem Coherent.ordered {codec : EntryCodec} {x : Core} (h : Coherent codec x) : x.view.Ordered :=
  ⟨h.snapshot, h.applied, h.commit, h.logged.wf.terms, h.last⟩

theorem Coherent.stored_iff {codec : EntryCodec} {x : Core} (h : Coherent codec x) {s : RaftLog}
    (hs : Reached codec s x.log) : x.view.Stored codec s ↔ x.log.lastIndex < int64Max := by
  obtain ⟨hrep, hw⟩ := hs.represents
  constructor
  · intro hstored
    by_contra hge
    have hover := hrep.construct_overflow hw (le_antisymm hw.last_le (not_lt.mp hge))
    rw [hstored.reopen] at hover
    cases hover
  · intro hlt
    exact ⟨hrep.lastIndex, hrep.lastTerm, hrep.snapshot,
      ⟨_, hrep.loadHardState_eq hw, h.hard⟩, hrep.construct_eq hw hlt⟩

/-- **A node keeps its local state in order, whatever its peers send it.** Its log reopens as what
is in memory exactly as long as it has not reached the largest index. -/
theorem local_state_iff (M : Membership) (hids : ∀ p ∈ M.peers, p ≤ int32Max) (codec : EntryCodec)
    (hcodec : Covers codec) (actions : List Action) (ht : ∀ a ∈ actions, TypedAction a) (v : ℤ)
    (p : Process) (hup : (strayRun M actions).up v = some p) :
    let s := strayRun M actions
    (viewAt (s.disk v) p).Ordered ∧
      (∃ raftLog, Reached codec raftLog (s.disk v).log) ∧
      (∀ raftLog, Reached codec raftLog (s.disk v).log →
        ((viewAt (s.disk v) p).Stored codec raftLog ↔ (s.disk v).log.lastIndex < int64Max)) ∧
      ∀ input env p', TypedInput input →
        (strayStep M s (.call v input env)).up v = some p' →
        (viewAt (s.disk v) p).Grows
          (viewAt ((strayStep M s (.call v input env)).disk v) p') := by
  intro s
  have h := hosts_strayRun hcodec hids ht
  have hc := h.coherent v p hup
  refine ⟨hc.ordered, hc.logged, fun raftLog hlog => hc.stored_iff hlog,
    fun input env p' hinput hup' => ?_⟩
  have hup₀ : (withMessage s (.call v input env)).up v = some p := by
    rw [withMessage_up]
    exact hup
  have hgrows := (h.withMessage (.call v input env)).grows hcodec hup₀ hinput hup'
  rw [withMessage_disk] at hgrows
  exact hgrows

/-! ## A snapshot at the largest index -/

theorem covers_flatCodec : Covers RaftLog.flatCodec := by
  intro e hindex hindex' hterm hterm' _
  rw [RaftLog.serializes, RaftLog.flatCodec]
  dsimp only
  rw [if_pos ⟨hindex.le, hindex', hterm.le, hterm'⟩]
  rfl

/-- Two nodes. -/
def duo : Membership := ⟨[1, 2], by decide, by decide⟩

/-- The method returns, with a context that passes a check. -/
def returned (m : RaftM Unit) (c : Context) (check : Context → Bool := fun _ => true) : Bool :=
  match m c with
  | .ok _ c' => check c'
  | .error _ _ => false

theorem exists_of_returned {m : RaftM Unit} {c : Context} {check : Context → Bool}
    (h : returned m c check = true) : ∃ c', m c = .ok () c' ∧ check c' = true := by
  unfold returned at h
  cases hm : m c with
  | ok a c' =>
    rw [hm] at h
    exact ⟨c', rfl, h⟩
  | error e c' =>
    rw [hm] at h
    cases h

/-- Node 1 of two is handed a snapshot at an index, of an empty state, that node 2 never sent. -/
def handed (index : ℤ) : List Action :=
  [.restart 1 false { clock := 0 }, .call 1 .start { clock := 0 },
    .call 1 (.deliver ⟨2, 1, 1, 0, .installSnapshot ⟨1, 2, index, 1, 0, [0, 0, 0, 0], true, 1⟩⟩)
      { clock := ms }]

theorem typed_handed {index : ℤ} (h : IsInt64 index) : ∀ a ∈ handed index, TypedAction a := by
  intro a ha
  simp only [handed, List.mem_cons, List.not_mem_nil, or_false] at ha
  rcases ha with rfl | rfl | rfl
  · trivial
  · trivial
  · exact ⟨(by decide : IsInt32 1), (by decide : IsInt32 2), h, (by decide : IsInt64 1),
      (by decide : IsInt64 0), (by decide : 1 < 2 ^ 64)⟩

/-- A snapshot at index 7 is installed, and the log reopens with it. -/
theorem local_state_iff_handed :
    ∃ p raftLog, (strayRun duo (handed 7)).up 1 = some p ∧
      (viewAt ((strayRun duo (handed 7)).disk 1) p).Ordered ∧
      Reached RaftLog.flatCodec raftLog ((strayRun duo (handed 7)).disk 1).log ∧
      (viewAt ((strayRun duo (handed 7)).disk 1) p).Stored RaftLog.flatCodec raftLog := by
  obtain ⟨p, hp⟩ := Option.isSome_iff_exists.mp
    (by decide +kernel : ((strayRun duo (handed 7)).up 1).isSome = true)
  obtain ⟨hordered, ⟨raftLog, hlog⟩, hiff, -⟩ := local_state_iff duo (by decide) RaftLog.flatCodec
    covers_flatCodec (handed 7) (typed_handed (by decide)) 1 p hp
  exact ⟨p, raftLog, hp, hordered, hlog, (hiff raftLog hlog).mpr (by decide +kernel)⟩

/-- The calls that node 1 makes when it is handed a snapshot at the largest index. -/
def largestCalls : List (AbstractLog.Call × Bool) :=
  [(.saveHardState 1 (-1), true), (.stageSnapshotInstall ⟨int64Max, 1, [0, 0, 0, 0]⟩, true),
    (.installSnapshot ⟨int64Max, 1, [0, 0, 0, 0]⟩, true)]

/-- Node 1 installs a snapshot at the largest index, and its log cannot be reopened. -/
theorem not_reopened_at_int64Max :
    (∀ a ∈ handed int64Max, TypedAction a) ∧
      ((strayRun duo (handed int64Max)).up 1).any (fun p => p.node.lastApplied = int64Max) = true ∧
      RaftLog.GuaranteedRun RaftLog.flatCodec {} largestCalls ∧
      largestCalls.foldl (RaftLog.abstractAfter RaftLog.flatCodec) {} =
        ((strayRun duo (handed int64Max)).disk 1).log ∧
      RaftLog.construct RaftLog.flatCodec true
          (largestCalls.foldl (RaftLog.after RaftLog.flatCodec) {}).db =
        .error "corrupt or non-contiguous Raft log" := by
  refine ⟨typed_handed (by decide), by decide +kernel, ?_, by decide +kernel, by decide +kernel⟩
  simp only [largestCalls, RaftLog.GuaranteedRun, AbstractLog.Call.Guaranteed]
  decide +kernel

end RaftKV.Local
