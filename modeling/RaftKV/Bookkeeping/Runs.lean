import RaftKV.Bookkeeping.Methods
import RaftKV.Refinement.Runs

/-!
# The books after every run

`Tallied` is what the trace says of every node, and what every process holds. A step keeps it :
the node that acts keeps its books (`input_live`, `construct_books`), and the others see only
events of that node, which neither open nor close a call of theirs. What a method needs to know
of the protocol comes from the relation with `Consensus` : the log goes as far as the state
machine, and a leader gets no snapshot of its own term.
-/

namespace RaftKV

open RaftM GhostLogic Accounts
open Setting (Idle plain)

variable {M : Membership} {off : Prop} {s : Cluster} {v w : ℤ}

/-! ## Events of other nodes -/

section Foreign

variable {t new : List (ℤ × Event)} {l : List ℕ}

/-- Events of other nodes leave the calls of a node alone. -/
theorem open_foreign {opens : Event → Bool} {closes : Event → Option ℕ}
    (hl : Open (callsOf v opens closes) t l) (hnew : ∀ x ∈ new, x.1 ≠ v) :
    Open (callsOf v opens closes) (t ++ new) l := by
  induction new generalizing t with
  | nil => simpa using hl
  | cons x new ih =>
    have hx : x.1 ≠ v := hnew x List.mem_cons_self
    rw [← List.singleton_append, ← List.append_assoc]
    refine ih (hl.skip ?_ ?_ ?_) fun y hy => hnew y (List.mem_cons_of_mem _ hy) <;>
      simp [callsOf, hx]

theorem Sound.foreign (hs : Sound M v t) (hnew : ∀ x ∈ new, x.1 ≠ v) : Sound M v (t ++ new) := by
  obtain ⟨l, hl⟩ := hs.proposals
  obtain ⟨r, hr⟩ := hs.reads
  refine ⟨⟨l, open_foreign hl hnew⟩, ⟨r, open_foreign hr hnew⟩, fun j e he => ?_⟩
  rcases lt_or_ge j t.length with hlt | hge
  · rw [List.getElem?_append_left hlt] at he
    rw [List.take_append_of_le_length hlt.le]
    exact hs.justified j e he
  · rw [List.getElem?_append_right hge] at he
    exact absurd rfl (hnew _ (List.mem_of_getElem? he))

theorem Live.foreign {c : Context} (hl : Live M v off c) (hnew : ∀ x ∈ new, x.1 ≠ v) :
    Live M v off { c with trace := c.trace ++ new } :=
  ⟨hl.kept.extend (List.prefix_append _ _) (hl.kept.sound.foreign hnew)
    (open_foreign hl.kept.proposals hnew) (open_foreign hl.kept.reads hnew), hl.caught, hl.backed⟩

end Foreign

/-! ## Steps -/

/-- The books of all nodes. -/
structure Tallied (M : Membership) (off : Prop) (s : Cluster) : Prop where
  sound : ∀ v, Sound M v s.trace
  live : ∀ v p, s.up v = some p → ∀ replyTo env, Live M v off (s.context v p replyTo env)

/-- The parts of a context that the books do not see. -/
theorem Live.context {c c' : Context} (hl : Live M v off c) (hn : c'.node = c.node)
    (he : c'.exec = c.exec) (ht : c'.trace = c.trace) : Live M v off c' := by
  refine hl.still (hl.kept.congr ?_) ?_
  · rw [bookView, bookView, hn, he, ht]
  · rw [applyView, applyView, hn, he]

/-- The end of a method that keeps the books of the node that acts. -/
theorem Tallied.finish (h : Tallied M off s) {c : Context} {m : RaftM Unit}
    (hm : (books M v).gwp m (fun _ _ c' => Live M v off c') () c)
    (hnew : ∃ new, (s.finish v (m c)).trace = s.trace ++ new ∧ ∀ x ∈ new, x.1 = v) :
    Tallied M off (s.finish v (m c)) := by
  obtain ⟨new, hnew, hown⟩ := hnew
  have hforeign : ∀ w, w ≠ v → ∀ x ∈ new, x.1 ≠ w := fun w hne x hx hxw =>
    hne (hxw.symm.trans (hown x hx))
  -- the other nodes see only foreign events
  have hothers : ∀ q : Option Process, ∀ c' : Context, c'.trace = s.trace ++ new →
      (∀ p, q = some p → ∀ replyTo env, Live M v off { c' with
        node := p.node, exec := p.exec, replyTo := replyTo, env := env }) → Sound M v c'.trace →
      Tallied M off ((s.store v c').setUp v q) := by
    intro q c' ht hq hs
    refine ⟨fun w => ?_, fun w p hp replyTo env => ?_⟩
    · by_cases hw : w = v
      · exact hw ▸ hs
      · change Sound M w c'.trace
        rw [ht]
        exact (h.sound w).foreign (hforeign w hw)
    by_cases hw : w = v
    · subst hw
      have hp' : q = some p := by simpa [Cluster.setUp] using hp
      exact (hq p hp' replyTo env).context rfl rfl rfl
    · have hp' : s.up w = some p := (Function.update_of_ne hw ..).symm.trans hp
      exact ((h.live w p hp' replyTo env).foreign (hforeign w hw)).context rfl rfl ht
  rw [gwp, wp] at hm
  cases hrun : m c with
  | ok a c' =>
    rw [hrun] at hm hnew
    obtain ⟨_, _, hl⟩ := hm
    refine hothers _ c' hnew (fun p hp replyTo env => ?_) hl.kept.sound
    cases hp
    exact hl.context rfl rfl rfl
  | error e c' =>
    rw [hrun] at hm hnew
    obtain ⟨_, _, hs⟩ := hm
    cases e with
    | crash => exact hothers none c' hnew (fun p hp => by cases hp) hs
    | failure text =>
      have hs' : Sound M v (c'.trace ++ [(v, .failed text)]) := Sound.bare hs rfl
      exact hothers none { c' with trace := c'.trace ++ [(v, .failed text)] } hnew
        (fun p hp => by cases hp) hs'

variable {S : Setting} {time : ℤ} {Γ : Ghost}

/-- The log of a process goes at least as far as its state machine. -/
theorem Setting.ClusterOK.applied_le_lastIndex {p : Process}
    (h : S.ClusterOK s Γ time) (hp : s.up v = some p) :
    p.node.lastApplied ≤ (s.disk v).log.lastIndex := by
  obtain ⟨a, k, ha, _, hak, hk, _⟩ := (h.loose v p hp).core.progress
  have hlast := (h.loose v p hp).core.settled.rep.lastIndex_eq
  rw [hlast, ha]
  exact_mod_cast hak.trans hk

/-- A leader gets no snapshot of its own term. -/
theorem Setting.ClusterOK.spared {p : Process} {input : Input}
    (h : S.ClusterOK s Γ time) (hp : s.up v = some p) (hin : input.Enabled s v) :
    Spared p.node input := by
  cases input with
  | deliver e =>
    intro m hm _ hterm
    refine h.idle v p hp fun hrole => ?_
    have hmsg := (h.shared.msgs e hin.1).2
    rw [hm] at hmsg
    have hcore := (h.loose v p hp).core
    have hlead := hcore.leader hrole
    rw [← hcore.term, ← hterm] at hlead
    have hsrc : e.src = v := Option.some.inj (hmsg.1.1.symm.trans hlead)
    exact (h.shared.routes e hin.1).2.2 (hsrc.trans hin.2.symm)
  | tick => trivial
  | start => trivial
  | stop => trivial
  | propose ps => trivial
  | readIndex onOk onFail => trivial
  | work => trivial
  | completion => trivial
  | setSnapshotThreshold entries => trivial
  | setSnapshotChunkBytes bytes => trivial
  | setLeaseReads enabled => trivial

theorem Tallied.step (h : Tallied S.toMembership off s)
    (hok : S.ClusterOK s Γ time) {a : Action} (ha : S.Permits s time a)
    (hoff : off → a.LeaseOff) : Tallied S.toMembership off (RaftKV.step S.toMembership s a) := by
  have hnew := (hok.step ha).2
  cases a with
  | call v input env =>
    rcases hp : s.up v with _ | p
    · simp only [RaftKV.step, hp]
      exact h
    simp only [RaftKV.step, hp] at hnew ⊢
    split_ifs at hnew ⊢ with hin
    · have hv : v ∈ S.peers := List.mem_toFinset.mp (hok.member v p hp)
      refine h.finish (input_live hv input ⟨h.live v p hp _ _, hok.applied_le_lastIndex hp⟩
        (hok.spared hp hin) fun ho enabled hin => ?_) hnew
      subst hin
      exact hoff ho
    · exact h
  | restart v async env =>
    simp only [RaftKV.step] at hnew ⊢
    split_ifs at hnew ⊢ with hin
    · have h₁ : Tallied S.toMembership off { s with
          incarnation := Function.update s.incarnation v (s.incarnation v + 1) } :=
        ⟨h.sound, fun w p hp replyTo env => (h.live w p hp replyTo env).context rfl rfl rfl⟩
      exact h₁.finish (construct_books (h.sound v) async rfl rfl) hnew
    · exact h
  | crash v =>
    refine ⟨h.sound, fun w p hp replyTo env => ?_⟩
    have hp' : s.up w = some p := by
      by_cases hw : w = v
      · simp [RaftKV.step, Cluster.setUp, hw] at hp
      · simpa [RaftKV.step, Cluster.setUp, hw] using hp
    exact (h.live w p hp' replyTo env).context rfl rfl rfl

/-! ## Runs -/

theorem Tallied.init (M : Membership) (off : Prop) : Tallied M off {} where
  sound _ := ⟨⟨[], Open.nil⟩, ⟨[], Open.nil⟩, fun j e he => by cases he⟩
  live _ _ hp := by cases hp

theorem Tallied.foldl (h : Tallied S.toMembership off s)
    (hok : S.ClusterOK s Γ time) {actions : List Action} (ha : S.Permitted s time actions)
    (hoff : off → ∀ a ∈ actions, a.LeaseOff) :
    ∃ Γ' time', S.ClusterOK (actions.foldl (RaftKV.step S.toMembership) s) Γ' time' ∧
      Tallied S.toMembership off (actions.foldl (RaftKV.step S.toMembership) s) := by
  induction actions generalizing s Γ time with
  | nil => exact ⟨Γ, time, hok, h⟩
  | cons a as ih =>
    obtain ⟨Γ₁, hok₁⟩ := (hok.step ha.1).1
    have h₁ := h.step hok ha.1 fun ho => hoff ho a List.mem_cons_self
    exact ih h₁ hok₁ ha.2 fun ho b hb => hoff ho b (List.mem_cons_of_mem a hb)

/-- **Every run keeps the books**, and under `off` also what needs lease reads switched off. -/
theorem tallied_run (M : Membership) {actions : List Action}
    (hoff : off → ∀ a ∈ actions, a.LeaseOff) :
    ∃ Γ time, (plain M actions).ClusterOK (run M actions) Γ time ∧
      Tallied M off (run M actions) :=
  (Tallied.init M off).foldl (Setting.ClusterOK.init _ 0)
    (Setting.permitted_plain M {} 0 (List.Subset.refl actions)) hoff

end RaftKV
