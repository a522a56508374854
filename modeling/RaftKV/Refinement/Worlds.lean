import RaftKV.Refinement.Growth

/-!
# Small changes of the world

What the primitives of a method do to the world, one at a time : the clock moves on, an event
is observed, a message is sent, an RPC id is given out, and the protocol takes a step. Each
change is growth, keeps the shared part of the relation, and says the same of the node itself.
-/

namespace RaftKV

open Consensus (lastTerm Decided IsQuorum)

namespace World

variable (W : World) (v : ℤ)

def tick (time : ℤ) : World :=
  { W with clock := time }

def observe (e : Event) : World :=
  { W with trace := W.trace ++ [(v, e)] }

def send (e : Envelope) : World :=
  { W with net := W.net ++ [e] }

end World

/-- One more RPC id is given out, under the present terms. -/
def Ghost.allocate (Γ : Ghost) (v : ℤ) (inc : ℕ) : Ghost where
  hist := Γ.hist
  alloc w i := if w = v ∧ i = inc then Γ.alloc w i + 1 else Γ.alloc w i
  floor w i k := if w = v ∧ i = inc ∧ k = Γ.alloc v inc + 1 then Γ.hist.term else Γ.floor w i k

/-- The protocol goes on. -/
def Ghost.setHist (Γ : Ghost) (h : History) : Ghost :=
  { Γ with hist := h }

namespace World

def allocate (W : World) (v : ℤ) (inc : ℕ) : World :=
  { W with ghost := W.ghost.allocate v inc }

def setHist (W : World) (h : History) : World :=
  { W with ghost := W.ghost.setHist h }

end World

/-! ## Growth -/

namespace World.Grows

variable {v : ℤ} {W : World}

theorem tick {time : ℤ} (h : W.clock ≤ time) : W.Grows v (W.tick time) :=
  { World.Grows.refl v W with clock_le := h }

theorem observe (e : Event) : W.Grows v (W.observe v e) :=
  { World.Grows.refl v W with trace := ⟨[(v, e)], rfl, by simp⟩ }

theorem send {e : Envelope} (h : e.src = v) : W.Grows v (W.send e) :=
  { World.Grows.refl v W with net := ⟨[e], rfl, by simpa using h⟩ }

theorem allocate (inc : ℕ) : W.Grows v (W.allocate v inc) :=
  { World.Grows.refl v W with
    alloc_le := fun w i => by
      simp only [World.allocate, Ghost.allocate]
      split_ifs <;> omega
    floor_eq := fun w i k hk => by
      simp only [World.allocate, Ghost.allocate]
      rw [if_neg]
      rintro ⟨rfl, rfl, rfl⟩
      omega
    alloc_other := fun w hw => by
      ext i
      simp [World.allocate, Ghost.allocate, hw] }

theorem setHist {h : History} (hle : Consensus.Le v W.hist h) : W.Grows v (W.setHist h) :=
  { World.Grows.refl v W with hist := hle }

end World.Grows

/-! ## The node itself -/

namespace World.Frames

variable {v commit : ℤ} {W : World}

theorem refl (v commit : ℤ) (W : World) : W.Frames v commit W where
  term := rfl
  log := rfl
  ballot := rfl
  leader h := h
  alloc := rfl
  requests _ he _ := .inl he
  accepted _ _ h := h
  acknowledged _ _ _ _ h := .inl h

theorem tick (time : ℤ) : W.Frames v commit (W.tick time) :=
  { World.Frames.refl v commit W with }

theorem observe {e : Event} (hacc : ∀ term time, e ≠ .accepted term time)
    (hack : ∀ origin index command reply,
      e = .proposal origin index command (W.hist.term v) true reply →
      index ≤ commit) : W.Frames v commit (W.observe v e) :=
  { World.Frames.refl v commit W with
    accepted := fun term time h => by
      rcases List.mem_append.mp h with h | h
      · exact h
      · exact absurd (Prod.mk.inj (List.mem_singleton.mp h)).2.symm (hacc term time)
    acknowledged := fun origin index command reply h => by
      rcases List.mem_append.mp h with h | h
      · exact .inl h
      · exact .inr
          (hack origin index command reply (Prod.mk.inj (List.mem_singleton.mp h)).2.symm) }

theorem send {e : Envelope} (hid : ∀ k, Setting.requestId e.message ≠ some (W.hist.term v, k)) :
    W.Frames v commit (W.send e) :=
  { World.Frames.refl v commit W with
    requests := fun e' h _ => by
      rcases List.mem_append.mp h with h | h
      · exact .inl h
      · rw [List.mem_singleton.mp h]
        exact .inr hid }

end World.Frames

namespace Setting

variable {S : Setting} {v : ℤ} {W : World}

/-! ## Progress -/

theorem appliedUpTo_append_own (v : ℤ) (trace : List (ℤ × Event)) (e : Event) :
    appliedUpTo v (trace ++ [(v, e)]) = (appliedUpTo v trace).bind fun p => progress p e := by
  simp only [appliedUpTo, List.filter_append, List.foldlM_append]
  cases (List.filter (fun x => decide (x.1 = v)) trace).foldlM (fun p x => progress p x.2) 0 with
  | none => rfl
  | some p => simp

theorem appliedUpTo_append_other {w : ℤ} {new : List (ℤ × Event)} (hw : w ≠ v)
    (hnew : ∀ x ∈ new, x.1 = v) (trace : List (ℤ × Event)) :
    appliedUpTo w (trace ++ new) = appliedUpTo w trace := by
  have hnil : new.filter (fun x => decide (x.1 = w)) = [] := by
    rw [List.filter_eq_nil_iff]
    intro x hx
    simpa [hnew x hx] using hw.symm
  rw [appliedUpTo, List.filter_append, hnil, List.append_nil, appliedUpTo]

/-! ## Leases -/

/-- Node `v` has no promise to keep. -/
def Freed (W : World) (v : ℤ) : Prop :=
  ∀ term time, (v, Event.accepted term time) ∈ W.trace →
    time + leaseWindow ≤ W.clock ∨ Succeeded W.hist term ∨ Moved W.hist term

theorem LeaseOK.tick (h : S.LeaseOK W) {time : ℤ} (hle : W.clock ≤ time) :
    S.LeaseOK (W.tick time) where
  promise u term t he := (h.promise u term t he).imp_left fun h => h.trans hle
  elected term hs := by
    refine (h.elected term hs).imp_right fun ⟨q, hq, hu⟩ => ⟨q, hq, fun u hu' => ?_⟩
    exact ⟨(hu u hu').1, fun t he => ((hu u hu').2 t he).trans hle⟩
  accepted_le u term t he := (h.accepted_le u term t he).trans hle
  sent_le e he := (h.sent_le e he).trans hle

/-- An acceptance is of the node's own term and not in the future. -/
theorem LeaseOK.observe (h : S.LeaseOK W) {e : Event}
    (hacc : ∀ term time, e = .accepted term time → W.hist.term v = term ∧ time ≤ W.clock) :
    S.LeaseOK (W.observe v e) := by
  have cases : ∀ {u term time}, (u, Event.accepted term time) ∈ (W.observe v e).trace →
      (u, Event.accepted term time) ∈ W.trace ∨
        u = v ∧ W.hist.term v = term ∧ time ≤ W.clock := by
    intro u term time he
    rcases List.mem_append.mp he with he | he
    · exact .inl he
    · obtain ⟨rfl, hnew⟩ := Prod.mk.inj (List.mem_singleton.mp he)
      exact .inr ⟨rfl, hacc term time hnew.symm⟩
  refine ⟨fun u term t he => ?_, fun term hs => ?_, fun u term t he => ?_, h.sent_le⟩
  · rcases cases he with he | ⟨rfl, ht, -⟩
    · exact h.promise u term t he
    · exact .inr (.inr (.inr ht))
  · refine (h.elected term hs).imp_right fun ⟨q, hq, hu⟩ => ⟨q, hq, fun u hu' => ?_⟩
    refine ⟨(hu u hu').1, fun t he => ?_⟩
    rcases cases he with he | ⟨rfl, ht, -⟩
    · exact (hu u hu').2 t he
    · exact absurd ht (hu u hu').1.ne'
  · rcases cases he with he | ⟨-, -, hle⟩
    · exact h.accepted_le u term t he
    · exact hle

theorem LeaseOK.send (h : S.LeaseOK W) {e : Envelope} (hle : e.sentAt ≤ W.clock) :
    S.LeaseOK (W.send e) :=
  { h with
    sent_le := fun e' he => by
      rcases List.mem_append.mp he with he | he
      · exact h.sent_le e' he
      · rwa [List.mem_singleton.mp he] }

theorem LeaseOK.setHist_of_eq (h : S.LeaseOK W) {h' : History} (hterm : h'.term = W.hist.term)
    (hleader : h'.leader = W.hist.leader) : S.LeaseOK (W.setHist h') := by
  have hs : ∀ term, Succeeded h' term ↔ Succeeded W.hist term := by
    intro term
    simp only [Succeeded, hleader]
  have hm : ∀ term, Moved h' term ↔ Moved W.hist term := by
    intro term
    simp only [Moved, hleader, hterm]
  refine ⟨fun u term t he => ?_, fun term hsucc => ?_, h.accepted_le, h.sent_le⟩
  · simp only [World.setHist, World.hist, Ghost.setHist, hs, hm, hterm]
    exact h.promise u term t he
  · simp only [World.setHist, World.hist, Ghost.setHist, hm, hterm]
    exact h.elected term ((hs term).mp hsucc)

/-- A node without a promise enters a later term. -/
theorem LeaseOK.raise (h : S.LeaseOK W) {h' : History} (hle : Consensus.Le v W.hist h')
    (hleader : h'.leader = W.hist.leader) (hfree : Freed W v) : S.LeaseOK (W.setHist h') := by
  have hg : W.Grows v (W.setHist h') := World.Grows.setHist hle
  refine ⟨fun u term t he => ?_, fun term hsucc => ?_, h.accepted_le, h.sent_le⟩
  · by_cases hu : u = v
    · subst hu
      rcases hfree term t he with h₁ | h₁ | h₁
      · exact .inl h₁
      · exact .inr (.inl (Succeeded.mono hg h₁))
      · exact .inr (.inr (.inl (Moved.mono hg h₁)))
    rcases h.promise u term t he with h₁ | h₁ | h₁ | h₁
    · exact .inl h₁
    · exact .inr (.inl (Succeeded.mono hg h₁))
    · exact .inr (.inr (.inl (Moved.mono hg h₁)))
    · exact .inr (.inr (.inr ((hle.other hu).1.trans h₁)))
  · have hold : Succeeded W.hist term := by
      obtain ⟨t, ht, hl⟩ := hsucc
      exact ⟨t, ht, hleader ▸ hl⟩
    refine (h.elected term hold).imp (Moved.mono hg) fun ⟨q, hq, hu⟩ => ⟨q, hq, fun u hu' => ?_⟩
    exact ⟨(hu u hu').1.trans_le (hle.term_le u), (hu u hu').2⟩

/-- The voters of a new leader had no promise of an earlier term left. -/
theorem LeaseOK.crown (h : S.LeaseOK W) (hinv : Consensus.Inv S.members S.Good W.hist)
    {q : Finset ℤ} (hnone : W.hist.leader (W.hist.term v) = none) (hq : IsQuorum S.members q)
    (hvotes : ∀ w ∈ q, W.hist.ballot w (W.hist.term v) = some v) :
    S.LeaseOK (W.setHist (W.hist.crown v (W.hist.term v))) := by
  have hg : W.Grows v (W.setHist (W.hist.crown v (W.hist.term v))) :=
    World.Grows.setHist (hinv.le_crown hnone)
  refine ⟨fun u term t he => ?_, fun term hsucc => ?_, h.accepted_le, h.sent_le⟩
  · rcases h.promise u term t he with h₁ | h₁ | h₁ | h₁
    · exact .inl h₁
    · exact .inr (.inl (Succeeded.mono hg h₁))
    · exact .inr (.inr (.inl (Moved.mono hg h₁)))
    · exact .inr (.inr (.inr h₁))
  by_cases hold : Succeeded W.hist term
  · exact (h.elected term hold).imp (Moved.mono hg) id
  by_cases hmoved : Moved W.hist term
  · exact .inl (Moved.mono hg hmoved)
  -- the leader that is new is the one of the term of `v`
  have hlt : term < W.hist.term v := by
    obtain ⟨t, ht, hl⟩ := hsucc
    by_cases heq : t = W.hist.term v
    · exact heq ▸ ht
    · refine absurd ⟨t, ht, ?_⟩ hold
      simpa [World.setHist, World.hist, Ghost.setHist, Consensus.State.crown,
        Function.update_of_ne heq] using hl
  refine .inr ⟨q, hq, fun u hu => ?_⟩
  have hterm : term < W.hist.term u := hlt.trans_le (hinv.ballot_bound (hvotes u hu)).2
  refine ⟨hterm, fun t he => ?_⟩
  rcases h.promise u term t he with h₁ | h₁ | h₁ | h₁
  · exact h₁
  · exact absurd h₁ hold
  · exact absurd h₁ hmoved
  · exact absurd h₁ hterm.ne'

/-! ## The shared part -/

namespace Shared

variable (h : S.Shared W)
include h

theorem inv : Consensus.Inv S.members S.Good W.hist := h.reach.inv

/-- The clock matters only under `synced`. -/
theorem tick {time : ℤ} (hle : S.synced → W.clock ≤ time) : S.Shared (W.tick time) :=
  { h with lease := fun hy => (h.lease hy).tick (hle hy) }

theorem observe {e : Event} (he : S.EventOK (W.observe v e) W.trace.length v e)
    (hacc : ∀ term time, e = .accepted term time → W.hist.term v = term ∧ time ≤ W.clock) :
    S.Shared (W.observe v e) :=
  { h with
    msgs := fun m hm => (h.msgs m hm).mono (World.Grows.observe (v := v) e) h.inv
    events := fun j w e' he' => by
      rcases lt_or_ge j W.trace.length with hlt | hge
      · refine (h.events j w e' ?_).mono (World.Grows.observe (v := v) e) h.inv
        rwa [World.observe, List.getElem?_append_left hlt] at he'
      have hj : j = W.trace.length := by
        have := (List.getElem?_eq_some_iff.mp he').1
        simp [World.observe] at this
        omega
      subst hj
      simp [World.observe] at he'
      obtain ⟨rfl, rfl⟩ := he'
      exact he
    lease := fun hy => (h.lease hy).observe hacc }

theorem send {e : Envelope} (he : S.MsgOK W e) (hsrc : e.src = v) (hle : e.sentAt ≤ W.clock)
    (hroute : e.src ∈ S.members ∧ e.dst ∈ S.members ∧ e.src ≠ e.dst) : S.Shared (W.send e) :=
  { h with
    msgs := fun m hm => by
      rcases List.mem_append.mp hm with hm | hm
      · exact (h.msgs m hm).mono (World.Grows.send hsrc) h.inv
      · rw [List.mem_singleton.mp hm]
        exact he.mono (World.Grows.send hsrc) h.inv
    routes := fun m hm => by
      rcases List.mem_append.mp hm with hm | hm
      · exact h.routes m hm
      · rwa [List.mem_singleton.mp hm]
    events := fun j w e' he' => (h.events j w e' he').mono (World.Grows.send hsrc) h.inv
    lease := fun hy => (h.lease hy).send hle }

theorem allocate (inc : ℕ) : S.Shared (W.allocate v inc) :=
  { h with
    floor_le := fun w i k u => by
      simp only [World.allocate, Ghost.allocate]
      split_ifs
      · exact le_rfl
      · exact h.floor_le w i k u
    msgs := fun e he => (h.msgs e he).mono (World.Grows.allocate (v := v) inc) h.inv
    events := fun j w e he => (h.events j w e he).mono (World.Grows.allocate (v := v) inc) h.inv
    lease := fun hy => { h.lease hy with } }

theorem setHist {h' : History} (hv : v ∈ S.members)
    (hs : Consensus.Step S.members S.Good v W.hist h') (hmax : h'.term v ≤ int32Max)
    (hlease : S.synced → S.LeaseOK (W.setHist h')) : S.Shared (W.setHist h') := by
  have hle : Consensus.Le v W.hist h' := (h.inv.step hs).2
  have hg : W.Grows v (W.setHist h') := World.Grows.setHist hle
  refine ⟨h.reach.step hv hs, fun w => (h.term_nonneg w).trans (hle.term_le w), fun w => ?_,
    fun w i k u => (h.floor_le w i k u).trans (hle.term_le u),
    fun e he => (h.msgs e he).mono hg h.inv, h.routes,
    fun j w e he => (h.events j w e he).mono hg h.inv, hlease⟩
  by_cases hw : w = v
  · exact hw ▸ hmax
  · exact (hle.other hw).1.trans_le (h.term_le w)

theorem setHist_of_eq {h' : History} (hv : v ∈ S.members)
    (hs : Consensus.Step S.members S.Good v W.hist h') (hterm : h'.term = W.hist.term)
    (hleader : h'.leader = W.hist.leader) : S.Shared (W.setHist h') :=
  h.setHist hv hs (hterm ▸ h.term_le v) fun hy => (h.lease hy).setHist_of_eq hterm hleader

end Shared

end Setting

end RaftKV
