import RaftKV.Consensus.Protocol

/-!
# Safety of the protocol

The invariant `Inv` of all runs, and what it gives :

* a term has one leader (`Inv.leader_unique`);
* two logs that have an entry of one term at one position agree up to it
  (`Matched`, `Inv.take_eq_of_term_eq`);
* what a majority has acknowledged in a term is in the log of every later leader from its
  election on (`Inv.leader_complete`), so all decided prefixes are prefixes of one another
  (`Decided.comparable`).

The invariant says of every log that each entry was written by the leader of its term, in
the place and after the entries that leader had (`Matched`). It says of every
acknowledgement that the acknowledged entries are still in the log of the node, or a leader
of a later term was elected without them (`Survives`); the second case is what
`leader_complete` excludes, by induction on the term.
-/

set_option linter.unusedSectionVars false

namespace Consensus

variable {ι E : Type} [DecidableEq ι] [HasTerm E]

/-! ## Logs -/

/-- Each entry of `l` was written by the leader of its term, after the same entries. -/
def Matched (s : State ι E) (l : List E) : Prop :=
  ∀ i (hi : i < l.length), (s.leader (term l[i])).isSome ∧
    l.take (i + 1) <+: s.leaderLog (term l[i])

/-- What node `w` acknowledged before term `b` is in `l`, or is missing from the log of a
leader elected after that and before `b`. -/
def Survives (s : State ι E) (w : ι) (l : List E) (b : ℤ) : Prop :=
  ∀ t k, t < b → k ≤ s.ack w t → (s.leaderLog t).take k <+: l ∨
    ∃ u, t < u ∧ u < b ∧ (s.leader u).isSome ∧ ¬(s.leaderLog t).take k <+: s.startLog u

variable {l : List E} {s : State ι E}

theorem Matched.initial {l' : List E} (h : Matched s l) (hl : l' <+: l) : Matched s l' := by
  intro i hi
  obtain ⟨r, rfl⟩ := hl
  have := h i (by simp; omega)
  rw [List.getElem_append_left hi, List.take_append_of_le_length (by omega)] at this
  exact this

theorem Matched.nil (s : State ι E) : Matched s [] := by
  intro i hi
  simp at hi

theorem lastTerm_eq_getElem (h : l ≠ []) : lastTerm l = term (l.getLast h) := by
  simp [lastTerm, List.getLast?_eq_some_getLast h]

/-- A nonempty matched log is a prefix of the log of the leader of its last term. -/
theorem Matched.prefix_leaderLog (h : Matched s l) (hne : l ≠ []) :
    (s.leader (lastTerm l)).isSome ∧ l <+: s.leaderLog (lastTerm l) := by
  have hpos := List.length_pos_iff.mpr hne
  have := h (l.length - 1) (by omega)
  rw [Nat.sub_add_cancel hpos, List.take_length] at this
  rw [lastTerm_eq_getElem hne, List.getLast_eq_getElem]
  exact this

/-! ## The invariant -/

/-- The invariant of all runs. -/
structure Inv (members : Finset ι) (Good : ℕ → E → Prop) (s : State ι E) : Prop where
  ballot_bound : ∀ {w t c}, s.ballot w t = some c → 0 < t ∧ t ≤ s.term w
  ballot_self : ∀ {w t c}, s.ballot w t = some c → s.ballot c t = some c
  ballot_upToDate : ∀ {w t c}, s.ballot w t = some c → UpToDate (s.voteLog c t) (s.voteLog w t)
  ballot_survives : ∀ {w t c}, s.ballot w t = some c → s.leader t = none →
    Survives s w (s.voteLog w t) t
  ballot_matched : ∀ {w t c}, s.ballot w t = some c → Matched s (s.voteLog w t)
  self_terms : ∀ {c t}, s.ballot c t = some c → ∀ e ∈ s.voteLog c t, term e < t
  leader_quorum : ∀ {t c}, s.leader t = some c → ∃ q, IsQuorum members q ∧
    ∀ w ∈ q, s.ballot w t = some c ∧ Survives s w (s.voteLog w t) t
  leader_start : ∀ {t c}, s.leader t = some c → s.startLog t = s.voteLog c t
  leader_log : ∀ {t c}, s.leader t = some c →
    ∃ l, s.leaderLog t = s.startLog t ++ l ∧ ∀ e ∈ l, term e = t
  leader_matched : ∀ {t c}, s.leader t = some c → Matched s (s.leaderLog t)
  leader_sorted : ∀ {t c}, s.leader t = some c →
    (s.leaderLog t).Pairwise fun a b => term a ≤ term b
  leader_good : ∀ {t c}, s.leader t = some c → ∀ i (hi : i < (s.leaderLog t).length),
    Good i (s.leaderLog t)[i]
  own_log : ∀ {t c}, s.leader t = some c → s.term c = t → s.log c = s.leaderLog t
  log_matched : ∀ v, Matched s (s.log v)
  log_terms : ∀ v, ∀ e ∈ s.log v, term e ≤ s.term v
  log_survives : ∀ v, Survives s v (s.log v) (s.term v + 1)
  ack_bound : ∀ {w t}, 0 < s.ack w t →
    (s.leader t).isSome ∧ t ≤ s.term w ∧ s.ack w t ≤ (s.leaderLog t).length

theorem Inv.init (members : Finset ι) (Good : ℕ → E → Prop) :
    Inv members Good (State.init : State ι E) where
  ballot_bound h := by cases h
  ballot_self h := by cases h
  ballot_upToDate h := by cases h
  ballot_survives h := by cases h
  ballot_matched h := by cases h
  self_terms h := by cases h
  leader_quorum h := by cases h
  leader_start h := by cases h
  leader_log h := by cases h
  leader_matched h := by cases h
  leader_sorted h := by cases h
  leader_good h := by cases h
  own_log h := by cases h
  log_matched _ := Matched.nil _
  log_terms _ e he := by cases he
  log_survives _ t k _ hk := .inl (by simp [State.init])
  ack_bound h := by simp [State.init] at h

section Consequences

variable {members : Finset ι} {Good : ℕ → E → Prop} {s : State ι E} (h : Inv members Good s)
include h

variable {c : ι} {t : ℤ}

section

variable (hl : s.leader t = some c)
include hl

theorem Inv.leader_ballot : s.ballot c t = some c := by
  obtain ⟨q, hq, hv⟩ := h.leader_quorum hl
  obtain ⟨w, hw, -⟩ := hq.inter hq
  exact h.ballot_self (hv w hw).1

theorem Inv.leader_bound : 0 < t ∧ t ≤ s.term c :=
  h.ballot_bound (h.leader_ballot hl)

/-- **Election safety.** A majority of votes in a term that has a leader are for it. -/
theorem Inv.leader_unique {d : ι} {q : Finset ι}
    (hq : IsQuorum members q) (hv : ∀ w ∈ q, s.ballot w t = some d) : d = c := by
  obtain ⟨r, hr, hrv⟩ := h.leader_quorum hl
  obtain ⟨w, hwq, hwr⟩ := hq.inter hr
  exact Option.some.inj ((hv w hwq).symm.trans (hrv w hwr).1)

theorem Inv.start_prefix : s.startLog t <+: s.leaderLog t := by
  obtain ⟨l, hlog, -⟩ := h.leader_log hl
  exact ⟨l, hlog.symm⟩

theorem Inv.start_terms : ∀ e ∈ s.startLog t, term e < t := by
  rw [h.leader_start hl]
  exact h.self_terms (h.leader_ballot hl)

/-- No entry of a leader's log is of a later term. -/
theorem Inv.leaderLog_terms : ∀ e ∈ s.leaderLog t, term e ≤ t := by
  obtain ⟨l, hlog, hterm⟩ := h.leader_log hl
  intro e he
  rw [hlog] at he
  rcases List.mem_append.mp he with he | he
  · exact (h.start_terms hl e he).le
  · exact (hterm e he).le

end

variable {l : List E}

theorem Inv.sorted (hm : Matched s l) : l.Pairwise fun a b => term a ≤ term b := by
  by_cases hne : l = []
  · simp [hne]
  · obtain ⟨hs, hp⟩ := hm.prefix_leaderLog hne
    obtain ⟨c, hc⟩ := Option.isSome_iff_exists.mp hs
    exact (h.leader_sorted hc).sublist hp.sublist

theorem Inv.term_pos (hm : Matched s l) {e : E} (he : e ∈ l) : 0 < term e := by
  obtain ⟨i, hi, rfl⟩ := List.getElem_of_mem he
  obtain ⟨c, hc⟩ := Option.isSome_iff_exists.mp (hm i hi).1
  exact (h.leader_bound hc).1

/-- The entries of a matched log are good in their places. -/
theorem Inv.good (hm : Matched s l) {i : ℕ} (hi : i < l.length) : Good i l[i] := by
  obtain ⟨hs, hp⟩ := hm i hi
  obtain ⟨c, hc⟩ := Option.isSome_iff_exists.mp hs
  have hlt : i < (s.leaderLog (term l[i])).length :=
    lt_of_lt_of_le (by simp; omega) hp.length_le
  have := h.leader_good hc i hlt
  rw [← hp.getElem (by simp; omega : i < (l.take (i + 1)).length)] at this
  simpa using this

/-- **Log matching.** Logs with entries of one term at one position agree up to it. -/
theorem Inv.take_eq_of_term_eq {l' : List E} (hm : Matched s l) (hm' : Matched s l') {i : ℕ}
    (hi : i < l.length) (hi' : i < l'.length) (heq : term l[i] = term l'[i]) :
    l.take (i + 1) = l'.take (i + 1) := by
  have h₁ := (hm i hi).2
  have h₂ := (hm' i hi').2
  rw [heq] at h₁
  refine (List.prefix_of_prefix_length_le h₁ h₂ ?_).eq_of_length ?_ <;> simp <;> omega

end Consequences

/-! ## Committed and decided -/

/-- A majority has acknowledged the first `i` entries of the leader of term `t`, the last of
which that leader wrote itself. -/
def Committed (members : Finset ι) (s : State ι E) (t : ℤ) (i : ℕ) : Prop :=
  0 < i ∧ lastTerm ((s.leaderLog t).take i) = t ∧
    ∃ q, IsQuorum members q ∧ ∀ w ∈ q, i ≤ s.ack w t

/-- The list `p` is empty or part of what was committed in a term up to `b`. -/
def Decided (members : Finset ι) (s : State ι E) (b : ℤ) (p : List E) : Prop :=
  p = [] ∨ ∃ t i, t ≤ b ∧ Committed members s t i ∧ p <+: (s.leaderLog t).take i

section Completeness

variable {members : Finset ι} {Good : ℕ → E → Prop} {s : State ι E} (h : Inv members Good s)
include h

theorem Inv.committed_leader {t : ℤ} {i : ℕ} (hc : Committed members s t i) :
    (s.leader t).isSome ∧ i ≤ (s.leaderLog t).length := by
  obtain ⟨hpos, -, q, hq, hack⟩ := hc
  obtain ⟨w, hw, -⟩ := hq.inter hq
  have hb := h.ack_bound (lt_of_lt_of_le hpos (hack w hw))
  exact ⟨hb.1, (hack w hw).trans hb.2.2⟩

variable {b : ℤ}

/-- A log at least as up to date as one that has the committed entries has them, if the
leaders in between have them. -/
theorem Inv.upToDate_committed {t : ℤ} {i : ℕ} {a l : List E} (hc : Committed members s t i)
    (ha : Matched s a) (hl : Matched s l) (hup : UpToDate a l)
    (hpre : (s.leaderLog t).take i <+: l) (hb : ∀ e ∈ a, term e < b)
    (hbetween : ∀ u, t < u → u < b → (s.leader u).isSome →
      (s.leaderLog t).take i <+: s.startLog u) : (s.leaderLog t).take i <+: a := by
  obtain ⟨hsome, hlen⟩ := h.committed_leader hc
  obtain ⟨hpos, hlast, -⟩ := hc
  obtain ⟨d, hd⟩ := Option.isSome_iff_exists.mp hsome
  have htake : ((s.leaderLog t).take i).length = i := by simp [hlen]
  have hne : (s.leaderLog t).take i ≠ [] := List.ne_nil_of_length_pos (by omega)
  have hlne : l ≠ [] := by
    rintro rfl
    exact hne (List.prefix_nil.mp hpre)
  -- the last term of `l` is not before `t`, which is the term of an entry of `l`
  have hle : t ≤ lastTerm l := by
    rw [lastTerm_eq_getElem hlne, ← hlast, lastTerm_eq_getElem hne]
    have hsorted := h.sorted hl
    obtain ⟨r, rfl⟩ := hpre
    rcases List.eq_nil_or_concat r with rfl | ⟨r', x, rfl⟩
    · simp
    have hmem : ((s.leaderLog t).take i).getLast hne ∈ (s.leaderLog t).take i :=
      List.getLast_mem hne
    have := (List.pairwise_append.mp hsorted).2.2 _ hmem x (by simp)
    simpa using this
  have hane : a ≠ [] := by
    rintro rfl
    have hpos := (h.leader_bound hd).1
    rcases hup with hup | ⟨hup, hlen⟩
    · have : lastTerm ([] : List E) = 0 := rfl
      omega
    · exact hlne (List.length_eq_zero_iff.mp (Nat.le_zero.mp hlen))
  obtain ⟨hsa, hpa⟩ := ha.prefix_leaderLog hane
  obtain ⟨hsl, hpl⟩ := hl.prefix_leaderLog hlne
  rcases hup with hlt | ⟨heq, hle'⟩
  · -- the leader of the last term of `a` started with the committed entries
    have hbound : lastTerm a < b := by
      rw [lastTerm_eq_getElem hane]
      exact hb _ (List.getLast_mem hane)
    have hstart := hbetween _ (by omega) hbound hsa
    obtain ⟨c, hcl⟩ := Option.isSome_iff_exists.mp hsa
    have hlonger : (s.startLog (lastTerm a)).length < a.length := by
      by_contra hge
      have hsub := List.prefix_of_prefix_length_le hpa (h.start_prefix hcl) (not_lt.mp hge)
      have := h.start_terms hcl _ (hsub.subset (List.getLast_mem hane))
      rw [lastTerm_eq_getElem hane] at this
      omega
    exact List.prefix_of_prefix_length_le (hstart.trans (h.start_prefix hcl)) hpa
      (hstart.length_le.trans hlonger.le)
  · rw [heq] at hpa
    exact hpre.trans (List.prefix_of_prefix_length_le hpl hpa hle')

/-- **Leader completeness.** What was committed in a term is in the log a later leader
starts with. -/
theorem Inv.leader_complete {t : ℤ} {i : ℕ} (hc : Committed members s t i) :
    ∀ {u : ℤ}, t < u → (s.leader u).isSome → (s.leaderLog t).take i <+: s.startLog u := by
  -- by induction on the distance of the terms
  suffices hind : ∀ n : ℕ, ∀ u : ℤ, u = t + 1 + n → (s.leader u).isSome →
      (s.leaderLog t).take i <+: s.startLog u by
    intro u hlt hu
    exact hind (u - t - 1).toNat u (by omega) hu
  intro n
  induction n using Nat.strong_induction_on with
  | _ n ih =>
    intro u hu hsome
    have hbetween : ∀ u', t < u' → u' < u → (s.leader u').isSome →
        (s.leaderLog t).take i <+: s.startLog u' := by
      intro u' h₁ h₂ h₃
      exact ih (u' - t - 1).toNat (by omega) u' (by omega) h₃
    obtain ⟨c, hl⟩ := Option.isSome_iff_exists.mp hsome
    obtain ⟨q, hq, hvotes⟩ := h.leader_quorum hl
    obtain ⟨r, hr, hacks⟩ := hc.2.2
    obtain ⟨w, hwq, hwr⟩ := hq.inter hr
    obtain ⟨hballot, hsurvives⟩ := hvotes w hwq
    rcases hsurvives t i (by omega) (hacks w hwr) with hpre | ⟨u', h₁, h₂, h₃, h₄⟩
    · rw [h.leader_start hl]
      have hself := h.leader_ballot hl
      exact h.upToDate_committed hc (h.ballot_matched hself) (h.ballot_matched hballot)
        (h.ballot_upToDate hballot) hpre (h.self_terms hself) hbetween
    · exact absurd (hbetween u' h₁ h₂ h₃) h₄

variable {p : List E}

/-- What is decided up to a term is in the logs of the leaders from that term on. -/
theorem Inv.decided_prefix {u : ℤ} (hp : Decided members s b p) (hu : b ≤ u)
    (hl : (s.leader u).isSome) : p <+: s.leaderLog u := by
  obtain ⟨c, hc⟩ := Option.isSome_iff_exists.mp hl
  rcases hp with rfl | ⟨t, i, ht, hcom, hpre⟩
  · exact List.nil_prefix
  · rcases (ht.trans hu).lt_or_eq with hlt | rfl
    · exact (hpre.trans (h.leader_complete hcom hlt hl)).trans (h.start_prefix hc)
    · exact hpre.trans (List.take_prefix _ _)

/-- **Agreement.** Decided prefixes are prefixes of one another. -/
theorem Inv.decided_comparable {b' : ℤ} {p' : List E} (hp : Decided members s b p)
    (hp' : Decided members s b' p') : p <+: p' ∨ p' <+: p := by
  rcases hp with rfl | ⟨t, i, ht, hcom, hpre⟩
  · exact .inl List.nil_prefix
  rcases hp' with rfl | ⟨t', i', ht', hcom', hpre'⟩
  · exact .inr List.nil_prefix
  have hd : Decided members s t p := .inr ⟨t, i, le_rfl, hcom, hpre⟩
  have hd' : Decided members s t' p' := .inr ⟨t', i', le_rfl, hcom', hpre'⟩
  rcases le_total t t' with hle | hle
  · have hs := (h.committed_leader hcom').1
    exact List.prefix_or_prefix_of_prefix (h.decided_prefix hd hle hs)
      (h.decided_prefix hd' le_rfl hs)
  · have hs := (h.committed_leader hcom).1
    exact List.prefix_or_prefix_of_prefix (h.decided_prefix hd le_rfl hs)
      (h.decided_prefix hd' hle hs)

/-- Decided prefixes of one length are equal. -/
theorem Inv.decided_eq {b' : ℤ} {p' : List E} (hp : Decided members s b p)
    (hp' : Decided members s b' p') (hlen : p.length = p'.length) : p = p' := by
  rcases h.decided_comparable hp hp' with hpre | hpre
  · exact hpre.eq_of_length hlen
  · exact (hpre.eq_of_length hlen.symm).symm

/-- All decided prefixes are prefixes of one sequence. -/
theorem Inv.exists_sequence [Nonempty E] :
    ∃ H : ℕ → E, ∀ b p, Decided members s b p → p = (List.range p.length).map H := by
  classical
  have hval : ∀ i : ℕ, ∃ e : E, ∀ b p, Decided members s b p → ∀ hi : i < p.length, p[i] = e := by
    intro i
    by_cases hex : ∃ b p, Decided members s b p ∧ i < p.length
    · obtain ⟨b, p, hp, hi⟩ := hex
      refine ⟨p[i], fun b' p' hp' hi' => ?_⟩
      rcases h.decided_comparable hp' hp with hpre | hpre
      · exact hpre.getElem hi'
      · exact (hpre.getElem hi).symm
    · exact ⟨Classical.arbitrary E, fun b p hp hi => absurd ⟨b, p, hp, hi⟩ hex⟩
  choose H hH using hval
  refine ⟨H, fun b p hp => List.ext_getElem (by simp) fun i hi _ => ?_⟩
  rw [hH i b p hp hi, List.getElem_map, List.getElem_range]

theorem Inv.decided_matched (hp : Decided members s b p) : Matched s p := by
  rcases hp with rfl | ⟨t, i, -, hcom, hpre⟩
  · exact Matched.nil s
  · obtain ⟨c, hc⟩ := Option.isSome_iff_exists.mp (h.committed_leader hcom).1
    exact (h.leader_matched hc).initial (hpre.trans (List.take_prefix _ _))

end Completeness

variable {members : Finset ι}

theorem Decided.mono {b b' : ℤ} {p : List E}
    (hp : Decided members s b p) (hb : b ≤ b') : Decided members s b' p := by
  rcases hp with rfl | ⟨t, i, ht, hcom, hpre⟩
  · exact .inl rfl
  · exact .inr ⟨t, i, ht.trans hb, hcom, hpre⟩

theorem Decided.initial {b : ℤ} {p p' : List E}
    (hp : Decided members s b p) (hpre : p' <+: p) : Decided members s b p' := by
  rcases hp with rfl | ⟨t, i, ht, hcom, hpre'⟩
  · exact .inl (List.prefix_nil.mp hpre)
  · exact .inr ⟨t, i, ht, hcom, hpre.trans hpre'⟩

/-! ## Growth of history -/

section Growth

variable {v : ι} {s s' : State ι E} (hle : Le v s s')
include hle

variable {t : ℤ}

theorem Le.leader_isSome (h : (s.leader t).isSome) : (s'.leader t).isSome := by
  obtain ⟨c, hc⟩ := Option.isSome_iff_exists.mp h
  exact Option.isSome_iff_exists.mpr ⟨c, (hle.leader hc).1⟩

theorem Le.leaderLog_prefix (h : (s.leader t).isSome) : s.leaderLog t <+: s'.leaderLog t := by
  obtain ⟨c, hc⟩ := Option.isSome_iff_exists.mp h
  exact (hle.leader hc).2.2

theorem Matched.mono {l : List E} (h : Matched s l) : Matched s' l := by
  intro i hi
  obtain ⟨hs, hp⟩ := h i hi
  exact ⟨hle.leader_isSome hs, hp.trans (hle.leaderLog_prefix hs)⟩

variable {Good : ℕ → E → Prop} {members : Finset ι}

/-- The entries a node acknowledged are the same entries later. -/
theorem Le.take_ack (h : Inv members Good s) {w : ι}
    {k : ℕ} (hk : k ≤ s.ack w t) : (s'.leaderLog t).take k = (s.leaderLog t).take k := by
  rcases Nat.eq_zero_or_pos k with rfl | hpos
  · simp
  · obtain ⟨hs, -, hlen⟩ := h.ack_bound (lt_of_lt_of_le hpos hk)
    obtain ⟨r, hr⟩ := hle.leaderLog_prefix hs
    rw [← hr, List.take_append_of_le_length (hk.trans hlen)]

theorem Survives.mono (h : Inv members Good s) {w : ι}
    {l : List E} {b : ℤ} (hs : Survives s w l b) (hack : ∀ t, t < b → s'.ack w t = s.ack w t) :
    Survives s' w l b := by
  intro t k ht hk
  rw [hack t ht] at hk
  rw [hle.take_ack h hk]
  rcases hs t k ht hk with hpre | ⟨u, h₁, h₂, h₃, h₄⟩
  · exact .inl hpre
  · obtain ⟨c, hc⟩ := Option.isSome_iff_exists.mp h₃
    refine .inr ⟨u, h₁, h₂, hle.leader_isSome h₃, ?_⟩
    rwa [(hle.leader hc).2.1]

theorem Committed.mono (h : Inv members Good s) {i : ℕ} (hc : Committed members s t i) :
    Committed members s' t i ∧ (s'.leaderLog t).take i = (s.leaderLog t).take i := by
  obtain ⟨hpos, hlast, q, hq, hack⟩ := hc
  obtain ⟨w, hw, -⟩ := hq.inter hq
  have htake := hle.take_ack h (hack w hw)
  exact ⟨⟨hpos, by rw [htake, hlast], q, hq, fun w hw => (hack w hw).trans (hle.ack_le w t)⟩,
    htake⟩

theorem Decided.step (h : Inv members Good s)
    {b : ℤ} {p : List E} (hp : Decided members s b p) : Decided members s' b p := by
  rcases hp with rfl | ⟨t, i, ht, hcom, hpre⟩
  · exact .inl rfl
  · obtain ⟨hcom', htake⟩ := hcom.mono hle h
    exact .inr ⟨t, i, ht, hcom', htake ▸ hpre⟩

end Growth

theorem Survives.widen {Good : ℕ → E → Prop}
    (h : Inv members Good s) {w : ι} {b b' : ℤ} (hs : Survives s w l b)
    (hb : b ≤ b') (hw : s.term w < b) : Survives s w l b' := by
  intro t k ht hk
  rcases Nat.eq_zero_or_pos k with rfl | hpos
  · exact .inl (by simp)
  have hbound := (h.ack_bound (lt_of_lt_of_le hpos hk)).2.1
  rcases hs t k (by omega) hk with hpre | ⟨u, h₁, h₂, h₃, h₄⟩
  · exact .inl hpre
  · exact .inr ⟨u, h₁, by omega, h₃, h₄⟩

/-! ## Steps keep the invariant -/

section Steps

variable {members : Finset ι} {Good : ℕ → E → Prop} {s : State ι E} (h : Inv members Good s)
  {v : ι}
include h

variable {t : ℤ}

theorem Inv.ballot_none (ht : s.term v < t) : s.ballot v t = none := by
  cases hb : s.ballot v t with
  | none => rfl
  | some c =>
    have := (h.ballot_bound hb).2
    omega

theorem Inv.le_setTerm (ht : s.term v < t) : Le v s (s.setTerm v t) where
  term_le w := by
    by_cases hw : w = v
    · subst hw
      simpa [State.setTerm] using ht.le
    · simp [State.setTerm, hw]
  ballot hb := ⟨hb, rfl⟩
  leader hl := ⟨hl, rfl, List.prefix_rfl⟩
  ack_le _ _ := le_rfl
  other hw := ⟨by simp [State.setTerm, hw], rfl, rfl, rfl⟩
  other_leaderLog _ _ := rfl
  other_leader hl _ := hl

theorem Inv.setTerm (ht : s.term v < t) : Inv members Good (s.setTerm v t) := by
  have hle := h.le_setTerm ht
  refine { h with
    ballot_bound := fun hb => ⟨(h.ballot_bound hb).1, (h.ballot_bound hb).2.trans (hle.term_le _)⟩
    own_log := ?_
    log_terms := fun w e he => (h.log_terms w e he).trans (hle.term_le w)
    log_survives := ?_
    ack_bound := fun hk => ?_ }
  · intro u c hl hu
    have hb : u ≤ s.term c := (h.leader_bound hl).2
    by_cases hc : c = v
    · subst hc
      simp only [State.setTerm, Function.update_self] at hu
      omega
    · rw [(hle.other hc).1] at hu
      exact h.own_log hl hu
  · intro w
    exact (h.log_survives w).widen h (by have := hle.term_le w; omega) (by omega)
  · obtain ⟨h₁, h₂, h₃⟩ := h.ack_bound hk
    exact ⟨h₁, h₂.trans (hle.term_le _), h₃⟩

variable {c : ι}

theorem Inv.le_cast (hnone : s.ballot v t = none) : Le v s (s.cast v t c) where
  term_le _ := le_rfl
  ballot {w u d} hb := by
    have hne : ¬(w = v ∧ u = t) := by
      rintro ⟨rfl, rfl⟩
      rw [hnone] at hb
      cases hb
    simp [State.cast, hne, hb]
  leader hl := ⟨hl, rfl, List.prefix_rfl⟩
  ack_le _ _ := le_rfl
  other hw := ⟨rfl, rfl, by funext u; simp [State.cast, hw], rfl⟩
  other_leaderLog _ _ := rfl
  other_leader hl _ := hl

/-- A vote for `c` whose log at its own vote is at least as up to date as the voter's. -/
theorem Inv.cast (ht : t = s.term v) (hpos : 0 < t) (hnone : s.ballot v t = none)
    (hself : c = v ∨ s.ballot c t = some c)
    (hup : UpToDate (if c = v then s.log v else s.voteLog c t) (s.log v))
    (hterms : c = v → ∀ e ∈ s.log v, term e < t) : Inv members Good (s.cast v t c) := by
  have hle := h.le_cast (c := c) hnone
  have hcast : ∀ {w u d}, (s.cast v t c).ballot w u = some d →
      w = v ∧ u = t ∧ d = c ∧ (s.cast v t c).voteLog w u = s.log v ∨
      s.ballot w u = some d ∧ (s.cast v t c).voteLog w u = s.voteLog w u := by
    intro w u d hb
    by_cases hw : w = v ∧ u = t
    · obtain ⟨rfl, rfl⟩ := hw
      have hb' : some c = some d := by simpa [State.cast] using hb
      exact .inl ⟨rfl, rfl, (Option.some.inj hb').symm, by simp [State.cast]⟩
    · exact .inr ⟨by simpa [State.cast, hw] using hb, by simp [State.cast, hw]⟩
  have hnew : (s.cast v t c).ballot v t = some c ∧ (s.cast v t c).voteLog v t = s.log v := by
    simp [State.cast]
  have hcself : (s.cast v t c).ballot c t = some c ∧
      (s.cast v t c).voteLog c t = if c = v then s.log v else s.voteLog c t := by
    rcases hself with rfl | hc
    · simpa using hnew
    obtain ⟨h₁, h₂⟩ := hle.ballot hc
    refine ⟨h₁, h₂.trans (if_neg ?_).symm⟩
    rintro rfl
    rw [hnone] at hc
    cases hc
  refine { h with
    ballot_bound := fun hb => ?_
    ballot_self := fun hb => ?_
    ballot_upToDate := fun hb => ?_
    ballot_survives := fun {w u d} hb hl => ?_
    ballot_matched := fun hb => ?_
    self_terms := fun hb => ?_
    leader_quorum := fun hl => ?_
    leader_start := fun hl => ?_ }
  · rcases hcast hb with ⟨rfl, rfl, rfl, -⟩ | ⟨hb, -⟩
    · exact ⟨hpos, ht.le⟩
    · exact h.ballot_bound hb
  · rcases hcast hb with ⟨rfl, rfl, rfl, -⟩ | ⟨hb, -⟩
    · exact hcself.1
    · exact (hle.ballot (h.ballot_self hb)).1
  · rcases hcast hb with ⟨rfl, rfl, rfl, hlog⟩ | ⟨hb, hlog⟩
    · rw [hlog, hcself.2]
      exact hup
    · rw [hlog, (hle.ballot (h.ballot_self hb)).2]
      exact h.ballot_upToDate hb
  · rcases hcast hb with ⟨rfl, hu, rfl, hlog⟩ | ⟨hb, hlog⟩
    · rw [hlog]
      intro t₀ k ht₀ hk
      rcases h.log_survives _ t₀ k (by omega) hk with hpre | ⟨u', h₁, h₂, h₃, h₄⟩
      · exact .inl hpre
      refine .inr ⟨u', h₁, ?_, h₃, h₄⟩
      have : u' ≠ u := by
        rintro rfl
        rw [show s.leader u' = none from hl] at h₃
        cases h₃
      omega
    · rw [hlog]
      exact h.ballot_survives hb hl
  · rcases hcast hb with ⟨rfl, rfl, rfl, hlog⟩ | ⟨hb, hlog⟩
    · rw [hlog]
      exact h.log_matched _
    · rw [hlog]
      exact h.ballot_matched hb
  · rcases hcast hb with ⟨rfl, rfl, rfl, hlog⟩ | ⟨hb, hlog⟩
    · rw [hlog]
      exact hterms rfl
    · rw [hlog]
      exact h.self_terms hb
  · obtain ⟨q, hq, hv⟩ := h.leader_quorum hl
    refine ⟨q, hq, fun w hw => ?_⟩
    obtain ⟨hb, hs⟩ := hv w hw
    obtain ⟨h₁, h₂⟩ := hle.ballot hb
    rw [h₂]
    exact ⟨h₁, hs⟩
  · rw [(hle.ballot (h.leader_ballot hl)).2]
    exact h.leader_start hl

theorem Inv.le_crown (hnone : s.leader (s.term v) = none) : Le v s (s.crown v (s.term v)) where
  term_le _ := le_rfl
  ballot hb := ⟨hb, rfl⟩
  leader {t c} hl := by
    have hne : t ≠ s.term v := by
      rintro rfl
      rw [hnone] at hl
      cases hl
    simp [State.crown, hne, hl]
  ack_le _ _ := le_rfl
  other _ := ⟨rfl, rfl, rfl, rfl⟩
  other_leaderLog {t c} hl _ := by
    have hne : t ≠ s.term v := by
      rintro rfl
      rw [hnone] at hl
      cases hl
    simp [State.crown, hne]
  other_leader {t c} hl hc := by
    by_cases ht : t = s.term v
    · subst ht
      simp only [State.crown, Function.update_self, Option.some.injEq] at hl
      exact absurd hl.symm hc
    · simpa [State.crown, ht] using hl

theorem Inv.crown {q : Finset ι} (hnone : s.leader (s.term v) = none)
    (hlog : s.voteLog v (s.term v) = s.log v) (hq : IsQuorum members q)
    (hvotes : ∀ w ∈ q, s.ballot w (s.term v) = some v) :
    Inv members Good (s.crown v (s.term v)) := by
  have hle := h.le_crown hnone
  obtain ⟨w₀, hw₀, -⟩ := hq.inter hq
  have hself := h.ballot_self (hvotes w₀ hw₀)
  have hsurv : ∀ {w l b}, Survives s w l b → Survives (s.crown v (s.term v)) w l b :=
    fun hs => hs.mono hle h fun _ _ => rfl
  have hcases : ∀ {t c}, (s.crown v (s.term v)).leader t = some c →
      t = s.term v ∧ c = v ∨ t ≠ s.term v ∧ s.leader t = some c := by
    intro t c hl
    by_cases ht : t = s.term v
    · subst ht
      simp only [State.crown, Function.update_self, Option.some.injEq] at hl
      exact .inl ⟨rfl, hl.symm⟩
    · exact .inr ⟨ht, by simpa [State.crown, ht] using hl⟩
  have hnew : (s.crown v (s.term v)).leaderLog (s.term v) = s.log v ∧
      (s.crown v (s.term v)).startLog (s.term v) = s.log v := by
    simp [State.crown]
  have hold : ∀ {t}, t ≠ s.term v → (s.crown v (s.term v)).leaderLog t = s.leaderLog t ∧
      (s.crown v (s.term v)).startLog t = s.startLog t := by
    intro t ht
    simp [State.crown, ht]
  refine { h with
    ballot_survives := fun {w t c} hb hl => ?_
    ballot_matched := fun hb => (h.ballot_matched hb).mono hle
    leader_quorum := fun hl => ?_
    leader_start := fun hl => ?_
    leader_log := fun hl => ?_
    leader_matched := fun hl => ?_
    leader_sorted := fun hl => ?_
    leader_good := fun hl => ?_
    own_log := fun hl hu => ?_
    log_matched := fun w => (h.log_matched w).mono hle
    log_survives := fun w => hsurv (h.log_survives w)
    ack_bound := fun {w t} hk => ?_ }
  · have ht : t ≠ s.term v := by
      rintro rfl
      simp [State.crown] at hl
    exact hsurv (h.ballot_survives hb (by simpa [State.crown, ht] using hl))
  · rcases hcases hl with ⟨rfl, rfl⟩ | ⟨ht, hl⟩
    · exact ⟨q, hq, fun w hw => ⟨hvotes w hw, hsurv (h.ballot_survives (hvotes w hw) hnone)⟩⟩
    · obtain ⟨r, hr, hv⟩ := h.leader_quorum hl
      exact ⟨r, hr, fun w hw => ⟨(hv w hw).1, hsurv (hv w hw).2⟩⟩
  · rcases hcases hl with ⟨rfl, rfl⟩ | ⟨ht, hl⟩
    · rw [hnew.2]
      exact hlog.symm
    · rw [(hold ht).2]
      exact h.leader_start hl
  · rcases hcases hl with ⟨rfl, rfl⟩ | ⟨ht, hl⟩
    · exact ⟨[], by simp [hnew], by simp⟩
    · rw [(hold ht).1, (hold ht).2]
      exact h.leader_log hl
  · rcases hcases hl with ⟨rfl, rfl⟩ | ⟨ht, hl⟩
    · rw [hnew.1]
      exact (h.log_matched _).mono hle
    · rw [(hold ht).1]
      exact (h.leader_matched hl).mono hle
  · rcases hcases hl with ⟨rfl, rfl⟩ | ⟨ht, hl⟩
    · rw [hnew.1]
      exact h.sorted (h.log_matched _)
    · rw [(hold ht).1]
      exact h.leader_sorted hl
  · rcases hcases hl with ⟨rfl, rfl⟩ | ⟨ht, hl⟩
    · rw [hnew.1]
      exact fun i hi => h.good (h.log_matched _) hi
    · rw [(hold ht).1]
      exact h.leader_good hl
  · rcases hcases hl with ⟨rfl, rfl⟩ | ⟨ht, hl⟩
    · exact hnew.1.symm
    · rw [(hold ht).1]
      exact h.own_log hl hu
  · obtain ⟨h₁, h₂, h₃⟩ := h.ack_bound hk
    refine ⟨hle.leader_isSome h₁, h₂, h₃.trans (hle.leaderLog_prefix h₁).length_le⟩

theorem Inv.le_setLeaderLog (es : List E) (hl : s.leader (s.term v) = some v) :
    Le v s (s.setLeaderLog v (s.term v) (s.log v ++ es)) where
  term_le _ := le_rfl
  ballot hb := ⟨hb, rfl⟩
  leader {t c} hl' := by
    refine ⟨hl', rfl, ?_⟩
    by_cases ht : t = s.term v
    · subst ht
      rw [← h.own_log hl rfl]
      simp [State.setLeaderLog]
    · simp [State.setLeaderLog, ht]
  ack_le _ _ := le_rfl
  other hw := ⟨rfl, by simp [State.setLeaderLog, hw], rfl, rfl⟩
  other_leaderLog {t c} hl' hc := by
    have ht : t ≠ s.term v := by
      rintro rfl
      exact hc (Option.some.inj (hl'.symm.trans hl))
    simp [State.setLeaderLog, ht]
  other_leader hl' _ := hl'

theorem Inv.setLeaderLog {es : List E} (hl : s.leader (s.term v) = some v)
    (hterm : ∀ e ∈ es, term e = s.term v)
    (hgood : ∀ i (hi : i < es.length), Good ((s.log v).length + i) es[i]) :
    Inv members Good (s.setLeaderLog v (s.term v) (s.log v ++ es)) := by
  have hle := h.le_setLeaderLog es hl
  have hown := h.own_log hl rfl
  have hsurv : ∀ {w l b}, Survives s w l b →
      Survives (s.setLeaderLog v (s.term v) (s.log v ++ es)) w l b :=
    fun hs => hs.mono hle h fun _ _ => rfl
  have hnew : (s.setLeaderLog v (s.term v) (s.log v ++ es)).leaderLog (s.term v) =
      s.log v ++ es := by
    simp [State.setLeaderLog]
  have hold : ∀ {t}, t ≠ s.term v →
      (s.setLeaderLog v (s.term v) (s.log v ++ es)).leaderLog t = s.leaderLog t := by
    intro t ht
    simp [State.setLeaderLog, ht]
  have hlog : ∀ w, (s.setLeaderLog v (s.term v) (s.log v ++ es)).log w =
      if w = v then s.log v ++ es else s.log w := by
    intro w
    simp [State.setLeaderLog, Function.update_apply]
  have hmatched : Matched (s.setLeaderLog v (s.term v) (s.log v ++ es)) (s.log v ++ es) := by
    intro i hi
    rcases Nat.lt_or_ge i (s.log v).length with hlt | hge
    · rw [List.getElem_append_left hlt, List.take_append_of_le_length (by omega)]
      exact (h.log_matched v).mono hle i hlt
    have hmem : (s.log v ++ es)[i] ∈ es := by
      rw [List.getElem_append_right hge]
      exact List.getElem_mem _
    rw [hterm _ hmem, hnew]
    exact ⟨Option.isSome_iff_exists.mpr ⟨v, hl⟩, List.take_prefix _ _⟩
  have hsorted : (s.log v ++ es).Pairwise fun a b => HasTerm.term a ≤ HasTerm.term b := by
    refine List.pairwise_append.mpr ⟨h.sorted (h.log_matched v), ?_, fun a ha b hb => ?_⟩
    · refine List.pairwise_iff_getElem.mpr fun i j hi hj _ => ?_
      rw [hterm _ (List.getElem_mem hi), hterm _ (List.getElem_mem hj)]
    · rw [hterm b hb]
      exact h.log_terms v a ha
  refine { h with
    ballot_survives := fun hb hl' => hsurv (h.ballot_survives hb hl')
    ballot_matched := fun hb => (h.ballot_matched hb).mono hle
    leader_quorum := fun hl' => ?_
    leader_log := fun {t c} hl' => ?_
    leader_matched := fun {t c} hl' => ?_
    leader_sorted := fun {t c} hl' => ?_
    leader_good := fun {t c} hl' => ?_
    own_log := fun {t c} hl' hu => ?_
    log_matched := fun w => ?_
    log_terms := fun w e he => ?_
    log_survives := fun w => ?_
    ack_bound := fun {w t} hk => ?_ }
  · obtain ⟨r, hr, hv⟩ := h.leader_quorum hl'
    exact ⟨r, hr, fun w hw => ⟨(hv w hw).1, hsurv (hv w hw).2⟩⟩
  · by_cases ht : t = s.term v
    · subst ht
      obtain ⟨l, hl₁, hl₂⟩ := h.leader_log hl'
      refine ⟨l ++ es, ?_, ?_⟩
      · rw [hnew, hown, hl₁, List.append_assoc]
        rfl
      intro e he
      rcases List.mem_append.mp he with he | he
      · exact hl₂ e he
      · exact hterm e he
    · rw [hold ht]
      exact h.leader_log hl'
  · by_cases ht : t = s.term v
    · rw [ht, hnew]
      exact hmatched
    · rw [hold ht]
      exact (h.leader_matched hl').mono hle
  · by_cases ht : t = s.term v
    · rw [ht, hnew]
      exact hsorted
    · rw [hold ht]
      exact h.leader_sorted hl'
  · by_cases ht : t = s.term v
    · rw [ht, hnew]
      intro i hi
      rcases Nat.lt_or_ge i (s.log v).length with hlt | hge
      · rw [List.getElem_append_left hlt]
        exact h.good (h.log_matched v) hlt
      · rw [List.getElem_append_right hge]
        have := hgood (i - (s.log v).length) (by simp at hi; omega)
        rwa [Nat.add_sub_cancel' hge] at this
    · rw [hold ht]
      exact h.leader_good hl'
  · have hu' : s.term c = t := hu
    by_cases hc : c = v
    · subst hc
      rw [hlog, if_pos rfl, ← hu', hnew]
    have ht : t ≠ s.term v := by
      rintro rfl
      exact hc (Option.some.inj ((show s.leader _ = some c from hl').symm.trans hl))
    rw [hlog, if_neg hc, hold ht]
    exact h.own_log hl' hu'
  · rw [hlog]
    split_ifs
    · exact hmatched
    · exact (h.log_matched w).mono hle
  · rw [hlog] at he
    split_ifs at he with hw
    · subst hw
      rcases List.mem_append.mp he with he | he
      · exact h.log_terms _ e he
      · exact (hterm e he).le
    · exact h.log_terms w e he
  · rw [hlog]
    split_ifs with hw
    · subst hw
      intro t k ht hk
      rcases hsurv (h.log_survives _) t k ht hk with hpre | hu
      · exact .inl (hpre.trans (List.prefix_append _ _))
      · exact .inr hu
    · exact hsurv (h.log_survives w)
  · obtain ⟨h₁, h₂, h₃⟩ := h.ack_bound hk
    exact ⟨h₁, h₂, h₃.trans (hle.leaderLog_prefix h₁).length_le⟩

theorem Inv.le_setLog (l : List E) : Le v s (s.setLog v l) where
  term_le _ := le_rfl
  ballot hb := ⟨hb, rfl⟩
  leader hl := ⟨hl, rfl, List.prefix_rfl⟩
  ack_le _ _ := le_rfl
  other hw := ⟨rfl, by simp [State.setLog, hw], rfl, rfl⟩
  other_leaderLog _ _ := rfl
  other_leader hl _ := hl

theorem Inv.setLog {l : List E} (hl : s.leader (s.term v) = some c) (hc : c ≠ v)
    (hfrom : l <+: s.log v ∨ l <+: s.leaderLog (s.term v))
    (hkeep : ∀ p, p <+: s.log v → p <+: s.leaderLog (s.term v) → p <+: l) :
    Inv members Good (s.setLog v l) := by
  have hlog : ∀ w, (s.setLog v l).log w = if w = v then l else s.log w := by
    intro w
    simp [State.setLog, Function.update_apply]
  refine { h with
    own_log := fun {t d} hl' hu => ?_
    log_matched := fun w => ?_
    log_terms := fun w e he => ?_
    log_survives := fun w => ?_ }
  · have hd : d ≠ v := by
      rintro rfl
      have hu' : s.term d = t := hu
      rw [hu'] at hl
      exact hc (Option.some.inj (hl.symm.trans hl'))
    rw [hlog, if_neg hd]
    exact h.own_log hl' hu
  · rw [hlog]
    split_ifs
    · rcases hfrom with hp | hp
      · exact (h.log_matched v).initial hp
      · exact (h.leader_matched hl).initial hp
    · exact h.log_matched w
  · rw [hlog] at he
    split_ifs at he with hw
    · subst hw
      rcases hfrom with hp | hp
      · exact h.log_terms _ e (hp.subset he)
      · exact h.leaderLog_terms hl e (hp.subset he)
    · exact h.log_terms w e he
  · rw [hlog]
    split_ifs with hw
    · subst hw
      intro t k ht hk
      have ht' : t < s.term w + 1 := ht
      have hlast : t = s.term w ∨ t < s.term w := by omega
      rcases h.log_survives w t k ht hk with hpre | hu
      · rcases hlast with rfl | hlt
        · exact .inl (hkeep _ hpre (List.take_prefix _ _))
        by_cases hstart : (s.leaderLog t).take k <+: s.startLog (s.term w)
        · exact .inl (hkeep _ hpre (hstart.trans (h.start_prefix hl)))
        · exact .inr ⟨s.term w, hlt, by simp [State.setLog],
            Option.isSome_iff_exists.mpr ⟨c, hl⟩, hstart⟩
      · exact .inr hu
    · exact h.log_survives w

theorem Inv.le_setAck (t : ℤ) (i : ℕ) : Le v s (s.setAck v t i) where
  term_le _ := le_rfl
  ballot hb := ⟨hb, rfl⟩
  leader hl := ⟨hl, rfl, List.prefix_rfl⟩
  ack_le w u := by
    simp only [State.setAck]
    split_ifs
    · exact le_max_left _ _
    · exact le_rfl
  other hw := ⟨rfl, rfl, rfl, by funext u; simp [State.setAck, hw]⟩
  other_leaderLog _ _ := rfl
  other_leader hl _ := hl

theorem Inv.setAck {i : ℕ} (hl : s.leader (s.term v) = some c)
    (hi : i ≤ (s.log v).length) (hlog : (s.log v).take i <+: s.leaderLog (s.term v)) :
    Inv members Good (s.setAck v (s.term v) i) := by
  have hle := h.le_setAck (v := v) (s.term v) i
  have hack : ∀ {w t}, t ≠ s.term v ∨ w ≠ v → (s.setAck v (s.term v) i).ack w t = s.ack w t := by
    intro w t ht
    simp only [State.setAck]
    rw [if_neg (by tauto)]
  have hsurv : ∀ {w t c}, s.ballot w t = some c → Survives s w (s.voteLog w t) t →
      Survives (s.setAck v (s.term v) i) w (s.voteLog w t) t := by
    intro w t c hb hs
    refine hs.mono hle h fun u hu => hack ?_
    by_cases hw : w = v
    · subst hw
      have := (h.ballot_bound hb).2
      exact .inl (by omega)
    · exact .inr hw
  refine { h with
    ballot_survives := fun hb hl' => hsurv hb (h.ballot_survives hb hl')
    leader_quorum := fun hl' => ?_
    log_survives := fun w => ?_
    ack_bound := fun {w t} hk => ?_ }
  · obtain ⟨q, hq, hv⟩ := h.leader_quorum hl'
    exact ⟨q, hq, fun w hw => ⟨(hv w hw).1, hsurv (hv w hw).1 (hv w hw).2⟩⟩
  · intro t k ht hk
    by_cases hwt : w = v ∧ t = s.term v
    · obtain ⟨rfl, rfl⟩ := hwt
      simp only [State.setAck, and_self, if_true, le_max_iff] at hk
      rcases hk with hk | hk
      · exact h.log_survives w _ k ht hk
      left
      obtain ⟨r, hr⟩ := hlog
      show (s.leaderLog (s.term w)).take k <+: s.log w
      rw [← hr, List.take_append_of_le_length (by simp; omega), List.take_take,
        min_eq_left hk]
      exact List.take_prefix _ _
    · rw [hack (by tauto)] at hk
      exact h.log_survives w t k ht hk
  · by_cases hwt : w = v ∧ t = s.term v
    · obtain ⟨rfl, rfl⟩ := hwt
      refine ⟨Option.isSome_iff_exists.mpr ⟨c, hl⟩, le_rfl, ?_⟩
      have hlen : i ≤ (s.leaderLog (s.term w)).length := by
        have := hlog.length_le
        simp only [List.length_take] at this
        omega
      simp only [State.setAck, and_self, if_true]
      refine max_le ?_ hlen
      rcases Nat.eq_zero_or_pos (s.ack w (s.term w)) with h₀ | hpos
      · omega
      · exact (h.ack_bound hpos).2.2
    · rw [hack (by tauto)] at hk ⊢
      exact h.ack_bound hk

/-- **Every step keeps the invariant**, and history grows. -/
theorem Inv.step {s' : State ι E} (hs : Step members Good v s s') :
    Inv members Good s' ∧ Le v s s' := by
  cases hs with
  | adopt ht => exact ⟨h.setTerm ht, h.le_setTerm ht⟩
  | @campaign t ht hpos =>
    have h' := h.setTerm ht
    have hnone : (s.setTerm v t).ballot v t = none := h.ballot_none ht
    have hterm : (s.setTerm v t).term v = t := by simp [State.setTerm]
    refine ⟨h'.cast hterm.symm hpos hnone (.inl rfl) (by simp [UpToDate]) fun _ e he => ?_,
      (h.le_setTerm ht).trans (h'.le_cast hnone)⟩
    exact (h.log_terms v e he).trans_lt ht
  | @grant c hnone hc hlog =>
    have hne : c ≠ v := by
      rintro rfl
      rw [hnone] at hc
      cases hc
    exact ⟨h.cast rfl (h.ballot_bound hc).1 hnone (.inr hc) (by rwa [if_neg hne])
      (fun heq => absurd heq hne), h.le_cast hnone⟩
  | elect hnone hlog hq hvotes => exact ⟨h.crown hnone hlog hq hvotes, h.le_crown hnone⟩
  | append hl hterm hgood => exact ⟨h.setLeaderLog hl hterm hgood, h.le_setLeaderLog _ hl⟩
  | @follow c l hl hc hfrom hkeep => exact ⟨h.setLog hl hc hfrom hkeep, h.le_setLog l⟩
  | @acknowledge c i hl hi hlog => exact ⟨h.setAck hl hi hlog, h.le_setAck _ i⟩

end Steps

theorem Reachable.inv {Good : ℕ → E → Prop}
    (h : Reachable members Good s) : Inv members Good s := by
  induction h with
  | init => exact Inv.init members Good
  | step _ _ hs ih => exact (ih.step hs).1

end Consensus
