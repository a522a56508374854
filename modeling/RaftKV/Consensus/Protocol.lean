import Mathlib

/-!
# Replicated logs by elected leaders

A protocol for a fixed set of members, over any type of node and any type of log entry
that carries the term it was written in. The state is global and records history : every
vote ever cast with the log of the voter then (`ballot`, `voteLog`), the leader of each term
with its log at its election and its log now (`leader`, `startLog`, `leaderLog`), and how
far each node has agreed with the leader of a term (`ack`). A node itself has a current term
and a log.

A step is made by one node. It adopts a term, votes for itself or for another, becomes
leader with the votes of a majority, appends to its own log as leader, replaces its log as
follower, or acknowledges a prefix of the leader's log. History only grows, and a step
leaves the part of the other nodes as it is (`Le`).
-/

set_option linter.unusedSectionVars false

namespace Consensus

/-- Log entries that carry a term. -/
class HasTerm (E : Type) where
  /-- The term an entry was written in. -/
  term : E → ℤ

export HasTerm (term)

variable {ι E : Type} [DecidableEq ι]

/-! ## Majorities -/

/-- A majority of the members. -/
def IsQuorum (members q : Finset ι) : Prop :=
  q ⊆ members ∧ members.card / 2 + 1 ≤ q.card

/-- Two majorities have a member in common. -/
theorem IsQuorum.inter {members q r : Finset ι} (hq : IsQuorum members q)
    (hr : IsQuorum members r) : ∃ w, w ∈ q ∧ w ∈ r := by
  by_contra hne
  push Not at hne
  have hdisj : Disjoint q r := Finset.disjoint_left.mpr hne
  have hcard := Finset.card_le_card (Finset.union_subset hq.1 hr.1)
  rw [Finset.card_union_of_disjoint hdisj] at hcard
  have := hq.2
  have := hr.2
  omega

/-! ## States -/

/-- The state of the protocol, with its history. -/
structure State (ι E : Type) where
  term : ι → ℤ
  log : ι → List E
  ballot : ι → ℤ → Option ι
  voteLog : ι → ℤ → List E
  leader : ℤ → Option ι
  startLog : ℤ → List E
  leaderLog : ℤ → List E
  ack : ι → ℤ → ℕ

namespace State

/-- Nothing has happened. -/
def init : State ι E where
  term _ := 0
  log _ := []
  ballot _ _ := none
  voteLog _ _ := []
  leader _ := none
  startLog _ := []
  leaderLog _ := []
  ack _ _ := 0

variable (s : State ι E) (v : ι)

/-- Node `v` is in term `t`. -/
def setTerm (t : ℤ) : State ι E :=
  { s with term := Function.update s.term v t }

/-- Node `v` votes for `c` in term `t`. -/
def cast (t : ℤ) (c : ι) : State ι E :=
  { s with
    ballot := fun w u => if w = v ∧ u = t then some c else s.ballot w u
    voteLog := fun w u => if w = v ∧ u = t then s.log v else s.voteLog w u }

/-- Node `v` is the leader of term `t`. -/
def crown (t : ℤ) : State ι E :=
  { s with
    leader := Function.update s.leader t (some v)
    startLog := Function.update s.startLog t (s.log v)
    leaderLog := Function.update s.leaderLog t (s.log v) }

/-- Node `v` has the log `l`. -/
def setLog (l : List E) : State ι E :=
  { s with log := Function.update s.log v l }

/-- Node `v`, leader of term `t`, has the log `l`. -/
def setLeaderLog (t : ℤ) (l : List E) : State ι E :=
  { s with
    log := Function.update s.log v l
    leaderLog := Function.update s.leaderLog t l }

/-- Node `v` agrees with the leader of term `t` on the first `i` entries. -/
def setAck (t : ℤ) (i : ℕ) : State ι E :=
  { s with ack := fun w u => if w = v ∧ u = t then max (s.ack w u) i else s.ack w u }

end State

/-! ## Steps -/

section Steps

variable [HasTerm E]

/-- The term at the end of a log. -/
def lastTerm (l : List E) : ℤ :=
  (l.getLast?.map term).getD 0

/-- The log `a` is at least as up to date as `b`. -/
def UpToDate (a b : List E) : Prop :=
  lastTerm b < lastTerm a ∨ lastTerm a = lastTerm b ∧ b.length ≤ a.length

/-- What node `v` may do. `Good i e` restricts the entries a leader writes at position `i`. -/
inductive Step (members : Finset ι) (Good : ℕ → E → Prop) (v : ι) :
    State ι E → State ι E → Prop
  | adopt {s : State ι E} {t : ℤ} (h : s.term v < t) : Step members Good v s (s.setTerm v t)
  | campaign {s : State ι E} {t : ℤ} (h : s.term v < t) (hpos : 0 < t) :
      Step members Good v s ((s.setTerm v t).cast v t v)
  | grant {s : State ι E} {c : ι} (hnone : s.ballot v (s.term v) = none)
      (hc : s.ballot c (s.term v) = some c)
      (hlog : UpToDate (s.voteLog c (s.term v)) (s.log v)) :
      Step members Good v s (s.cast v (s.term v) c)
  | elect {s : State ι E} {q : Finset ι} (hnone : s.leader (s.term v) = none)
      (hlog : s.voteLog v (s.term v) = s.log v) (hq : IsQuorum members q)
      (hvotes : ∀ w ∈ q, s.ballot w (s.term v) = some v) :
      Step members Good v s (s.crown v (s.term v))
  | append {s : State ι E} {es : List E} (hl : s.leader (s.term v) = some v)
      (hterm : ∀ e ∈ es, term e = s.term v)
      (hgood : ∀ i (hi : i < es.length), Good ((s.log v).length + i) es[i]) :
      Step members Good v s (s.setLeaderLog v (s.term v) (s.log v ++ es))
  | follow {s : State ι E} {c : ι} {l : List E} (hl : s.leader (s.term v) = some c) (hc : c ≠ v)
      (hfrom : l <+: s.log v ∨ l <+: s.leaderLog (s.term v))
      (hkeep : ∀ p, p <+: s.log v → p <+: s.leaderLog (s.term v) → p <+: l) :
      Step members Good v s (s.setLog v l)
  | acknowledge {s : State ι E} {c : ι} {i : ℕ} (hl : s.leader (s.term v) = some c)
      (hi : i ≤ (s.log v).length) (hlog : (s.log v).take i <+: s.leaderLog (s.term v)) :
      Step members Good v s (s.setAck v (s.term v) i)

/-- Runs of the protocol. -/
inductive Reachable (members : Finset ι) (Good : ℕ → E → Prop) : State ι E → Prop
  | init : Reachable members Good State.init
  | step {s s' : State ι E} {v : ι} (h : Reachable members Good s) (hv : v ∈ members)
      (hs : Step members Good v s s') : Reachable members Good s'

end Steps

/-! ## History grows -/

/-- History of `s` is kept in `s'`, and so is the part of the nodes other than `v`. -/
structure Le (v : ι) (s s' : State ι E) : Prop where
  term_le : ∀ w, s.term w ≤ s'.term w
  ballot : ∀ {w t c}, s.ballot w t = some c →
    s'.ballot w t = some c ∧ s'.voteLog w t = s.voteLog w t
  leader : ∀ {t c}, s.leader t = some c →
    s'.leader t = some c ∧ s'.startLog t = s.startLog t ∧ s.leaderLog t <+: s'.leaderLog t
  ack_le : ∀ w t, s.ack w t ≤ s'.ack w t
  other : ∀ {w}, w ≠ v → s'.term w = s.term w ∧ s'.log w = s.log w ∧
    s'.ballot w = s.ballot w ∧ s'.ack w = s.ack w
  other_leaderLog : ∀ {t c}, s.leader t = some c → c ≠ v → s'.leaderLog t = s.leaderLog t
  other_leader : ∀ {t c}, s'.leader t = some c → c ≠ v → s.leader t = some c

theorem Le.refl (v : ι) (s : State ι E) : Le v s s where
  term_le _ := le_rfl
  ballot h := ⟨h, rfl⟩
  leader h := ⟨h, rfl, List.prefix_rfl⟩
  ack_le _ _ := le_rfl
  other _ := ⟨rfl, rfl, rfl, rfl⟩
  other_leaderLog _ _ := rfl
  other_leader h _ := h

theorem Le.trans {v : ι} {s s' s'' : State ι E} (h : Le v s s') (h' : Le v s' s'') :
    Le v s s'' where
  term_le w := (h.term_le w).trans (h'.term_le w)
  ballot hb := by
    obtain ⟨h₁, e₁⟩ := h.ballot hb
    obtain ⟨h₂, e₂⟩ := h'.ballot h₁
    exact ⟨h₂, e₂.trans e₁⟩
  leader hl := by
    obtain ⟨h₁, e₁, p₁⟩ := h.leader hl
    obtain ⟨h₂, e₂, p₂⟩ := h'.leader h₁
    exact ⟨h₂, e₂.trans e₁, p₁.trans p₂⟩
  ack_le w t := (h.ack_le w t).trans (h'.ack_le w t)
  other hw := by
    obtain ⟨a₁, b₁, c₁, d₁⟩ := h.other hw
    obtain ⟨a₂, b₂, c₂, d₂⟩ := h'.other hw
    exact ⟨a₂.trans a₁, b₂.trans b₁, c₂.trans c₁, d₂.trans d₁⟩
  other_leaderLog hl hc :=
    (h'.other_leaderLog (h.leader hl).1 hc).trans (h.other_leaderLog hl hc)
  other_leader hl hc := h.other_leader (h'.other_leader hl hc) hc

end Consensus
