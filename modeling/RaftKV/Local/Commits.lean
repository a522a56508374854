import RaftKV.Local.Strays

/-!
# The commit index that a leader selects

`AdvanceCommitIndex` looks at one index only : the greatest that a majority has matched. If its
entry is of an older term, so are all entries before it, since terms do not decrease along the
log; hence no smaller index of the current term is missed. For that the index it looks at has to
be in the log; what the other members are taken to have matched does not matter.
-/

namespace RaftKV

namespace Node

variable {n : Node} {log : AbstractLog}

/-- The commit index, and the indexes it may move to. -/
def commitChoices (n : Node) (log : AbstractLog) : Set ℤ :=
  {N | N = n.commitIndex ∨
    n.commitIndex < N ∧ n.quorumSize ≤ n.matchedBy N ∧ log.getTerm N = n.currentTerm}

/-- The commit index after the greatest majority index was looked at. -/
def selectCommit (n : Node) (log : AbstractLog) : ℤ :=
  if n.commitIndex < n.majorityMatch ∧ log.getTerm n.majorityMatch = n.currentTerm then
    n.majorityMatch
  else n.commitIndex

/-- **No index of the current term is missed**, as long as the majority index is in the log. -/
theorem isGreatest_selectCommit (hpeers : n.allPeers ≠ []) (hw : log.WF)
    (hcommit : 0 ≤ n.commitIndex) (hterm : 0 < n.currentTerm) (hlast : log.lastTerm ≤ n.currentTerm)
    (hin : n.majorityMatch ≤ log.lastIndex) :
    IsGreatest (n.commitChoices log) (n.selectCommit log) := by
  obtain ⟨hquorum, hmax⟩ := isGreatest_majorityMatch hpeers
  -- an index of the current term makes all that follow it of the current term
  have hreach : ∀ N, n.commitIndex < N → n.quorumSize ≤ n.matchedBy N →
      log.getTerm N = n.currentTerm →
      N ≤ n.majorityMatch ∧ log.getTerm n.majorityMatch = n.currentTerm := by
    intro N hlt hcount hN
    have hle : N ≤ n.majorityMatch := hmax hcount
    have hsnap := AbstractLog.snapshot_le_of_getTerm (a := log) (i := N) (by omega) (by omega)
    have hlow := hw.getTerm_mono (by omega) hsnap hle hin
    have hhigh := hw.getTerm_mono (by omega) (hsnap.trans hle) hin le_rfl
    rw [hw.getTerm_lastIndex] at hhigh
    exact ⟨hle, by omega⟩
  rw [selectCommit]
  by_cases hmove : n.commitIndex < n.majorityMatch ∧ log.getTerm n.majorityMatch = n.currentTerm
  · rw [if_pos hmove]
    refine ⟨.inr ⟨hmove.1, hquorum, hmove.2⟩, ?_⟩
    rintro N (rfl | ⟨hlt, hcount, hN⟩)
    · exact hmove.1.le
    · exact (hreach N hlt hcount hN).1
  rw [if_neg hmove]
  refine ⟨.inl rfl, ?_⟩
  rintro N (rfl | ⟨hlt, hcount, hN⟩)
  · exact le_rfl
  · obtain ⟨hle, hmajority⟩ := hreach N hlt hcount hN
    exact absurd ⟨hlt.trans_le hle, hmajority⟩ hmove

end Node

namespace Local

open RaftM

theorem advanceCommitIndex_eq (c : Context) : advanceCommitIndex c =
      applyCommitted
        { c with node := { c.node with commitIndex := c.node.selectCommit c.log } } := by
  change applyCommitted { c with
    node := if c.node.commitIndex < c.node.majorityMatch ∧
        c.log.getTerm c.node.majorityMatch = c.node.currentTerm then
      { c.node with commitIndex := c.node.majorityMatch } else c.node } = _
  rw [Node.selectCommit]
  split_ifs <;> rfl

/-- **The commit index that `AdvanceCommitIndex` selects** is the greatest that the log and the
matched indexes allow, and what is committed is then applied. -/
theorem commit_selection (c : Context) (hpeers : c.node.allPeers ≠ []) (hw : c.log.WF)
    (hcommit : 0 ≤ c.node.commitIndex) (hterm : 0 < c.node.currentTerm)
    (hlast : c.log.lastTerm ≤ c.node.currentTerm)
    (hin : c.node.majorityMatch ≤ c.log.lastIndex) :
    ∃ N, IsGreatest (c.node.commitChoices c.log) N ∧ c.node.commitIndex ≤ N ∧
      advanceCommitIndex c = applyCommitted { c with node := { c.node with commitIndex := N } } ∧
      (Requests c.node → ∀ c', advanceCommitIndex c = .ok () c' → c'.node.commitIndex = N) := by
  have hgreatest := Node.isGreatest_selectCommit hpeers hw hcommit hterm hlast hin
  refine ⟨_, hgreatest, hgreatest.2 (.inl rfl), advanceCommitIndex_eq c, fun hr c' hret => ?_⟩
  rw [advanceCommitIndex_eq] at hret
  obtain ⟨-, -, happ, -⟩ :=
    wp_of_ok (applyCommitted_does (T := fun _ => True) (by exact hr) trivial) hret
  exact congrArg Core.commitIndex happ.same

/-- The commit index after a method that returns. -/
def commitAfter (m : RaftM Unit) (c : Context) : Option ℤ :=
  match m c with
  | .ok _ c' => some c'.node.commitIndex
  | .error _ _ => none

theorem exists_of_commitAfter {m : RaftM Unit} {c : Context} {N : ℤ}
    (h : commitAfter m c = some N) : ∃ c', m c = .ok () c' ∧ c'.node.commitIndex = N := by
  rw [commitAfter] at h
  cases hm : m c with
  | ok a c' =>
    rw [hm] at h
    exact ⟨c', rfl, Option.some.inj h⟩
  | error e c' =>
    rw [hm] at h
    cases h

/-- The leader of five nodes : two members have matched little, and one is taken to have matched
more than there is. -/
def ofFive : Context where
  node := { nodeId := 1, allPeers := [1, 2, 3, 4, 5], running := true, role := .leader,
            currentTerm := 2, votedFor := 1, leaderId := 1, commitIndex := 1, lastApplied := 1,
            matchIndex := fun p => if p = 1 then 5 else if p = 2 then 1 else if p = 3 then 9
              else if p = 4 then 4 else 2 }
  log := { entries := [⟨1, 1, []⟩, ⟨2, 1, []⟩, ⟨3, 2, []⟩, ⟨4, 2, []⟩, ⟨5, 2, []⟩],
           hardState := some (2, 1) }
  sm := ⟨∅, 1⟩
  exec := {}
  net := []
  trace := []
  incarnation := 1
  replyTo := 0
  env := { clock := 0 }

/-- The third greatest matched index, of an entry of the term of the leader, is committed. -/
theorem commit_selection_ofFive :
    IsGreatest (ofFive.node.commitChoices ofFive.log) 4 ∧
      ∃ c', advanceCommitIndex ofFive = .ok () c' ∧ c'.node.commitIndex = 4 := by
  have hw : ofFive.log.WF := ⟨.inl rfl, by decide, by decide, by decide, by decide, by decide,
    by decide, by decide, fun s hs => (nomatch hs)⟩
  obtain ⟨N, hN, -, -, hret⟩ := commit_selection ofFive (by decide) hw (by decide) (by decide)
    (by decide) (by decide)
  obtain ⟨c', hc', hcommit⟩ := exists_of_commitAfter
    (show commitAfter advanceCommitIndex ofFive = some 4 by decide +kernel)
  rw [← hret (fun u m hm => by cases hm) c' hc', hcommit] at hN
  exact ⟨hN, c', hc', hcommit⟩

/-- The leader of one node, with an entry of its term. -/
def alone (matched : ℤ) : Context where
  node := { nodeId := 1, allPeers := [1], running := true, role := .leader, currentTerm := 1,
            votedFor := 1, leaderId := 1, matchIndex := fun _ => matched }
  log := { entries := [⟨1, 1, []⟩], hardState := some (1, 1) }
  sm := ⟨∅, 0⟩
  exec := {}
  net := []
  trace := []
  incarnation := 1
  replyTo := 0
  env := { clock := 0 }

/-- A leader whose own matched index is after the end of its log commits nothing, though the index
of its entry is one it may move to. -/
theorem commit_missed_beyond_log :
    1 ∈ (alone 2).node.commitChoices (alone 2).log ∧
      commitAfter advanceCommitIndex (alone 2) = some 0 :=
  ⟨.inr (by decide), by decide +kernel⟩

end Local

end RaftKV
