import RaftKV.Guarantees.Safety

/-!
# Agreement of logs

Any two running nodes agree, after every run (`logs_agree`) : their logs are the same up to an
index where they have the same term, up to what both have committed, and up to what the one
counts for the other as its leader; and snapshots of one index are the same bytes. Behind this
is that every run is one of the abstract protocol, whose state the processes realize
(`cluster_refines`).
-/

namespace RaftKV

open Setting

/-- Two logs have the same entries up to an index, as far as both still have them. -/
def SameUpTo (a b : AbstractLog) (i : ℤ) : Prop :=
  ∀ j ≤ i, ∀ e e', a.get j = some e → b.get j = some e' → e = e'

/-- What the processes `p` of node `v` and `q` of node `w` have in common. -/
structure NodesAgree (clean : Prop) (s : Cluster) (v w : ℤ) (p q : Process) : Prop where
  terms : ∀ i : ℕ, 0 < (s.disk v).log.getTerm i →
    (s.disk v).log.getTerm i = (s.disk w).log.getTerm i →
    SameUpTo (s.disk v).log (s.disk w).log i
  commits : SameUpTo (s.disk v).log (s.disk w).log (min p.node.commitIndex q.node.commitIndex)
  matched : p.node.role = .leader → q.node.currentTerm = p.node.currentTerm →
    p.node.matchIndex w ≤ (s.disk w).log.lastIndex ∧
      SameUpTo (s.disk v).log (s.disk w).log (p.node.matchIndex w)
  snapshots : clean → (s.disk v).log.snapshot.index = (s.disk w).log.snapshot.index →
    0 < (s.disk v).log.snapshot.index → (s.disk v).log.snapshot = (s.disk w).log.snapshot

theorem LogRep.getElem_of_get {a : AbstractLog} {L : List LogEntry} (h : LogRep a L) {j : ℤ}
    {e : LogEntry} (he : a.get j = some e) : ∃ k : ℕ, j = k + 1 ∧ L[k]? = some e := by
  have hbase := h.base_le.1
  have hj : a.snapshot.index < j := by
    by_contra hle
    rw [AbstractLog.get, if_pos (by omega)] at he
    cases he
  obtain ⟨k, rfl⟩ : ∃ k : ℕ, j = k + 1 := ⟨(j - 1).toNat, by omega⟩
  exact ⟨k, rfl, (h.get_eq (by omega)).symm.trans he⟩

theorem SameUpTo.of_take {a b : AbstractLog} {L L' : List LogEntry} (ha : LogRep a L)
    (hb : LogRep b L') {i : ℕ} (h : L.take i = L'.take i) : SameUpTo a b i := by
  intro j hj e e' he he'
  obtain ⟨k, rfl, hk⟩ := ha.getElem_of_get he
  obtain ⟨k', hkk, hk'⟩ := hb.getElem_of_get he'
  obtain rfl : k = k' := by omega
  rw [← List.getElem?_take_of_lt (show k < i by omega)] at hk hk'
  exact Option.some.inj (hk.symm.trans (h ▸ hk'))

section

variable {S : Setting} {h : History} {v w : ℤ} {p q : Process} {a b : AbstractLog} {sm sm' : Store}
  (hinv : Consensus.Inv S.members S.Good h) (hv : S.CoreOK h v p.node a sm p.exec)
  (hw : S.CoreOK h w q.node b sm' q.exec)
include hinv hv hw

theorem sameUpTo_term {i : ℕ} (hi : 0 < a.getTerm i) (heq : a.getTerm i = b.getTerm i) :
    SameUpTo a b i := by
  obtain ⟨hlen, ht⟩ := hv.settled.rep.of_getTerm (i := i) (by omega)
  obtain ⟨hlen', ht'⟩ := hw.settled.rep.of_getTerm (i := i) (by omega)
  refine .of_take hv.settled.rep hw.settled.rep ?_
  cases i with
  | zero => rfl
  | succ k =>
    rw [lastTerm_take_succ hlen] at ht
    rw [lastTerm_take_succ hlen'] at ht'
    exact hinv.take_eq_of_term_eq (hinv.log_matched v) (hinv.log_matched w) hlen hlen'
      (ht.symm.trans (heq.trans ht'))

/-- What two nodes have committed is the same, up to where the shorter one is. -/
theorem take_commit_eq {i : ℕ} (hi : i ≤ p.node.commitIndex) (hi' : i ≤ q.node.commitIndex) :
    (h.log v).take i = (h.log w).take i := by
  obtain ⟨-, k, -, hk, -, hle, -, hdec⟩ := hv.progress
  obtain ⟨-, k', -, hk', -, hle', -, hdec'⟩ := hw.progress
  refine hinv.decided_eq (hdec.initial (List.take_prefix_take_left (by omega)))
    (hdec'.initial (List.take_prefix_take_left (by omega))) ?_
  rw [List.length_take, List.length_take]
  omega

/-- A follower of the leader's term has what it acknowledged. -/
theorem take_ack_prefix (hrole : p.node.role = .leader)
    (hterm : q.node.currentTerm = p.node.currentTerm) {k : ℕ} (hk : k ≤ h.ack w (h.term v)) :
    k ≤ (h.log w).length ∧ (h.log v).take k = (h.log w).take k := by
  have hl := hv.leader hrole
  have hown := hinv.own_log hl rfl
  have hlen : k ≤ (h.log v).length := by
    rcases Nat.eq_zero_or_pos k with rfl | hpos
    · exact Nat.zero_le _
    · rw [hown]
      exact hk.trans (hinv.ack_bound (hpos.trans_le hk)).2.2
  have hsame : h.term w = h.term v := by rw [← hw.term, ← hv.term, hterm]
  have hpre : (h.log v).take k <+: h.log w := by
    rw [hown]
    rcases hinv.log_survives w _ k (by omega) hk with hpre | ⟨u, hlt, hlt', -⟩
    · exact hpre
    · omega
  have htake := List.prefix_iff_eq_take.mp hpre
  have hle := hpre.length_le
  rw [List.length_take, min_eq_left hlen] at htake hle
  exact ⟨hle, htake⟩

theorem snapshot_eq (hclean : S.clean) (heq : a.snapshot.index = b.snapshot.index)
    (hpos : 0 < a.snapshot.index) : a.snapshot = b.snapshot := by
  have hdata := hv.settled.data.2 hclean hpos
  have hdata' := hw.settled.data.2 hclean (heq ▸ hpos)
  obtain ⟨base, hb, -, -, ht⟩ := hv.settled.rep
  obtain ⟨base', hb', -, -, ht'⟩ := hw.settled.rep
  obtain ⟨_, _, -, hcom, hle, -, hsnap, -⟩ := hv.progress
  obtain ⟨_, _, -, hcom', hle', -, hsnap', -⟩ := hw.progress
  obtain rfl : base = base' := by omega
  have htake := take_commit_eq hinv hv hw (i := base) (by omega) (by omega)
  rw [hb, Int.toNat_natCast] at hdata
  rw [hb', Int.toNat_natCast] at hdata'
  rcases hs : a.snapshot with ⟨i, t, d⟩
  rcases hs' : b.snapshot with ⟨i', t', d'⟩
  simp_all

end

variable {M : Membership} {actions : List Action} {v w : ℤ} {p q : Process}

theorem logs_agree (hv : (run M actions).up v = some p) (hw : (run M actions).up w = some q) :
    NodesAgree (∀ a ∈ actions, a.Clean) (run M actions) v w p q := by
  obtain ⟨Γ, time, h⟩ := exists_clusterOK M actions
  have hinv := h.inv
  have hcv : CoreOK _ Γ.hist v p.node _ _ p.exec := (h.loose v p hv).core
  have hcw : CoreOK _ Γ.hist w q.node _ _ q.exec := (h.loose w q hw).core
  have hrv := hcv.settled.rep
  have hrw := hcw.settled.rep
  refine ⟨fun i => sameUpTo_term hinv hcv hcw, ?_, fun hrole hterm => ?_,
    snapshot_eq hinv hcv hcw⟩
  · obtain ⟨-, k, -, hk, -⟩ := hcv.progress
    obtain ⟨-, k', -, hk', -⟩ := hcw.progress
    rw [hk, hk', ← Nat.cast_min]
    exact .of_take hrv hrw (take_commit_eq hinv hcv hcw (by omega) (by omega))
  · obtain ⟨k, hk, hack⟩ := ((h.loose v p hv).lead hrole).matched w (h.member w q hw)
    obtain ⟨hle, htake⟩ := take_ack_prefix hinv hcv hcw hrole hterm hack
    rw [hk, hrw.lastIndex_eq]
    exact ⟨by omega, .of_take hrv hrw htake⟩

theorem logs_agree_trio :
    ∃ p q, (run trio writeRun).up 1 = some p ∧ (run trio writeRun).up 2 = some q ∧
      NodesAgree (∀ a ∈ writeRun, a.Clean) (run trio writeRun) 1 2 p q := by
  have h₁ : ((run trio writeRun).up 1).isSome = true := by decide +kernel
  have h₂ : ((run trio writeRun).up 2).isSome = true := by decide +kernel
  obtain ⟨p, hp⟩ := Option.isSome_iff_exists.mp h₁
  obtain ⟨q, hq⟩ := Option.isSome_iff_exists.mp h₂
  exact ⟨p, q, hp, hq, logs_agree hp hq⟩

/-! ## The abstract protocol -/

/-- What a process of node `v` realizes of a state of the protocol. -/
structure Realizes (M : Membership) (h : History) (v : ℤ) (n : Node) (log : AbstractLog) :
    Prop where
  term : n.currentTerm = h.term v
  vote : n.votedFor = (h.ballot v (h.term v)).getD (-1)
  logical : LogRep log (h.log v)
  leader : n.role = .leader →
    h.leader (h.term v) = some v ∧ h.leaderLog (h.term v) = h.log v
  committed : ∃ k : ℕ, n.commitIndex = k ∧ k ≤ (h.log v).length ∧
    Consensus.Decided M.peers.toFinset h (h.term v) ((h.log v).take k)

/-- **The cluster refines the protocol.** The processes after a run realize a state that the
protocol reaches with entries as leaders write them in that run. -/
theorem cluster_refines (M : Membership) (actions : List Action) : ∃ h : History,
    Consensus.Reachable M.peers.toFinset (plain M actions).Good h ∧
      ∀ v p, (run M actions).up v = some p →
        Realizes M h v p.node ((run M actions).disk v).log := by
  obtain ⟨Γ, time, h⟩ := exists_clusterOK M actions
  refine ⟨Γ.hist, h.shared.reach, fun v p hup => ?_⟩
  have hcore : CoreOK _ Γ.hist v p.node _ _ p.exec := (h.loose v p hup).core
  obtain ⟨a, k, -, hk, -, hle, -, hdec⟩ := hcore.progress
  refine ⟨hcore.term, hcore.vote, hcore.settled.rep, fun hrole => ?_, k, hk, hle, hdec⟩
  have hl := hcore.leader hrole
  exact ⟨hl, (h.inv.own_log hl rfl).symm⟩

end RaftKV
