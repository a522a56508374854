import RaftKV.Local.Strays

/-!
# The consistency check of `AppendEntries`

What a request does to the log of a follower that takes it or refuses it. A request that is
taken leaves its entries in the log, except those that a snapshot covers, and cuts off what
followed an entry of another term; without such an entry the log is never shortened
(`Matched`). A request that is refused changes nothing, and the hint in the reply is before
the entry that the leader asked for (`Rejected`).
-/

namespace RaftKV

/-! ## The hint -/

section Hint

variable {a : AbstractLog}

theorem conflictSearch_le {term : ℤ} : ∀ (turns : ℕ) {low high : ℤ}, low ≤ high →
    conflictSearch a term turns low high ≤ high
  | 0, _, _, _ => le_rfl
  | turns + 1, low, high, hle => by
    rw [conflictSearch]
    by_cases hdone : high - low ≤ 1
    · rw [if_pos hdone]
    rw [if_neg hdone]
    dsimp only
    split_ifs
    · have hmid : low + (high - low) / 2 ≤ high := by omega
      exact (conflictSearch_le turns (by omega)).trans hmid
    · exact conflictSearch_le turns (by omega)

theorem conflictIndex_le {index : ℤ} (h : a.snapshot.index ≤ index) :
    conflictIndex a index ≤ index := by
  rw [conflictIndex]
  dsimp only
  split_ifs
  · exact le_rfl
  · exact h
  · exact conflictSearch_le _ h

theorem rejectHint_lt {prev : ℤ} (hpos : 0 < prev) (hsnap : a.snapshot.index ≤ prev) :
    rejectHint a prev < prev := by
  have hle := conflictIndex_le hsnap
  rw [rejectHint]
  dsimp only
  split_ifs <;> omega

end Hint

/-! ## Entries that conflict -/

/-- The log has another entry where the request has `e`. -/
def Conflicts (a : AbstractLog) (e : LogEntry) : Prop :=
  a.getTerm e.index ≠ -1 ∧ a.getTerm e.index ≠ e.term

section Extent

variable {a a' : AbstractLog} {term prev prevTerm commit : ℤ} {es missing : List LogEntry}

section

variable (h : Reconciled a commit es missing a') (hw : a.WF)
include h hw

/-- Without a conflict the log is kept and the missing entries follow it. -/
theorem Reconciled.kept_of_not_conflicts
    (hno : ∀ e ∈ es, ¬Conflicts a e) : a' = a ∧ ∀ e ∈ missing, a.lastIndex < e.index := by
  rcases h.log with hlog | ⟨e, rest, hm, hsnap, hin, hother, -, -⟩
  · exact hlog
  obtain ⟨kept, hes, -⟩ := h.kept
  refine absurd ⟨?_, hother⟩ (hno e (by rw [hes, hm]; simp))
  have := hw.getTerm_pos hsnap hin
  omega

/-- An entry that the log did not have with its term is in it as the request has it. -/
theorem Reconciled.get_of_new (hw' : AbstractLog.WF { a' with entries := a'.entries ++ missing })
    {e : LogEntry} (he : e ∈ es) (hsnap : a.snapshot.index < e.index)
    (hnew : a.getTerm e.index ≠ e.term) :
    AbstractLog.get { a' with entries := a'.entries ++ missing } e.index = some e := by
  obtain ⟨kept, hes, hkept⟩ := h.kept
  rcases List.mem_append.mp (hes ▸ he) with hk | hm
  · obtain ⟨hle, hterm⟩ := hkept e hk
    have := hw.getTerm_pos hsnap hle
    exact absurd (hterm.resolve_left (by omega)) hnew
  · exact hw'.get_eq_some_iff.mpr ⟨List.mem_append_right _ hm, rfl⟩

/-- What is before the first conflict stays. -/
theorem Reconciled.get_before {i : ℤ} (hi : i ≤ a.lastIndex)
    (hbefore : ∀ e ∈ es, Conflicts a e → i < e.index) :
    AbstractLog.get { a' with entries := a'.entries ++ missing } i = a.get i := by
  obtain ⟨kept, hes, -⟩ := h.kept
  rcases h.log with ⟨rfl, -⟩ | ⟨e, rest, hm, hsnap, hin, hother, -, rfl⟩
  · exact AbstractLog.get_append hi
  have hpos := hw.getTerm_pos hsnap hin
  have hlt := hbefore e (by rw [hes, hm]; simp) ⟨by omega, hother⟩
  have hlast := AbstractLog.lastIndex_cut hsnap hin
  rw [AbstractLog.get_append (by omega), AbstractLog.get_cut hsnap hlt]

/-- With a conflict the log ends with the entries of the request. -/
theorem Reconciled.cut_of_conflicts
    (hfit : EntriesFit term (prev + 1) prevTerm es) (hyes : ∃ e ∈ es, Conflicts a e) :
    a'.lastIndex + missing.length = prev + es.length := by
  obtain ⟨kept, hes, hkept⟩ := h.kept
  obtain ⟨e₀, he₀, hexists, hother⟩ := hyes
  have hmem : e₀ ∈ missing := by
    rw [hes] at he₀
    rcases List.mem_append.mp he₀ with hk | hm
    · exact absurd (hkept e₀ hk).2 (not_or.mpr ⟨hexists, hother⟩)
    · exact hm
  rcases h.log with ⟨rfl, hafter⟩ | ⟨e, rest, rfl, hsnap, hin, -, -, rfl⟩
  · exact absurd (AbstractLog.getTerm_after hw.snapshot_index_nonneg (hafter e₀ hmem)) hexists
  have hidx := (hes ▸ hfit).drop.index 0 (by simp)
  simp only [List.getElem_cons_zero, Nat.cast_zero, add_zero] at hidx
  rw [AbstractLog.lastIndex_cut hsnap hin, hes]
  simp only [List.length_append, List.length_cons]
  push_cast
  omega

theorem Reconciled.lastIndex_of_not_conflicts
    (hfit : EntriesFit term (prev + 1) prevTerm es) (ht0 : 0 ≤ prevTerm)
    (hmatch : a.getTerm prev = prevTerm) (hcommit : commit ≤ a.lastIndex)
    (hno : ∀ e ∈ es, ¬Conflicts a e) :
    a'.lastIndex + missing.length = max a.lastIndex (prev + es.length) ∧
      (missing ≠ [] → a.lastIndex ≤ prev + es.length) := by
  obtain ⟨hcovers, -⟩ := h.covers hw hfit ht0 hmatch hcommit
  obtain ⟨rfl, hafter⟩ := h.kept_of_not_conflicts hw hno
  obtain ⟨kept, hes, -⟩ := h.kept
  cases hm : missing with
  | nil =>
    rw [hm] at hcovers
    simp only [List.length_nil, Nat.cast_zero, add_zero] at hcovers ⊢
    exact ⟨(max_eq_left hcovers).symm, fun hne => absurd rfl hne⟩
  | cons e rest =>
    have hidx := (hes ▸ hfit).drop.index 0 (by simp [hm])
    simp only [hm, List.getElem_cons_zero, Nat.cast_zero, add_zero] at hidx
    have hlast := hafter e (by simp [hm])
    have hlen : (es.length : ℤ) = kept.length + missing.length := by
      rw [hes, List.length_append]
      push_cast
      rfl
    rw [← hm]
    exact ⟨by rw [max_eq_right]; all_goals omega, fun _ => by omega⟩

end

end Extent

end RaftKV

namespace RaftKV.Local

open RaftM

/-! ## What a request leaves -/

section Requests

variable {codec : EntryCodec} {x y : Core} {taken : Prop} {peer time : ℤ}
  {request : AppendEntries}

/-- What a request that was accepted leaves. -/
structure Settled (x : Core) (request : AppendEntries) (y : Core) : Prop where
  holds : Holds y.log request.prevLogIndex request.prevLogTerm request.entries
  commit : y.commitIndex = max x.commitIndex (min request.leaderCommit (covered request))

theorem Coherent.settled (h : Coherent codec x) (hcodec : Covers codec)
    (hv : AppendChecks x peer request) (hterm : x.currentTerm = request.term)
    (hmatch : x.log.getTerm request.prevLogIndex = request.prevLogTerm)
    (hy : x.Accepts taken peer request x₁) : Settled x request x₁ := by
  obtain ⟨missing, log, log', z, hrec, happ, hz, -, replies, rfl, -⟩ := hy
  have hlogged := h.logged_entries hcodec hv hterm hmatch hrec happ
  obtain ⟨-, rfl⟩ := AbstractLog.appendBatch_ok happ
  have hholds := hrec.holds h.logged.wf hv.entries hv.prevTerm hmatch hlogged.wf
  have hpos : ∀ e ∈ request.entries, 0 < e.index := fun e he => by
    have := hv.entries.first_le he
    have := hv.prev
    omega
  refine ⟨hz.log.holds hlogged.wf hpos hholds, ?_⟩
  dsimp only
  rw [hz.same]

/-- What a request that was taken makes of the log and the commit index. -/
structure Matched (x : Core) (request : AppendEntries) (y : Core) : Prop where
  entries : ∀ e ∈ request.entries, y.log.snapshot.index < e.index →
    y.log.getTerm e.index = e.term
  /-- An entry that was not there with its term is stored as the request has it. -/
  stored : ∀ e ∈ request.entries, y.log.snapshot.index < e.index →
    x.log.getTerm e.index ≠ e.term → y.log.get e.index = some e
  /-- What is before the first conflict stays as it is. -/
  before : ∀ i, y.log.snapshot.index < i → i ≤ x.log.lastIndex →
    (∀ e ∈ request.entries, Conflicts x.log e → i < e.index) → y.log.get i = x.log.get i
  prev : y.log.snapshot.index ≤ request.prevLogIndex →
    y.log.getTerm request.prevLogIndex = request.prevLogTerm
  kept : (∀ e ∈ request.entries, ¬Conflicts x.log e) →
    y.log.lastIndex = max x.log.lastIndex (covered request) ∧
      ∀ i, covered request < i → y.log.snapshot.index < i → y.log.get i = x.log.get i
  cut : (∃ e ∈ request.entries, Conflicts x.log e) → y.log.lastIndex = covered request
  commit : y.commitIndex = max x.commitIndex (min request.leaderCommit (covered request))

/-- What a request that was refused leaves, with the hint in the reply. -/
structure Rejected (x : Core) (request : AppendEntries) (hint : ℤ) (y : Core) : Prop where
  entries : y.log.entries = x.log.entries
  snapshot : y.log.snapshot = x.log.snapshot
  commit : y.commitIndex = x.commitIndex
  hint : x.log.snapshot.index ≤ request.prevLogIndex → hint < request.prevLogIndex

theorem Settled.getTerm (h : Settled x request y) (hw : y.log.WF) {e : LogEntry}
    (he : e ∈ request.entries) (hi : y.log.snapshot.index < e.index) :
    y.log.getTerm e.index = e.term := by
  obtain ⟨hle, hterm⟩ := h.holds.entries e he
  have := hw.getTerm_pos hi hle
  exact hterm.resolve_left (by omega)

/-- A leader that is followed leaves the node in its term and its role. -/
theorem Core.FollowsLeader.same (h : x.FollowsLeader time taken peer request y) :
    y.ident = x.ident ∧ y.currentTerm = x.currentTerm ∧ y.role = x.role := by
  obtain ⟨deadline, -, h⟩ := h
  split_ifs at h
  · obtain ⟨missing, log, log', z, -, -, hz, -, replies, rfl, -⟩ := h
    have hsame := hz.same
    refine ⟨?_, ?_, ?_⟩
    · change z.ident = x.ident
      rw [hsame]
      rfl
    · change z.currentTerm = x.currentTerm
      rw [hsame]
    · change z.role = x.role
      rw [hsame]
  · obtain ⟨replies, rfl, -⟩ := h
    exact ⟨rfl, rfl, rfl⟩

theorem Coherent.matched (h : Coherent codec x) (hcodec : Covers codec)
    (hv : AppendChecks x peer request) (hterm : x.currentTerm = request.term)
    (hmatch : x.log.getTerm request.prevLogIndex = request.prevLogTerm)
    (hy : x.Accepts taken peer request y) : Matched x request y := by
  have hset := h.settled hcodec hv hterm hmatch hy
  have hwf := (h.accepts hcodec hv hterm hmatch hy).1.coherent.logged.wf
  obtain ⟨missing, log, log', z, hrec, happ, hz, -, replies, rfl, -⟩ := hy
  have hw' := (h.logged_entries hcodec hv hterm hmatch hrec happ).wf
  obtain ⟨-, rfl⟩ := AbstractLog.appendBatch_ok happ
  -- compaction moves the snapshot only
  have hlast : z.log.lastIndex = log.lastIndex + missing.length :=
    (hz.log.trimmed hw').lastIndex.trans (AbstractLog.lastIndex_append missing)
  have hgrows : x.log.snapshot.index ≤ z.log.snapshot.index := by
    have hle := (hz.log.trimmed hw').lower
    rwa [show log.snapshot = x.log.snapshot from hrec.same.1] at hle
  refine ⟨fun e he hi => hset.getTerm hwf he hi, fun e he hi hnew => ?_,
    fun i hi hlast' hbefore => ?_, fun hi => hset.holds.prev (.inr hi), fun hno => ?_,
    fun hyes => ?_, hset.commit⟩
  · exact (hz.log.get_eq hi).trans (hrec.get_of_new h.logged.wf hw' he (hgrows.trans_lt hi) hnew)
  · exact (hz.log.get_eq hi).trans (hrec.get_before h.logged.wf hlast' hbefore)
  · obtain ⟨hend, hshort⟩ := hrec.lastIndex_of_not_conflicts h.logged.wf hv.entries hv.prevTerm
      hmatch h.commit hno
    obtain ⟨rfl, -⟩ := hrec.kept_of_not_conflicts h.logged.wf hno
    refine ⟨hlast.trans hend, fun i hi hsnap => ?_⟩
    refine (hz.log.get_eq hsnap).trans ?_
    by_cases hnil : missing = []
    · rw [hnil, List.append_nil]
    -- the request reaches beyond the log, so neither has an entry there
    have hle := hshort hnil
    have hnone : ∀ {b : AbstractLog}, b.lastIndex ≤ covered request → b.get i = none :=
      fun {b} hb => by
        rw [← Option.not_isSome_iff_eq_none, AbstractLog.get_isSome_iff]
        omega
    rw [hnone, hnone hle]
    rw [AbstractLog.lastIndex_append, covered]
    omega
  · exact hlast.trans (hrec.cut_of_conflicts h.logged.wf hv.entries hyes)

theorem Matched.of_log {w : Core} {hard : Option (ℤ × ℤ)} (h : Matched w request y)
    (hlog : w.log = { x.log with hardState := hard }) (hcommit : w.commitIndex = x.commitIndex) :
    Matched x request y := by
  obtain ⟨hentries, hstored, hbefore, hprev, hkept, hcut, hnow⟩ := h
  rw [hlog] at hstored hbefore hkept hcut
  rw [hcommit] at hnow
  exact ⟨hentries, hstored, hbefore, hprev, hkept, hcut, hnow⟩

/-- The reply to a request of the current term, and what the request did. -/
def Responds (x : Core) (peer : ℤ) (request : AppendEntries) (y : Core) : Prop :=
  y.currentTerm = request.term ∧ ∃ success last,
    y.replies = x.replies ++
      [(peer, .appendEntriesResponse ⟨request.term, success, last, request.rpcId⟩)] ∧
    if success = true then last = covered request ∧ Matched x request y
    else Rejected x request last y

theorem Coherent.responds {w : Core} (h : Coherent codec w) (hcodec : Covers codec)
    (hv : AppendChecks w peer request) (hterm : w.currentTerm = request.term)
    (hlog : w.log = { x.log with hardState := w.log.hardState })
    (hcommit : w.commitIndex = x.commitIndex)
    (hreplies : w.replies = x.replies) (ht : taken)
    (hy : w.FollowsLeader time taken peer request y) :
    Responds x peer request y := by
  refine ⟨hy.same.2.1.trans hterm, ?_⟩
  generalize w.log.hardState = hard at hlog
  obtain ⟨deadline, -, hy⟩ := hy
  have hheard : Coherent codec { w with leaderId := peer, electionDeadline := deadline } :=
    { h with }
  split_ifs at hy with hmatch
  · have hm := hheard.matched hcodec { hv with } hterm hmatch hy
    obtain ⟨missing, log, log', z, -, -, hz, -, replies, rfl, hr⟩ := hy
    refine ⟨true, covered request, ?_, ?_⟩
    · change z.replies ++ replies = _
      rw [hr ht, hz.same]
      dsimp only [appendReply]
      rw [hreplies, hterm]
    · rw [if_pos rfl]
      exact ⟨rfl, hm.of_log hlog hcommit⟩
  · obtain ⟨replies, rfl, hr⟩ := hy
    refine ⟨false, rejectHint w.log request.prevLogIndex, ?_, ?_⟩
    · change w.replies ++ replies = _
      rw [hr ht, hreplies, appendReply, hterm]
    rw [if_neg Bool.false_ne_true]
    refine ⟨by dsimp only; rw [hlog], by dsimp only; rw [hlog], hcommit, fun hsnap => ?_⟩
    have hpos : 0 < request.prevLogIndex := by
      refine lt_of_le_of_ne hv.prev fun hzero => hmatch ?_
      rw [← hzero, hv.zero hzero.symm]
      rfl
    rw [hlog]
    exact rejectHint_lt hpos hsnap

/-- A request whose term is not old is answered in its term. -/
theorem Coherent.handlesAppend_responds (h : Coherent codec x) (hcodec : Covers codec)
    (hvalid : request.valid x.ident peer = true) (hterm : request.term ≤ int32Max)
    (hnew : x.currentTerm ≤ request.term) (ht : taken)
    (hy : x.HandlesAppend time taken peer request y) : Responds x peer request y := by
  have hv := appendChecks_of_valid hvalid
  rw [Core.HandlesAppend, if_pos hvalid, if_neg (not_lt.mpr hnew)] at hy
  split_ifs at hy with hfollow
  · obtain ⟨deadline, hy⟩ := hy
    refine (h.follow hterm deadline).coherent.responds hcodec (hv.follow _ _) ?_ ?_ ?_ ?_ ht hy
    · rw [Core.follow_currentTerm]
      exact max_eq_right hnew
    · exact congrArg Core.log (x.adopt_eq request.term)
    · exact x.adopt_commitIndex _
    · exact x.follow_replies _ _
  · push Not at hfollow
    exact h.responds hcodec hv (by omega) rfl rfl rfl ht hy

end Requests

/-! ## The handler -/

/-- **The consistency check of `AppendEntries`.** A valid request whose term is not old is answered
in its term, and does to the log what the answer says. Without a conflict it never shortens the
log. The states of a run meet the hypotheses (`hosts_strayRun`). -/
theorem append_consistent (codec : EntryCodec) (hcodec : Covers codec) (c : Context)
    (hc : Coherent codec (core c)) (hr : Requests c.node) (peer : ℤ) (request : AppendEntries)
    (hm : Typed (.appendEntries request)) (hvalid : request.valid c.node peer = true)
    (hterm : c.node.currentTerm ≤ request.term) (hs : c.env.sends = []) (c' : Context)
    (hret : handleAppendEntries peer request c = .ok () c') :
    Responds (core c) peer request (core c') ∧
      ((∀ e ∈ request.entries, ¬Conflicts c.log e) → c.log.lastIndex ≤ c'.log.lastIndex) := by
  have hdoes : Does (handleAppendEntries peer request) c _ _ :=
    input_does (.deliver ⟨peer, c.node.nodeId, c.incarnation, 0, .appendEntries request⟩) hr
      hc.logged.wf.snapshot_index_nonneg hc.logged (Coherent.closed_logged codec)
      (hc.tears hcodec hm)
  obtain ⟨-, -, hy⟩ := wp_of_ok hdoes hret
  have hresp := hc.handlesAppend_responds hcodec hvalid hm.1.2 hterm hs hy
  refine ⟨hresp, fun hno => ?_⟩
  obtain ⟨-, success, last, -, hout⟩ := hresp
  split_ifs at hout
  · have hlast := (hout.2.kept hno).1
    have hlast : c'.log.lastIndex = max c.log.lastIndex (covered request) := hlast
    omega
  · have hlast : c'.log.lastIndex = c.log.lastIndex := by
      rw [AbstractLog.lastIndex, AbstractLog.lastIndex, show c'.log.entries = _ from hout.entries,
        show c'.log.snapshot = _ from hout.snapshot]
      rfl
    exact hlast.ge

/-- Node 1 of two starts. -/
def started : List Action :=
  [.restart 1 false { clock := 0 }, .call 1 .start { clock := 0 }]

theorem typed_started : ∀ a ∈ started, TypedAction a := by
  intro a ha
  simp only [started, List.mem_cons, List.not_mem_nil, or_false] at ha
  rcases ha with rfl | rfl <;> trivial

/-- Node 1 of two installs a snapshot at index 7 and takes two entries after it. -/
def filled : List Action :=
  handed 7 ++ [.call 1 (.deliver ⟨2, 1, 1, 0,
    .appendEntries ⟨1, 2, 7, 1, [⟨8, 1, []⟩, ⟨9, 1, [2]⟩], 7, 2⟩⟩) { clock := 2 * ms }]

theorem typed_filled : ∀ a ∈ filled, TypedAction a := by
  intro a ha
  rcases List.mem_append.mp ha with ha | ha
  · exact typed_handed (by decide) a ha
  · rw [List.mem_singleton.mp ha]
    exact (by decide : Typed (.appendEntries ⟨1, 2, 7, 1, [⟨8, 1, []⟩, ⟨9, 1, [2]⟩], 7, 2⟩))

/-- The first entry is there, the second one conflicts, and the third one is new. -/
def overlapping : AppendEntries :=
  ⟨2, 2, 7, 1, [⟨8, 1, []⟩, ⟨9, 2, [3]⟩, ⟨10, 2, [4]⟩], 8, 3⟩

/-- The handler takes the request : the conflict is cut off, and the new entries are stored. -/
theorem append_consistent_overlapping :
    ∃ p c', (strayRun duo filled).up 1 = some p ∧
      handleAppendEntries 2 overlapping ((strayRun duo filled).context 1 p 1 { clock := 3 * ms }) =
        .ok () c' ∧
      Responds (core ((strayRun duo filled).context 1 p 1 { clock := 3 * ms })) 2 overlapping
        (core c') ∧
      ((strayRun duo filled).disk 1).log.entries = [⟨8, 1, []⟩, ⟨9, 1, [2]⟩] ∧
      c'.log.entries = overlapping.entries := by
  have hany : ((strayRun duo filled).up 1).any (fun p =>
      overlapping.valid p.node 2 && decide (p.node.currentTerm ≤ 2) &&
      returned (handleAppendEntries 2 overlapping)
        ((strayRun duo filled).context 1 p 1 { clock := 3 * ms })
        fun c' => c'.log.entries = overlapping.entries) = true := by decide +kernel
  obtain ⟨p, hp, hok⟩ := (Option.any_eq_true _ _).mp hany
  rw [Bool.and_eq_true, Bool.and_eq_true, decide_eq_true_eq] at hok
  obtain ⟨⟨hvalid, hterm⟩, hret⟩ := hok
  obtain ⟨c', hc', hentries⟩ := exists_of_returned hret
  have hhosts : Hosts RaftLog.flatCodec (strayRun duo filled) :=
    hosts_strayRun covers_flatCodec (by decide) typed_filled
  exact ⟨p, c', hp, hc', (append_consistent RaftLog.flatCodec covers_flatCodec
    ((strayRun duo filled).context 1 p 1 { clock := 3 * ms })
    (hhosts.coherent_context hp 1 { clock := 3 * ms }) (hhosts.requests 1 p hp) 2 overlapping
    (by decide) hvalid hterm
    rfl c' hc').1,
    by decide +kernel, of_decide_eq_true hentries⟩

end RaftKV.Local
