import RaftKV.Node.Handlers
import RaftKV.OrderStatistic
import RaftKV.Wp

/-!
# Loops of a node over its log

What the loops of a node over its log compute, for any log : the batch that `ApplyCommitted`
collects, the checks of `HandleAppendEntries` on the entries of a request, and what its loop
over them makes of the log (`Reconciled`). The log that the loop leaves ends with the entry
before the missing ones, so appending them keeps the order of terms (`Reconciled.chain`).
-/

namespace RaftKV

open RaftM

/-! ## Running a method -/

section Running

variable {α : Type} {Q : α → Context → Prop} {E : Halt → Context → Prop} {c : Context}

theorem wp_getNode {k : Node → RaftM α} : wp (getNode >>= k) Q E c = wp (k c.node) Q E c := rfl

theorem wp_getLog {k : AbstractLog → RaftM α} : wp (getLog >>= k) Q E c = wp (k c.log) Q E c := rfl

theorem wp_crashPoint {k : Unit → RaftM α} (he : ∀ e, E e c)
    (hk : ∀ after, wp (k ()) Q E { c with env := { c.env with crashAfter := after } }) :
    wp (crashPoint >>= k) Q E c := by
  rw [crashPoint, bind_assoc, wp_bind, wp_get]
  rcases c.env.crashAfter with _ | _ | n
  · exact hk c.env.crashAfter
  · exact he _
  · exact hk _

/-- A durable write happens as a whole or not at all. -/
theorem wp_writeLog {operation : String} {op : AbstractLog → Except String AbstractLog}
    {k : Unit → RaftM α} (he : ∀ e after, E e { c with env := { c.env with crashAfter := after } })
    (hk : ∀ log after, op c.log = .ok log →
      wp (k ()) Q E { c with log := log, env := { c.env with crashAfter := after } }) :
    wp (writeLog operation op >>= k) Q E c := by
  rw [writeLog, bind_assoc, wp_bind, wp_get]
  dsimp only
  cases hop : op c.log with
  | error text => exact he _ c.env.crashAfter
  | ok log =>
    dsimp only
    split_ifs
    · exact he _ none
    · rw [bind_assoc]
      exact wp_crashPoint (fun e => he e c.env.crashAfter) fun after => hk log after hop

end Running

/-! ## Appending and cutting -/

namespace AbstractLog

variable {a b : AbstractLog}

theorem checkAppend_of_serializes {serializes : LogEntry → Bool} {es : List LogEntry} :
    ∀ {last : ℤ}, checkAppend (fun _ => true) last es = .ok () →
      (∀ e ∈ es, serializes e = true) → checkAppend serializes last es = .ok () := by
  induction es with
  | nil => exact fun _ _ => rfl
  | cons e es ih =>
    intro last h hs
    rw [checkAppend] at h ⊢
    split_ifs at h with hbad
    rw [if_neg hbad, if_pos (hs e List.mem_cons_self)]
    exact ih h fun e' he' => hs e' (List.mem_cons_of_mem _ he')

theorem appendBatch_ok {serializes : LogEntry → Bool} {es : List LogEntry}
    (h : a.appendBatch serializes es = .ok b) : checkAppend serializes a.lastIndex es = .ok () ∧
      b = { a with entries := a.entries ++ es } := by
  rw [appendBatch] at h
  cases hc : checkAppend serializes a.lastIndex es with
  | error text =>
    rw [hc] at h
    cases h
  | ok u =>
    rw [hc] at h
    exact ⟨rfl, (Except.ok.inj h).symm⟩

@[simp] theorem lastIndex_append (es : List LogEntry) :
    lastIndex { a with entries := a.entries ++ es } = a.lastIndex + es.length := by
  simp [lastIndex, add_assoc]

@[simp] theorem lastTerm_append (es : List LogEntry) :
    lastTerm { a with entries := a.entries ++ es } =
      (es.getLast?.map LogEntry.term).getD a.lastTerm := by
  rcases List.eq_nil_or_concat es with rfl | ⟨l, e, rfl⟩
  · simp [lastTerm]
  · simp [lastTerm]

theorem lastTerm_append_le {es : List LogEntry} {term : ℤ} (hlast : a.lastTerm ≤ term)
    (hes : ∀ e ∈ es, e.term ≤ term) : lastTerm { a with entries := a.entries ++ es } ≤ term := by
  rw [lastTerm_append]
  cases he : es.getLast? with
  | none => exact hlast
  | some e => exact hes e (List.mem_of_getLast? he)

variable {i : ℤ}

/-- An append leaves the entries of a log alone. -/
theorem get_append {es : List LogEntry} (hi : i ≤ a.lastIndex) :
    get { a with entries := a.entries ++ es } i = a.get i := by
  by_cases hle : i ≤ a.snapshot.index
  · exact (if_pos hle).trans (if_pos hle).symm
  · refine (if_neg hle).trans (Eq.trans ?_ (if_neg hle).symm)
    rw [lastIndex] at hi
    exact List.getElem?_append_left (by dsimp only; omega)

theorem getTerm_append {es : List LogEntry} (hi : i ≤ a.lastIndex) :
    getTerm { a with entries := a.entries ++ es } i = a.getTerm i := by
  rw [getTerm, get_append hi]
  rfl

theorem WF.getTerm_of_mem (hw : a.WF) {e : LogEntry} (he : e ∈ a.entries) :
    e.index ≤ a.lastIndex ∧ a.getTerm e.index = e.term := by
  have hget := hw.get_eq_some_iff.mpr ⟨he, rfl⟩
  have hbounds := get_isSome_iff.mp (Option.isSome_iff_exists.mpr ⟨e, hget⟩)
  have hnn := hw.snapshot_index_nonneg
  refine ⟨hbounds.2, ?_⟩
  rw [getTerm, if_neg (by omega), if_neg (by omega), hget]
  rfl

theorem WF.getTerm_pos (hw : a.WF) (hlow : a.snapshot.index < i) (hhigh : i ≤ a.lastIndex) :
    0 < a.getTerm i := by
  obtain ⟨e, he⟩ := Option.isSome_iff_exists.mp (get_isSome_iff.mpr ⟨hlow, hhigh⟩)
  obtain ⟨hmem, rfl⟩ := hw.get_eq_some_iff.mp he
  rw [(hw.getTerm_of_mem hmem).2]
  exact hw.term_pos e hmem

/-- The terms of the log, the snapshot's first. -/
theorem getTerm_eq_getElem (h0 : 0 < i) (hlow : a.snapshot.index ≤ i) (hhigh : i ≤ a.lastIndex) :
    (a.snapshot.term :: a.entries.map LogEntry.term)[(i - a.snapshot.index).toNat]? =
      some (a.getTerm i) := by
  rw [lastIndex] at hhigh
  rw [getTerm, if_neg (by omega)]
  by_cases hi : i = a.snapshot.index
  · rw [if_pos hi, hi, sub_self]
    rfl
  obtain ⟨k, hk⟩ : ∃ k : ℕ, i = a.snapshot.index + k + 1 :=
    ⟨(i - a.snapshot.index - 1).toNat, by omega⟩
  have hplace : (i - a.snapshot.index).toNat = k + 1 := by omega
  have hlt : k < a.entries.length := by omega
  rw [if_neg hi, hplace, List.getElem?_cons_succ, get, if_neg (by omega),
    show (i - a.snapshot.index - 1).toNat = k by omega, List.getElem?_map,
    List.getElem?_eq_getElem hlt]
  rfl

theorem WF.getTerm_mono (hw : a.WF) {j : ℤ} (h0 : 0 < i) (hlow : a.snapshot.index ≤ i)
    (hij : i ≤ j) (hhigh : j ≤ a.lastIndex) : a.getTerm i ≤ a.getTerm j := by
  have hi := getTerm_eq_getElem h0 hlow (hij.trans hhigh)
  have hj := getTerm_eq_getElem (h0.trans_le hij) (hlow.trans hij) hhigh
  obtain ⟨hi, hti⟩ := List.getElem?_eq_some_iff.mp hi
  obtain ⟨hj, htj⟩ := List.getElem?_eq_some_iff.mp hj
  rw [← hti, ← htj]
  rcases hij.eq_or_lt with rfl | hlt
  · exact le_rfl
  · exact List.pairwise_iff_getElem.mp hw.terms.pairwise _ _ hi hj (by omega)

/-- The log before an index. -/
def cut (a : AbstractLog) (start : ℤ) : AbstractLog :=
  { a with entries := a.entries.take (start - a.snapshot.index - 1).toNat }

/-- Entries of the log before the place where it is cut. -/
theorem get_cut {start : ℤ} (hs : a.snapshot.index < start) (hi : i < start) :
    (a.cut start).get i = a.get i := by
  by_cases hle : i ≤ a.snapshot.index
  · exact (if_pos hle).trans (if_pos hle).symm
  · refine (if_neg hle).trans (Eq.trans ?_ (if_neg hle).symm)
    exact List.getElem?_take_of_lt (by dsimp only [cut]; omega)

theorem getTerm_cut {start : ℤ} (hs : a.snapshot.index < start) (hi : i < start) :
    (a.cut start).getTerm i = a.getTerm i := by
  rw [getTerm, get_cut hs hi]
  rfl

theorem truncateSuffix_cut {start : ℤ} (hs : a.snapshot.index < start) :
    a.truncateSuffix start = .ok (a.cut start) :=
  if_neg (not_le.mpr hs)

theorem lastIndex_cut {start : ℤ} (hs : a.snapshot.index < start) (hle : start ≤ a.lastIndex) :
    (a.cut start).lastIndex = start - 1 := by
  simp only [lastIndex, cut, List.length_take] at hle ⊢
  omega

end AbstractLog

/-! ## Batches of commands -/

theorem collectCommands_pos {log : AbstractLog} {commit index : ℤ} {turns bytes : ℕ}
    {commands : List Bytes} (hle : index ≤ commit)
    (hc : collectCommands log commit (turns + 1) index 0 bytes = .ok commands) :
    0 < commands.length := by
  rw [collectCommands, if_neg (not_lt.mpr hle)] at hc
  cases hget : log.get index with
  | none =>
    rw [hget] at hc
    cases hc
  | some e =>
    rw [hget] at hc
    dsimp only at hc
    split_ifs at hc with hlarge hstop
    · exact absurd hstop.1 (lt_irrefl 0)
    cases hrest : collectCommands log commit turns (index + 1) (0 + 1)
      (bytes + e.command.length) with
    | error text =>
      rw [hrest] at hc
      cases hc
    | ok rest =>
      rw [hrest] at hc
      cases hc
      exact Nat.succ_pos _

/-- A batch ends at the commit index or before it. -/
theorem collectCommands_le {log : AbstractLog} {commit : ℤ} {turns : ℕ} :
    ∀ {index : ℤ} {count bytes : ℕ} {commands : List Bytes}, index ≤ commit + 1 →
      collectCommands log commit turns index count bytes = .ok commands →
      index + commands.length ≤ commit + 1 := by
  induction turns with
  | zero =>
    intro index count bytes commands hle hc
    obtain rfl := Except.ok.inj hc
    simpa using hle
  | succ turns ih =>
    intro index count bytes commands hle hc
    rw [collectCommands] at hc
    split_ifs at hc with hend
    · obtain rfl := Except.ok.inj hc
      simpa using hle
    cases hget : log.get index with
    | none =>
      rw [hget] at hc
      cases hc
    | some e =>
      rw [hget] at hc
      dsimp only at hc
      split_ifs at hc with hlarge hstop
      · obtain rfl := Except.ok.inj hc
        simpa using hle
      cases hrest : collectCommands log commit turns (index + 1) (count + 1)
          (bytes + e.command.length) with
      | error text =>
        rw [hrest] at hc
        cases hc
      | ok rest =>
        rw [hrest] at hc
        obtain rfl := Except.ok.inj hc
        have := ih (by omega) hrest
        rw [List.length_cons, Nat.cast_add, Nat.cast_one]
        omega

/-! ## Batches of entries -/

/-- The entries above the snapshot, by their place. -/
theorem AbstractLog.get_above (a : AbstractLog) (k : ℕ) :
    a.get (a.snapshot.index + 1 + k) = a.entries[k]? := by
  rw [AbstractLog.get, if_neg (by omega),
    show (a.snapshot.index + 1 + k - a.snapshot.index - 1).toNat = k by omega]

/-- What an entry counts for in a batch. -/
def LogEntry.counted (e : LogEntry) : ℕ :=
  e.byteSizeLong + 16

/-- The entries that are collected are the next ones of the log, within the limits. -/
theorem collectEntries_fits {a : AbstractLog}
    (hsmall : ∀ e ∈ a.entries, e.command.length ≤ kMaxCommandBytes) :
    ∀ (turns k count bytes : ℕ), count ≤ kMaxBatchEntries → bytes ≤ kMaxBatchBytes →
      ∃ es, collectEntries a turns (a.snapshot.index + 1 + k) count bytes = .ok es ∧
        es <+: a.entries.drop k ∧ count + es.length ≤ kMaxBatchEntries ∧
        bytes + (es.map LogEntry.counted).sum ≤ kMaxBatchBytes := by
  intro turns
  induction turns with
  | zero => exact fun k count bytes hc hb => ⟨[], rfl, List.nil_prefix, by simpa, by simpa⟩
  | succ turns ih =>
    intro k count bytes hc hb
    rw [collectEntries]
    by_cases hlast : a.lastIndex < a.snapshot.index + 1 + k
    · exact ⟨[], by rw [if_pos hlast], List.nil_prefix, by simpa, by simpa⟩
    have hlt : k < a.entries.length := by
      rw [AbstractLog.lastIndex] at hlast
      omega
    have hsize := LogEntry.byteSizeLong_le (hsmall _ (List.getElem_mem hlt))
    rw [if_neg hlast, a.get_above, List.getElem?_eq_getElem hlt]
    simp only [if_neg (not_lt.mpr hsize)]
    by_cases hfull : kMaxBatchEntries ≤ count ∨
        kMaxBatchBytes - bytes < a.entries[k].byteSizeLong + 16
    · exact ⟨[], by rw [if_pos hfull], List.nil_prefix, by simpa, by simpa⟩
    obtain ⟨hcount, hbytes⟩ := not_or.mp hfull
    obtain ⟨es, hes, hpre, hlen, hsum⟩ :=
      ih (k + 1) (count + 1) (bytes + (a.entries[k].byteSizeLong + 16)) (by omega) (by omega)
    rw [Nat.cast_add, Nat.cast_one, ← add_assoc] at hes
    refine ⟨a.entries[k] :: es, by rw [if_neg hfull, hes]; rfl, ?_, ?_, ?_⟩
    · rw [List.drop_eq_getElem_cons hlt]
      exact (List.prefix_cons_inj _).mpr hpre
    · rw [List.length_cons]
      omega
    · rw [List.map_cons, List.sum_cons, LogEntry.counted]
      omega

/-! ## Admission -/

/-- What the checks of `ProposeBatch` let through. -/
structure Node.Admitted (n : Node) (ps : List Proposal) (bytes : ℕ) : Prop where
  running : n.running = true
  leader : n.role = .leader
  pos : 0 < ps.length
  small : ∀ p ∈ ps, p.command.length ≤ kMaxCommandBytes
  bytes_eq : bytes = (ps.map fun p => p.command.length).sum
  rows : ps.length ≤ kMaxPending - n.pending.length
  room : bytes ≤ kMaxPendingBytes - n.pendingBytes

theorem admitBytes_some {ps : List Proposal} {bytes total : ℕ}
    (h : admitBytes bytes ps = some total) :
    total = bytes + (ps.map fun p => p.command.length).sum ∧
      ∀ p ∈ ps, p.command.length ≤ kMaxCommandBytes := by
  induction ps generalizing bytes with
  | nil =>
    obtain rfl := Option.some.inj h
    simp
  | cons p ps ih =>
    rw [admitBytes] at h
    split_ifs at h with hbad
    push Not at hbad
    obtain ⟨htotal, hsmall⟩ := ih h
    exact ⟨by rw [htotal, List.map_cons, List.sum_cons, add_assoc],
      List.forall_mem_cons.mpr ⟨hbad.1, hsmall⟩⟩

theorem Node.admitted_of_ok {n : Node} {ps : List Proposal} {bytes : ℕ}
    (h : n.admission ps = .ok bytes) : n.Admitted ps bytes := by
  rw [Node.admission] at h
  split_ifs at h with hlead hhealthy hsize
  push Not at hsize
  cases htotal : admitBytes 0 ps with
  | none =>
    rw [htotal] at h
    cases h
  | some total =>
    rw [htotal] at h
    dsimp only at h
    split_ifs at h with hlarge
    push Not at hlarge
    obtain rfl := Except.ok.inj h
    obtain ⟨hsum, hsmall⟩ := admitBytes_some htotal
    rw [zero_add] at hsum
    have hlead' : n.running = true ∧ n.role = .leader := by simpa [Node.isLeader] using hlead
    exact ⟨hlead'.1, hlead'.2, List.length_pos_iff.mpr (by simpa using hsize.1), hsmall, hsum,
      hsize.2.2, hlarge.1⟩

/-! ## Majorities -/

namespace Node

variable {n : Node}

/-- The number of members that have matched an index. -/
def matchedBy (n : Node) (index : ℤ) : ℕ :=
  n.allPeers.countP fun p => decide (index ≤ n.matchIndex p)

/-- The greatest index that a majority has matched is the one that is looked at. -/
theorem isGreatest_majorityMatch (hpeers : n.allPeers ≠ []) :
    IsGreatest {m | n.quorumSize ≤ n.matchedBy m} n.majorityMatch := by
  have hpos := List.length_pos_iff.mpr hpeers
  have hi : n.allPeers.length / 2 < (n.allPeers.map n.matchIndex).length := by
    rw [List.length_map]
    omega
  have hm : n.majorityMatch = ((n.allPeers.map n.matchIndex).insertionSort fun a b => b ≤ a).get
      ⟨n.allPeers.length / 2, by rwa [List.length_insertionSort]⟩ := by
    rw [majorityMatch, quorumSize, Nat.add_sub_cancel, List.getD_eq_getElem?_getD,
      List.getElem?_eq_getElem (by rwa [List.length_insertionSort])]
    rfl
  rw [hm]
  have hgreatest := isGreatest_sorted (n.allPeers.map n.matchIndex) hi
  simp only [List.countP_map] at hgreatest
  exact hgreatest

end Node

/-! ## Entries of a request -/

/-- Entries that pass the checks : consecutive indexes, and terms that do not decrease from the
one before them to the term of the request. -/
structure EntriesFit (term first previousTerm : ℤ) (es : List LogEntry) : Prop where
  index : ∀ i (hi : i < es.length), es[i].index = first + i
  terms : (previousTerm :: es.map LogEntry.term).IsChain (· ≤ ·)
  term_pos : ∀ e ∈ es, 0 < e.term
  term_le : ∀ e ∈ es, e.term ≤ term

variable {es : List LogEntry}

theorem entriesFit_of_valid {term : ℤ} :
    ∀ {first previousTerm : ℤ}, validEntries term first previousTerm es = true →
      EntriesFit term first previousTerm es := by
  induction es with
  | nil => exact fun _ => ⟨by simp, by simp, by simp, by simp⟩
  | cons e es ih =>
    intro first previousTerm hv
    simp only [validEntries, Bool.and_eq_true, decide_eq_true_eq] at hv
    obtain ⟨⟨⟨⟨⟨hidx, hpos⟩, hprev⟩, hterm⟩, -⟩, hrest⟩ := hv
    have hfit := ih hrest
    refine ⟨fun i hi => ?_, ?_, ?_, ?_⟩
    · cases i with
      | zero => simpa using hidx
      | succ i =>
        have := hfit.index i (by simpa using hi)
        rw [List.getElem_cons_succ, this]
        push_cast
        ring
    · rw [List.map_cons, List.isChain_cons_cons]
      exact ⟨hprev, hfit.terms⟩
    · simpa using ⟨hpos, hfit.term_pos⟩
    · simpa using ⟨hterm, hfit.term_le⟩

namespace EntriesFit

variable {term first previousTerm : ℤ} {es : List LogEntry}

theorem first_le (h : EntriesFit term first previousTerm es) {e : LogEntry} (he : e ∈ es) :
    first ≤ e.index := by
  obtain ⟨i, hi, rfl⟩ := List.getElem_of_mem he
  rw [h.index i hi]
  omega

theorem sorted (h : EntriesFit term first previousTerm es) :
    es.Pairwise fun e e' => e.index < e'.index := by
  rw [List.pairwise_iff_getElem]
  intro i j hi hj hij
  rw [h.index i hi, h.index j hj]
  omega

theorem drop {kept rest : List LogEntry} (h : EntriesFit term first previousTerm (kept ++ rest)) :
    EntriesFit term (first + kept.length)
      ((kept.getLast?.map LogEntry.term).getD previousTerm) rest := by
  refine ⟨fun i hi => ?_, ?_, fun e he => h.term_pos e (List.mem_append_right _ he),
    fun e he => h.term_le e (List.mem_append_right _ he)⟩
  · have := h.index (kept.length + i) (by simp; omega)
    rw [List.getElem_append_right (by omega)] at this
    simp only [Nat.add_sub_cancel_left] at this
    rw [this]
    push_cast
    ring
  rcases List.eq_nil_or_concat kept with rfl | ⟨l, e, rfl⟩
  · simpa using h.terms
  · have hchain := h.terms.tail
    simp only [List.concat_eq_append, List.append_assoc, List.map_append, List.tail_cons] at hchain
    simpa using hchain.right_of_append

end EntriesFit

/-! ## The loop over the entries of a request -/

theorem reconcile_after {c : Context}
    (h : ∀ e ∈ es, c.log.lastIndex < e.index ∧ c.log.getTerm e.index = -1) :
    reconcile es c = .ok es c := by
  induction es with
  | nil => rfl
  | cons e es ih =>
    obtain ⟨h₁, h₂⟩ := h e List.mem_cons_self
    have hrest := ih fun e' he' => h e' (List.mem_cons_of_mem _ he')
    change (if c.log.getTerm e.index ≠ -1 ∧ c.log.getTerm e.index ≠ e.term then _
      else if c.log.lastIndex < e.index then reconcile es >>= fun rest => pure (e :: rest)
      else _ : RaftM _) c = _
    rw [if_neg (fun hc => hc.1 h₂), if_pos h₁]
    change EStateM.bind _ _ c = _
    rw [EStateM.bind, hrest]
    rfl

/-- The log `a` with the entries `es` of a request becomes `a'`, and `missing` is still to be
appended : the entries before them are in the log, and the log ends before them, or is cut
off at the first of them, which has another term there and is after the commit index. -/
structure Reconciled (a : AbstractLog) (commit : ℤ) (es missing : List LogEntry)
    (a' : AbstractLog) : Prop where
  kept : ∃ kept, es = kept ++ missing ∧ ∀ e ∈ kept, e.index ≤ a.lastIndex ∧
    (a.getTerm e.index = -1 ∨ a.getTerm e.index = e.term)
  log : (a' = a ∧ ∀ e ∈ missing, a.lastIndex < e.index) ∨
    ∃ e rest, missing = e :: rest ∧ a.snapshot.index < e.index ∧ e.index ≤ a.lastIndex ∧
      a.getTerm e.index ≠ e.term ∧ commit < e.index ∧ a' = a.cut e.index

/-- What the loop of `HandleAppendEntries` does to a log. -/
theorem wp_reconcile {c : Context} (h0 : 0 ≤ c.log.snapshot.index)
    (hsorted : es.Pairwise fun e e' => e.index < e'.index) :
    wp (reconcile es)
      (fun missing c' => Reconciled c.log c.node.commitIndex es missing c'.log ∧
        ∃ after, c' = { c with log := c'.log, env := { c.env with crashAfter := after } })
      (fun _ c' => ∃ after, c' = { c with env := { c.env with crashAfter := after } }) c := by
  induction es with
  | nil => exact ⟨⟨⟨[], rfl, by simp⟩, .inl ⟨rfl, by simp⟩⟩, c.env.crashAfter, rfl⟩
  | cons e es ih =>
    obtain ⟨hafter, hsorted⟩ := List.pairwise_cons.mp hsorted
    rw [reconcile, wp_getLog, wp_getNode]
    by_cases hconflict : c.log.getTerm e.index ≠ -1 ∧ c.log.getTerm e.index ≠ e.term
    · rw [if_pos hconflict]
      by_cases hold : e.index ≤ c.node.commitIndex
      · rw [if_pos hold]
        exact ⟨c.env.crashAfter, rfl⟩
      rw [if_neg hold]
      refine wp_writeLog (fun _ after => ⟨after, rfl⟩) fun log after hlog => ?_
      rw [AbstractLog.truncateSuffix] at hlog
      split_ifs at hlog with hsnap
      obtain rfl := Except.ok.inj hlog
      -- what follows the entry is after the end of the log that is left
      have hle := AbstractLog.le_lastIndex_of_getTerm h0 hconflict.1
      have hlast : (c.log.cut e.index).lastIndex = e.index - 1 := by
        simp only [AbstractLog.lastIndex, AbstractLog.cut, List.length_take] at hle ⊢
        omega
      have hmissing : reconcile es { c with
          log := c.log.cut e.index, env := { c.env with crashAfter := after } } = .ok es _ :=
        reconcile_after fun e' he' => by
          have := hafter e' he'
          exact ⟨by dsimp only; omega, AbstractLog.getTerm_after h0 (by dsimp only; omega)⟩
      rw [wp_bind]
      change wp (reconcile es) _ _ { c with
        log := c.log.cut e.index, env := { c.env with crashAfter := after } }
      rw [wp_eq_of_ok hmissing, wp_pure]
      exact ⟨⟨⟨[], rfl, by simp⟩, .inr ⟨e, es, rfl, by omega, hle, hconflict.2, by omega, rfl⟩⟩,
        after, rfl⟩
    · rw [if_neg hconflict]
      by_cases hnew : c.log.lastIndex < e.index
      · rw [if_pos hnew]
        have hmissing : reconcile es c = .ok es c := reconcile_after fun e' he' => by
          have := hafter e' he'
          exact ⟨by omega, AbstractLog.getTerm_after h0 (by omega)⟩
        rw [wp_bind, wp_eq_of_ok hmissing, wp_pure]
        refine ⟨⟨⟨[], rfl, by simp⟩, .inl ⟨rfl, fun e' he' => ?_⟩⟩, c.env.crashAfter, rfl⟩
        rcases List.mem_cons.mp he' with rfl | he'
        · exact hnew
        · exact hnew.trans (hafter e' he')
      · rw [if_neg hnew]
        refine wp_mono (ih hsorted) (fun missing c' hp => ?_) fun _ _ h => h
        obtain ⟨⟨⟨kept, hes, hkept⟩, hlog⟩, hc'⟩ := hp
        refine ⟨⟨⟨e :: kept, by rw [hes]; rfl, fun e' he' => ?_⟩, hlog⟩, hc'⟩
        rcases List.mem_cons.mp he' with rfl | he'
        · refine ⟨not_lt.mp hnew, ?_⟩
          by_cases hnone : c.log.getTerm e'.index = -1
          · exact .inl hnone
          · exact .inr (not_not.mp fun hne => hconflict ⟨hnone, hne⟩)
        · exact hkept e' he'

/-! ## The entries of a request in a log -/

section Reconciling

variable {a a' : AbstractLog} {term prev prevTerm commit : ℤ} {es missing : List LogEntry}

/-- The log ends where the missing entries begin : with the entry before them. -/
theorem Reconciled.chain (h : Reconciled a commit es missing a') (hw : a.WF) (hw' : a'.WF)
    (hfit : EntriesFit term (prev + 1) prevTerm es) (ht0 : 0 ≤ prevTerm)
    (hmatch : a.getTerm prev = prevTerm) :
    (a'.lastTerm :: missing.map LogEntry.term).IsChain (· ≤ ·) := by
  obtain ⟨kept, rfl, hkept⟩ := h.kept
  have hnn := hw.snapshot_index_nonneg
  have hrest := hfit.drop
  -- the entry before the missing ones is in the log, under the term that the request gives it
  obtain ⟨hle, hterm⟩ : prev + kept.length ≤ a.lastIndex ∧
      (a.getTerm (prev + kept.length) = -1 ∨ a.getTerm (prev + kept.length) =
        (kept.getLast?.map LogEntry.term).getD prevTerm) := by
    rcases List.eq_nil_or_concat kept with rfl | ⟨l, e, rfl⟩
    · refine ⟨AbstractLog.le_lastIndex_of_getTerm hnn ?_, .inr (by simpa using hmatch)⟩
      simp only [List.length_nil, Nat.cast_zero, add_zero]
      omega
    have hidx : e.index = prev + 1 + l.length := by
      simpa using hfit.index l.length (by simp)
    rw [List.concat_eq_append] at hkept ⊢
    have hend : prev + ((l ++ [e]).length : ℤ) = e.index := by
      rw [hidx, List.length_append, List.length_singleton]
      push_cast
      ring
    rw [hend]
    simpa using hkept e (by simp)
  cases hm : missing with
  | nil => exact List.isChain_singleton _
  | cons e rest =>
    have hidx : e.index = prev + kept.length + 1 := by
      have := hrest.index 0 (by simp [hm])
      simp only [hm, List.getElem_cons_zero, Nat.cast_zero, add_zero] at this
      omega
    -- so the log that is left ends with it
    have hlast : a'.lastIndex = prev + kept.length ∧
        a'.getTerm (prev + kept.length) = a.getTerm (prev + kept.length) := by
      rcases h.log with ⟨rfl, hafter⟩ | ⟨e', rest', hm', hsnap, hin, -, -, rfl⟩
      · have := hafter e (by simp [hm])
        exact ⟨by omega, rfl⟩
      · obtain ⟨rfl, rfl⟩ := List.cons.inj (hm.symm.trans hm')
        exact ⟨by rw [AbstractLog.lastIndex_cut hsnap hin]; omega,
          AbstractLog.getTerm_cut hsnap (by omega)⟩
    have hends := hw'.getTerm_lastIndex
    have hpos := hw'.lastTerm_nonneg
    rw [hlast.1, hlast.2] at hends
    rw [← hm, ← hends, hterm.resolve_left (by omega)]
    exact hrest.terms

/-- With the missing entries the log covers the request, and still what is committed. -/
theorem Reconciled.covers (h : Reconciled a commit es missing a') (hw : a.WF)
    (hfit : EntriesFit term (prev + 1) prevTerm es) (ht0 : 0 ≤ prevTerm)
    (hmatch : a.getTerm prev = prevTerm) (hcommit : commit ≤ a.lastIndex) :
    prev + es.length ≤ a'.lastIndex + missing.length ∧ commit ≤ a'.lastIndex := by
  obtain ⟨kept, rfl, hkept⟩ := h.kept
  have hnn := hw.snapshot_index_nonneg
  rcases h.log with ⟨rfl, hafter⟩ | ⟨e, rest, rfl, hsnap, hin, -, hnew, rfl⟩
  · refine ⟨?_, hcommit⟩
    rcases List.eq_nil_or_concat kept with rfl | ⟨l, e, rfl⟩
    · have := AbstractLog.le_lastIndex_of_getTerm hnn (i := prev) (by omega)
      simpa using this
    have hidx : e.index = prev + 1 + l.length := by
      simpa using hfit.index l.length (by simp)
    rw [List.concat_eq_append] at hkept ⊢
    have := (hkept e (by simp)).1
    simp only [List.length_append, List.length_singleton]
    push_cast
    omega
  · have hidx := hfit.drop.index 0 (by simp)
    simp only [List.getElem_cons_zero, Nat.cast_zero, add_zero] at hidx
    rw [AbstractLog.lastIndex_cut hsnap hin]
    simp only [List.length_append, List.length_cons]
    push_cast
    exact ⟨by omega, by omega⟩

theorem Reconciled.same (h : Reconciled a commit es missing a') :
    a'.snapshot = a.snapshot ∧ a'.hardState = a.hardState ∧
      (missing = [] → a' = a) ∧ ∀ e ∈ missing, e ∈ es := by
  obtain ⟨kept, hes, -⟩ := h.kept
  refine ⟨?_, ?_, ?_, fun e he => hes ▸ List.mem_append_right _ he⟩
  all_goals rcases h.log with ⟨rfl, -⟩ | ⟨e, rest, hm, -, -, -, -, rfl⟩
  · rfl
  · rfl
  · rfl
  · rfl
  · exact fun _ => rfl
  · exact fun hnil => by rw [hm] at hnil; cases hnil

/-- The log has the entries of a request, except where it was compacted. -/
structure Holds (a : AbstractLog) (prev prevTerm : ℤ) (es : List LogEntry) : Prop where
  entries : ∀ e ∈ es, e.index ≤ a.lastIndex ∧ (a.getTerm e.index = -1 ∨ a.getTerm e.index = e.term)
  prev : prev = 0 ∨ a.snapshot.index ≤ prev → a.getTerm prev = prevTerm

theorem Reconciled.holds (h : Reconciled a commit es missing a') (hw : a.WF)
    (hfit : EntriesFit term (prev + 1) prevTerm es) (ht0 : 0 ≤ prevTerm)
    (hmatch : a.getTerm prev = prevTerm)
    (hw' : AbstractLog.WF { a' with entries := a'.entries ++ missing }) :
    Holds { a' with entries := a'.entries ++ missing } prev prevTerm es := by
  -- the log that is left has what came before the missing entries
  have hleft : ∀ i, i ≤ a.lastIndex → (∀ e ∈ missing, i < e.index) →
      i ≤ a'.lastIndex ∧ a'.getTerm i = a.getTerm i := by
    intro i hi hbefore
    rcases h.log with ⟨rfl, -⟩ | ⟨e, rest, hm, hsnap, hin, -, -, rfl⟩
    · exact ⟨hi, rfl⟩
    · have := hbefore e (by simp [hm])
      exact ⟨by rw [AbstractLog.lastIndex_cut hsnap hin]; omega, AbstractLog.getTerm_cut hsnap this⟩
  have hlen := AbstractLog.lastIndex_append (a := a') missing
  obtain ⟨kept, hes, hkept⟩ := h.kept
  refine ⟨fun e he => ?_, fun _ => ?_⟩
  · rcases List.mem_append.mp (hes ▸ he) with hk | hm
    · obtain ⟨hle, hterm⟩ := hkept e hk
      have hsorted := hfit.sorted
      rw [hes, List.pairwise_append] at hsorted
      obtain ⟨hle', hsame⟩ := hleft e.index hle fun e' he' => hsorted.2.2 e hk e' he'
      rw [AbstractLog.getTerm_append hle', hsame]
      exact ⟨by omega, hterm⟩
    · obtain ⟨hle, hterm⟩ := hw'.getTerm_of_mem (List.mem_append_right _ hm)
      exact ⟨hle, .inr hterm⟩
  · have hle := AbstractLog.le_lastIndex_of_getTerm hw.snapshot_index_nonneg (i := prev) (by omega)
    obtain ⟨hle', hsame⟩ := hleft prev hle fun e he => by
      have := hfit.first_le (hes ▸ List.mem_append_right _ he)
      omega
    rw [AbstractLog.getTerm_append hle', hsame]
    exact hmatch

end Reconciling

end RaftKV
