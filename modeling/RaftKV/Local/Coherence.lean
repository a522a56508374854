import RaftKV.LogRefinement
import RaftKV.Local.Steps

/-!
# What a node keeps, whatever its peers send

`Coherent` is what holds of the core of a node between two inputs : the log was made by calls
that `RaftLog` keeps well formed, the hard state on disk is the term and the vote in memory,
and the snapshot, what is applied, what is committed and the end of the log are in this
order. Nothing is assumed of the peers but that the fields of a message are values of their
types. Every input keeps a coherent core coherent, and moves its term and indexes only
forward (`Coherent.steps`); where an input throws, the log on disk is still one that
`RaftLog` keeps (`Coherent.tears`).

One fact more is needed in between : a running node without a batch at the executor has
applied all it has committed (`Core.Caught`). Without it a snapshot that replaces the log
could end before the commit index.
-/

namespace RaftKV.Local

open AbstractLog (Call)

/-! ## Logs that the calls of a node make -/

/-- The codec writes every entry that a node stores. -/
def Covers (codec : EntryCodec) : Prop :=
  ∀ e : LogEntry, 0 < e.index → e.index ≤ int64Max → 0 < e.term → e.term ≤ int32Max →
    e.command.length ≤ kMaxCommandBytes → RaftLog.serializes codec e = true

/-- The log `s` and its abstract log `a` after some calls, made as a node guarantees, on a new
database. -/
def Reached (codec : EntryCodec) (s : RaftLog) (a : AbstractLog) : Prop :=
  ∃ cs, RaftLog.GuaranteedRun codec {} cs ∧ cs.foldl (RaftLog.after codec) {} = s ∧
    cs.foldl (RaftLog.abstractAfter codec) {} = a

/-- Calls made as a node guarantees lead to the log. -/
def Logged (codec : EntryCodec) (a : AbstractLog) : Prop :=
  ∃ s, Reached codec s a

/-- One more call. -/
theorem guaranteedRun_concat {codec : EntryCodec} {cs : List (Call × Bool)} {c : Call × Bool} :
    ∀ {a : AbstractLog}, RaftLog.GuaranteedRun codec a cs →
      c.1.Guaranteed (cs.foldl (RaftLog.abstractAfter codec) a) →
      RaftLog.GuaranteedRun codec a (cs ++ [c]) := by
  induction cs with
  | nil => exact fun _ hc => ⟨hc, trivial⟩
  | cons c' cs ih => exact fun h hc => ⟨h.1, ih h.2 hc⟩

section Logged

variable {codec : EntryCodec} {s : RaftLog} {a b : AbstractLog}

theorem Reached.represents (h : Reached codec s a) : RaftLog.Represents codec s a ∧ a.WF := by
  obtain ⟨cs, hg, rfl, rfl⟩ := h
  exact (RaftLog.Represents.empty codec).run AbstractLog.WF.empty hg

theorem Logged.wf (h : Logged codec a) : a.WF :=
  let ⟨_, hs⟩ := h
  hs.represents.2

theorem Logged.empty (codec : EntryCodec) : Logged codec {} :=
  ⟨{}, [], trivial, rfl, rfl⟩

/-- A call that does not throw. -/
theorem Logged.call (h : Logged codec a) {c : Call} (hg : c.Guaranteed a)
    (hc : a.call (RaftLog.serializes codec) c = .ok b) : Logged codec b := by
  obtain ⟨s, cs, hrun, -, rfl⟩ := h
  refine ⟨_, cs ++ [(c, true)], guaranteedRun_concat hrun hg, rfl, ?_⟩
  rw [List.foldl_append, List.foldl_cons, List.foldl_nil, RaftLog.abstractAfter, hc]
  rfl

/-- Entries within the limits can be written. -/
theorem Logged.append (h : Logged codec a) (hcodec : Covers codec) {es : List LogEntry}
    (hg : Call.Guaranteed a (.appendBatch es))
    (hfit : ∀ e ∈ es, e.command.length ≤ kMaxCommandBytes)
    (ha : a.appendBatch (fun _ => true) es = .ok b) : Logged codec b := by
  refine h.call hg ?_
  obtain ⟨hcheck, rfl⟩ := AbstractLog.appendBatch_ok ha
  obtain ⟨hidx, hpos, -, hmax⟩ := AbstractLog.checkAppend_ok h.wf.last_le hcheck
  have hnn := h.wf.snapshot_index_nonneg
  have hle := a.snapshot_index_le_lastIndex
  have hser : AbstractLog.checkAppend (RaftLog.serializes codec) a.lastIndex es = .ok () :=
    AbstractLog.checkAppend_of_serializes hcheck fun e he => by
      obtain ⟨i, hi, rfl⟩ := List.getElem_of_mem he
      have := hidx i hi
      exact hcodec _ (by omega) (by omega) (hpos _ he) (hg.2.1 _ he) (hfit _ he)
  rw [AbstractLog.call, AbstractLog.appendBatch, hser]
  rfl

/-- A conflict cuts the log. -/
theorem Logged.reconciled {a' : AbstractLog} {commit : ℤ} {es missing : List LogEntry}
    (hl : Logged codec a) (h : Reconciled a commit es missing a') : Logged codec a' := by
  rcases h.log with ⟨rfl, -⟩ | ⟨e, rest, -, hsnap, -, -, -, rfl⟩
  · exact hl
  · exact hl.call (c := .truncateSuffix e.index) trivial (AbstractLog.truncateSuffix_cut hsnap)

end Logged

/-! ## What the operations make of a log -/

section Operations

variable {a b : AbstractLog}

/-- What a compaction leaves as it was. -/
structure Trimmed (index : ℤ) (a b : AbstractLog) : Prop where
  lastIndex : b.lastIndex = a.lastIndex
  lastTerm : b.lastTerm = a.lastTerm
  hard : b.hardState = a.hardState
  lower : a.snapshot.index ≤ b.snapshot.index
  upper : b.snapshot.index = a.snapshot.index ∨ b.snapshot.index = index

/-- A compaction drops the entries that its snapshot covers, or does nothing. -/
theorem Compacted.eq_or {index : ℤ} (h : Compacted index a b) :
    b = a ∨ a.snapshot.index < index ∧ index ≤ a.lastIndex ∧ ∃ data, b = { a with
      snapshot := ⟨index, a.getTerm index, data⟩
      entries := a.entries.drop (index - a.snapshot.index).toNat
      intent := none } := by
  obtain rfl | ⟨data, h⟩ := h
  · exact .inl rfl
  rw [AbstractLog.compactApplied] at h
  by_cases hold : index ≤ a.snapshot.index
  · rw [if_pos hold] at h
    exact .inl (Except.ok.inj h).symm
  rw [if_neg hold] at h
  by_cases habsent : a.lastIndex < index ∨ a.getTerm index ≠ a.getTerm index
  · rw [if_pos habsent] at h
    cases h
  rw [if_neg habsent, AbstractLog.persistSnapshot, if_pos rfl] at h
  split_ifs at h
  push Not at habsent hold
  exact .inr ⟨hold, habsent.1, data, (Except.ok.inj h).symm⟩

/-- Compaction keeps what is above its index. -/
theorem Compacted.trimmed {index : ℤ} (h : Compacted index a b) (hw : a.WF) :
    Trimmed index a b := by
  rcases h.eq_or with rfl | ⟨hlow, hhigh, data, rfl⟩
  · exact ⟨rfl, rfl, rfl, le_rfl, .inl rfl⟩
  · exact ⟨AbstractLog.WF.lastIndex_compact hlow hhigh _, hw.lastTerm_compact hlow hhigh rfl _, rfl,
      hlow.le, .inr rfl⟩

theorem Compacted.get_eq {index i : ℤ} (h : Compacted index a b) (hi : b.snapshot.index < i) :
    b.get i = a.get i := by
  rcases h.eq_or with rfl | ⟨hlow, hhigh, data, rfl⟩
  · rfl
  have hi : index < i := hi
  rw [AbstractLog.get, AbstractLog.get]
  dsimp only
  rw [if_neg (by omega), if_neg (by omega), List.getElem?_drop]
  congr 1
  omega

/-- The terms from the snapshot on are kept. -/
theorem Compacted.getTerm_eq {index i : ℤ} (h : Compacted index a b) (hw : a.WF)
    (hi : i = 0 ∨ b.snapshot.index ≤ i) : b.getTerm i = a.getTerm i := by
  have hnn := hw.snapshot_index_nonneg
  rcases h.eq_or with rfl | ⟨hlow, hhigh, data, rfl⟩
  · rfl
  rcases hi with rfl | hi
  · rfl
  have hi : index ≤ i := hi
  rcases hi.eq_or_lt with rfl | hlt
  · rw [AbstractLog.getTerm, if_neg (by omega), if_pos rfl]
  have hget := h.get_eq (i := i) (by exact hlt)
  have hne : i ≠ 0 := by omega
  have hsnap : i ≠ a.snapshot.index := by omega
  simp only [AbstractLog.getTerm, if_neg hne, if_neg hlt.ne', if_neg hsnap] at hget ⊢
  rw [hget]

/-- A compacted log still has the entries of a request, as far as it can. -/
theorem Compacted.holds {index prev prevTerm : ℤ} {es : List LogEntry} (h : Compacted index a b)
    (hw : a.WF) (hes : ∀ e ∈ es, 0 < e.index) (ha : Holds a prev prevTerm es) :
    Holds b prev prevTerm es := by
  have htrim := h.trimmed hw
  refine ⟨fun e he => ⟨htrim.lastIndex ▸ (ha.entries e he).1, ?_⟩, fun hprev => ?_⟩
  · by_cases hlow : e.index < b.snapshot.index
    · exact .inl (AbstractLog.getTerm_before (hes e he) hlow)
    · rw [h.getTerm_eq hw (.inr (not_lt.mp hlow))]
      exact (ha.entries e he).2
  · rw [h.getTerm_eq hw hprev]
    exact ha.prev (hprev.imp_right htrim.lower.trans)

/-- What an install makes of a log. -/
structure Installed (s : Snapshot) (a b : AbstractLog) : Prop where
  snapshot : b.snapshot = s
  lower : a.snapshot.index < s.index
  hard : b.hardState = a.hardState
  lastIndex : s.index ≤ b.lastIndex
  lastTerm : b.lastTerm = s.term ∨ b.lastTerm = a.lastTerm

/-- A staged snapshot is installed. -/
theorem installed_of_ok {s : Snapshot} {staged : AbstractLog} (hw : a.WF)
    (hstage : a.stageSnapshotInstall s = .ok staged)
    (hinstall : staged.installSnapshot s = .ok b) : Installed s a b := by
  rw [AbstractLog.stageSnapshotInstall] at hstage
  split_ifs at hstage with hbad _
  obtain rfl := Except.ok.inj hstage
  push Not at hbad
  have hlow := hbad.1
  rw [AbstractLog.installSnapshot] at hinstall
  dsimp only at hinstall
  rw [if_neg (c := s.index < a.snapshot.index) (by omega),
    if_neg (c := s.index = a.snapshot.index) (by omega), AbstractLog.persistSnapshot] at hinstall
  split_ifs at hinstall with _ _ hkeep
  · obtain rfl := Except.ok.inj hinstall
    obtain ⟨hle, hterm⟩ := of_decide_eq_true hkeep
    exact ⟨rfl, hlow, rfl, hle.trans (AbstractLog.WF.lastIndex_compact hlow hle none).ge,
      .inr (hw.lastTerm_compact hlow hle hterm none)⟩
  · obtain rfl := Except.ok.inj hinstall
    exact ⟨rfl, hlow, rfl, by simp [AbstractLog.lastIndex], .inl (by simp [AbstractLog.lastTerm])⟩

end Operations

/-! ## Coherent cores -/

/-- The fields of a node that outlive a handler, with the log. -/
structure View where
  log : AbstractLog
  currentTerm : ℤ
  votedFor : ℤ
  commitIndex : ℤ
  lastApplied : ℤ

def Core.view (x : Core) : View where
  log := x.log
  currentTerm := x.currentTerm
  votedFor := x.votedFor
  commitIndex := x.commitIndex
  lastApplied := x.lastApplied

/-- Terms and indexes do not decrease, and a vote stays for its term. -/
structure View.Grows (w w' : View) : Prop where
  term : w.currentTerm ≤ w'.currentTerm
  commit : w.commitIndex ≤ w'.commitIndex
  applied : w.lastApplied ≤ w'.lastApplied
  snapshot : w.log.snapshot.index ≤ w'.log.snapshot.index
  vote : w'.currentTerm = w.currentTerm → w'.votedFor = w.votedFor ∨ w.votedFor = -1

theorem View.Grows.refl (w : View) : w.Grows w :=
  ⟨le_rfl, le_rfl, le_rfl, le_rfl, fun _ => .inl rfl⟩

theorem View.Grows.trans {w w' w'' : View} (h : w.Grows w') (h' : w'.Grows w'') : w.Grows w'' := by
  refine ⟨h.term.trans h'.term, h.commit.trans h'.commit, h.applied.trans h'.applied,
    h.snapshot.trans h'.snapshot, fun heq => ?_⟩
  have hmid : w'.currentTerm = w.currentTerm := by
    have := h.term
    have := h'.term
    omega
  rcases h.vote hmid with hv | hv
  · rw [← hv]
    exact h'.vote (heq.trans hmid.symm)
  · exact .inr hv

/-- What holds of a core between two inputs. -/
structure Coherent (codec : EntryCodec) (x : Core) : Prop where
  logged : Logged codec x.log
  hard : x.log.hardState.getD (0, -1) = (x.currentTerm, x.votedFor)
  last : x.log.lastTerm ≤ x.currentTerm
  snapshot : x.log.snapshot.index ≤ x.lastApplied
  applied : x.lastApplied ≤ x.commitIndex
  commit : x.commitIndex ≤ x.log.lastIndex
  exec : Executor.Within x.exec x.commitIndex
  role : x.role = .candidate ∨ x.role = .leader → 0 < x.currentTerm
  ids : ∀ id ∈ x.nodeId :: x.allPeers, 0 ≤ id ∧ id ≤ int32Max

/-- A running node without a batch at the executor has applied what it has committed. -/
def Core.Caught (x : Core) : Prop :=
  x.running = true → x.applyInflight = false → x.commitIndex ≤ x.lastApplied

/-- A node at rest has nothing to apply itself. -/
theorem Core.Rested.caught {x : Core} (h : x.Rested) : x.Caught := by
  intro hrun hidle
  rcases h with h | ⟨h, -⟩
  · rw [hidle] at h
    cases h
  · exact not_lt.mp fun hlt => h ⟨hrun, hlt⟩

/-- A coherent core that has grown from `w`. -/
structure Becomes (codec : EntryCodec) (w : View) (y : Core) : Prop where
  coherent : Coherent codec y
  grows : w.Grows y.view

theorem Becomes.trans {codec : EntryCodec} {w : View} {y z : Core} (h : Becomes codec w y)
    (h' : Becomes codec y.view z) : Becomes codec w z :=
  ⟨h'.coherent, h.grows.trans h'.grows⟩

theorem Executor.Within.mono {exec : Executor} {commit commit' : ℤ}
    (h : Executor.Within exec commit) (hle : commit ≤ commit') : Executor.Within exec commit' :=
  ⟨fun job hj => (h.1 job hj).trans (by omega), fun c hc => (h.2 c hc).trans (by omega)⟩

namespace Coherent

variable {codec : EntryCodec} {x y : Core}

section

variable (h : Coherent codec x)
include h

theorem refl : Becomes codec x.view x :=
  ⟨h, .refl _⟩

/-- Terms fit in `int32`. -/
theorem term_bounds : 0 ≤ x.currentTerm ∧ x.currentTerm ≤ int32Max := by
  have hhard := h.hard
  cases hs : x.log.hardState with
  | none =>
    rw [hs] at hhard
    rw [← (Prod.mk.inj hhard).1]
    decide
  | some hard =>
    have := h.logged.wf.hard hard hs
    rw [hs] at hhard
    obtain rfl : hard = (x.currentTerm, x.votedFor) := hhard
    exact ⟨this.1, this.2.1⟩

/-- A term that is not 0 has been saved. -/
theorem hard_saved (hpos : 0 < x.currentTerm) : x.log.hardState.isSome = true := by
  have hhard := h.hard
  cases hs : x.log.hardState with
  | none =>
    rw [hs] at hhard
    have := (Prod.mk.inj hhard).1
    omega
  | some hard => rfl

theorem self_id : 0 ≤ x.nodeId ∧ x.nodeId ≤ int32Max :=
  h.ids _ List.mem_cons_self

/-- Ids of peers are `int32` values. -/
theorem peer_id {peer : ℤ} (hp : x.ident.isRemotePeer peer = true) :
    0 ≤ peer ∧ peer ≤ int32Max := by
  rw [Node.isRemotePeer, Bool.and_eq_true] at hp
  exact h.ids _ (List.mem_cons_of_mem _ (of_decide_eq_true hp.2))

/-! ### Terms and votes -/

/-- The call by which the term and the vote become durable. -/
theorem logged_hard {term votedFor : ℤ} (ht : 0 ≤ term)
    (ht' : term ≤ int32Max) (hv : -1 ≤ votedFor) (hv' : votedFor ≤ int32Max) :
    Logged codec { x.log with hardState := some (term, votedFor) } :=
  h.logged.call (c := .saveHardState term votedFor) ⟨ht', hv'⟩
    (if_neg (not_or.mpr ⟨not_lt.mpr ht, not_lt.mpr hv⟩))

/-- A higher term is saved without a vote. -/
theorem adopt {term : ℤ} (hle : term ≤ int32Max) : Becomes codec x.view (x.adopt term) := by
  by_cases hlt : x.currentTerm < term
  · have hpos := h.term_bounds.1
    have hlast := h.last
    rw [Core.adopt_of_lt hlt]
    refine ⟨{ h with
      logged := h.logged_hard (by omega) hle le_rfl (by decide)
      hard := rfl
      last := hlast.trans hlt.le
      role := fun _ => by dsimp only; omega }, ⟨hlt.le, le_rfl, le_rfl, le_rfl, fun heq => ?_⟩⟩
    have heq : term = x.currentTerm := heq
    omega
  · rw [Core.adopt_of_le (not_lt.mp hlt)]
    exact h.refl

end

theorem follow (h : Coherent codec x) {term : ℤ} (hle : term ≤ int32Max) (deadline : ℤ) :
    Becomes codec x.view (x.follow term deadline) := by
  obtain ⟨h', hg⟩ := h.adopt hle
  exact ⟨{ h' with role := fun hr => by rcases hr with hr | hr <;> cases hr }, hg⟩

/-- A vote is saved if none was given to another node. -/
theorem vote (h : Coherent codec x) {peer : ℤ} (hp : 0 ≤ peer ∧ peer ≤ int32Max)
    (hfree : x.votedFor = -1 ∨ x.votedFor = peer) (deadline : ℤ) :
    Becomes codec x.view (x.vote peer deadline) := by
  obtain ⟨ht, ht'⟩ := h.term_bounds
  refine ⟨{ h with
    logged := h.logged_hard ht ht' (by omega) hp.2
    hard := rfl }, ⟨le_rfl, le_rfl, le_rfl, le_rfl, fun _ => ?_⟩⟩
  exact hfree.symm.imp_left Eq.symm

theorem answers (h : Coherent codec x) (hc : x.Caught) {taken : Prop} {peer : ℤ}
    {message : Message} (hy : x.Answers taken peer message y) :
    Becomes codec x.view y ∧ y.Caught := by
  obtain ⟨replies, rfl, -⟩ := hy
  exact ⟨⟨{ h with }, .refl _⟩, hc⟩

/-! ### Applying and committing -/

/-- Committed entries are applied, and the log may be compacted. -/
theorem apply (h : Coherent codec x) (hy : Applied x y) : Becomes codec x.view y := by
  obtain ⟨hsame, hlog, hlower, hupper, hexec⟩ := hy
  have htrim := hlog.trimmed h.logged.wf
  have happlied := h.applied
  have hsnap := h.snapshot
  have hlogged : Logged codec y.log := by
    rcases hlog with hlog | ⟨data, hlog⟩
    · rw [hlog]
      exact h.logged
    · exact h.logged.call (c := .compactApplied _) trivial hlog
  have hcommit : y.commitIndex = x.commitIndex := by rw [hsame]
  have hterm : y.currentTerm = x.currentTerm := by rw [hsame]
  have hvote : y.votedFor = x.votedFor := by rw [hsame]
  have hrole : y.role = x.role := by rw [hsame]
  have hids : y.nodeId :: y.allPeers = x.nodeId :: x.allPeers := by rw [hsame]
  refine ⟨⟨hlogged, ?_, ?_, ?_, ?_, ?_, ?_, ?_, ?_⟩, ⟨?_, ?_, hlower, htrim.lower, fun _ => ?_⟩⟩
  · rw [htrim.hard, hterm, hvote]
    exact h.hard
  · rw [htrim.lastTerm, hterm]
    exact h.last
  · rcases htrim.upper with hu | hu <;> omega
  · rw [hcommit]
    rcases hupper with hu | hu <;> omega
  · rw [hcommit, htrim.lastIndex]
    exact h.commit
  · rw [hcommit]
    exact hexec h.exec
  · rw [hrole, hterm]
    exact h.role
  · rw [hids]
    exact h.ids
  · exact hterm.ge
  · exact hcommit.ge
  · exact .inl hvote

/-- The commit index moves within the log. -/
theorem commitTo (h : Coherent codec x) {commit : ℤ} (hlow : x.commitIndex ≤ commit)
    (hhigh : commit ≤ x.log.lastIndex) : Becomes codec x.view { x with commitIndex := commit } :=
  ⟨{ h with
    applied := h.applied.trans hlow
    commit := hhigh
    exec := h.exec.mono hlow }, ⟨le_rfl, hlow, le_rfl, le_rfl, fun _ => .inl rfl⟩⟩

/-- Another log after the same snapshot, which still has what is committed. -/
theorem relog (h : Coherent codec x) {log : AbstractLog} (hlogged : Logged codec log)
    (hhard : log.hardState = x.log.hardState) (hlast : log.lastTerm ≤ x.currentTerm)
    (hsnap : log.snapshot = x.log.snapshot) (hcommit : x.commitIndex ≤ log.lastIndex) :
    Becomes codec x.view { x with log := log } :=
  ⟨{ h with
    logged := hlogged
    hard := hhard ▸ h.hard
    last := hlast
    snapshot := hsnap ▸ h.snapshot
    commit := hcommit },
    ⟨le_rfl, le_rfl, le_rfl, (congrArg Snapshot.index hsnap).ge, fun _ => .inl rfl⟩⟩

/-- A leader commits and applies. -/
theorem advances (h : Coherent codec x) (hy : x.Advances y) :
    Becomes codec x.view y ∧ y.Caught := by
  obtain ⟨commit, hcommit, happ, hrest⟩ := hy
  refine ⟨?_, hrest.caught⟩
  rcases hcommit with rfl | ⟨hlt, hterm⟩
  · exact h.apply happ
  have hle : commit ≤ x.log.lastIndex :=
    AbstractLog.le_lastIndex_of_getTerm h.logged.wf.snapshot_index_nonneg
      (by have := h.term_bounds; omega)
  have hto := h.commitTo hlt.le hle
  exact hto.trans (hto.coherent.apply happ)

/-! ### Proposals and elections -/

theorem isChain_of_eq {t : ℤ} {l : List ℤ} (hl : ∀ u ∈ l, u = t) :
    ∀ {a : ℤ}, a ≤ t → (a :: l).IsChain (· ≤ ·) := by
  induction l with
  | nil => exact fun _ => List.isChain_singleton _
  | cons u l ih =>
    intro a ha
    obtain rfl := hl u List.mem_cons_self
    rw [List.isChain_cons_cons]
    exact ⟨ha, ih (fun v hv => hl v (List.mem_cons_of_mem _ hv)) le_rfl⟩

theorem mem_proposalEntries {first term : ℤ} {proposals : List Proposal} {e : LogEntry}
    (he : e ∈ proposalEntries first term proposals) :
    e.term = term ∧ ∃ p ∈ proposals, e.command = p.command := by
  obtain ⟨i, hi, rfl⟩ := List.mem_mapIdx.mp he
  exact ⟨rfl, _, List.getElem_mem hi, rfl⟩

/-- Proposals are appended in the term of the leader. -/
theorem logged_proposals (h : Coherent codec x) (hcodec : Covers codec) (hpos : 0 < x.currentTerm)
    {proposals : List Proposal} (hfit : Fitting proposals) {log : AbstractLog}
    (hlog : x.log.appendBatch (fun _ => true)
      (proposalEntries (x.log.lastIndex + 1) x.currentTerm proposals) = .ok log) :
    Logged codec log := by
  refine h.logged.append hcodec ⟨h.hard_saved hpos, fun e he => ?_, isChain_of_eq (fun t ht => ?_)
    h.last⟩ (fun e he => ?_) hlog
  · rw [(mem_proposalEntries he).1]
    exact h.term_bounds.2
  · obtain ⟨e, he, rfl⟩ := List.mem_map.mp ht
    exact (mem_proposalEntries he).1
  · obtain ⟨-, p, hp, hc⟩ := mem_proposalEntries he
    rw [hc]
    exact hfit p hp

theorem proposes (h : Coherent codec x) (hcodec : Covers codec) (hc : x.Caught)
    {proposals : List Proposal} (hy : x.Proposes proposals y) :
    Becomes codec x.view y ∧ y.Caught := by
  rcases hy with rfl | ⟨hrole, hfit, log, hlog, hadv⟩
  · exact ⟨h.refl, hc⟩
  have happ : Becomes codec x.view { x with log := log } := by
    refine h.relog (h.logged_proposals hcodec (h.role (.inr hrole)) hfit hlog) ?_ ?_ ?_ ?_
    all_goals obtain ⟨-, rfl⟩ := AbstractLog.appendBatch_ok hlog
    · rfl
    · exact AbstractLog.lastTerm_append_le h.last fun e he => (mem_proposalEntries he).1.le
    · rfl
    · rw [AbstractLog.lastIndex_append]
      exact h.commit.trans (by omega)
  exact (happ.coherent.advances hadv).imp_left happ.trans

/-- A candidate that wins appends its empty entry. -/
theorem leads (h : Coherent codec x) (hcodec : Covers codec) (hc : x.Caught)
    (hrole : x.role = .candidate) (hy : x.Leads y) : Becomes codec x.view y ∧ y.Caught := by
  have hlead : Coherent codec { x with role := .leader, leaderId := x.nodeId } :=
    { h with role := fun _ => h.role (.inl hrole) }
  exact hlead.proposes hcodec hc hy

theorem stand (h : Coherent codec x) (hmax : x.currentTerm ≠ int32Max) (deadline : ℤ) :
    Becomes codec x.view (x.stand deadline) := by
  obtain ⟨ht, ht'⟩ := h.term_bounds
  obtain ⟨hn, hn'⟩ := h.self_id
  have hlast := h.last
  refine ⟨{ h with
    logged := h.logged_hard (by omega) (by omega) (by omega) hn'
    hard := rfl
    last := hlast.trans (by dsimp only [Core.stand]; omega)
    role := fun _ => by dsimp only [Core.stand]; omega },
    ⟨by dsimp only [Core.view, Core.stand]; omega, le_rfl, le_rfl, le_rfl, fun heq => ?_⟩⟩
  have heq : x.currentTerm + 1 = x.currentTerm := heq
  omega

/-- A candidate votes for itself, and may win at once. -/
theorem stands (h : Coherent codec x) (hcodec : Covers codec) (hc : x.Caught) (hy : x.Stands y) :
    Becomes codec x.view y ∧ y.Caught := by
  obtain ⟨hmax, deadline, hy⟩ := hy
  have hstand := h.stand hmax deadline
  rcases hy with rfl | hy
  · exact ⟨hstand, hc⟩
  · exact (hstand.coherent.leads hcodec hc rfl hy).imp_left hstand.trans

end Coherent

/-! ## Handlers -/

theorem Core.Caught.follow {x : Core} (h : x.Caught) (term deadline : ℤ) :
    (x.follow term deadline).Caught := by
  unfold Core.follow Core.adopt
  split_ifs
  · exact h
  · exact h

theorem Core.follow_currentTerm (x : Core) (term deadline : ℤ) :
    (x.follow term deadline).currentTerm = max x.currentTerm term :=
  x.adopt_currentTerm term

theorem Core.follow_ident (x : Core) (term deadline : ℤ) :
    (x.follow term deadline).ident = x.ident := by
  rw [Core.follow, Core.adopt_eq]
  rfl

theorem Core.follow_running (x : Core) (term deadline : ℤ) :
    (x.follow term deadline).running = x.running :=
  congrArg Node.running (x.follow_ident term deadline)

theorem Core.follow_replies (x : Core) (term deadline : ℤ) :
    (x.follow term deadline).replies = x.replies := by
  rw [Core.follow, Core.adopt_eq]

/-- What the checks of `HandleAppendEntries` establish. -/
structure AppendChecks (x : Core) (peer : ℤ) (request : AppendEntries) : Prop where
  running : x.running = true
  peer : x.ident.isRemotePeer peer = true
  term : 0 < request.term
  prev : 0 ≤ request.prevLogIndex
  prevTerm : 0 ≤ request.prevLogTerm
  zero : request.prevLogIndex = 0 → request.prevLogTerm = 0
  entries : EntriesFit request.term (request.prevLogIndex + 1) request.prevLogTerm request.entries
  fitting : ∀ e ∈ request.entries, e.command.length ≤ kMaxCommandBytes

/-- The entries of a valid request are within the limit. -/
theorem fitting_of_validEntries {term : ℤ} {es : List LogEntry} :
    ∀ {index previousTerm : ℤ}, validEntries term index previousTerm es = true →
      ∀ e ∈ es, e.command.length ≤ kMaxCommandBytes := by
  induction es with
  | nil => exact fun _ e he => (nomatch he)
  | cons e es ih =>
    intro index previousTerm hv e' he'
    simp only [validEntries, Bool.and_eq_true, decide_eq_true_eq] at hv
    rcases List.mem_cons.mp he' with rfl | he'
    · exact hv.1.2
    · exact ih hv.2 e' he'

theorem appendChecks_of_valid {x : Core} {peer : ℤ} {request : AppendEntries}
    (h : request.valid x.ident peer = true) : AppendChecks x peer request := by
  have hentries := AppendEntries.valid_entries h
  simp only [AppendEntries.valid, Bool.and_eq_true, decide_eq_true_eq] at h
  obtain
    ⟨⟨⟨⟨⟨⟨⟨⟨⟨⟨⟨hrun, hpeer⟩, -⟩, hterm⟩, -⟩, hprev⟩, hprevTerm⟩, -⟩, -⟩, -⟩, hzero⟩, hvalid⟩ := h
  exact ⟨hrun, hpeer, hterm, hprev, hprevTerm, hzero.mp, hentries, fitting_of_validEntries hvalid⟩

theorem AppendChecks.follow {x : Core} {peer : ℤ} {request : AppendEntries}
    (h : AppendChecks x peer request) (term deadline : ℤ) :
    AppendChecks (x.follow term deadline) peer request :=
  { h with
    running := (x.follow_running term deadline).trans h.running
    peer := (x.follow_ident term deadline).symm ▸ h.peer }

/-- What the checks of `HandleInstallSnapshot` establish. -/
structure InstallChecks (x : Core) (peer : ℤ) (request : InstallSnapshot) : Prop where
  running : x.running = true
  term : 0 < request.term
  includedTerm : request.lastIncludedTerm ≤ request.term

theorem installChecks_of_valid {x : Core} {peer : ℤ} {request : InstallSnapshot}
    (h : request.valid x.ident peer = true) : InstallChecks x peer request := by
  simp only [InstallSnapshot.valid, Bool.and_eq_true, decide_eq_true_eq] at h
  obtain ⟨⟨⟨⟨⟨⟨⟨⟨⟨hrun, -⟩, -⟩, hterm⟩, -⟩, -⟩, -⟩, hincluded⟩, -⟩, -⟩ := h
  exact ⟨hrun, hterm, hincluded⟩

theorem isRemotePeer_of_valid {x : Core} {peer : ℤ} {request : RequestVote}
    (h : request.valid x.ident peer = true) : x.ident.isRemotePeer peer = true := by
  simp only [RequestVote.valid, Bool.and_eq_true] at h
  exact h.1.1.1.1.1.2

namespace Coherent

variable {codec : EntryCodec} {x y : Core} {taken : Prop} {peer : ℤ}

/-! ### Votes -/

/-- A vote that is granted or refused. -/
theorem casts (h : Coherent codec x) (hc : x.Caught) {request : RequestVote}
    (hp : 0 ≤ peer ∧ peer ≤ int32Max) (hy : x.Casts taken peer request y) :
    Becomes codec x.view y ∧ y.Caught := by
  unfold Core.Casts at hy
  split_ifs at hy with hfree
  · obtain ⟨deadline, hy⟩ := hy
    have hvote := h.vote hp hfree.2.1 deadline
    exact (hvote.coherent.answers hc hy).imp_left hvote.trans
  · exact h.answers hc hy

theorem handlesVote (h : Coherent codec x) (hc : x.Caught) {request : RequestVote} {time : ℤ}
    (hterm : request.term ≤ int32Max) (hy : x.HandlesVote time taken peer request y) :
    Becomes codec x.view y ∧ y.Caught := by
  unfold Core.HandlesVote at hy
  split_ifs at hy with hvalid hrefuse
  · exact h.answers hc hy
  · have hp := h.peer_id (isRemotePeer_of_valid hvalid)
    unfold Core.Considers at hy
    split_ifs at hy with hpre hnew
    · exact h.answers hc hy
    · obtain ⟨deadline, hy⟩ := hy
      have hfollow := h.follow hterm deadline
      exact (hfollow.coherent.casts (hc.follow _ _) hp hy).imp_left hfollow.trans
    · exact h.casts hc hp hy
  · rw [hy]
    exact ⟨h.refl, hc⟩

/-- A vote may be the last that is needed. -/
theorem handlesVoteReply (h : Coherent codec x) (hcodec : Covers codec) (hc : x.Caught)
    {response : RequestVoteResponse} (hterm : response.term ≤ int32Max)
    (hy : x.HandlesVoteReply peer response y) : Becomes codec x.view y ∧ y.Caught := by
  have hvotes : Coherent codec { x with votes := insert peer x.votes } := { h with }
  unfold Core.HandlesVoteReply at hy
  split_ifs at hy with hfrom hnew hpre hquorum hcand
  · obtain ⟨deadline, rfl⟩ := hy
    exact ⟨h.follow hterm deadline, hc.follow _ _⟩
  · exact hvotes.stands hcodec hc hy
  · rw [hy]
    exact ⟨⟨hvotes, .refl _⟩, hc⟩
  · rcases hy with hy | rfl
    · exact hvotes.leads hcodec hc hcand.1 hy
    · exact ⟨⟨hvotes, .refl _⟩, hc⟩
  · rw [hy]
    exact ⟨h.refl, hc⟩
  · rw [hy]
    exact ⟨h.refl, hc⟩

/-! ### Entries -/

section Entries

variable {request : AppendEntries} {missing : List LogEntry} {log log' : AbstractLog}

section

variable (h : Coherent codec x) (hcodec : Covers codec)
include h hcodec

/-- The entries that are missing are appended. -/
theorem logged_entries (hv : AppendChecks x peer request) (hterm : x.currentTerm = request.term)
    (hmatch : x.log.getTerm request.prevLogIndex = request.prevLogTerm)
    (hrec : Reconciled x.log x.commitIndex request.entries missing log)
    (happ : log.appendBatch (fun _ => true) missing = .ok log') : Logged codec log' := by
  have hlogged := h.logged.reconciled hrec
  obtain ⟨-, hhard, -, hmem⟩ := hrec.same
  refine hlogged.append hcodec ⟨?_, fun e he => ?_, ?_⟩ (fun e he => hv.fitting e (hmem e he)) happ
  · rw [hhard]
    exact h.hard_saved (hterm ▸ hv.term)
  · have := hv.entries.term_le e (hmem e he)
    have := h.term_bounds
    omega
  · exact hrec.chain h.logged.wf hlogged.wf hv.entries hv.prevTerm hmatch

/-- A request that matches is taken over. -/
theorem accepts (hv : AppendChecks x peer request) (hterm : x.currentTerm = request.term)
    (hmatch : x.log.getTerm request.prevLogIndex = request.prevLogTerm)
    (hy : x.Accepts taken peer request y) : Becomes codec x.view y ∧ y.Caught := by
  obtain ⟨missing, log, log', z, hrec, happ, hz, hrest, hans⟩ := hy
  have hlogged' := h.logged_entries hcodec hv hterm hmatch hrec happ
  obtain ⟨hsnap, hhard, hnil, hmem⟩ := hrec.same
  obtain ⟨hcovers, hcommit⟩ := hrec.covers h.logged.wf hv.entries hv.prevTerm hmatch h.commit
  have hle : ∀ e ∈ missing, e.term ≤ x.currentTerm := fun e he => by
    rw [hterm]
    exact hv.entries.term_le e (hmem e he)
  have hlast : log.lastTerm ≤ x.currentTerm := by
    have hchain :=
      hrec.chain h.logged.wf (h.logged.reconciled hrec).wf hv.entries hv.prevTerm hmatch
    cases hm : missing with
    | nil =>
      rw [hnil hm]
      exact h.last
    | cons e rest =>
      rw [hm, List.map_cons] at hchain
      exact hchain.rel.trans (hle e (by rw [hm]; exact List.mem_cons_self))
  obtain ⟨-, rfl⟩ := AbstractLog.appendBatch_ok happ
  have hlen := AbstractLog.lastIndex_append (a := log) missing
  have hlog := h.relog hlogged' hhard (AbstractLog.lastTerm_append_le hlast hle) hsnap (by omega)
  have hhigh : max x.commitIndex (min request.leaderCommit (covered request)) ≤
      AbstractLog.lastIndex { log with entries := log.entries ++ missing } := by
    rw [hlen, covered]
    omega
  have hto := hlog.coherent.commitTo (le_max_left _ _) hhigh
  have happly := hto.coherent.apply hz
  exact (happly.coherent.answers hrest.caught hans).imp_left (hlog.trans hto |>.trans happly).trans

/-- A request of the leader of the term. -/
theorem followsLeader (hc : x.Caught)
    (hv : AppendChecks x peer request) (hterm : x.currentTerm = request.term) {time : ℤ}
    (hy : x.FollowsLeader time taken peer request y) : Becomes codec x.view y ∧ y.Caught := by
  obtain ⟨deadline, -, hy⟩ := hy
  have hheard : Coherent codec { x with leaderId := peer, electionDeadline := deadline } :=
    { h with }
  split_ifs at hy with hmatch
  · exact hheard.accepts hcodec { hv with } hterm hmatch hy
  · exact hheard.answers hc hy

theorem handlesAppend (hc : x.Caught)
    (hterm : request.term ≤ int32Max) {time : ℤ} (hy : x.HandlesAppend time taken peer request y) :
    Becomes codec x.view y ∧ y.Caught := by
  unfold Core.HandlesAppend at hy
  split_ifs at hy with hvalid hold hnew
  · exact h.answers hc hy
  · obtain ⟨deadline, hy⟩ := hy
    have hv := appendChecks_of_valid hvalid
    have hfollow := h.follow hterm deadline
    have hnow : (x.follow request.term deadline).currentTerm = request.term := by
      rw [Core.follow_currentTerm]
      omega
    exact (hfollow.coherent.followsLeader hcodec (hc.follow _ _) (hv.follow _ _) hnow hy).imp_left
      hfollow.trans
  · push Not at hnew
    exact h.followsLeader hcodec hc (appendChecks_of_valid hvalid) (by omega) hy
  · rw [hy]
    exact ⟨h.refl, hc⟩

end

end Entries

theorem handlesAppendReply (h : Coherent codec x) (hc : x.Caught) {term : ℤ}
    (hterm : term ≤ int32Max) (hy : x.HandlesAppendReply peer term y) :
    Becomes codec x.view y ∧ y.Caught := by
  rcases hy with rfl | ⟨-, deadline, rfl⟩ | ⟨-, hy⟩
  · exact ⟨h.refl, hc⟩
  · exact ⟨h.follow hterm deadline, hc.follow _ _⟩
  · exact h.advances hy

/-! ### Snapshots -/

section Snapshots

variable {request : InstallSnapshot}

/-- A snapshot of a term that is not higher may be installed. -/
theorem installing (h : Coherent codec x) (hpos : 0 < x.currentTerm) {s : Snapshot}
    (hs : s.index ≤ int64Max) (hterm : s.term ≤ x.currentTerm) :
    Installing (Logged codec) x.log s := by
  have hstaged : ∀ b, x.log.stageSnapshotInstall s = .ok b → Logged codec b := fun b hb =>
    h.logged.call (c := .stageSnapshotInstall s) hs hb
  refine ⟨h.logged, hstaged, fun b b' hb hb' => ?_⟩
  refine (hstaged b hb).call (c := .installSnapshot s)
    ⟨?_, hs, hterm.trans h.term_bounds.2⟩ hb'
  rw [AbstractLog.stageSnapshotInstall] at hb
  split_ifs at hb
  obtain rfl := Except.ok.inj hb
  exact h.hard_saved hpos

/-- An installed snapshot moves everything to its index. -/
theorem installs (h : Coherent codec x) (hall : x.commitIndex ≤ x.lastApplied)
    (hpos : 0 < x.currentTerm) {s : Snapshot} (hs : s.index ≤ int64Max)
    (hterm : s.term ≤ x.currentTerm) (hnew : x.lastApplied < s.index) (hy : x.Installs s y) :
    Becomes codec x.view y ∧ y.Caught := by
  obtain ⟨staged, hstage, hinstall, hy⟩ := hy
  have hlogged := (h.installing hpos hs hterm).installed staged y.log hstage hinstall
  obtain ⟨hsnap, hlow, hhard, hend, hlast⟩ := installed_of_ok h.logged.wf hstage hinstall
  have hsnap' : y.log.snapshot.index = s.index := congrArg Snapshot.index hsnap
  have hle := h.last
  have hmax : max x.commitIndex s.index = s.index := max_eq_right (by omega)
  rw [hmax] at hy
  generalize y.log = log at hy hlogged hhard hend hlast hsnap'
  generalize y.sm = sm at hy
  obtain rfl := hy
  refine ⟨⟨{ h with
    logged := hlogged
    hard := hhard ▸ h.hard
    last := by dsimp only; rcases hlast with hlast | hlast <;> omega
    snapshot := hsnap'.le
    applied := le_rfl
    commit := hend
    exec := h.exec.mono (by dsimp only; omega) },
    ⟨le_rfl, by dsimp only [Core.view]; omega, hnew.le, ?_, fun _ => .inl rfl⟩⟩, fun _ _ => le_rfl⟩
  dsimp only [Core.view]
  omega

/-- A chunk is kept, refused, or completes the snapshot. -/
theorem receives (h : Coherent codec x) (hc : x.Caught) (hrun : x.running = true)
    (hidle : x.applyInflight = false) (hpos : 0 < x.currentTerm)
    (hs : request.lastIncludedIndex ≤ int64Max) (hterm : request.lastIncludedTerm ≤ x.currentTerm)
    (hnew : x.lastApplied < request.lastIncludedIndex) (hy : x.Receives taken peer request y) :
    Becomes codec x.view y ∧ y.Caught := by
  have hholding : ∀ received, Coherent codec (x.holding received) := fun _ => { h with }
  unfold Core.Receives at hy
  split_ifs at hy with hfits hlarge hdone
  · exact (hholding {}).answers hc hy
  · obtain ⟨z, hz, hy⟩ := hy
    obtain ⟨hz, hcz⟩ :=
      (hholding (x.extended request)).installs (hc hrun hidle) hpos (s := x.complete request)
        hs hterm hnew hz
    exact (hz.coherent.answers hcz hy).imp_left hz.trans
  · exact (hholding (x.extended request)).answers hc hy
  · exact (hholding {}).answers hc hy

theorem followsSnapshot (h : Coherent codec x) (hc : x.Caught) (hrun : x.running = true)
    (hpos : 0 < x.currentTerm) (hs : request.lastIncludedIndex ≤ int64Max)
    (hterm : request.lastIncludedTerm ≤ x.currentTerm)
    (hy : x.FollowsSnapshot taken peer request y) : Becomes codec x.view y ∧ y.Caught := by
  obtain ⟨deadline, hy⟩ := hy
  have hheard : Coherent codec { x with leaderId := peer, electionDeadline := deadline } :=
    { h with }
  have hreset : Coherent codec { x with
      leaderId := peer
      electionDeadline := deadline
      snapshotReceive := {} } := { h with }
  split_ifs at hy with hold hbusy hlarge
  · exact hreset.answers hc hy
  · exact hheard.answers hc hy
  · exact hreset.answers hc hy
  · exact hheard.receives hc hrun (Bool.eq_false_iff.mpr hbusy) hpos hs
      hterm (not_le.mp hold) hy

theorem handlesInstall (h : Coherent codec x) (hc : x.Caught) (hterm : request.term ≤ int32Max)
    (hs : request.lastIncludedIndex ≤ int64Max) (hy : x.HandlesInstall taken peer request y) :
    Becomes codec x.view y ∧ y.Caught := by
  unfold Core.HandlesInstall at hy
  split_ifs at hy with hvalid hold hnew
  · exact h.answers hc hy
  · obtain ⟨deadline, hy⟩ := hy
    have hv := installChecks_of_valid hvalid
    have hpos := hv.term
    have hincluded := hv.includedTerm
    have hfollow := h.follow hterm deadline
    have hnow := x.follow_currentTerm request.term deadline
    exact (hfollow.coherent.followsSnapshot (hc.follow _ _)
      ((x.follow_running _ _).trans hv.running) (by omega) hs (by omega) hy).imp_left hfollow.trans
  · have hv := installChecks_of_valid hvalid
    have hpos := hv.term
    have hincluded := hv.includedTerm
    exact h.followsSnapshot hc hv.running (by omega) hs (by omega) hy
  · rw [hy]
    exact ⟨h.refl, hc⟩

end Snapshots

/-! ### The timer, start, and the executor -/

theorem ticks (h : Coherent codec x) (hcodec : Covers codec) (hc : x.Caught) {time : ℤ}
    (hy : x.Ticks time y) : Becomes codec x.view y ∧ y.Caught := by
  obtain ⟨z, hz, hy⟩ := hy
  obtain ⟨hxz, hcz⟩ : Becomes codec x.view z ∧ z.Caught := by
    rcases hz with rfl | ⟨-, ⟨-, hz⟩ | ⟨deadline, rfl⟩⟩
    · exact ⟨h.refl, hc⟩
    · exact h.stands hcodec hc hz
    · exact ⟨⟨{ h with role := fun hr => by rcases hr with hr | hr <;> cases hr }, .refl _⟩, hc⟩
  rcases hy with rfl | ⟨-, deadline, rfl⟩
  · exact ⟨hxz, hcz⟩
  · exact ⟨hxz.trans (hxz.coherent.follow hxz.coherent.term_bounds.2 deadline), hcz.follow _ _⟩

theorem starts (h : Coherent codec x) (hy : x.Starts y) : Becomes codec x.view y ∧ y.Caught := by
  obtain ⟨deadline, happ, hrest⟩ := hy
  have hrun : Coherent codec { x with running := true } := { h with }
  have hfollow := hrun.follow h.term_bounds.2 deadline
  exact ⟨hfollow.trans (hfollow.coherent.apply happ), hrest.caught⟩

/-- A completion makes a batch count as applied. -/
theorem completes (h : Coherent codec x) (hc : x.Caught) (hy : x.Completes y) :
    Becomes codec x.view y ∧ y.Caught := by
  rcases hy with ⟨-, rfl⟩ | ⟨completion, rest, hq, happ, hrest, hfirst⟩
  · exact ⟨h.refl, hc⟩
  have hend := h.exec.2 completion (by rw [hq]; exact List.mem_cons_self)
  have happlied := h.applied
  have hsnap := h.snapshot
  have hdone : Becomes codec x.view { x with
      exec := { x.exec with completions := rest }
      lastApplied := x.lastApplied + completion.count
      applyInflight := false } :=
    ⟨{ h with
      snapshot := by dsimp only; omega
      applied := by dsimp only; omega
      exec := ⟨h.exec.1, fun k hk => h.exec.2 k (by rw [hq]; exact List.mem_cons_of_mem _ hk)⟩ },
      ⟨le_rfl, le_rfl, by dsimp only [Core.view]; omega, le_rfl, fun _ => .inl rfl⟩⟩
  exact ⟨hdone.trans (hdone.coherent.apply happ), hrest.caught⟩

end Coherent

/-! ## Inputs -/

/-- The values of an `int32_t`. -/
def IsInt32 (v : ℤ) : Prop := -2 ^ 31 ≤ v ∧ v ≤ int32Max

/-- The values of an `int64_t`. -/
def IsInt64 (v : ℤ) : Prop := int64Min ≤ v ∧ v ≤ int64Max

instance (v : ℤ) : Decidable (IsInt32 v) := inferInstanceAs (Decidable (_ ∧ _))

instance (v : ℤ) : Decidable (IsInt64 v) := inferInstanceAs (Decidable (_ ∧ _))

/-- The fields of a message are values of their types. -/
def Typed : Message → Prop
  | .requestVote m => IsInt32 m.term ∧ IsInt32 m.candidateId ∧ IsInt64 m.lastLogIndex ∧
      IsInt64 m.lastLogTerm
  | .requestVoteResponse m => IsInt32 m.term
  | .appendEntries m => IsInt32 m.term ∧ IsInt32 m.leaderId ∧ IsInt64 m.prevLogIndex ∧
      IsInt64 m.prevLogTerm ∧ (∀ e ∈ m.entries, IsInt64 e.index ∧ IsInt32 e.term) ∧
      IsInt64 m.leaderCommit ∧ m.rpcId < 2 ^ 64
  | .appendEntriesResponse m => IsInt32 m.term ∧ IsInt64 m.lastLogIndex ∧ m.rpcId < 2 ^ 64
  | .installSnapshot m => IsInt32 m.term ∧ IsInt32 m.leaderId ∧ IsInt64 m.lastIncludedIndex ∧
      IsInt64 m.lastIncludedTerm ∧ IsInt64 m.offset ∧ m.rpcId < 2 ^ 64
  | .installSnapshotResponse m => IsInt32 m.term ∧ m.rpcId < 2 ^ 64

instance (m : Message) : Decidable (Typed m) :=
  match m with
  | .requestVote _ | .appendEntries _ | .installSnapshot _ | .appendEntriesResponse _
  | .installSnapshotResponse _ => inferInstanceAs (Decidable (_ ∧ _))
  | .requestVoteResponse _ => inferInstanceAs (Decidable (IsInt32 _))

/-- The message of an input, if it has one, is typed. -/
def TypedInput : Input → Prop
  | .deliver e => Typed e.message
  | _ => True

namespace Coherent

variable {codec : EntryCodec} {x y : Core} {input : Input}

/-- **Every input keeps a coherent core coherent**, and moves it only forward. -/
theorem steps (h : Coherent codec x) (hcodec : Covers codec) (hc : x.Caught)
    (ht : TypedInput input) {time : ℤ} {taken : Prop} (hy : x.Steps time taken input y) :
    Becomes codec x.view y ∧ y.Caught := by
  cases input with
  | deliver e =>
    obtain ⟨src, dst, inc, sentAt, message⟩ := e
    cases message with
    | requestVote m => exact h.handlesVote hc ht.1.2 hy
    | requestVoteResponse m => exact h.handlesVoteReply hcodec hc ht.2 hy
    | appendEntries m => exact h.handlesAppend hcodec hc ht.1.2 hy
    | appendEntriesResponse m => exact h.handlesAppendReply hc ht.1.2 hy
    | installSnapshot m => exact h.handlesInstall hc ht.1.2 ht.2.2.1.2 hy
    | installSnapshotResponse m =>
      rcases hy with rfl | ⟨-, deadline, rfl⟩
      · exact ⟨h.refl, hc⟩
      · exact ⟨h.follow ht.1.2 deadline, hc.follow _ _⟩
  | tick => exact h.ticks hcodec hc hy
  | start => exact h.starts hy
  | stop =>
    obtain rfl := hy
    refine ⟨⟨{ h with role := fun hr => ?_ }, .refl _⟩, fun hrun => (nomatch hrun)⟩
    rcases hr with hr | hr <;> cases hr
  | propose proposals => exact h.proposes hcodec hc hy
  | work =>
    obtain ⟨hy, hexec, -⟩ := hy
    have hexec := hexec _ h.exec
    rw [hy]
    exact ⟨⟨{ h with exec := hexec }, .refl _⟩, hc⟩
  | completion => exact h.completes hc hy
  | setSnapshotThreshold entries =>
    obtain rfl := hy
    exact ⟨⟨{ h with }, .refl _⟩, hc⟩
  | readIndex _ _ | setSnapshotChunkBytes _ | setLeaseReads _ =>
    obtain rfl := hy
    exact ⟨h.refl, hc⟩

/-! ### Logs that an exception leaves -/

theorem closed_logged (codec : EntryCodec) : Closed (Logged codec) := by
  rintro a b index ha (rfl | ⟨data, hb⟩)
  · exact ha
  · exact ha.call (c := .compactApplied _) trivial hb

theorem fitting_empty : Fitting [⟨[], none⟩] := by
  intro p hp
  obtain rfl := List.mem_singleton.mp hp
  exact Nat.zero_le _

/-- The start of an election leaves a log of the node at every point. -/
theorem standing (h : Coherent codec x) (hcodec : Covers codec) : Standing (Logged codec) x := by
  refine ⟨h.logged, fun hmax => (h.stand hmax 0).coherent.logged, fun hmax log hlog => ?_⟩
  have hstand := (h.stand hmax 0).coherent
  exact hstand.logged_proposals hcodec (hstand.role (.inl rfl)) fitting_empty hlog

/-- **Where an input throws, the log on disk is one that `RaftLog` keeps.** -/
theorem tears (h : Coherent codec x) (hcodec : Covers codec) (ht : TypedInput input) :
    Tears (Logged codec) x input := by
  cases input with
  | deliver e =>
    obtain ⟨src, dst, inc, sentAt, message⟩ := e
    cases message with
    | requestVote m =>
      intro hvalid
      have hadopt := (h.adopt ht.1.2).coherent
      obtain ⟨hp, hp'⟩ := h.peer_id (isRemotePeer_of_valid hvalid)
      obtain ⟨hterm, hterm'⟩ := hadopt.term_bounds
      exact ⟨h.logged, hadopt.logged, hadopt.logged_hard hterm hterm' (by omega) hp'⟩
    | requestVoteResponse m =>
      exact ⟨h.logged, (h.adopt ht.2).coherent.logged, fun _ _ => h.standing hcodec,
        fun hrole log hlog => h.logged_proposals hcodec (h.role (.inl hrole)) fitting_empty hlog⟩
    | appendEntries m =>
      intro hvalid hle
      have hv := appendChecks_of_valid hvalid
      have hfollow := (h.follow ht.1.2 0).coherent
      have hnow : (x.follow m.term 0).currentTerm = m.term := by
        rw [Core.follow_currentTerm]
        exact max_eq_right hle
      refine ⟨h.logged, hfollow.logged, fun hmatch missing log hrec => ?_⟩
      rw [← x.adopt_commitIndex m.term] at hrec
      exact ⟨hfollow.logged.reconciled hrec, fun log' happ =>
        hfollow.logged_entries hcodec (hv.follow m.term 0) hnow hmatch hrec happ⟩
    | appendEntriesResponse m => exact (h.adopt ht.1.2).coherent.logged
    | installSnapshot m =>
      intro hvalid hle
      have hv := installChecks_of_valid hvalid
      have hpos := hv.term
      have hincluded := hv.includedTerm
      have hadopt := (h.adopt ht.1.2).coherent
      have hnow := x.adopt_currentTerm m.term
      refine ⟨h.logged, hadopt.logged, fun _ s hindex hterm => ?_⟩
      exact hadopt.installing (by omega) (hindex ▸ ht.2.2.1.2) (by omega)
    | installSnapshotResponse m => exact (h.adopt ht.1.2).coherent.logged
  | tick => exact h.standing hcodec
  | propose proposals =>
    exact fun hrole hfit log hlog => h.logged_proposals hcodec (h.role (.inr hrole)) hfit hlog
  | start | stop | readIndex _ _ | work | completion | setSnapshotThreshold _
  | setSnapshotChunkBytes _ | setLeaseReads _ => trivial

end Coherent

end RaftKV.Local
