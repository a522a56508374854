import RaftKV.Consensus.Safety
import RaftKV.Cluster
import RaftKV.Node.Facts
import RaftKV.StoreFaults

/-!
# What a replica stores

A replica stands for its logical log, the list of all entries since the first. Its Raft
database keeps the entries after the snapshot (`LogRep`), and its KV database is the result of
running the entries it has applied (`storeOf`). A snapshot is the encoded contents after a
prefix (`snapshotOf`).

The operations on the two databases are stated in these terms. Those on the KV database need
commands that decode and touch user keys (`LogEntry.Served`); what holds of any command is
that a batch either moves the marker by its length or changes nothing (`applyBatch_cases`).
-/

namespace RaftKV

open Consensus (lastTerm)

instance : Consensus.HasTerm LogEntry := ⟨LogEntry.term⟩

@[simp] theorem term_eq (e : LogEntry) : Consensus.term e = e.term := rfl

/-! ## The logical log and the Raft database -/

/-- The database keeps the logical log `L` from some base on. -/
def LogRep (a : AbstractLog) (L : List LogEntry) : Prop :=
  ∃ base : ℕ, a.snapshot.index = base ∧ base ≤ L.length ∧ a.entries = L.drop base ∧
    a.snapshot.term = lastTerm (L.take base)

theorem lastTerm_take_succ {L : List LogEntry} {i : ℕ} (hi : i < L.length) :
    lastTerm (L.take (i + 1)) = L[i].term := by
  rw [List.take_succ_eq_append_getElem hi, lastTerm, List.getLast?_concat]
  rfl

theorem LogRep.empty : LogRep {} [] :=
  ⟨0, rfl, le_rfl, rfl, rfl⟩

namespace LogRep

variable {a : AbstractLog} {L : List LogEntry} (h : LogRep a L)
include h

theorem lastIndex_eq : a.lastIndex = L.length := by
  obtain ⟨base, hb, hle, he, -⟩ := h
  rw [AbstractLog.lastIndex, hb, he, List.length_drop]
  omega

theorem base_le : 0 ≤ a.snapshot.index ∧ a.snapshot.index ≤ L.length := by
  obtain ⟨base, hb, hle, -⟩ := h
  omega

theorem lastTerm_eq : a.lastTerm = lastTerm L := by
  obtain ⟨base, -, hle, he, ht⟩ := h
  rw [AbstractLog.lastTerm, he, ht, lastTerm, lastTerm]
  rcases hle.lt_or_eq with hlt | rfl
  · have hne : L.drop base ≠ [] := by simp [hlt]
    have hne' : L ≠ [] := by
      rintro rfl
      simp at hlt
    rw [List.getLast?_eq_some_getLast hne, List.getLast?_eq_some_getLast hne',
      List.getLast_drop hne]
    rfl
  · simp

theorem get_eq {i : ℕ} (hi : a.snapshot.index ≤ i) : a.get (i + 1) = L[i]? := by
  obtain ⟨base, hb, hle, he, -⟩ := h
  rw [AbstractLog.get, if_neg (by omega), he, List.getElem?_drop]
  congr 1
  omega

theorem getTerm_eq {i : ℕ} (hi : a.snapshot.index ≤ i) (hle : i ≤ L.length) :
    a.getTerm i = lastTerm (L.take i) := by
  rw [AbstractLog.getTerm]
  split_ifs with h0 hs
  · obtain rfl : i = 0 := by omega
    rfl
  · obtain ⟨base, hb, -, -, ht⟩ := h
    rw [ht, show base = i by omega]
  obtain ⟨k, rfl⟩ : ∃ k, i = k + 1 := ⟨i - 1, by omega⟩
  have hk : k < L.length := by omega
  rw [Nat.cast_add, Nat.cast_one, h.get_eq (by omega), List.getElem?_eq_getElem hk,
    lastTerm_take_succ hk]
  rfl

theorem of_getTerm {i : ℕ} (ht : a.getTerm i ≠ -1) :
    i ≤ L.length ∧ a.getTerm i = lastTerm (L.take i) := by
  by_cases h0 : i = 0
  · subst h0
    exact ⟨Nat.zero_le _, rfl⟩
  have hle := AbstractLog.le_lastIndex_of_getTerm h.base_le.1 ht
  rw [h.lastIndex_eq, Nat.cast_le] at hle
  exact ⟨hle, h.getTerm_eq (AbstractLog.snapshot_le_of_getTerm (by omega) ht) hle⟩

theorem congr {b : AbstractLog} (hs : b.snapshot = a.snapshot) (he : b.entries = a.entries) :
    LogRep b L := by
  obtain ⟨base, h₁, h₂, h₃, h₄⟩ := h
  exact ⟨base, by rw [hs, h₁], h₂, by rw [he, h₃], by rw [hs, h₄]⟩

theorem append (es : List LogEntry) : LogRep { a with entries := a.entries ++ es } (L ++ es) := by
  obtain ⟨base, hb, hle, he, ht⟩ := h
  refine ⟨base, hb, by simp; omega, ?_, ?_⟩
  · simp [he, List.drop_append_of_le_length hle]
  · simpa [List.take_append_of_le_length hle] using ht

theorem truncate (start : ℕ) (hb : a.snapshot.index ≤ start) :
    ∃ b, a.truncateSuffix (start + 1) = .ok b ∧ LogRep b (L.take start) ∧
      b.snapshot = a.snapshot ∧ b.hardState = a.hardState ∧ b.intent = a.intent := by
  obtain ⟨base, hbase, hle', he, ht⟩ := h
  rw [AbstractLog.truncateSuffix, if_neg (by omega)]
  refine ⟨_, rfl, ⟨base, hbase, by simp; omega, ?_, ?_⟩, rfl, rfl, rfl⟩
  · rw [he, List.drop_take,
      show ((start : ℤ) + 1 - a.snapshot.index - 1).toNat = start - base by omega]
  · rw [List.take_take, min_eq_left (by omega)]
    exact ht

theorem appendBatch_eq (es : List LogEntry)
    (hidx : ∀ i (hi : i < es.length), es[i].index = L.length + i + 1 ∧ 0 < es[i].term)
    (hmax : (L.length : ℤ) + es.length ≤ int64Max) :
    a.appendBatch (fun _ => true) es = .ok { a with entries := a.entries ++ es } := by
  have key : ∀ (es : List LogEntry) (last : ℤ),
      (∀ i (hi : i < es.length), es[i].index = last + i + 1 ∧ 0 < es[i].term) →
      last + es.length ≤ int64Max → AbstractLog.checkAppend (fun _ => true) last es = .ok () := by
    intro es
    induction es with
    | nil => intro last _ _; rfl
    | cons e es ih =>
      intro last hes hlen
      obtain ⟨hi, ht⟩ := hes 0 (by simp)
      simp only [List.getElem_cons_zero, Nat.cast_zero, List.length_cons, Nat.cast_add,
        Nat.cast_one] at hi ht hlen
      rw [AbstractLog.checkAppend, if_neg (by push Not; exact ⟨by omega, by omega, ht⟩), if_pos rfl]
      refine ih _ (fun i hi' => ?_) (by omega)
      obtain ⟨h₁, h₂⟩ := hes (i + 1) (by simpa using hi')
      simp only [List.getElem_cons_succ, Nat.cast_add, Nat.cast_one] at h₁ h₂
      exact ⟨by omega, h₂⟩
  rw [AbstractLog.appendBatch, h.lastIndex_eq, key es L.length hidx hmax]
  rfl

theorem compact {s : Snapshot} {k : ℕ} (hk : s.index = k) (hlt : a.snapshot.index < s.index)
    (hle : k ≤ L.length) (hterm : s.term = lastTerm (L.take k)) (hpos : 0 < s.term)
    (hdata : s.data.length ≤ kMaxSnapshotBytes) :
    a.compactApplied s = .ok { a with
      snapshot := s
      entries := a.entries.drop (s.index - a.snapshot.index).toNat
      intent := none } := by
  have hnn := h.base_le
  have hget : a.getTerm s.index = s.term := by
    rw [hk, h.getTerm_eq (by omega) hle, hterm]
  rw [AbstractLog.compactApplied, if_neg (by omega), h.lastIndex_eq,
    if_neg (by rw [hget]; push Not; exact ⟨by omega, rfl⟩), AbstractLog.persistSnapshot,
    if_neg (by push Not; exact ⟨by omega, hpos, hdata⟩)]
  rfl

theorem compact_rep {s : Snapshot} {k : ℕ} (hk : s.index = k) (hlt : a.snapshot.index < s.index)
    (hle : k ≤ L.length) (hterm : s.term = lastTerm (L.take k)) (i : Option Snapshot) :
    LogRep { a with
      snapshot := s
      entries := a.entries.drop (s.index - a.snapshot.index).toNat
      intent := i } L := by
  obtain ⟨base, hb, hle', he, -⟩ := h
  refine ⟨k, hk, hle, ?_, hterm⟩
  have hsum : base + (s.index - a.snapshot.index).toNat = k := by omega
  rw [he, List.drop_drop, hsum]

end LogRep

theorem LogRep.replace {a : AbstractLog} {s : Snapshot} {P : List LogEntry}
    (hk : s.index = P.length) (hterm : s.term = lastTerm P) (i : Option Snapshot) :
    LogRep { a with snapshot := s, entries := [], intent := i } P :=
  ⟨P.length, hk, le_rfl, by simp, by simpa using hterm⟩

/-- Installing a snapshot of `P` keeps a log that has the snapshot's entry, and otherwise
leaves `P`. -/
theorem LogRep.install {a : AbstractLog} {L P : List LogEntry} (h : LogRep a L) {s : Snapshot}
    (hk : s.index = P.length) (hlt : a.snapshot.index < s.index) (hterm : s.term = lastTerm P)
    (hpos : 0 < s.term) (hdata : s.data.length ≤ kMaxSnapshotBytes) :
    ∃ b, a.installSnapshot s = .ok b ∧ b.snapshot = s ∧ b.hardState = a.hardState ∧
      b.intent = none ∧
      LogRep b (if P.length ≤ L.length ∧ lastTerm (L.take P.length) = s.term then L else P) := by
  have hnn := h.base_le
  have hkeep : (s.index ≤ a.lastIndex ∧ a.getTerm s.index = s.term) ↔
      P.length ≤ L.length ∧ lastTerm (L.take P.length) = s.term := by
    rw [h.lastIndex_eq, hk, Nat.cast_le]
    refine and_congr_right fun hle => ?_
    rw [h.getTerm_eq (by omega) hle]
  rw [AbstractLog.installSnapshot, if_neg (by push Not; exact ⟨by omega, hpos⟩),
    if_neg (by omega), if_neg (by omega), AbstractLog.persistSnapshot,
    if_neg (by push Not; exact ⟨by omega, hpos, hdata⟩)]
  refine ⟨_, rfl, rfl, rfl, rfl, ?_⟩
  by_cases hc : P.length ≤ L.length ∧ lastTerm (L.take P.length) = s.term
  · rw [if_pos hc]
    simp only [hkeep.mpr hc, and_self, decide_true, if_true]
    exact h.compact_rep hk hlt hc.1 hc.2.symm _
  · rw [if_neg hc]
    simp only [mt hkeep.mp hc, decide_false, Bool.false_eq_true, if_false]
    exact LogRep.replace hk hterm _

/-! ## Applied entries and the KV database -/

/-- An entry as the server proposes it : its command decodes and touches user keys only. -/
def LogEntry.Served (e : LogEntry) : Prop :=
  ∃ c, decodeCommand e.command = some c ∧ c.Valid

/-- The command of an entry. -/
def LogEntry.decoded (e : LogEntry) : Command :=
  (decodeCommand e.command).getD .noop

/-- The contents after running entries. -/
def kvOf (P : List LogEntry) : DB :=
  (runAll ∅ (P.map LogEntry.decoded)).1

/-- The KV database and its marker after running entries. -/
def storeOf (P : List LogEntry) : Store :=
  ⟨if P = [] then ∅ else (kvOf P).insert appliedKey (encodeApplied P.length), P.length⟩

/-- The snapshot of the contents after running entries. -/
def snapshotOf (P : List LogEntry) : Bytes :=
  encodeEntries (kvOf P).toList

section Clean

variable {P Q : List LogEntry}

theorem LogEntry.decoded_valid {e : LogEntry} (h : Clean e.command) : e.decoded.Valid := by
  rw [LogEntry.decoded]
  cases hc : decodeCommand e.command with
  | none => trivial
  | some c => exact h c hc

theorem decodes_of_served (h : ∀ e ∈ P, e.Served) :
    Decodes (P.map LogEntry.command) (P.map LogEntry.decoded) := by
  rw [Decodes, List.forall₂_map_left_iff, List.forall₂_map_right_iff, List.forall₂_same]
  intro e he
  obtain ⟨c, hc, hv⟩ := h e he
  rw [LogEntry.decoded, hc]
  exact ⟨rfl, hv⟩

theorem valid_of_clean (h : ∀ e ∈ P, Clean e.command) : ∀ c ∈ P.map LogEntry.decoded, c.Valid := by
  intro c hc
  obtain ⟨e, he, rfl⟩ := List.mem_map.mp hc
  exact LogEntry.decoded_valid (h e he)

theorem kvOf_appliedKey (h : ∀ e ∈ P, Clean e.command) : (kvOf P)[appliedKey]? = none := by
  rw [kvOf, runAll_appliedKey (valid_of_clean h)]
  simp

theorem kvOf_append (P Q : List LogEntry) :
    kvOf (P ++ Q) = (runAll (kvOf P) (Q.map LogEntry.decoded)).1 := by
  rw [kvOf, List.map_append, runAll_append]
  rfl

theorem sessionsOk_kvOf (h : ∀ e ∈ P, Clean e.command) : SessionsOk (kvOf P) := by
  refine SessionsOk.runAll (fun client raw hraw => ?_) (valid_of_clean h)
  simp at hraw

/-- Applying the entries that follow the applied ones. -/
theorem applyBatch_storeOf (hP : ∀ e ∈ P, Clean e.command) (hQ : ∀ e ∈ Q, e.Served) (hne : Q ≠ [])
    (hmax : (P.length : ℤ) + Q.length ≤ int64Max) :
    ∃ replies, applyBatch true (P.length + 1) (Q.map LogEntry.command) (storeOf P) =
      .ok replies (storeOf (P ++ Q)) ∧ replies.length = Q.length := by
  have hsess : SessionsOk (storeOf P).db := by
    rw [storeOf]
    split_ifs
    · intro client raw hraw
      simp at hraw
    · exact (sessionsOk_kvOf hP).marker _
  have hrun := applyBatch_eq_runAll (storeOf P) hsess (decodes_of_served hQ) (by simpa using hne)
    (by simpa [storeOf] using hmax)
  have hfirst : (storeOf P).lastApplied = P.length := rfl
  rw [hfirst, List.length_map] at hrun
  refine ⟨(runAll (storeOf P).db (Q.map LogEntry.decoded)).2, hrun.trans ?_,
    by simp [length_runAll_replies]⟩
  congr 1
  have hdb : (runAll (storeOf P).db (Q.map LogEntry.decoded)).1.insert appliedKey
      (encodeApplied (P.length + Q.length)) =
      (kvOf (P ++ Q)).insert appliedKey (encodeApplied (P.length + Q.length)) := by
    rw [storeOf]
    split_ifs with hnil
    · subst hnil
      rfl
    · rw [runAll_marker (decodes_of_served hQ).valid, insert_insert_marker, kvOf_append]
  rw [hdb, storeOf, if_neg (by simp [hne])]
  simp

section

variable (h : ∀ e ∈ P, Clean e.command)
include h

theorem exportEntries_storeOf : (storeOf P).exportEntries = (kvOf P).toList := by
  rw [storeOf]
  split_ifs with hnil
  · subst hnil
    rw [Store.exportEntries_empty]
    simp [kvOf, runAll]
  · exact Store.exportEntries_marker (kvOf_appliedKey h) _ _

theorem exportSnapshot_storeOf {bytes : Bytes}
    (he : (storeOf P).exportSnapshot = .ok bytes) : bytes = snapshotOf P := by
  rw [Store.exportSnapshot_ok he, exportEntries_storeOf h, snapshotOf]

/-- Installing a snapshot of `P` on any store that is not ahead leaves the store of `P`. -/
theorem install_snapshotOf (hne : P ≠ [])
    (hlen : (snapshotOf P).length ≤ kMaxSnapshotBytes) {s : Store} (hs : s.lastApplied ≤ P.length) :
    ∃ entries batch, parseSnapshot (snapshotOf P) = .ok entries ∧
      s.replaceBatch P.length entries = .ok batch ∧ s.replaceAll P.length batch = storeOf P := by
  have hparse : parseSnapshot (snapshotOf P) = .ok (kvOf P).toList :=
    parseSnapshot_encodeEntries (exportable_of_length (hlen.trans (by decide)))
  obtain ⟨batch, hb⟩ := Store.replaceBatch_ok (kvOf_appliedKey h) hs
  refine ⟨_, batch, hparse, hb, ?_⟩
  rw [Store.replaceAll_db hb, storeOf, if_neg hne]

theorem marked_storeOf (hmax : (P.length : ℤ) ≤ int64Max) : (storeOf P).Marked := by
  refine ⟨by simp [storeOf], hmax, ?_⟩
  rw [storeOf]
  by_cases hnil : P = []
  · subst hnil
    simp
  · simp [hnil]

theorem construct_storeOf (hmax : (P.length : ℤ) ≤ int64Max) :
    Store.construct (storeOf P).db = .ok (storeOf P) := by
  refine Store.construct_eq (marked_storeOf h hmax) fun hzero => ?_
  have hnil : P = [] := by simpa [storeOf] using hzero
  simp [storeOf, hnil]

end

end Clean

/-! ## Any commands -/

/-- A batch of commands that can be decoded moves the marker by its length, or a batch throws and
changes nothing. -/
theorem applyBatch_cases {s : Store} (hm : s.Marked) (first : ℤ) {commands : List Bytes}
    (hne : commands ≠ []) : wp (applyBatch true first commands)
      (fun replies s' => s'.lastApplied = s.lastApplied + commands.length ∧
        replies.length = commands.length ∧ s'.Marked ∧
        ∀ command ∈ commands, (decodeCommand command).isSome) (fun _ s' => s' = s) s := by
  obtain ⟨h0, hmax, -⟩ := hm
  rcases Faulty.loops_cases s hmax first hne with
    ⟨⟨hpasses, -, hle⟩, b, ops, existed, hfold, hmsne, hcheck, hloop, hlen⟩ |
    ⟨-, ⟨msg, hfold⟩ | ⟨b, msg, hfold, hmsne, hcheck⟩⟩
  · have hpos : 0 < commands.length := List.length_pos_iff.mpr hne
    rw [wp, Faulty.applyBatch_of_loops hfold hmsne hcheck hloop]
    refine ⟨rfl, hlen, ⟨by dsimp only; omega, hle, ?_⟩, fun command hc => (hpasses command hc).1⟩
    rw [if_neg (by dsimp only; omega), Faulty.withMarker, DB.write_append]
    simp [DB.apply]
  · simp only [applyBatch, wp_bind, wp_get, wp_ofExcept, hfold]
  · simp only [applyBatch, Store.applyBatch, if_neg hmsne, wp_bind, wp_get, wp_ofExcept, hfold,
      hcheck]

theorem Store.marked_replaceAll {s : Store} {index : ℤ} {entries : List (Bytes × Bytes)}
    {batch : List BatchOp} (h : s.replaceBatch index entries = .ok batch) (hpos : 0 < index)
    (hmax : index ≤ int64Max) : (s.replaceAll index batch).Marked := by
  rw [Store.replaceBatch] at h
  split_ifs at h
  obtain rfl := Except.ok.inj h
  refine ⟨hpos.le, hmax, ?_⟩
  rw [Store.replaceAll, if_neg (by simpa using hpos.ne'), DB.write_append]
  simp [DB.apply]

end RaftKV
