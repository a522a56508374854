import RaftKV.StoreFaults

/-!
# Idempotent writes

A state machine applies batches of committed commands, is closed and opened again, and hands its
contents to another machine in a snapshot (`Machine.Event`). Whatever the order of these events,
the contents and the replies are those of the commands run one at a time on an empty database
(`Machine.Holds`), so that what is known of `Command.run` is known of every machine : the request
id in the record of a client only grows, an idempotent write with a request id that is not larger
changes nothing, and the reply in the record is the one the write with its request id was given
(`exists_executed`).
-/

namespace RaftKV

open Faulty (Opened)

/-! ## The contents of a store -/

theorem Store.getElem?_contents (s : Store) {key : Bytes} (h : key ≠ appliedKey) :
    s.contents[key]? = s.db[key]? := by
  rw [Store.contents, DB.getElem?_erase_eq, if_neg h.symm]

theorem Store.getElem?_contents_marker (s : Store) : s.contents[appliedKey]? = none := by
  rw [Store.contents, DB.getElem?_erase_eq, if_pos rfl]

theorem DB.erase_marker {db : DB} (h : db[appliedKey]? = none) : db.erase appliedKey = db := by
  refine Std.ExtTreeMap.ext_getElem? fun key => ?_
  rw [DB.getElem?_erase_eq]
  split_ifs with hkey
  · rw [← hkey, h]
  · rfl

/-- A database is its contents, or these with a marker. -/
theorem Store.db_eq (s : Store) :
    s.db = s.contents ∨ ∃ v, s.db = s.contents.insert appliedKey v := by
  cases hv : s.db[appliedKey]? with
  | none => exact .inl (DB.erase_marker hv).symm
  | some v =>
    refine .inr ⟨v, Std.ExtTreeMap.ext_getElem? fun key => ?_⟩
    rw [DB.getElem?_insert_eq]
    split_ifs with hkey
    · rw [← hkey, hv]
    · exact (s.getElem?_contents (Ne.symm hkey)).symm

/-- Valid commands see the contents only. -/
theorem Store.runAll_contents (s : Store) {cs : List Command} (h : ∀ c ∈ cs, c.Valid) :
    (runAll s.db cs).2 = (runAll s.contents cs).2 ∧
      (runAll s.db cs).1.erase appliedKey = (runAll s.contents cs).1 := by
  have hnone : (runAll s.contents cs).1[appliedKey]? = none := by
    rw [runAll_appliedKey h, s.getElem?_contents_marker]
  rcases s.db_eq with hdb | ⟨v, hdb⟩
  · rw [hdb]
    exact ⟨rfl, DB.erase_marker hnone⟩
  · rw [hdb, runAll_marker h]
    exact ⟨rfl, (erase_insert_marker _ _).trans (DB.erase_marker hnone)⟩

theorem Store.sessionsOk_contents {s : Store} : SessionsOk s.contents ↔ SessionsOk s.db :=
  forall_congr' fun client => by
    rw [s.getElem?_contents (clientSessionKey_ne_appliedKey client)]

theorem sessionsOk_empty : SessionsOk ∅ := by
  intro client raw h
  simp at h

/-- The batch that follows what an open store has applied, if it is taken, leaves an open store,
with the contents and the replies of its commands one at a time. -/
theorem applyBatch_contents {s t : Store} (hs : Opened s) (hok : SessionsOk s.contents)
    {commands : List Bytes} {cs : List Command} (h : Decodes commands cs) {replies : List Bytes}
    (happly : applyBatch true (s.lastApplied + 1) commands s = .ok replies t) :
    Opened t ∧ replies = (runAll s.contents cs).2 ∧ t.contents = (runAll s.contents cs).1 := by
  by_cases hne : commands = []
  · subst hne
    cases h
    obtain ⟨rfl, rfl⟩ := EStateM.Result.ok.inj happly
    exact ⟨hs, rfl, rfl⟩
  obtain ⟨ht, hlast⟩ := Faulty.applyBatch_ok hs hne happly
  have hmax : s.lastApplied + cs.length ≤ int64Max := by
    rw [← h.length_eq, ← hlast]
    exact ht.range.2
  have hrun := applyBatch_eq_runAll s (Store.sessionsOk_contents.mp hok) h hne hmax
  obtain ⟨hreplies, hcontents⟩ := s.runAll_contents h.valid
  obtain ⟨rfl, rfl⟩ := EStateM.Result.ok.inj (happly.symm.trans hrun)
  exact ⟨ht, hreplies, (erase_insert_marker _ _).trans hcontents⟩

/-! ## Machines -/

namespace Machine

/-- What happens to a state machine : it applies the next batch, it is opened again on its
database, or it hands a snapshot to another machine, which we follow from then on. -/
inductive Event where
  | apply (commands : List Bytes)
  | reopen
  | transfer (other : Store) (index : ℤ)

/-- An event, with the replies it gives. -/
def step (s : Store) : Event → Except String (Store × List Bytes)
  | .apply commands =>
    match applyBatch true (s.lastApplied + 1) commands s with
    | .ok replies t => .ok (t, replies)
    | .error message _ => .error message
  | .reopen => do
    let t ← Store.construct s.db
    return (t, [])
  | .transfer other index => do
    let bytes ← s.exportSnapshot
    let t ← other.installSnapshot index bytes
    return (t, [])

/-- Events one after the other. -/
def run : List Event → Store → Except String (Store × List Bytes)
  | [], s => .ok (s, [])
  | e :: events, s => do
    let (s', replies) ← step s e
    let (t, rest) ← run events s'
    return (t, replies ++ rest)

/-- The commands of a batch are valid; the other machine is open, whatever it holds, and the
index of a snapshot is an `int64`. -/
def Event.Valid : Event → Prop
  | .apply commands => ∀ bytes ∈ commands, ∃ c, decodeCommand bytes = some c ∧ c.Valid
  | .reopen => True
  | .transfer other index => Opened other ∧ index ≤ int64Max

/-- The commands that an event applies. -/
def Event.decoded : Event → List Command
  | .apply commands => commands.filterMap decodeCommand
  | .reopen => []
  | .transfer _ _ => []

/-- The commands that were committed. -/
def committed (events : List Event) : List Command :=
  events.flatMap Event.decoded

/-- The contents after the first `i` of the committed commands. -/
def contentsAfter (cs : List Command) (i : ℕ) : DB :=
  (runAll ∅ (cs.take i)).1

/-- What an event needs to succeed : the indexes are `int64` values, and the snapshot is one that
can be written and does not take the other machine back. -/
def Event.Fits (s : Store) : Event → Prop
  | .apply commands => s.lastApplied + commands.length ≤ int64Max
  | .reopen => True
  | .transfer other index => Exportable s.exportEntries ∧ other.lastApplied ≤ index

/-- The store of a machine after the commands `cs`. -/
structure Holds (cs : List Command) (s : Store) : Prop where
  opened : Opened s
  valid : ∀ c ∈ cs, c.Valid
  contents : s.contents = (runAll ∅ cs).1

theorem holds_new : Holds [] ⟨∅, 0⟩ := by
  refine ⟨by decide, nofun, ?_⟩
  exact DB.erase_marker (by simp)

variable {cs : List Command} {s t : Store} {e : Event} {replies : List Bytes}

theorem Holds.sessionsOk (h : Holds cs s) : SessionsOk s.contents := by
  rw [h.contents]
  exact sessionsOk_empty.runAll h.valid

theorem decodes_filterMap {commands : List Bytes}
    (h : ∀ bytes ∈ commands, ∃ c, decodeCommand bytes = some c ∧ c.Valid) :
    Decodes commands (commands.filterMap decodeCommand) := by
  induction commands with
  | nil => exact .nil
  | cons bytes commands ih =>
    obtain ⟨c, hc, hv⟩ := h bytes List.mem_cons_self
    rw [List.filterMap_cons_some hc]
    exact .cons ⟨hc, hv⟩ (ih fun bytes' hmem => h bytes' (List.mem_cons_of_mem _ hmem))

theorem Event.Valid.decoded (h : e.Valid) : ∀ c ∈ e.decoded, c.Valid := by
  cases e with
  | apply commands => exact (decodes_filterMap h).valid
  | reopen => nofun
  | transfer other index => nofun

theorem step_reopen (h : Opened s) : step s .reopen = .ok (s, []) := by
  rw [Opened] at h
  rw [step, h]
  rfl

/-- The contents go over to the other machine. -/
theorem step_transfer {other : Store} {index : ℤ} (hexport : Exportable s.exportEntries)
    (hindex : other.lastApplied ≤ index) : step s (.transfer other index) =
      .ok (⟨s.contents.insert appliedKey (encodeApplied index), index⟩, []) := by
  obtain ⟨batch, hbatch⟩ := Store.replaceBatch_ok s.getElem?_contents_marker hindex
  have hentries : s.exportEntries = s.contents.toList := s.exportEntries_eq
  rw [step, Store.exportSnapshot_ok_iff.mpr ⟨hexport, rfl⟩]
  simp only [bind, Except.bind, Store.installSnapshot]
  rw [parseSnapshot_encodeEntries hexport, hentries]
  simp only [hbatch, Store.replaceAll_db hbatch]
  rfl

/-- A snapshot is only handed over if it can be written and installed. -/
theorem fits_of_step_transfer {other : Store} {index : ℤ}
    (h : step s (.transfer other index) = .ok (t, replies)) :
    Event.Fits s (.transfer other index) := by
  rw [step] at h
  cases hbytes : s.exportSnapshot with
  | error message =>
    rw [hbytes] at h
    cases h
  | ok bytes =>
    obtain ⟨hexport, rfl⟩ := Store.exportSnapshot_ok_iff.mp hbytes
    refine ⟨hexport, ?_⟩
    rw [hbytes] at h
    simp only [bind, Except.bind, Store.installSnapshot, parseSnapshot_encodeEntries hexport,
      Store.replaceBatch] at h
    by_contra hlt
    rw [if_pos (not_le.mp hlt)] at h
    cases h

theorem opened_installed {d : DB} {index : ℤ} (h0 : 0 ≤ index) (hmax : index ≤ int64Max) :
    Opened ⟨d.insert appliedKey (encodeApplied index), index⟩ := by
  have hlen : (encodeApplied index).length = 8 := length_beBytes 8 _
  rw [Opened, Store.construct, DB.getElem?_insert_eq, if_pos rfl]
  simp only [beNat_encodeApplied h0 hmax]
  rw [if_neg (not_not.mpr hlen), if_neg (not_lt.mpr hmax)]

/-- **One event.** -/
theorem Holds.step (h : Holds cs s) (he : e.Valid) (hstep : step s e = .ok (t, replies)) :
    Holds (cs ++ e.decoded) t ∧ replies = (runAll (runAll ∅ cs).1 e.decoded).2 := by
  have hvalid : ∀ c ∈ cs ++ e.decoded, c.Valid :=
    List.forall_mem_append.mpr ⟨h.valid, he.decoded⟩
  cases e with
  | apply commands =>
    rw [Machine.step] at hstep
    split at hstep
    · rename_i replies' t' happly
      obtain ⟨rfl, rfl⟩ := Prod.mk.inj (Except.ok.inj hstep)
      obtain ⟨ht, hreplies, hcontents⟩ :=
        applyBatch_contents h.opened h.sessionsOk (decodes_filterMap he) happly
      rw [h.contents] at hreplies hcontents
      exact ⟨⟨ht, hvalid, by rw [hcontents, runAll_append]; rfl⟩, hreplies⟩
    · cases hstep
  | reopen =>
    rw [step_reopen h.opened] at hstep
    obtain ⟨rfl, rfl⟩ := Prod.mk.inj (Except.ok.inj hstep)
    exact ⟨⟨h.opened, hvalid, by rw [Event.decoded, List.append_nil, h.contents]⟩, rfl⟩
  | transfer other index =>
    obtain ⟨hexport, hindex⟩ := fits_of_step_transfer hstep
    rw [step_transfer hexport hindex] at hstep
    obtain ⟨rfl, rfl⟩ := Prod.mk.inj (Except.ok.inj hstep)
    refine ⟨⟨opened_installed (he.1.range.1.trans hindex) he.2, hvalid, ?_⟩, rfl⟩
    rw [Event.decoded, List.append_nil, ← h.contents]
    exact (erase_insert_marker _ _).trans (DB.erase_marker s.getElem?_contents_marker)

/-- An event succeeds exactly if the indexes and the snapshot fit. -/
theorem Holds.step_ok_iff (h : Holds cs s)
    (he : e.Valid) : (∃ t replies, Machine.step s e = .ok (t, replies)) ↔ e.Fits s := by
  cases e with
  | apply commands =>
    have hdec := decodes_filterMap he
    by_cases hne : commands = []
    · subst hne
      exact iff_of_true ⟨s, [], rfl⟩ (by simpa [Event.Fits] using h.opened.range.2)
    constructor
    · rintro ⟨t, replies, hstep⟩
      rw [Machine.step] at hstep
      split at hstep
      · rename_i replies' t' happly
        obtain ⟨ht, hlast⟩ := Faulty.applyBatch_ok h.opened hne happly
        rw [Event.Fits, ← hlast]
        exact ht.range.2
      · cases hstep
    · intro hfits
      rw [Event.Fits, hdec.length_eq] at hfits
      have hrun := applyBatch_eq_runAll s (Store.sessionsOk_contents.mp h.sessionsOk) hdec hne hfits
      rw [Machine.step, hrun]
      exact ⟨_, _, rfl⟩
  | reopen => exact iff_of_true ⟨s, [], step_reopen h.opened⟩ trivial
  | transfer other index =>
    exact ⟨fun ⟨t, replies, hstep⟩ => fits_of_step_transfer hstep,
      fun hfits => ⟨_, _, step_transfer hfits.1 hfits.2⟩⟩

/-- **Any run of a machine.** -/
theorem Holds.run {events : List Event} (hvalid : ∀ e ∈ events, e.Valid) (h : Holds cs s)
    (hrun : run events s = .ok (t, replies)) : Holds (cs ++ committed events) t ∧
      replies = (runAll (runAll ∅ cs).1 (committed events)).2 := by
  induction events generalizing cs s replies with
  | nil =>
    obtain ⟨rfl, rfl⟩ := Prod.mk.inj (Except.ok.inj hrun)
    exact ⟨by simpa [committed] using h, rfl⟩
  | cons e events ih =>
    rw [Machine.run] at hrun
    cases hstep : Machine.step s e with
    | error message =>
      rw [hstep] at hrun
      cases hrun
    | ok p =>
      obtain ⟨s', first⟩ := p
      rw [hstep] at hrun
      cases hrest : Machine.run events s' with
      | error message =>
        simp only [bind, Except.bind, hrest] at hrun
        cases hrun
      | ok q =>
        obtain ⟨t', rest⟩ := q
        simp only [bind, Except.bind, hrest] at hrun
        obtain ⟨rfl, rfl⟩ := Prod.mk.inj (Except.ok.inj hrun)
        obtain ⟨hs', rfl⟩ := h.step (hvalid e List.mem_cons_self) hstep
        obtain ⟨ht, rfl⟩ := ih (fun e' he' => hvalid e' (List.mem_cons_of_mem _ he')) hs' hrest
        have hcat : committed (e :: events) = e.decoded ++ committed events := rfl
        rw [hcat, ← List.append_assoc]
        refine ⟨ht, ?_⟩
        rw [runAll_append, runAll_append]

/-! ## The record of a client -/

/-- Request ids are positive and fit their field, as `ParseIdempotentCommand` checks. -/
def InRange : Command → Prop
  | .idemp _ id _ => 0 < id ∧ id ≤ uint64Max
  | _ => True

theorem inRange_of_decodeCommand {bytes : Bytes} {c : Command} (h : decodeCommand bytes = some c) :
    InRange c := by
  rcases decodeCommand_cases h with ⟨-, rfl⟩ | ⟨-, -, -, hargs⟩
  · trivial
  rcases hargs with ⟨_, _, _, -, -, rfl⟩ | ⟨_, _, -, -, rfl⟩ | ⟨i, hi, rfl⟩
  · trivial
  · trivial
  · exact (parseIdempotentCommand_ok hi).2.2

theorem Event.decoded_inRange : ∀ c ∈ e.decoded, InRange c := by
  cases e with
  | apply commands =>
    intro c hc
    obtain ⟨bytes, -, hbytes⟩ := List.mem_filterMap.mp hc
    exact inRange_of_decodeCommand hbytes
  | reopen => nofun
  | transfer other index => nofun

/-- A command leaves the record of a client, or it is a write of this client with a larger request
id, which is recorded with its reply. -/
theorem sessionOf_run {db : DB} {c : Command} (hv : c.Valid) (hr : InRange c) (client : Bytes) :
    sessionOf (c.run db).1 client = sessionOf db client ∨
      ∃ id op, c = .idemp client id op ∧ (sessionOf db client).requestId < id ∧
        sessionOf (c.run db).1 client = ⟨id, (c.run db).2⟩ := by
  cases c with
  | noop => exact .inl rfl
  | write op => exact .inl (sessionOf_congr (op.run_session db hv client))
  | idemp who id op =>
    rw [Command.run]
    split_ifs with hlt heq
    · exact .inl rfl
    · exact .inl rfl
    by_cases hwho : who = client
    · subst hwho
      exact .inr ⟨id, op, rfl, by omega, sessionOf_insert_session _ _ hr.2 _⟩
    · refine .inl (sessionOf_congr ?_)
      rw [DB.getElem?_insert_eq, if_neg fun h => hwho (clientSessionKey_inj h)]
      exact op.run_session db hv client

section Commands

variable {cs : List Command} {i : ℕ} {c : Command}

theorem contentsAfter_succ (h : cs[i]? = some c) :
    contentsAfter cs (i + 1) = (c.run (contentsAfter cs i)).1 := by
  rw [contentsAfter, contentsAfter, List.take_add_one, h, runAll_append]
  rfl

theorem contentsAfter_of_none (h : cs[i]? = none) :
    contentsAfter cs (i + 1) = contentsAfter cs i := by
  rw [contentsAfter, contentsAfter, List.take_add_one, h]
  simp

theorem getElem?_replies (h : cs[i]? = some c) :
    (runAll ∅ cs).2[i]? = some (c.run (contentsAfter cs i)).2 := by
  obtain ⟨hi, rfl⟩ := List.getElem?_eq_some_iff.mp h
  have hlen : (runAll ∅ (cs.take i)).2.length = i := by
    rw [length_runAll_replies, List.length_take_of_le hi.le]
  conv_lhs => rw [← List.take_append_drop i cs, runAll_append, List.drop_eq_getElem_cons hi]
  rw [List.getElem?_append_right hlen.le, hlen, Nat.sub_self]
  rfl

variable (hv : ∀ c ∈ cs, c.Valid) (hr : ∀ c ∈ cs, InRange c) (client : Bytes)

include hv hr

theorem sessionOf_succ (i : ℕ) :
    sessionOf (contentsAfter cs (i + 1)) client = sessionOf (contentsAfter cs i) client ∨
      ∃ id op reply, cs[i]? = some (.idemp client id op) ∧ (runAll ∅ cs).2[i]? = some reply ∧
        (sessionOf (contentsAfter cs i) client).requestId < id ∧
        sessionOf (contentsAfter cs (i + 1)) client = ⟨id, reply⟩ := by
  cases hc : cs[i]? with
  | none => exact .inl (by rw [contentsAfter_of_none hc])
  | some c =>
    have hmem := List.mem_of_getElem? hc
    rw [contentsAfter_succ hc, getElem?_replies hc]
    rcases @sessionOf_run (contentsAfter cs i) c (hv c hmem) (hr c hmem) client with
      h | ⟨id, op, rfl, hlt, h⟩
    · exact .inl h
    · exact .inr ⟨id, op, _, rfl, rfl, hlt, h⟩

/-- **The request id of a client never decreases.** -/
theorem requestId_mono : Monotone fun i => (sessionOf (contentsAfter cs i) client).requestId := by
  refine monotone_nat_of_le_succ fun i => ?_
  rcases sessionOf_succ hv hr client i with h | ⟨id, op, reply, -, -, hlt, h⟩
  · rw [h]
  · rw [h]
    exact hlt.le

/-- **The record of a client is that of a write it made**, with the reply it was given. -/
theorem exists_executed (i : ℕ) (hne : (sessionOf (contentsAfter cs i) client).requestId ≠ 0) :
    ∃ k < i, ∃ op, cs[k]? =
        some (.idemp client (sessionOf (contentsAfter cs i) client).requestId op) ∧
      (sessionOf (contentsAfter cs k) client).requestId <
        (sessionOf (contentsAfter cs i) client).requestId ∧
      (runAll ∅ cs).2[k]? = some (sessionOf (contentsAfter cs i) client).reply := by
  induction i with
  | zero => exact absurd rfl hne
  | succ i ih =>
    rcases sessionOf_succ hv hr client i with h | ⟨id, op, reply, hc, hreply, hlt, h⟩
    · rw [h] at hne ⊢
      obtain ⟨k, hk, hrest⟩ := ih hne
      exact ⟨k, hk.trans i.lt_succ_self, hrest⟩
    · rw [h]
      exact ⟨i, i.lt_succ_self, op, hc, hlt, hreply⟩

end Commands

/-- What the `i`-th of the commands, an idempotent write, does : nothing unless its request id is
larger than the stored one. -/
structure Once (cs : List Command) (replies : List Bytes) (client : Bytes) (id i : ℕ) : Prop where
  unchanged : id ≤ (sessionOf (contentsAfter cs i) client).requestId →
    contentsAfter cs (i + 1) = contentsAfter cs i
  stale : id < (sessionOf (contentsAfter cs i) client).requestId → replies[i]? = some staleReply
  repeated : id = (sessionOf (contentsAfter cs i) client).requestId →
    ∃ k < i, ∃ op, cs[k]? = some (.idemp client id op) ∧
      (sessionOf (contentsAfter cs k) client).requestId < id ∧ replies[i]? = replies[k]?
  executed : (sessionOf (contentsAfter cs i) client).requestId < id →
    (sessionOf (contentsAfter cs (i + 1)) client).requestId = id ∧
      ∀ k op, cs[k]? = some (.idemp client id op) →
        (sessionOf (contentsAfter cs k) client).requestId < id → k = i

/-- A write that executes leaves its request id. -/
theorem requestId_executed {client : Bytes} {id i : ℕ} {op : WriteOp}
    (hid : id ≤ uint64Max) (hc : cs[i]? = some (.idemp client id op))
    (hlt : (sessionOf (contentsAfter cs i) client).requestId < id) :
    (sessionOf (contentsAfter cs (i + 1)) client).requestId = id := by
  rw [contentsAfter_succ hc, Command.run, if_neg (by omega), if_neg (by omega),
    sessionOf_insert_session _ _ hid]

theorem once_of_runAll (hv : ∀ c ∈ cs, c.Valid) (hr : ∀ c ∈ cs, InRange c)
    {client : Bytes} {id i : ℕ} {op : WriteOp} (hc : cs[i]? = some (.idemp client id op)) :
    Once cs (runAll ∅ cs).2 client id i := by
  have hid : 0 < id ∧ id ≤ uint64Max := hr _ (List.mem_of_getElem? hc)
  have hmono := requestId_mono hv hr client
  have hreply := getElem?_replies hc
  refine ⟨fun hle => ?_, fun hlt => ?_, fun heq => ?_, fun hlt => ⟨?_, fun k op' hk hkid => ?_⟩⟩
  · rw [contentsAfter_succ hc, Command.run]
    split_ifs with h1 h2
    · rfl
    · rfl
    · omega
  · rw [hreply, Command.run, if_pos hlt]
  · obtain ⟨k, hk, op', hck, hlt, hrk⟩ := exists_executed hv hr client i (by omega)
    rw [← heq] at hck hlt
    refine ⟨k, hk, op', hck, hlt, ?_⟩
    rw [hreply, hrk, Command.run, if_neg (by omega), if_pos heq]
  · exact requestId_executed hid.2 hc hlt
  -- whichever comes first leaves the request id, and the other finds it
  have hi := requestId_executed hid.2 hc hlt
  have hki := requestId_executed hid.2 hk hkid
  rcases lt_trichotomy k i with hord | hord | hord
  · have hle : k + 1 ≤ i := hord
    have := hmono hle
    dsimp only at this
    omega
  · exact hord
  have hle : i + 1 ≤ k := hord
  have := hmono hle
  dsimp only at this
  omega

/-- A run that succeeds, up to some event and from there. -/
theorem run_append_ok {xs ys : List Event} (h : run (xs ++ ys) s = .ok (t, replies)) :
    ∃ s' before after, run xs s = .ok (s', before) ∧ run ys s' = .ok (t, after) ∧
      replies = before ++ after := by
  induction xs generalizing s replies with
  | nil => exact ⟨s, [], replies, rfl, h, rfl⟩
  | cons e xs ih =>
    rw [List.cons_append, run] at h
    cases hstep : step s e with
    | error message =>
      rw [hstep] at h
      cases h
    | ok p =>
      obtain ⟨s₁, first⟩ := p
      rw [hstep] at h
      cases hrest : run (xs ++ ys) s₁ with
      | error message =>
        simp only [bind, Except.bind, hrest] at h
        cases h
      | ok q =>
        obtain ⟨t', rest⟩ := q
        simp only [bind, Except.bind, hrest] at h
        obtain ⟨rfl, rfl⟩ := Prod.mk.inj (Except.ok.inj h)
        obtain ⟨s', before, after, hxs, hys, rfl⟩ := ih hrest
        refine ⟨s', first ++ before, after, ?_, hys, (List.append_assoc _ _ _).symm⟩
        rw [run, hstep]
        simp only [bind, Except.bind, hxs]
        rfl

/-- After any of the events the machine has the contents after the commands so far, and has given
the replies to these. -/
theorem run_take {events : List Event} (hvalid : ∀ e ∈ events, e.Valid)
    (hrun : run events ⟨∅, 0⟩ = .ok (s, replies)) (j : ℕ) : ∃ t, run (events.take j) ⟨∅, 0⟩ =
        .ok (t, replies.take (committed (events.take j)).length) ∧
      t.contents = contentsAfter (committed events) (committed (events.take j)).length := by
  rw [← List.take_append_drop j events] at hrun
  obtain ⟨t, before, after, hbefore, -, rfl⟩ := run_append_ok hrun
  obtain ⟨ht, rfl⟩ :=
    holds_new.run (fun e he => hvalid e (List.mem_of_mem_take he)) hbefore
  have hcat : committed events = committed (events.take j) ++ committed (events.drop j) := by
    rw [committed, committed, committed, ← List.flatMap_append, List.take_append_drop]
  refine ⟨t, ?_, ?_⟩
  · rw [hbefore, List.take_left' (length_runAll_replies _ _)]
  · rw [ht.contents, hcat, contentsAfter, List.take_left]
    rfl

/-- **An idempotent write executes at most once.** Whatever batches of valid commands a machine
applies, however often it is opened again and its contents go over to another machine in between :
after each event it has the contents after the commands so far and has given the replies to them;
the request id stored for a client never decreases; an idempotent write changes nothing unless its
request id is larger than the stored one, so no two writes of a client with one request id both
do; one that repeats the stored request id is given the reply of the one that executed, and one
with a smaller request id the error. The next event succeeds if the indexes and the snapshot
fit. -/
theorem idempotent_write_executes_once {events : List Event} (hvalid : ∀ e ∈ events, e.Valid)
    {s : Store} {replies : List Bytes} (hrun : run events ⟨∅, 0⟩ = .ok (s, replies)) :
    (∀ j, ∃ t, run (events.take j) ⟨∅, 0⟩ =
        .ok (t, replies.take (committed (events.take j)).length) ∧
      t.contents = contentsAfter (committed events) (committed (events.take j)).length) ∧
    replies.length = (committed events).length ∧
    (∀ client, Monotone fun i =>
      (sessionOf (contentsAfter (committed events) i) client).requestId) ∧
    (∀ i client id op, (committed events)[i]? = some (.idemp client id op) →
      Once (committed events) replies client id i) ∧
    ∀ e : Event, e.Valid → ((∃ t rest, step s e = .ok (t, rest)) ↔ e.Fits s) := by
  obtain ⟨hs, hreplies⟩ := holds_new.run hvalid hrun
  have hreplies' : replies = (runAll ∅ (committed events)).2 := hreplies
  have hr : ∀ c ∈ committed events, InRange c := by
    intro c hc
    obtain ⟨e, -, he⟩ := List.mem_flatMap.mp hc
    exact Event.decoded_inRange c he
  refine ⟨run_take hvalid hrun, ?_, requestId_mono hs.valid hr, ?_, fun e he => hs.step_ok_iff he⟩
  · rw [hreplies', length_runAll_replies]
  · intro i client id op hc
    rw [hreplies']
    exact once_of_runAll hs.valid hr hc

/-- `IDEMP c 2 SET n:k v`; then, on a machine that is given the snapshot, the request id 2 again
with `DEL n:k` and the request id 1; then the machine is opened again. -/
def retries : List Event :=
  [.apply [ascii
      "*6\r\n$5\r\nIDEMP\r\n$1\r\nc\r\n$1\r\n2\r\n$3\r\nSET\r\n$3\r\nn:k\r\n$1\r\nv\r\n"],
    .transfer ⟨∅, 0⟩ 1,
    .apply [ascii "*5\r\n$5\r\nIDEMP\r\n$1\r\nc\r\n$1\r\n2\r\n$3\r\nDEL\r\n$3\r\nn:k\r\n",
      ascii "*5\r\n$5\r\nIDEMP\r\n$1\r\nc\r\n$1\r\n1\r\n$3\r\nDEL\r\n$3\r\nn:k\r\n"],
    .reopen]

theorem valid_retries : ∀ e ∈ retries, e.Valid := by
  intro e he
  simp only [retries, List.mem_cons, List.not_mem_nil, or_false] at he
  rcases he with rfl | rfl | rfl | rfl
  · intro bytes hmem
    obtain rfl := List.mem_singleton.mp hmem
    exact ⟨.idemp (ascii "c") 2 (.set (ascii "n:k") (ascii "v")), by decide +kernel, by decide⟩
  · exact ⟨by decide, by decide⟩
  · intro bytes hmem
    simp only [List.mem_cons, List.not_mem_nil, or_false] at hmem
    rcases hmem with rfl | rfl
    · exact ⟨.idemp (ascii "c") 2 (.del (ascii "n:k")), by decide +kernel, by decide⟩
    · exact ⟨.idemp (ascii "c") 1 (.del (ascii "n:k")), by decide +kernel, by decide⟩
  · trivial

theorem idempotent_write_executes_once_retries :
    ∃ s, run retries ⟨∅, 0⟩ = .ok (s, [okReply, okReply, staleReply]) ∧
      s.db[ascii "n:k"]? = some (ascii "v") ∧
      Once (committed retries) [okReply, okReply, staleReply] (ascii "c") 2 1 := by
  have hany : (run retries ⟨∅, 0⟩).toOption.any (fun p => p.1.db[ascii "n:k"]? = some (ascii "v") ∧
      p.2 = [okReply, okReply, staleReply]) := by decide +kernel
  obtain ⟨⟨s, replies⟩, hok, hvalues⟩ := exists_ok_of_any hany
  obtain ⟨hvalue, rfl⟩ := of_decide_eq_true hvalues
  refine ⟨s, hok, hvalue, ?_⟩
  exact (idempotent_write_executes_once valid_retries hok).2.2.2.1 1 (ascii "c") 2
    (.del (ascii "n:k")) (by decide +kernel)

end Machine

end RaftKV
