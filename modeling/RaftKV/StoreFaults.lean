import RaftKV.KvSnapshot

/-!
# Failing storage

`KVStateMachine::ApplyBatch` reads the database while it builds a batch, and so does
`RocksDBStore::ApplyBatch` behind it; each read may fail, and so may the one durable write.
Here the methods run over an `Engine`, which holds the outcomes of the reads to come and a
journal of the durable writes made. A call whose reads succeed follows the methods of the
store without faults (`Follows`), and a call that throws has written nothing
(`applyBatch_spec`).

A crash keeps some number of the writes of the call it hits, and the store is opened again on
what it finds. Whatever calls, failures and crashes a history has, the store is the one that
the accepted batches give one after the other, none of them in part (`history_spec`).
-/

namespace RaftKV.Faulty

/-! ## The engine -/

/-- The database engine under the store : the outcomes of the reads to come (those behind the
list succeed), and the batches written so far, oldest first. -/
structure Engine where
  store : Store
  reads : List Bool := []
  journal : List (List BatchOp) := []

/-- A method over the engine. -/
abbrev EngineM := EStateM String Engine

/-- `RocksDBStore::Get`. -/
def get (key : Bytes) : EngineM (Option Bytes) := do
  let e ← MonadState.get
  set { e with reads := e.reads.tail }
  if e.reads.head? = some false then throw "read KV"
  return e.store.db[key]?

/-- A durable write of one batch. -/
def write (ok : Bool) (batch : List BatchOp) (operation : String) : EngineM Unit := do
  if ok then
    modify fun e => { e with
      store := { e.store with db := e.store.db.write batch }
      journal := e.journal ++ [batch] }
  else throw operation

/-! ## `KVStateMachine::ApplyBatch` -/

/-- The lambda `key_present`. -/
def keyPresent (present : Overlay) (key : Bytes) : EngineM Bool :=
  match present[key]? with
  | some b => pure b
  | none => do
    let value ← get key
    return value.isSome

/-- The lambda `session_for`. -/
def sessionFor (sessions : Sessions) (client : Bytes) : EngineM (SessionRecord × Sessions) :=
  match sessions[client]? with
  | some record => pure (record, sessions)
  | none => do
    match ← get (clientSessionKey client) with
    | none => return ({}, sessions.insert client {})
    | some raw =>
      if raw.length < 8 then throw "corrupt client session"
      else return (⟨beNat (raw.take 8), raw.drop 8⟩,
        sessions.insert client ⟨beNat (raw.take 8), raw.drop 8⟩)

/-- An `IDEMP` command that has the right form. -/
def dispatchIdempotent (b : BatchState) (index : ℤ) (idempotent : IdempotentCommand) :
    EngineM (Mutation × Bytes × Sessions) := do
  let (record, sessions) ← sessionFor b.sessions idempotent.clientId
  if idempotent.requestId < record.requestId then
    return ({ index, kind := .noop }, staleReply, sessions)
  if idempotent.requestId = record.requestId then
    return ({ index, kind := .noop }, record.reply, sessions)
  let (kind, reply) ← match idempotent.op with
    | .set => pure (.put, okReply)
    | .del => do
      let existed ← keyPresent b.present idempotent.key
      pure (.delete, deleteReply existed)
  let record : SessionRecord := ⟨idempotent.requestId, reply⟩
  return ({ index
            kind
            key := idempotent.key
            value := idempotent.value
            sessionKey := clientSessionKey idempotent.clientId
            sessionValue := encodeSession record.requestId record.reply },
    reply, sessions.insert idempotent.clientId record)

/-- The dispatch on one command : its mutation at `index`, its reply, and the sessions. -/
def dispatch (b : BatchState) (index : ℤ) (command : Bytes) :
    EngineM (Mutation × Bytes × Sessions) := do
  if command = [] then return ({ index, kind := .noop }, okReply, b.sessions)
  let parsed := tryParseOne command
  if parsed.state ≠ .complete ∨ parsed.consumed ≠ command.length then
    throw "invalid command in committed Raft log"
  let op := upperCommand (parsed.args.headD [])
  match parsed.args with
  | [_, key, value] =>
    if op = ascii "SET" then return ({ index, kind := .put, key, value }, okReply, b.sessions)
  | [_, key] =>
    if op = ascii "DEL" then return ({ index, kind := .delete, key }, okReply, b.sessions)
  | _ => pure ()
  if op = ascii "IDEMP" then
    match parseIdempotentCommand parsed.args with
    | .error _ => throw "unsupported command in committed Raft log"
    | .ok idempotent => dispatchIdempotent b index idempotent
  else throw "unsupported command in committed Raft log"

/-- One turn of the loop over the commands. -/
def applyCommand (b : BatchState) (command : Bytes) : EngineM BatchState := do
  if b.mutations ≠ [] ∧ b.index = int64Max then throw "state machine index overflow"
  let index := if b.mutations = [] then b.index else b.index + 1
  let (mutation, reply, sessions) ← dispatch b index command
  let present := match mutation.kind with
    | .put => b.present.insert mutation.key true
    | .delete => b.present.insert mutation.key false
    | .noop => b.present
  let reply := if mutation.kind = .delete ∧ reply = okReply then [] else reply
  return { mutations := b.mutations ++ [mutation], replies := b.replies ++ [reply],
           present, sessions, index }

/-- The loop of `RocksDBStore::ApplyBatch` that builds the write batch. -/
def storeLoop : Overlay → List Mutation → EngineM (List BatchOp × List Bool)
  | _, [] => pure ([], [])
  | present, m :: ms => do
    let (present, existed) ← match m.kind with
      | .put => pure (present.insert m.key true, false)
      | .delete => do
        let existed ← keyPresent present m.key
        pure (present.insert m.key false, existed)
      | .noop => pure (present, false)
    if m.sessionKey ≠ [] ∧ m.sessionKey = appliedKey then
      throw "client session collides with lastApplied"
    let present := if m.sessionKey = [] then present else present.insert m.sessionKey true
    let (ops, rest) ← storeLoop present ms
    return (m.ops ++ ops, existed :: rest)

/-- `RocksDBStore::ApplyBatch`. -/
def storeApplyBatch (ok : Bool) (mutations : List Mutation) : EngineM (List Bool) := do
  if mutations = [] then return []
  let e ← MonadState.get
  let last ← ofExcept (checkIndexes e.store.lastApplied mutations)
  let (ops, existed) ← storeLoop ∅ mutations
  write ok (ops ++ [.put appliedKey (encodeApplied last)]) "apply KV batch"
  modify fun e => { e with store := { e.store with lastApplied := last } }
  return existed

/-- `KVStateMachine::ApplyBatch`. -/
def applyBatch (ok : Bool) (firstIndex : ℤ) (commands : List Bytes) : EngineM (List Bytes) := do
  let b ← commands.foldlM applyCommand { index := firstIndex }
  let existed ← storeApplyBatch ok b.mutations
  return patchReplies b.replies existed

/-! ## A call without faults -/

/-- All reads made between two points have succeeded. -/
def ReadsSucceed (before after : List Bool) : Prop :=
  ∃ done, false ∉ done ∧ before = done ++ after

/-- The last read made between two points has failed, and no other. -/
def ReadFails (before after : List Bool) : Prop :=
  ∃ done, false ∉ done ∧ before = done ++ false :: after

theorem ReadsSucceed.refl (reads : List Bool) : ReadsSucceed reads reads :=
  ⟨[], by simp, rfl⟩

theorem ReadsSucceed.trans {r₁ r₂ r₃ : List Bool} (h : ReadsSucceed r₁ r₂)
    (h' : ReadsSucceed r₂ r₃) : ReadsSucceed r₁ r₃ := by
  obtain ⟨done, hall, rfl⟩ := h
  obtain ⟨done', hall', rfl⟩ := h'
  exact ⟨done ++ done', by simp [hall, hall'], by rw [List.append_assoc]⟩

theorem ReadsSucceed.fails {r₁ r₂ r₃ : List Bool} (h : ReadsSucceed r₁ r₂)
    (h' : ReadFails r₂ r₃) : ReadFails r₁ r₃ := by
  obtain ⟨done, hall, rfl⟩ := h
  obtain ⟨done', hall', rfl⟩ := h'
  exact ⟨done ++ done', by simp [hall, hall'], by rw [List.append_assoc]⟩

/-- Between two points of a call nothing is written. -/
def Unwritten (e e' : Engine) : Prop :=
  e'.store = e.store ∧ e'.journal = e.journal

theorem Unwritten.trans {e₁ e₂ e₃ : Engine} (h : Unwritten e₁ e₂) (h' : Unwritten e₂ e₃) :
    Unwritten e₁ e₃ :=
  ⟨h'.1.trans h.1, h'.2.trans h.2⟩

/-- A program over the engine that only reads : unless a read fails, it has the result that
`x` has on the database `db`. -/
def Follows {α : Type} (db : DB) (m : EngineM α) (x : Except String α) : Prop :=
  ∀ e : Engine, e.store.db = db →
    wp m (fun a e' => x = .ok a ∧ Unwritten e e' ∧ ReadsSucceed e.reads e'.reads)
      (fun msg e' => Unwritten e e' ∧
        ((x = .error msg ∧ ReadsSucceed e.reads e'.reads) ∨ ReadFails e.reads e'.reads)) e

section Follows

variable {α β : Type} {db : DB}

theorem follows_pure (a : α) : Follows db (pure a) (.ok a) :=
  fun e _ => ⟨rfl, ⟨rfl, rfl⟩, .refl e.reads⟩

theorem follows_throw (msg : String) : Follows db (throw msg : EngineM α) (.error msg) :=
  fun e _ => ⟨⟨rfl, rfl⟩, .inl ⟨rfl, .refl e.reads⟩⟩

/-- After a read that has succeeded the result is known. -/
theorem Follows.seq {m : EngineM α} {a : α} {f : α → EngineM β} {y : Except String β}
    (hm : Follows db m (.ok a)) (hf : Follows db (f a) y) : Follows db (m >>= f) y := by
  intro e he
  rw [wp_bind]
  refine wp_mono (hm e he) ?_ ?_
  · rintro a' e₁ ⟨ha, hsame, hreads⟩
    obtain rfl := Except.ok.inj ha
    refine wp_mono (hf e₁ (by rw [hsame.1, he])) ?_ ?_
    · rintro b e₂ ⟨hb, hsame', hreads'⟩
      exact ⟨hb, hsame.trans hsame', hreads.trans hreads'⟩
    · rintro msg e₂ ⟨hsame', ⟨hmsg, hreads'⟩ | hfails⟩
      · exact ⟨hsame.trans hsame', .inl ⟨hmsg, hreads.trans hreads'⟩⟩
      · exact ⟨hsame.trans hsame', .inr (hreads.fails hfails)⟩
  · rintro msg e₁ ⟨hsame, ⟨hne, -⟩ | hfails⟩
    · cases hne
    · exact ⟨hsame, .inr hfails⟩

theorem Follows.bind {m : EngineM α} {x : Except String α} {f : α → EngineM β}
    {g : α → Except String β} (hm : Follows db m x) (hf : ∀ a, Follows db (f a) (g a)) :
    Follows db (m >>= f) (x >>= g) := by
  cases x with
  | ok a => exact hm.seq (hf a)
  | error msg =>
    intro e he
    rw [wp_bind]
    refine wp_mono (hm e he) ?_ ?_
    · rintro a e₁ ⟨hne, -⟩
      cases hne
    · rintro msg' e₁ ⟨hsame, ⟨heq, hreads⟩ | hfails⟩
      · exact ⟨hsame, .inl ⟨congrArg Except.error (Except.error.inj heq), hreads⟩⟩
      · exact ⟨hsame, .inr hfails⟩

theorem Follows.ite {c : Prop} [Decidable c] {m₁ m₂ : EngineM α} {x₁ x₂ : Except String α}
    (h₁ : Follows db m₁ x₁) (h₂ : Follows db m₂ x₂) :
    Follows db (if c then m₁ else m₂) (if c then x₁ else x₂) := by
  split_ifs
  · exact h₁
  · exact h₂

theorem follows_get (db : DB) (key : Bytes) : Follows db (get key) (.ok db[key]?) := by
  rintro ⟨s, reads, journal⟩ rfl
  rw [get]
  simp only [wp_bind, wp_get, wp_set, wp_ite, wp_throw, wp_pure]
  cases reads with
  | nil => exact ⟨trivial, ⟨rfl, rfl⟩, .refl []⟩
  | cons b reads =>
    cases b with
    | false => exact ⟨⟨rfl, rfl⟩, .inr ⟨[], by simp, rfl⟩⟩
    | true => exact ⟨trivial, ⟨rfl, rfl⟩, [true], by simp, rfl⟩

theorem keyPresent_follows (present : Overlay) (key : Bytes) :
    Follows db (keyPresent present key) (.ok (RaftKV.keyPresent db present key)) := by
  rw [keyPresent, RaftKV.keyPresent]
  cases present[key]? with
  | some b => exact follows_pure b
  | none =>
    rw [contains_eq_isSome]
    exact (follows_get db key).seq (follows_pure _)

theorem sessionFor_follows (sessions : Sessions) (client : Bytes) :
    Follows db (sessionFor sessions client) (RaftKV.sessionFor db sessions client) := by
  rw [sessionFor, RaftKV.sessionFor]
  cases sessions[client]? with
  | some record => exact follows_pure _
  | none =>
    refine (follows_get db (clientSessionKey client)).seq ?_
    cases db[clientSessionKey client]? with
    | none => exact follows_pure _
    | some raw => exact (follows_throw _).ite (follows_pure _)

theorem dispatchIdempotent_follows (b : BatchState) (index : ℤ) (i : IdempotentCommand) :
    Follows db (dispatchIdempotent b index i) (idempotentOn db b index i) := by
  refine (sessionFor_follows b.sessions i.clientId).bind ?_
  rintro ⟨record, sessions⟩
  refine (follows_pure _).ite ((follows_pure _).ite ?_)
  cases i.op with
  | set => exact follows_pure _
  | del => exact (keyPresent_follows b.present i.key).seq (follows_pure _)

theorem dispatch_follows (b : BatchState) (index : ℤ) (command : Bytes) :
    Follows db (dispatch b index command) (RaftKV.dispatch db b index command) := by
  have idemp : ∀ args : List Bytes, Follows db
      (match parseIdempotentCommand args with
        | .error _ => throw "unsupported command in committed Raft log"
        | .ok i => dispatchIdempotent b index i)
      (match parseIdempotentCommand args with
        | .error _ => .error "unsupported command in committed Raft log"
        | .ok i => idempotentOn db b index i) := by
    intro args
    cases parseIdempotentCommand args with
    | error _ => exact follows_throw _
    | ok i => exact dispatchIdempotent_follows b index i
  rw [dispatch, RaftKV.dispatch]
  refine (follows_pure _).ite ((follows_throw _).ite ?_)
  rcases (tryParseOne command).args with _ | ⟨_, _ | ⟨_, _ | ⟨_, _ | _⟩⟩⟩
  · exact follows_throw _
  · exact (idemp _).ite (follows_throw _)
  · exact (follows_pure _).ite ((idemp _).ite (follows_throw _))
  · exact (follows_pure _).ite ((idemp _).ite (follows_throw _))
  · exact (idemp _).ite (follows_throw _)

theorem applyCommand_follows (b : BatchState) (command : Bytes) :
    Follows db (applyCommand b command) (RaftKV.applyCommand db b command) :=
  (follows_throw _).ite ((dispatch_follows b _ command).bind fun _ => follows_pure _)

theorem applyCommands_follows (b : BatchState) (commands : List Bytes) :
    Follows db (commands.foldlM applyCommand b) (commands.foldlM (RaftKV.applyCommand db) b) := by
  induction commands generalizing b with
  | nil => exact follows_pure b
  | cons command commands ih =>
    rw [List.foldlM_cons, List.foldlM_cons]
    exact (applyCommand_follows b command).bind ih

theorem keyPresent_eq_getD (present : Overlay) (key : Bytes) :
    RaftKV.keyPresent db present key = (present[key]?).getD (db.contains key) := by
  rw [RaftKV.keyPresent]
  cases present[key]? <;> rfl

theorem storeLoop_follows (present : Overlay) (ms : List Mutation) :
    Follows db (storeLoop present ms) (RaftKV.storeLoop db present ms) := by
  induction ms generalizing present with
  | nil => exact follows_pure _
  | cons m ms ih =>
    have rest : ∀ (present : Overlay) (existed : Bool), Follows db
        (if m.sessionKey ≠ [] ∧ m.sessionKey = appliedKey then
          throw "client session collides with lastApplied"
        else storeLoop (if m.sessionKey = [] then present
          else present.insert m.sessionKey true) ms >>= fun r =>
            pure (m.ops ++ r.1, existed :: r.2))
        (if m.sessionKey ≠ [] ∧ m.sessionKey = appliedKey then
          .error "client session collides with lastApplied"
        else RaftKV.storeLoop db (if m.sessionKey = [] then present
          else present.insert m.sessionKey true) ms >>= fun r =>
            .ok (m.ops ++ r.1, existed :: r.2)) := fun present existed =>
      (follows_throw _).ite ((ih _).bind fun _ => follows_pure _)
    rw [storeLoop, RaftKV.storeLoop]
    cases m.kind with
    | put => exact rest _ _
    | noop => exact rest _ _
    | delete =>
      have hread : Follows db _ (.ok (RaftKV.keyPresent db present m.key)) :=
        keyPresent_follows present m.key
      rw [keyPresent_eq_getD] at hread
      refine Follows.seq hread ?_
      exact rest _ _

end Follows

/-! ## What makes a batch throw -/

/-- The command is an `IDEMP` of a client whose stored record is too short for a request id. -/
def Corrupt (db : DB) (command : Bytes) : Prop :=
  ∃ client id op raw, decodeCommand command = some (.idemp client id op) ∧
    db[clientSessionKey client]? = some raw ∧ raw.length < 8

/-- A command the loop gets through, whatever stands before it. -/
def Passes (db : DB) (command : Bytes) : Prop :=
  (decodeCommand command).isSome ∧ ¬Corrupt db command

/-- The records of the clients in the overlay are long enough. -/
def Held (db : DB) (sessions : Sessions) : Prop :=
  ∀ client raw, (sessions[client]?).isSome → db[clientSessionKey client]? = some raw →
    8 ≤ raw.length

section Loop

variable {db : DB} {b : BatchState} {index : ℤ}

theorem Held.insert {sessions : Sessions} (h : Held db sessions) {client : Bytes}
    (hlong : ∀ raw, db[clientSessionKey client]? = some raw → 8 ≤ raw.length)
    (record : SessionRecord) : Held db (sessions.insert client record) := by
  intro c raw hc hraw
  rw [getElem?_sessions_insert] at hc
  split_ifs at hc with heq
  · exact hlong raw (by rw [heq, hraw])
  · exact h c raw hc hraw

theorem sessionFor_cases {sessions : Sessions} (h : Held db sessions) (client : Bytes) :
    (∃ record sessions', RaftKV.sessionFor db sessions client = .ok (record, sessions') ∧
      Held db sessions' ∧ ∀ raw, db[clientSessionKey client]? = some raw → 8 ≤ raw.length) ∨
    (∃ raw msg, db[clientSessionKey client]? = some raw ∧ raw.length < 8 ∧
      RaftKV.sessionFor db sessions client = .error msg) := by
  rw [RaftKV.sessionFor]
  cases hs : sessions[client]? with
  | some record => exact .inl ⟨_, _, rfl, h, fun raw hraw => h client raw (by simp [hs]) hraw⟩
  | none =>
    cases hdb : db[clientSessionKey client]? with
    | none =>
      have hlong : ∀ raw, db[clientSessionKey client]? = some raw → 8 ≤ raw.length := by
        simp [hdb]
      exact .inl ⟨_, _, rfl, h.insert hlong _, by simp⟩
    | some raw =>
      by_cases hlen : raw.length < 8
      · exact .inr ⟨raw, _, rfl, hlen, by simp only [if_pos hlen]; rfl⟩
      have hlong : ∀ raw', db[clientSessionKey client]? = some raw' → 8 ≤ raw'.length := by
        intro raw' hraw'
        rw [hdb] at hraw'
        obtain rfl := Option.some.inj hraw'
        omega
      refine .inl ⟨_, _, by simp only [if_neg hlen]; rfl, h.insert hlong _, ?_⟩
      rw [← hdb]
      exact hlong

/-- A command that stands for nothing is refused. -/
theorem dispatch_of_decode_none {command : Bytes} (h : decodeCommand command = none) :
    ∃ msg, RaftKV.dispatch db b index command = .error msg := by
  have idemp : ∀ (c : Prop) [Decidable c] (args : List Bytes),
      (∀ i, parseIdempotentCommand args ≠ .ok i) →
      ∃ msg, (if c then match parseIdempotentCommand args with
          | .error _ => .error "unsupported command in committed Raft log"
          | .ok i => idempotentOn db b index i
        else .error "unsupported command in committed Raft log") =
          (Except.error msg : Except String (Mutation × Bytes × Sessions)) := by
    intro c _ args hargs
    cases hp : parseIdempotentCommand args with
    | error _ => exact ⟨_, by split_ifs <;> rfl⟩
    | ok i => exact absurd hp (hargs i)
  have short : ∀ {args : List Bytes}, args.length < 5 →
      ∀ i, parseIdempotentCommand args ≠ .ok i := by
    intro args hlen i hi
    have := (parseIdempotentCommand_ok hi).2.1
    omega
  rw [decodeCommand] at h
  split_ifs at h with hnil
  dsimp only at h
  rw [RaftKV.dispatch, if_neg hnil]
  dsimp only
  split_ifs at h with hparsed
  · rw [if_neg (by rw [hparsed.1, hparsed.2]; simp)]
    generalize (tryParseOne command).args = args at h
    rcases args with _ | ⟨verb, _ | ⟨key, _ | ⟨value, _ | _⟩⟩⟩
    · exact ⟨_, rfl⟩
    · exact idemp _ _ (short (by simp))
    · dsimp only at h
      split_ifs at h with hdel
      show ∃ msg, (if upperCommand verb = ascii "DEL" then _ else _) = _
      rw [if_neg hdel]
      exact idemp _ _ (short (by simp))
    · dsimp only at h
      split_ifs at h with hset
      show ∃ msg, (if upperCommand verb = ascii "SET" then _ else _) = _
      rw [if_neg hset]
      exact idemp _ _ (short (by simp))
    · refine idemp _ _ fun i hi => ?_
      dsimp only at h
      rw [hi] at h
      cases h
  · rw [if_pos (by tauto)]
    exact ⟨_, rfl⟩

/-- One command either gets through, at its index and with no session key that could be the
marker, or is refused. -/
theorem dispatch_cases (hheld : Held db b.sessions) (command : Bytes) :
    (∃ m reply sessions, RaftKV.dispatch db b index command = .ok (m, reply, sessions) ∧
      m.index = index ∧ m.sessionKey ≠ appliedKey ∧ Held db sessions ∧ Passes db command) ∨
    (¬Passes db command ∧ ∃ msg, RaftKV.dispatch db b index command = .error msg) := by
  have plain : ∀ {c : Command}, decodeCommand command = some c →
      (∀ client id op, c ≠ .idemp client id op) → Passes db command := by
    rintro c hc hplain
    refine ⟨by simp [hc], ?_⟩
    rintro ⟨client, id, op, raw, hidemp, -⟩
    exact hplain client id op (Option.some.inj (hc.symm.trans hidemp))
  cases hc : decodeCommand command with
  | none => exact .inr ⟨fun h => by simpa [hc] using h.1, dispatch_of_decode_none hc⟩
  | some c =>
    rcases decodeCommand_cases hc with ⟨rfl, rfl⟩ | ⟨hne, hst, hcons, hargs⟩
    · exact .inl ⟨_, _, _, rfl, rfl, nil_ne_appliedKey, hheld, plain hc (by simp)⟩
    rcases hargs with ⟨verb, k, v, hargs, hop, rfl⟩ | ⟨verb, k, hargs, hop, rfl⟩ | ⟨i, hi, rfl⟩
    · refine .inl ⟨{ index, kind := .put, key := k, value := v }, okReply, b.sessions, ?_, rfl,
        nil_ne_appliedKey, hheld, plain hc (by simp)⟩
      simp [RaftKV.dispatch, hne, hst, hcons, hargs, hop]
      rfl
    · refine .inl ⟨{ index, kind := .delete, key := k }, okReply, b.sessions, ?_, rfl,
        nil_ne_appliedKey, hheld, plain hc (by simp)⟩
      simp [RaftKV.dispatch, hne, hst, hcons, hargs, hop]
      rfl
    rw [dispatch_idempotent hne hst hcons hi, idempotentOn]
    rcases sessionFor_cases hheld i.clientId with
      ⟨record, sessions, hsess, hheld', hlong⟩ | ⟨raw, msg, hraw, hshort, hsess⟩
    · have hpass : Passes db command := by
        refine ⟨by simp [hc], ?_⟩
        rintro ⟨client, id, op, raw, hidemp, hraw, hshort⟩
        obtain ⟨rfl, -, -⟩ := Command.idemp.inj (Option.some.inj (hc.symm.trans hidemp))
        exact absurd (hlong raw hraw) (by omega)
      left
      rw [hsess]
      simp only [bind, Except.bind]
      split_ifs
      · exact ⟨_, _, _, rfl, rfl, nil_ne_appliedKey, hheld', hpass⟩
      · exact ⟨_, _, _, rfl, rfl, nil_ne_appliedKey, hheld', hpass⟩
      · exact ⟨_, _, _, rfl, rfl, clientSessionKey_ne_appliedKey _, hheld'.insert hlong _, hpass⟩
    · refine .inr ⟨fun h => h.2 ⟨_, _, _, raw, hc, hraw, hshort⟩, msg, ?_⟩
      rw [hsess]
      rfl

theorem applyCommand_cases (hheld : Held db b.sessions) (command : Bytes) :
    (∃ m b', RaftKV.applyCommand db b command = .ok b' ∧ m.index = b.next ∧
      m.sessionKey ≠ appliedKey ∧ b'.mutations = b.mutations ++ [m] ∧
      b'.next = b.next + 1 ∧ b'.replies.length = b.replies.length + 1 ∧ Held db b'.sessions ∧
      Passes db command) ∨
    ((¬Passes db command ∨ int64Max < b.next) ∧
      ∃ msg, RaftKV.applyCommand db b command = .error msg) := by
  rw [RaftKV.applyCommand]
  by_cases hover : b.mutations ≠ [] ∧ b.index = int64Max
  · refine .inr ⟨.inr ?_, _, by rw [if_pos hover]; rfl⟩
    rw [BatchState.next, if_neg hover.1, hover.2]
    omega
  rw [if_neg hover]
  change (∃ m b', (RaftKV.dispatch db b b.next command >>= _) = _ ∧ _) ∨
    (_ ∧ ∃ msg, (RaftKV.dispatch db b b.next command >>= _) = _)
  rcases dispatch_cases hheld command with ⟨m, reply, sessions, hd, hidx, hsess, hheld', hpass⟩ |
    ⟨hpass, msg, hd⟩
  · refine .inl ⟨m, _, by rw [hd]; rfl, hidx, hsess, rfl, ?_, List.length_append, hheld', hpass⟩
    simp [BatchState.next]
  · exact .inr ⟨.inl hpass, msg, by rw [hd]; rfl⟩

/-- The loop over the commands of a batch, from any state of the loop. -/
theorem applyCommands_cases (commands : List Bytes) (hheld : Held db b.sessions) :
    (∃ ms b', commands.foldlM (RaftKV.applyCommand db) b = .ok b' ∧
      b'.mutations = b.mutations ++ ms ∧ ms.length = commands.length ∧
      b'.replies.length = b.replies.length + commands.length ∧
      (∀ i (hi : i < ms.length), ms[i].index = b.next + i) ∧
      (∀ m ∈ ms, m.sessionKey ≠ appliedKey) ∧ ∀ command ∈ commands, Passes db command) ∨
    (((∃ command ∈ commands, ¬Passes db command) ∨ int64Max + 1 < b.next + commands.length) ∧
      ∃ msg, commands.foldlM (RaftKV.applyCommand db) b = .error msg) := by
  induction commands generalizing b with
  | nil => exact .inl ⟨[], b, rfl, by simp, rfl, rfl, by simp, by simp, by simp⟩
  | cons command commands ih =>
    simp only [List.foldlM_cons, List.length_cons, Nat.cast_add, Nat.cast_one]
    rcases applyCommand_cases hheld command with
      ⟨m, b₁, h₁, hidx, hsess, hms₁, hnext, hone, hheld₁, hpass⟩ | ⟨hwhy, msg, h₁⟩
    · rw [h₁]
      rcases ih hheld₁ with
        ⟨ms, b', h₂, hms, hlen, hall, hidxs, hsesss, hpasses⟩ | ⟨hwhy, msg, h₂⟩
      · refine .inl ⟨m :: ms, b', h₂, by simp [hms, hms₁], by simp [hlen], by omega, ?_, ?_, ?_⟩
        · intro i hi
          cases i with
          | zero => simpa using hidx
          | succ i =>
            have := hidxs i (by simpa using hi)
            simp only [List.getElem_cons_succ, Nat.cast_add, Nat.cast_one, this, hnext]
            ring
        · simpa using ⟨hsess, hsesss⟩
        · simpa using ⟨hpass, hpasses⟩
      · refine .inr ⟨?_, msg, h₂⟩
        rcases hwhy with ⟨c, hc, hbad⟩ | hover
        · exact .inl ⟨c, List.mem_cons_of_mem _ hc, hbad⟩
        · exact .inr (by omega)
    · refine .inr ⟨?_, msg, by rw [h₁]; rfl⟩
      rcases hwhy with hbad | hover
      · exact .inl ⟨command, List.mem_cons_self, hbad⟩
      · exact .inr (by omega)

end Loop

/-- A batch that can be applied to a store. -/
def Fits (s : Store) (firstIndex : ℤ) (commands : List Bytes) : Prop :=
  (∀ command ∈ commands, Passes s.db command) ∧ firstIndex = s.lastApplied + 1 ∧
    s.lastApplied + commands.length ≤ int64Max

variable {last : ℤ} {s t : Store} {replies : List Bytes}

/-- The mutations that pass the check of the indexes continue the marker. -/
theorem checkIndexes_ok {ms : List Mutation} {last' : ℤ} (hmax : last ≤ int64Max)
    (h : checkIndexes last ms = .ok last') :
    last' = last + ms.length ∧ last + ms.length ≤ int64Max ∧
      ∀ m ∈ ms.head?, m.index = last + 1 := by
  induction ms generalizing last with
  | nil =>
    obtain rfl := Except.ok.inj h
    simpa using hmax
  | cons m ms ih =>
    rw [checkIndexes] at h
    split_ifs at h with hbad
    obtain ⟨hne, hidx⟩ := not_or.mp hbad
    rw [not_not] at hidx
    obtain ⟨hlast, hle, -⟩ := ih (by omega) h
    rw [List.length_cons, Nat.cast_add, Nat.cast_one]
    refine ⟨by omega, by omega, ?_⟩
    rintro _ ⟨⟩
    exact hidx

/-- The loops of a call without faults : a batch that fits passes them, any other is stopped by
a command or by the check of the indexes. -/
theorem loops_cases (s : Store) (hmax : s.lastApplied ≤ int64Max) (firstIndex : ℤ)
    {commands : List Bytes} (hne : commands ≠ []) :
    (Fits s firstIndex commands ∧ ∃ b ops existed,
      commands.foldlM (RaftKV.applyCommand s.db) { index := firstIndex } = .ok b ∧
      b.mutations ≠ [] ∧
      checkIndexes s.lastApplied b.mutations = .ok (s.lastApplied + commands.length) ∧
      RaftKV.storeLoop s.db ∅ b.mutations = .ok (ops, existed) ∧
      (patchReplies b.replies existed).length = commands.length) ∨
    (¬Fits s firstIndex commands ∧
      ((∃ msg, commands.foldlM (RaftKV.applyCommand s.db) { index := firstIndex } = .error msg) ∨
        ∃ b msg, commands.foldlM (RaftKV.applyCommand s.db) { index := firstIndex } = .ok b ∧
          b.mutations ≠ [] ∧ checkIndexes s.lastApplied b.mutations = .error msg)) := by
  have hnext : BatchState.next { index := firstIndex } = firstIndex := rfl
  have hheld : Held s.db (BatchState.sessions { index := firstIndex }) := by
    intro client raw h
    simp at h
  rcases applyCommands_cases commands hheld with
    ⟨ms, b, hfold, hms, hlen, hall, hidx, hsess, hpass⟩ | ⟨hwhy, msg, hfold⟩
  · rw [List.nil_append] at hms
    have hmsne : ms ≠ [] := by
      rintro rfl
      exact hne (List.length_eq_zero_iff.mp hlen.symm)
    cases hcheck : checkIndexes s.lastApplied ms with
    | error msg =>
      refine .inr ⟨?_, .inr ⟨b, msg, hfold, by rwa [hms], by rwa [hms]⟩⟩
      rintro ⟨-, rfl, hle⟩
      rw [checkIndexes_eq (fun i hi => by rw [hidx i hi, hnext]) (by rwa [hlen])] at hcheck
      cases hcheck
    | ok last =>
      obtain ⟨rfl, hle, hhead⟩ := checkIndexes_ok hmax hcheck
      have hfirst : firstIndex = s.lastApplied + 1 := by
        have h0 := hidx 0 (List.length_pos_iff.mpr hmsne)
        rw [hnext, Nat.cast_zero, add_zero] at h0
        rw [← h0]
        exact hhead _ (by rw [List.head?_eq_getElem?]; exact List.getElem?_eq_getElem _)
      have hloop := storeLoop_eq s.db ms hsess ∅ s.db fun k => by simp
      refine .inl ⟨⟨hpass, hfirst, by rwa [← hlen]⟩, b, _, _, hfold, by rwa [hms],
        by rw [hms, hcheck, hlen], by rw [hms, hloop], ?_⟩
      rw [patchReplies, List.length_zipWith, hall, length_existedAt, hlen]
      simp
  · refine .inr ⟨?_, .inl ⟨msg, hfold⟩⟩
    rintro ⟨hpass, rfl, hle⟩
    rcases hwhy with ⟨command, hmem, hbad⟩ | hover
    · exact hbad (hpass command hmem)
    · rw [hnext] at hover
      omega

/-! ## One call -/

/-- A call of `KVStateMachine::ApplyBatch`, and what the engine does during it : the outcomes of
its reads, and whether it accepts the write. -/
structure Call where
  firstIndex : ℤ
  commands : List Bytes
  reads : List Bool := []
  writes : Bool := true

/-- A call on a store. -/
def Call.run (c : Call) (s : Store) : EStateM.Result String Engine (List Bytes) :=
  applyBatch c.writes c.firstIndex c.commands ⟨s, c.reads, []⟩

/-- A call that returned : one write holds the mutations, the session records and the marker of
the last index, and the result is the one without faults. -/
structure Call.Took (c : Call) (s : Store) (replies : List Bytes) (e : Engine) : Prop where
  fits : Fits s c.firstIndex c.commands
  reads : ReadsSucceed c.reads e.reads
  writes : c.writes = true
  write : ∃ ops, e.journal = [ops ++ [.put appliedKey (encodeApplied e.store.lastApplied)]] ∧
    e.store.db = s.db.write (ops ++ [.put appliedKey (encodeApplied e.store.lastApplied)])
  lastApplied : e.store.lastApplied = s.lastApplied + c.commands.length
  result : RaftKV.applyBatch true c.firstIndex c.commands s = .ok replies e.store

/-- A call that threw : nothing was written, and there is a reason. -/
structure Call.Threw (c : Call) (s : Store) (e : Engine) : Prop where
  unwritten : Unwritten ⟨s, c.reads, []⟩ e
  why : ¬Fits s c.firstIndex c.commands ∨ ReadFails c.reads e.reads ∨ c.writes = false

/-- The write batch of a call : the mutations and session records, then the marker. -/
def withMarker (ops : List BatchOp) (last : ℤ) : List BatchOp :=
  ops ++ [.put appliedKey (encodeApplied last)]

theorem storeApplyBatch_spec {e : Engine} {ms : List Mutation} {ops : List BatchOp}
    {existed : List Bool} (hne : ms ≠ []) (hcheck : checkIndexes e.store.lastApplied ms = .ok last)
    (hloop : RaftKV.storeLoop e.store.db ∅ ms = .ok (ops, existed)) (ok : Bool) :
    wp (storeApplyBatch ok ms)
      (fun r e' => r = existed ∧ ok = true ∧ ReadsSucceed e.reads e'.reads ∧
        e'.journal = e.journal ++ [withMarker ops last] ∧
        e'.store = ⟨e.store.db.write (withMarker ops last), last⟩)
      (fun _ e' => Unwritten e e' ∧ (ReadFails e.reads e'.reads ∨ ok = false)) e := by
  simp only [storeApplyBatch, wp_bind, if_neg hne, wp_get, hcheck, wp_ofExcept]
  refine wp_mono (storeLoop_follows _ _ _ rfl) ?_ ?_
  · rintro r e₁ ⟨hr, hsame, hreads⟩
    obtain rfl := Except.ok.inj (hr.symm.trans hloop)
    cases ok with
    | true =>
      refine ⟨rfl, rfl, hreads, ?_, ?_⟩
      · show e₁.journal ++ _ = _
        rw [hsame.2]
        rfl
      · show Store.mk (e₁.store.db.write _) _ = _
        rw [hsame.1]
        rfl
    | false => exact ⟨hsame, .inr rfl⟩
  · rintro msg e₁ ⟨hsame, ⟨herr, -⟩ | hfails⟩
    · cases herr.symm.trans hloop
    · exact ⟨hsame, .inl hfails⟩

theorem applyBatch_of_loops {firstIndex : ℤ} {commands : List Bytes}
    {b : BatchState} {ops : List BatchOp} {existed : List Bool}
    (hfold : commands.foldlM (RaftKV.applyCommand s.db) { index := firstIndex } = .ok b)
    (hne : b.mutations ≠ []) (hcheck : checkIndexes s.lastApplied b.mutations = .ok last)
    (hloop : RaftKV.storeLoop s.db ∅ b.mutations = .ok (ops, existed)) :
    RaftKV.applyBatch true firstIndex commands s = .ok (patchReplies b.replies existed)
      ⟨s.db.write (withMarker ops last), last⟩ := by
  simp only [RaftKV.applyBatch, Store.applyBatch, if_neg hne, bind, EStateM.bind,
    MonadState.get, getThe, MonadStateOf.get, EStateM.get, hfold, hcheck, hloop, ofExcept, pure,
    EStateM.pure, Store.write, if_true, modify, modifyGet, MonadStateOf.modifyGet,
    EStateM.modifyGet]
  rfl

theorem Call.run_spec (c : Call) (s : Store) (hmax : s.lastApplied ≤ int64Max)
    (hne : c.commands ≠ []) :
    wp (applyBatch c.writes c.firstIndex c.commands) (c.Took s) (fun _ => c.Threw s)
      ⟨s, c.reads, []⟩ := by
  rw [applyBatch, wp_bind]
  refine wp_mono (applyCommands_follows _ _ _ rfl) ?_ ?_
  · rintro b e₁ ⟨hfold, hsame, hreads⟩
    rcases loops_cases s hmax c.firstIndex hne with
      ⟨hfits, b', ops, existed, hb, hmsne, hcheck, hloop, -⟩ |
      ⟨hfits, ⟨msg, hb⟩ | ⟨b', msg, hb, hmsne, hcheck⟩⟩
    · obtain rfl := Except.ok.inj (hfold.symm.trans hb)
      rw [wp_bind]
      refine wp_mono (storeApplyBatch_spec hmsne (by rwa [hsame.1]) (by rwa [hsame.1]) _) ?_ ?_
      · rintro r e₂ ⟨rfl, hwrites, hreads', hjournal, hstore⟩
        rw [hsame.1] at hstore
        rw [hsame.2, List.nil_append] at hjournal
        refine ⟨hfits, hreads.trans hreads', hwrites, ⟨ops, ?_, ?_⟩, by rw [hstore], ?_⟩
        · rw [hjournal, hstore, withMarker]
        · rw [hstore, withMarker]
        · rw [applyBatch_of_loops hfold hmsne hcheck hloop, hstore]
      · rintro msg e₂ ⟨hsame', hfails | hwrites⟩
        · exact ⟨hsame.trans hsame', .inr (.inl (hreads.fails hfails))⟩
        · exact ⟨hsame.trans hsame', .inr (.inr hwrites)⟩
    · cases hfold.symm.trans hb
    · obtain rfl := Except.ok.inj (hfold.symm.trans hb)
      rw [show s = e₁.store from hsame.1.symm] at hcheck
      simp only [storeApplyBatch, wp_bind, if_neg hmsne, wp_get, hcheck, wp_ofExcept]
      exact ⟨hsame, .inl hfits⟩
  · rintro msg e₁ ⟨hsame, ⟨hfold, -⟩ | hfails⟩
    · refine ⟨hsame, .inl fun hfits => ?_⟩
      rcases loops_cases s hmax c.firstIndex hne with ⟨-, b, -, -, hb, -⟩ | ⟨hnot, -⟩
      · cases hfold.symm.trans hb
      · exact hnot hfits
    · exact ⟨hsame, .inr (.inl hfails)⟩

/-! ## Histories -/

/-- The engine when a call has returned or thrown. -/
def Call.after (c : Call) (s : Store) : Engine :=
  match c.run s with
  | .ok _ e => e
  | .error _ e => e

/-- The exception of a call that throws. -/
def Call.thrown (c : Call) (s : Store) : Option String :=
  match c.run s with
  | .ok _ _ => none
  | .error msg _ => some msg

/-- A call, or a crash during a call that finds `writes` of its writes on the disk. -/
inductive Event where
  | call (c : Call)
  | crash (c : Call) (writes : ℕ)

/-- The commands an event hands over. -/
def Event.commands : Event → List Bytes
  | .call c => c.commands
  | .crash c _ => c.commands

/-- The store after an event; after a crash it is opened on what the disk holds. -/
def step (s : Store) : Event → Except String Store
  | .call c => .ok (c.after s).store
  | .crash c writes => Store.construct (((c.after s).journal.take writes).foldl DB.write s.db)

/-- A store as the constructor returns it for its database. -/
def Opened (s : Store) : Prop :=
  Store.construct s.db = .ok s

instance (s : Store) : Decidable (Opened s) :=
  inferInstanceAs (Decidable (_ = _))

theorem Opened.range (h : Opened s) : 0 ≤ s.lastApplied ∧ s.lastApplied ≤ int64Max := by
  rw [Opened, Store.construct] at h
  split at h
  · split_ifs at h
    rw [← Except.ok.inj h]
    show (0 : ℤ) ≤ 0 ∧ 0 ≤ int64Max
    decide
  split_ifs at h with hlen hbig
  rw [← Except.ok.inj h]
  dsimp only
  omega

theorem getElem?_withMarker (db : DB) (ops : List BatchOp) (last : ℤ) :
    (db.write (withMarker ops last))[appliedKey]? = some (encodeApplied last) := by
  rw [withMarker, DB.write_append]
  simp [DB.apply]

theorem opened_withMarker (db : DB) (ops : List BatchOp) (h0 : 0 < last)
    (hmax : last ≤ int64Max) : Opened ⟨db.write (withMarker ops last), last⟩ := by
  refine Store.construct_eq ⟨h0.le, hmax, ?_⟩ fun h => absurd h h0.ne'
  rw [if_neg h0.ne']
  exact getElem?_withMarker db ops last

/-- The last applied index of a store is the one its marker holds. -/
theorem Opened.lastApplied_eq (h : Opened s) (h0 : 0 ≤ last)
    (hmax : last ≤ int64Max) (hmark : s.db[appliedKey]? = some (encodeApplied last)) :
    s.lastApplied = last := by
  rw [Opened, Store.construct, hmark] at h
  dsimp only at h
  split_ifs at h
  rw [← Except.ok.inj h]
  exact beNat_encodeApplied h0 hmax

theorem Opened.eq_of_db (hs : Opened s) (ht : Opened t) (h : s.db = t.db) : s = t := by
  rw [Opened, h] at hs
  exact Except.ok.inj (hs.symm.trans ht)

theorem Call.Took.opened {c : Call} {e : Engine}
    (h : c.Took s replies e) (hs : Opened s) (hne : c.commands ≠ []) : Opened e.store := by
  obtain ⟨ops, -, hdb⟩ := h.write
  have hlen := List.length_pos_iff.mpr hne
  have hlast := h.lastApplied
  have h0 := hs.range.1
  have hpos : 0 < e.store.lastApplied := by omega
  have hopen := opened_withMarker s.db ops hpos (by rw [hlast]; exact h.fits.2.2)
  rwa [withMarker, ← hdb] at hopen

theorem Call.run_nil {c : Call} (h : c.commands = []) (s : Store) :
    c.run s = .ok [] ⟨s, c.reads, []⟩ := by
  rw [Call.run, h]
  rfl

/-- A call of an open store leaves it open, as it was or with the whole batch applied, and has
made at most one write. -/
theorem Call.after_cases (c : Call) (hs : Opened s) :
    ((c.after s).store = s ∧ (c.after s).journal = []) ∨
    (c.commands ≠ [] ∧ Opened (c.after s).store ∧
      (∃ batch, (c.after s).journal = [batch] ∧ (c.after s).store.db = s.db.write batch) ∧
      (c.after s).store.lastApplied = s.lastApplied + c.commands.length ∧
      ∃ replies, RaftKV.applyBatch true (s.lastApplied + 1) c.commands s =
        .ok replies (c.after s).store) := by
  by_cases hne : c.commands = []
  · rw [Call.after, Call.run_nil hne]
    exact .inl ⟨rfl, rfl⟩
  have hspec := c.run_spec s hs.range.2 hne
  rw [Call.after]
  cases hrun : c.run s with
  | ok replies e =>
    have htook := wp_of_ok hspec hrun
    obtain ⟨ops, hjournal, hdb⟩ := htook.write
    refine .inr ⟨hne, htook.opened hs hne, ⟨_, hjournal, hdb⟩, htook.lastApplied, replies, ?_⟩
    rw [← htook.fits.2.1]
    exact htook.result
  | error msg e =>
    have hthrew := wp_of_error hspec hrun
    exact .inl hthrew.unwritten

theorem step_spec (hs : Opened s) (ev : Event) :
    ∃ s', step s ev = .ok s' ∧ Opened s' ∧ (s' = s ∨ (ev.commands ≠ [] ∧
      s'.lastApplied = s.lastApplied + ev.commands.length ∧
      ∃ replies, RaftKV.applyBatch true (s.lastApplied + 1) ev.commands s = .ok replies s')) := by
  cases ev with
  | call c =>
    rcases c.after_cases hs with ⟨hstore, -⟩ | ⟨hne, hopen, -, hlast, hrun⟩
    · exact ⟨_, rfl, by rwa [hstore], .inl hstore⟩
    · exact ⟨_, rfl, hopen, .inr ⟨hne, hlast, hrun⟩⟩
  | crash c writes =>
    rw [step]
    rcases c.after_cases hs with
      ⟨hstore, hjournal⟩ | ⟨hne, hopen, ⟨batch, hjournal, hdb⟩, hlast, hrun⟩
    · rw [hjournal, List.take_nil]
      exact ⟨s, hs, hs, .inl rfl⟩
    rw [hjournal]
    cases writes with
    | zero => exact ⟨s, hs, hs, .inl rfl⟩
    | succ n =>
      rw [List.take_succ_cons, List.take_nil, List.foldl_cons, List.foldl_nil, ← hdb]
      exact ⟨_, hopen, hopen, .inr ⟨hne, hlast, hrun⟩⟩

/-- Whatever happens, the store is the one that some of the batches give, one after the other. -/
theorem history_spec (hs : Opened s) (events : List Event) :
    ∃ s' batches replies, events.foldlM step s = .ok s' ∧ Opened s' ∧
      batches.Sublist (events.map Event.commands) ∧ (∀ commands ∈ batches, commands ≠ []) ∧
      applyBatches batches s = .ok replies s' := by
  induction events generalizing s with
  | nil => exact ⟨s, [], [], rfl, hs, .slnil, by simp, rfl⟩
  | cons ev events ih =>
    obtain ⟨s₁, hstep, hs₁, hcase⟩ := step_spec hs ev
    obtain ⟨s', batches, replies, hrun, hs', hsub, hne, happly⟩ := ih hs₁
    have hall : (ev :: events).foldlM step s = .ok s' := by
      rw [List.foldlM_cons, hstep]
      exact hrun
    rcases hcase with rfl | ⟨hcmd, -, replies₁, hfirst⟩
    · exact ⟨s', batches, replies, hall, hs', hsub.cons _, hne, happly⟩
    refine ⟨s', ev.commands :: batches, replies₁ ++ replies, hall, hs', hsub.cons_cons _, ?_, ?_⟩
    · simpa using ⟨hcmd, hne⟩
    · simp only [applyBatches, bind, EStateM.bind, MonadState.get, getThe, MonadStateOf.get,
        EStateM.get, hfirst, happly, pure, EStateM.pure]

theorem applyBatch_ok (hs : Opened s) {commands : List Bytes} (hne : commands ≠ [])
    (h : RaftKV.applyBatch true (s.lastApplied + 1) commands s = .ok replies t) :
    Opened t ∧ t.lastApplied = s.lastApplied + commands.length := by
  have hlen := List.length_pos_iff.mpr hne
  have h0 := hs.range.1
  rcases loops_cases s hs.range.2 (s.lastApplied + 1) hne with
    ⟨hfits, b, ops, existed, hb, hmsne, hcheck, hloop, -⟩ |
    ⟨-, ⟨msg, hb⟩ | ⟨b, msg, hb, hmsne, hcheck⟩⟩
  · have hres := applyBatch_of_loops hb hmsne hcheck hloop
    obtain ⟨-, rfl⟩ := EStateM.Result.ok.inj (h.symm.trans hres)
    exact ⟨opened_withMarker s.db ops (by omega) hfits.2.2, rfl⟩
  · have hres : wp (RaftKV.applyBatch true (s.lastApplied + 1) commands) (fun _ _ => False)
        (fun _ _ => True) s := by
      simp [RaftKV.applyBatch, hb]
    exact (wp_of_ok hres h).elim
  have hres : wp (RaftKV.applyBatch true (s.lastApplied + 1) commands) (fun _ _ => False)
      (fun _ _ => True) s := by
    simp [RaftKV.applyBatch, Store.applyBatch, hb, hmsne, hcheck]
  exact (wp_of_ok hres h).elim

theorem applyBatches_ok (hs : Opened s) {batches : List (List Bytes)}
    (hne : ∀ commands ∈ batches, commands ≠ []) (h : applyBatches batches s = .ok replies t) :
    Opened t ∧ t.lastApplied = s.lastApplied + batches.flatten.length := by
  induction batches generalizing s replies with
  | nil =>
    obtain ⟨-, rfl⟩ := EStateM.Result.ok.inj h
    exact ⟨hs, by simp⟩
  | cons commands batches ih =>
    simp only [applyBatches, bind, EStateM.bind, MonadState.get, getThe, MonadStateOf.get,
      EStateM.get, pure, EStateM.pure] at h
    split at h
    · rename_i replies₁ s₁ hfirst
      split at h
      · rename_i replies₂ s₂ hrest
        obtain ⟨-, rfl⟩ := EStateM.Result.ok.inj h
        obtain ⟨hs₁, hlast₁⟩ := applyBatch_ok hs (hne _ List.mem_cons_self) hfirst
        obtain ⟨ht, hlast⟩ := ih hs₁ (fun c hc => hne c (List.mem_cons_of_mem _ hc)) hrest
        refine ⟨ht, ?_⟩
        rw [hlast, hlast₁, List.flatten_cons, List.length_append, Nat.cast_add]
        ring
      · cases h
    · cases h

/-- A store after some batches has the last applied index, and the database, of the store after
the first of them only if these are all. -/
theorem lastApplied_eq_iff_take {s' : Store} (hs : Opened s) {batches : List (List Bytes)}
    (hne : ∀ commands ∈ batches, commands ≠ []) {replies' : List Bytes} {j : ℕ}
    (h : applyBatches batches s = .ok replies s')
    (ht : applyBatches (batches.take j) s = .ok replies' t) :
    s'.lastApplied = t.lastApplied ↔ s'.db = t.db := by
  obtain ⟨hs', hlast⟩ := applyBatches_ok hs hne h
  obtain ⟨ht', hlast'⟩ := applyBatches_ok hs (fun c hc => hne c (List.mem_of_mem_take hc)) ht
  constructor
  · intro heq
    have hlen : batches.flatten.length = (batches.take j).flatten.length := by omega
    have hdrop : batches.drop j = [] := by
      conv_lhs at hlen => rw [← List.take_append_drop j batches]
      rw [List.flatten_append, List.length_append, Nat.add_eq_left, List.length_eq_zero_iff,
        List.flatten_eq_nil_iff] at hlen
      refine List.eq_nil_iff_forall_not_mem.mpr fun c hc => ?_
      exact hne c (List.mem_of_mem_drop hc) (hlen c hc)
    have htake : batches.take j = batches := by
      have := List.take_append_drop j batches
      rwa [hdrop, List.append_nil] at this
    rw [htake, h] at ht
    rw [(EStateM.Result.ok.inj ht).2]
  · intro heq
    rw [hs'.eq_of_db ht' heq]

/-- The database after the first `i` of the commands, run one at a time. -/
def contentsAt (s : Store) (cs : List Command) (i : ℕ) : DB :=
  if i = 0 then s.db
  else (runAll s.db (cs.take i)).1.insert appliedKey (encodeApplied (s.lastApplied + i))

theorem lastApplied_eq_iff_contentsAt {s' : Store} (hs : Opened s) (hok : SessionsOk s.db)
    {batches : List (List Bytes)} (hne : ∀ commands ∈ batches, commands ≠ [])
    (h : applyBatches batches s = .ok replies s') {cs : List Command}
    (hcs : Decodes batches.flatten cs) {i : ℕ} (hi : i ≤ cs.length) :
    s'.lastApplied = s.lastApplied + i ↔ s'.db = contentsAt s cs i := by
  obtain ⟨hs', hlast⟩ := applyBatches_ok hs hne h
  rw [hcs.length_eq] at hlast
  have hrange := hs.range
  have hrange' := hs'.range
  obtain ⟨s'', hrun, -, -, hdb⟩ := applyBatches_runAll s hok batches hne cs hcs (by omega)
  obtain ⟨-, rfl⟩ := EStateM.Result.ok.inj (h.symm.trans hrun)
  have hnil : batches = [] ↔ cs.length = 0 := by
    rw [← hcs.length_eq, List.length_eq_zero_iff, List.flatten_eq_nil_iff]
    refine ⟨by rintro rfl; simp, fun hall => ?_⟩
    exact List.eq_nil_iff_forall_not_mem.mpr fun c hc => hne c hc (hall c hc)
  constructor
  · intro heq
    obtain rfl : i = cs.length := by omega
    rw [hdb, contentsAt, List.take_length, hlast]
    simp only [hnil]
  intro heq
  rw [contentsAt] at heq
  split_ifs at heq with h0
  · rw [hs'.eq_of_db hs heq, h0]
    simp
  · refine hs'.lastApplied_eq (by omega) (by omega) ?_
    rw [heq, DB.getElem?_insert_eq, if_pos rfl]

/-- **A batch is applied as a whole or not at all.** A call on an open store either returns, and
then every command stands for something and has a readable session record, the indexes
continue the last applied one, all reads have succeeded, and one write has put the mutations,
the session records and the marker; or it throws, for one of these reasons, and has written
nothing. After any history of calls and crashes the store is open, and is the one that the
batches it accepted give without faults; its last applied index says how many commands these
are, and is the index of a prefix of them exactly when the database is the one after it. -/
theorem apply_all_or_nothing (s : Store) (hs : Opened s) :
    (∀ c : Call,
      (∀ replies e, c.run s = .ok replies e →
        (c.commands = [] ∧ replies = [] ∧ Unwritten ⟨s, c.reads, []⟩ e) ∨ c.Took s replies e) ∧
      ∀ msg e, c.run s = .error msg e → c.Threw s e) ∧
    ∀ events : List Event, ∃ s' batches replies, events.foldlM step s = .ok s' ∧ Opened s' ∧
      batches.Sublist (events.map Event.commands) ∧ (∀ commands ∈ batches, commands ≠ []) ∧
      applyBatches batches s = .ok replies s' ∧
      s'.lastApplied = s.lastApplied + batches.flatten.length ∧
      (∀ j t replies', applyBatches (batches.take j) s = .ok replies' t →
        (s'.lastApplied = t.lastApplied ↔ s'.db = t.db)) ∧
      ∀ cs, SessionsOk s.db → Decodes batches.flatten cs → ∀ i ≤ cs.length,
        (s'.lastApplied = s.lastApplied + i ↔ s'.db = contentsAt s cs i) := by
  refine ⟨fun c => ⟨fun replies e hrun => ?_, fun msg e hrun => ?_⟩, fun events => ?_⟩
  · by_cases hne : c.commands = []
    · rw [Call.run_nil hne] at hrun
      obtain ⟨rfl, rfl⟩ := EStateM.Result.ok.inj hrun
      exact .inl ⟨hne, rfl, rfl, rfl⟩
    · exact .inr (wp_of_ok (c.run_spec s hs.range.2 hne) hrun)
  · by_cases hne : c.commands = []
    · rw [Call.run_nil hne] at hrun
      cases hrun
    · exact wp_of_error (E := fun _ => c.Threw s) (c.run_spec s hs.range.2 hne) hrun
  · obtain ⟨s', batches, replies, hrun, hs', hsub, hne, happly⟩ := history_spec hs events
    exact ⟨s', batches, replies, hrun, hs', hsub, hne, happly, (applyBatches_ok hs hne happly).2,
      fun j t replies' ht => lastApplied_eq_iff_take hs hne happly ht,
      fun cs hok hcs i hi => lastApplied_eq_iff_contentsAt hs hok hne happly hcs hi⟩

/-- A call with `SET n:k v` at an index, whose write the engine accepts or not. -/
def setAt (index : ℤ) (ok : Bool) : Call where
  firstIndex := index
  commands := [ascii "*3\r\n$3\r\nSET\r\n$3\r\nn:k\r\n$1\r\nv\r\n"]
  writes := ok

/-- A call that succeeds, one whose write fails, and a crash after the write of a third : two
commands are applied. -/
theorem apply_all_or_nothing_crash :
    ∃ s', [Event.call (setAt 1 true), .call (setAt 2 false), .crash (setAt 2 true) 1].foldlM step
      ⟨∅, 0⟩ = .ok s' ∧ Opened s' ∧ s'.lastApplied = 2 := by
  obtain ⟨s', -, -, hrun, hs', -⟩ := (apply_all_or_nothing ⟨∅, 0⟩ (by decide +kernel)).2
    [.call (setAt 1 true), .call (setAt 2 false), .crash (setAt 2 true) 1]
  refine ⟨s', hrun, hs', ?_⟩
  have hlast : (([Event.call (setAt 1 true), .call (setAt 2 false), .crash (setAt 2 true) 1].foldlM
      step ⟨∅, 0⟩).toOption.map Store.lastApplied) = some 2 := by decide +kernel
  rw [hrun] at hlast
  exact Option.some.inj hlast

/-- `SET` on the session key of the client `c`, with a value of one byte. -/
def spoil : Call where
  firstIndex := 1
  commands := [ascii "*3\r\n$3\r\nSET\r\n$16\r\n" ++ clientSessionKey (ascii "c") ++
    ascii "\r\n$1\r\nx\r\n"]

/-- `IDEMP c 1 SET n:k v`. -/
def idempAfter : Call where
  firstIndex := 2
  commands := [ascii "*6\r\n$5\r\nIDEMP\r\n$1\r\nc\r\n$1\r\n1\r\n" ++
    ascii "$3\r\nSET\r\n$3\r\nn:k\r\n$1\r\nv\r\n"]

/-- After a batch with `SET` on a session key, a batch with a well-formed command at the next
index throws, though no read and no write fails. -/
theorem corrupt_session_throws :
    spoil.thrown ⟨∅, 0⟩ = none ∧
      (∀ command ∈ idempAfter.commands, (decodeCommand command).isSome) ∧
      idempAfter.firstIndex = (spoil.after ⟨∅, 0⟩).store.lastApplied + 1 ∧
      idempAfter.reads = [] ∧ idempAfter.writes = true ∧
      idempAfter.thrown (spoil.after ⟨∅, 0⟩).store = some "corrupt client session" := by
  decide +kernel

end RaftKV.Faulty
