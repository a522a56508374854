import RaftKV.Store

/-!
# The state machine

`KVStateMachine::ApplyBatch` turns committed commands into mutations and replies before
it touches the store. It tracks the presence of keys for `IDEMP DEL` in one overlay, the
client sessions in another, leaves an empty reply where a plain `DEL` has to wait for
the store, and fills it in after the write.

`Command.run` is the plain meaning of one command on the contents of the store, and
`runAll` folds it. `applyBatch_eq_runAll` says that a batch of valid commands has the
replies and the final contents of that fold; since the fold does not see how a list is
cut, any two ways to cut it agree (`applyBatches_eq_runAll`). The session records must be ones
the machine wrote (`short_record_differs`).
-/

namespace RaftKV

/-! ## Replies and client sessions -/

/-- The reply to a write. -/
def okReply : Bytes := ascii "+OK\r\n"

/-- The reply to a delete, by whether the key was there. -/
def deleteReply (existed : Bool) : Bytes :=
  if existed then ascii ":1\r\n" else ascii ":0\r\n"

/-- The reply to a request id below the stored one. -/
def staleReply : Bytes := ascii "-ERR stale request\r\n"

/-- `SessionRecord`. -/
structure SessionRecord where
  requestId : ℕ := 0
  reply : Bytes := []
  deriving DecidableEq

/-- `ClientSessionKey`. -/
def clientSessionKey (client : Bytes) : Bytes :=
  0 :: ascii "raftkv:client:" ++ client

/-- `EncodeSession`. -/
def encodeSession (requestId : ℕ) (reply : Bytes) : Bytes :=
  beBytes 8 requestId ++ reply

/-! ## `KVStateMachine::ApplyBatch` -/

/-- The session records a batch has read or written. -/
abbrev Sessions := Std.ExtTreeMap Bytes SessionRecord compare

/-- The local variables of `ApplyBatch`. -/
structure BatchState where
  mutations : List Mutation := []
  replies : List Bytes := []
  present : Overlay := ∅
  sessions : Sessions := ∅
  index : ℤ

/-- The lambda `key_present`. -/
def keyPresent (db : DB) (present : Overlay) (key : Bytes) : Bool :=
  match present[key]? with
  | some b => b
  | none => db.contains key

/-- The lambda `session_for` : the record, and the overlay with the record in it. -/
def sessionFor (db : DB) (sessions : Sessions) (client : Bytes) :
    Except String (SessionRecord × Sessions) :=
  match sessions[client]? with
  | some record => .ok (record, sessions)
  | none =>
    match db[clientSessionKey client]? with
    | none => .ok ({}, sessions.insert client {})
    | some raw =>
      if raw.length < 8 then .error "corrupt client session"
      else .ok (⟨beNat (raw.take 8), raw.drop 8⟩,
        sessions.insert client ⟨beNat (raw.take 8), raw.drop 8⟩)

/-- The dispatch on one command : its mutation at `index`, its reply, and the sessions. -/
def dispatch (db : DB) (b : BatchState) (index : ℤ) (command : Bytes) :
    Except String (Mutation × Bytes × Sessions) := do
  if command = [] then return ({ index, kind := .noop }, okReply, b.sessions)
  let parsed := tryParseOne command
  if parsed.state ≠ .complete ∨ parsed.consumed ≠ command.length then
    throw "invalid command in committed Raft log"
  let op := upperCommand (parsed.args.headD [])
  match parsed.args with
  | [_, key, value] =>
    if op = ascii "SET" then return ({ index, kind := .put, key, value }, okReply, b.sessions)
  | [_, key] =>
    if op = ascii "DEL" then return ({ index, kind := .delete, key }, okReply, b.sessions)
  | _ => pure ()
  if op = ascii "IDEMP" then
    match parseIdempotentCommand parsed.args with
    | .error _ => throw "unsupported command in committed Raft log"
    | .ok idempotent =>
      let (record, sessions) ← sessionFor db b.sessions idempotent.clientId
      if idempotent.requestId < record.requestId then
        return ({ index, kind := .noop }, staleReply, sessions)
      if idempotent.requestId = record.requestId then
        return ({ index, kind := .noop }, record.reply, sessions)
      let reply := match idempotent.op with
        | .set => okReply
        | .del => deleteReply (keyPresent db b.present idempotent.key)
      let record : SessionRecord := ⟨idempotent.requestId, reply⟩
      return ({ index
                kind := match idempotent.op with
                  | .set => .put
                  | .del => .delete
                key := idempotent.key
                value := idempotent.value
                sessionKey := clientSessionKey idempotent.clientId
                sessionValue := encodeSession record.requestId record.reply },
        reply, sessions.insert idempotent.clientId record)
  else throw "unsupported command in committed Raft log"

/-- One turn of the loop over the commands. -/
def applyCommand (db : DB) (b : BatchState) (command : Bytes) : Except String BatchState := do
  if b.mutations ≠ [] ∧ b.index = int64Max then throw "state machine index overflow"
  let index := if b.mutations = [] then b.index else b.index + 1
  let (mutation, reply, sessions) ← dispatch db b index command
  let present := match mutation.kind with
    | .put => b.present.insert mutation.key true
    | .delete => b.present.insert mutation.key false
    | .noop => b.present
  let reply := if mutation.kind = .delete ∧ reply = okReply then [] else reply
  return { mutations := b.mutations ++ [mutation], replies := b.replies ++ [reply],
           present, sessions, index }

/-- The replies left empty are those of plain deletes. -/
def patchReplies (replies : List Bytes) (existed : List Bool) : List Bytes :=
  List.zipWith (fun reply e => if reply = [] then deleteReply e else reply) replies existed

/-- `KVStateMachine::ApplyBatch`. -/
def applyBatch (ok : Bool) (firstIndex : ℤ) (commands : List Bytes) : StoreM (List Bytes) := do
  let s ← get
  let b ← ofExcept (commands.foldlM (applyCommand s.db) { index := firstIndex })
  let existed ← Store.applyBatch ok b.mutations
  return patchReplies b.replies existed

/-! ## The meaning of a command -/

/-- A write to one user key. -/
inductive WriteOp where
  | set (key value : Bytes)
  | del (key : Bytes)
  deriving DecidableEq

/-- A committed command. -/
inductive Command where
  | noop
  | write (op : WriteOp)
  | idemp (client : Bytes) (requestId : ℕ) (op : WriteOp)
  deriving DecidableEq

/-- The command a byte string stands for. -/
def decodeCommand (bytes : Bytes) : Option Command :=
  if bytes = [] then some .noop
  else
    let parsed := tryParseOne bytes
    if parsed.state = .complete ∧ parsed.consumed = bytes.length then
      match parsed.args with
      | [verb, key] => if upperCommand verb = ascii "DEL" then some (.write (.del key)) else none
      | [verb, key, value] =>
        if upperCommand verb = ascii "SET" then some (.write (.set key value)) else none
      | args =>
        match parseIdempotentCommand args with
        | .error _ => none
        | .ok c => some (.idemp c.clientId c.requestId
            (match c.op with
              | .set => .set c.key c.value
              | .del => .del c.key))
    else none

/-- The user key a write touches. -/
def WriteOp.key : WriteOp → Bytes
  | .set k _ => k
  | .del k => k

/-- A write and its reply. -/
def WriteOp.run (db : DB) : WriteOp → DB × Bytes
  | .set k v => (db.insert k v, okReply)
  | .del k => (db.erase k, deleteReply (db.contains k))

/-- The stored session of a client. -/
def sessionOf (db : DB) (client : Bytes) : SessionRecord :=
  match db[clientSessionKey client]? with
  | none => {}
  | some raw => ⟨beNat (raw.take 8), raw.drop 8⟩

/-- A command on the contents of the store, and its reply. -/
def Command.run (db : DB) : Command → DB × Bytes
  | .noop => (db, okReply)
  | .write op => op.run db
  | .idemp client id op =>
    if id < (sessionOf db client).requestId then (db, staleReply)
    else if id = (sessionOf db client).requestId then (db, (sessionOf db client).reply)
    else
      ((op.run db).1.insert (clientSessionKey client) (encodeSession id (op.run db).2),
        (op.run db).2)

/-- Commands one at a time : the final contents and the replies in order. -/
def runAll : DB → List Command → DB × List Bytes
  | db, [] => (db, [])
  | db, c :: cs => ((runAll (c.run db).1 cs).1, (c.run db).2 :: (runAll (c.run db).1 cs).2)

/-- A key that is neither of a session record nor the marker, as every key that does not start
with a NUL byte. -/
def UserKey (key : Bytes) : Prop :=
  ¬clientSessionKey [] <+: key ∧ key ≠ appliedKey

instance (key : Bytes) : Decidable (UserKey key) := inferInstanceAs (Decidable (_ ∧ _))

/-- The commands the server may commit : they touch user keys only. -/
def Command.Valid : Command → Prop
  | .noop => True
  | .write op => UserKey op.key
  | .idemp _ _ op => UserKey op.key

instance (c : Command) : Decidable c.Valid :=
  match c with
  | .noop => inferInstanceAs (Decidable True)
  | .write op => inferInstanceAs (Decidable (UserKey op.key))
  | .idemp _ _ op => inferInstanceAs (Decidable (UserKey op.key))

/-- A command that touches user keys only, if it can be decoded. -/
def Clean (command : Bytes) : Prop :=
  ∀ c, decodeCommand command = some c → c.Valid

/-- Every session record has a request id and a reply. -/
def SessionsOk (db : DB) : Prop :=
  ∀ client raw, db[clientSessionKey client]? = some raw → 8 < raw.length

/-! ## Session keys -/

theorem clientSessionKey_inj {a b : Bytes} (h : clientSessionKey a = clientSessionKey b) :
    a = b := by
  simpa [clientSessionKey] using h

theorem clientSessionKey_ne_appliedKey (client : Bytes) : clientSessionKey client ≠ appliedKey := by
  intro h
  have h8 := congrArg (fun l : Bytes => l[8]?) h
  rw [clientSessionKey, List.getElem?_append_left (by decide)] at h8
  exact absurd h8 (by decide)

theorem UserKey.ne_clientSessionKey {k : Bytes} (h : UserKey k) (client : Bytes) :
    k ≠ clientSessionKey client := by
  rintro rfl
  refine h.1 ?_
  rw [clientSessionKey, List.append_nil]
  exact List.prefix_append _ _

theorem UserKey.ne_appliedKey {k : Bytes} (h : UserKey k) : k ≠ appliedKey := h.2

/-- A key that does not start with a NUL byte is one of a user. -/
theorem userKey_of_head {k : Bytes} (h : k.head? ≠ some 0) : UserKey k := by
  refine ⟨?_, ?_⟩
  · rintro ⟨rest, rfl⟩
    exact h rfl
  · rintro rfl
    exact h rfl

variable {db cur : DB} {c : Command} {bytes : Bytes} {cs : List Command}

theorem sessionOf_congr {db' : DB} {client : Bytes}
    (h : db[clientSessionKey client]? = db'[clientSessionKey client]?) :
    sessionOf db client = sessionOf db' client := by
  simp only [sessionOf, h]

theorem sessionOf_insert_session (db : DB) (client : Bytes) {id : ℕ} (hid : id ≤ uint64Max)
    (reply : Bytes) :
    sessionOf (db.insert (clientSessionKey client) (encodeSession id reply)) client =
      ⟨id, reply⟩ := by
  have hlt : id < 256 ^ 8 := by
    simp only [uint64Max] at hid
    omega
  have htake : (encodeSession id reply).take 8 = beBytes 8 id := by
    rw [encodeSession, List.take_append_of_le_length (by simp)]
    exact List.take_of_length_le (by simp)
  have hdrop : (encodeSession id reply).drop 8 = reply := by
    rw [encodeSession, List.drop_append_of_le_length (by simp)]
    simp [List.drop_of_length_le]
  simp [sessionOf, htake, hdrop, beNat_beBytes hlt]

theorem WriteOp.run_session (db : DB) {op : WriteOp} (h : UserKey op.key) (client : Bytes) :
    (op.run db).1[clientSessionKey client]? = db[clientSessionKey client]? := by
  cases op with
  | set k v => exact (DB.getElem?_insert_eq _ _ _ _).trans (if_neg (h.ne_clientSessionKey client))
  | del k => exact (DB.getElem?_erase_eq _ _ _).trans (if_neg (h.ne_clientSessionKey client))

theorem deleteReply_ne_nil (b : Bool) : deleteReply b ≠ [] := by
  cases b <;> decide

theorem deleteReply_ne_okReply (b : Bool) : deleteReply b ≠ okReply := by
  cases b <;> decide

theorem WriteOp.run_reply_ne_nil (db : DB) (op : WriteOp) : (op.run db).2 ≠ [] := by
  cases op with
  | set k v => show okReply ≠ []; decide
  | del k => exact deleteReply_ne_nil _

/-- Session records stay readable, and their replies stay non-empty. -/
theorem SessionsOk.run (h : SessionsOk db) (hc : c.Valid) : SessionsOk (c.run db).1 := by
  cases c with
  | noop => exact h
  | write op =>
    intro client raw hraw
    rw [Command.run, op.run_session db hc] at hraw
    exact h client raw hraw
  | idemp who id op =>
    rw [Command.run]
    split_ifs with h1 h2
    · exact h
    · exact h
    intro client raw hraw
    rw [DB.getElem?_insert_eq] at hraw
    split_ifs at hraw with hk
    · obtain rfl := Option.some.inj hraw
      have := List.length_pos_iff.mpr (op.run_reply_ne_nil db)
      simp only [encodeSession, List.length_append, length_beBytes]
      omega
    · rw [op.run_session db hc] at hraw
      exact h client raw hraw

/-! ## One command -/

/-- The overlays over `db` show the contents `cur` : the presence of user keys, the
sessions read so far, and that the others are still those of `db`. -/
structure Tracks (db cur : DB) (present : Overlay) (sessions : Sessions) : Prop where
  present : ∀ k, UserKey k → keyPresent db present k = cur.contains k
  session : ∀ client r, sessions[client]? = some r → r = sessionOf cur client
  fresh : ∀ client, sessions[client]? = none →
    cur[clientSessionKey client]? = db[clientSessionKey client]?

theorem Tracks.refl (db : DB) : Tracks db db ∅ ∅ where
  present k _ := by simp [keyPresent]
  session client r h := by simp at h
  fresh client _ := rfl

@[simp] theorem getElem?_sessions_insert (o : Sessions) (k : Bytes) (r : SessionRecord)
    (a : Bytes) : (o.insert k r)[a]? = if k = a then some r else o[a]? := by
  rw [Std.ExtTreeMap.getElem?_insert]
  simp only [Std.LawfulEqCmp.compare_eq_iff_eq]

theorem keyPresent_insert (db : DB) (present : Overlay) (k : Bytes) (b : Bool) (a : Bytes) :
    keyPresent db (present.insert k b) a = if k = a then b else keyPresent db present a := by
  unfold keyPresent
  rw [getElem?_overlay_insert]
  by_cases h : k = a <;> simp [h]

/-- The presence overlay after the mutation of a write to a user key. -/
def WriteOp.mark (present : Overlay) : WriteOp → Overlay
  | .set k _ => present.insert k true
  | .del k => present.insert k false

theorem Tracks.write {present : Overlay} {sessions : Sessions}
    (h : Tracks db cur present sessions) {op : WriteOp} (hk : UserKey op.key) :
    Tracks db (op.run cur).1 (op.mark present) sessions where
  present k hu := by
    cases op with
    | set key v =>
      simp only [WriteOp.mark, WriteOp.run, keyPresent_insert, contains_insert, h.present k hu]
      by_cases hkey : key = k <;> simp [hkey]
    | del key =>
      simp only [WriteOp.mark, WriteOp.run, keyPresent_insert, contains_erase, h.present k hu]
      by_cases hkey : key = k <;> simp [hkey]
  session client r hr := by
    rw [h.session client r hr]
    exact sessionOf_congr (op.run_session cur hk client).symm
  fresh client hn := by rw [op.run_session cur hk, h.fresh client hn]

theorem Tracks.record {present : Overlay} {sessions : Sessions}
    (h : Tracks db cur present sessions) (client : Bytes) {id : ℕ} (hid : id ≤ uint64Max)
    (reply : Bytes) :
    Tracks db (cur.insert (clientSessionKey client) (encodeSession id reply)) present
      (sessions.insert client ⟨id, reply⟩) where
  present k hu := by
    rw [contains_insert, h.present k hu]
    simp [(hu.ne_clientSessionKey client).symm]
  session c r hr := by
    rw [getElem?_sessions_insert] at hr
    split_ifs at hr with hc
    · obtain rfl := Option.some.inj hr
      subst hc
      rw [sessionOf_insert_session _ _ hid]
    · rw [h.session c r hr]
      refine sessionOf_congr ?_
      rw [DB.getElem?_insert_eq, if_neg fun hk => hc (clientSessionKey_inj hk)]
  fresh c hn := by
    rw [getElem?_sessions_insert] at hn
    split_ifs at hn with hc
    rw [DB.getElem?_insert_eq, if_neg fun hk => hc (clientSessionKey_inj hk), h.fresh c hn]

/-- `session_for` reads the session the contents hold, and keeps the overlays in step. -/
theorem sessionFor_eq {present : Overlay} {sessions : Sessions}
    (h : Tracks db cur present sessions) (hok : SessionsOk cur) (client : Bytes) :
    ∃ sessions', sessionFor db sessions client = .ok (sessionOf cur client, sessions') ∧
      Tracks db cur present sessions' := by
  unfold sessionFor
  cases hs : sessions[client]? with
  | some r =>
    refine ⟨sessions, ?_, h⟩
    simp only
    rw [h.session client r hs]
  | none =>
    have hfresh := h.fresh client hs
    have insert : ∀ r, r = sessionOf cur client →
        Tracks db cur present (sessions.insert client r) := by
      rintro r rfl
      refine ⟨h.present, ?_, ?_⟩
      · intro c r hr
        rw [getElem?_sessions_insert] at hr
        split_ifs at hr with hc
        · rw [← hc, ← Option.some.inj hr]
        · exact h.session c r hr
      intro c hn
      rw [getElem?_sessions_insert] at hn
      split_ifs at hn with hc
      exact h.fresh c hn
    cases hdb : db[clientSessionKey client]? with
    | none =>
      have hsess : sessionOf cur client = {} := by simp [sessionOf, hfresh, hdb]
      exact ⟨_, by simp [hsess], insert _ hsess.symm⟩
    | some raw =>
      have hlen := hok client raw (hfresh.trans hdb)
      have hsess : sessionOf cur client = ⟨beNat (raw.take 8), raw.drop 8⟩ := by
        simp [sessionOf, hfresh, hdb]
      refine ⟨_, ?_, insert _ hsess.symm⟩
      simp [hsess, show ¬raw.length < 8 by omega]

/-- The write of a parsed idempotent command. -/
def IdempotentCommand.write (c : IdempotentCommand) : WriteOp :=
  match c.op with
  | .set => .set c.key c.value
  | .del => .del c.key

/-- A parsed idempotent command names its verb and has at least five arguments. -/
theorem parseIdempotentCommand_ok {args : List Bytes} {c : IdempotentCommand}
    (h : parseIdempotentCommand args = .ok c) :
    upperCommand (args.headD []) = ascii "IDEMP" ∧ 5 ≤ args.length ∧
      0 < c.requestId ∧ c.requestId ≤ uint64Max := by
  unfold parseIdempotentCommand at h
  split at h
  · cases h
  split_ifs at h with hverb
  split at h
  · split_ifs at h with hmore hclient
    split at h
    · cases h
    rename_i id hid
    have hrange := parseRequestId_range hid
    refine ⟨by simpa using hverb, by simp, ?_⟩
    split at h <;> dsimp only at h <;> split_ifs at h <;> cases h <;> exact hrange
  · cases h

/-- What a byte string that decodes looks like to the parser. -/
theorem decodeCommand_cases (h : decodeCommand bytes = some c) : (bytes = [] ∧ c = .noop) ∨
    (bytes ≠ [] ∧ (tryParseOne bytes).state = .complete ∧
      (tryParseOne bytes).consumed = bytes.length ∧
      ((∃ verb k v, (tryParseOne bytes).args = [verb, k, v] ∧
          upperCommand verb = ascii "SET" ∧ c = .write (.set k v)) ∨
        (∃ verb k, (tryParseOne bytes).args = [verb, k] ∧
          upperCommand verb = ascii "DEL" ∧ c = .write (.del k)) ∨
        ∃ i, parseIdempotentCommand (tryParseOne bytes).args = .ok i ∧
          c = .idemp i.clientId i.requestId i.write)) := by
  unfold decodeCommand at h
  split_ifs at h with hnil
  · exact Or.inl ⟨hnil, (Option.some.inj h).symm⟩
  dsimp only at h
  split_ifs at h with hparsed
  refine Or.inr ⟨hnil, hparsed.1, hparsed.2, ?_⟩
  split at h
  · rename_i verb k hargs
    split_ifs at h with hop
    exact Or.inr (Or.inl ⟨verb, k, hargs, hop, (Option.some.inj h).symm⟩)
  · rename_i verb k v hargs
    split_ifs at h with hop
    exact Or.inl ⟨verb, k, v, hargs, hop, (Option.some.inj h).symm⟩
  split at h
  · cases h
  · rename_i i hi
    exact Or.inr (Or.inr ⟨i, hi, (Option.some.inj h).symm⟩)

/-- The reply of a command once the store has said whether its key existed. -/
def patchReply (reply : Bytes) (existed : Bool) : Bytes :=
  if reply = [] then deleteReply existed else reply

/-- What one turn of the loop has to do : the mutation `m` and the reply `reply` stand
for the command `c` on the contents `cur`. -/
structure Stands (db cur : DB) (c : Command) (m : Mutation) (reply : Bytes)
    (present : Overlay) (sessions : Sessions) : Prop where
  session : m.sessionKey ≠ appliedKey
  ops : cur.write m.ops = (c.run cur).1
  reply : patchReply (if m.kind = .delete ∧ reply = okReply then [] else reply)
    (m.kind = .delete && cur.contains m.key) = (c.run cur).2
  tracks : Tracks db (c.run cur).1
    (match m.kind with
      | .put => present.insert m.key true
      | .delete => present.insert m.key false
      | .noop => present) sessions

theorem nil_ne_appliedKey : ([] : Bytes) ≠ appliedKey := by
  decide

/-- The dispatch on an `IDEMP` command that has the right form. -/
def idempotentOn (db : DB) (b : BatchState) (index : ℤ) (i : IdempotentCommand) :
    Except String (Mutation × Bytes × Sessions) := do
  let (record, sessions) ← sessionFor db b.sessions i.clientId
  if i.requestId < record.requestId then
    return ({ index, kind := .noop }, staleReply, sessions)
  if i.requestId = record.requestId then
    return ({ index, kind := .noop }, record.reply, sessions)
  let reply := match i.op with
    | .set => okReply
    | .del => deleteReply (keyPresent db b.present i.key)
  return ({ index
            kind := match i.op with
              | .set => .put
              | .del => .delete
            key := i.key
            value := i.value
            sessionKey := clientSessionKey i.clientId
            sessionValue := encodeSession i.requestId reply },
    reply, sessions.insert i.clientId ⟨i.requestId, reply⟩)

theorem dispatch_idempotent {b : BatchState} {i : IdempotentCommand}
    {index : ℤ} (hne : bytes ≠ []) (hst : (tryParseOne bytes).state = .complete)
    (hcons : (tryParseOne bytes).consumed = bytes.length)
    (hi : parseIdempotentCommand (tryParseOne bytes).args = .ok i) :
    dispatch db b index bytes = idempotentOn db b index i := by
  obtain ⟨hverb, hlen, -⟩ := parseIdempotentCommand_ok hi
  match hargs : (tryParseOne bytes).args with
  | [] => simp [hargs] at hlen
  | [_] => simp [hargs] at hlen
  | [_, _] => simp [hargs] at hlen
  | [_, _, _] => simp [hargs] at hlen
  | a₁ :: a₂ :: a₃ :: a₄ :: rest =>
    rw [hargs] at hi hverb
    simp only [List.headD_cons] at hverb
    simp [dispatch, idempotentOn, hne, hst, hcons, hargs, hverb, hi]

/-- The dispatch on a valid command succeeds with a mutation that stands for it. -/
theorem dispatch_eq {b : BatchState}
    (hc : decodeCommand bytes = some c) (hv : c.Valid) (ht : Tracks db cur b.present b.sessions)
    (hok : SessionsOk cur) (index : ℤ) :
    ∃ m reply sessions, dispatch db b index bytes = .ok (m, reply, sessions) ∧
      m.index = index ∧ Stands db cur c m reply b.present sessions := by
  have hokReply : patchReply okReply false = okReply := by decide
  rcases decodeCommand_cases hc with ⟨rfl, rfl⟩ | ⟨hne, hst, hcons, hargs⟩
  · exact ⟨_, _, _, rfl, rfl, nil_ne_appliedKey, rfl, hokReply, ht⟩
  rcases hargs with ⟨verb, k, v, hargs, hop, rfl⟩ | ⟨verb, k, hargs, hop, rfl⟩ | ⟨i, hi, rfl⟩
  · refine ⟨{ index, kind := .put, key := k, value := v }, okReply, b.sessions, ?_, rfl, ?_⟩
    · simp [dispatch, hne, hst, hcons, hargs, hop]
      rfl
    · exact ⟨nil_ne_appliedKey, rfl, hokReply, ht.write hv⟩
  · refine ⟨{ index, kind := .delete, key := k }, okReply, b.sessions, ?_, rfl, ?_⟩
    · simp [dispatch, hne, hst, hcons, hargs, hop]
      rfl
    · refine ⟨nil_ne_appliedKey, rfl, ?_, ht.write hv⟩
      simp [patchReply, Command.run, WriteOp.run]
  obtain ⟨-, -, hpos, hmax⟩ := parseIdempotentCommand_ok hi
  obtain ⟨sessions, hsess, ht'⟩ := sessionFor_eq ht hok i.clientId
  rw [dispatch_idempotent hne hst hcons hi, idempotentOn, hsess]
  rcases lt_trichotomy i.requestId (sessionOf cur i.clientId).requestId with hlt | heq | hgt
  · refine ⟨{ index, kind := .noop }, staleReply, sessions, ?_, rfl, ?_⟩
    · simp [bind, Except.bind, hlt]
      rfl
    have hrun : (Command.idemp i.clientId i.requestId i.write).run cur =
        (cur, staleReply) := by simp [Command.run, hlt]
    refine ⟨nil_ne_appliedKey, by rw [hrun]; rfl, ?_, by rw [hrun]; exact ht'⟩
    rw [hrun]
    show patchReply staleReply false = staleReply
    decide
  · refine ⟨{ index, kind := .noop }, (sessionOf cur i.clientId).reply, sessions, ?_, rfl, ?_⟩
    · simp [bind, Except.bind, heq]
      rfl
    have hrun : (Command.idemp i.clientId i.requestId i.write).run cur =
        (cur, (sessionOf cur i.clientId).reply) := by simp [Command.run, heq]
    refine ⟨nil_ne_appliedKey, by rw [hrun]; rfl, ?_, by rw [hrun]; exact ht'⟩
    rw [hrun]
    have hreply : (sessionOf cur i.clientId).reply ≠ [] := by
      cases hraw : cur[clientSessionKey i.clientId]? with
      | none => simp [sessionOf, hraw] at heq; omega
      | some raw =>
        have h8 := hok _ raw hraw
        simp only [sessionOf, hraw]
        exact List.ne_nil_of_length_pos (by simp; omega)
    simp [patchReply, hreply]
  · have hrun : (Command.idemp i.clientId i.requestId i.write).run cur =
        ((i.write.run cur).1.insert (clientSessionKey i.clientId)
          (encodeSession i.requestId (i.write.run cur).2), (i.write.run cur).2) := by
      simp [Command.run, hgt.not_gt, hgt.ne']
    have hkey : UserKey i.write.key := hv
    have hrec := (ht'.write hkey).record i.clientId hmax (i.write.run cur).2
    simp only [bind, Except.bind, hgt.not_gt, hgt.ne', if_false]
    cases hop : i.op with
    | set =>
      have hw : i.write = .set i.key i.value := by simp [IdempotentCommand.write, hop]
      rw [hw] at hrun hrec
      refine ⟨_, _, _, rfl, rfl, clientSessionKey_ne_appliedKey _, ?_, ?_, ?_⟩
      · rw [hw, hrun]
        simp [Mutation.ops, DB.apply, WriteOp.run, clientSessionKey]
      · rw [hw, hrun]
        exact hokReply
      · rw [hw, hrun]
        exact hrec
    | del =>
      have hw : i.write = .del i.key := by simp [IdempotentCommand.write, hop]
      have hpres : keyPresent db b.present i.key = cur.contains i.key :=
        ht.present _ (by simpa [hw, WriteOp.key] using hkey)
      rw [hw] at hrun hrec
      refine ⟨_, _, _, rfl, rfl, clientSessionKey_ne_appliedKey _, ?_, ?_, ?_⟩
      · rw [hw, hrun, hpres]
        simp [Mutation.ops, DB.apply, WriteOp.run, clientSessionKey]
      · rw [hw, hrun, hpres]
        simp [patchReply, deleteReply_ne_okReply, deleteReply_ne_nil, WriteOp.run]
      · rw [hw, hrun, hpres]
        exact hrec

/-! ## A batch -/

/-- The index the next command gets. -/
def BatchState.next (b : BatchState) : ℤ :=
  if b.mutations = [] then b.index else b.index + 1

theorem applyCommand_eq {b : BatchState}
    (hc : decodeCommand bytes = some c) (hv : c.Valid) (ht : Tracks db cur b.present b.sessions)
    (hok : SessionsOk cur) (hmax : b.next ≤ int64Max) :
    ∃ m reply b', applyCommand db b bytes = .ok b' ∧ m.index = b.next ∧
      m.sessionKey ≠ appliedKey ∧ cur.write m.ops = (c.run cur).1 ∧
      patchReply reply (m.kind = .delete && cur.contains m.key) = (c.run cur).2 ∧
      b'.mutations = b.mutations ++ [m] ∧ b'.replies = b.replies ++ [reply] ∧
      b'.next = b.next + 1 ∧ Tracks db (c.run cur).1 b'.present b'.sessions := by
  obtain ⟨m, reply, sessions, hd, hidx, hst⟩ := dispatch_eq hc hv ht hok b.next
  have hover : ¬(b.mutations ≠ [] ∧ b.index = int64Max) := by
    rintro ⟨hne, heq⟩
    simp only [BatchState.next, if_neg hne] at hmax
    omega
  refine ⟨m, if m.kind = .delete ∧ reply = okReply then [] else reply,
    { mutations := b.mutations ++ [m],
      replies := b.replies ++ [if m.kind = .delete ∧ reply = okReply then [] else reply],
      present := match m.kind with
        | .put => b.present.insert m.key true
        | .delete => b.present.insert m.key false
        | .noop => b.present,
      sessions := sessions, index := b.next }, ?_, hidx, hst.session, hst.ops, hst.reply, rfl, rfl,
    ?_, hst.tracks⟩
  · rw [applyCommand, if_neg hover]
    show (dispatch db b b.next bytes >>= _) = _
    rw [hd]
    rfl
  · simp [BatchState.next]

/-- The commands of a batch, each with what it stands for. -/
abbrev Decodes (commands : List Bytes) (cs : List Command) : Prop :=
  List.Forall₂ (fun bytes c => decodeCommand bytes = some c ∧ c.Valid) commands cs

theorem applyCommands_eq {commands : List Bytes} (h : Decodes commands cs) :
    ∀ {cur : DB} {b : BatchState}, Tracks db cur b.present b.sessions → SessionsOk cur →
      b.next + cs.length ≤ int64Max + 1 →
      ∃ ms replies b', commands.foldlM (applyCommand db) b = .ok b' ∧
        b'.mutations = b.mutations ++ ms ∧ b'.replies = b.replies ++ replies ∧
        ms.length = cs.length ∧ (∀ i (hi : i < ms.length), ms[i].index = b.next + i) ∧
        (∀ m ∈ ms, m.sessionKey ≠ appliedKey) ∧
        cur.write (ms.flatMap Mutation.ops) = (runAll cur cs).1 ∧
        patchReplies replies (existedAt cur ms) = (runAll cur cs).2 := by
  induction h with
  | nil =>
    intro cur b _ _ _
    exact ⟨[], [], b, rfl, by simp, by simp, rfl, by simp, by simp, rfl, rfl⟩
  | @cons bytes c commands cs hc _ ih =>
    intro cur b ht hok hmax
    simp only [List.length_cons, Nat.cast_add, Nat.cast_one] at hmax
    obtain ⟨m, reply, b₁, h₁, hidx, hsess, hops, hrep, hms₁, hrs₁, hnext, ht₁⟩ :=
      applyCommand_eq hc.1 hc.2 ht hok (by omega)
    obtain ⟨ms, replies, b', h₂, hms, hrs, hlen, hidxs, hsesss, hopss, hreps⟩ :=
      ih ht₁ (hok.run hc.2) (by omega)
    refine ⟨m :: ms, reply :: replies, b', ?_, by simp [hms, hms₁], by simp [hrs, hrs₁],
      by simp [hlen], ?_, ?_, ?_, ?_⟩
    · rw [List.foldlM_cons, h₁]
      exact h₂
    · intro i hi
      cases i with
      | zero => simpa using hidx
      | succ i =>
        have := hidxs i (by simpa using hi)
        simp only [List.getElem_cons_succ, Nat.cast_add, Nat.cast_one, this, hnext]
        ring
    · simpa using ⟨hsess, hsesss⟩
    · rw [List.flatMap_cons, DB.write_append, hops, hopss]
      rfl
    · simp only [existedAt, patchReplies, List.zipWith_cons_cons, hops, runAll]
      rw [← hreps, ← hrep]
      rfl

theorem SessionsOk.runAll {db : DB} (h : SessionsOk db) :
    ∀ {cs : List Command}, (∀ c ∈ cs, c.Valid) → SessionsOk (runAll db cs).1
  | [], _ => h
  | c :: cs, hv => by
    have hc := h.run (hv c List.mem_cons_self)
    exact SessionsOk.runAll hc fun c' hc' => hv c' (List.mem_cons_of_mem _ hc')

theorem Decodes.valid {commands : List Bytes} (h : Decodes commands cs) : ∀ c ∈ cs, c.Valid := by
  induction h with
  | nil => simp
  | cons hc _ ih => simpa using ⟨hc.2, ih⟩

theorem Decodes.append {l₁ l₂ : List Bytes} (h : Decodes (l₁ ++ l₂) cs) :
    ∃ cs₁ cs₂, Decodes l₁ cs₁ ∧ Decodes l₂ cs₂ ∧ cs = cs₁ ++ cs₂ :=
  ⟨_, _, (List.forall₂_take_append _ _ _ h.flip).flip, (List.forall₂_drop_append _ _ _ h.flip).flip,
    (List.take_append_drop _ _).symm⟩

/-- A batch of valid commands has the replies and the contents of running them one at a
time, and moves the marker by its length. -/
theorem applyBatch_eq_runAll (s : Store) (hok : SessionsOk s.db) {commands : List Bytes}
    (h : Decodes commands cs) (hne : commands ≠ []) (hmax : s.lastApplied + cs.length ≤ int64Max) :
    applyBatch true (s.lastApplied + 1) commands s = .ok (runAll s.db cs).2
      ⟨(runAll s.db cs).1.insert appliedKey (encodeApplied (s.lastApplied + cs.length)),
        s.lastApplied + cs.length⟩ := by
  have hnext : (BatchState.next { index := s.lastApplied + 1 }) = s.lastApplied + 1 := rfl
  obtain ⟨ms, replies, b', hfold, hms, hrs, hlen, hidx, hsess, hops, hrep⟩ :=
    applyCommands_eq h (b := { index := s.lastApplied + 1 }) (Tracks.refl s.db) hok
      (by rw [hnext]; omega)
  simp only [List.nil_append] at hms hrs
  have hcs : cs ≠ [] := by
    rintro rfl
    cases h
    exact hne rfl
  have hmsne : ms ≠ [] := by
    rintro rfl
    exact hcs (List.length_eq_zero_iff.mp hlen.symm)
  have happly := applyBatch_eq s hmsne hsess (fun i hi => by rw [hidx i hi, hnext])
    (by rw [hlen]; exact hmax)
  rw [hops, hlen] at happly
  rw [← hrep]
  simp only [applyBatch, bind, EStateM.bind, MonadState.get, getThe, MonadStateOf.get,
    EStateM.get, ofExcept, hfold, hms, hrs, happly, pure, EStateM.pure]

/-! ## Cutting a list into batches -/

/-- Batches one after the other, as the apply loop of a node hands them over : each starts
at the index after the marker. The replies are concatenated. -/
def applyBatches : List (List Bytes) → StoreM (List Bytes)
  | [] => pure []
  | commands :: batches => do
    let s ← get
    let replies ← applyBatch true (s.lastApplied + 1) commands
    let rest ← applyBatches batches
    return replies ++ rest

/-- The contents of a store : user keys and session records, without the marker. -/
def Store.contents (s : Store) : DB :=
  s.db.erase appliedKey

theorem Command.run_marker (db : DB) (hc : c.Valid) (v : Bytes) :
    c.run (db.insert appliedKey v) = ((c.run db).1.insert appliedKey v, (c.run db).2) := by
  have write : ∀ op : WriteOp, UserKey op.key →
      op.run (db.insert appliedKey v) = ((op.run db).1.insert appliedKey v, (op.run db).2) := by
    intro op hop
    have hne := hop.ne_appliedKey
    cases op with
    | set k w =>
      refine Prod.ext (Std.ExtTreeMap.ext_getElem? fun a => ?_) rfl
      simp only [WriteOp.run, DB.getElem?_insert_eq]
      by_cases h : k = a <;> simp_all [WriteOp.key, eq_comm]
    | del k =>
      refine Prod.ext (Std.ExtTreeMap.ext_getElem? fun a => ?_) ?_
      · simp only [WriteOp.run, DB.getElem?_insert_eq, DB.getElem?_erase_eq]
        by_cases h : k = a <;> simp_all [WriteOp.key, eq_comm]
      · have hk : appliedKey ≠ k := hne.symm
        simp only [WriteOp.run, contains_insert]
        simp [hk]
  cases c with
  | noop => rfl
  | write op => exact write op hc
  | idemp client id op =>
    have hsess : sessionOf (db.insert appliedKey v) client = sessionOf db client :=
      sessionOf_congr (by simp [(clientSessionKey_ne_appliedKey client).symm])
    simp only [Command.run, hsess, write op hc]
    split_ifs
    · rfl
    · rfl
    refine Prod.ext (Std.ExtTreeMap.ext_getElem? fun a => ?_) rfl
    have hne := clientSessionKey_ne_appliedKey client
    simp only [DB.getElem?_insert_eq]
    by_cases h : clientSessionKey client = a <;> simp_all [eq_comm]

theorem runAll_marker (hv : ∀ c ∈ cs, c.Valid) (v : Bytes) :
    ∀ db : DB, runAll (db.insert appliedKey v) cs =
      ((runAll db cs).1.insert appliedKey v, (runAll db cs).2) := by
  induction cs with
  | nil => intro db; rfl
  | cons c cs ih =>
    intro db
    have hc := Command.run_marker db (hv c List.mem_cons_self) v
    have hcs := ih fun c' hc' => hv c' (List.mem_cons_of_mem _ hc')
    simp only [runAll, hc, hcs]

theorem runAll_append (db : DB) (cs ds : List Command) : runAll db (cs ++ ds) =
      ((runAll (runAll db cs).1 ds).1, (runAll db cs).2 ++ (runAll (runAll db cs).1 ds).2) := by
  induction cs generalizing db with
  | nil => rfl
  | cons c cs ih => simp only [List.cons_append, runAll, ih]

theorem length_runAll_replies (db : DB) (cs : List Command) :
    (runAll db cs).2.length = cs.length := by
  induction cs generalizing db with
  | nil => rfl
  | cons c cs ih => simp [runAll, ih]

theorem Command.run_appliedKey (db : DB) (hc : c.Valid) :
    (c.run db).1[appliedKey]? = db[appliedKey]? := by
  have write : ∀ op : WriteOp, UserKey op.key → (op.run db).1[appliedKey]? = db[appliedKey]? := by
    intro op hop
    cases op with
    | set k v => exact (DB.getElem?_insert_eq _ _ _ _).trans (if_neg hop.ne_appliedKey)
    | del k => exact (DB.getElem?_erase_eq _ _ _).trans (if_neg hop.ne_appliedKey)
  cases c with
  | noop => rfl
  | write op => exact write op hc
  | idemp client id op =>
    rw [Command.run]
    split_ifs
    · rfl
    · rfl
    · rw [DB.getElem?_insert_eq, if_neg (clientSessionKey_ne_appliedKey client)]
      exact write op hc

theorem runAll_appliedKey (hv : ∀ c ∈ cs, c.Valid) :
    ∀ db : DB, (runAll db cs).1[appliedKey]? = db[appliedKey]? := by
  induction cs with
  | nil => intro db; rfl
  | cons c cs ih =>
    intro db
    rw [runAll, ih fun c' hc' => hv c' (List.mem_cons_of_mem _ hc')]
    exact Command.run_appliedKey db (hv c List.mem_cons_self)

theorem insert_insert_marker (db : DB) (v w : Bytes) :
    (db.insert appliedKey v).insert appliedKey w = db.insert appliedKey w := by
  refine Std.ExtTreeMap.ext_getElem? fun a => ?_
  simp only [DB.getElem?_insert_eq]
  split_ifs <;> rfl

theorem erase_insert_marker (db : DB) (v : Bytes) :
    (db.insert appliedKey v).erase appliedKey = db.erase appliedKey := by
  refine Std.ExtTreeMap.ext_getElem? fun a => ?_
  simp only [DB.getElem?_insert_eq, DB.getElem?_erase_eq]
  split_ifs <;> rfl

theorem SessionsOk.marker (h : SessionsOk db) (v : Bytes) :
    SessionsOk (db.insert appliedKey v) := by
  intro client raw hraw
  rw [DB.getElem?_insert_eq, if_neg (clientSessionKey_ne_appliedKey client).symm] at hraw
  exact h client raw hraw

/-- Batches of valid commands leave what running the commands one at a time leaves. -/
theorem applyBatches_runAll (s : Store) (hok : SessionsOk s.db) (batches : List (List Bytes))
    (hne : ∀ commands ∈ batches, commands ≠ []) (cs : List Command)
    (h : Decodes batches.flatten cs) (hmax : s.lastApplied + cs.length ≤ int64Max) :
    ∃ s', applyBatches batches s = .ok (runAll s.db cs).2 s' ∧
      s'.lastApplied = s.lastApplied + cs.length ∧ SessionsOk s'.db ∧
      s'.db = if batches = [] then s.db
        else (runAll s.db cs).1.insert appliedKey (encodeApplied s'.lastApplied) := by
  induction batches generalizing s cs with
  | nil =>
    cases h
    exact ⟨s, rfl, by simp, hok, rfl⟩
  | cons commands batches ih =>
    obtain ⟨cs₁, cs₂, h₁, h₂, rfl⟩ := Decodes.append h
    simp only [List.length_append, Nat.cast_add] at hmax ⊢
    have hfirst := applyBatch_eq_runAll s hok h₁ (hne _ List.mem_cons_self) (by omega)
    obtain ⟨s', hrun, hlast, hok', hdb⟩ :=
      ih ⟨(runAll s.db cs₁).1.insert appliedKey (encodeApplied (s.lastApplied + cs₁.length)),
          s.lastApplied + cs₁.length⟩ ((hok.runAll h₁.valid).marker _)
        (fun c hc => hne c (List.mem_cons_of_mem _ hc)) cs₂ h₂ (by dsimp only; omega)
    dsimp only at hlast hdb
    rw [runAll_marker h₂.valid] at hrun hdb
    have hdb' : s'.db = (runAll s.db (cs₁ ++ cs₂)).1.insert appliedKey
        (encodeApplied s'.lastApplied) := by
      rw [hdb, runAll_append, hlast]
      split_ifs with hb
      · subst hb
        cases h₂
        simp [runAll]
      · rw [insert_insert_marker]
    refine ⟨s', ?_, by omega, hok', by simpa using hdb'⟩
    simp only [applyBatches, bind, EStateM.bind, MonadState.get, getThe, MonadStateOf.get,
      EStateM.get, hfirst, hrun, pure, EStateM.pure, runAll_append]

/-- **Batched apply is one-at-a-time apply.** However a list of valid commands is cut into
non-empty batches, the concatenated replies, the final contents (user keys and session
records) and the last applied index are those of running the commands one at a time. The
session records of the store we start from are ones the machine wrote, and the committed
indexes are `int64` values. -/
theorem applyBatches_eq_runAll (s : Store) (hok : SessionsOk s.db) (batches : List (List Bytes))
    (hne : ∀ commands ∈ batches, commands ≠ []) (cs : List Command)
    (h : Decodes batches.flatten cs) (hmax : s.lastApplied + cs.length ≤ int64Max) :
    ∃ s', applyBatches batches s = .ok (runAll s.db cs).2 s' ∧
      s'.contents = (runAll s.db cs).1.erase appliedKey ∧
      s'.lastApplied = s.lastApplied + cs.length ∧ SessionsOk s'.db ∧
      s'.db = if batches = [] then s.db
        else (runAll s.db cs).1.insert appliedKey (encodeApplied s'.lastApplied) := by
  obtain ⟨s', hrun, hlast, hok', hdb⟩ := applyBatches_runAll s hok batches hne cs h hmax
  refine ⟨s', hrun, ?_, hlast, hok', hdb⟩
  rw [Store.contents, hdb]
  split_ifs with hb
  · subst hb
    cases h
    rfl
  · exact erase_insert_marker _ _

/-- `SET n:k v`, then `del n:k` together with a first `Idemp c 1 DEL n:k`, in two batches of
one and three commands : the second delete finds nothing. -/
theorem applyBatches_set_del_idemp :
    ∃ s', applyBatches
        [[ascii "*3\r\n$3\r\nSET\r\n$3\r\nn:k\r\n$1\r\nv\r\n"],
          [[], ascii "*2\r\n$3\r\ndel\r\n$3\r\nn:k\r\n",
            ascii "*5\r\n$5\r\nIdemp\r\n$1\r\nc\r\n$1\r\n1\r\n$3\r\nDEL\r\n$3\r\nn:k\r\n"]]
        ⟨∅, 0⟩ = .ok [okReply, okReply, deleteReply true, deleteReply false] s' ∧
      s'.lastApplied = 4 := by
  obtain ⟨s', hrun, -, hlast, -⟩ := applyBatches_eq_runAll ⟨∅, 0⟩ (by intro c raw h; simp at h)
    [[ascii "*3\r\n$3\r\nSET\r\n$3\r\nn:k\r\n$1\r\nv\r\n"],
      [[], ascii "*2\r\n$3\r\ndel\r\n$3\r\nn:k\r\n",
        ascii "*5\r\n$5\r\nIdemp\r\n$1\r\nc\r\n$1\r\n1\r\n$3\r\nDEL\r\n$3\r\nn:k\r\n"]]
    (by decide)
    [.write (.set (ascii "n:k") (ascii "v")), .noop, .write (.del (ascii "n:k")),
      .idemp (ascii "c") 1 (.del (ascii "n:k"))]
    (.cons ⟨by decide +kernel, by decide⟩ (.cons ⟨by decide +kernel, by decide⟩
      (.cons ⟨by decide +kernel, by decide⟩ (.cons ⟨by decide +kernel, by decide⟩ .nil))))
    (by decide)
  exact ⟨s', hrun.trans (congrArg (EStateM.Result.ok · s') (by decide +kernel)), hlast⟩

/-- What a call answers, without the store it leaves. -/
def answer {α : Type} (m : StoreM α) (s : Store) : Except String α :=
  match m s with
  | .ok a _ => .ok a
  | .error text _ => .error text

/-- A store with nothing but a record of client `c`. -/
def recordedStore (raw : Bytes) : Store :=
  ⟨(∅ : DB).insert (clientSessionKey (ascii "c")) raw, 0⟩

/-- `IDEMP c 3 SET n:k v`. -/
def thirdRequest : Bytes :=
  ascii "*6\r\n$5\r\nIDEMP\r\n$1\r\nc\r\n$1\r\n3\r\n$3\r\nSET\r\n$3\r\nn:k\r\n$1\r\nv\r\n"

/-- A record with an empty reply is answered as a delete that found nothing, and one that is too
short for a request id makes the batch throw. -/
theorem short_record_differs :
    decodeCommand thirdRequest = some (.idemp (ascii "c") 3 (.set (ascii "n:k") (ascii "v"))) ∧
      (runAll (recordedStore (encodeSession 3 [])).db
        [.idemp (ascii "c") 3 (.set (ascii "n:k") (ascii "v"))]).2 = [[]] ∧
      answer (applyBatches [[thirdRequest]]) (recordedStore (encodeSession 3 [])) =
        .ok [deleteReply false] ∧
      answer (applyBatches [[thirdRequest]]) (recordedStore [3]) =
        .error "corrupt client session" := by
  decide +kernel

end RaftKV
