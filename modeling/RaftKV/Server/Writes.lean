import RaftKV.Server.Model
import RaftKV.StateMachine

/-!
# Writes that the server submits

Three validators see a write : `ClassifyCommand` when it is queued, the parser when its entry is
applied, and the dispatch of the state machine. In between the key is put into the namespace of
the connection and the arguments are serialized. `Means` is what a vector of arguments that is
classified as a write stands for. It survives the change of the key (`Means.modify`), and what it
stands for is what the state machine reads back (`Means.decode`).
-/

namespace RaftKV

/-! ## The meaning of a write -/

/-- The write that the arguments of a command stand for. -/
inductive Means : List Bytes → Command → Prop
  | set (key value : Bytes) : Means [ascii "SET", key, value] (.write (.set key value))
  | del (key : Bytes) : Means [ascii "DEL", key] (.write (.del key))
  | idempSet {client request op : Bytes} {id : ℕ} (key value : Bytes) (hclient : client ≠ [])
      (hlength : client.length ≤ 128) (hid : parseRequestId request = some id)
      (hop : upperCommand op = ascii "SET") :
    Means [ascii "IDEMP", client, request, op, key, value] (.idemp client id (.set key value))
  | idempDel {client request op : Bytes} {id : ℕ} (key : Bytes) (hclient : client ≠ [])
      (hlength : client.length ≤ 128) (hid : parseRequestId request = some id)
      (hop : upperCommand op = ascii "DEL") :
    Means [ascii "IDEMP", client, request, op, key] (.idemp client id (.del key))

/-- A write with its key changed. -/
def WriteOp.mapKey (f : Bytes → Bytes) : WriteOp → WriteOp
  | .set key value => .set (f key) value
  | .del key => .del (f key)

/-- A command with its key changed. -/
def Command.mapKey (f : Bytes → Bytes) : Command → Command
  | .noop => .noop
  | .write op => .write (op.mapKey f)
  | .idemp client id op => .idemp client id (op.mapKey f)

variable {args : List Bytes} {c : Command}

/-- `WriteKeyIndex` is where the key is. -/
theorem Means.modify (h : Means args c) (f : Bytes → Bytes) :
    Means (args.modify (writeKeyIndex args) f) (c.mapKey f) := by
  cases h with
  | set key value => exact .set (f key) value
  | del key => exact .del (f key)
  | idempSet key value hclient hlength hid hop =>
    exact .idempSet (f key) value hclient hlength hid hop
  | idempDel key hclient hlength hid hop => exact .idempDel (f key) hclient hlength hid hop

theorem means_of_parseIdempotentCommand {i : IdempotentCommand}
    (hverb : args.head? = some (ascii "IDEMP")) (h : parseIdempotentCommand args = .ok i) :
    Means args (.idemp i.clientId i.requestId i.write) := by
  unfold parseIdempotentCommand at h
  split at h
  · cases h
  next verb rest =>
  obtain rfl : verb = ascii "IDEMP" := Option.some.inj hverb
  split_ifs at h
  split at h
  · next client request op key more =>
    split_ifs at h with hmore hclient
    obtain ⟨hne, hlength⟩ := not_or.mp hclient
    split at h
    · cases h
    next id hid =>
    dsimp only at h
    split at h
    · next value =>
      split_ifs at h with hset
      obtain rfl := Except.ok.inj h
      exact .idempSet key value hne (not_lt.mp hlength) hid hset
    next hnot =>
    split_ifs at h with hdel
    obtain rfl := Except.ok.inj h
    obtain rfl : more = [] := by
      rcases more with _ | ⟨value, _ | _⟩
      · rfl
      · exact absurd rfl (hnot value)
      · simp at hmore
    exact .idempDel key hne (not_lt.mp hlength) hid hdel
  · cases h

/-- Arguments that are classified as a write mean one. -/
theorem exists_means (h : (classifyCommand args).type = .write) : ∃ c, Means args c := by
  unfold classifyCommand at h
  split at h
  · cases h
  next op rest =>
  split_ifs at h with hset hdel hidemp
  · obtain ⟨rfl, hlength⟩ := hset
    obtain ⟨key, value, rfl⟩ := List.length_eq_two.mp (Nat.succ.inj hlength)
    exact ⟨_, .set key value⟩
  · obtain ⟨rfl, hlength⟩ := hdel
    obtain ⟨key, rfl⟩ := List.length_eq_one_iff.mp (Nat.succ.inj hlength)
    exact ⟨_, .del key⟩
  subst hidemp
  split at h
  · cases h
  · next i hi => exact ⟨_, means_of_parseIdempotentCommand rfl hi⟩

theorem Means.length_le (h : Means args c) : args ≠ [] ∧ args.length ≤ kMaxArguments := by
  cases h <;> exact ⟨by simp, by simp [kMaxArguments]⟩

theorem upperCommand_idemp : upperCommand (ascii "IDEMP") = ascii "IDEMP" := by
  decide

/-- **The state machine reads back what the arguments mean.** -/
theorem Means.decode (h : Means args c)
    (hsize : (serializeCommand args).length ≤ kMaxCommandBytes) :
    tryParseOne (serializeCommand args) =
        { state := .complete, consumed := (serializeCommand args).length, args := args } ∧
      decodeCommand (serializeCommand args) = some c := by
  obtain ⟨hne, hcount⟩ := h.length_le
  have hparse : tryParseOne (serializeCommand args) =
      { state := .complete, consumed := (serializeCommand args).length, args := args } := by
    refine tryParseOne_complete_iff.mpr ⟨le_rfl, ?_⟩
    rw [List.take_length]
    exact sentence_serializeCommand hne hcount hsize
  refine ⟨hparse, ?_⟩
  have hnil : serializeCommand args ≠ [] := by simp [serializeCommand]
  rw [decodeCommand, if_neg hnil]
  dsimp only
  rw [hparse, if_pos ⟨rfl, rfl⟩]
  cases h with
  | set key value => rfl
  | del key => rfl
  | @idempSet client request op id key value hclient hlength hid hop =>
    have hparse : parseIdempotentCommand [ascii "IDEMP", client, request, op, key, value] =
        .ok ⟨client, id, .set, key, value⟩ := by
      simp [parseIdempotentCommand, upperCommand_idemp, hclient, not_lt.mpr hlength, hid, hop]
    dsimp only
    rw [hparse]
  | @idempDel client request op id key hclient hlength hid hop =>
    have hparse : parseIdempotentCommand [ascii "IDEMP", client, request, op, key] =
        .ok ⟨client, id, .del, key, []⟩ := by
      simp [parseIdempotentCommand, upperCommand_idemp, hclient, not_lt.mpr hlength, hid, hop]
    dsimp only
    rw [hparse]

/-! ## Namespaces -/

theorem userKey_of_isValidName {ns : Bytes} (h : isValidName ns = true) (key : Bytes) :
    UserKey (ns ++ ascii ":" ++ key) := by
  cases ns with
  | nil => simp [isValidName] at h
  | cons b ns =>
    simp only [isValidName, List.all_cons, Bool.and_eq_true] at h
    refine userKey_of_head fun hzero => ?_
    obtain rfl : b = 0 := Option.some.inj hzero
    exact absurd h.2.1 (by decide)

theorem Command.valid_mapKey {f : Bytes → Bytes} (hf : ∀ key, UserKey (f key)) (c : Command) :
    (c.mapKey f).Valid := by
  rcases c with _ | ⟨_ | _⟩ | ⟨_, _, _ | _⟩
  · trivial
  all_goals exact hf _

namespace Server

theorem userKey_makeKey {s : Server} {id : Name}
    (h : isValidName ((s.namespaces id).getD (ascii "default")) = true) (key : Bytes) :
    UserKey (s.makeKey id key) :=
  userKey_of_isValidName h key

/-- **Submitted writes are applied.** A command that is classified as a write and that fits after
its key was put into the namespace is parsed as a whole, with the arguments that were serialized,
and decoded as the write that the arguments stand for, to the key in the namespace. A batch that
holds it among valid commands does not throw, and has the effect and the replies of the commands
one after the other. -/
theorem submitted_write_applies (s : Server) (id : Name) (args : List Bytes) (consumed : ℕ)
    (hns : isValidName ((s.namespaces id).getD (ascii "default")) = true)
    (hwrite : (queuedCommand args consumed).type = .write)
    (hsize : (s.writeCommand id (queuedCommand args consumed).args).length ≤ kMaxCommandBytes) :
    ∃ c, Means (queuedCommand args consumed).args c ∧
      tryParseOne (s.writeCommand id (queuedCommand args consumed).args) =
        { state := .complete
          consumed := (s.writeCommand id (queuedCommand args consumed).args).length
          args := (queuedCommand args consumed).args.modify
            (writeKeyIndex (queuedCommand args consumed).args) (s.makeKey id) } ∧
      decodeCommand (s.writeCommand id (queuedCommand args consumed).args) =
        some (c.mapKey (s.makeKey id)) ∧
      ∀ (st : Store) (before after : List Bytes) (cs ds : List Command), SessionsOk st.db →
        Decodes before cs → Decodes after ds →
        st.lastApplied + (cs ++ c.mapKey (s.makeKey id) :: ds).length ≤ int64Max →
        applyBatch true (st.lastApplied + 1)
            (before ++ s.writeCommand id (queuedCommand args consumed).args :: after) st =
          .ok (runAll st.db (cs ++ c.mapKey (s.makeKey id) :: ds)).2
            ⟨(runAll st.db (cs ++ c.mapKey (s.makeKey id) :: ds)).1.insert appliedKey
                (encodeApplied (st.lastApplied + (cs ++ c.mapKey (s.makeKey id) :: ds).length)),
              st.lastApplied + (cs ++ c.mapKey (s.makeKey id) :: ds).length⟩ := by
  obtain ⟨c, hmeans⟩ := exists_means hwrite
  obtain ⟨hparse, hdecode⟩ := (hmeans.modify (s.makeKey id)).decode hsize
  refine ⟨c, hmeans, hparse, hdecode, fun st before after cs ds hok hbefore hafter hmax => ?_⟩
  have hvalid := Command.valid_mapKey (userKey_makeKey hns) c
  have hbatch : Decodes (before ++ s.writeCommand id (queuedCommand args consumed).args :: after)
      (cs ++ c.mapKey (s.makeKey id) :: ds) :=
    List.rel_append hbefore (.cons ⟨hdecode, hvalid⟩ hafter)
  exact applyBatch_eq_runAll st hok hbatch (by simp) hmax

/-- `set a b` on a connection without a namespace of its own. -/
theorem submitted_write_applies_set : ∃ s', applyBatch true 1
    [Server.writeCommand {} 1 [ascii "SET", ascii "a", ascii "b"]] ⟨∅, 0⟩ = .ok [okReply] s' ∧
      s'.lastApplied = 1 ∧ s'.get (ascii "default:a") = some (ascii "b") := by
  obtain ⟨c, hmeans, -, -, happly⟩ := submitted_write_applies {} 1
    [ascii "set", ascii "a", ascii "b"] 27 (by decide +kernel) (by decide +kernel)
    (by decide +kernel)
  rw [show (queuedCommand [ascii "set", ascii "a", ascii "b"] 27).args =
    [ascii "SET", ascii "a", ascii "b"] by decide +kernel] at hmeans happly
  cases hmeans
  refine ⟨_, happly ⟨∅, 0⟩ [] [] [] [] (by intro client raw h; simp at h) .nil .nil (by decide),
    rfl, by decide +kernel⟩

end Server

end RaftKV
