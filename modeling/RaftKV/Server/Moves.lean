import RaftKV.Server.Model
import RaftKV.Wp

/-!
# What the server can do

Every event is handled by a few moves (`step_moves`). A move starts one command, gives one
answer, takes bytes in or out of a buffer, or puts writes in or out of the queue, and it says
under which conditions it is done. The invariants of the server are those of the moves.
-/

namespace RaftKV

namespace Server

/-! ## Sessions -/

variable {id : Name} {s : Server} {session : ClientSession}

theorem session_of_lookup (h : s.sessions.lookup id = some session) : s.session id = session := by
  rw [Server.session, h]
  rfl

theorem modifySession_of_lookup
    (h : s.sessions.lookup id = some session) (f : ClientSession → ClientSession) :
    s.modifySession id f = { s with sessions := s.sessions.insert id (f session) } := by
  rw [modifySession, h]

theorem modifySession_of_none (h : s.sessions.lookup id = none)
    (f : ClientSession → ClientSession) : s.modifySession id f = s := by
  rw [modifySession, h]

@[simp] theorem modifyConnection_self (s : Server) (id : Name) (f : Connection → Connection) :
    (s.modifyConnection id f).connections id = f (s.connections id) :=
  Function.update_self ..

theorem modifyConnection_ne (s : Server) (f : Connection → Connection) {id' : Name}
    (h : id' ≠ id) : (s.modifyConnection id f).connections id' = s.connections id' :=
  Function.update_of_ne h ..

@[simp] theorem modifyTranscript_self (s : Server) (id : Name) (f : Transcript → Transcript) :
    (s.modifyTranscript id f).transcript id = f (s.transcript id) :=
  Function.update_self ..

theorem modifyTranscript_ne (s : Server) (f : Transcript → Transcript) {id' : Name}
    (h : id' ≠ id) : (s.modifyTranscript id f).transcript id' = s.transcript id' :=
  Function.update_of_ne h ..

theorem setNs_self (s : Server) (id : Name) : s.setNs id (s.namespaces id) = s := by
  simp [setNs]

theorem wraps_of_le {a b : ℕ} (h : b ≤ a) : wraps a b = false := by
  unfold wraps
  simpa using h

theorem subtracts_zero (s : Server) (a : ℕ) : s.subtracts a 0 = s := by
  simp [subtracts, wraps_of_le (Nat.zero_le a)]

theorem lookup_of_live (h : s.live id = true) :
    ∃ session, s.sessions.lookup id = some session ∧ session.closing = false ∧
      (s.connections id).link = .connected := by
  rw [live] at h
  cases hlookup : s.sessions.lookup id with
  | none => simp [hlookup] at h
  | some session =>
    rw [hlookup] at h
    simp only [Bool.and_eq_true, Bool.not_eq_true', Connection.connected, decide_eq_true_eq] at h
    exact ⟨session, rfl, h.2, h.1⟩

theorem live_of_lookup
    (h : s.sessions.lookup id = some session) (hclosing : session.closing = false)
    (hlink : (s.connections id).link = .connected) : s.live id = true := by
  simp [live, h, hclosing, Connection.connected, hlink]

theorem accountOutput_eq
    (hlookup : s.sessions.lookup id = some session) :
    s.accountOutput id = { s.subtracts s.outputBytes session.accountedOutput with
      sessions := s.sessions.insert id
        { session with accountedOutput := (s.connections id).output }
      outputBytes :=
        (sizeSub s.outputBytes session.accountedOutput + (s.connections id).output) % 2 ^ 64 } := by
  rw [Server.accountOutput, session_of_lookup hlookup,
    modifySession_of_lookup (s := s.subtracts _ _) hlookup]
  rfl

theorem lookup_accountOutput
    (hlookup : s.sessions.lookup id = some session) : (s.accountOutput id).sessions.lookup id =
      some { session with accountedOutput := (s.connections id).output } := by
  rw [accountOutput_eq hlookup]
  exact AList.lookup_insert ..

theorem scheduleFlush_eq {flags : Flags} {view : View} {s' : Server}
    (h : scheduleFlush flags view s = .ok s') :
    s.writes = [] ∧ s' = s ∨ s.writes ≠ [] ∧ ∃ elapsed flusher,
      s.flusher.schedule s.writes.length s.queuedWriteBytes elapsed = .ok flusher ∧
      s' = s.setFlusher flusher := by
  rw [scheduleFlush] at h
  split at h
  · next hwrites => exact .inl ⟨hwrites, (Except.ok.inj h).symm⟩
  next front writes hwrites =>
  dsimp only at h
  refine .inr ⟨by simp [hwrites], decide ((flags.groupCommitMs : ℤ) * 1000000 -
    (view.now s - front.enqueuedAt) ≤ 0), ?_⟩
  cases hflusher : s.flusher.schedule s.writes.length s.queuedWriteBytes
      (decide ((flags.groupCommitMs : ℤ) * 1000000 - (view.now s - front.enqueuedAt) ≤ 0)) with
  | error message =>
    rw [hflusher] at h
    cases h
  | ok flusher =>
    rw [hflusher] at h
    exact ⟨flusher, rfl, (Except.ok.inj h).symm⟩

/-- The loop of `FlushQueuedWrites` keeps what a check of the limit and a write that is taken keep;
a write that is kept is the first one or fits. -/
theorem collectWrites_induction {P : ℕ → List QueuedWrite → ℕ → Server → Prop}
    (hcheck : ∀ n owners bytes s, P n owners bytes s →
      P n owners bytes (s.subtracts BatchFlushPolicy.kMaxBytes bytes))
    (hkeep : ∀ n owners bytes s write writes, P (n + 1) owners bytes s →
      s.writes = write :: writes →
      (owners = [] ∨ write.command.length ≤ sizeSub BatchFlushPolicy.kMaxBytes bytes) →
      s.live write.request.connection = true →
      P n (owners ++ [write]) (bytes + write.command.length) (s.popWrite write writes))
    (hdrop : ∀ n owners bytes s write writes, P (n + 1) owners bytes s →
      s.writes = write :: writes → s.live write.request.connection = false →
      P n owners bytes (s.popWrite write writes))
    (n : ℕ) {owners owners' : List QueuedWrite} {bytes : ℕ} {s' : Server}
    (h : P n owners bytes s) (hcollect : collectWrites n owners bytes s = (owners', s')) :
    ∃ n' bytes', P n' owners' bytes' s' := by
  induction n generalizing owners bytes s with
  | zero =>
    obtain ⟨rfl, rfl⟩ := Prod.mk.inj hcollect
    exact ⟨0, bytes, h⟩
  | succ n ih =>
    rw [collectWrites] at hcollect
    split at hcollect
    · obtain ⟨rfl, rfl⟩ := Prod.mk.inj hcollect
      exact ⟨n + 1, bytes, h⟩
    next write writes hwrites =>
    have hchecked := hcheck _ _ _ _ h
    dsimp only at hcollect
    split_ifs at hcollect with hfull hlive
    · obtain ⟨rfl, rfl⟩ := Prod.mk.inj hcollect
      exact ⟨n + 1, bytes, hchecked⟩
    · have hfits : owners = [] ∨
          write.command.length ≤ sizeSub BatchFlushPolicy.kMaxBytes bytes := by
        rw [not_and_or, not_not, not_lt] at hfull
        exact hfull
      exact ih (hkeep _ _ _ _ _ _ hchecked hwrites hfits hlive) hcollect
    · exact ih (hdrop _ _ _ _ _ _ hchecked hwrites (by simpa using hlive)) hcollect

/-! ## Moves -/

/-- The session of a connection that can start a command. -/
structure Idle (s : Server) (id : Name) (session : ClientSession) : Prop where
  lookup : s.sessions.lookup id = some session
  executing : session.executing = false
  live : s.live id = true

/-- A request that Raft or `FlushQueuedWrites` keeps is taken out, to be answered. -/
inductive Takes (s : Server) : Request → Server → Prop
  | proposal (i : ℕ) {r : Request} (h : s.proposals[i]? = some r) :
    Takes s r (s.dropProposal i)
  | read (i : ℕ) {r : PendingRead} (h : s.reads[i]? = some r) :
    Takes s r.request (s.dropRead i)
  | owner {r : Request} {owners : List Request} {index : ℤ}
      (h : s.flushing = some ⟨r :: owners, index⟩) :
    Takes s r (s.setFlushing (some ⟨owners, index⟩))

/-- The session does not wait any more, if it is told so. -/
def unwait (s : Server) (id : Name) (told : Bool) : Server :=
  if told then s.modifySession id fun session => { session with waiting := false } else s

/-- What the server does, one thing at a time. -/
inductive Move (flags : Flags) (view : View) (s : Server) : Server → Prop
  | connect (id : Name) (h : (s.connections id).link = .connecting) :
    Move flags view s (onConnect flags s id)
  | disconnect (id : Name) (h : (s.connections id).up = true) :
    Move flags view s (s.onDisconnect id)
  | stray (id : Name) (h : s.sessions.lookup id = none) (hup : (s.connections id).up = true) :
    Move flags view s (s.modifyConnection id Connection.forceClose)
  | overload {id : Name} {session : ClientSession} (h : s.sessions.lookup id = some session)
      (hclosing : session.closing = false) :
    Move flags view s ((s.subtracts kMaxTotalInput s.inputBytes).closeClient id)
  | receive {id : Name} {session : ClientSession} {bytes : Bytes}
      (h : s.sessions.lookup id = some session) (hclosing : session.closing = false)
      (hfits : bytes.length ≤ sizeSub kMaxTotalInput s.inputBytes)
      (happend : (session.input.append bytes).1 = true) :
    Move flags view s ((s.subtracts kMaxTotalInput s.inputBytes).receive id bytes)
  | wake (id : Name) :
    Move flags view s (s.wake id)
  | drain {id : Name} {session : ClientSession} (h : s.sessions.lookup id = some session)
      (hvalid : (s.drainInput id).1.invalid = false) :
    Move flags view s (s.drainInput id).2
  | reject {id : Name} {session : ClientSession} (h : s.sessions.lookup id = some session)
      (hinvalid : (s.drainInput id).1.invalid = true) :
    Move flags view s (rejectFrame view (s.drainInput id).2 id (s.drainInput id).1.invalidError)
  | stopRead (id : Name) :
    Move flags view s (s.modifyConnection id fun c => { c with reading := false })
  | scheduleDrain {id : Name} {session : ClientSession} (h : s.sessions.lookup id = some session) :
    Move flags view s (s.scheduleDrain id)
  | answer {id : Name} {session : ClientSession} {command : QueuedCommand}
      {queue : SessionCommandQueue} (ns : Option Bytes) (counted : ℕ) (reply : Bytes)
      (hidle : s.Idle id session) (hpop : session.queue.popFront = some (command, queue))
      (hcounted : counted ≤ s.queuedWriteBytes) :
    Move flags view s ((sendReply view (((s.start id command queue).setNs id ns).subtracts
      kMaxQueuedWriteBytes counted) id (some (s.nextNumber id)) reply).finish id)
  | submit {id : Name} {session : ClientSession} {command : QueuedCommand}
      {queue : SessionCommandQueue} {text : Bytes} {s' : Server} (hidle : s.Idle id session)
      (hpop : session.queue.popFront = some (command, queue))
      (hsize : text.length ≤ kMaxCommandBytes) (hcount : s.writes.length < kMaxQueuedWrites)
      (hbytes : text.length ≤ sizeSub kMaxQueuedWriteBytes s.queuedWriteBytes)
      (hflush : scheduleFlush flags view (enqueueWrite view ((s.start id command queue).subtracts
        kMaxQueuedWriteBytes s.queuedWriteBytes) ⟨id, s.nextNumber id⟩ text) = .ok s') :
    Move flags view s s'
  | register {id : Name} {session : ClientSession} {command : QueuedCommand}
      {queue : SessionCommandQueue} (key : Bytes) (hidle : s.Idle id session)
      (hpop : session.queue.popFront = some (command, queue)) :
    Move flags view s ((s.start id command queue).requestReadIndex ⟨key, ⟨id, s.nextNumber id⟩⟩)
  | deliver {r : Request} {t : Server} (before after : Bool) (reply : Bytes)
      (htakes : s.Takes r t) (hlive : s.live r.connection = true) :
    Move flags view s (((sendReply view (t.unwait r.connection before) r.connection
      (some r.number) reply).unwait r.connection after).finish r.connection)
  | abandon {r : Request} {t : Server} (htakes : s.Takes r t)
      (hdead : s.live r.connection = false) :
    Move flags view s (t.abandon r.connection)
  | fire (token : ℕ) (h : token ∈ s.flusher.armed ∨ token ∈ s.flusher.cancelled) :
    Move flags view s (s.setFlusher (s.flusher.fire token))
  | stale {token : ℕ} (h : token ∈ s.flusher.queued)
      (hstale : (s.flusher.consume token).1 = false) :
    Move flags view s (s.setFlusher (s.flusher.consume token).2)
  | flush {token : ℕ} (index : ℤ) {owners : List QueuedWrite} {t : Server}
      (hidle : s.flushing = none) (h : token ∈ s.flusher.queued)
      (hcurrent : (s.flusher.consume token).1 = true)
      (hcollect : collectWrites BatchFlushPolicy.kMaxEntries [] 0
        (s.setFlusher (s.flusher.consume token).2) = (owners, t))
      (hne : owners ≠ []) :
    Move flags view s (t.proposeBatch owners index)
  | flushNone {token : ℕ} {t s' : Server} (hidle : s.flushing = none)
      (h : token ∈ s.flusher.queued) (hcurrent : (s.flusher.consume token).1 = true)
      (hcollect : collectWrites BatchFlushPolicy.kMaxEntries [] 0
        (s.setFlusher (s.flusher.consume token).2) = ([], t))
      (hflush : scheduleFlush flags view t = .ok s') :
    Move flags view s s'
  | endFlush {index : ℤ} {s' : Server} (h : s.flushing = some ⟨[], index⟩)
      (hflush : scheduleFlush flags view (s.setFlushing none) = .ok s') :
    Move flags view s s'
  | written (id : Name) (output : ℕ) (h : output ≤ (s.connections id).output) :
    Move flags view s (s.modifyConnection id fun c => { c with output := output })
  | writeComplete {id : Name} {session : ClientSession} (h : s.sessions.lookup id = some session) :
    Move flags view s (s.accountOutput id)

/-- Some moves, one after the other. -/
def Moves (flags : Flags) (view : View) : Server → Server → Prop :=
  Relation.ReflTransGen (Move flags view)

variable {flags : Flags} {view : View} {s s' : Server}

theorem Move.moves (h : Move flags view s s') : Moves flags view s s' :=
  Relation.ReflTransGen.single h

theorem Move.then {t : Server} (h : Move flags view s t) (hrest : Moves flags view t s') :
    Moves flags view s s' :=
  Relation.ReflTransGen.head h hrest

theorem Moves.refl (s : Server) : Moves flags view s s :=
  Relation.ReflTransGen.refl

/-! ## Commands -/

/-- A program that is made of moves. -/
def MadeOfMoves (flags : Flags) (view : View) (next : Server → Except String Server) : Prop :=
  ∀ s s', next s = .ok s' → Moves flags view s s'

theorem executeCommand_moves {next : Server → Except String Server}
    (hnext : MadeOfMoves flags view next)
    {command : QueuedCommand} {queue : SessionCommandQueue} (hidle : s.Idle id session)
    (hpop : session.queue.popFront = some (command, queue))
    (h : executeCommand flags view next (s.start id command queue) id (s.nextNumber id) command =
      .ok s') : Moves flags view s s' := by
  -- an answer at once, before which the namespace may change and a limit may be checked
  have hanswer : ∀ (ns : Option Bytes) (counted : ℕ) (reply : Bytes),
      counted ≤ s.queuedWriteBytes →
      onCommandComplete next (sendReply view (((s.start id command queue).setNs id ns).subtracts
        kMaxQueuedWriteBytes counted) id (some (s.nextNumber id)) reply) id = .ok s' →
      Moves flags view s s' :=
    fun ns counted reply hcounted hdone =>
      (Move.answer ns counted reply hidle hpop hcounted).then (hnext _ _ hdone)
  have hplain : ∀ reply : Bytes,
      onCommandComplete next (sendReply view (s.start id command queue) id
        (some (s.nextNumber id)) reply) id = .ok s' → Moves flags view s s' := by
    intro reply hdone
    refine hanswer ((s.start id command queue).namespaces id) 0 reply (Nat.zero_le _) ?_
    rwa [subtracts_zero, setNs_self]
  rw [executeCommand] at h
  cases htype : command.type with
  | error =>
    simp only [htype] at h
    exact hplain _ h
  | read =>
    simp only [htype] at h
    split_ifs at h with hping hselect hname hget hlinear hleader hlocal hinfo
    · exact hplain _ h
    · refine hanswer (some (command.args.getD 1 [])) 0 (ascii "+OK\r\n") (Nat.zero_le _) ?_
      rwa [subtracts_zero]
    · exact hplain _ h
    · obtain rfl := Except.ok.inj h
      exact (Move.register _ hidle hpop).moves
    · exact hplain _ h
    · exact hplain _ h
    · exact hplain _ h
    · exact hplain _ h
    · exact hplain _ h
  | write =>
    simp only [htype, submitWrite] at h
    by_cases hsize : kMaxCommandBytes < ((s.start id command queue).writeCommand id
        command.args).length
    · rw [if_pos hsize] at h
      exact hplain _ h
    rw [if_neg hsize] at h
    by_cases hleader : view.isLeader = true
    swap
    · rw [if_pos hleader] at h
      exact hplain _ h
    rw [if_neg (not_not.mpr hleader)] at h
    split_ifs at h with hlimit
    · refine hanswer ((s.start id command queue).namespaces id) s.queuedWriteBytes
        (errorReply (ascii "BUSY write queue full")) le_rfl ?_
      rw [setNs_self]
      exact h
    · push Not at hlimit
      exact (Move.submit hidle hpop (not_lt.mp hsize) hlimit.1 hlimit.2 h).moves

theorem executeCommands_moves (id : Name) (n : ℕ) :
    MadeOfMoves flags view (executeCommands flags view id n) := by
  induction n with
  | zero =>
    intro s s' h
    obtain rfl := Except.ok.inj h
    exact .refl s
  | succ n ih =>
    intro s s' h
    rw [executeCommands] at h
    split_ifs at h with hguard
    · obtain rfl := Except.ok.inj h
      exact .refl s
    push Not at hguard
    obtain ⟨session, hlookup, -⟩ := lookup_of_live hguard.2
    rw [session_of_lookup hlookup] at h hguard
    have hidle : s.Idle id session := ⟨hlookup, by simpa using hguard.1, hguard.2⟩
    cases hpop : session.queue.popFront with
    | none =>
      rw [hpop] at h
      obtain rfl := Except.ok.inj h
      exact (Move.scheduleDrain hlookup).moves
    | some popped =>
      rw [hpop] at h
      exact executeCommand_moves ih hidle hpop h

theorem executeNextCommand_moves (id : Name) :
    MadeOfMoves flags view (executeNextCommand flags view id) :=
  fun _ _ h => executeCommands_moves id _ _ _ h

/-! ## Events -/

theorem lookup_modifySession
    (h : s.sessions.lookup id = some session) (f : ClientSession → ClientSession) :
    (s.modifySession id f).sessions.lookup id = some (f session) := by
  rw [modifySession_of_lookup h, AList.lookup_insert]

theorem drainClient_moves
    (hlookup : s.sessions.lookup id = some session) (h : drainClient flags view s id = .ok s') :
    Moves flags view s s' := by
  rw [drainClient] at h
  dsimp only at h
  by_cases hinvalid : (s.drainInput id).1.invalid = true
  · rw [if_pos hinvalid] at h
    obtain rfl := Except.ok.inj h
    exact (Move.reject hlookup hinvalid).moves
  rw [if_neg hinvalid] at h
  have hdrain : Move flags view s (s.drainInput id).2 := .drain hlookup (by simpa using hinvalid)
  have hdrained : ∃ session, (s.drainInput id).2.sessions.lookup id = some session :=
    ⟨_, lookup_modifySession hlookup _⟩
  generalize (s.drainInput id).2 = t at h hdrain hdrained
  refine hdrain.then ?_
  -- reading may be stopped; the rest is the same with and without
  have hrest : ∀ u : Server, (∃ session, u.sessions.lookup id = some session) →
      (if ¬(u.session id).executing ∧ ¬(u.session id).queue.items.isEmpty then
        executeNextCommand flags view id u
      else if (u.connections id).connected ∧ ¬(u.session id).executing then
        .ok (u.scheduleDrain id) else .ok u) = .ok s' → Moves flags view u s' := by
    rintro u ⟨session, hu⟩ hdone
    split_ifs at hdone
    · exact executeNextCommand_moves id _ _ hdone
    · obtain rfl := Except.ok.inj hdone
      exact (Move.scheduleDrain hu).moves
    · obtain rfl := Except.ok.inj hdone
      exact .refl u
  by_cases hstop : (s.drainInput id).1.stopRead = true
  · rw [if_pos hstop] at h
    exact (Move.stopRead id).then (hrest _ hdrained h)
  · rw [if_neg hstop] at h
    exact hrest _ hdrained h

theorem onClientMessage_moves {bytes : Bytes} (hup : (s.connections id).up = true)
    (h : onClientMessage flags view s id bytes = .ok s') : Moves flags view s s' := by
  rw [onClientMessage] at h
  cases hlookup : s.sessions.lookup id with
  | none =>
    rw [hlookup] at h
    obtain rfl := Except.ok.inj h
    exact (Move.stray id hlookup hup).moves
  | some session =>
    rw [hlookup] at h
    dsimp only at h
    by_cases hclosing : session.closing = true
    · rw [if_pos hclosing] at h
      obtain rfl := Except.ok.inj h
      exact .refl s
    rw [if_neg hclosing] at h
    split_ifs at h with hlimit
    · obtain rfl := Except.ok.inj h
      exact (Move.overload hlookup (by simpa using hclosing)).moves
    push Not at hlimit
    have hmove : Move flags view s ((s.subtracts kMaxTotalInput s.inputBytes).receive id bytes) :=
      .receive hlookup (by simpa using hclosing) hlimit.1 hlimit.2
    exact hmove.then (drainClient_moves (lookup_modifySession hlookup _) h)

theorem Takes.live {r : Request} {t : Server} (h : s.Takes r t) (id : Name) :
    t.live id = s.live id := by
  cases h <;> rfl

/-- The answer to a request, or none if the session is gone. -/
theorem moves_of_takes {r : Request} {t : Server} (htakes : s.Takes r t) (before after : Bool)
    (reply : Bytes) (h : (if ¬t.live r.connection then .ok (t.abandon r.connection)
      else onCommandComplete (executeNextCommand flags view r.connection)
        ((sendReply view (t.unwait r.connection before) r.connection (some r.number) reply).unwait
          r.connection after) r.connection) = .ok s') : Moves flags view s s' := by
  by_cases hlive : t.live r.connection = true
  · rw [if_neg (not_not.mpr hlive)] at h
    rw [htakes.live] at hlive
    exact (Move.deliver before after reply htakes hlive).then (executeNextCommand_moves _ _ _ h)
  rw [if_pos hlive] at h
  rw [htakes.live] at hlive
  obtain rfl := Except.ok.inj h
  exact (Move.abandon htakes (by simpa using hlive)).moves

theorem runFlush_moves {token : ℕ} {index : ℤ} (hidle : s.flushing = none)
    (hmem : token ∈ s.flusher.queued) (h : runFlush flags view s token index = .ok s') :
    Moves flags view s s' := by
  rw [runFlush] at h
  by_cases hcurrent : (s.flusher.consume token).1 = true
  · rw [if_pos hcurrent, flushQueuedWrites] at h
    split_ifs at h with hnone
    · exact (Move.flushNone hidle hmem hcurrent (Prod.ext hnone rfl) h).moves
    · obtain rfl := Except.ok.inj h
      exact (Move.flush index hidle hmem hcurrent rfl hnone).moves
  · rw [if_neg hcurrent] at h
    obtain rfl := Except.ok.inj h
    exact (Move.stale hmem (by simpa using hcurrent)).moves

theorem resumeFlush_moves (h : resumeFlush flags view s = .ok s') : Moves flags view s s' := by
  rw [resumeFlush] at h
  rcases hflushing : s.flushing with _ | ⟨_ | ⟨owner, owners⟩, index⟩
  · rw [hflushing] at h
    obtain rfl := Except.ok.inj h
    exact .refl s
  · rw [hflushing] at h
    exact (Move.endFlush hflushing h).moves
  · rw [hflushing] at h
    exact moves_of_takes (.owner hflushing) true false _ h

/-- **Every event is handled by moves.** -/
theorem step_moves {e : Event} (h : step flags s (view, e) = .ok s') : Moves flags view s s' := by
  rw [step] at h
  by_cases hwait : e.top = true ∧ s.flushing.isSome = true
  · rw [if_pos hwait] at h
    obtain rfl := Except.ok.inj h
    exact .refl s
  rw [if_neg hwait] at h
  -- what cannot happen changes nothing
  have hite : ∀ {p : Prop} [Decidable p] {t : Server}, (p → Move flags view s t) →
      .ok (if p then t else s) = (.ok s' : Except String Server) → Moves flags view s s' := by
    intro p _ t hmove hdone
    obtain rfl := Except.ok.inj hdone
    split_ifs with hp
    · exact (hmove hp).moves
    · exact .refl s
  cases e with
  | connect id => exact hite (fun hlink => .connect id hlink) h
  | disconnect id => exact hite (fun hup => .disconnect id hup) h
  | message id bytes =>
    rw [handle] at h
    split_ifs at h with hup
    · exact onClientMessage_moves hup h
    · obtain rfl := Except.ok.inj h
      exact .refl s
  | drain id =>
    rw [handle] at h
    split_ifs at h with hmem
    · rw [runDrain] at h
      refine (Move.wake id).then ?_
      cases hlookup : s.sessions.lookup id with
      | none =>
        rw [hlookup] at h
        obtain rfl := Except.ok.inj h
        exact .refl _
      | some session =>
        rw [hlookup] at h
        exact drainClient_moves (lookup_modifySession hlookup _) h
    · obtain rfl := Except.ok.inj h
      exact .refl s
  | timer token => exact hite (fun hmem => .fire token hmem) h
  | flush token index =>
    rw [handle] at h
    split_ifs at h with hmem
    · exact runFlush_moves (by simpa [Event.top] using hwait) hmem h
    · obtain rfl := Except.ok.inj h
      exact .refl s
  | resume => exact resumeFlush_moves h
  | proposalDone i response =>
    rw [handle] at h
    cases hget : s.proposals[i]? with
    | none =>
      rw [hget] at h
      obtain rfl := Except.ok.inj h
      exact .refl s
    | some r =>
      rw [hget] at h
      exact moves_of_takes (.proposal i hget) false true response h
  | readDone i success error =>
    rw [handle] at h
    cases hget : s.reads[i]? with
    | none =>
      rw [hget] at h
      obtain rfl := Except.ok.inj h
      exact .refl s
    | some r =>
      rw [hget] at h
      exact moves_of_takes (.read i hget) false false _ h
  | written id output => exact hite (fun hle => .written id output hle) h
  | writeComplete id =>
    rw [handle] at h
    obtain rfl := Except.ok.inj h
    cases hlookup : s.sessions.lookup id with
    | none => exact .refl s
    | some session => exact (Move.writeComplete hlookup).moves

/-- What every move keeps holds after any events. -/
theorem run_invariant {P : Server → Prop}
    (hmove : ∀ {view : View} {s s' : Server}, P s → Move flags view s s' → P s')
    {events : List (View × Event)} (h0 : P s) (h : run flags s events = .ok s') : P s' := by
  have hmoves : ∀ {view : View} {s s' : Server}, P s → Moves flags view s s' → P s' := by
    intro view s s' hs hrun
    induction hrun with
    | refl => exact hs
    | tail _ hlast ih => exact hmove ih hlast
  induction events generalizing s with
  | nil =>
    obtain rfl := Except.ok.inj h
    exact h0
  | cons e events ih =>
    rw [run, List.foldlM_cons] at h
    cases hstep : step flags s e with
    | error message =>
      rw [hstep] at h
      cases h
    | ok t =>
      rw [hstep] at h
      exact ih (hmoves h0 (step_moves hstep)) h

end Server

end RaftKV
