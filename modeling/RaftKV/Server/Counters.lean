import RaftKV.Server.Moves
import RaftKV.Totals

/-!
# The counters of the server

The server limits the bytes that clients have sent and that wait to be parsed, the bytes of the
replies that wait to be sent, and the writes that wait to be proposed. It keeps counters for
them, and subtracts what leaves a buffer or a queue. The counters are exact : each is the total
over the sessions or the writes (`Exact`), so they stay within their limits and no subtraction
wraps around.
-/

namespace RaftKV

namespace Server

open Totals

/-- The bytes of a session that wait to be parsed. -/
def unreadOf (session : ClientSession) : ℕ :=
  session.input.unreadBytes

/-- The counters are totals, within their limits. A session accounts for at least the bytes in
the output buffer of its connection, and a connection that is not established has none. -/
structure Exact (s : Server) : Prop where
  input : s.inputBytes = total unreadOf s.sessions
  input_le : s.inputBytes ≤ kMaxTotalInput
  output : s.outputBytes = total ClientSession.accountedOutput s.sessions
  output_le : s.outputBytes ≤ kMaxTotalOutput
  accounted : ∀ id session, s.sessions.lookup id = some session →
    (s.connections id).output ≤ session.accountedOutput ∧
      session.accountedOutput ≤ kMaxClientOutput
  fresh : ∀ id, (s.connections id).link = .connecting →
    (s.connections id).output = 0 ∧ s.sessions.lookup id = none
  queues : ∀ id session, s.sessions.lookup id = some session → session.queue.Exact
  writeBytes : s.queuedWriteBytes = (s.writes.map fun w => w.command.length).sum
  writeBytes_le : s.queuedWriteBytes ≤ kMaxQueuedWriteBytes
  writes_le : s.writes.length ≤ kMaxQueuedWrites
  commands : ∀ w ∈ s.writes, w.command.length ≤ kMaxCommandBytes
  unwrapped : s.wrapped = false

theorem exact_new : Exact {} where
  input := rfl
  input_le := Nat.zero_le _
  output := rfl
  output_le := Nat.zero_le _
  accounted := by simp
  fresh := fun _ _ => ⟨rfl, rfl⟩
  queues := by simp
  writeBytes := rfl
  writeBytes_le := Nat.zero_le _
  writes_le := Nat.zero_le _
  commands := by simp
  unwrapped := rfl

variable {flags : Flags} {view : View} {s s' : Server}

/-- What the counters depend on. -/
structure SameCounts (s s' : Server) : Prop where
  sessions : s'.sessions = s.sessions
  connections : s'.connections = s.connections
  inputBytes : s'.inputBytes = s.inputBytes
  outputBytes : s'.outputBytes = s.outputBytes
  queuedWriteBytes : s'.queuedWriteBytes = s.queuedWriteBytes
  writes : s'.writes = s.writes
  wrapped : s'.wrapped = s.wrapped

theorem Exact.same (h : Exact s) (hsame : SameCounts s s') : Exact s' := by
  obtain ⟨⟩ := s'
  obtain ⟨rfl, rfl, rfl, rfl, rfl, rfl, rfl⟩ := hsame
  exact { h with }

/-! ## Small changes -/

theorem Exact.subtracts (h : Exact s) {a b : ℕ} (hle : b ≤ a) : Exact (s.subtracts a b) := by
  refine { h with unwrapped := ?_ }
  simp [Server.subtracts, h.unwrapped, wraps_of_le hle]

theorem Exact.modifyConnection (h : Exact s) (id : Name) {f : Connection → Connection}
    (houtput : (f (s.connections id)).output ≤ (s.connections id).output)
    (hlink : (f (s.connections id)).link = .connecting → (s.connections id).link = .connecting) :
    Exact (s.modifyConnection id f) := by
  refine { h with accounted := ?_, fresh := ?_ }
  · intro id' session hlookup
    obtain ⟨hle, hmax⟩ := h.accounted id' session hlookup
    refine ⟨?_, hmax⟩
    by_cases hid : id' = id
    · subst hid
      rw [modifyConnection_self]
      exact houtput.trans hle
    · rw [modifyConnection_ne _ _ hid]
      exact hle
  · intro id' hconnecting
    by_cases hid : id' = id
    · subst hid
      rw [modifyConnection_self] at hconnecting ⊢
      obtain ⟨hzero, hnone⟩ := h.fresh id' (hlink hconnecting)
      exact ⟨Nat.eq_zero_of_le_zero (houtput.trans hzero.le), hnone⟩
    · rw [modifyConnection_ne _ _ hid] at hconnecting ⊢
      exact h.fresh id' hconnecting

theorem Connection.forceClose_output (c : Connection) : c.forceClose.output = c.output := by
  rw [Connection.forceClose]
  split_ifs <;> rfl

theorem Connection.forceClose_link (c : Connection) (h : c.forceClose.link = .connecting) :
    c.link = .connecting := by
  rw [Connection.forceClose] at h
  split_ifs at h
  exact h

theorem Connection.shutdown_output (c : Connection) : c.shutdown.output = c.output := by
  rw [Connection.shutdown]
  split_ifs <;> rfl

theorem Connection.shutdown_link (c : Connection) (h : c.shutdown.link = .connecting) :
    c.link = .connecting := by
  rw [Connection.shutdown] at h
  split_ifs at h
  exact h

theorem Exact.forceClose (h : Exact s) (id : Name) :
    Exact (s.modifyConnection id Connection.forceClose) :=
  h.modifyConnection id (Connection.forceClose_output _).le (Connection.forceClose_link _)

theorem Exact.setReading (h : Exact s) (id : Name) (reading : Bool) :
    Exact (s.modifyConnection id fun c => { c with reading := reading }) :=
  h.modifyConnection id le_rfl fun hlink => hlink

variable {id : Name} {session : ClientSession}

section

variable (h : Exact s)
include h

/-- A session is replaced, and with it the output of its connection. The counters follow. -/
theorem Exact.setSession {session' : ClientSession} {conns : Name → Connection}
    {n m : ℕ} (hlookup : s.sessions.lookup id = some session)
    (hn : n + unreadOf session = s.inputBytes + unreadOf session') (hmax : n ≤ kMaxTotalInput)
    (hm : m + session.accountedOutput = s.outputBytes + session'.accountedOutput)
    (hmax' : m ≤ kMaxTotalOutput) (hothers : ∀ id' ≠ id, conns id' = s.connections id')
    (hlink : (conns id).link = .connecting → (s.connections id).link = .connecting)
    (haccounted : (conns id).output ≤ session'.accountedOutput ∧
      session'.accountedOutput ≤ kMaxClientOutput) (hqueue : session'.queue.Exact) :
    Exact { s with
      sessions := s.sessions.insert id session', connections := conns, inputBytes := n
      outputBytes := m } := by
  have hin : total unreadOf (s.sessions.insert id session') + unreadOf session =
      total unreadOf s.sessions + unreadOf session' := total_replace hlookup _
  have hout : total ClientSession.accountedOutput (s.sessions.insert id session') +
      session.accountedOutput = total ClientSession.accountedOutput s.sessions +
        session'.accountedOutput := total_replace hlookup _
  have hinput := h.input
  have houtput := h.output
  refine { h with
    input := ?_, input_le := hmax, output := ?_, output_le := hmax', accounted := ?_, fresh := ?_
    queues := ?_ }
  · dsimp only
    omega
  · dsimp only
    omega
  · intro id' other hlookup'
    rcases lookup_insert_cases hlookup' with ⟨rfl, rfl⟩ | ⟨hid, hother⟩
    · exact haccounted
    · dsimp only
      rw [hothers id' hid]
      exact h.accounted id' other hother
  · intro id' hconnecting
    dsimp only at hconnecting ⊢
    by_cases hid : id' = id
    · subst hid
      have hnone := (h.fresh id' (hlink hconnecting)).2
      rw [hlookup] at hnone
      cases hnone
    · rw [hothers id' hid] at hconnecting ⊢
      rw [AList.lookup_insert_ne hid]
      exact h.fresh id' hconnecting
  · intro id' other hlookup'
    rcases lookup_insert_cases hlookup' with ⟨rfl, rfl⟩ | ⟨-, hother⟩
    · exact hqueue
    · exact h.queues id' other hother

theorem Exact.modifySession (id : Name) {f : ClientSession → ClientSession}
    (hf : ∀ session, s.sessions.lookup id = some session → unreadOf (f session) = unreadOf session ∧
      (f session).accountedOutput = session.accountedOutput ∧
      (session.queue.Exact → (f session).queue.Exact)) : Exact (s.modifySession id f) := by
  cases hlookup : s.sessions.lookup id with
  | none => rwa [modifySession_of_none hlookup]
  | some session =>
    obtain ⟨hunread, haccounted, hqueue⟩ := hf session hlookup
    rw [modifySession_of_lookup hlookup]
    refine h.setSession hlookup (by rw [hunread]) h.input_le (by rw [haccounted]) h.output_le
      (fun _ _ => rfl) (fun hlink => hlink) ?_ (hqueue (h.queues id session hlookup))
    rw [haccounted]
    exact h.accounted id session hlookup

theorem Exact.setFlags (id : Name) {f : ClientSession → ClientSession}
    (hf : ∀ session, (f session).input = session.input ∧
      (f session).accountedOutput = session.accountedOutput ∧
      (f session).queue = session.queue) : Exact (s.modifySession id f) := by
  refine h.modifySession id fun session _ => ?_
  obtain ⟨hinput, haccounted, hqueue⟩ := hf session
  exact ⟨by rw [unreadOf, unreadOf, hinput], haccounted, fun hq => hqueue ▸ hq⟩

/-! ## Replies -/

theorem Exact.closeClient (id : Name) : Exact (s.closeClient id) := by
  have hclosing : Exact (s.modifySession id fun session => { session with closing := true }) :=
    h.setFlags id fun _ => ⟨rfl, rfl, rfl⟩
  exact hclosing.forceClose id

theorem Exact.accountOutput
    (hlookup : s.sessions.lookup id = some session) {f : Connection → Connection}
    (hlink : (f (s.connections id)).link = .connecting → (s.connections id).link = .connecting)
    (hclient : (f (s.connections id)).output ≤ kMaxClientOutput)
    (htotal : s.outputBytes + (f (s.connections id)).output ≤
      kMaxTotalOutput + session.accountedOutput) :
    Exact ((s.modifyConnection id f).accountOutput id) := by
  have hle : session.accountedOutput ≤ s.outputBytes := by
    rw [h.output]
    exact le_total hlookup
  have hbound := h.output_le
  have hmax : kMaxTotalOutput = 67108864 := rfl
  have hsub : sizeSub s.outputBytes session.accountedOutput =
      s.outputBytes - session.accountedOutput := sizeSub_of_le hle (by omega)
  have hnew : (sizeSub (s.modifyConnection id f).outputBytes session.accountedOutput +
      (f (s.connections id)).output) % 2 ^ 64 =
      s.outputBytes - session.accountedOutput + (f (s.connections id)).output := by
    show (sizeSub s.outputBytes _ + _) % _ = _
    rw [hsub, Nat.mod_eq_of_lt (by omega)]
  rw [accountOutput_eq (s := s.modifyConnection id f) hlookup, modifyConnection_self, hnew]
  refine (h.subtracts hle).setSession hlookup rfl h.input_le ?_ (by omega)
    (fun id' hid => modifyConnection_ne s f hid) (fun hconnecting => hlink ?_) ⟨?_, hclient⟩
    (h.queues id session hlookup)
  · show _ = s.outputBytes + (f (s.connections id)).output
    omega
  · rwa [← modifyConnection_self s id f]
  · exact (congrArg Connection.output (modifyConnection_self s id f)).le

theorem Exact.note (id : Name) (n : Note) : Exact (s.note id n) :=
  h.same ⟨rfl, rfl, rfl, rfl, rfl, rfl, rfl⟩

theorem Exact.setNs (id : Name) (ns : Option Bytes) : Exact (s.setNs id ns) :=
  h.same ⟨rfl, rfl, rfl, rfl, rfl, rfl, rfl⟩

theorem Exact.accountOutput_self
    (hlookup : s.sessions.lookup id = some session) : Exact (s.accountOutput id) := by
  obtain ⟨hle, hmax⟩ := h.accounted id session hlookup
  have hbound := h.output_le
  have hsame : s.modifyConnection id (fun c => c) = s := by
    simp [Server.modifyConnection]
  have haccount := h.accountOutput hlookup (f := fun c => c) (fun hlink => hlink) (hle.trans hmax)
    (by omega)
  rwa [hsame] at haccount

end

theorem Exact.sendReply (h : Exact s) {id : Name} {session : ClientSession}
    (hlookup : s.sessions.lookup id = some session) (number : Option ℕ) (reply : Bytes) :
    Exact (sendReply view s id number reply) := by
  rw [Server.sendReply]
  dsimp only
  have hnote : Exact (s.note id (.handed number reply)) := h.note id _
  by_cases hlive : (s.note id (.handed number reply)).live id = true
  swap
  · rw [if_pos hlive]
    exact hnote
  rw [if_neg (not_not.mpr hlive)]
  -- what waits is accounted for, and compared with the limits
  have haccount := hnote.accountOutput_self hlookup
  have hlookup' := lookup_accountOutput (s := s.note id (.handed number reply)) hlookup
  generalize (s.note id (.handed number reply)).accountOutput id = t at haccount hlookup' ⊢
  generalize { session with
    accountedOutput := ((s.note id (.handed number reply)).connections id).output } = session'
    at hlookup'
  obtain ⟨hle, hclient⟩ := haccount.accounted id session' hlookup'
  have htotal := haccount.output_le
  have hmaxClient : kMaxClientOutput = 4194304 := rfl
  have hmaxTotal : kMaxTotalOutput = 67108864 := rfl
  have hroom : sizeSub kMaxTotalOutput ((t.subtracts kMaxClientOutput
      session'.accountedOutput).subtracts kMaxTotalOutput t.outputBytes).outputBytes =
      kMaxTotalOutput - t.outputBytes := sizeSub_of_le htotal (by omega)
  rw [session_of_lookup hlookup', sizeSub_of_le hclient (by omega), hroom]
  have hchecked : Exact ((t.subtracts kMaxClientOutput session'.accountedOutput).subtracts
      kMaxTotalOutput t.outputBytes) := (haccount.subtracts hclient).subtracts htotal
  split_ifs with hlimit
  · exact hchecked.closeClient id
  push Not at hlimit
  -- the reply fits, whatever the socket takes of it
  refine Exact.accountOutput (hchecked.note id (.sent number reply)) hlookup' (fun hlink => hlink)
    ?_ ?_
  · show (if (t.connections id).output = 0 then _ else (t.connections id).output + _) ≤ _
    split_ifs <;> omega
  · show t.outputBytes +
      (if (t.connections id).output = 0 then _ else (t.connections id).output + _) ≤ _
    split_ifs <;> omega

/-! ## Commands -/

theorem Exact.finish (h : Exact s) (id : Name) : Exact (s.finish id) := by
  have hdone : Exact (s.modifySession id fun session => { session with executing := false }) :=
    h.setFlags id fun _ => ⟨rfl, rfl, rfl⟩
  rw [Server.finish]
  split_ifs
  · exact hdone.setReading id true
  · exact hdone

theorem Exact.unwait (h : Exact s) (id : Name) (told : Bool) : Exact (s.unwait id told) := by
  rw [Server.unwait]
  split_ifs
  · exact h.setFlags id fun _ => ⟨rfl, rfl, rfl⟩
  · exact h

theorem Exact.start (h : Exact s) {command : QueuedCommand}
    {queue : SessionCommandQueue} (hlookup : s.sessions.lookup id = some session)
    (hpop : session.queue.popFront = some (command, queue)) : Exact (s.start id command queue) := by
  have hpopped : Exact (s.modifySession id fun session =>
      { session with executing := true, queue := queue }) := by
    refine h.modifySession id fun session' hlookup' => ⟨rfl, rfl, fun hq => ?_⟩
    rw [hlookup] at hlookup'
    obtain rfl := Option.some.inj hlookup'
    exact (hq.popFront hpop).2.2
  exact hpopped.note id _

theorem lookup_start (command : QueuedCommand)
    (queue : SessionCommandQueue) (hlookup : s.sessions.lookup id = some session) :
    (s.start id command queue).sessions.lookup id =
      some { session with executing := true, queue := queue } :=
  lookup_modifySession hlookup _

theorem Exact.scheduleDrain (h : Exact s) (id : Name) : Exact (s.scheduleDrain id) := by
  rw [Server.scheduleDrain]
  dsimp only
  split_ifs
  · exact h
  · have hflags : Exact (s.modifySession id fun session =>
        { session with drainScheduled := true }) := h.setFlags id fun _ => ⟨rfl, rfl, rfl⟩
    exact hflags.same ⟨rfl, rfl, rfl, rfl, rfl, rfl, rfl⟩

theorem Exact.setFlusher (h : Exact s) (flusher : Flusher) : Exact (s.setFlusher flusher) :=
  h.same ⟨rfl, rfl, rfl, rfl, rfl, rfl, rfl⟩

theorem Exact.scheduleFlush (h : Exact s) (hflush : scheduleFlush flags view s = .ok s') :
    Exact s' := by
  rcases scheduleFlush_eq hflush with ⟨-, rfl⟩ | ⟨-, elapsed, flusher, -, rfl⟩
  · exact h
  · exact h.setFlusher flusher

theorem Exact.enqueueWrite (h : Exact s) (r : Request) {text : Bytes}
    (hsize : text.length ≤ kMaxCommandBytes) (hcount : s.writes.length < kMaxQueuedWrites)
    (hbytes : text.length ≤ kMaxQueuedWriteBytes - s.queuedWriteBytes) :
    Exact (enqueueWrite view s r text) := by
  have hwaiting : Exact (s.modifySession r.connection fun session =>
      { session with waiting := true }) := h.setFlags r.connection fun _ => ⟨rfl, rfl, rfl⟩
  have hle := h.writeBytes_le
  have hmax : kMaxQueuedWriteBytes = 16777216 := rfl
  have hsum : (s.queuedWriteBytes + text.length) % 2 ^ 64 = s.queuedWriteBytes + text.length :=
    Nat.mod_eq_of_lt (by omega)
  refine { hwaiting with
    writeBytes := ?_, writeBytes_le := ?_, writes_le := ?_, commands := ?_ }
  · show (s.queuedWriteBytes + text.length) % 2 ^ 64 = _
    rw [hsum, h.writeBytes]
    simp [Server.enqueueWrite]
  · show (s.queuedWriteBytes + text.length) % 2 ^ 64 ≤ _
    rw [hsum]
    omega
  · show (s.writes ++ [_]).length ≤ _
    rw [List.length_append, List.length_singleton]
    exact hcount
  intro w hw
  rcases List.mem_append.mp hw with hw | hw
  · exact h.commands w hw
  · obtain rfl := List.mem_singleton.mp hw
    exact hsize

/-! ## Input -/

/-- What a drain takes from the buffer of a session. -/
theorem drainCommands_exact (hq : session.queue.Exact) (reading : Bool) :
    (drainCommands session.input session.queue kMaxCommandsPerTurn reading).1.consumedBytes +
      (drainCommands session.input session.queue kMaxCommandsPerTurn reading).2.1.unreadBytes =
      session.input.unreadBytes ∧
    (drainCommands session.input session.queue kMaxCommandsPerTurn reading).2.2.Exact := by
  cases reading with
  | false => exact ⟨Nat.zero_add _, hq⟩
  | true =>
    obtain ⟨frames, hd⟩ := drainCommands_spec session.input hq kMaxCommandsPerTurn
    refine ⟨?_, hd.exact⟩
    rw [hd.consumed, ← CommandBuffer.length_unread, ← CommandBuffer.length_unread, hd.unread,
      List.length_append]

theorem Exact.drainInput (h : Exact s)
    (hlookup : s.sessions.lookup id = some session) : Exact (s.drainInput id).2 := by
  rw [Server.drainInput, session_of_lookup hlookup]
  dsimp only
  generalize ((s.connections id).connected && !session.closing && !session.drainScheduled) = reading
  obtain ⟨hconsumed, hqueue⟩ :=
    drainCommands_exact (h.queues id session hlookup) reading
  generalize drainCommands session.input session.queue kMaxCommandsPerTurn reading = result
    at hconsumed hqueue ⊢
  have hunread : unreadOf session ≤ s.inputBytes := by
    rw [h.input]
    exact le_total hlookup
  have hmax := h.input_le
  have hlimit : kMaxTotalInput = 67108864 := rfl
  have hle : result.1.consumedBytes ≤ s.inputBytes := by
    rw [unreadOf] at hunread
    omega
  rw [modifySession_of_lookup (s := s.subtracts _ _) hlookup, sizeSub_of_le hle (by omega)]
  refine (h.subtracts hle).setSession hlookup ?_ (by omega) rfl h.output_le (fun _ _ => rfl)
    (fun hlink => hlink) (h.accounted id session hlookup) hqueue
  show s.inputBytes - result.1.consumedBytes + session.input.unreadBytes =
    s.inputBytes + result.2.1.unreadBytes
  omega

theorem Exact.receive (h : Exact s) {bytes : Bytes} (hlookup : s.sessions.lookup id = some session)
    (hfits : bytes.length ≤ kMaxTotalInput - s.inputBytes)
    (happend : (session.input.append bytes).1 = true) : Exact (s.receive id bytes) := by
  have hmax := h.input_le
  have hlimit : kMaxTotalInput = 67108864 := rfl
  have hsum : (s.inputBytes + bytes.length) % 2 ^ 64 = s.inputBytes + bytes.length :=
    Nat.mod_eq_of_lt (by omega)
  have htold : Exact (s.modifyTranscript id fun t => { t with stream := t.stream ++ bytes }) :=
    h.same ⟨rfl, rfl, rfl, rfl, rfl, rfl, rfl⟩
  rw [Server.receive, modifySession_of_lookup (s := s.modifyTranscript _ _) hlookup]
  refine htold.setSession hlookup ?_ ?_ rfl h.output_le (fun _ _ => rfl) (fun hlink => hlink)
    (h.accounted id session hlookup) (h.queues id session hlookup)
  · show (s.inputBytes + bytes.length) % 2 ^ 64 + session.input.unreadBytes =
      s.inputBytes + (session.input.append bytes).2.unreadBytes
    rw [CommandBuffer.unreadBytes_append_of_accepted happend]
    omega
  · show (s.inputBytes + bytes.length) % 2 ^ 64 ≤ kMaxTotalInput
    omega

theorem Exact.rejectFrame (h : Exact s) {id : Name} {session : ClientSession}
    (hlookup : s.sessions.lookup id = some session) (error : String) :
    Exact (rejectFrame view s id error) := by
  have hstopped : Exact (s.modifyConnection id fun c => { c with reading := false }) :=
    h.setReading id false
  have hreplied : Exact (if shouldReplyInvalidFrame (s.session id).executing (s.session id).waiting
      (s.session id).queue.items.isEmpty then
      Server.sendReply view (s.modifyConnection id fun c => { c with reading := false }) id none
        (errorReply (ascii error))
      else s.modifyConnection id fun c => { c with reading := false }) := by
    split_ifs
    · exact hstopped.sendReply hlookup none _
    · exact hstopped
  rw [Server.rejectFrame]
  generalize (if shouldReplyInvalidFrame (s.session id).executing (s.session id).waiting
      (s.session id).queue.items.isEmpty then _ else _ : Server) = t at hreplied ⊢
  have hclosing : Exact (t.modifySession id fun session => { session with closing := true }) :=
    hreplied.setFlags id fun _ => ⟨rfl, rfl, rfl⟩
  refine hclosing.modifyConnection id ?_ ?_
  · rw [Connection.forceClose_output, Connection.shutdown_output]
  · exact fun hlink => Connection.shutdown_link _ (Connection.forceClose_link _ hlink)

/-! ## Connections -/

theorem Exact.onConnect (h : Exact s) {id : Name} (hlink : (s.connections id).link = .connecting) :
    Exact (onConnect flags s id) := by
  obtain ⟨hzero, hnone⟩ := h.fresh id hlink
  have hconnected : Exact (s.modifyConnection id fun c => { c with link := .connected }) :=
    h.modifyConnection id le_rfl (by simp)
  have hsum : ∀ w : ClientSession → ℕ, w {} = 0 →
      total w s.sessions = total w (s.sessions.insert id {}) := by
    intro w hw
    rw [total_insert_of_none hnone, hw, Nat.zero_add]
  rw [Server.onConnect]
  split_ifs
  · exact hconnected.forceClose id
  refine { hconnected with
    input := ?_, output := ?_, accounted := ?_, fresh := ?_, queues := ?_ }
  · exact hconnected.input.trans (hsum unreadOf rfl)
  · exact hconnected.output.trans (hsum ClientSession.accountedOutput rfl)
  · intro id' session' hlookup'
    rcases lookup_insert_cases hlookup' with ⟨rfl, rfl⟩ | ⟨-, hother⟩
    · rw [modifyConnection_self]
      exact ⟨hzero.le, Nat.zero_le _⟩
    · exact hconnected.accounted id' session' hother
  · intro id' hconnecting
    obtain ⟨hzero', hnone'⟩ := hconnected.fresh id' hconnecting
    refine ⟨hzero', ?_⟩
    rw [AList.lookup_insert_ne]
    · exact hnone'
    · rintro rfl
      rw [modifyConnection_self] at hconnecting
      cases hconnecting
  · intro id' session' hlookup'
    rcases lookup_insert_cases hlookup' with ⟨rfl, rfl⟩ | ⟨-, hother⟩
    · exact .empty
    · exact hconnected.queues id' session' hother

theorem Exact.onDisconnect (h : Exact s) (id : Name) : Exact (s.onDisconnect id) := by
  have hgone : Exact (s.modifyConnection id fun c => { c with link := .disconnected }) :=
    h.modifyConnection id le_rfl (by simp)
  rw [Server.onDisconnect]
  dsimp only
  generalize s.modifyConnection id (fun c => { c with link := .disconnected }) = t at hgone ⊢
  cases hlookup : t.sessions.lookup id with
  | none => exact hgone.same ⟨rfl, rfl, rfl, rfl, rfl, rfl, rfl⟩
  | some session =>
    dsimp only
    suffices hmain : Exact
        { (t.subtracts t.inputBytes session.input.unreadBytes).subtracts t.outputBytes
            session.accountedOutput with
          inputBytes := sizeSub t.inputBytes session.input.unreadBytes
          outputBytes := sizeSub t.outputBytes session.accountedOutput
          sessions := t.sessions.erase id } from hmain.same ⟨rfl, rfl, rfl, rfl, rfl, rfl, rfl⟩
    have hin : total unreadOf t.sessions =
        unreadOf session + total unreadOf (t.sessions.erase id) :=
      total_eq_add_erase hlookup
    have hout : total ClientSession.accountedOutput t.sessions = session.accountedOutput +
        total ClientSession.accountedOutput (t.sessions.erase id) := total_eq_add_erase hlookup
    have hinput := hgone.input
    have houtput := hgone.output
    have hmaxin := hgone.input_le
    have hmaxout := hgone.output_le
    have hlimitin : kMaxTotalInput = 67108864 := rfl
    have hlimitout : kMaxTotalOutput = 67108864 := rfl
    rw [unreadOf] at hin
    rw [sizeSub_of_le (by omega) (by omega), sizeSub_of_le (by omega) (by omega)]
    have hchecked : Exact ((t.subtracts t.inputBytes session.input.unreadBytes).subtracts
        t.outputBytes session.accountedOutput) :=
      (hgone.subtracts (by omega)).subtracts (by omega)
    refine { hchecked with
      input := ?_, input_le := ?_, output := ?_, output_le := ?_, accounted := ?_, fresh := ?_
      queues := ?_ }
    · show t.inputBytes - session.input.unreadBytes = total unreadOf (t.sessions.erase id)
      omega
    · show t.inputBytes - session.input.unreadBytes ≤ kMaxTotalInput
      omega
    · show t.outputBytes - session.accountedOutput = total _ (t.sessions.erase id)
      omega
    · show t.outputBytes - session.accountedOutput ≤ kMaxTotalOutput
      omega
    · intro id' session' hlookup'
      exact hgone.accounted id' session' (lookup_of_erase hlookup')
    · intro id' hconnecting
      obtain ⟨hzero, hnone⟩ := hgone.fresh id' hconnecting
      refine ⟨hzero, ?_⟩
      rw [AList.lookup_eq_none] at hnone ⊢
      exact fun hmem => hnone (AList.mem_erase.mp hmem).2
    · intro id' session' hlookup'
      exact hgone.queues id' session' (lookup_of_erase hlookup')

/-! ## Flushes -/

theorem Exact.popWrite (h : Exact s) {write : QueuedWrite} {writes : List QueuedWrite}
    (hwrites : s.writes = write :: writes) : Exact (s.popWrite write writes) := by
  have hsum := h.writeBytes
  have hmax := h.writeBytes_le
  have hcount := h.writes_le
  have hlimit : kMaxQueuedWriteBytes = 16777216 := rfl
  rw [hwrites, List.map_cons, List.sum_cons] at hsum
  rw [hwrites, List.length_cons] at hcount
  have hsub : sizeSub s.queuedWriteBytes write.command.length =
      s.queuedWriteBytes - write.command.length := sizeSub_of_le (by omega) (by omega)
  have hchecked : Exact (s.subtracts s.queuedWriteBytes write.command.length) :=
    h.subtracts (by omega)
  refine { hchecked with
    writeBytes := ?_, writeBytes_le := ?_, writes_le := ?_, commands := ?_ }
  · show sizeSub s.queuedWriteBytes write.command.length = _
    rw [hsub, hsum, Nat.add_sub_cancel_left]
    rfl
  · show sizeSub s.queuedWriteBytes write.command.length ≤ _
    omega
  · show writes.length ≤ _
    omega
  intro w hw
  refine h.commands w ?_
  rw [hwrites]
  exact List.mem_cons_of_mem _ hw

/-- The loop of `FlushQueuedWrites` : the bytes of the writes found stay within the limit. -/
theorem Exact.collectWrites (h : Exact s) (n : ℕ) {owners : List QueuedWrite}
    (hcollect : collectWrites n [] 0 s = (owners, s')) : Exact s' := by
  have hmax : BatchFlushPolicy.kMaxBytes = 1048576 := rfl
  have hcommand : kMaxCommandBytes = 1048576 := rfl
  obtain ⟨-, bytes, -, -, hexact⟩ := collectWrites_induction
    (P := fun _ owners bytes s => (owners = [] → bytes = 0) ∧
      bytes ≤ BatchFlushPolicy.kMaxBytes ∧ Exact s)
    (fun _ _ _ _ h => ⟨h.1, h.2.1, h.2.2.subtracts h.2.1⟩)
    (by
      rintro n owners bytes s write writes ⟨hempty, hle, hexact⟩ hwrites hfits -
      have hsmall := hexact.commands write (by rw [hwrites]; exact List.mem_cons_self)
      rw [sizeSub_of_le hle (by omega)] at hfits
      refine ⟨fun hnil => by simp at hnil, ?_, hexact.popWrite hwrites⟩
      rcases hfits with hnil | hfits
      · have := hempty hnil
        omega
      · omega)
    (fun n owners bytes s write writes h hwrites _ => ⟨h.1, h.2.1, h.2.2.popWrite hwrites⟩)
    n ⟨fun _ => rfl, Nat.zero_le _, h⟩ hcollect
  exact hexact

theorem Exact.proposeBatch (h : Exact s) (owners : List QueuedWrite) (index : ℤ) :
    Exact (s.proposeBatch owners index) := by
  rw [Server.proposeBatch]
  dsimp only
  split_ifs <;> exact h.same ⟨rfl, rfl, rfl, rfl, rfl, rfl, rfl⟩

/-! ## Runs -/

theorem Takes.sameCounts {r : Request} {t : Server} (h : s.Takes r t) : SameCounts s t := by
  cases h <;> exact ⟨rfl, rfl, rfl, rfl, rfl, rfl, rfl⟩

theorem lookup_unwait (hlookup : s.sessions.lookup id = some session) (told : Bool) :
    ∃ session', (s.unwait id told).sessions.lookup id = some session' := by
  cases told with
  | false => exact ⟨session, hlookup⟩
  | true => exact ⟨_, lookup_modifySession hlookup _⟩

theorem Exact.move (h : Exact s) (hmove : Move flags view s s') : Exact s' := by
  have hinput := h.input_le
  have hbytes := h.writeBytes_le
  have hlimit : kMaxTotalInput = 67108864 := rfl
  have hlimit' : kMaxQueuedWriteBytes = 16777216 := rfl
  cases hmove with
  | connect id hlink => exact h.onConnect hlink
  | disconnect id hup => exact h.onDisconnect id
  | stray id hnone hup => exact h.forceClose id
  | overload hlookup hclosing => exact (h.subtracts hinput).closeClient _
  | receive hlookup hclosing hfits happend =>
    rw [sizeSub_of_le hinput (by omega)] at hfits
    exact (h.subtracts hinput).receive hlookup hfits happend
  | wake id =>
    have hflags : Exact (s.modifySession id fun session =>
        { session with drainScheduled := false }) := h.setFlags id fun _ => ⟨rfl, rfl, rfl⟩
    exact hflags.same ⟨rfl, rfl, rfl, rfl, rfl, rfl, rfl⟩
  | drain hlookup hvalid => exact h.drainInput hlookup
  | reject hlookup hinvalid =>
    exact (h.drainInput hlookup).rejectFrame (lookup_modifySession hlookup _) _
  | stopRead id => exact h.setReading id false
  | scheduleDrain hlookup => exact h.scheduleDrain _
  | @answer id _ command queue ns counted reply hidle hpop hcounted =>
    have hchecked := ((h.start hidle.lookup hpop).setNs id ns).subtracts (hcounted.trans hbytes)
    exact (hchecked.sendReply (lookup_start command queue hidle.lookup) _ reply).finish id
  | submit hidle hpop hsize hcount hfits hflush =>
    rw [sizeSub_of_le hbytes (by omega)] at hfits
    have hchecked := (h.start hidle.lookup hpop).subtracts hbytes
    exact (hchecked.enqueueWrite _ hsize hcount hfits).scheduleFlush hflush
  | register key hidle hpop =>
    exact (h.start hidle.lookup hpop).same ⟨rfl, rfl, rfl, rfl, rfl, rfl, rfl⟩
  | @deliver r t before after reply htakes hlive =>
    obtain ⟨session, hlookup, -⟩ := lookup_of_live hlive
    rw [← htakes.sameCounts.sessions] at hlookup
    obtain ⟨session', hlookup'⟩ := lookup_unwait hlookup before
    have htaken := (h.same htakes.sameCounts).unwait r.connection before
    exact ((htaken.sendReply hlookup' _ reply).unwait _ after).finish _
  | abandon htakes hdead => exact (h.same htakes.sameCounts).setFlags _ fun _ => ⟨rfl, rfl, rfl⟩
  | fire token hmem => exact h.setFlusher _
  | stale hmem hstale => exact h.setFlusher _
  | flush index hidle hmem hcurrent hcollect hne =>
    exact ((h.setFlusher _).collectWrites _ hcollect).proposeBatch _ index
  | flushNone hidle hmem hcurrent hcollect hflush =>
    exact ((h.setFlusher _).collectWrites _ hcollect).scheduleFlush hflush
  | endFlush hflushing hflush =>
    have hended : Exact (s.setFlushing none) := h.same ⟨rfl, rfl, rfl, rfl, rfl, rfl, rfl⟩
    exact hended.scheduleFlush hflush
  | written id output hle => exact h.modifyConnection id hle fun hlink => hlink
  | writeComplete hlookup => exact h.accountOutput_self hlookup

/-- **The counters of the server are exact.** After any events `g_input_bytes` is the total of the
unread bytes of the sessions and at most 64 MiB, `g_queued_write_bytes` is the total of the sizes
of the queued writes and at most 16 MiB, there are at most 1024 of them, and no subtraction on a
counter or of a counter from its limit has wrapped around. -/
theorem server_counters_exact (flags : Flags) (events : List (View × Event)) (s : Server)
    (h : run flags {} events = .ok s) :
    s.inputBytes = total unreadOf s.sessions ∧ s.inputBytes ≤ 64 * 1024 * 1024 ∧
      s.queuedWriteBytes = (s.writes.map fun w => w.command.length).sum ∧
      s.queuedWriteBytes ≤ 16 * 1024 * 1024 ∧ s.writes.length ≤ 1024 ∧ s.wrapped = false := by
  have hexact : Exact s := run_invariant (fun h hmove => h.move hmove) exact_new h
  exact ⟨hexact.input, hexact.input_le, hexact.writeBytes, hexact.writeBytes_le, hexact.writes_le,
    hexact.unwrapped⟩

/-- A client connects to a leader and sends a write and the start of another command. -/
def writeEvents : List (View × Event) :=
  [({}, .connect 1),
   ({ isLeader := true }, .message 1 (ascii "*3\r\n$3\r\nSET\r\n$1\r\na\r\n$1\r\nb\r\n*1\r"))]

/-- The write waits, and three bytes are not parsed yet. -/
theorem server_counters_writeEvents :
    ∃ s, run {} {} writeEvents = .ok s ∧ s.inputBytes = 3 ∧ total unreadOf s.sessions = 3 ∧
      s.queuedWriteBytes = 35 ∧ s.wrapped = false := by
  obtain ⟨s, hok, hvalues⟩ := exists_ok_of_any (x := run {} {} writeEvents)
    (p := fun s => s.inputBytes = 3 ∧ s.queuedWriteBytes = 35) (by decide +kernel)
  obtain ⟨hinput, -, -, -, -, hwrapped⟩ := server_counters_exact {} writeEvents s hok
  simp only [decide_eq_true_eq] at hvalues
  exact ⟨s, hok, hvalues.1, hinput ▸ hvalues.1, hvalues.2, hwrapped⟩

end Server

end RaftKV
