import Mathlib.Data.List.AList
import RaftKV.SessionQueue

/-!
# The client server

The callbacks of `main.cpp` that serve clients, on one event loop. A session belongs to a
connection and lives as long as its entry in `g_sessions` : the weak pointers that writes and
callbacks keep are the names of connections here, and they can be locked while the entry is
there. Connections have names that are used once.

A callback of Raft may run inside a call of `RequestReadIndex` or `ProposeBatch`. The call of
`RequestReadIndex` is the last thing that is done on the way there, so a callback that runs
inside it is one that runs right after. `FlushQueuedWrites` goes on after `ProposeBatch` : where
it is, is part of the state (`Flushing`), and only callbacks of Raft run before it goes on.
Callbacks that wait in the loop run in any order, and a timer may fire after it was cancelled.

What Raft, the state machine, the clock and the sockets answer is not known (`View`). The
transcript of a connection, the arrivals, the batches and the journal of the writes are kept for
the statements.
-/

namespace RaftKV

/-! ## When to flush -/

namespace BatchFlushPolicy

/-- `BatchFlushPolicy::Action`. -/
inductive Action where
  | none
  | delayed
  | immediate
  deriving DecidableEq

/-- `BatchFlushPolicy::Plan`. -/
structure Plan where
  action : Action := .none
  token : ℕ := 0
  deriving DecidableEq

end BatchFlushPolicy

open BatchFlushPolicy in
/-- `BatchFlushPolicy`. -/
structure BatchFlushPolicy where
  pending : Action := .none
  generation : ℕ := 0
  deriving DecidableEq

namespace BatchFlushPolicy

/-- `BatchFlushPolicy::kMaxEntries`. -/
def kMaxEntries : ℕ := 128

/-- `BatchFlushPolicy::kMaxBytes`. -/
def kMaxBytes : ℕ := 1024 * 1024

/-- `BatchFlushPolicy::Request`. -/
def request (p : BatchFlushPolicy) (queuedEntries queuedBytes : ℕ) (delayElapsedOrZero : Bool) :
    Except String (Plan × BatchFlushPolicy) :=
  if queuedEntries = 0 ∨ p.pending = .immediate then .ok ({}, p)
  else
    let immediate := kMaxEntries ≤ queuedEntries || kMaxBytes ≤ queuedBytes || delayElapsedOrZero
    if p.pending = .delayed ∧ ¬immediate then .ok ({}, p)
    else if p.generation = uint64Max then .error "batch flush token overflow"
    else
      let pending := if immediate then .immediate else .delayed
      .ok (⟨pending, p.generation + 1⟩, ⟨pending, p.generation + 1⟩)

/-- `BatchFlushPolicy::Consume`. -/
def consume (p : BatchFlushPolicy) (token : ℕ) : Bool × BatchFlushPolicy :=
  if p.pending = .none ∨ token ≠ p.generation then (false, p)
  else (true, { p with pending := .none })

end BatchFlushPolicy

/-- `g_flush_policy`, `g_flush_timer` and the callbacks of flushes. A callback or a timer is
known by the token of its flush : those queued in the loop, the timers that will fire, and the
timers that were cancelled and may fire nevertheless. -/
structure Flusher where
  policy : BatchFlushPolicy := {}
  timer : Option ℕ := none
  queued : List ℕ := []
  armed : List ℕ := []
  cancelled : List ℕ := []
  deriving DecidableEq

namespace Flusher

/-- `g_loop->cancel` of the timer, if there is one. -/
def cancel (f : Flusher) : Flusher :=
  match f.timer with
  | none => f
  | some token => { f with
      timer := none
      armed := f.armed.erase token
      cancelled := if token ∈ f.armed then f.cancelled ++ [token] else f.cancelled }

/-- The part of `ScheduleFlush` after the time left is known. -/
def schedule (f : Flusher) (queuedEntries queuedBytes : ℕ) (elapsed : Bool) :
    Except String Flusher := do
  let (plan, policy) ← f.policy.request queuedEntries queuedBytes elapsed
  let f := { f with policy := policy }
  match plan.action with
  | .none => return f
  | .immediate =>
    let f := f.cancel
    return { f with queued := f.queued ++ [plan.token] }
  | .delayed =>
    let f := f.cancel
    return { f with timer := some plan.token, armed := f.armed ++ [plan.token] }

/-- A timer that fires queues its flush. -/
def fire (f : Flusher) (token : ℕ) : Flusher :=
  { f with
    armed := f.armed.erase token
    cancelled := f.cancelled.erase token
    queued := f.queued ++ [token] }

/-- A queued flush runs : whether it is current, and then the timer is forgotten. -/
def consume (f : Flusher) (token : ℕ) : Bool × Flusher :=
  let f := { f with queued := f.queued.erase token }
  let consumed := f.policy.consume token
  if consumed.1 then (true, { f with policy := consumed.2, timer := none }) else (false, f)

end Flusher

/-! ## Texts -/

/-- `Error`. -/
def errorReply (message : Bytes) : Bytes :=
  ascii "-ERR " ++ message ++ ascii "\r\n"

/-- `std::to_string` of an `int`. -/
def decimalInt (v : ℤ) : Bytes :=
  if v < 0 then ascii "-" ++ decimal v.natAbs else decimal v.toNat

/-- The reply that names the leader. -/
def movedReply (leaderId : ℤ) : Bytes :=
  errorReply (ascii "MOVED " ++ decimalInt leaderId)

/-- The reply to a `GET`. -/
def valueReply : Option Bytes → Bytes
  | some value => bulk value
  | none => ascii "$-1\r\n"

/-- `WriteKeyIndex`. -/
def writeKeyIndex (args : List Bytes) : ℕ :=
  if args.head? = some (ascii "IDEMP") then 4 else 1

/-- `NamespaceManager::IsValidName`. -/
def isValidName (name : Bytes) : Bool :=
  name ≠ [] && name.length ≤ 63 && name.all fun c =>
    (97 ≤ c && c ≤ 122) || (65 ≤ c && c ≤ 90) || (48 ≤ c && c ≤ 57) || c == 95 || c == 45

/-- `IsReadIndexRedirectError`. -/
def isReadIndexRedirectError (error : Bytes) : Bool :=
  error == ascii "not leader" || error == ascii "no leader" || error == ascii "leadership lost" ||
    error == ascii "server stopped"

/-- `LinearizableGetAction`. -/
inductive LinearizableGetAction where
  | serve
  | redirect
  | fail
  deriving DecidableEq

/-- `DecideLinearizableGet`. -/
def decideLinearizableGet (success stillLeader : Bool) (error : Bytes) : LinearizableGetAction :=
  if success && stillLeader then .serve
  else if !success && stillLeader && !isReadIndexRedirectError error then .fail
  else .redirect

/-- `ShouldReplyInvalidFrame`. -/
def shouldReplyInvalidFrame (executing waiting queueEmpty : Bool) : Bool :=
  !executing && !waiting && queueEmpty

/-! ## The state -/

/-- The command line flags of the server that the callbacks read. -/
structure Flags where
  leaderOnlyReads : Bool := false
  linearizableReads : Bool := false
  groupCommitMs : ℕ := 1
  maxClients : ℕ := 1024

/-- `kMaxTotalInput`. -/
def kMaxTotalInput : ℕ := 64 * 1024 * 1024

/-- `kMaxTotalOutput`. -/
def kMaxTotalOutput : ℕ := 64 * 1024 * 1024

/-- `kMaxClientOutput`. -/
def kMaxClientOutput : ℕ := 4 * 1024 * 1024

/-- `kMaxQueuedWrites`. -/
def kMaxQueuedWrites : ℕ := 1024

/-- `kMaxQueuedWriteBytes`. -/
def kMaxQueuedWriteBytes : ℕ := 16 * 1024 * 1024

/-- `ClientSession`. -/
structure ClientSession where
  input : CommandBuffer := .empty
  queue : SessionCommandQueue := {}
  waiting : Bool := false
  closing : Bool := false
  drainScheduled : Bool := false
  accountedOutput : ℕ := 0
  executing : Bool := false

namespace Server

/-- The name of a client connection. -/
abbrev Name := ℕ

/-- The states of a connection of the network library. -/
inductive Link where
  | connecting
  | connected
  | disconnecting
  | disconnected
  deriving DecidableEq

/-- A connection : its state, whether it reads from its socket, and how many bytes its output
buffer holds. -/
structure Connection where
  link : Link := .connecting
  reading : Bool := true
  output : ℕ := 0
  deriving DecidableEq

/-- A connection that has been established and is not destroyed. -/
def Connection.up (c : Connection) : Bool :=
  c.link = .connected || c.link = .disconnecting

/-- `TcpConnection::connected`. -/
def Connection.connected (c : Connection) : Bool :=
  c.link = .connected

/-- `TcpConnection::forceClose` : the close itself waits in the loop. `forceCloseWithDelay` does
the same with a timer. -/
def Connection.forceClose (c : Connection) : Connection :=
  if c.up then { c with link := .disconnecting } else c

/-- `TcpConnection::shutdown`. -/
def Connection.shutdown (c : Connection) : Connection :=
  if c.connected then { c with link := .disconnecting } else c

/-- A command of a connection that was given to Raft : its place among the commands of the
connection is noted, for the statements. -/
structure Request where
  connection : Name
  number : ℕ
  deriving DecidableEq

/-- `QueuedWrite`. -/
structure QueuedWrite where
  command : Bytes
  request : Request
  enqueuedAt : ℤ
  deriving DecidableEq

/-- A callback of `RequestReadIndex` with the key it will read. -/
structure PendingRead where
  key : Bytes
  request : Request
  deriving DecidableEq

/-- Where `FlushQueuedWrites` is after it has called `ProposeBatch` : the owners that are still
to be told of a refusal, and the result. -/
structure Flushing where
  owners : List Request
  index : ℤ
  deriving DecidableEq

/-- What happens on a connection. A reply is handed to `SendReply` and, unless it is refused
there, sent; it answers the command of a number, or none if it tells of an invalid frame. -/
inductive Note where
  | started (command : QueuedCommand)
  | handed (number : Option ℕ) (reply : Bytes)
  | sent (number : Option ℕ) (reply : Bytes)
  deriving DecidableEq

/-- The bytes accepted from a connection and what happened on it. -/
structure Transcript where
  stream : Bytes := []
  notes : List Note := []

/-- The commands that were started. -/
def Transcript.started (t : Transcript) : List QueuedCommand :=
  t.notes.filterMap fun
    | .started command => some command
    | _ => none

end Server

open Server in
/-- The global variables of the server, the connections, the callbacks that wait in the event
loop and those that Raft keeps. -/
structure Server where
  sessions : AList fun _ : Name => ClientSession := ∅
  connections : Name → Connection := fun _ => {}
  namespaces : Name → Option Bytes := fun _ => none
  inputBytes : ℕ := 0
  outputBytes : ℕ := 0
  queuedWriteBytes : ℕ := 0
  writes : List QueuedWrite := []
  flusher : Flusher := {}
  /-- The drains that wait in the loop. -/
  drains : List Name := []
  proposals : List Request := []
  reads : List PendingRead := []
  flushing : Option Flushing := none
  transcript : Name → Transcript := fun _ => {}
  /-- The writes put into the queue. -/
  arrivals : List QueuedWrite := []
  /-- The batches given to `ProposeBatch`. -/
  batches : List (List QueuedWrite) := []
  /-- The writes taken from the queue, and whether they were proposed. -/
  journal : List (QueuedWrite × Bool) := []
  /-- Whether a subtraction of unsigned numbers has wrapped around. -/
  wrapped : Bool := false

namespace Server

/-- What the server is told while it handles an event. Raft's state changes only in calls of
Raft; the clock, the room in a socket and the text of `INFO` may be different every time. -/
structure View where
  isLeader : Bool := false
  leaderId : ℤ := -1
  get : Bytes → Option Bytes := fun _ => none
  info : Server → Bytes := fun _ => []
  now : Server → ℤ := fun _ => 0
  room : Server → ℕ := fun _ => 0

/-- The session of a connection. -/
def session (s : Server) (id : Name) : ClientSession :=
  (s.sessions.lookup id).getD {}

/-- A change of the session of a connection, if it has one. -/
def modifySession (s : Server) (id : Name) (f : ClientSession → ClientSession) : Server :=
  { s with sessions := match s.sessions.lookup id with
    | none => s.sessions
    | some session => s.sessions.insert id (f session) }

/-- A change of a connection. -/
def modifyConnection (s : Server) (id : Name) (f : Connection → Connection) : Server :=
  { s with connections := Function.update s.connections id (f (s.connections id)) }

/-- A change of the transcript of a connection. -/
def modifyTranscript (s : Server) (id : Name) (f : Transcript → Transcript) : Server :=
  { s with transcript := Function.update s.transcript id (f (s.transcript id)) }

/-- Something that happens on a connection. -/
def note (s : Server) (id : Name) (n : Note) : Server :=
  s.modifyTranscript id fun t => { t with notes := t.notes ++ [n] }

/-- Whether the subtraction `a - b` of unsigned numbers wraps around. -/
@[irreducible] def wraps (a b : ℕ) : Bool :=
  a < b

/-- The subtraction `a - b` of unsigned numbers is done. -/
def subtracts (s : Server) (a b : ℕ) : Server :=
  { s with wrapped := s.wrapped || wraps a b }

/-- A change of the callbacks of flushes. -/
def setFlusher (s : Server) (flusher : Flusher) : Server :=
  { s with flusher := flusher }

/-- `g_input_bytes` is set. -/
def setInputBytes (s : Server) (n : ℕ) : Server :=
  { s with inputBytes := n }

/-- `g_output_bytes` is set. -/
def setOutputBytes (s : Server) (n : ℕ) : Server :=
  { s with outputBytes := n }

/-- Whether a session can be found and a reply can be delivered : `CanDeliverClientReply`. -/
def live (s : Server) (id : Name) : Bool :=
  match s.sessions.lookup id with
  | none => false
  | some session => (s.connections id).connected && !session.closing

/-- `NamespaceManager::SetNs` and `NamespaceManager::Remove`. -/
def setNs (s : Server) (id : Name) (ns : Option Bytes) : Server :=
  { s with namespaces := Function.update s.namespaces id ns }

/-- `NamespaceManager::MakeKey`. -/
def makeKey (s : Server) (id : Name) (key : Bytes) : Bytes :=
  (s.namespaces id).getD (ascii "default") ++ ascii ":" ++ key

/-! ## Replies -/

/-- `CloseClient`. -/
def closeClient (s : Server) (id : Name) : Server :=
  (s.modifySession id fun session => { session with closing := true }).modifyConnection id
    Connection.forceClose

/-- `AccountOutput`. -/
def accountOutput (s : Server) (id : Name) : Server :=
  let accounted := (s.session id).accountedOutput
  let output := (s.connections id).output
  let account := fun session : ClientSession => { session with accountedOutput := output }
  ((s.subtracts s.outputBytes accounted).modifySession id account).setOutputBytes
    ((sizeSub s.outputBytes accounted + output) % 2 ^ 64)

/-- `TcpConnection::send` : what the socket does not take is left in the output buffer. -/
def send (view : View) (s : Server) (id : Name) (number : Option ℕ) (reply : Bytes) : Server :=
  let sent := s.note id (.sent number reply)
  sent.modifyConnection id fun c =>
    { c with
      output := if c.output = 0 then reply.length - view.room s else c.output + reply.length }

/-- `SendReply`. -/
def sendReply (view : View) (s : Server) (id : Name) (number : Option ℕ) (reply : Bytes) :
    Server :=
  let s := s.note id (.handed number reply)
  if ¬s.live id then s
  else
    let s := s.accountOutput id
    let accounted := (s.session id).accountedOutput
    let s := (s.subtracts kMaxClientOutput accounted).subtracts kMaxTotalOutput s.outputBytes
    if sizeSub kMaxClientOutput accounted < reply.length ∨
        sizeSub kMaxTotalOutput s.outputBytes < reply.length then s.closeClient id
    else (send view s id number reply).accountOutput id

/-! ## Commands -/

/-- `ScheduleDrain`. -/
def scheduleDrain (s : Server) (id : Name) : Server :=
  let session := s.session id
  if session.drainScheduled ∨ session.closing ∨ session.waiting ∨
      session.input.unreadBytes = 0 then s
  else { (s.modifySession id fun session => { session with drainScheduled := true }) with
    drains := s.drains ++ [id] }

/-- The command of a session is done, and the session may read again : the first part of
`OnCommandComplete`. -/
def finish (s : Server) (id : Name) : Server :=
  let s := s.modifySession id fun session => { session with executing := false }
  if ¬(s.session id).queue.isFull ∧ (s.connections id).connected ∧ ¬(s.session id).closing then
    s.modifyConnection id fun c => { c with reading := true }
  else s

/-- `OnCommandComplete`, with what `ExecuteNextCommand` does then. -/
def onCommandComplete (next : Server → Except String Server) (s : Server) (id : Name) :
    Except String Server :=
  next (s.finish id)

/-- `ScheduleFlush`. -/
def scheduleFlush (flags : Flags) (view : View) (s : Server) : Except String Server :=
  match s.writes with
  | [] => .ok s
  | front :: _ => do
    let remaining := (flags.groupCommitMs : ℤ) * 1000000 - (view.now s - front.enqueuedAt)
    let flusher ← s.flusher.schedule s.writes.length s.queuedWriteBytes (remaining ≤ 0)
    return s.setFlusher flusher

/-- The command that `SubmitWrite` proposes : the key is put into the namespace. -/
def writeCommand (s : Server) (id : Name) (args : List Bytes) : Bytes :=
  serializeCommand (args.modify (writeKeyIndex args) (s.makeKey id))

/-- A write is put into the queue. -/
def enqueueWrite (view : View) (s : Server) (r : Request) (command : Bytes) : Server :=
  { (s.modifySession r.connection fun session => { session with waiting := true }) with
    writes := s.writes ++ [⟨command, r, view.now s⟩]
    arrivals := s.arrivals ++ [⟨command, r, view.now s⟩]
    queuedWriteBytes := (s.queuedWriteBytes + command.length) % 2 ^ 64 }

/-- `SubmitWrite`. -/
def submitWrite (flags : Flags) (view : View) (next : Server → Except String Server) (s : Server)
    (id : Name) (number : ℕ) (args : List Bytes) : Except String Server :=
  let command := s.writeCommand id args
  let answer := fun (s : Server) (reply : Bytes) =>
    onCommandComplete next (sendReply view s id (some number) reply) id
  if kMaxCommandBytes < command.length then answer s (errorReply (ascii "command too large"))
  else if ¬view.isLeader then answer s (movedReply view.leaderId)
  else
    let s := s.subtracts kMaxQueuedWriteBytes s.queuedWriteBytes
    if kMaxQueuedWrites ≤ s.writes.length ∨
        sizeSub kMaxQueuedWriteBytes s.queuedWriteBytes < command.length then
      answer s (errorReply (ascii "BUSY write queue full"))
    else scheduleFlush flags view (enqueueWrite view s ⟨id, number⟩ command)

/-- `RequestReadIndex` keeps the callback. -/
def requestReadIndex (s : Server) (r : PendingRead) : Server :=
  { s with reads := s.reads ++ [r] }

/-- The part of `ExecuteNextCommand` after a command was taken from the queue. -/
def executeCommand (flags : Flags) (view : View) (next : Server → Except String Server)
    (s : Server) (id : Name) (number : ℕ) (command : QueuedCommand) : Except String Server :=
  let argument := command.args.getD 1 []
  let answer := fun (s : Server) (reply : Bytes) =>
    onCommandComplete next (sendReply view s id (some number) reply) id
  match command.type with
  | .error => answer s (errorReply command.errorMessage)
  | .read =>
    let op := command.args.headD []
    if op = ascii "PING" then answer s (ascii "+PONG\r\n")
    else if op = ascii "SELECT" then
      if ¬isValidName argument then answer s (errorReply (ascii "invalid namespace name"))
      else answer (s.setNs id (some argument)) (ascii "+OK\r\n")
    else if op = ascii "GET" then
      if flags.linearizableReads then
        if ¬view.isLeader then answer s (movedReply view.leaderId)
        else .ok (s.requestReadIndex ⟨s.makeKey id argument, ⟨id, number⟩⟩)
      else if flags.leaderOnlyReads ∧ ¬view.isLeader then answer s (movedReply view.leaderId)
      else answer s (valueReply (view.get (s.makeKey id argument)))
    else if op = ascii "INFO" then answer s (bulk (view.info s))
    else answer s (errorReply (ascii "ERR unknown command"))
  | .write => submitWrite flags view next s id number command.args

/-- The number of the next command of a connection. -/
def nextNumber (s : Server) (id : Name) : ℕ :=
  (s.transcript id).started.length

/-- A command is taken from the queue of a session. -/
def start (s : Server) (id : Name) (command : QueuedCommand) (queue : SessionCommandQueue) :
    Server :=
  (s.modifySession id fun session => { session with executing := true, queue := queue }).note id
    (.started command)

/-- `ExecuteNextCommand`, for as many commands at most. -/
def executeCommands (flags : Flags) (view : View) (id : Name) : ℕ → Server → Except String Server
  | 0, s => .ok s
  | n + 1, s =>
    if (s.session id).executing ∨ ¬s.live id then .ok s
    else match (s.session id).queue.popFront with
      | none => .ok (s.scheduleDrain id)
      | some (command, queue) =>
        executeCommand flags view (executeCommands flags view id n) (s.start id command queue) id
          (s.nextNumber id) command

/-- `ExecuteNextCommand` : every command it starts is taken from the queue. -/
def executeNextCommand (flags : Flags) (view : View) (id : Name) (s : Server) :
    Except String Server :=
  executeCommands flags view id ((s.session id).queue.items.length + 1) s

/-- The first part of `DrainClient` : commands are taken from the buffer of a session. -/
def drainInput (s : Server) (id : Name) : DrainOutcome × Server :=
  let session := s.session id
  let drained := drainCommands session.input session.queue kMaxCommandsPerTurn
    ((s.connections id).connected && !session.closing && !session.drainScheduled)
  let consumed := drained.1.consumedBytes
  let take := fun session : ClientSession =>
    { session with input := drained.2.1, queue := drained.2.2 }
  (drained.1, ((s.subtracts s.inputBytes consumed).modifySession id take).setInputBytes
    (sizeSub s.inputBytes consumed))

/-- The part of `DrainClient` for an invalid frame. -/
def rejectFrame (view : View) (s : Server) (id : Name) (error : String) : Server :=
  let session := s.session id
  let s := s.modifyConnection id fun c => { c with reading := false }
  let s :=
    if shouldReplyInvalidFrame session.executing session.waiting session.queue.items.isEmpty then
      sendReply view s id none (errorReply (ascii error))
    else s
  let s := s.modifySession id fun session => { session with closing := true }
  s.modifyConnection id fun c => c.shutdown.forceClose

/-- `DrainClient`. -/
def drainClient (flags : Flags) (view : View) (s : Server) (id : Name) : Except String Server :=
  let drained := s.drainInput id
  let out := drained.1
  let s := drained.2
  if out.invalid then .ok (rejectFrame view s id out.invalidError)
  else
    let s := if out.stopRead then s.modifyConnection id fun c => { c with reading := false } else s
    let session := s.session id
    if ¬session.executing ∧ ¬session.queue.items.isEmpty then executeNextCommand flags view id s
    else if (s.connections id).connected ∧ ¬session.executing then .ok (s.scheduleDrain id)
    else .ok s

/-! ## Connections and messages -/

/-- `OnClientConnection` of a new connection. -/
def onConnect (flags : Flags) (s : Server) (id : Name) : Server :=
  let s := s.modifyConnection id fun c => { c with link := .connected }
  if flags.maxClients ≤ s.sessions.entries.length then s.modifyConnection id Connection.forceClose
  else { s with sessions := s.sessions.insert id {} }

/-- `OnClientConnection` of a connection that is gone. -/
def onDisconnect (s : Server) (id : Name) : Server :=
  let s := s.modifyConnection id fun c => { c with link := .disconnected }
  let s := match s.sessions.lookup id with
    | none => s
    | some session =>
      let unread := session.input.unreadBytes
      let output := session.accountedOutput
      { (s.subtracts s.inputBytes unread).subtracts s.outputBytes output with
        inputBytes := sizeSub s.inputBytes unread
        outputBytes := sizeSub s.outputBytes output
        sessions := s.sessions.erase id }
  s.setNs id none

/-- Bytes are added to the buffer of a session. -/
def receive (s : Server) (id : Name) (bytes : Bytes) : Server :=
  let s := s.modifyTranscript id fun t => { t with stream := t.stream ++ bytes }
  let append := fun session : ClientSession =>
    { session with input := (session.input.append bytes).2 }
  (s.modifySession id append).setInputBytes ((s.inputBytes + bytes.length) % 2 ^ 64)

/-- `OnClientMessage`. -/
def onClientMessage (flags : Flags) (view : View) (s : Server) (id : Name) (bytes : Bytes) :
    Except String Server :=
  match s.sessions.lookup id with
  | none => .ok (s.modifyConnection id Connection.forceClose)
  | some session =>
    if session.closing then .ok s
    else
      let s := s.subtracts kMaxTotalInput s.inputBytes
      if sizeSub kMaxTotalInput s.inputBytes < bytes.length ∨ ¬(session.input.append bytes).1 then
        .ok (s.closeClient id)
      else drainClient flags view (s.receive id bytes) id

/-! ## Flushes and the callbacks of Raft -/

/-- The first write is taken from the queue. -/
def popWrite (s : Server) (write : QueuedWrite) (writes : List QueuedWrite) : Server :=
  { s.subtracts s.queuedWriteBytes write.command.length with
    writes := writes
    queuedWriteBytes := sizeSub s.queuedWriteBytes write.command.length
    journal := s.journal ++ [(write, s.live write.request.connection)] }

/-- The loop of `FlushQueuedWrites`, for the writes that may still be inspected : the writes
that will be proposed, after those found so far with their bytes. -/
def collectWrites : ℕ → List QueuedWrite → ℕ → Server → List QueuedWrite × Server
  | 0, owners, _, s => (owners, s)
  | n + 1, owners, bytes, s =>
    match s.writes with
    | [] => (owners, s)
    | write :: writes =>
      let s := s.subtracts BatchFlushPolicy.kMaxBytes bytes
      if owners ≠ [] ∧ sizeSub BatchFlushPolicy.kMaxBytes bytes < write.command.length then
        (owners, s)
      else if s.live write.request.connection then
        collectWrites n (owners ++ [write]) (bytes + write.command.length)
          (s.popWrite write writes)
      else collectWrites n owners bytes (s.popWrite write writes)

/-- `ProposeBatch` is called and will return `index`. It keeps the callbacks of the batch; if
the result is negative, it has dropped them. -/
def proposeBatch (s : Server) (owners : List QueuedWrite) (index : ℤ) : Server :=
  let s := { s with batches := s.batches ++ [owners] }
  let requests := owners.map QueuedWrite.request
  if index < 0 then { s with flushing := some ⟨requests, index⟩ }
  else { s with proposals := s.proposals ++ requests, flushing := some ⟨[], index⟩ }

/-- `FlushQueuedWrites`, up to the call of `ProposeBatch`. -/
def flushQueuedWrites (flags : Flags) (view : View) (index : ℤ) (s : Server) :
    Except String Server :=
  let collected := collectWrites BatchFlushPolicy.kMaxEntries [] 0 s
  if collected.1 = [] then scheduleFlush flags view collected.2
  else .ok (collected.2.proposeBatch collected.1 index)

/-- The flags of a session are reset when its command cannot be answered. -/
def abandon (s : Server) (id : Name) : Server :=
  s.modifySession id fun session => { session with executing := false, waiting := false }

/-- The callback of a proposal. -/
def onProposalDone (flags : Flags) (view : View) (s : Server) (r : Request) (response : Bytes) :
    Except String Server :=
  if ¬s.live r.connection then .ok (s.abandon r.connection)
  else
    let s := sendReply view s r.connection (some r.number) response
    let s := s.modifySession r.connection fun session => { session with waiting := false }
    onCommandComplete (executeNextCommand flags view r.connection) s r.connection

/-- The callback of a linearizable `GET`. -/
def onReadDone (flags : Flags) (view : View) (s : Server) (r : PendingRead) (success : Bool)
    (error : Bytes) : Except String Server :=
  let id := r.request.connection
  if ¬s.live id then .ok (s.abandon id)
  else
    let reply := match decideLinearizableGet success view.isLeader error with
      | .redirect => movedReply view.leaderId
      | .fail => errorReply error
      | .serve => valueReply (view.get r.key)
    onCommandComplete (executeNextCommand flags view id)
      (sendReply view s id (some r.request.number) reply) id

/-- An owner of a batch that `ProposeBatch` has refused is told. -/
def rejectOwner (flags : Flags) (view : View) (s : Server) (r : Request) (index : ℤ) :
    Except String Server :=
  let id := r.connection
  if ¬s.live id then .ok (s.abandon id)
  else
    let s := s.modifySession id fun session => { session with waiting := false }
    let reply := if index = -1 then movedReply view.leaderId
      else errorReply (ascii "BUSY proposal capacity exhausted")
    onCommandComplete (executeNextCommand flags view id)
      (sendReply view s id (some r.number) reply) id

/-- `FlushQueuedWrites` has these owners left, or is over. -/
def setFlushing (s : Server) (flushing : Option Flushing) : Server :=
  { s with flushing := flushing }

/-- The rest of `FlushQueuedWrites`, up to the next call that may run callbacks of Raft. -/
def resumeFlush (flags : Flags) (view : View) (s : Server) : Except String Server :=
  match s.flushing with
  | none => .ok s
  | some ⟨[], _⟩ => scheduleFlush flags view (s.setFlushing none)
  | some ⟨owner :: owners, index⟩ =>
    rejectOwner flags view (s.setFlushing (some ⟨owners, index⟩)) owner index

/-! ## Events -/

/-- What may happen to the server. -/
inductive Event where
  /-- A connection is established. -/
  | connect (id : Name)
  /-- A connection is destroyed. -/
  | disconnect (id : Name)
  /-- Bytes arrive. -/
  | message (id : Name) (bytes : Bytes)
  /-- A drain that waits in the loop runs. -/
  | drain (id : Name)
  /-- A timer fires. -/
  | timer (token : ℕ)
  /-- A flush that waits in the loop runs, and `ProposeBatch` will return `index`. -/
  | flush (token : ℕ) (index : ℤ)
  /-- `FlushQueuedWrites` goes on. -/
  | resume
  /-- The callback of a proposal runs. -/
  | proposalDone (i : ℕ) (response : Bytes)
  /-- The callback of a read runs. -/
  | readDone (i : ℕ) (success : Bool) (error : Bytes)
  /-- A socket takes bytes of the output buffer, up to the last `output` ones. -/
  | written (id : Name) (output : ℕ)
  /-- The callback for an output buffer that is empty runs. -/
  | writeComplete (id : Name)
  deriving DecidableEq

/-- An event of the loop itself, which waits for `FlushQueuedWrites` to return. -/
def Event.top : Event → Bool
  | .resume | .proposalDone .. | .readDone .. => false
  | _ => true

/-- A drain leaves the loop, and the session is not scheduled any more. -/
def wake (s : Server) (id : Name) : Server :=
  { (s.modifySession id fun session => { session with drainScheduled := false }) with
    drains := s.drains.erase id }

/-- A drain that runs : the session may be gone. -/
def runDrain (flags : Flags) (view : View) (s : Server) (id : Name) : Except String Server :=
  match s.sessions.lookup id with
  | none => .ok (s.wake id)
  | some _ => drainClient flags view (s.wake id) id

/-- A flush that runs. -/
def runFlush (flags : Flags) (view : View) (s : Server) (token : ℕ) (index : ℤ) :
    Except String Server :=
  let consumed := s.flusher.consume token
  let s := s.setFlusher consumed.2
  if consumed.1 then flushQueuedWrites flags view index s else .ok s

/-- Raft gives a callback of a proposal back. -/
def dropProposal (s : Server) (i : ℕ) : Server :=
  { s with proposals := s.proposals.eraseIdx i }

/-- Raft gives a callback of a read back. -/
def dropRead (s : Server) (i : ℕ) : Server :=
  { s with reads := s.reads.eraseIdx i }

/-- The server after an event. An event that cannot happen changes nothing. -/
def handle (flags : Flags) (view : View) (s : Server) : Event → Except String Server
  | .connect id => .ok (if (s.connections id).link = .connecting then onConnect flags s id else s)
  | .disconnect id => .ok (if (s.connections id).up then s.onDisconnect id else s)
  | .message id bytes =>
    if (s.connections id).up then onClientMessage flags view s id bytes else .ok s
  | .drain id => if id ∈ s.drains then runDrain flags view s id else .ok s
  | .timer token =>
    .ok (if token ∈ s.flusher.armed ∨ token ∈ s.flusher.cancelled then
      s.setFlusher (s.flusher.fire token) else s)
  | .flush token index =>
    if token ∈ s.flusher.queued then runFlush flags view s token index else .ok s
  | .resume => resumeFlush flags view s
  | .proposalDone i response =>
    match s.proposals[i]? with
    | none => .ok s
    | some r => onProposalDone flags view (s.dropProposal i) r response
  | .readDone i success error =>
    match s.reads[i]? with
    | none => .ok s
    | some r => onReadDone flags view (s.dropRead i) r success error
  | .written id output =>
    .ok (if output ≤ (s.connections id).output then
      s.modifyConnection id fun c => { c with output := output } else s)
  | .writeComplete id =>
    .ok (match s.sessions.lookup id with
      | none => s
      | some _ => s.accountOutput id)

/-- The server after an event of the loop or of Raft. -/
def step (flags : Flags) (s : Server) (e : View × Event) : Except String Server :=
  if e.2.top ∧ s.flushing.isSome then .ok s else handle flags e.1 s e.2

/-- The server after a sequence of events. -/
def run (flags : Flags) (s : Server) (events : List (View × Event)) : Except String Server :=
  events.foldlM (step flags) s

end Server

end RaftKV
