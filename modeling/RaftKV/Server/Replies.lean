import Mathlib.Algebra.Order.Group.Multiset
import RaftKV.Server.Moves
import RaftKV.Totals

/-!
# Replies in order

Each command of a connection is started after the one before was answered, and answered once.
The notes of a connection are exchanges, one for each command answered : it was started, a reply
with its number was handed to `SendReply`, and the reply was sent (`exchanges`). After them a
command may have been started, or its reply may have been handed over and refused, or the error
of an invalid frame was handed over (`Tail`).

The invariant is about one connection at a time (`Talk`). While its session is live, a command
executes exactly if one request of it is on its way : queued, with Raft, or with an owner that
`FlushQueuedWrites` is going to tell. A move changes the talk of one connection; a session that
is not live stays so and is not told anything.
-/

namespace RaftKV

namespace Server

open Totals

/-! ## Transcripts -/

/-- Commands and their replies, as they are noted. -/
def exchanges (answered : List (QueuedCommand × Bytes)) : List Note :=
  (answered.mapIdx fun k e =>
    [Note.started e.1, .handed (some k) e.2, .sent (some k) e.2]).flatten

/-- One more command is started and answered. -/
theorem exchanges_concat (answered : List (QueuedCommand × Bytes)) (command : QueuedCommand)
    (reply : Bytes) : exchanges (answered ++ [(command, reply)]) = exchanges answered ++
      [.started command, .handed (some answered.length) reply,
        .sent (some answered.length) reply] := by
  rw [exchanges, List.mapIdx_concat, List.flatten_append]
  simp [exchanges]

/-- What is noted after the exchanges. The frames are the commands taken from the stream, `rest`
is what is left of it. -/
inductive Tail (frames : List Frame) (rest : Bytes) (answered : List (QueuedCommand × Bytes)) :
    List Note → Prop
  | idle (h : answered.map Prod.fst <+: frames.map Frame.command) : Tail frames rest answered []
  | busy {command : QueuedCommand}
      (h : answered.map Prod.fst ++ [command] <+: frames.map Frame.command) :
    Tail frames rest answered [.started command]
  | refused {command : QueuedCommand} {reply : Bytes}
      (h : answered.map Prod.fst ++ [command] <+: frames.map Frame.command) :
    Tail frames rest answered [.started command, .handed (some answered.length) reply]
  | invalid {reply : Bytes} (h : answered.map Prod.fst = frames.map Frame.command)
      (hrest : (tryParseOne rest).state = .invalid) :
    Tail frames rest answered [.handed none reply]
  | invalidSent {reply : Bytes} (h : answered.map Prod.fst = frames.map Frame.command)
      (hrest : (tryParseOne rest).state = .invalid) :
    Tail frames rest answered [.handed none reply, .sent none reply]

/-- A transcript in order. -/
def Told (t : Transcript) : Prop :=
  ∃ frames rest answered tail, t.stream = frames.flatMap Frame.bytes ++ rest ∧
    t.notes = exchanges answered ++ tail ∧ Tail frames rest answered tail

/-- The commands that were started are those that were answered. -/
theorem started_exchanges (answered : List (QueuedCommand × Bytes)) (stream : Bytes)
    (tail : List Note) : Transcript.started ⟨stream, exchanges answered ++ tail⟩ =
      answered.map Prod.fst ++ Transcript.started ⟨stream, tail⟩ := by
  induction answered using List.reverseRecOn generalizing tail with
  | nil => rfl
  | append_singleton answered e ih =>
    rw [exchanges_concat, List.append_assoc, ih]
    simp [Transcript.started]

/-! ## The talk of a connection -/

/-- The part of a session that the order depends on. -/
structure Core where
  input : CommandBuffer
  queue : SessionCommandQueue
  executing : Bool
  closing : Bool

/-- The part of a session that the order depends on. -/
def core (session : ClientSession) : Core :=
  ⟨session.input, session.queue, session.executing, session.closing⟩

/-- The requests that will be answered : queued writes, those with Raft, and owners. -/
def requests (s : Server) : Multiset Request :=
  ↑(s.writes.map QueuedWrite.request) + ↑s.proposals + ↑(s.reads.map PendingRead.request) +
    ↑((s.flushing.map Flushing.owners).getD [])

/-- The numbers of the commands of a connection that are on their way. -/
def inFlight (s : Server) (id : Name) : Multiset ℕ :=
  (s.requests.filter fun r => r.connection = id).map Request.number

/-- A connection as far as the order is concerned. -/
structure Talk where
  session : Option Core
  link : Link
  transcript : Transcript
  inFlight : Multiset ℕ

/-- Something that happens on the connection. -/
def Talk.note (t : Talk) (n : Note) : Talk :=
  { t with transcript := { t.transcript with notes := t.transcript.notes ++ [n] } }

/-- The session changes. -/
def Talk.setSession (t : Talk) (c : Core) : Talk :=
  { t with session := some c }

/-- The state of the connection changes. -/
def Talk.setLink (t : Talk) (link : Link) : Talk :=
  { t with link := link }

/-- The talk of a connection. -/
def talk (s : Server) (id : Name) : Talk :=
  ⟨(s.sessions.lookup id).map core, (s.connections id).link, s.transcript id, s.inFlight id⟩

/-- The work of a live session : all commands started are answered and none is on its way, or the
last one is executing and on its way. -/
inductive Working (transcript : Transcript) (inFlight : Multiset ℕ) : Bool →
    List (QueuedCommand × Bytes) → List QueuedCommand → Prop
  | idle {answered : List (QueuedCommand × Bytes)} (hnotes : transcript.notes = exchanges answered)
      (hflight : inFlight = 0) :
    Working transcript inFlight false answered (answered.map Prod.fst)
  | busy {answered : List (QueuedCommand × Bytes)} {command : QueuedCommand}
      (hnotes : transcript.notes = exchanges answered ++ [.started command])
      (hflight : inFlight = {answered.length}) :
    Working transcript inFlight true answered (answered.map Prod.fst ++ [command])

/-- A live session : the stream is made of the commands started, those in the queue and the
unread bytes. -/
def Alive (c : Core) (transcript : Transcript) (inFlight : Multiset ℕ) : Prop :=
  ∃ (frames : List Frame) (answered : List (QueuedCommand × Bytes)) (started : List QueuedCommand),
    transcript.stream = frames.flatMap Frame.bytes ++ c.input.unread ∧
    started ++ c.queue.items = frames.map Frame.command ∧ c.queue.Exact ∧
    Working transcript inFlight c.executing answered started

/-- The invariant of a connection, of which it may be known that it is gone. -/
structure Talk.OK (gone : Prop) (t : Talk) : Prop where
  told : Told t.transcript
  fresh : t.link = .connecting → ¬gone ∧ t.session = none ∧ t.transcript = {} ∧ t.inFlight = 0
  alive : ∀ c, t.session = some c → c.closing = false →
    ¬gone ∧ t.link = .connected ∧ Alive c t.transcript t.inFlight

theorem told_new : Told {} :=
  ⟨[], [], [], [], rfl, rfl, .idle List.prefix_rfl⟩

variable {c : Core} {session : ClientSession} {r : Request}

/-- A live session tells what the transcript must. -/
theorem Alive.told {transcript : Transcript} {inFlight : Multiset ℕ}
    (h : Alive c transcript inFlight) : Told transcript := by
  obtain ⟨frames, answered, started, hstream, hstarted, -, hworking⟩ := h
  generalize c.executing = executing at hworking
  cases hworking with
  | idle hnotes _ =>
    exact ⟨frames, _, answered, [], hstream, by rw [hnotes, List.append_nil],
      .idle ⟨_, hstarted⟩⟩
  | busy hnotes _ => exact ⟨frames, _, answered, _, hstream, hnotes, .busy ⟨_, hstarted⟩⟩

/-- Of a closing session only the transcript matters. -/
theorem Talk.OK.dead {gone : Prop} {t : Talk} (htold : Told t.transcript)
    (hlink : t.link ≠ .connecting)
    (hdead : ∀ c, t.session = some c → c.closing = true) : t.OK gone where
  told := htold
  fresh := fun h => absurd h hlink
  alive := fun c hc hclosing => by
    rw [hdead c hc] at hclosing
    cases hclosing

/-- A connected session that is alive. -/
theorem Talk.OK.live {gone : Prop} {t : Talk} (hgone : ¬gone)
    (hsession : t.session = some c) (hlink : t.link = .connected)
    (h : Alive c t.transcript t.inFlight) : t.OK gone where
  told := h.told
  fresh := fun hconnecting => by
    rw [hlink] at hconnecting
    cases hconnecting
  alive := fun c' hc' _ => by
    rw [hsession] at hc'
    obtain rfl := Option.some.inj hc'
    exact ⟨hgone, hlink, h⟩

/-! ## The steps of a live session -/

section Steps

variable {c : Core} {t : Transcript} {flight : Multiset ℕ}

/-- More bytes of the stream are buffered. -/
theorem Alive.receive (h : Alive c t flight) {bytes : Bytes}
    (happend : (c.input.append bytes).1 = true) :
    Alive { c with input := (c.input.append bytes).2 } { t with stream := t.stream ++ bytes }
      flight := by
  obtain ⟨frames, answered, started, hstream, hstarted, hexact, hworking⟩ := h
  refine ⟨frames, answered, started, ?_, hstarted, hexact, ?_⟩
  · dsimp only
    rw [CommandBuffer.unread_append_of_accepted happend, hstream, List.append_assoc]
  dsimp only
  generalize c.executing = executing at hworking ⊢
  cases hworking with
  | idle hnotes hflight => exact .idle hnotes hflight
  | busy hnotes hflight => exact .busy hnotes hflight

/-- Frames move from the buffer to the queue. -/
theorem Alive.drain (h : Alive c t flight) (turns : ℕ) (reading : Bool) :
    Alive { c with
      input := (drainCommands c.input c.queue turns reading).2.1
      queue := (drainCommands c.input c.queue turns reading).2.2 } t flight := by
  cases reading with
  | false => exact h
  | true =>
    obtain ⟨frames, answered, started, hstream, hstarted, hexact, hworking⟩ := h
    obtain ⟨more, hd⟩ := drainCommands_spec c.input hexact turns
    refine ⟨frames ++ more, answered, started, ?_, ?_, hd.exact, hworking⟩
    · rw [hstream, hd.unread, List.flatMap_append, List.append_assoc]
    · dsimp only
      rw [hd.items, ← List.append_assoc, hstarted, List.map_append]

section

variable (h : Alive c t flight) (hidle : c.executing = false)
include h hidle

/-- A drain of an idle session with an empty queue that comes to an invalid frame : every command
before the frame is answered. -/
theorem Alive.invalid
    (hqueue : c.queue.items = []) (hinvalid : (tryParseOne c.input.unread).state = .invalid) :
    ∃ (frames : List Frame) (answered : List (QueuedCommand × Bytes)),
      t.stream = frames.flatMap Frame.bytes ++ c.input.unread ∧
      t.notes = exchanges answered ∧ answered.map Prod.fst = frames.map Frame.command ∧
      (tryParseOne c.input.unread).state = .invalid := by
  obtain ⟨frames, answered, started, hstream, hstarted, -, hworking⟩ := h
  rw [hidle] at hworking
  rw [hqueue, List.append_nil] at hstarted
  cases hworking with
  | idle hnotes _ => exact ⟨frames, answered, hstream, hnotes, hstarted, hinvalid⟩

/-- The next command takes its number. -/
theorem Alive.start {command : QueuedCommand}
    {queue : SessionCommandQueue} (hpop : c.queue.popFront = some (command, queue)) :
    Alive { c with executing := true, queue := queue }
      { t with notes := t.notes ++ [.started command] } {t.started.length} := by
  obtain ⟨frames, answered, started, hstream, hstarted, hexact, hworking⟩ := h
  obtain ⟨hitems, -, hexact'⟩ := hexact.popFront hpop
  rw [hidle] at hworking
  cases hworking with
  | idle hnotes _ =>
    have hlength : t.started.length = answered.length := by
      have hstart := started_exchanges answered t.stream []
      rw [List.append_nil, ← hnotes] at hstart
      rw [show t.started = Transcript.started ⟨t.stream, t.notes⟩ from rfl, hstart]
      simp [Transcript.started]
    refine ⟨frames, answered, answered.map Prod.fst ++ [command], hstream, ?_, hexact',
      .busy ?_ ?_⟩
    · rw [List.append_assoc, List.singleton_append, ← hitems, hstarted]
    · dsimp only
      rw [hnotes]
    · rw [hlength]

/-- While no command executes, none is on its way. -/
theorem Alive.flight_eq_zero : flight = 0 := by
  obtain ⟨_, _, _, -, -, -, hworking⟩ := h
  rw [hidle] at hworking
  cases hworking with
  | idle _ hflight => exact hflight

end

/-- The command that runs is the only one in flight. -/
theorem Alive.answer (h : Alive c t flight) (hbusy : c.executing = true) {number : ℕ}
    (hnumber : number ∈ flight) (reply : Bytes) :
    flight = {number} ∧ Alive { c with executing := false }
      { t with notes := t.notes ++ [.handed (some number) reply, .sent (some number) reply] } 0 ∧
    Told { t with notes := t.notes ++ [.handed (some number) reply] } := by
  obtain ⟨frames, answered, started, hstream, hstarted, hexact, hworking⟩ := h
  rw [hbusy] at hworking
  cases hworking with
  | @busy _ command hnotes hflight =>
    obtain rfl : number = answered.length := by
      rw [hflight] at hnumber
      exact Multiset.mem_singleton.mp hnumber
    refine ⟨hflight, ⟨frames, answered ++ [(command, reply)], _, hstream, ?_, hexact,
      .idle ?_ rfl⟩, frames, _, answered,
      [.started command, .handed (some answered.length) reply], hstream, ?_,
      .refused ⟨_, hstarted⟩⟩
    · rw [List.map_append]
      exact hstarted
    · dsimp only
      rw [exchanges_concat, hnotes, List.append_assoc]
      rfl
    · dsimp only
      rw [hnotes, List.append_assoc]
      rfl

end Steps

/-! ## Changes of one connection -/

variable {flags : Flags} {view : View} {s s' t : Server} {id : Name}

/-- Nothing changes for the other connections. -/
def Elsewhere (id : Name) (s s' : Server) : Prop :=
  ∀ id', id' ≠ id → s'.talk id' = s.talk id'

theorem Elsewhere.trans (h : Elsewhere id s t) (h' : Elsewhere id t s') : Elsewhere id s s' :=
  fun id' hne => (h' id' hne).trans (h id' hne)

theorem talk_subtracts (s : Server) (a b : ℕ) (id : Name) : (s.subtracts a b).talk id = s.talk id :=
  rfl

theorem talk_setInputBytes (s : Server) (n : ℕ) (id : Name) :
    (s.setInputBytes n).talk id = s.talk id := rfl

theorem talk_setOutputBytes (s : Server) (n : ℕ) (id : Name) :
    (s.setOutputBytes n).talk id = s.talk id := rfl

/-- A session is the business of its own connection. -/
theorem elsewhere_modifySession (s : Server) (id : Name) (f : ClientSession → ClientSession) :
    Elsewhere id s (s.modifySession id f) := by
  intro id' hne
  cases hlookup : s.sessions.lookup id with
  | none => rw [modifySession_of_none hlookup]
  | some session =>
    rw [modifySession_of_lookup hlookup, talk, AList.lookup_insert_ne hne]
    rfl

theorem elsewhere_modifyConnection (s : Server) (id : Name) (f : Connection → Connection) :
    Elsewhere id s (s.modifyConnection id f) := by
  intro id' hne
  rw [talk, modifyConnection_ne s f hne]
  rfl

theorem elsewhere_modifyTranscript (s : Server) (id : Name) (f : Transcript → Transcript) :
    Elsewhere id s (s.modifyTranscript id f) := by
  intro id' hne
  rw [talk, modifyTranscript_ne s f hne]
  rfl

/-- What is seen of a changed session. -/
theorem talk_modifySession (h : s.sessions.lookup id = some session)
    (f : ClientSession → ClientSession) :
    (s.modifySession id f).talk id = (s.talk id).setSession (core (f session)) := by
  rw [talk, lookup_modifySession h]
  rfl

/-- A change that the order does not depend on. -/
theorem talk_setFlags (id' : Name) {f : ClientSession → ClientSession}
    (hf : ∀ session, core (f session) = core session) :
    (s.modifySession id f).talk id' = s.talk id' := by
  by_cases hid : id' = id
  · subst hid
    cases hlookup : s.sessions.lookup id' with
    | none => rw [modifySession_of_none hlookup]
    | some session =>
      rw [talk_modifySession hlookup, hf, talk, hlookup]
      rfl
  · exact elsewhere_modifySession s id f id' hid

theorem talk_modifyConnection (f : Connection → Connection) :
    (s.modifyConnection id f).talk id = (s.talk id).setLink (f (s.connections id)).link := by
  rw [talk, modifyConnection_self]
  rfl

theorem talk_setLink (id' : Name) {f : Connection → Connection}
    (hf : ∀ c, (f c).link = c.link) : (s.modifyConnection id f).talk id' = s.talk id' := by
  by_cases hid : id' = id
  · subst hid
    rw [talk_modifyConnection, hf]
    rfl
  · exact elsewhere_modifyConnection s id f id' hid

theorem talk_note (n : Note) : (s.note id n).talk id = (s.talk id).note n := by
  rw [Server.note, talk, modifyTranscript_self]
  rfl

/-! ## Replies -/

theorem talk_accountOutput (s : Server) (id id' : Name) :
    (s.accountOutput id).talk id' = s.talk id' := by
  rw [Server.accountOutput, talk_setOutputBytes, talk_setFlags id' (by exact fun _ => rfl),
    talk_subtracts]

theorem elsewhere_closeClient (s : Server) (id : Name) : Elsewhere id s (s.closeClient id) :=
  (elsewhere_modifySession s id _).trans (elsewhere_modifyConnection _ id _)

/-- A closed client is disconnecting. -/
theorem talk_closeClient (h : s.sessions.lookup id = some session)
    (hup : (s.connections id).up = true) : (s.closeClient id).talk id =
      ((s.talk id).setSession { core session with closing := true }).setLink .disconnecting := by
  rw [Server.closeClient, talk_modifyConnection, talk_modifySession h]
  have hlink : ((s.modifySession id fun session => { session with closing := true }).connections
      id).forceClose.link = .disconnecting := by
    rw [Connection.forceClose, if_pos (by exact hup)]
  rw [hlink]
  rfl

/-- A reply that is sent is noted. -/
theorem talk_send (number : Option ℕ) (reply : Bytes) :
    (send view s id number reply).talk id = (s.talk id).note (.sent number reply) := by
  rw [send, talk_setLink id (by exact fun _ => rfl), talk_note]

theorem elsewhere_send (s : Server) (id : Name) (number : Option ℕ) (reply : Bytes) :
    Elsewhere id s (send view s id number reply) :=
  (elsewhere_modifyTranscript s id _).trans (elsewhere_modifyConnection _ id _)

/-- Two states that differ in nothing the order depends on. -/
structure SameTalk (s s' : Server) : Prop where
  sessions : s'.sessions = s.sessions
  connections : s'.connections = s.connections
  talk : ∀ id, s'.talk id = s.talk id

/-- What `SendReply` does for a live session. -/
theorem sendReply_talk (hlive : s.live id = true) (number : Option ℕ) (reply : Bytes) :
    Elsewhere id s (sendReply view s id number reply) ∧
    ((∃ c, (s.talk id).session = some c ∧ (sendReply view s id number reply).talk id =
        (((s.talk id).note (.handed number reply)).setSession { c with closing := true }).setLink
          .disconnecting) ∨
      (sendReply view s id number reply).talk id =
        ((s.talk id).note (.handed number reply)).note (.sent number reply)) := by
  obtain ⟨session, hlookup, hclosing, hlink⟩ := lookup_of_live hlive
  have hsession : (s.talk id).session = some (core session) := by
    rw [talk, hlookup]
    rfl
  have hup : (s.connections id).up = true := by
    rw [Connection.up, hlink]
    rfl
  rw [sendReply]
  dsimp only
  rw [if_neg (not_not.mpr (by exact hlive))]
  -- accounting changes nothing that matters here
  have hlookup' := lookup_accountOutput (s := s.note id (.handed number reply)) hlookup
  have htalk : ((s.note id (.handed number reply)).accountOutput id).talk id =
      (s.talk id).note (.handed number reply) := by
    rw [talk_accountOutput, talk_note]
  have helse : Elsewhere id s ((s.note id (.handed number reply)).accountOutput id) :=
    (elsewhere_modifyTranscript s id _).trans fun id' _ => talk_accountOutput _ id id'
  have hup' : (((s.note id (.handed number reply)).accountOutput id).connections id).up = true :=
    hup
  generalize (s.note id (.handed number reply)).accountOutput id = u at hlookup' htalk helse hup' ⊢
  -- nor do the comparisons with the limits
  have hsame : ∀ a b a' b' : ℕ, SameTalk u ((u.subtracts a b).subtracts a' b') :=
    fun _ _ _ _ => ⟨rfl, rfl, fun _ => rfl⟩
  have hw := hsame kMaxClientOutput (u.session id).accountedOutput kMaxTotalOutput u.outputBytes
  generalize (u.subtracts kMaxClientOutput (u.session id).accountedOutput).subtracts kMaxTotalOutput
    u.outputBytes = w at hw ⊢
  rw [← hw.sessions] at hlookup'
  rw [← hw.connections] at hup'
  have helsew : Elsewhere id s w := helse.trans fun id' _ => hw.talk id'
  rw [← hw.talk id] at htalk
  split_ifs with hlimit
  · refine ⟨helsew.trans (elsewhere_closeClient w id), .inl ⟨core session, hsession, ?_⟩⟩
    rw [talk_closeClient hlookup' hup', htalk]
    rfl
  · refine ⟨(helsew.trans (elsewhere_send w id number reply)).trans fun id' _ =>
      talk_accountOutput _ id id', .inr ?_⟩
    rw [talk_accountOutput, talk_send, htalk]

theorem talk_unwait (s : Server) (id id' : Name) (told : Bool) :
    (s.unwait id told).talk id' = s.talk id' := by
  rw [Server.unwait]
  split_ifs
  · exact talk_setFlags id' fun _ => rfl
  · rfl

theorem elsewhere_finish (s : Server) (id : Name) : Elsewhere id s (s.finish id) := by
  rw [Server.finish]
  split_ifs
  · exact (elsewhere_modifySession s id _).trans (elsewhere_modifyConnection _ id _)
  · exact elsewhere_modifySession s id _

/-- A finished command makes room for the next. -/
theorem talk_finish (h : (s.talk id).session = some c) :
    (s.finish id).talk id = (s.talk id).setSession { c with executing := false } := by
  obtain ⟨session, hlookup, rfl⟩ := Option.map_eq_some_iff.mp h
  have hdone := talk_modifySession hlookup fun session => { session with executing := false }
  rw [Server.finish]
  split_ifs
  · rw [talk_setLink id (by exact fun _ => rfl), hdone]
    rfl
  · rw [hdone]
    rfl

theorem talk_setFlusher (s : Server) (flusher : Flusher) (id : Name) :
    (s.setFlusher flusher).talk id = s.talk id := rfl

theorem talk_scheduleFlush (h : scheduleFlush flags view s = .ok s') (id : Name) :
    s'.talk id = s.talk id := by
  rcases scheduleFlush_eq h with ⟨-, rfl⟩ | ⟨-, elapsed, flusher, -, rfl⟩
  · rfl
  · exact talk_setFlusher s flusher id

theorem talk_scheduleDrain (s : Server) (id id' : Name) :
    (s.scheduleDrain id).talk id' = s.talk id' := by
  rw [Server.scheduleDrain]
  dsimp only
  split_ifs
  · rfl
  have hflags : (s.modifySession id fun session =>
      { session with drainScheduled := true }).talk id' = s.talk id' :=
    talk_setFlags id' fun _ => rfl
  rw [← hflags]
  rfl

theorem talk_wake (s : Server) (id id' : Name) : (s.wake id).talk id' = s.talk id' := by
  have hflags : (s.modifySession id fun session =>
      { session with drainScheduled := false }).talk id' = s.talk id' :=
    talk_setFlags id' fun _ => rfl
  rw [← hflags]
  rfl

theorem talk_setFlushing {index : ℤ} (h : s.flushing = some ⟨[], index⟩) (id : Name) :
    (s.setFlushing none).talk id = s.talk id := by
  simp only [talk, inFlight, requests, setFlushing, h, Option.map_some, Option.map_none,
    Option.getD_some, Option.getD_none]

/-! ## Requests on their way -/

/-- The numbers of the requests of a connection. -/
def numbersOf (id : Name) (m : Multiset Request) : Multiset ℕ :=
  (m.filter fun r => r.connection = id).map Request.number

theorem inFlight_eq (s : Server) (id : Name) : s.inFlight id = numbersOf id s.requests := rfl

@[simp] theorem numbersOf_zero (id : Name) : numbersOf id 0 = 0 := rfl

theorem numbersOf_add (id : Name) (m m' : Multiset Request) :
    numbersOf id (m + m') = numbersOf id m + numbersOf id m' := by
  rw [numbersOf, Multiset.filter_add, Multiset.map_add]
  rfl

/-- A request counts for its own connection, -/
theorem numbersOf_cons_self (r : Request) (m : Multiset Request) :
    numbersOf r.connection (r ::ₘ m) = r.number ::ₘ numbersOf r.connection m := by
  simp [numbersOf]

/-- and for no other. -/
theorem numbersOf_cons_ne (h : id ≠ r.connection) (m : Multiset Request) :
    numbersOf id (r ::ₘ m) = numbersOf id m := by
  simp [numbersOf, h.symm]

theorem coe_eq_cons_eraseIdx {α : Type*} {l : List α} {i : ℕ} {a : α} (h : l[i]? = some a) :
    (l : Multiset α) = a ::ₘ (l.eraseIdx i : Multiset α) := by
  obtain ⟨hi, rfl⟩ := List.getElem?_eq_some_iff.mp h
  exact Multiset.coe_eq_coe.mpr (List.getElem_cons_eraseIdx_perm hi).symm

/-- A callback that fires takes one request away. -/
theorem Takes.requests (h : s.Takes r t) : s.requests = r ::ₘ t.requests := by
  cases h with
  | proposal i hget =>
    rw [Server.requests, coe_eq_cons_eraseIdx hget]
    simp only [Server.requests, dropProposal, Multiset.cons_add, Multiset.add_cons]
  | @read i r hget =>
    have hmap : (s.reads.map PendingRead.request)[i]? = some r.request := by
      rw [List.getElem?_map, hget]
      rfl
    rw [Server.requests, coe_eq_cons_eraseIdx hmap, List.eraseIdx_map]
    simp only [Server.requests, dropRead, Multiset.cons_add, Multiset.add_cons]
  | owner hflushing =>
    simp only [Server.requests, setFlushing, hflushing, Option.map_some, Option.getD_some,
      ← Multiset.cons_coe, Multiset.add_cons]

/-- A state with one more request on its way. -/
structure OneMore (r : Request) (s s' : Server) : Prop where
  requests : s'.requests = r ::ₘ s.requests
  rest : ∀ id, s'.talk id = { s.talk id with inFlight := s'.inFlight id }

/-- A request of a connection concerns no other. -/
theorem OneMore.elsewhere (h : OneMore r s s') : Elsewhere r.connection s s' := by
  intro id hne
  have hflight : s'.inFlight id = s.inFlight id := by
    rw [inFlight_eq s', h.requests, numbersOf_cons_ne hne]
    rfl
  rw [h.rest id, hflight]
  rfl

theorem OneMore.inFlight_self (h : OneMore r s s') :
    s'.inFlight r.connection = r.number ::ₘ s.inFlight r.connection := by
  rw [inFlight_eq, h.requests, numbersOf_cons_self]
  rfl

theorem Takes.oneMore (h : s.Takes r t) : OneMore r t s :=
  ⟨h.requests, fun _ => by cases h <;> rfl⟩

/-- A write waits in the queue of the flusher. -/
theorem oneMore_enqueueWrite (s : Server) (r : Request) (command : Bytes) :
    OneMore r s (enqueueWrite view s r command) where
  requests := by
    simp only [enqueueWrite, Server.requests, modifySession, List.map_append, List.map_cons,
      List.map_nil, ← Multiset.coe_add, Multiset.coe_singleton]
    rw [← Multiset.singleton_add]
    abel
  rest := fun id => by
    have hflags : (s.modifySession r.connection fun session =>
        { session with waiting := true }).talk id = s.talk id := talk_setFlags id fun _ => rfl
    rw [← hflags]
    rfl

/-- A read waits in the node. -/
theorem oneMore_requestReadIndex (s : Server) (r : PendingRead) :
    OneMore r.request s (s.requestReadIndex r) where
  requests := by
    simp only [requestReadIndex, Server.requests, List.map_append, List.map_cons,
      List.map_nil, ← Multiset.coe_add, Multiset.coe_singleton]
    rw [← Multiset.singleton_add]
    abel
  rest := fun _ => rfl

/-! ## Moves -/

theorem talk_start (h : s.sessions.lookup id = some session)
    (command : QueuedCommand) (queue : SessionCommandQueue) : (s.start id command queue).talk id =
      ((s.talk id).setSession { core session with executing := true, queue := queue }).note
        (.started command) := by
  rw [Server.start, talk_note, talk_modifySession h]
  rfl

theorem elsewhere_start (s : Server) (id : Name) (command : QueuedCommand)
    (queue : SessionCommandQueue) : Elsewhere id s (s.start id command queue) :=
  (elsewhere_modifySession s id _).trans (elsewhere_modifyTranscript _ id _)

/-- The talk of every connection is in order, and some connections are gone. -/
def InOrder (gone : Name → Prop) (s : Server) : Prop :=
  ∀ id, (s.talk id).OK (gone id)

variable {gone : Name → Prop}

/-- It is enough to look at the connection that changed. -/
theorem InOrder.of_elsewhere (h : s.InOrder gone) (helse : Elsewhere id s s')
    (hid : (s'.talk id).OK (gone id)) :
    s'.InOrder gone := by
  intro id'
  by_cases hne : id' = id
  · exact hne ▸ hid
  · rw [helse id' hne]
    exact h id'

theorem InOrder.of_talk (h : s.InOrder gone) (htalk : ∀ id, s'.talk id = s.talk id) :
    s'.InOrder gone :=
  fun id => (htalk id).symm ▸ h id

/-- A live connection has a session in order. -/
theorem InOrder.alive (h : s.InOrder gone) (hlive : s.live id = true) :
    ∃ session, s.sessions.lookup id = some session ∧ session.closing = false ∧
      ¬gone id ∧ (s.connections id).link = .connected ∧
      Alive (core session) (s.transcript id) (s.inFlight id) := by
  obtain ⟨session, hlookup, hclosing, -⟩ := lookup_of_live hlive
  refine ⟨session, hlookup, hclosing, (h id).alive (core session) ?_ hclosing⟩
  rw [talk, hlookup]
  rfl

theorem InOrder.link_ne (h : s.InOrder gone)
    (hlookup : s.sessions.lookup id = some session) : (s.connections id).link ≠ .connecting := by
  intro hlink
  have hnone := ((h id).fresh hlink).2.1
  rw [talk, hlookup] at hnone
  cases hnone

theorem InOrder.live (h : s.InOrder gone)
    (hlookup : s.sessions.lookup id = some session) (hclosing : session.closing = false) :
    s.live id = true := by
  refine live_of_lookup hlookup hclosing ((h id).alive (core session) ?_ hclosing).2.1
  rw [talk, hlookup]
  rfl

/-- The reply to the command that runs leaves the talk in order. -/
theorem Alive.reply {gone : Prop} {c : Core} {v : Talk} {number : ℕ} {reply : Bytes}
    (hgone : ¬gone) (h : Alive c v.transcript {number}) (hbusy : c.executing = true)
    (hsession : v.session = some c) (hlink : v.link = .connected) (hflight : v.inFlight = 0)
    (hsent : (∃ c, v.session = some c ∧ (s.talk id) =
        ((v.note (.handed (some number) reply)).setSession { c with closing := true }).setLink
          .disconnecting) ∨
      s.talk id = (v.note (.handed (some number) reply)).note (.sent (some number) reply)) :
    ((s.finish id).talk id).OK gone := by
  obtain ⟨-, halive, htold⟩ := h.answer hbusy (Multiset.mem_singleton_self number) reply
  rcases hsent with ⟨c', hc', htalk⟩ | htalk
  · obtain rfl : c = c' := Option.some.inj (hsession.symm.trans hc')
    rw [talk_finish (by rw [htalk]; rfl), htalk]
    refine .dead htold (by simp [Talk.setSession, Talk.setLink]) fun c hc => ?_
    obtain rfl := Option.some.inj hc
    rfl
  rw [talk_finish (by rw [htalk]; exact hsession), htalk]
  refine .live hgone rfl hlink ?_
  have hnotes := halive
  rw [← hflight] at hnotes
  simpa [Talk.note, Talk.setSession] using hnotes

/-- A command that is answered at once. -/
theorem InOrder.answer (h : s.InOrder gone) {session : ClientSession} {command : QueuedCommand}
    {queue : SessionCommandQueue} (hidle : s.Idle id session)
    (hpop : session.queue.popFront = some (command, queue)) (ns : Option Bytes) (counted : ℕ)
    (reply : Bytes) : ((sendReply view (((s.start id command queue).setNs id ns).subtracts
      kMaxQueuedWriteBytes counted) id (some (s.nextNumber id)) reply).finish id).InOrder gone := by
  obtain ⟨session', hlookup, hclosing, hgone, hlink, halive⟩ := h.alive hidle.live
  obtain rfl : session = session' := Option.some.inj (hidle.lookup.symm.trans hlookup)
  have hstart := talk_start hlookup command queue
  have hlive : (s.start id command queue).live id = true :=
    live_of_lookup (lookup_modifySession hlookup _) hclosing hlink
  have helse := elsewhere_start s id command queue
  -- the namespace and the limits do not matter
  have hu : ∀ n, SameTalk (s.start id command queue)
      (((s.start id command queue).setNs id ns).subtracts kMaxQueuedWriteBytes n) :=
    fun _ => ⟨rfl, rfl, fun _ => rfl⟩
  have hlive' : ∀ n, (((s.start id command queue).setNs id ns).subtracts
      kMaxQueuedWriteBytes n).live id = true := fun _ => hlive
  specialize hu counted
  specialize hlive' counted
  generalize ((s.start id command queue).setNs id ns).subtracts kMaxQueuedWriteBytes counted = u
    at hu hlive' ⊢
  obtain ⟨hsends, hsent⟩ := @sendReply_talk view u id hlive' (some (s.nextNumber id)) reply
  have hidleFlight : s.inFlight id = 0 := halive.flight_eq_zero hidle.executing
  rw [hu.talk id, hstart] at hsent
  refine h.of_elsewhere (((helse.trans fun id' _ => hu.talk id').trans hsends).trans
    (elsewhere_finish _ id)) ?_
  exact Alive.reply hgone (halive.start hidle.executing hpop) rfl rfl hlink hidleFlight hsent

/-- A command whose answer comes by a callback. -/
theorem InOrder.wait (h : s.InOrder gone) {command : QueuedCommand}
    {queue : SessionCommandQueue} (hidle : s.Idle id session)
    (hpop : session.queue.popFront = some (command, queue))
    (htalk : ∀ id', t.talk id' = (s.start id command queue).talk id')
    (hmore : OneMore ⟨id, s.nextNumber id⟩ t s') : s'.InOrder gone := by
  obtain ⟨session', hlookup, hclosing, hgone, hlink, halive⟩ := h.alive hidle.live
  obtain rfl : session = session' := Option.some.inj (hidle.lookup.symm.trans hlookup)
  refine h.of_elsewhere (((elsewhere_start s id command queue).trans fun id' _ =>
    htalk id').trans hmore.elsewhere) ?_
  have hflight : t.inFlight id = 0 :=
    (congrArg Talk.inFlight (htalk id)).trans (halive.flight_eq_zero hidle.executing)
  have hself := hmore.inFlight_self
  rw [hflight] at hself
  rw [hmore.rest id, htalk id, talk_start hlookup command queue, hself]
  exact .live hgone rfl hlink (halive.start hidle.executing hpop)

theorem live_congr (h : s'.talk id = s.talk id) : s'.live id = s.live id := by
  have hsession : (s'.sessions.lookup id).map core = (s.sessions.lookup id).map core :=
    congrArg Talk.session h
  have hlink : (s'.connections id).link = (s.connections id).link := congrArg Talk.link h
  rw [live, live, Connection.connected, Connection.connected, hlink]
  cases hlookup : s.sessions.lookup id with
  | none =>
    rw [hlookup] at hsession
    rw [Option.map_eq_none_iff.mp hsession]
  | some session =>
    rw [hlookup] at hsession
    obtain ⟨session', hlookup', hcore⟩ := Option.map_eq_some_iff.mp hsession
    have hclosing : session'.closing = session.closing := congrArg Core.closing hcore
    simp only [hlookup', hclosing]

/-- A callback answers the command that waits for it. -/
theorem InOrder.deliver (h : s.InOrder gone) {r : Request} (before after : Bool) (reply : Bytes)
    (htakes : s.Takes r t) (hlive : s.live r.connection = true) :
    (((sendReply view (t.unwait r.connection before) r.connection
      (some r.number) reply).unwait r.connection after).finish r.connection).InOrder gone := by
  obtain ⟨session, hlookup, hclosing, hgone, hlink, halive⟩ := h.alive hlive
  have hmore := htakes.oneMore
  -- a command is on its way, so the session executes and it is the only one
  have hmem : r.number ∈ s.inFlight r.connection := by
    rw [hmore.inFlight_self]
    exact Multiset.mem_cons_self ..
  have hbusy : (core session).executing = true := by
    by_contra hidle
    rw [halive.flight_eq_zero (by simpa using hidle)] at hmem
    exact Multiset.notMem_zero _ hmem
  have hone := (halive.answer hbusy hmem reply).1
  have hzero : t.inFlight r.connection = 0 := by
    rw [hmore.inFlight_self, ← Multiset.cons_zero, Multiset.cons_inj_right] at hone
    exact hone
  have hunwait := talk_unwait t r.connection r.connection before
  have hlive' : (t.unwait r.connection before).live r.connection = true := by
    rw [live_congr hunwait, htakes.live, hlive]
  obtain ⟨hsends, hsent⟩ := @sendReply_talk view _ _ hlive' (some r.number) reply
  rw [hunwait, ← talk_unwait (sendReply view _ r.connection _ _) r.connection r.connection
    after] at hsent
  have htalk := hmore.rest r.connection
  have helse : Elsewhere r.connection s t := fun id' hne => (hmore.elsewhere id' hne).symm
  refine h.of_elsewhere ((((helse.trans fun id' _ => talk_unwait t r.connection id' before).trans
    hsends).trans fun id' _ => talk_unwait _ r.connection id' after).trans
    (elsewhere_finish _ _)) ?_
  have htranscript : (t.talk r.connection).transcript = s.transcript r.connection :=
    (congrArg Talk.transcript htalk).symm
  have hsession : (t.talk r.connection).session = some (core session) := by
    rw [← congrArg Talk.session htalk, talk, hlookup]
    rfl
  refine Alive.reply hgone ?_ hbusy hsession
    ((congrArg Talk.link htalk).symm.trans hlink) hzero hsent
  rw [htranscript, ← hone]
  exact halive

/-- A session that is not live is not told anything. -/
theorem InOrder.abandon (h : s.InOrder gone) (htakes : s.Takes r t)
    (hdead : s.live r.connection = false) : (t.abandon r.connection).InOrder gone := by
  have hmore := htakes.oneMore
  refine h.of_elsewhere (Elsewhere.trans (fun id' hne => (hmore.elsewhere id' hne).symm)
    (elsewhere_modifySession t _ _)) ?_
  have htalk := hmore.rest r.connection
  have hlink : (t.talk r.connection).link ≠ .connecting := by
    intro hlink
    have hzero := ((h r.connection).fresh ((congrArg Talk.link htalk).trans hlink)).2.2.2
    rw [show (s.talk r.connection).inFlight = s.inFlight r.connection from rfl,
      hmore.inFlight_self] at hzero
    exact Multiset.cons_ne_zero hzero
  have htold : Told (t.talk r.connection).transcript := by
    rw [← congrArg Talk.transcript htalk]
    exact (h r.connection).told
  rw [Server.abandon]
  cases hlookup : t.sessions.lookup r.connection with
  | none =>
    rw [modifySession_of_none hlookup]
    refine .dead htold hlink fun c hc => ?_
    rw [talk, hlookup] at hc
    cases hc
  | some session =>
    rw [talk_modifySession hlookup]
    refine .dead htold hlink fun c hc => ?_
    obtain rfl := Option.some.inj hc
    by_contra hclosing
    have hlookup' : (s.sessions.lookup r.connection).map core = some (core session) := by
      rw [show (s.sessions.lookup r.connection).map core = _ from congrArg Talk.session htalk,
        talk, hlookup]
      rfl
    obtain ⟨session', hs, hcore⟩ := Option.map_eq_some_iff.mp hlookup'
    have hlive := h.live hs ((congrArg Core.closing hcore).trans (Bool.eq_false_iff.mpr hclosing))
    rw [hdead] at hlive
    cases hlive

/-! ## Connections and buffers -/

/-- A new connection starts with an empty transcript. -/
theorem InOrder.connect (h : s.InOrder gone) (hlink : (s.connections id).link = .connecting) :
    (onConnect flags s id).InOrder gone := by
  obtain ⟨hgone, hnone, htranscript, hflight⟩ := (h id).fresh hlink
  have helse := elsewhere_modifyConnection s id fun c => { c with link := .connected }
  have htold := (h id).told
  rw [onConnect]
  split_ifs
  · refine h.of_elsewhere (helse.trans (elsewhere_modifyConnection _ id _)) ?_
    rw [talk_modifyConnection, modifyConnection_self, talk_modifyConnection]
    refine .dead htold (by simp [Talk.setLink, Connection.forceClose, Connection.up]) ?_
    intro c hc
    rw [show (s.talk id).session = some c from hc] at hnone
    cases hnone
  refine h.of_elsewhere (helse.trans fun id' hne => ?_) ?_
  · rw [talk, AList.lookup_insert_ne hne]
    rfl
  rw [talk, AList.lookup_insert, modifyConnection_self]
  refine .live hgone rfl rfl ⟨[], [], [], ?_, rfl, .empty, .idle ?_ hflight⟩
  · exact congrArg Transcript.stream htranscript
  · exact congrArg Transcript.notes htranscript

theorem lookup_onDisconnect (s : Server) (id id' : Name) : (s.onDisconnect id).sessions.lookup id' =
      if id' = id then none else s.sessions.lookup id' := by
  rw [onDisconnect]
  dsimp only [modifyConnection, setNs]
  cases hlookup : s.sessions.lookup id with
  | none =>
    split_ifs with hid
    · rw [hid, hlookup]
    · rfl
  | some session =>
    dsimp only
    split_ifs with hid
    · rw [hid, AList.lookup_erase]
    · rw [AList.lookup_erase_ne hid]

/-- Nothing but the session and the state of the connection matters here. -/
theorem rest_onDisconnect (s : Server) (id : Name) :
    (s.onDisconnect id).connections =
        (s.modifyConnection id fun c => { c with link := .disconnected }).connections ∧
      (s.onDisconnect id).transcript = s.transcript ∧
      (s.onDisconnect id).requests = s.requests := by
  rw [onDisconnect]
  dsimp only [modifyConnection, setNs]
  cases s.sessions.lookup id <;> exact ⟨rfl, rfl, rfl⟩

theorem talk_onDisconnect (s : Server) (id : Name) :
    (s.onDisconnect id).talk id = ⟨none, .disconnected, s.transcript id, s.inFlight id⟩ := by
  obtain ⟨hconnections, htranscript, hrequests⟩ := rest_onDisconnect s id
  rw [talk, lookup_onDisconnect, if_pos rfl, hconnections, modifyConnection_self, htranscript,
    inFlight_eq, hrequests]
  rfl

theorem elsewhere_onDisconnect (s : Server) (id : Name) : Elsewhere id s (s.onDisconnect id) := by
  intro id' hne
  obtain ⟨hconnections, htranscript, hrequests⟩ := rest_onDisconnect s id
  rw [talk, lookup_onDisconnect, if_neg hne, hconnections, modifyConnection_ne _ _ hne, htranscript,
    inFlight_eq, hrequests]
  rfl

/-- A connection that is down says nothing more. -/
theorem InOrder.disconnect (h : s.InOrder gone) (id : Name) : (s.onDisconnect id).InOrder gone := by
  refine h.of_elsewhere (elsewhere_onDisconnect s id) ?_
  rw [talk_onDisconnect]
  exact .dead (h id).told (by simp) fun c hc => by cases hc

theorem InOrder.receive (h : s.InOrder gone) {bytes : Bytes}
    (hlookup : s.sessions.lookup id = some session) (hclosing : session.closing = false)
    (happend : (session.input.append bytes).1 = true) : (s.receive id bytes).InOrder gone := by
  obtain ⟨session', hlookup', -, hgone, hlink, halive⟩ := h.alive (h.live hlookup hclosing)
  obtain rfl : session = session' := Option.some.inj (hlookup.symm.trans hlookup')
  have helse := elsewhere_modifyTranscript s id fun t => { t with stream := t.stream ++ bytes }
  rw [Server.receive]
  refine h.of_elsewhere (helse.trans ((elsewhere_modifySession _ id _).trans fun id' _ =>
    talk_setInputBytes _ _ id')) ?_
  rw [talk_setInputBytes, talk_modifySession (by exact hlookup), talk, modifyTranscript_self]
  exact .live hgone rfl hlink (halive.receive happend)

/-- Draining parses what is buffered, if the session is live. -/
theorem talk_drainInput (hlookup : s.sessions.lookup id = some session) :
    ∃ reading, (reading = true → s.live id = true) ∧
      (s.drainInput id).1 =
        (drainCommands session.input session.queue kMaxCommandsPerTurn reading).1 ∧
      (s.drainInput id).2.talk id = (s.talk id).setSession { core session with
        input := (drainCommands session.input session.queue kMaxCommandsPerTurn reading).2.1
        queue := (drainCommands session.input session.queue kMaxCommandsPerTurn reading).2.2 } := by
  refine ⟨(s.connections id).connected && !session.closing && !session.drainScheduled, ?_, ?_, ?_⟩
  · intro hreading
    simp only [Bool.and_eq_true, Bool.not_eq_true', Connection.connected,
      decide_eq_true_eq] at hreading
    exact live_of_lookup hlookup hreading.1.2 hreading.1.1
  · rw [Server.drainInput, session_of_lookup hlookup]
  rw [Server.drainInput, session_of_lookup hlookup]
  dsimp only
  rw [talk_setInputBytes, talk_modifySession (by exact hlookup), talk_subtracts]
  rfl

theorem elsewhere_drainInput (s : Server) (id : Name) : Elsewhere id s (s.drainInput id).2 := by
  rw [Server.drainInput]
  dsimp only
  intro id' hne
  rw [talk_setInputBytes, elsewhere_modifySession _ id _ id' hne, talk_subtracts]

theorem InOrder.drainInput (h : s.InOrder gone)
    (hlookup : s.sessions.lookup id = some session) : (s.drainInput id).2.InOrder gone := by
  obtain ⟨reading, -, -, htalk⟩ := talk_drainInput hlookup
  refine h.of_elsewhere (elsewhere_drainInput s id) ?_
  rw [htalk]
  cases hclosing : session.closing with
  | false =>
    obtain ⟨session', hlookup', -, hgone, hlink, halive⟩ := h.alive (h.live hlookup hclosing)
    obtain rfl : session = session' := Option.some.inj (hlookup.symm.trans hlookup')
    exact .live hgone rfl hlink (halive.drain _ reading)
  | true =>
    refine .dead (h id).told (h.link_ne hlookup) fun c hc => ?_
    obtain rfl := Option.some.inj hc
    exact hclosing

/-- Parsing stops at an invalid frame, behind all that is queued. -/
theorem Alive.drain_invalid {v : Transcript} {flight : Multiset ℕ} {turns : ℕ}
    {reading : Bool} (h : Alive c v flight)
    (hinvalid : (drainCommands c.input c.queue turns reading).1.invalid = true) :
    reading = true ∧ (tryParseOne (drainCommands c.input c.queue turns
      reading).2.1.unread).state = .invalid := by
  cases reading with
  | false => cases hinvalid
  | true =>
    obtain ⟨frames, -, -, -, -, hexact, -⟩ := h
    obtain ⟨more, hd⟩ := drainCommands_spec c.input hexact turns
    refine ⟨rfl, ?_⟩
    have hends := hd.ends
    generalize (drainCommands c.input c.queue turns true).1 = out at hinvalid hends
    cases hends with
    | turns _ => cases hinvalid
    | full _ => cases hinvalid
    | needMore _ => cases hinvalid
    | invalid hstate => exact hstate

/-- A closing connection has told what it must. -/
theorem InOrder.close (h : s.InOrder gone) (helse : Elsewhere id s t)
    (hsession : (t.talk id).session = some c) (htold : Told (t.talk id).transcript)
    (hlink : (t.talk id).link ≠ .connecting) :
    ((t.modifySession id fun session => { session with closing := true }).modifyConnection id
      fun c => c.shutdown.forceClose).InOrder gone := by
  obtain ⟨session, hlookup, rfl⟩ := Option.map_eq_some_iff.mp hsession
  refine h.of_elsewhere ((helse.trans (elsewhere_modifySession t id _)).trans
    (elsewhere_modifyConnection _ id _)) ?_
  rw [talk_modifyConnection, talk_modifySession hlookup]
  refine .dead htold ?_ fun c hc => ?_
  · have hclose : ∀ c : Connection, c.link ≠ .connecting →
        c.shutdown.forceClose.link ≠ .connecting := by
      intro c hc
      rw [Connection.forceClose, Connection.shutdown]
      split_ifs <;> first | exact hc | simp
    exact hclose (t.connections id) hlink
  · obtain rfl := Option.some.inj hc
    rfl

/-- An invalid frame is answered when nothing else waits. -/
theorem InOrder.reject (h : s.InOrder gone) (hlive : s.live id = true)
    (hinvalid : (tryParseOne (s.session id).input.unread).state = .invalid) (error : String) :
    (rejectFrame view s id error).InOrder gone := by
  obtain ⟨session, hlookup, hclosing, hgone, hlink, halive⟩ := h.alive hlive
  rw [session_of_lookup hlookup] at hinvalid
  rw [rejectFrame, session_of_lookup hlookup]
  -- the connection stops reading, which does not matter
  have hstop : ∀ id', (s.modifyConnection id fun c => { c with reading := false }).talk id' =
      s.talk id' := fun id' => talk_setLink id' fun _ => rfl
  have hlive' := (live_congr (hstop id)).trans hlive
  have hsession : (s.talk id).session = some (core session) := by
    rw [talk, hlookup]
    rfl
  generalize (s.modifyConnection id fun c => { c with reading := false }) = u at hstop hlive' ⊢
  split_ifs with hreply
  · simp only [shouldReplyInvalidFrame, Bool.and_eq_true, Bool.not_eq_true',
      List.isEmpty_iff] at hreply
    obtain ⟨frames, answered, hstream, hnotes, hall, hrest⟩ :=
      halive.invalid hreply.1.1 hreply.2 hinvalid
    obtain ⟨helse, hsent⟩ := @sendReply_talk view u id hlive' none (errorReply (ascii error))
    rw [hstop id] at hsent
    have helse' := Elsewhere.trans (fun id' _ => hstop id') helse
    rcases hsent with ⟨c, -, htalk⟩ | htalk
    · refine h.close helse' (by rw [htalk]; rfl) ?_ ?_
      · rw [htalk]
        refine ⟨frames, _, answered, [.handed none (errorReply (ascii error))], hstream, ?_,
          .invalid hall hrest⟩
        exact congrArg (· ++ _) hnotes
      · rw [htalk]
        simp [Talk.setLink]
    · refine h.close helse' (by rw [htalk]; exact hsession) ?_ ?_
      · rw [htalk]
        refine ⟨frames, _, answered, [.handed none (errorReply (ascii error)),
          .sent none (errorReply (ascii error))], hstream, ?_, .invalidSent hall hrest⟩
        simp only [Talk.note, List.append_assoc, List.cons_append, List.nil_append]
        exact congrArg (· ++ _) hnotes
      · rw [htalk]
        exact h.link_ne hlookup
  · refine h.close (fun id' _ => hstop id') (by rw [hstop]; exact hsession) ?_ ?_
    · rw [hstop]
      exact halive.told
    · rw [hstop]
      exact h.link_ne hlookup

theorem InOrder.rejectFrame (h : s.InOrder gone) (hlookup : s.sessions.lookup id = some session)
    (hinvalid : (s.drainInput id).1.invalid = true) (error : String) :
    (Server.rejectFrame view (s.drainInput id).2 id error).InOrder gone := by
  have hdrained := h.drainInput hlookup
  obtain ⟨reading, hreading, hout, htalk⟩ := talk_drainInput hlookup
  rw [hout] at hinvalid
  have hsession := congrArg Talk.session htalk
  obtain ⟨session', hlookup', hcore⟩ := Option.map_eq_some_iff.mp hsession
  have hread : reading = true := by
    cases reading with
    | false => cases hinvalid
    | true => rfl
  obtain ⟨session₀, hlookup₀, hclosing, -, -, halive⟩ := h.alive (hreading hread)
  obtain rfl : session = session₀ := Option.some.inj (hlookup.symm.trans hlookup₀)
  refine hdrained.reject (hdrained.live hlookup' ?_) ?_ error
  · exact (congrArg Core.closing hcore).trans hclosing
  · rw [session_of_lookup hlookup', show session'.input = _ from congrArg Core.input hcore]
    exact (halive.drain_invalid hinvalid).2

/-! ## Flushes -/

/-- The writes that a flush has taken so far from the queue of `s` : those of live sessions are
kept. -/
structure Collected (s : Server) (owners : List QueuedWrite) (t : Server) : Prop where
  rest : ∀ id, t.talk id = { s.talk id with inFlight := t.inFlight id }
  live : ∀ id, t.live id = s.live id
  flushing : t.flushing = s.flushing
  le : ∀ id, t.inFlight id + numbersOf id (owners.map QueuedWrite.request) ≤ s.inFlight id
  eq : ∀ id, s.live id = true →
    t.inFlight id + numbersOf id (owners.map QueuedWrite.request) = s.inFlight id

section PopWrite

variable {write : QueuedWrite} {writes : List QueuedWrite}

section

variable (s : Server) (write : QueuedWrite) (writes : List QueuedWrite)

/-- A write that is taken from the queue changes neither connections nor what Raft keeps. -/
theorem popWrite_same : (s.popWrite write writes).sessions = s.sessions ∧
    (s.popWrite write writes).connections = s.connections ∧
    (s.popWrite write writes).transcript = s.transcript ∧
    (s.popWrite write writes).proposals = s.proposals ∧ (s.popWrite write writes).reads = s.reads ∧
    (s.popWrite write writes).flushing = s.flushing ∧
    (s.popWrite write writes).writes = writes := by
  rw [popWrite]
  exact ⟨rfl, rfl, rfl, rfl, rfl, rfl, rfl⟩

theorem talk_popWrite (id : Name) : (s.popWrite write writes).talk id =
      { s.talk id with inFlight := (s.popWrite write writes).inFlight id } := by
  obtain ⟨hsessions, hconnections, htranscript, -⟩ := popWrite_same s write writes
  rw [talk, hsessions, hconnections, htranscript]
  rfl

theorem live_popWrite (id : Name) : (s.popWrite write writes).live id = s.live id := by
  obtain ⟨hsessions, hconnections, -⟩ := popWrite_same s write writes
  rw [live, live, hsessions, hconnections]

theorem flushing_popWrite : (s.popWrite write writes).flushing = s.flushing :=
  (popWrite_same s write writes).2.2.2.2.2.1

end

/-- A write that is taken from the queue is still on its way. -/
theorem requests_popWrite (h : s.writes = write :: writes) :
    s.requests = {write.request} + (s.popWrite write writes).requests := by
  obtain ⟨-, -, -, hproposals, hreads, hflushing, hwrites⟩ := popWrite_same s write writes
  rw [Server.requests, Server.requests, hproposals, hreads, hflushing, hwrites, h, List.map_cons,
    ← Multiset.cons_coe, ← Multiset.singleton_add]
  simp only [add_assoc]

theorem inFlight_popWrite (h : s.writes = write :: writes) (id : Name) :
    s.inFlight id = numbersOf id {write.request} + (s.popWrite write writes).inFlight id := by
  rw [inFlight_eq, requests_popWrite h, numbersOf_add, inFlight_eq]

theorem numbersOf_concat (id : Name) (owners : List QueuedWrite) (write : QueuedWrite) :
    numbersOf id ((owners ++ [write]).map QueuedWrite.request : List Request) =
      numbersOf id (owners.map QueuedWrite.request : List Request) +
        numbersOf id {write.request} := by
  rw [List.map_append, ← Multiset.coe_add, numbersOf_add]
  rfl

/-- A write of a live connection joins the batch, -/
theorem Collected.keep {owners : List QueuedWrite} (h : s.Collected owners t)
    (hwrites : t.writes = write :: writes) :
    s.Collected (owners ++ [write]) (t.popWrite write writes) := by
  have hsame : ∀ id, (t.popWrite write writes).inFlight id +
      numbersOf id ((owners ++ [write]).map QueuedWrite.request : List Request) =
      t.inFlight id + numbersOf id (owners.map QueuedWrite.request : List Request) := by
    intro id
    rw [numbersOf_concat, inFlight_popWrite hwrites]
    abel
  refine ⟨fun id => ?_, fun id => ?_, ?_, fun id => ?_, fun id hlive => ?_⟩
  · rw [talk_popWrite, h.rest]
  · rw [live_popWrite, h.live]
  · rw [flushing_popWrite, h.flushing]
  · rw [hsame]
    exact h.le id
  · rw [hsame]
    exact h.eq id hlive

/-- and one of a dead connection is dropped. -/
theorem Collected.drop {owners : List QueuedWrite} (h : s.Collected owners t)
    (hwrites : t.writes = write :: writes) (hdead : t.live write.request.connection = false) :
    s.Collected owners (t.popWrite write writes) := by
  refine ⟨fun id => ?_, fun id => ?_, ?_, fun id => ?_, fun id hlive => ?_⟩
  · rw [talk_popWrite, h.rest]
  · rw [live_popWrite, h.live]
  · rw [flushing_popWrite, h.flushing]
  · refine le_trans ?_ (h.le id)
    rw [inFlight_popWrite hwrites, add_assoc]
    exact le_add_self
  have hne : id ≠ write.request.connection := by
    rintro rfl
    rw [h.live, hlive] at hdead
    cases hdead
  rw [← h.eq id hlive, inFlight_popWrite hwrites,
    show ({write.request} : Multiset Request) = write.request ::ₘ 0 from rfl,
    numbersOf_cons_ne hne, numbersOf_zero, zero_add]

end PopWrite

theorem collected_setFlusher (s : Server) (flusher : Flusher) :
    s.Collected [] (s.setFlusher flusher) :=
  ⟨fun _ => rfl, fun _ => rfl, rfl, fun _ => le_of_eq (add_zero _), fun _ _ => add_zero _⟩

/-- By induction on the writes that are collected. -/
theorem collectWrites_collected {n : ℕ} {flusher : Flusher} {owners : List QueuedWrite}
    (h : collectWrites n [] 0 (s.setFlusher flusher) = (owners, t)) : s.Collected owners t := by
  obtain ⟨-, -, hcollected⟩ := collectWrites_induction
    (P := fun _ owners _ t => s.Collected owners t)
    (fun _ _ _ _ hc => ⟨hc.rest, hc.live, hc.flushing, hc.le, hc.eq⟩)
    (fun _ _ _ _ _ _ hc hwrites _ _ => hc.keep hwrites)
    (fun _ _ _ _ _ _ hc hwrites hdead => hc.drop hwrites hdead)
    n (collected_setFlusher s flusher) h
  exact hcollected

/-- Requests of sessions that are not live may be dropped. -/
theorem InOrder.shrink (h : s.InOrder gone)
    (hrest : ∀ id, s'.talk id = { s.talk id with inFlight := s'.inFlight id })
    (hle : ∀ id, s'.inFlight id ≤ s.inFlight id)
    (heq : ∀ id, s.live id = true → s'.inFlight id = s.inFlight id) : s'.InOrder gone := by
  intro id
  rw [hrest]
  refine ⟨(h id).told, fun hlink => ?_, fun c hc hclosing => ?_⟩
  · obtain ⟨hgone, hnone, htranscript, hflight⟩ := (h id).fresh hlink
    exact ⟨hgone, hnone, htranscript, nonpos_iff_eq_zero.mp (hflight ▸ hle id)⟩
  · obtain ⟨session, hlookup, rfl⟩ := Option.map_eq_some_iff.mp hc
    rw [heq id (h.live hlookup hclosing)]
    exact (h id).alive _ hc hclosing

theorem inFlight_proposeBatch (h : t.flushing = none) (owners : List QueuedWrite) (index : ℤ)
    (id : Name) : (t.proposeBatch owners index).inFlight id =
      t.inFlight id + numbersOf id (owners.map QueuedWrite.request : List Request) := by
  rw [inFlight_eq, inFlight_eq, ← numbersOf_add]
  refine congrArg (numbersOf id) ?_
  rw [proposeBatch]
  split_ifs
  · simp [Server.requests, h]
  · simp only [Server.requests, h, Option.map_some, Option.map_none, Option.getD_some,
      Option.getD_none, ← Multiset.coe_add, Multiset.coe_nil]
    abel

theorem talk_proposeBatch (t : Server) (owners : List QueuedWrite) (index : ℤ) (id : Name) :
    (t.proposeBatch owners index).talk id =
      { t.talk id with inFlight := (t.proposeBatch owners index).inFlight id } := by
  rw [proposeBatch]
  split_ifs <;> rfl

/-- A batch that is proposed waits for its callbacks. -/
theorem Collected.proposeBatch {owners : List QueuedWrite} (h : s.InOrder gone)
    (hc : s.Collected owners t) (hidle : s.flushing = none) (index : ℤ) :
    (t.proposeBatch owners index).InOrder gone := by
  have hflight := inFlight_proposeBatch (hc.flushing.trans hidle) owners index
  refine h.shrink (fun id => ?_) (fun id => ?_) fun id hlive => ?_
  · rw [talk_proposeBatch, hc.rest]
  · rw [hflight]
    exact hc.le id
  · rw [hflight]
    exact hc.eq id hlive

theorem Collected.none (h : s.InOrder gone) (hc : s.Collected [] t) : t.InOrder gone :=
  h.shrink hc.rest (fun id => (le_of_eq (add_zero _).symm).trans (hc.le id))
    fun id hlive => (add_zero _).symm.trans (hc.eq id hlive)

theorem InOrder.subtracts (h : s.InOrder gone) (a b : ℕ) : (s.subtracts a b).InOrder gone :=
  h.of_talk fun id => talk_subtracts s a b id

theorem InOrder.closeClient (h : s.InOrder gone)
    (hlookup : s.sessions.lookup id = some session) (hclosing : session.closing = false) :
    (s.closeClient id).InOrder gone := by
  obtain ⟨_, -, -, -, hlink, -⟩ := h.alive (h.live hlookup hclosing)
  refine h.of_elsewhere (elsewhere_closeClient s id) ?_
  rw [talk_closeClient hlookup (by simp [Connection.up, hlink])]
  refine .dead (h id).told (by simp [Talk.setLink]) fun c hc => ?_
  obtain rfl := Option.some.inj hc
  rfl

/-! ## Runs -/

/-- Every move keeps the talks in order. -/
theorem InOrder.move (h : s.InOrder gone) (hmove : Move flags view s s') : s'.InOrder gone := by
  cases hmove with
  | connect id hlink => exact h.connect hlink
  | disconnect id hup => exact h.disconnect id
  | stray id hnone hup =>
    refine h.of_elsewhere (elsewhere_modifyConnection s id _) ?_
    rw [talk_modifyConnection]
    refine .dead (h id).told ?_ fun c hc => ?_
    · simp [Talk.setLink, Connection.forceClose, hup]
    · replace hc : (s.sessions.lookup id).map core = some c := hc
      rw [hnone] at hc
      cases hc
  | overload hlookup hclosing => exact (h.subtracts _ _).closeClient hlookup hclosing
  | receive hlookup hclosing hfits happend =>
    exact (h.subtracts _ _).receive hlookup hclosing happend
  | wake id => exact h.of_talk fun id' => talk_wake s id id'
  | drain hlookup hvalid => exact h.drainInput hlookup
  | reject hlookup hinvalid => exact h.rejectFrame hlookup hinvalid _
  | stopRead id => exact h.of_talk fun id' => talk_setLink id' fun _ => rfl
  | scheduleDrain hlookup => exact h.of_talk fun id' => talk_scheduleDrain s _ id'
  | answer ns counted reply hidle hpop hcounted => exact h.answer hidle hpop ns counted reply
  | @submit id _ command queue text _ hidle hpop hsize hcount hbytes hflush =>
    have hqueued : (enqueueWrite view ((s.start id command queue).subtracts kMaxQueuedWriteBytes
        s.queuedWriteBytes) ⟨id, s.nextNumber id⟩ text).InOrder gone :=
      h.wait hidle hpop (talk_subtracts _ _ _) (oneMore_enqueueWrite _ _ _)
    exact hqueued.of_talk fun id => talk_scheduleFlush hflush id
  | @register id _ command queue key hidle hpop =>
    exact h.wait hidle hpop (fun _ => rfl)
      (oneMore_requestReadIndex (s.start id command queue) ⟨key, ⟨id, s.nextNumber id⟩⟩)
  | deliver before after reply htakes hlive => exact h.deliver before after reply htakes hlive
  | abandon htakes hdead => exact h.abandon htakes hdead
  | fire token hmem => exact h.of_talk fun id => talk_setFlusher s _ id
  | stale hmem hstale => exact h.of_talk fun id => talk_setFlusher s _ id
  | flush index hidle hmem hcurrent hcollect hne =>
    exact (collectWrites_collected hcollect).proposeBatch h hidle index
  | flushNone hidle hmem hcurrent hcollect hflush =>
    exact ((collectWrites_collected hcollect).none h).of_talk fun id => talk_scheduleFlush hflush id
  | endFlush hflushing hflush =>
    have hended : (s.setFlushing none).InOrder gone :=
      h.of_talk fun id => talk_setFlushing hflushing id
    exact hended.of_talk fun id => talk_scheduleFlush hflush id
  | written id output hle => exact h.of_talk fun id' => talk_setLink id' fun _ => rfl
  | writeComplete hlookup => exact h.of_talk fun id' => talk_accountOutput s _ id'

theorem inOrder_new : ({} : Server).InOrder fun _ => False :=
  fun _ => ⟨told_new, fun _ => ⟨not_false, rfl, rfl, rfl⟩, fun _ hc => by cases hc⟩

/-- **Replies are in order, one for each command.** After any events, for every connection : the
bytes it has sent are commands, the first ones of the stream, and a rest. What happened on it are
exchanges, the `k`-th of which starts the `k`-th command, hands a reply to it over and sends that
reply; they may be followed by the start of the next command, by the start and a reply that is
refused, or, if every command was answered and what follows is an invalid frame, by an error. -/
theorem replies_in_order (flags : Flags) (events : List (View × Event)) (s : Server)
    (h : run flags {} events = .ok s) (id : Name) :
    ∃ (frames : List Frame) (rest : Bytes) (answered : List (QueuedCommand × Bytes))
      (tail : List Note),
      (s.transcript id).stream = frames.flatMap Frame.bytes ++ rest ∧
      (respFramer.parse () (s.transcript id).stream).values =
        frames.map Frame.args ++ (respFramer.parse () rest).values ∧
      (s.transcript id).notes = exchanges answered ++ tail ∧
      Tail frames rest answered tail := by
  have hinOrder : s.InOrder fun _ => False :=
    run_invariant (fun h hmove => h.move hmove) inOrder_new h
  obtain ⟨frames, rest, answered, tail, hstream, hnotes, htail⟩ := (hinOrder id).told
  refine ⟨frames, rest, answered, tail, hstream, ?_, hnotes, htail⟩
  rw [show (s.transcript id).stream = _ from hstream, Session.parse_frames]
  rfl

/-- A leader whose store has `v` under every key. -/
def leading : View := { isLeader := true, get := fun _ => some (ascii "v") }

/-- A client pipelines `SET k v` and `GET k` in one read, and the read is linearizable. -/
def pipelined : List (View × Event) :=
  [(leading, .connect 1),
    (leading, .message 1
      (ascii "*3\r\n$3\r\nSET\r\n$1\r\nk\r\n$1\r\nv\r\n*2\r\n$3\r\nGET\r\n$1\r\nk\r\n")),
    (leading, .timer 1), (leading, .flush 1 1), (leading, .proposalDone 0 (ascii "+OK\r\n")),
    (leading, .readDone 0 true [])]

/-- The two commands with their replies. -/
def pipelinedAnswers : List (QueuedCommand × Bytes) :=
  [(⟨.write, [ascii "SET", ascii "k", ascii "v"], [], 27⟩, ascii "+OK\r\n"),
    (⟨.read, [ascii "GET", ascii "k"], [], 20⟩, ascii "$1\r\nv\r\n")]

/-- The read starts once the write has been answered, and its own answer is the last. -/
theorem replies_in_order_pipelined : ∃ s, run { linearizableReads := true } {} pipelined = .ok s ∧
    (s.transcript 1).notes = exchanges pipelinedAnswers ∧ Told (s.transcript 1) := by
  obtain ⟨s, hok, hvalues⟩ := exists_ok_of_any
    (x := run { linearizableReads := true } {} pipelined)
    (p := fun s => (s.transcript 1).notes = exchanges pipelinedAnswers) (by decide +kernel)
  obtain ⟨frames, rest, answered, tail, hstream, -, hnotes, htail⟩ :=
    replies_in_order { linearizableReads := true } pipelined s hok 1
  exact ⟨s, hok, by simpa using hvalues, frames, rest, answered, tail, hstream, hnotes, htail⟩

end Server

end RaftKV
