import RaftKV.CommandBuffer

/-!
# The queue of a session

A connection parses commands into a queue and executes them one after the other.
`DrainCommands` takes commands from the buffer until its turn is over, the queue is full, more
bytes are needed or a frame is invalid (`DrainEnd`). `Enqueue` upper-cases the verb, classifies
the command and counts its bytes.

A session is played by any calls of `Append`, `DrainCommands` and `PopFront`. The frames that
were taken from the stream are those of the commands popped and queued, in order, and the bytes
of the stream are theirs and the unread ones (`Tally`).
-/

namespace RaftKV

/-! ## Classification -/

/-- `CommandClass::Type`. -/
inductive CommandType where
  | read
  | write
  | error
  deriving DecidableEq

/-- `CommandClass`. -/
structure CommandClass where
  type : CommandType
  error : Bytes := []
  deriving DecidableEq

/-- The error for a known command with the wrong number of arguments. -/
def wrongArguments (op : Bytes) : Bytes :=
  ascii "ERR wrong number of arguments for '" ++ op ++ ascii "' command"

/-- `ClassifyCommand`. -/
def classifyCommand (args : List Bytes) : CommandClass :=
  match args with
  | [] => ⟨.error, ascii "ERR empty command"⟩
  | op :: _ =>
    if op = ascii "SET" ∧ args.length = 3 then ⟨.write, []⟩
    else if op = ascii "DEL" ∧ args.length = 2 then ⟨.write, []⟩
    else if op = ascii "IDEMP" then
      match parseIdempotentCommand args with
      | .error error => ⟨.error, error⟩
      | .ok _ => ⟨.write, []⟩
    else if op = ascii "PING" ∨ op = ascii "SELECT" ∨ op = ascii "GET" ∨ op = ascii "INFO" then
      if (op = ascii "PING" ∧ args.length ≠ 1) ∨ (op = ascii "SELECT" ∧ args.length ≠ 2) ∨
          (op = ascii "GET" ∧ args.length ≠ 2) ∨ (op = ascii "INFO" ∧ args.length ≠ 1) then
        ⟨.error, wrongArguments op⟩
      else ⟨.read, []⟩
    else if op = ascii "SET" ∨ op = ascii "DEL" then ⟨.error, wrongArguments op⟩
    else ⟨.error, ascii "ERR unknown command '" ++ op ++ ascii "'"⟩

/-! ## The queue -/

/-- `SessionQueueLimits::kMaxCommands`. -/
def kMaxSessionCommands : ℕ := 1000

/-- `SessionQueueLimits::kMaxBytes`. -/
def kMaxSessionBytes : ℕ := 4 * 1024 * 1024

/-- `SessionQueueLimits::kMaxCommandsPerTurn`. -/
def kMaxCommandsPerTurn : ℕ := 128

/-- `SessionQueueLimits::AccountedBytes`. -/
def accountedBytes (consumed : ℕ) (args : List Bytes) : ℕ :=
  let retained := (args.map List.length).sum
  if retained < consumed then consumed else retained

/-- `QueuedCommand`. -/
structure QueuedCommand where
  type : CommandType := .error
  args : List Bytes := []
  errorMessage : Bytes := []
  bytes : ℕ := 0
  deriving DecidableEq

/-- `SessionCommandQueue`. -/
structure SessionCommandQueue where
  items : List QueuedCommand := []
  queuedBytes : ℕ := 0
  deriving DecidableEq

/-- The arguments with the verb in upper case. -/
def upperVerb : List Bytes → List Bytes
  | [] => []
  | verb :: args => upperCommand verb :: args

/-- The command `Enqueue` builds. -/
def queuedCommand (args : List Bytes) (consumed : ℕ) : QueuedCommand where
  type := (classifyCommand (upperVerb args)).type
  args := upperVerb args
  errorMessage := (classifyCommand (upperVerb args)).error
  bytes := accountedBytes consumed (upperVerb args)

namespace SessionCommandQueue

/-- `SessionCommandQueue::IsFull`. -/
def isFull (q : SessionCommandQueue) : Bool :=
  kMaxSessionCommands ≤ q.items.length || kMaxSessionBytes ≤ q.queuedBytes

/-- `SessionCommandQueue::Enqueue`. -/
def enqueue (q : SessionCommandQueue) (args : List Bytes) (consumed : ℕ) :
    Bool × SessionCommandQueue :=
  if q.isFull then (false, q)
  else
    let command := queuedCommand args consumed
    (true, ⟨q.items ++ [command], (q.queuedBytes + command.bytes) % 2 ^ 64⟩)

/-- `SessionCommandQueue::PopFront`, of a queue that has a front. -/
def popFront (q : SessionCommandQueue) : Option (QueuedCommand × SessionCommandQueue) :=
  match q.items with
  | [] => none
  | command :: items => some (command, ⟨items, sizeSub q.queuedBytes command.bytes⟩)

/-- The bytes of the commands in the queue are counted, and there are not too many. -/
structure Exact (q : SessionCommandQueue) : Prop where
  bytes : q.queuedBytes = (q.items.map QueuedCommand.bytes).sum
  below : q.queuedBytes < kMaxSessionBytes + kMaxCommandBytes
  count : q.items.length ≤ kMaxSessionCommands

end SessionCommandQueue

/-- `DrainOutcome`. -/
structure DrainOutcome where
  stopRead : Bool := false
  invalid : Bool := false
  invalidError : String := ""
  enqueued : ℕ := 0
  consumedBytes : ℕ := 0
  deriving DecidableEq

/-- The loop of `DrainCommands`, for the turns that are left. -/
def drainLoop : ℕ → CommandBuffer → SessionCommandQueue → DrainOutcome →
    DrainOutcome × CommandBuffer × SessionCommandQueue
  | 0, input, queue, out => (out, input, queue)
  | turns + 1, input, queue, out =>
    if queue.isFull then ({ out with stopRead := true }, input, queue)
    else
      let parsed := input.next.1
      let input := input.next.2
      match parsed.state with
      | .needMore => (out, input, queue)
      | .invalid =>
        ({ out with stopRead := true, invalid := true, invalidError := parsed.error }, input, queue)
      | .complete =>
        let admitted := queue.enqueue parsed.args parsed.consumed
        if admitted.1 then
          drainLoop turns input admitted.2 { out with
            consumedBytes := out.consumedBytes + parsed.consumed
            enqueued := out.enqueued + 1 }
        else ({ out with stopRead := true }, input, admitted.2)

/-- `DrainCommands`. -/
def drainCommands (input : CommandBuffer) (queue : SessionCommandQueue) (maxPerTurn : ℕ)
    (keepReading : Bool) : DrainOutcome × CommandBuffer × SessionCommandQueue :=
  if keepReading then drainLoop maxPerTurn input queue {} else ({}, input, queue)

/-! ## The bytes of a command -/

theorem length_upperVerb (args : List Bytes) :
    (upperVerb args).map List.length = args.map List.length := by
  cases args with
  | nil => rfl
  | cons verb args => simp [upperVerb, upperCommand]

variable {args : List Bytes} {b : Bytes} {queue : SessionCommandQueue}

theorem Bulks.sum_le {pos : ℕ} (h : Bulks pos args b) : (args.map List.length).sum ≤ b.length := by
  induction h with
  | nil => exact le_rfl
  | cons hheader hfits hrest ih =>
    simp only [List.map_cons, List.sum_cons, List.length_append]
    omega

theorem Bulks.length_le {pos : ℕ} (h : Bulks pos args b)
    (hpos : pos ≤ kMaxCommandBytes) : pos + b.length ≤ kMaxCommandBytes := by
  induction h with
  | nil => exact hpos
  | cons hheader hfits hrest ih =>
    have := ih hfits
    simp only [List.length_append, List.length_cons, List.length_nil]
    omega

/-- A command takes at least the bytes of its arguments, and at most the limit. -/
theorem Sentence.length (h : Sentence args b) :
    (args.map List.length).sum ≤ b.length ∧ b.length ≤ kMaxCommandBytes ∧ 0 < b.length := by
  obtain ⟨-, -, header, rest, rfl, hheader, hbulks⟩ := h
  have hlen := hheader.length_le
  have hmax : kMaxCommandBytes = 1048576 := rfl
  have hsum := hbulks.sum_le
  have hle := hbulks.length_le (by omega)
  rw [List.length_append]
  omega

theorem Sentence.bytes (h : Sentence args b) : (queuedCommand args b.length).bytes = b.length := by
  have hsum := h.length.1
  rw [queuedCommand, accountedBytes, length_upperVerb]
  dsimp only
  split_ifs
  · rfl
  · omega

/-- A command in the bytes it was sent in. -/
structure Frame where
  args : List Bytes
  bytes : Bytes
  sentence : Sentence args bytes

/-- The command a frame is queued as. -/
def Frame.command (f : Frame) : QueuedCommand :=
  queuedCommand f.args f.bytes.length

theorem Frame.command_bytes (f : Frame) : f.command.bytes = f.bytes.length :=
  f.sentence.bytes

/-- A complete command is a frame at the front of the unread bytes. -/
theorem CommandBuffer.next_complete {b : CommandBuffer} (h : b.next.1.state = .complete) :
    ∃ f : Frame, f.args = b.next.1.args ∧ f.bytes.length = b.next.1.consumed ∧
      b.unread = f.bytes ++ b.next.2.unread := by
  rw [next_fst] at h ⊢
  obtain ⟨hle, hsentence⟩ := tryParseOne_complete_iff.mp (tryParseOne_complete h)
  refine ⟨⟨_, _, hsentence⟩, rfl, ?_, ?_⟩
  · rw [List.length_take, min_eq_left hle]
  · rw [unread_next, if_pos h, List.take_append_drop]

namespace SessionCommandQueue

theorem Exact.empty : Exact {} where
  bytes := rfl
  below := by decide
  count := Nat.zero_le _

variable {q : SessionCommandQueue}

theorem not_full (h : ¬q.isFull = true) :
    q.items.length < kMaxSessionCommands ∧ q.queuedBytes < kMaxSessionBytes := by
  simpa [isFull] using h

theorem enqueue_of_not_full (h : ¬q.isFull = true) (args : List Bytes)
    (consumed : ℕ) : (q.enqueue args consumed).1 = true := by
  rw [enqueue, if_neg h]

theorem enqueue_frame (h : ¬q.isFull = true) (f : Frame) : q.enqueue f.args f.bytes.length =
      (true, ⟨q.items ++ [f.command], (q.queuedBytes + f.command.bytes) % 2 ^ 64⟩) := by
  rw [enqueue, if_neg h]
  rfl

theorem Exact.enqueue (hq : q.Exact) (h : ¬q.isFull = true) (f : Frame) :
    (q.enqueue f.args f.bytes.length).2.Exact := by
  obtain ⟨hcount, hbytes⟩ := not_full h
  have hframe := f.sentence.length.2.1
  have hmax : kMaxCommandBytes = 1048576 := rfl
  have hsession : kMaxSessionBytes = 4194304 := rfl
  have hsum := hq.bytes
  rw [enqueue_frame h, f.command_bytes, Nat.mod_eq_of_lt (by omega)]
  refine ⟨?_, ?_, ?_⟩
  · simp [hsum, f.command_bytes]
  · dsimp only
    omega
  · simpa using hcount

theorem Exact.le_queuedBytes (hq : q.Exact) {command : QueuedCommand}
    (h : command ∈ q.items) : command.bytes ≤ q.queuedBytes := by
  rw [hq.bytes]
  exact List.single_le_sum (by simp) _ (List.mem_map_of_mem h)

theorem Exact.popFront {q' : SessionCommandQueue} {command : QueuedCommand} (hq : q.Exact)
    (h : q.popFront = some (command, q')) :
    q.items = command :: q'.items ∧ q'.queuedBytes = q.queuedBytes - command.bytes ∧ q'.Exact := by
  rw [SessionCommandQueue.popFront] at h
  cases hitems : q.items with
  | nil => simp [hitems] at h
  | cons first items =>
    rw [hitems] at h
    obtain ⟨rfl, rfl⟩ := Prod.mk.inj (Option.some.inj h)
    have hle : first.bytes ≤ q.queuedBytes := hq.le_queuedBytes (by simp [hitems])
    have hbelow := hq.below
    have hmax : kMaxCommandBytes = 1048576 := rfl
    have hsession : kMaxSessionBytes = 4194304 := rfl
    have hsub : sizeSub q.queuedBytes first.bytes = q.queuedBytes - first.bytes :=
      sizeSub_of_le hle (by omega)
    refine ⟨rfl, hsub, ?_, ?_, ?_⟩
    · have hsum := hq.bytes
      rw [hitems, List.map_cons, List.sum_cons] at hsum
      dsimp only
      omega
    · dsimp only
      omega
    have hcount := hq.count
    rw [hitems, List.length_cons] at hcount
    dsimp only
    omega

end SessionCommandQueue

/-! ## A drain -/

/-- Where a drain stops : its turns are used up, the queue is full, the bytes left are the start
of a command, or of none. -/
inductive DrainEnd (usedUp : Prop) (input : CommandBuffer) (queue : SessionCommandQueue) :
    DrainOutcome → Prop
  | turns {enqueued consumedBytes : ℕ} (h : usedUp) :
    DrainEnd usedUp input queue ⟨false, false, "", enqueued, consumedBytes⟩
  | full {enqueued consumedBytes : ℕ} (h : queue.isFull = true) :
    DrainEnd usedUp input queue ⟨true, false, "", enqueued, consumedBytes⟩
  | needMore {enqueued consumedBytes : ℕ} (h : (tryParseOne input.unread).state = .needMore) :
    DrainEnd usedUp input queue ⟨false, false, "", enqueued, consumedBytes⟩
  | invalid {enqueued consumedBytes : ℕ} (h : (tryParseOne input.unread).state = .invalid) :
    DrainEnd usedUp input queue
      ⟨true, true, (tryParseOne input.unread).error, enqueued, consumedBytes⟩

/-- What a drain does : it takes some frames from the front of the unread bytes and queues them. -/
structure Drained (turns : ℕ) (input : CommandBuffer) (queue : SessionCommandQueue)
    (result : DrainOutcome × CommandBuffer × SessionCommandQueue) (frames : List Frame) : Prop where
  count : frames.length ≤ turns
  unread : input.unread = frames.flatMap Frame.bytes ++ result.2.1.unread
  items : result.2.2.items = queue.items ++ frames.map Frame.command
  consumed : result.1.consumedBytes = (frames.flatMap Frame.bytes).length
  enqueued : result.1.enqueued = frames.length
  exact : result.2.2.Exact
  ends : DrainEnd (frames.length = turns) result.2.1 result.2.2 result.1

/-- The counters of an outcome moved on. -/
def DrainOutcome.plus (out : DrainOutcome) (enqueued consumedBytes : ℕ) : DrainOutcome :=
  { out with
    enqueued := enqueued + out.enqueued
    consumedBytes := consumedBytes + out.consumedBytes }

/-- The loop adds to the counters it starts with. -/
theorem drainLoop_plus (turns : ℕ) (input : CommandBuffer) (queue : SessionCommandQueue)
    (out : DrainOutcome) (e c : ℕ) : drainLoop turns input queue (out.plus e c) =
      ((drainLoop turns input queue out).1.plus e c, (drainLoop turns input queue out).2) := by
  induction turns generalizing input queue out with
  | zero => rfl
  | succ turns ih =>
    rw [drainLoop, drainLoop]
    split_ifs with hfull
    · rfl
    dsimp only
    cases input.next.1.state with
    | needMore => rfl
    | invalid => rfl
    | complete =>
      dsimp only
      split_ifs with hadmitted
      · rw [← ih]
        simp [DrainOutcome.plus, Nat.add_assoc]
      · rfl

theorem DrainEnd.plus {usedUp : Prop} {input : CommandBuffer}
    {out : DrainOutcome} (h : DrainEnd usedUp input queue out) {usedUp' : Prop}
    (hused : usedUp → usedUp') (e c : ℕ) : DrainEnd usedUp' input queue (out.plus e c) := by
  cases h with
  | turns h => exact .turns (hused h)
  | full h => exact .full h
  | needMore h => exact .needMore h
  | invalid h => exact .invalid h

theorem drainLoop_spec (turns : ℕ) (input : CommandBuffer) (hq : queue.Exact) :
    ∃ frames, Drained turns input queue (drainLoop turns input queue {}) frames := by
  induction turns generalizing input queue with
  | zero => exact ⟨[], le_rfl, rfl, by simp [drainLoop], rfl, rfl, hq, .turns rfl⟩
  | succ turns ih =>
    rw [drainLoop]
    by_cases hfull : queue.isFull = true
    · rw [if_pos hfull]
      exact ⟨[], Nat.zero_le _, rfl, by simp, rfl, rfl, hq, .full hfull⟩
    rw [if_neg hfull]
    dsimp only
    cases hstate : input.next.1.state with
    | needMore =>
      rw [CommandBuffer.next_of_not_complete (by simp [hstate])]
      rw [CommandBuffer.next_fst] at hstate
      exact ⟨[], Nat.zero_le _, rfl, by simp, rfl, rfl, hq, .needMore hstate⟩
    | invalid =>
      rw [CommandBuffer.next_of_not_complete (by simp [hstate])]
      rw [CommandBuffer.next_fst] at hstate
      exact ⟨[], Nat.zero_le _, rfl, by simp, rfl, rfl, hq, .invalid hstate⟩
    | complete =>
      obtain ⟨f, hargs, hlen, hunread⟩ := CommandBuffer.next_complete hstate
      rw [← hargs, ← hlen, if_pos (SessionCommandQueue.enqueue_of_not_full hfull _ _)]
      obtain ⟨frames, hdrained⟩ := ih input.next.2 (hq.enqueue hfull f)
      have hplus := drainLoop_plus turns input.next.2
        (queue.enqueue f.args f.bytes.length).2 {} 1 f.bytes.length
      refine ⟨f :: frames, ?_⟩
      rw [show ({ consumedBytes := ({} : DrainOutcome).consumedBytes + f.bytes.length
                  enqueued := ({} : DrainOutcome).enqueued + 1 } : DrainOutcome) =
        ({} : DrainOutcome).plus 1 f.bytes.length by simp [DrainOutcome.plus], hplus]
      refine ⟨?_, ?_, ?_, ?_, ?_, hdrained.exact, ?_⟩
      · simpa using hdrained.count
      · rw [hunread, hdrained.unread, List.flatMap_cons, List.append_assoc]
      · rw [hdrained.items, SessionCommandQueue.enqueue_frame hfull]
        simp
      · simp [DrainOutcome.plus, hdrained.consumed]
      · simp [DrainOutcome.plus, hdrained.enqueued]
        omega
      · exact hdrained.ends.plus (by simp) _ _

theorem drainCommands_spec (input : CommandBuffer) (hq : queue.Exact) (maxPerTurn : ℕ) :
    ∃ frames, Drained maxPerTurn input queue (drainCommands input queue maxPerTurn true) frames :=
  drainLoop_spec maxPerTurn input hq

theorem drainCommands_false (input : CommandBuffer) (queue : SessionCommandQueue)
    (maxPerTurn : ℕ) : drainCommands input queue maxPerTurn false = ({}, input, queue) := rfl

theorem drainCommands_full (input : CommandBuffer)
    (h : queue.isFull = true) (maxPerTurn : ℕ) (keepReading : Bool) :
    (drainCommands input queue maxPerTurn keepReading).2 = (input, queue) := by
  cases keepReading with
  | false => rfl
  | true =>
    cases maxPerTurn with
    | zero => rfl
    | succ turns =>
      show (drainLoop (turns + 1) input queue {}).2 = _
      rw [drainLoop, if_pos h]

/-! ## A session -/

/-- A call on the buffer or the queue of a session. -/
inductive SessionOp where
  | append (chunk : Bytes)
  | drain (maxPerTurn : ℕ) (keepReading : Bool)
  | pop

/-- The buffer and the queue of a session. The stream is what the buffer has accepted; the bytes
that the drains have counted as consumed and the commands popped are added up. -/
structure Session where
  input : CommandBuffer := .empty
  queue : SessionCommandQueue := {}
  stream : Bytes := []
  consumed : ℕ := 0
  popped : List QueuedCommand := []

namespace Session

/-- The session after a call. -/
def after (s : Session) : SessionOp → Session
  | .append chunk => { s with
      input := (s.input.append chunk).2
      stream := if (s.input.append chunk).1 then s.stream ++ chunk else s.stream }
  | .drain maxPerTurn keepReading =>
    let drained := drainCommands s.input s.queue maxPerTurn keepReading
    { s with
      input := drained.2.1
      queue := drained.2.2
      consumed := s.consumed + drained.1.consumedBytes }
  | .pop =>
    match s.queue.popFront with
    | none => s
    | some (command, queue) => { s with queue := queue, popped := s.popped ++ [command] }

/-- The session after some calls. -/
def play (s : Session) (ops : List SessionOp) : Session :=
  ops.foldl after s

/-- The frames taken from the stream of a session : they are the commands popped and queued, and
with the unread bytes they make up the stream. -/
structure Tally (s : Session) (frames : List Frame) : Prop where
  stream : s.stream = frames.flatMap Frame.bytes ++ s.input.unread
  commands : s.popped ++ s.queue.items = frames.map Frame.command
  consumed : s.consumed = (frames.flatMap Frame.bytes).length
  exact : s.queue.Exact

theorem Tally.after {s : Session} {frames : List Frame} (h : s.Tally frames) (op : SessionOp) :
    ∃ more, (s.after op).Tally (frames ++ more) := by
  cases op with
  | append chunk =>
    refine ⟨[], ?_, by simpa [Session.after] using h.commands,
      by simpa [Session.after] using h.consumed, h.exact⟩
    simp only [Session.after, List.append_nil]
    split_ifs with haccepted
    · rw [CommandBuffer.unread_append_of_accepted haccepted, h.stream, List.append_assoc]
    · rw [CommandBuffer.append_of_rejected (by simpa using haccepted), h.stream]
  | drain maxPerTurn keepReading =>
    cases keepReading with
    | false => exact ⟨[], by simpa [Session.after, drainCommands_false] using h⟩
    | true =>
      obtain ⟨more, hd⟩ := drainCommands_spec s.input h.exact maxPerTurn
      refine ⟨more, ?_, ?_, ?_, hd.exact⟩
      · simp only [Session.after]
        rw [h.stream, hd.unread, List.flatMap_append, List.append_assoc]
      · simp only [Session.after]
        rw [hd.items, ← List.append_assoc, h.commands, List.map_append]
      · simp only [Session.after]
        rw [h.consumed, hd.consumed, List.flatMap_append, List.length_append]
  | pop =>
    refine ⟨[], ?_⟩
    rw [List.append_nil]
    simp only [Session.after]
    cases hpop : s.queue.popFront with
    | none => exact h
    | some popped =>
      obtain ⟨hitems, -, hexact⟩ := h.exact.popFront hpop
      refine ⟨h.stream, ?_, h.consumed, hexact⟩
      rw [← h.commands, hitems, List.append_assoc]
      rfl

theorem Tally.play {s : Session} {frames : List Frame} (h : s.Tally frames)
    (ops : List SessionOp) : ∃ more, (s.play ops).Tally (frames ++ more) := by
  induction ops generalizing s frames with
  | nil => exact ⟨[], by simpa [Session.play] using h⟩
  | cons op ops ih =>
    obtain ⟨more, hop⟩ := h.after op
    obtain ⟨rest, hops⟩ := ih hop
    exact ⟨more ++ rest, by rw [← List.append_assoc]; exact hops⟩

theorem tally_new : Tally {} [] where
  stream := rfl
  commands := rfl
  consumed := rfl
  exact := .empty

/-- The commands of the frames are the first of the stream. -/
theorem parse_frames (frames : List Frame) (rest : Bytes) :
    respFramer.parse () (frames.flatMap Frame.bytes ++ rest) =
      (respFramer.parse () rest).behind (frames.map Frame.args) := by
  induction frames with
  | nil => rfl
  | cons f frames ih =>
    have hparse : tryParseOne (f.bytes ++ (frames.flatMap Frame.bytes ++ rest)) =
        { state := .complete, consumed := f.bytes.length, args := f.args } := by
      refine tryParseOne_complete_iff.mpr ⟨by simp, ?_⟩
      rw [List.take_left]
      exact f.sentence
    have hstep : respFramer.step () (f.bytes ++ (frames.flatMap Frame.bytes ++ rest)) =
        .complete f.bytes.length f.args := by
      rw [respFramer_step, hparse]
    rw [List.flatMap_cons, List.append_assoc, Framing.Framer.parse_complete hstep, List.drop_left,
      ih]
    rfl

theorem stream_after (s : Session) (op : SessionOp) : s.stream <+: (s.after op).stream := by
  cases op with
  | append chunk =>
    simp only [Session.after]
    split_ifs
    · exact List.prefix_append _ _
    · exact List.prefix_rfl
  | drain maxPerTurn keepReading => exact List.prefix_rfl
  | pop =>
    simp only [Session.after]
    cases s.queue.popFront with
    | none => exact List.prefix_rfl
    | some popped => exact List.prefix_rfl

theorem stream_play (s : Session) (ops : List SessionOp) : s.stream <+: (s.play ops).stream := by
  induction ops generalizing s with
  | nil => exact List.prefix_rfl
  | cons op ops ih => exact (s.stream_after op).trans (ih _)

/-- At an invalid frame a session stays, whatever is called. -/
theorem Tally.stays {s : Session} {frames : List Frame} (h : s.Tally frames)
    (hinvalid : (tryParseOne s.input.unread).state = .invalid) (ops : List SessionOp) :
    (s.play ops).Tally frames ∧ s.input.unread <+: (s.play ops).input.unread := by
  obtain ⟨more, hmore⟩ := h.play ops
  obtain ⟨later, hlater⟩ := s.stream_play ops
  have hsplit : s.input.unread ++ later =
      more.flatMap Frame.bytes ++ (s.play ops).input.unread := by
    have hstream := hmore.stream
    rw [← hlater, h.stream, List.flatMap_append, List.append_assoc, List.append_assoc] at hstream
    exact List.append_cancel_left hstream
  cases more with
  | nil =>
    rw [List.append_nil] at hmore
    exact ⟨hmore, later, hsplit⟩
  | cons f more =>
    have hparse : tryParseOne (s.input.unread ++ later) =
        { state := .complete, consumed := f.bytes.length, args := f.args } := by
      rw [hsplit, List.flatMap_cons, List.append_assoc]
      refine tryParseOne_complete_iff.mpr ⟨by simp, ?_⟩
      rw [List.take_left]
      exact f.sentence
    have hstays := tryParseOne_invalid_append later hinvalid
    rw [hparse] at hstays
    cases hstays

end Session

/-- **The session queue is exact.** After any calls of `Append`, `DrainCommands` and `PopFront`
some frames have been taken from the stream : the commands popped and queued are theirs, with
the verb in upper case and classified, the bytes consumed are theirs, and the rest of the stream
is unread. They are the first commands of the stream. The bytes of the queued commands are
counted exactly and below the limit, so that no pop underflows. Every drain takes frames until
its turns are used up, the queue is full, more bytes are needed or a frame is invalid; a full
queue stops it before it consumes anything, `Enqueue` takes a command whenever `Next` was
called, and a session that has come to an invalid frame stays there. -/
theorem session_queue_exact (ops : List SessionOp) :
    ∃ frames, (Session.play {} ops).Tally frames ∧
      (respFramer.parse () (Session.play {} ops).stream).values = frames.map Frame.args ++
        (respFramer.parse () (Session.play {} ops).input.unread).values ∧
      (∀ command queue, (Session.play {} ops).queue.popFront = some (command, queue) →
        command.bytes ≤ (Session.play {} ops).queue.queuedBytes ∧
        queue.queuedBytes = (Session.play {} ops).queue.queuedBytes - command.bytes) ∧
      (∀ maxPerTurn, ∃ more, Drained maxPerTurn (Session.play {} ops).input
        (Session.play {} ops).queue (drainCommands (Session.play {} ops).input
          (Session.play {} ops).queue maxPerTurn true) more) ∧
      ((Session.play {} ops).queue.isFull = true → ∀ maxPerTurn keepReading,
        (drainCommands (Session.play {} ops).input (Session.play {} ops).queue maxPerTurn
          keepReading).2 = ((Session.play {} ops).input, (Session.play {} ops).queue)) ∧
      (¬(Session.play {} ops).queue.isFull = true → ∀ args consumed,
        ((Session.play {} ops).queue.enqueue args consumed).1 = true) ∧
      ((tryParseOne (Session.play {} ops).input.unread).state = .invalid → ∀ later,
        ((Session.play {} ops).play later).Tally frames ∧
        (Session.play {} ops).input.unread <+:
          ((Session.play {} ops).play later).input.unread) := by
  obtain ⟨frames, h⟩ := Session.tally_new.play ops
  refine ⟨frames, h, ?_, ?_, ?_, ?_, ?_, fun hinvalid later => h.stays hinvalid later⟩
  · rw [h.stream, Session.parse_frames]
    rfl
  · intro command queue hpop
    obtain ⟨hitems, hbytes, -⟩ := h.exact.popFront hpop
    exact ⟨h.exact.le_queuedBytes (by simp [hitems]), hbytes⟩
  · exact fun maxPerTurn => drainCommands_spec _ h.exact maxPerTurn
  · exact fun hfull maxPerTurn keepReading => drainCommands_full _ hfull maxPerTurn keepReading
  · exact fun hfull args consumed => SessionCommandQueue.enqueue_of_not_full hfull args consumed

end RaftKV
