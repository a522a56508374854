import RaftKV.Framing
import RaftKV.RespGrammar

/-!
# Commands from a stream

A connection collects what TCP delivers in a `CommandBuffer` and asks it for one command after
the other. The parser keeps no state : it starts over on the bytes that are left. What it says
of a string, complete or invalid, it says of every longer string too, so the commands do not
depend on how the stream was cut into chunks (`command_buffer_stream`). The buffer moves a
cursor instead of its bytes, and gives memory back in two cases; neither changes the bytes that
are left.
-/

namespace RaftKV

/-! ## Longer strings -/

variable {n pos : ℕ} {raw : Bytes}

theorem findCrlf_append_of_some {b : Bytes} (h : findCrlf b = some n) (more : Bytes) :
    findCrlf (b ++ more) = some n := by
  induction b generalizing n with
  | nil => cases h
  | cons x b ih =>
    cases b with
    | nil => cases h
    | cons y b =>
      rw [findCrlf] at h
      rw [List.cons_append, List.cons_append, findCrlf]
      split_ifs at h ⊢ with hxy
      · exact h
      · obtain ⟨m, hm, rfl⟩ := Option.map_eq_some_iff.mp h
        rw [← List.cons_append, ih hm]
        rfl

/-- A CRLF that comes with more bytes ends after the bytes before them. -/
theorem length_le_of_findCrlf {b more : Bytes} (hb : findCrlf b = none)
    (h : findCrlf (b ++ more) = some n) : b.length ≤ n + 1 := by
  induction b generalizing n with
  | nil => exact Nat.zero_le _
  | cons x b ih =>
    cases b with
    | nil => simp
    | cons y b =>
      rw [findCrlf] at hb
      rw [List.cons_append, List.cons_append, findCrlf] at h
      split_ifs at hb h with hxy
      obtain ⟨m, hm, rfl⟩ := Option.map_eq_some_iff.mp h
      have := ih (Option.map_eq_none_iff.mp hb) hm
      simp only [List.length_cons] at this ⊢
      omega

theorem number_invalid_append {limit : ℕ} {kind : UInt8} (more : Bytes)
    (h : number raw pos kind limit = .invalid) :
    number (raw ++ more) pos kind limit = .invalid := by
  cases hdrop : raw.drop pos with
  | nil =>
    rw [number, hdrop] at h
    cases h
  | cons c rest =>
    have hpos : pos < raw.length := by
      have hlen := congrArg List.length hdrop
      rw [List.length_drop, List.length_cons] at hlen
      omega
    have hmore : (raw ++ more).drop pos = c :: (rest ++ more) := by
      rw [List.drop_append_of_le_length hpos.le, hdrop, List.cons_append]
    rw [number, hdrop] at h
    rw [number, hmore]
    dsimp only at h ⊢
    by_cases hc : c = kind
    swap
    · rw [if_pos hc]
    rw [if_neg (not_not.mpr hc)] at h ⊢
    cases hcrlf : findCrlf (c :: rest) with
    | some n =>
      -- the digits are the same
      have hn : n + 2 ≤ (c :: rest).length := by
        have hlen := congrArg List.length (findCrlf_eq_some hcrlf)
        simp only [List.length_append, List.length_cons, List.length_take] at hlen ⊢
        omega
      have htake : (c :: (rest ++ more)).take n = (c :: rest).take n := by
        rw [← List.cons_append, List.take_append_of_le_length (by omega)]
      rw [hcrlf] at h
      rw [← List.cons_append, findCrlf_append_of_some hcrlf, List.cons_append]
      dsimp only at h ⊢
      rw [htake]
      exact h
    | none =>
      rw [hcrlf] at h
      dsimp only at h
      split_ifs at h with hlong
      have hlen := congrArg List.length hdrop
      rw [List.length_drop, List.length_cons] at hlen
      cases hfound : findCrlf (c :: (rest ++ more)) with
      | none =>
        dsimp only
        rw [if_pos]
        rw [List.length_append]
        omega
      | some n =>
        -- a CRLF that comes later leaves too many digits
        have hfar := length_le_of_findCrlf hcrlf hfound
        have hn : n + 2 ≤ (c :: (rest ++ more)).length := by
          have hsum := congrArg List.length (findCrlf_eq_some hfound)
          simp only [List.length_append, List.length_cons, List.length_take] at hsum ⊢
          omega
        dsimp only
        rw [if_pos]
        right
        rw [List.length_drop, List.length_take, min_eq_left (by omega)]
        simp only [List.length_cons] at hfar
        omega

theorem parseArgs_invalid_append (more : Bytes) {args : List Bytes}
    (h : (parseArgs raw n pos args).state = .invalid) :
    (parseArgs (raw ++ more) n pos args).state = .invalid := by
  induction n generalizing pos args with
  | zero => cases h
  | succ n ih =>
    rw [parseArgs] at h ⊢
    cases hnumber : number raw pos 36 kMaxCommandBytes with
    | invalid => rw [number_invalid_append more hnumber]; rfl
    | needMore =>
      rw [hnumber] at h
      cases h
    | complete length next =>
      obtain ⟨hle, header, hheader, hpre, hnext⟩ :=
        (number_complete_iff (by decide) (by decide)).mp hnumber
      have hmore : number (raw ++ more) pos 36 kMaxCommandBytes = .complete length next := by
        refine (number_complete_iff (by decide) (by decide)).mpr ⟨hle, header, hheader, ?_, hnext⟩
        have hfit := hpre.length_le
        have hpos := hheader.length_le.1
        rw [List.length_drop] at hfit
        rw [List.drop_append_of_le_length (by omega)]
        exact hpre.trans (List.prefix_append _ _)
      rw [hnumber] at h
      rw [hmore]
      dsimp only at h ⊢
      split_ifs at h with hlarge hshort hend
      · rw [if_pos hlarge]
        rfl
      · have hin : length + 2 ≤ raw.length - next := not_lt.mp hshort
        rw [if_neg hlarge, if_neg (by rw [List.length_append]; omega),
          List.getElem?_append_left (by omega), List.getElem?_append_left (by omega), if_pos hend]
        rfl
      have hin : length + 2 ≤ raw.length - next := not_lt.mp hshort
      rw [if_neg hlarge, if_neg (by rw [List.length_append]; omega),
        List.getElem?_append_left (by omega), List.getElem?_append_left (by omega), if_neg hend,
        List.drop_append_of_le_length (by omega),
        List.take_append_of_le_length (by rw [List.length_drop]; omega)]
      exact ih h

theorem tryParseOne_invalid_append (more : Bytes)
    (h : (tryParseOne raw).state = .invalid) : (tryParseOne (raw ++ more)).state = .invalid := by
  rw [tryParseOne] at h ⊢
  cases hnumber : number raw 0 42 kMaxArguments with
  | invalid => rw [number_invalid_append more hnumber]; rfl
  | needMore =>
    rw [hnumber] at h
    cases h
  | complete count pos =>
    obtain ⟨hle, header, hheader, hpre, hnext⟩ :=
      (number_complete_iff (by decide) (by decide)).mp hnumber
    have hmore : number (raw ++ more) 0 42 kMaxArguments = .complete count pos :=
      (number_complete_iff (by decide) (by decide)).mpr
        ⟨hle, header, hheader, List.IsPrefix.trans hpre (List.prefix_append _ _), hnext⟩
    rw [hnumber] at h
    rw [hmore]
    dsimp only at h ⊢
    split_ifs at h ⊢
    · rfl
    · exact parseArgs_invalid_append more h

theorem parseArgs_complete_error {args : List Bytes}
    (h : (parseArgs raw n pos args).state = .complete) : (parseArgs raw n pos args).error = "" := by
  induction n generalizing pos args with
  | zero => rfl
  | succ n ih =>
    rw [parseArgs] at h ⊢
    cases hnumber : number raw pos 36 kMaxCommandBytes with
    | invalid =>
      rw [hnumber] at h
      cases h
    | needMore => rfl
    | complete length next =>
      rw [hnumber] at h
      dsimp only at h ⊢
      split_ifs at h ⊢
      · cases h
      · cases h
      · exact ih h

/-- A complete command has no error. -/
theorem tryParseOne_complete (h : (tryParseOne raw).state = .complete) :
    tryParseOne raw = ⟨.complete, (tryParseOne raw).consumed, (tryParseOne raw).args, ""⟩ := by
  have herror : (tryParseOne raw).error = "" := by
    rw [tryParseOne] at h ⊢
    cases hnumber : number raw 0 42 kMaxArguments with
    | invalid =>
      rw [hnumber] at h
      cases h
    | needMore => rfl
    | complete count pos =>
      rw [hnumber] at h
      dsimp only at h ⊢
      split_ifs at h ⊢
      · cases h
      · exact parseArgs_complete_error h
  rw [← h, ← herror]

theorem tryParseOne_complete_append (more : Bytes)
    (h : (tryParseOne raw).state = .complete) : tryParseOne (raw ++ more) = tryParseOne raw := by
  obtain ⟨hle, hsentence⟩ := tryParseOne_complete_iff.mp (tryParseOne_complete h)
  rw [tryParseOne_complete h]
  refine tryParseOne_complete_iff.mpr ⟨by rw [List.length_append]; omega, ?_⟩
  rw [List.take_append_of_le_length hle]
  exact hsentence

/-- A complete command takes some bytes, and not more than there are. -/
theorem tryParseOne_consumed (h : (tryParseOne raw).state = .complete) :
    0 < (tryParseOne raw).consumed ∧ (tryParseOne raw).consumed ≤ raw.length := by
  obtain ⟨hle, -, -, header, rest, htake, hheader, -⟩ :=
    tryParseOne_complete_iff.mp (tryParseOne_complete h)
  have hlen := congrArg List.length htake
  rw [List.length_take, min_eq_left hle, List.length_append] at hlen
  have hpos := hheader.length_le.1
  omega

/-! ## Incomplete commands are short -/

theorem length_le_of_number_needMore {limit : ℕ} {kind : UInt8}
    (h : number raw pos kind limit = .needMore) : raw.length ≤ pos + 22 := by
  cases hdrop : raw.drop pos with
  | nil =>
    have hlen := congrArg List.length hdrop
    rw [List.length_drop, List.length_nil] at hlen
    omega
  | cons c rest =>
    rw [number, hdrop] at h
    dsimp only at h
    split_ifs at h with hc hlong
    · cases hcrlf : findCrlf (c :: rest) with
      | none =>
        rw [hcrlf] at h
        cases h
      | some n =>
        rw [hcrlf] at h
        dsimp only at h
        split_ifs at h
    · omega

theorem length_le_of_parseArgs_needMore {args : List Bytes}
    (hpos : pos ≤ kMaxCommandBytes) (h : (parseArgs raw n pos args).state = .needMore) :
    raw.length ≤ kMaxCommandBytes + 22 := by
  have hmax : kMaxCommandBytes = 1048576 := rfl
  induction n generalizing pos args with
  | zero => cases h
  | succ n ih =>
    rw [parseArgs] at h
    cases hnumber : number raw pos 36 kMaxCommandBytes with
    | invalid =>
      rw [hnumber] at h
      cases h
    | needMore =>
      have := length_le_of_number_needMore hnumber
      omega
    | complete length next =>
      rw [hnumber] at h
      dsimp only at h
      split_ifs at h with hlarge hshort hend
      · cases h
      · omega
      · cases h
      · exact ih (by omega) h

/-- A string of which more is needed is not longer than a command and a header. -/
theorem length_le_of_needMore (h : (tryParseOne raw).state = .needMore) :
    raw.length ≤ kMaxCommandBytes + 22 := by
  have hmax : kMaxCommandBytes = 1048576 := rfl
  rw [tryParseOne] at h
  cases hnumber : number raw 0 42 kMaxArguments with
  | invalid =>
    rw [hnumber] at h
    cases h
  | needMore =>
    have := length_le_of_number_needMore hnumber
    omega
  | complete count pos =>
    obtain ⟨-, header, hheader, -, rfl⟩ := (number_complete_iff (by decide) (by decide)).mp hnumber
    have hlen := hheader.length_le.2
    rw [hnumber] at h
    dsimp only at h
    split_ifs at h
    · cases h
    · exact length_le_of_parseArgs_needMore (by omega) h

/-! ## The buffer -/

/-- `CommandBuffer::kMaxBufferedBytes`. -/
def kMaxBufferedBytes : ℕ := 4 * 1024 * 1024

/-- `CommandBuffer`, with a cursor that is within its bytes. -/
structure CommandBuffer where
  bytes : Bytes
  offset : ℕ
  offset_le : offset ≤ bytes.length

namespace CommandBuffer

/-- A new buffer. -/
def empty : CommandBuffer := ⟨[], 0, le_rfl⟩

/-- The bytes that are left. -/
def unread (b : CommandBuffer) : Bytes := b.bytes.drop b.offset

/-- `CommandBuffer::UnreadBytes`. -/
def unreadBytes (b : CommandBuffer) : ℕ := b.bytes.length - b.offset

/-- `CommandBuffer::Append`. -/
def append (b : CommandBuffer) (chunk : Bytes) : Bool × CommandBuffer :=
  if chunk = [] then (true, b)
  else if kMaxBufferedBytes - b.unreadBytes < chunk.length then (false, b)
  else if b.offset ≠ 0 then (true, ⟨b.bytes.drop b.offset ++ chunk, 0, Nat.zero_le _⟩)
  else (true, ⟨b.bytes ++ chunk, b.offset, by have := b.offset_le; simp; omega⟩)

/-- The cursor moves past a command, and consumed bytes may be given back. -/
def advance (b : CommandBuffer) (consumed : ℕ) (h : consumed ≤ b.unreadBytes) : CommandBuffer :=
  if b.offset + consumed = b.bytes.length then ⟨[], 0, le_rfl⟩
  else if 64 * 1024 ≤ b.offset + consumed ∧ b.bytes.length - (b.offset + consumed) ≤ 64 * 1024 then
    ⟨b.bytes.drop (b.offset + consumed), 0, Nat.zero_le _⟩
  else ⟨b.bytes, b.offset + consumed, by have := b.offset_le; unfold unreadBytes at h; omega⟩

theorem length_unread (b : CommandBuffer) : b.unread.length = b.unreadBytes := List.length_drop

/-- `CommandBuffer::Next`. -/
def next (b : CommandBuffer) : ParseResult × CommandBuffer :=
  if h : (tryParseOne b.unread).state = .complete then
    (tryParseOne b.unread, b.advance (tryParseOne b.unread).consumed
      (b.length_unread ▸ (tryParseOne_consumed h).2))
  else (tryParseOne b.unread, b)

theorem unread_advance (b : CommandBuffer) {consumed : ℕ} (h : consumed ≤ b.unreadBytes) :
    (b.advance consumed h).unread = b.unread.drop consumed := by
  rw [advance, unread, unread, List.drop_drop]
  split_ifs with hend
  · exact (List.drop_eq_nil_of_le hend.ge).symm
  · rfl
  · rfl

variable {b : CommandBuffer}

/-- An accepted chunk follows the bytes that are left. -/
theorem unread_append_of_accepted {chunk : Bytes}
    (h : (b.append chunk).1 = true) : (b.append chunk).2.unread = b.unread ++ chunk := by
  rw [append] at h ⊢
  split_ifs at h ⊢ with hnil hfull hoff
  · rw [hnil, List.append_nil]
  · rfl
  · exact List.drop_append_of_le_length b.offset_le

theorem unreadBytes_append_of_accepted {chunk : Bytes} (h : (b.append chunk).1 = true) :
    (b.append chunk).2.unreadBytes = b.unreadBytes + chunk.length := by
  rw [← length_unread, unread_append_of_accepted h, List.length_append, length_unread]

theorem append_of_rejected {chunk : Bytes} (h : (b.append chunk).1 = false) :
    (b.append chunk).2 = b := by
  rw [append] at h ⊢
  split_ifs at h ⊢
  rfl

theorem unreadBytes_append_le (chunk : Bytes) (hb : b.unreadBytes ≤ kMaxBufferedBytes) :
    (b.append chunk).2.unreadBytes ≤ kMaxBufferedBytes := by
  cases haccepted : (b.append chunk).1 with
  | false => rwa [append_of_rejected haccepted]
  | true =>
    rw [← length_unread, unread_append_of_accepted haccepted, List.length_append, length_unread]
    rw [append] at haccepted
    split_ifs at haccepted with hnil hfull
    · simpa [hnil] using hb
    all_goals omega

theorem next_of_not_complete (h : b.next.1.state ≠ .complete) :
    b.next = (tryParseOne b.unread, b) := by
  rw [next] at h ⊢
  split_ifs at h ⊢ with hcomplete
  · exact (h hcomplete).elim
  · rfl

theorem next_fst (b : CommandBuffer) : b.next.1 = tryParseOne b.unread := by
  rw [next]
  split_ifs <;> rfl

theorem unread_next (b : CommandBuffer) : b.next.2.unread =
      if (tryParseOne b.unread).state = .complete then b.unread.drop (tryParseOne b.unread).consumed
      else b.unread := by
  rw [next]
  split_ifs with hcomplete
  · exact unread_advance b (b.length_unread ▸ (tryParseOne_consumed hcomplete).2)
  · rfl

theorem unreadBytes_next_le (b : CommandBuffer) : b.next.2.unreadBytes ≤ b.unreadBytes := by
  rw [← length_unread, ← length_unread, unread_next]
  split_ifs
  · rw [List.length_drop]
    exact Nat.sub_le _ _
  · exact le_rfl

end CommandBuffer

/-! ## The stream -/

/-- `TryParseOne` as the parser of a stream of commands. -/
def respFramer : Framing.Framer Unit UInt8 (List Bytes) where
  step _ raw :=
    match (tryParseOne raw).state with
    | .complete => .complete (tryParseOne raw).consumed (tryParseOne raw).args
    | .needMore => .needMore
    | .invalid => .invalid
  next _ _ := ()
  consumed_pos := by
    intro _ raw n args h
    split at h
    · cases h
      exact (tryParseOne_consumed ‹_›).1
    · cases h
    · cases h
  consumed_le := by
    intro _ raw n args h
    split at h
    · cases h
      exact (tryParseOne_consumed ‹_›).2
    · cases h
    · cases h
  complete_append := by
    intro _ raw n args suffix h
    split at h
    · rename_i hcomplete
      cases h
      rw [tryParseOne_complete_append suffix hcomplete, hcomplete]
    · cases h
    · cases h
  invalid_append := by
    intro _ raw suffix h
    split at h
    · cases h
    · cases h
    · rename_i hinvalid
      rw [tryParseOne_invalid_append suffix hinvalid]

theorem respFramer_step (raw : Bytes) :
    respFramer.step () raw =
      match (tryParseOne raw).state with
      | .complete => .complete (tryParseOne raw).consumed (tryParseOne raw).args
      | .needMore => .needMore
      | .invalid => .invalid := rfl

theorem respFramer_step_invalid (raw : Bytes) :
    respFramer.step () raw = .invalid ↔ (tryParseOne raw).state = .invalid := by
  rw [respFramer_step]
  cases (tryParseOne raw).state <;> simp

theorem respFramer_step_complete (raw : Bytes) (n : ℕ) (args : List Bytes) :
    respFramer.step () raw = .complete n args → (tryParseOne raw).state = .complete := by
  rw [respFramer_step]
  cases (tryParseOne raw).state <;> simp

/-- A call of a buffer. -/
inductive BufferOp where
  | append (chunk : Bytes)
  | next

namespace CommandBuffer

/-- The buffer after a call. -/
def after (b : CommandBuffer) : BufferOp → CommandBuffer
  | .append chunk => (b.append chunk).2
  | .next => b.next.2

/-- The buffer after some calls. -/
def play (b : CommandBuffer) (ops : List BufferOp) : CommandBuffer := ops.foldl after b

/-- The commands that the calls return as complete. -/
def commands (b : CommandBuffer) : List BufferOp → List (List Bytes)
  | [] => []
  | .append chunk :: ops => commands (b.after (.append chunk)) ops
  | .next :: ops =>
    (if b.next.1.state = .complete then [b.next.1.args] else []) ++ commands (b.after .next) ops

/-- Every chunk is accepted. -/
def Accepted (b : CommandBuffer) : List BufferOp → Prop
  | [] => True
  | .append chunk :: ops => (b.append chunk).1 = true ∧ Accepted (b.after (.append chunk)) ops
  | .next :: ops => Accepted (b.after .next) ops

end CommandBuffer

/-- The chunks of the calls, one after the other. -/
def streamOf : List BufferOp → Bytes
  | [] => []
  | .append chunk :: ops => chunk ++ streamOf ops
  | .next :: ops => streamOf ops

/-- A call as a move of a reader. -/
def BufferOp.move : BufferOp → Framing.Framer.Move UInt8
  | .append chunk => .feed chunk
  | .next => .take

theorem streamOf_eq (ops : List BufferOp) :
    streamOf ops = (ops.map BufferOp.move).flatMap Framing.Framer.arrived := by
  induction ops with
  | nil => rfl
  | cons op ops ih => cases op <;> simp [streamOf, ih, BufferOp.move, Framing.Framer.arrived]

namespace CommandBuffer

/-- The bytes that are left are those of a reader of the stream. -/
theorem read_eq {b : CommandBuffer} {ops : List BufferOp} (h : b.Accepted ops) :
    respFramer.read () b.unread (ops.map BufferOp.move) =
      ⟨b.commands ops, (), (b.play ops).unread⟩ := by
  induction ops generalizing b with
  | nil => rfl
  | cons op ops ih =>
    cases op with
    | append chunk =>
      obtain ⟨haccepted, hrest⟩ := h
      have hunread : (b.after (.append chunk)).unread = b.unread ++ chunk :=
        unread_append_of_accepted haccepted
      have hread := ih hrest
      rw [hunread] at hread
      exact hread
    | next =>
      have hread : respFramer.read () b.next.2.unread (ops.map BufferOp.move) =
          ⟨b.next.2.commands ops, (), (b.next.2.play ops).unread⟩ := ih h
      rw [unread_next] at hread
      simp only [List.map_cons, BufferOp.move, Framing.Framer.read, Framing.Framer.act,
        respFramer_step, commands, next_fst, play, List.foldl_cons]
      cases hstate : (tryParseOne b.unread).state with
      | complete =>
        rw [hstate, if_pos rfl] at hread
        simp only [hread, if_true]
        rfl
      | needMore =>
        rw [hstate, if_neg (by simp)] at hread
        simp only [hread]
        rfl
      | invalid =>
        rw [hstate, if_neg (by simp)] at hread
        simp only [hread]
        rfl

theorem play_unreadBytes_le {b : CommandBuffer} (ops : List BufferOp)
    (hb : b.unreadBytes ≤ kMaxBufferedBytes) : (b.play ops).unreadBytes ≤ kMaxBufferedBytes := by
  induction ops generalizing b with
  | nil => exact hb
  | cons op ops ih =>
    cases op with
    | append chunk => exact ih (unreadBytes_append_le chunk hb)
    | next => exact ih (le_trans (unreadBytes_next_le b) hb)

/-- What a reader takes and what it leaves is what the stream has. -/
theorem parse_streamOf {ops : List BufferOp} (h : empty.Accepted ops) :
    respFramer.parse () (streamOf ops) =
      (respFramer.parse () (empty.play ops).unread).behind (empty.commands ops) := by
  have hread := Framing.Framer.parse_read (F := respFramer) () empty.unread (ops.map BufferOp.move)
  rw [read_eq h, ← streamOf_eq] at hread
  exact hread

end CommandBuffer

open CommandBuffer in
/-- The commands do not depend on the chunks. -/
theorem command_buffer_stream :
    (∀ ops, empty.Accepted ops →
      empty.commands ops <+: (respFramer.parse () (streamOf ops)).values ∧
      ((empty.play ops).next.1.state = .invalid → respFramer.EndsInvalid () (streamOf ops)) ∧
      ((empty.play ops).next.1.state ≠ .complete →
        empty.commands ops = (respFramer.parse () (streamOf ops)).values ∧
        ((empty.play ops).next.1.state = .invalid ↔ respFramer.EndsInvalid () (streamOf ops)))) ∧
    (∀ (b : CommandBuffer) chunk, (b.append chunk).1 = false →
      (b.append chunk).2.unread = b.unread) ∧
    (∀ b : CommandBuffer, b.next.1.state ≠ .complete → b.next.2.unread = b.unread) ∧
    (∀ ops, (empty.play ops).unreadBytes ≤ kMaxBufferedBytes) ∧
    (∀ raw, kMaxCommandBytes + 22 < raw.length → (tryParseOne raw).state ≠ .needMore) ∧
    ∀ b : CommandBuffer, b.unreadBytes = kMaxBufferedBytes →
      b.next.1.state = .complete ∨ b.next.1.state = .invalid := by
  refine ⟨fun ops h => ?_, ?_, ?_, ?_, ?_, ?_⟩
  · have hparse := parse_streamOf h
    have hinvalid : (empty.play ops).next.1.state = .invalid →
        respFramer.EndsInvalid () (streamOf ops) := by
      intro hstate
      rw [next_fst] at hstate
      have hends := Framing.Framer.endsInvalid_of_step ((respFramer_step_invalid _).mpr hstate)
      rw [Framing.Framer.EndsInvalid, hparse]
      exact hends
    refine ⟨?_, hinvalid, fun hdrained => ?_⟩
    · rw [hparse]
      exact List.prefix_append _ _
    · have hstuck : respFramer.parse () (empty.play ops).unread =
          ⟨[], (), (empty.play ops).unread⟩ := by
        refine Framing.Framer.parse_stuck fun n args hstep => hdrained ?_
        rw [next_fst]
        exact respFramer_step_complete _ n args hstep
      rw [hstuck] at hparse
      refine ⟨?_, hinvalid, fun hends => ?_⟩
      · rw [hparse]
        exact (List.append_nil _).symm
      · rw [Framing.Framer.EndsInvalid, hparse] at hends
        rw [next_fst]
        exact (respFramer_step_invalid _).mp hends
  · intro b chunk h
    rw [append_of_rejected h]
  · intro b h
    rw [next_of_not_complete h]
  · exact fun ops => play_unreadBytes_le ops (Nat.zero_le _)
  · intro raw hlong hstate
    have := length_le_of_needMore hstate
    omega
  · intro b hfull
    have hlength : b.unread.length = 4 * 1024 * 1024 := (length_unread b).trans hfull
    rw [next_fst]
    cases hstate : (tryParseOne b.unread).state with
    | complete => exact Or.inl rfl
    | needMore =>
      have hmax : kMaxCommandBytes = 1048576 := rfl
      have := length_le_of_needMore hstate
      omega
    | invalid => exact Or.inr rfl

end RaftKV
