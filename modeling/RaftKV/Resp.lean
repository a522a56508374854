import RaftKV.Bytes

/-!
# The command protocol

`tryParseOne` is `RespParser::TryParseOne` : one command from the front of a byte
string, as its arguments and the number of bytes it took, or a request for more
bytes, or an error. The cursor `pos` and the limits are the source's. The functions
of `command_type.h` that the state machine uses follow : `upperCommand`,
`parseRequestId` and `parseIdempotentCommand`.
-/

namespace RaftKV

/-- Largest value of an unsigned 64-bit integer. -/
def uint64Max : ℕ := 2 ^ 64 - 1

/-- `RespParser::kMaxCommandBytes`. -/
def kMaxCommandBytes : ℕ := 1024 * 1024

/-- `RespParser::kMaxArguments`. -/
def kMaxArguments : ℕ := 1024

/-! ## The parser -/

/-- `RespParser::State`. -/
inductive ParseState where
  | complete
  | needMore
  | invalid
  deriving DecidableEq

/-- `RespParser::Result`. -/
structure ParseResult where
  state : ParseState := .needMore
  consumed : ℕ := 0
  args : List Bytes := []
  error : String := ""
  deriving DecidableEq

/-- Offset of the first CRLF. -/
def findCrlf : Bytes → Option ℕ
  | x :: y :: rest => if x = 13 ∧ y = 10 then some 0 else (findCrlf (y :: rest)).map (· + 1)
  | _ => none

/-- A decimal digit. -/
def isDigit (c : UInt8) : Bool :=
  48 ≤ c && c ≤ 57

/-- The value of a string of decimal digits. -/
def decimalValue (digits : Bytes) : ℕ :=
  digits.foldl (fun acc c => acc * 10 + (c.toNat - 48)) 0

/-- What the lambda `number` of `TryParseOne` returns : its state, with the value and the
new cursor when it is complete. -/
inductive NumberResult where
  | complete (value pos : ℕ)
  | needMore
  | invalid
  deriving DecidableEq

/-- A length header at `pos` : the prefix byte, 1 to 20 digits, CRLF. `std::from_chars`
fails on a value beyond 64 bits. -/
def number (raw : Bytes) (pos : ℕ) (pre : UInt8) (limit : ℕ) : NumberResult :=
  match raw.drop pos with
  | [] => .needMore
  | c :: _ =>
    if c ≠ pre then .invalid
    else match findCrlf (raw.drop pos) with
      | none => if raw.length - pos > 22 then .invalid else .needMore
      | some n =>
        let digits := ((raw.drop pos).take n).drop 1
        if digits = [] ∨ digits.length > 20 then .invalid
        else if digits.all isDigit then
          if decimalValue digits > uint64Max ∨ decimalValue digits > limit then .invalid
          else .complete (decimalValue digits) (pos + n + 2)
        else .invalid

/-- The result of an invalid frame. -/
def invalidFrame (error : String) : ParseResult :=
  { state := .invalid, error := error }

/-- The loop over the bulk strings, with the arguments read so far. -/
def parseArgs (raw : Bytes) : ℕ → ℕ → List Bytes → ParseResult
  | 0, pos, args => { state := .complete, consumed := pos, args := args }
  | n + 1, pos, args =>
    match number raw pos 36 kMaxCommandBytes with
    | .invalid => invalidFrame "invalid bulk length"
    | .needMore => { args := args }
    | .complete length pos =>
      if pos > kMaxCommandBytes - 2 ∨ length > kMaxCommandBytes - pos - 2 then
        invalidFrame "command too large"
      else if raw.length - pos < length + 2 then { args := args }
      else if raw[pos + length]? ≠ some 13 ∨ raw[pos + length + 1]? ≠ some 10 then
        invalidFrame "invalid bulk terminator"
      else parseArgs raw n (pos + length + 2) (args ++ [(raw.drop pos).take length])

/-- `RespParser::TryParseOne`. -/
def tryParseOne (raw : Bytes) : ParseResult :=
  match number raw 0 42 kMaxArguments with
  | .invalid => invalidFrame "invalid array length"
  | .needMore => {}
  | .complete count pos =>
    if count = 0 then invalidFrame "empty command" else parseArgs raw count pos []

/-! ## Commands -/

/-- `std::toupper` on one byte. -/
def upperByte (c : UInt8) : UInt8 :=
  if 97 ≤ c ∧ c ≤ 122 then c - 32 else c

/-- `UpperCommand`. -/
def upperCommand (text : Bytes) : Bytes :=
  text.map upperByte

/-- The digit loop of `ParseRequestId`. -/
def requestIdLoop : ℕ → Bytes → Option ℕ
  | value, [] => some value
  | value, c :: text =>
    if isDigit c then
      let digit := c.toNat - 48
      if value > (uint64Max - digit) / 10 then none else requestIdLoop (value * 10 + digit) text
    else none

/-- `ParseRequestId`. -/
def parseRequestId (text : Bytes) : Option ℕ :=
  if text = [] ∨ text.length > 20 ∨ text.head? = some 48 then none else requestIdLoop 0 text

/-- The inner operation of an idempotent command. -/
inductive IdempotentOp where
  | set
  | del
  deriving DecidableEq

/-- A valid `IdempotentCommand`. -/
structure IdempotentCommand where
  clientId : Bytes
  requestId : ℕ
  op : IdempotentOp
  key : Bytes
  value : Bytes
  deriving DecidableEq

/-- `ParseIdempotentCommand` : the command, or the text of the error. The argument texts
of the two errors that quote one are left as they are. -/
def parseIdempotentCommand (args : List Bytes) : Except Bytes IdempotentCommand :=
  match args with
  | [] => .error (ascii "ERR unknown command")
  | verb :: rest =>
    if upperCommand verb ≠ ascii "IDEMP" then .error (ascii "ERR unknown command")
    else match rest with
      | client :: request :: op :: key :: more =>
        if more.length > 1 then
          .error (ascii "ERR wrong number of arguments for 'IDEMP' command")
        else if client = [] ∨ client.length > 128 then .error (ascii "ERR invalid client id")
        else match parseRequestId request with
          | none => .error (ascii "ERR invalid request id")
          | some id =>
            let inner := upperCommand op
            match more with
            | [value] =>
              if inner = ascii "SET" then .ok ⟨client, id, .set, key, value⟩
              else if inner = ascii "DEL" then
                .error (ascii "ERR wrong number of arguments for '" ++ inner ++
                  ascii "' command")
              else .error (ascii "ERR unknown command '" ++ op ++ ascii "'")
            | _ =>
              if inner = ascii "DEL" then .ok ⟨client, id, .del, key, []⟩
              else if inner = ascii "SET" then
                .error (ascii "ERR wrong number of arguments for '" ++ inner ++
                  ascii "' command")
              else .error (ascii "ERR unknown command '" ++ op ++ ascii "'")
      | _ => .error (ascii "ERR wrong number of arguments for 'IDEMP' command")

theorem requestIdLoop_le {text : Bytes} {value id : ℕ} (hv : value ≤ uint64Max)
    (h : requestIdLoop value text = some id) : id ≤ uint64Max := by
  induction text generalizing value with
  | nil =>
    simp only [requestIdLoop, Option.some.injEq] at h
    omega
  | cons c text ih =>
    simp only [requestIdLoop] at h
    split_ifs at h with hd hov
    refine ih ?_ h
    have hdig : c.toNat - 48 ≤ uint64Max := by
      have := c.toNat_lt
      simp only [uint64Max]
      omega
    have := Nat.div_mul_le_self (uint64Max - (c.toNat - 48)) 10
    omega

/-- The first digit is not zero, so a request id is positive. -/
theorem requestIdLoop_pos {text : Bytes} {value id : ℕ} (hv : 0 < value)
    (h : requestIdLoop value text = some id) : 0 < id := by
  induction text generalizing value with
  | nil =>
    simp only [requestIdLoop, Option.some.injEq] at h
    omega
  | cons c text ih =>
    simp only [requestIdLoop] at h
    split_ifs at h with hd hov
    exact ih (by omega) h

theorem parseRequestId_range {text : Bytes} {id : ℕ} (h : parseRequestId text = some id) :
    0 < id ∧ id ≤ uint64Max := by
  unfold parseRequestId at h
  split_ifs at h with hbad
  refine ⟨?_, requestIdLoop_le (Nat.zero_le _) h⟩
  cases text with
  | nil => simp at hbad
  | cons c text =>
    simp only [requestIdLoop] at h
    split_ifs at h with hd hov
    refine requestIdLoop_pos ?_ h
    have h48 : c ≠ 48 := by
      simp only [List.head?_cons, Option.some.injEq, not_or] at hbad
      exact hbad.2.2
    have hne : c.toNat ≠ 48 := fun hc => h48 (UInt8.toNat_inj.mp hc)
    have hge : 48 ≤ c.toNat := by
      simp only [isDigit, Bool.and_eq_true, decide_eq_true_eq] at hd
      exact UInt8.le_iff_toNat_le.mp hd.1
    omega

end RaftKV
