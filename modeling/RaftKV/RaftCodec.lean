import RaftKV.Bytes
import RaftKV.Framing

/-!
# Raft frames

`RaftCodec` puts a message on the wire as its length in four bytes, its type in one, its sender
in four and its payload. The decoder sees the bytes that have arrived so far : it takes a frame,
waits for more bytes, or throws. Every read of the model has a bound, and a read past the
supplied length is the error `outOfBounds`, which no input reaches (`tryDecode_inBounds`).

A frame is what the encoder writes and nothing else (`tryDecode_complete_iff`), so decoding and
encoding are inverse to each other. A frame that is cut short makes the decoder wait
(`tryDecode_take`), and what it says of a string it says of every longer one.
-/

namespace RaftKV

/-- `RaftMsgType`. -/
inductive RaftMsgType where
  | kRequestVote
  | kRequestVoteResponse
  | kAppendEntries
  | kAppendEntriesResponse
  | kInstallSnapshot
  | kInstallSnapshotResponse
  deriving DecidableEq

/-- The byte of a type. -/
def RaftMsgType.code : RaftMsgType → UInt8
  | .kRequestVote => 0
  | .kRequestVoteResponse => 1
  | .kAppendEntries => 2
  | .kAppendEntriesResponse => 3
  | .kInstallSnapshot => 4
  | .kInstallSnapshotResponse => 5

/-- The cast of a valid byte to its type. -/
def RaftMsgType.ofCode : UInt8 → RaftMsgType
  | 0 => .kRequestVote
  | 1 => .kRequestVoteResponse
  | 2 => .kAppendEntries
  | 3 => .kAppendEntriesResponse
  | 4 => .kInstallSnapshot
  | _ => .kInstallSnapshotResponse

/-- `DecodedRaftMsg`. -/
structure DecodedRaftMsg where
  type : RaftMsgType
  senderId : ℤ
  payload : Bytes
  deriving DecidableEq

namespace RaftCodec

/-- `RaftCodec::kHeaderSize`. -/
def kHeaderSize : ℕ := 9

/-- `RaftCodec::kMaxFrameSize`. -/
def kMaxFrameSize : ℕ := 10 * 1024 * 1024

/-- What the codec throws, and a read past the supplied length. -/
inductive CodecError where
  | invalidArgument (text : String)
  | lengthError (text : String)
  | outOfBounds
  deriving DecidableEq

/-- `RaftCodec::IsValidType`. -/
def isValidType (type : UInt8) : Bool := type ≤ RaftMsgType.kInstallSnapshotResponse.code

/-- The byte at an offset. -/
def byteAt (data : Bytes) (offset : ℕ) : Except CodecError UInt8 :=
  match data[offset]? with
  | some byte => .ok byte
  | none => .error .outOfBounds

/-- `RaftCodec::ReadU32` at an offset. -/
def readU32 (data : Bytes) (offset : ℕ) : Except CodecError ℕ := do
  let b₀ ← byteAt data offset
  let b₁ ← byteAt data (offset + 1)
  let b₂ ← byteAt data (offset + 2)
  let b₃ ← byteAt data (offset + 3)
  return beNat [b₀, b₁, b₂, b₃]

/-- The bytes from an offset on. -/
def slice (data : Bytes) (offset length : ℕ) : Except CodecError Bytes :=
  if offset + length ≤ data.length then .ok ((data.drop offset).take length)
  else .error .outOfBounds

/-- `RaftCodec::WriteU32`. -/
def writeU32 (value : ℕ) : Bytes := beBytes 4 value

/-- The bytes of a frame. -/
def frame (type : UInt8) (sender : ℕ) (payload : Bytes) : Bytes :=
  writeU32 (payload.length + 5) ++ type :: writeU32 sender ++ payload

/-- `RaftCodec::Encode`. The type may hold any byte, since `RaftMsgType` has a fixed underlying
type. -/
def encode (type : UInt8) (sender : ℤ) (payload : Bytes) : Except CodecError Bytes :=
  if sender < 0 ∨ ¬ isValidType type then .error (.invalidArgument "invalid Raft frame header")
  else if kMaxFrameSize - 5 < payload.length then .error (.lengthError "Raft frame too large")
  else .ok (frame type sender.toNat payload)

/-- `RaftCodec::TryDecode` : the message, if there is a whole one, and the value of `consumed`. -/
def tryDecode (data : Bytes) : Except CodecError (Option DecodedRaftMsg × ℕ) := do
  if data.length < 4 then return (none, 0)
  let payloadLength ← readU32 data 0
  if payloadLength < 5 ∨ kMaxFrameSize < payloadLength then
    throw (.invalidArgument "invalid Raft frame length")
  if data.length < 4 + payloadLength then return (none, 0)
  let type ← byteAt data 4
  let sender ← readU32 data 5
  if ¬ isValidType type ∨ int32Max < (sender : ℤ) then
    throw (.invalidArgument "invalid Raft frame header")
  let payload ← slice data kHeaderSize (payloadLength - 5)
  return (some ⟨.ofCode type, sender, payload⟩, 4 + payloadLength)

/-! ## Reads -/

variable {data : Bytes}

theorem byteAt_eq {offset : ℕ} (h : offset < data.length) :
    byteAt data offset = .ok data[offset] := by
  rw [byteAt, List.getElem?_eq_getElem h]

theorem readU32_eq {offset : ℕ} (h : offset + 4 ≤ data.length) :
    readU32 data offset = .ok (beNat ((data.drop offset).take 4)) := by
  rw [readU32, byteAt_eq (by omega), byteAt_eq (by omega), byteAt_eq (by omega),
    byteAt_eq (by omega), List.drop_eq_getElem_cons (by omega),
    List.drop_eq_getElem_cons (by omega), List.drop_eq_getElem_cons (by omega),
    List.drop_eq_getElem_cons (by omega)]
  rfl

theorem slice_eq {offset length : ℕ} (h : offset + length ≤ data.length) :
    slice data offset length = .ok ((data.drop offset).take length) :=
  if_pos h

/-! ## The decoder by cases -/

/-- The length field is refused. -/
def BadLength (length : ℕ) : Prop := length < 5 ∨ kMaxFrameSize < length

instance (length : ℕ) : Decidable (BadLength length) := inferInstanceAs (Decidable (_ ∨ _))

/-- The decoder once the length field is there. -/
theorem tryDecode_length (h : 4 ≤ data.length) :
    tryDecode data =
      if BadLength (beNat (data.take 4)) then
        .error (.invalidArgument "invalid Raft frame length")
      else if data.length < 4 + beNat (data.take 4) then .ok (none, 0)
      else do
        let type ← byteAt data 4
        let sender ← readU32 data 5
        if ¬ isValidType type ∨ int32Max < sender then
          throw (.invalidArgument "invalid Raft frame header")
        let payload ← slice data kHeaderSize (beNat (data.take 4) - 5)
        return (some ⟨.ofCode type, sender, payload⟩, 4 + beNat (data.take 4)) := by
  have hread : readU32 data 0 = .ok (beNat (data.take 4)) := readU32_eq h
  rw [tryDecode, if_neg (by omega), hread]
  by_cases hbad : BadLength (beNat (data.take 4))
  · rw [if_pos hbad]
    exact if_pos hbad
  · rw [if_neg hbad]
    exact if_neg hbad

/-- Without a whole header only the length field is looked at. -/
theorem tryDecode_short (h : data.length < 9) : tryDecode data =
      if 4 ≤ data.length ∧ BadLength (beNat (data.take 4)) then
        .error (.invalidArgument "invalid Raft frame length") else .ok (none, 0) := by
  by_cases hfour : 4 ≤ data.length
  · rw [tryDecode_length hfour]
    by_cases hbad : BadLength (beNat (data.take 4))
    · rw [if_pos hbad, if_pos ⟨hfour, hbad⟩]
    have hlong : data.length < 4 + beNat (data.take 4) := by
      rw [BadLength] at hbad
      omega
    rw [if_neg hbad, if_pos hlong, if_neg (by tauto)]
  · rw [tryDecode, if_pos (by omega), if_neg (by tauto)]
    rfl

/-- With a whole header every field is looked at. -/
theorem tryDecode_header {l s : Bytes} (t : UInt8) (rest : Bytes) (hl : l.length = 4)
    (hs : s.length = 4) : tryDecode (l ++ t :: (s ++ rest)) =
      if BadLength (beNat l) then .error (.invalidArgument "invalid Raft frame length")
      else if rest.length + 5 < beNat l then .ok (none, 0)
      else if ¬ isValidType t ∨ int32Max < beNat s then
        .error (.invalidArgument "invalid Raft frame header")
      else .ok (some ⟨.ofCode t, beNat s, rest.take (beNat l - 5)⟩, 4 + beNat l) := by
  have hlength : (l ++ t :: (s ++ rest)).length = rest.length + 9 := by
    simp only [List.length_append, List.length_cons]
    omega
  have htake : (l ++ t :: (s ++ rest)).take 4 = l := by rw [← hl, List.take_left]
  have htype : byteAt (l ++ t :: (s ++ rest)) 4 = .ok t := by
    rw [byteAt_eq (by omega)]
    simp [List.getElem_append_right, hl]
  have hdrop : (l ++ t :: (s ++ rest)).drop 5 = s ++ rest := by
    rw [show l ++ t :: (s ++ rest) = (l ++ [t]) ++ (s ++ rest) by simp]
    exact List.drop_left' (by simp [hl])
  have hsender : readU32 (l ++ t :: (s ++ rest)) 5 = .ok (beNat s) := by
    rw [readU32_eq (by omega), hdrop, ← hs, List.take_left]
  rw [tryDecode_length (by omega), htake]
  by_cases hbad : BadLength (beNat l)
  · rw [if_pos hbad, if_pos hbad]
  rw [if_neg hbad, if_neg hbad]
  by_cases hlong : rest.length + 5 < beNat l
  · rw [if_pos (by omega), if_pos hlong]
  rw [if_neg (by omega), if_neg hlong, htype, hsender]
  by_cases hheader : ¬ isValidType t ∨ int32Max < beNat s
  · rw [if_pos hheader]
    exact if_pos hheader
  have hslice : slice (l ++ t :: (s ++ rest)) kHeaderSize (beNat l - 5) =
      .ok (rest.take (beNat l - 5)) := by
    have hdrop9 : (l ++ t :: (s ++ rest)).drop 9 = rest := by
      rw [show 9 = 5 + 4 from rfl, ← List.drop_drop, hdrop, ← hs, List.drop_left]
    have hheaderSize : kHeaderSize = 9 := rfl
    have hfive : 5 ≤ beNat l := by
      rw [BadLength] at hbad
      omega
    rw [slice_eq (by omega), hheaderSize, hdrop9]
  rw [if_neg hheader]
  refine (if_neg hheader).trans ?_
  rw [hslice]
  rfl

theorem exists_header (h : 9 ≤ data.length) :
    ∃ l t s rest, data = l ++ t :: (s ++ rest) ∧ l.length = 4 ∧ s.length = 4 := by
  match data, h with
  | a :: b :: c :: d :: t :: e :: f :: g :: i :: rest, _ =>
    exact ⟨[a, b, c, d], t, [e, f, g, i], rest, rfl, rfl, rfl⟩

/-- No input makes the decoder read past the supplied length. -/
theorem tryDecode_inBounds (data : Bytes) : tryDecode data ≠ .error .outOfBounds := by
  by_cases hshort : data.length < 9
  · rw [tryDecode_short hshort]
    split_ifs <;> simp
  · obtain ⟨l, t, s, rest, rfl, hl, hs⟩ := exists_header (not_lt.mp hshort)
    rw [tryDecode_header t rest hl hs]
    split_ifs <;> simp

/-! ## Frames -/

theorem length_writeU32 (value : ℕ) : (writeU32 value).length = 4 := length_beBytes 4 value

theorem writeU32_beNat {b : Bytes} (h : b.length = 4) : writeU32 (beNat b) = b := by
  rw [writeU32, ← h, beBytes_beNat]

theorem ofCode_code (type : RaftMsgType) : .ofCode type.code = type := by
  cases type <;> rfl

theorem code_ofCode {t : UInt8} (h : isValidType t) : (RaftMsgType.ofCode t).code = t := by
  have hle : t.toNat ≤ 5 := by
    simpa [isValidType, RaftMsgType.code, UInt8.le_iff_toNat_le] using h
  obtain ⟨k, hk, rfl⟩ : ∃ k : ℕ, k ≤ 5 ∧ t = UInt8.ofNat k :=
    ⟨t.toNat, hle, by simp⟩
  interval_cases k <;> rfl

theorem isValidType_code (type : RaftMsgType) : isValidType type.code := by
  cases type <;> decide

end RaftCodec

open RaftCodec

namespace DecodedRaftMsg

/-- The encoder takes the message. -/
structure Encodable (message : DecodedRaftMsg) : Prop where
  nonneg : 0 ≤ message.senderId
  fits : message.senderId ≤ int32Max
  short : message.payload.length ≤ kMaxFrameSize - 5

/-- The frame of a message. -/
def bytes (message : DecodedRaftMsg) : Bytes :=
  frame message.type.code message.senderId.toNat message.payload

theorem encode_eq {message : DecodedRaftMsg} (h : message.Encodable) :
    encode message.type.code message.senderId message.payload = .ok message.bytes := by
  have hvalid := isValidType_code message.type
  have hnonneg := h.nonneg
  have hshort := h.short
  rw [encode, if_neg (by simp [hvalid, hnonneg]), if_neg (by omega)]
  rfl

theorem length_bytes (message : DecodedRaftMsg) :
    message.bytes.length = message.payload.length + 9 := by
  simp only [bytes, frame, writeU32, List.length_append, List.length_cons, length_beBytes]
  omega

theorem bytes_eq (message : DecodedRaftMsg) :
    message.bytes = writeU32 (message.payload.length + 5) ++
      message.type.code :: (writeU32 message.senderId.toNat ++ message.payload) := by
  simp [bytes, frame]

theorem Encodable.beNat_length {message : DecodedRaftMsg} (h : message.Encodable) :
    beNat (writeU32 (message.payload.length + 5)) = message.payload.length + 5 := by
  have hshort := h.short
  have hmax : kMaxFrameSize = 10485760 := rfl
  exact beNat_beBytes (by omega)

theorem Encodable.not_badLength {message : DecodedRaftMsg} (h : message.Encodable) :
    ¬ BadLength (message.payload.length + 5) := by
  have hshort := h.short
  have hmax : kMaxFrameSize = 10485760 := rfl
  rw [BadLength]
  omega

end DecodedRaftMsg

namespace RaftCodec

variable {data : Bytes} {message : DecodedRaftMsg} {n : ℕ}

theorem tryDecode_bytes (h : message.Encodable) (suffix : Bytes) :
    tryDecode (message.bytes ++ suffix) = .ok (some message, message.bytes.length) := by
  have hnonneg := h.nonneg
  have hfits := h.fits
  have hmax : int32Max = 2147483647 := rfl
  have hsender : beNat (writeU32 message.senderId.toNat) = message.senderId.toNat :=
    beNat_beBytes (by omega)
  have hheader : ¬ (¬ isValidType message.type.code ∨ int32Max < message.senderId.toNat) := by
    have hvalid := isValidType_code message.type
    rintro (hbad | hbad)
    · exact hbad hvalid
    · omega
  have hlength : 4 + (message.payload.length + 5) = message.payload.length + 9 := by omega
  rw [message.length_bytes, message.bytes_eq, List.append_assoc, List.cons_append,
    List.append_assoc, tryDecode_header _ _ (length_writeU32 _) (length_writeU32 _),
    h.beNat_length, hsender, if_neg h.not_badLength,
    if_neg (by rw [List.length_append]; omega), if_neg hheader, Nat.add_sub_cancel,
    List.take_left, ofCode_code, Int.toNat_of_nonneg hnonneg, hlength]

/-- What is decoded is a frame at the start of the string. -/
theorem tryDecode_complete_iff : tryDecode data = .ok (some message, n) ↔
      message.Encodable ∧ n = message.bytes.length ∧ message.bytes <+: data := by
  constructor
  · intro h
    have hlong : 9 ≤ data.length := by
      by_contra hshort
      rw [tryDecode_short (not_le.mp hshort)] at h
      split_ifs at h
      cases h
    obtain ⟨l, t, s, rest, rfl, hl, hs⟩ := exists_header hlong
    rw [tryDecode_header t rest hl hs] at h
    split_ifs at h with hbad hmore hheader
    · cases h
    rw [not_or, not_not, not_lt] at hheader
    rw [BadLength, not_or, not_lt, not_lt] at hbad
    cases h
    have hpayload : (rest.take (beNat l - 5)).length = beNat l - 5 := by
      rw [List.length_take]
      omega
    refine ⟨⟨Int.natCast_nonneg _, hheader.2, ?_⟩, ?_, ?_⟩
    · dsimp only
      omega
    · rw [DecodedRaftMsg.length_bytes]
      dsimp only
      omega
    rw [DecodedRaftMsg.bytes_eq]
    dsimp only
    rw [hpayload, Nat.sub_add_cancel hbad.1, writeU32_beNat hl, code_ofCode hheader.1,
      Int.toNat_natCast, writeU32_beNat hs]
    refine ⟨rest.drop (beNat l - 5), ?_⟩
    simp
  · rintro ⟨hencodable, rfl, suffix, rfl⟩
    exact tryDecode_bytes hencodable suffix

/-- A frame that is cut short makes the decoder wait. -/
theorem tryDecode_take (h : message.Encodable) (hn : n < message.bytes.length) :
    tryDecode (message.bytes.take n) = .ok (none, 0) := by
  have hlength : (message.bytes.take n).length = n := by
    rw [List.length_take]
    omega
  by_cases hshort : n < 9
  · rw [tryDecode_short (by omega), if_neg]
    rintro ⟨hfour, hbad⟩
    rw [List.take_take, min_eq_left (by omega), message.bytes_eq,
      List.take_left' (length_writeU32 _), h.beNat_length] at hbad
    exact h.not_badLength hbad
  have htake : message.bytes.take n = writeU32 (message.payload.length + 5) ++
      message.type.code :: (writeU32 message.senderId.toNat ++ message.payload.take (n - 9)) := by
    have hheader : (writeU32 (message.payload.length + 5) ++
        message.type.code :: writeU32 message.senderId.toNat).length = 9 := by
      simp [length_writeU32]
    rw [DecodedRaftMsg.bytes, frame, List.take_append, List.take_of_length_le (by omega), hheader]
    simp
  rw [message.length_bytes] at hn
  rw [htake, tryDecode_header _ _ (length_writeU32 _) (length_writeU32 _), h.beNat_length,
    if_neg h.not_badLength, if_pos (by rw [List.length_take]; omega)]

theorem tryDecode_complete_append (suffix : Bytes) (h : tryDecode data = .ok (some message, n)) :
    tryDecode (data ++ suffix) = .ok (some message, n) := by
  obtain ⟨hencodable, hn, hprefix⟩ := tryDecode_complete_iff.mp h
  exact tryDecode_complete_iff.mpr ⟨hencodable, hn, hprefix.trans (List.prefix_append _ _)⟩

theorem tryDecode_error_append {error : CodecError} (suffix : Bytes)
    (h : tryDecode data = .error error) : tryDecode (data ++ suffix) = .error error := by
  have hfour : 4 ≤ data.length := by
    by_contra hshort
    rw [tryDecode_short (by omega), if_neg (by tauto)] at h
    cases h
  by_cases hshort : data.length < 9
  · rw [tryDecode_short hshort] at h
    split_ifs at h with hbad
    rw [tryDecode_length (by rw [List.length_append]; omega),
      List.take_append_of_le_length hfour, if_pos hbad.2]
    exact h
  obtain ⟨l, t, s, rest, rfl, hl, hs⟩ := exists_header (not_lt.mp hshort)
  rw [tryDecode_header t rest hl hs] at h
  rw [List.append_assoc, List.cons_append, List.append_assoc, tryDecode_header t _ hl hs]
  split_ifs at h with hbad hmore hheader
  · rw [if_pos hbad]
    exact h
  · rw [if_neg hbad, if_neg (by rw [List.length_append]; omega), if_pos hheader]
    exact h

end RaftCodec

end RaftKV
