import RaftKV.Resp

/-!
# The grammar of commands

A command is a header with the number of its arguments and then each argument as a bulk string :
a header with its length, its bytes and CRLF. `Sentence` says so without a parser, and
`resp_grammar` says that `TryParseOne` accepts exactly the sentences at the front of its input,
asks for more bytes on every proper part of one, and reads back what `SerializeCommand` wrote.
Headers may have leading zeros, and the bytes of an argument may be anything, also CRLF.
-/

namespace RaftKV

/-! ## Headers -/

/-- A length header : a byte that tells its kind, 1 to 20 digits and CRLF. -/
def IsHeader (kind : UInt8) (value : ℕ) (b : Bytes) : Prop :=
  ∃ digits : Bytes, b = kind :: (digits ++ [13, 10]) ∧ 1 ≤ digits.length ∧ digits.length ≤ 20 ∧
    digits.all isDigit = true ∧ decimalValue digits = value

variable {b raw : Bytes} {n pos : ℕ} {args : List Bytes}

theorem IsHeader.length_le {kind : UInt8} {value : ℕ} (h : IsHeader kind value b) :
    4 ≤ b.length ∧ b.length ≤ 23 := by
  obtain ⟨digits, rfl, hpos, hle, -, -⟩ := h
  simp only [List.length_cons, List.length_append, List.length_nil]
  omega

theorem ne_cr_of_isDigit {c : UInt8} (h : isDigit c = true) : c ≠ 13 := by
  rintro rfl
  cases h

/-- The first CRLF of a string is after its bytes that are not CR. -/
theorem findCrlf_append {a : Bytes} (ha : ∀ x ∈ a, x ≠ 13) (rest : Bytes) :
    findCrlf (a ++ 13 :: 10 :: rest) = some a.length := by
  induction a with
  | nil => rfl
  | cons x a ih =>
    have hx : x ≠ 13 := ha x List.mem_cons_self
    have htail := ih fun y hy => ha y (List.mem_cons_of_mem x hy)
    cases a with
    | nil => simp [findCrlf, hx]
    | cons y a =>
      simp only [List.cons_append] at htail ⊢
      rw [findCrlf, if_neg fun h => hx h.1, htail]
      rfl

/-- There is no CRLF without CR, or with a CR at the end only. -/
theorem findCrlf_eq_none {a : Bytes} (ha : ∀ x ∈ a, x ≠ 13) (hb : b <+: a ++ [13]) :
    findCrlf b = none := by
  induction a generalizing b with
  | nil =>
    rcases List.prefix_cons_iff.mp hb with rfl | ⟨t, rfl, ht⟩
    · rfl
    · rw [List.prefix_nil.mp ht]
      rfl
  | cons x a ih =>
    have hx : x ≠ 13 := ha x List.mem_cons_self
    rcases List.prefix_cons_iff.mp hb with rfl | ⟨t, rfl, ht⟩
    · rfl
    have htail := ih (fun y hy => ha y (List.mem_cons_of_mem x hy)) ht
    cases t with
    | nil => rfl
    | cons y t => rw [findCrlf, if_neg fun h => hx h.1, htail, Option.map_none]

theorem findCrlf_eq_some (h : findCrlf b = some n) :
    b = b.take n ++ 13 :: 10 :: b.drop (n + 2) := by
  induction b generalizing n with
  | nil => cases h
  | cons x b ih =>
    cases b with
    | nil => cases h
    | cons y b =>
      rw [findCrlf] at h
      split_ifs at h with hxy
      · obtain rfl := Option.some.inj h
        obtain ⟨rfl, rfl⟩ := hxy
        rfl
      obtain ⟨m, hm, rfl⟩ := Option.map_eq_some_iff.mp h
      have hrest := ih hm
      rw [List.take_succ_cons, List.cons_append]
      exact congrArg (x :: ·) hrest

theorem number_complete_iff {value next limit : ℕ} {kind : UInt8}
    (hkind : kind ≠ 13) (hlimit : limit ≤ uint64Max) :
    number raw pos kind limit = .complete value next ↔ value ≤ limit ∧
      ∃ b, IsHeader kind value b ∧ b <+: raw.drop pos ∧ next = pos + b.length := by
  constructor
  · intro h
    cases hdrop : raw.drop pos with
    | nil =>
      rw [number, hdrop] at h
      cases h
    | cons c rest =>
      rw [number, hdrop] at h
      dsimp only at h
      by_cases hc : c = kind
      swap
      · rw [if_pos hc] at h
        cases h
      rw [if_neg (not_not.mpr hc)] at h
      subst hc
      cases hcrlf : findCrlf (c :: rest) with
      | none =>
        rw [hcrlf] at h
        dsimp only at h
        split_ifs at h
      | some n =>
        rw [hcrlf] at h
        dsimp only at h
        split_ifs at h with hsize hdigits hbig
        rw [NumberResult.complete.injEq] at h
        obtain ⟨rfl, rfl⟩ := h
        push Not at hsize hbig
        have hsplit := findCrlf_eq_some hcrlf
        cases n with
        | zero => exact absurd rfl hsize.1
        | succ n =>
          simp only [List.take_succ_cons, List.drop_succ_cons, List.drop_zero, List.cons_append,
            List.cons.injEq, true_and] at hsplit hsize hdigits hbig ⊢
          refine ⟨hbig.2, c :: (rest.take n ++ [13, 10]),
            ⟨rest.take n, rfl, List.length_pos_iff.mpr hsize.1, hsize.2, hdigits, rfl⟩,
            ⟨rest.drop (n + 2), ?_⟩, ?_⟩
          · rw [List.cons_append, List.append_assoc]
            exact congrArg (c :: ·) hsplit.symm
          have hlen := congrArg List.length hsplit
          simp only [List.length_cons, List.length_append, List.length_take, List.length_drop,
            List.length_nil] at hlen ⊢
          omega
  · rintro ⟨hvalue, b, ⟨digits, rfl, hpos, hle, hdigits, rfl⟩, ⟨rest, hrest⟩, rfl⟩
    have hcr : ∀ x ∈ kind :: digits, x ≠ 13 := by
      intro x hx
      rcases List.mem_cons.mp hx with rfl | hx
      · exact hkind
      · exact ne_cr_of_isDigit (List.all_eq_true.mp hdigits x hx)
    have hdrop : raw.drop pos = (kind :: digits) ++ 13 :: 10 :: rest := by
      rw [← hrest]
      simp
    have hfind : findCrlf (raw.drop pos) = some (digits.length + 1) := by
      rw [hdrop, findCrlf_append hcr, List.length_cons]
    have htake : ((raw.drop pos).take (digits.length + 1)).drop 1 = digits := by
      rw [hdrop, List.take_left' (by simp)]
      rfl
    have hne : digits ≠ [] := List.length_pos_iff.mp hpos
    have hcons : raw.drop pos = kind :: (digits ++ 13 :: 10 :: rest) := hdrop
    rw [number, hcons]
    dsimp only
    rw [if_neg (not_not.mpr rfl), ← hcons, hfind]
    dsimp only
    rw [htake, if_neg (by push Not; exact ⟨hne, hle⟩), if_pos hdigits,
      if_neg (by push Not; exact ⟨hvalue.trans hlimit, hvalue⟩), NumberResult.complete.injEq]
    refine ⟨rfl, ?_⟩
    simp only [List.length_cons, List.length_append, List.length_nil]
    omega

/-- The bytes are a part of a header that has not ended. -/
theorem number_needMore_of_prefix {value limit : ℕ} {kind : UInt8}
    (hkind : kind ≠ 13) (hb : IsHeader kind value b) (hpre : raw.drop pos <+: b)
    (hne : raw.drop pos ≠ b) : number raw pos kind limit = .needMore := by
  obtain ⟨digits, rfl, hpos, hle, hdigits, rfl⟩ := hb
  have hcr : ∀ x ∈ kind :: digits, x ≠ 13 := by
    intro x hx
    rcases List.mem_cons.mp hx with rfl | hx
    · exact hkind
    · exact ne_cr_of_isDigit (List.all_eq_true.mp hdigits x hx)
  -- a proper part ends before the last byte, so it has no CRLF
  have hshort : raw.drop pos <+: (kind :: digits) ++ [13] := by
    have hcons : kind :: (digits ++ [13, 10]) = ((kind :: digits) ++ [13]) ++ [10] := by simp
    rw [hcons] at hpre hne
    rcases List.prefix_concat_iff.mp hpre with heq | h
    · exact absurd heq hne
    · exact h
  have hnone := findCrlf_eq_none hcr hshort
  have hlen := hshort.length_le
  simp only [List.length_append, List.length_cons, List.length_nil, List.length_drop] at hlen
  rw [number]
  split
  · rfl
  next c rest hdrop =>
    have hc : c = kind := by
      rw [hdrop] at hpre
      exact (List.cons_prefix_cons.mp hpre).1
    rw [if_neg (not_not.mpr hc), hnone]
    exact if_neg (by omega)

/-! ## Sentences -/

/-- Bulk strings from an offset on, each of which ends within the limit on a command. -/
inductive Bulks : ℕ → List Bytes → Bytes → Prop where
  | nil (pos : ℕ) : Bulks pos [] []
  | cons {pos : ℕ} {header arg rest : Bytes} {args : List Bytes}
      (hheader : IsHeader 36 arg.length header)
      (hfits : pos + header.length + arg.length + 2 ≤ kMaxCommandBytes)
      (hrest : Bulks (pos + header.length + arg.length + 2) args rest) :
      Bulks pos (arg :: args) (header ++ arg ++ [13, 10] ++ rest)

/-- A command in the bytes of the protocol. -/
def Sentence (args : List Bytes) (b : Bytes) : Prop :=
  1 ≤ args.length ∧ args.length ≤ kMaxArguments ∧ ∃ header rest, b = header ++ rest ∧
    IsHeader 42 args.length header ∧ Bulks header.length args rest

theorem parseArgs_succ {header arg rest : Bytes} (hheader : IsHeader 36 arg.length header)
    (hfits : pos + header.length + arg.length + 2 ≤ kMaxCommandBytes)
    (hraw : raw.drop pos = header ++ arg ++ [13, 10] ++ rest) : parseArgs raw (n + 1) pos args =
      parseArgs raw n (pos + header.length + arg.length + 2) (args ++ [arg]) := by
  have hnumber : number raw pos 36 kMaxCommandBytes =
      .complete arg.length (pos + header.length) := by
    refine (number_complete_iff (by decide) (by decide)).mpr ⟨by omega, header, hheader, ?_, rfl⟩
    rw [hraw, List.append_assoc, List.append_assoc]
    exact List.prefix_append header _
  have hbody : raw.drop (pos + header.length) = arg ++ 13 :: 10 :: rest := by
    rw [← List.drop_drop, hraw, List.append_assoc, List.append_assoc, List.drop_left]
    simp
  have hlen := congrArg List.length hbody
  simp only [List.length_drop, List.length_append, List.length_cons] at hlen
  have hcr : raw[pos + header.length + arg.length]? = some 13 := by
    rw [← List.getElem?_drop, hbody, List.getElem?_append_right le_rfl, Nat.sub_self]
    rfl
  have hlf : raw[pos + header.length + arg.length + 1]? = some 10 := by
    rw [Nat.add_assoc, ← List.getElem?_drop, hbody, List.getElem?_append_right (by omega),
      Nat.add_sub_cancel_left]
    rfl
  rw [parseArgs, hnumber]
  dsimp only
  rw [if_neg (by omega), if_neg (by omega), if_neg (by simp [hcr, hlf]), hbody, List.take_left]

/-- The loop reads bulk strings, and nothing else. -/
theorem parseArgs_complete_iff {consumed : ℕ} {all : List Bytes} :
    parseArgs raw n pos args = { state := .complete, consumed := consumed, args := all } ↔
      ∃ new b, all = args ++ new ∧ new.length = n ∧ Bulks pos new b ∧ b <+: raw.drop pos ∧
        consumed = pos + b.length := by
  induction n generalizing pos args with
  | zero =>
    constructor
    · intro h
      simp only [parseArgs, ParseResult.mk.injEq, and_true, true_and] at h
      obtain ⟨rfl, rfl⟩ := h
      exact ⟨[], [], by simp, rfl, .nil pos, List.nil_prefix, rfl⟩
    rintro ⟨new, b, rfl, hnew, hbulks, -, rfl⟩
    obtain rfl := List.length_eq_zero_iff.mp hnew
    cases hbulks
    simp [parseArgs]
  | succ n ih =>
    constructor
    · intro h
      rw [parseArgs] at h
      cases hnumber : number raw pos 36 kMaxCommandBytes with
      | invalid =>
        rw [hnumber] at h
        cases h
      | needMore =>
        rw [hnumber] at h
        cases h
      | complete length next =>
        rw [hnumber] at h
        dsimp only at h
        split_ifs at h with hlarge hshort hend
        · cases h
        · cases h
        · cases h
        push Not at hend
        obtain ⟨-, header, hheader, hpre, rfl⟩ :=
          (number_complete_iff (by decide) (by decide)).mp hnumber
        obtain ⟨new, b, rfl, rfl, hbulks, hb, rfl⟩ := ih.mp h
        have harg : ((raw.drop (pos + header.length)).take length).length = length := by
          rw [List.length_take, List.length_drop]
          omega
        -- the bytes at the cursor are the header, the argument, CRLF and the rest
        have hsplit : raw.drop pos = header ++ (raw.drop (pos + header.length)).take length ++
            [13, 10] ++ raw.drop (pos + header.length + length + 2) := by
          obtain ⟨tail, htail⟩ := hpre
          have hdrop : raw.drop (pos + header.length) = tail := by
            rw [← List.drop_drop, ← htail, List.drop_left]
          have hcr : tail[length]? = some 13 := by
            rw [← hdrop, List.getElem?_drop]
            exact hend.1
          have hlf : tail[length + 1]? = some 10 := by
            rw [← hdrop, List.getElem?_drop, ← Nat.add_assoc]
            exact hend.2
          have hrest : raw.drop (pos + header.length + length + 2) = tail.drop (length + 2) := by
            rw [← hdrop, List.drop_drop]
            congr 1
          rw [hrest, hdrop, ← htail]
          have htwo : tail.drop length = 13 :: 10 :: tail.drop (length + 2) := by
            rw [List.drop_eq_getElem?_toList_append, hcr, List.drop_eq_getElem?_toList_append, hlf]
            rfl
          conv_lhs => rw [← List.take_append_drop length tail, htwo]
          simp
        refine ⟨(raw.drop (pos + header.length)).take length :: new, _, by simp, by simp,
          Bulks.cons (harg.symm ▸ hheader) ?_ (harg.symm ▸ hbulks), ?_, ?_⟩
        · have hmax : kMaxCommandBytes = 1048576 := rfl
          rw [harg]
          omega
        · rw [hsplit]
          exact (List.prefix_append_right_inj _).mpr hb
        · simp only [List.length_append, harg, List.length_cons, List.length_nil]
          omega
    · rintro ⟨new, b, rfl, hnew, hbulks, ⟨tail, htail⟩, rfl⟩
      cases hbulks with
      | nil => cases hnew
      | cons hheader hfits hrest =>
        rename_i header arg rest args'
        have hraw : raw.drop pos = header ++ arg ++ [13, 10] ++ (rest ++ tail) := by
          rw [← htail]
          simp
        rw [parseArgs_succ hheader hfits hraw]
        refine ih.mpr ⟨args', rest, by simp, by simpa using hnew, hrest, ?_, ?_⟩
        · refine ⟨tail, ?_⟩
          rw [show pos + header.length + arg.length + 2 =
              pos + (header ++ arg ++ [13, 10]).length by
            simp; omega, ← List.drop_drop, hraw, List.drop_left]
        · simp only [List.length_append, List.length_cons, List.length_nil]
          omega

/-- The bytes end within bulk strings that have not ended. -/
theorem parseArgs_needMore_of_prefix {new : List Bytes}
    (hbulks : Bulks pos new b) (hpre : raw.drop pos <+: b) (hne : raw.drop pos ≠ b) :
    (parseArgs raw new.length pos args).state = .needMore := by
  induction hbulks generalizing args with
  | nil => exact absurd (List.prefix_nil.mp hpre) hne
  | cons hheader hfits hrest ih =>
    rename_i pos header arg rest args'
    rw [List.length_cons]
    have hall : header ++ arg ++ [13, 10] ++ rest = header ++ (arg ++ [13, 10] ++ rest) := by simp
    rw [hall] at hpre hne
    by_cases hin : header <+: raw.drop pos
    swap
    · -- the bytes end in the header
      have hpart : raw.drop pos <+: header :=
        (List.prefix_or_prefix_of_prefix hpre (List.prefix_append _ _)).resolve_right hin
      have hnumber : number raw pos 36 kMaxCommandBytes = .needMore :=
        number_needMore_of_prefix (by decide) hheader hpart fun heq => hin (by rw [heq])
      rw [parseArgs, hnumber]
    have hnumber : number raw pos 36 kMaxCommandBytes =
        .complete arg.length (pos + header.length) :=
      (number_complete_iff (by decide) (by decide)).mpr ⟨by omega, header, hheader, hin, rfl⟩
    obtain ⟨body, hbody⟩ := hin
    rw [← hbody, List.prefix_append_right_inj] at hpre
    have hlen : raw.length - (pos + header.length) = body.length := by
      have hsum := congrArg List.length hbody
      rw [List.length_append, List.length_drop] at hsum
      omega
    by_cases hshort : body.length < arg.length + 2
    · -- the bytes end in the argument or its CRLF
      rw [parseArgs, hnumber]
      dsimp only
      rw [if_neg (by omega), if_pos (by omega)]
    -- the bytes end in what follows
    have hterm : arg ++ [13, 10] <+: body :=
      List.prefix_of_prefix_length_le (List.prefix_append _ rest) hpre
        (by simp only [List.length_append, List.length_cons, List.length_nil]; omega)
    obtain ⟨tail, rfl⟩ := hterm
    rw [List.prefix_append_right_inj] at hpre
    have hraw : raw.drop pos = header ++ arg ++ [13, 10] ++ tail := by
      rw [← hbody]
      simp
    have hdrop : raw.drop (pos + header.length + arg.length + 2) = tail := by
      rw [show pos + header.length + arg.length + 2 = pos + (header ++ arg ++ [13, 10]).length by
        simp; omega, ← List.drop_drop, hraw, List.drop_left]
    rw [parseArgs_succ hheader hfits hraw]
    rw [hdrop] at ih
    refine ih hpre fun heq => hne ?_
    rw [hraw, heq]
    simp

/-- **The parser accepts exactly the sentences.** -/
theorem tryParseOne_complete_iff {args : List Bytes} {n : ℕ} :
    tryParseOne raw = { state := .complete, consumed := n, args := args } ↔
      n ≤ raw.length ∧ Sentence args (raw.take n) := by
  constructor
  · intro h
    rw [tryParseOne] at h
    cases hnumber : number raw 0 42 kMaxArguments with
    | invalid =>
      rw [hnumber] at h
      cases h
    | needMore =>
      rw [hnumber] at h
      cases h
    | complete count pos =>
      rw [hnumber] at h
      dsimp only at h
      split_ifs at h with hcount
      · cases h
      obtain ⟨hle, header, hheader, hpre, rfl⟩ :=
        (number_complete_iff (by decide) (by decide)).mp hnumber
      obtain ⟨new, b, rfl, rfl, hbulks, hb, rfl⟩ := parseArgs_complete_iff.mp h
      rw [zero_add] at *
      obtain ⟨tail, htail⟩ := hpre
      rw [List.drop_zero] at htail
      have hdrop : raw.drop header.length = tail := by rw [← htail, List.drop_left]
      rw [hdrop] at hb
      obtain ⟨rest, rfl⟩ := hb
      refine ⟨by rw [← htail]; simp, by omega, hle, header, b, ?_, hheader, hbulks⟩
      rw [← htail, ← List.append_assoc, List.take_left' (by simp)]
  · rintro ⟨hn, hpos, hle, header, rest, htake, hheader, hbulks⟩
    have hlen : n = header.length + rest.length := by
      have hsum := congrArg List.length htake
      rw [List.length_take, List.length_append] at hsum
      omega
    have hraw : raw = header ++ (rest ++ raw.drop n) := by
      rw [← List.append_assoc, ← htake, List.take_append_drop]
    have hnumber : number raw 0 42 kMaxArguments = .complete args.length header.length := by
      refine (number_complete_iff (by decide) (by decide)).mpr ⟨hle, header, hheader, ?_, by simp⟩
      rw [List.drop_zero]
      exact ⟨_, hraw.symm⟩
    rw [tryParseOne, hnumber]
    dsimp only
    rw [if_neg (by omega)]
    refine parseArgs_complete_iff.mpr ⟨args, rest, rfl, rfl, hbulks, ?_, hlen⟩
    refine ⟨raw.drop n, ?_⟩
    conv_rhs => rw [hraw, List.drop_left]

/-- The parser asks for more bytes on every proper part of a sentence. -/
theorem tryParseOne_needMore_of_prefix (hb : Sentence args b)
    (hpre : raw <+: b) (hne : raw ≠ b) : (tryParseOne raw).state = .needMore := by
  obtain ⟨hpos, hle, header, rest, rfl, hheader, hbulks⟩ := hb
  by_cases hin : header <+: raw
  swap
  · have hpart : raw <+: header :=
      (List.prefix_or_prefix_of_prefix hpre (List.prefix_append _ _)).resolve_right hin
    have hnumber : number raw 0 42 kMaxArguments = .needMore :=
      number_needMore_of_prefix (by decide) hheader hpart fun heq =>
        hin (by rw [← heq]; exact List.prefix_rfl)
    rw [tryParseOne, hnumber]
  have hnumber : number raw 0 42 kMaxArguments = .complete args.length header.length :=
    (number_complete_iff (by decide) (by decide)).mpr ⟨hle, header, hheader, hin, by simp⟩
  obtain ⟨body, rfl⟩ := hin
  rw [List.prefix_append_right_inj] at hpre
  rw [tryParseOne, hnumber]
  dsimp only
  rw [if_neg (by omega)]
  refine parseArgs_needMore_of_prefix hbulks ?_ ?_ <;> rw [List.drop_left]
  · exact hpre
  · exact fun heq => hne (by rw [heq])

/-! ## Serialized commands -/

/-- `std::to_string` of a size. -/
def decimal (n : ℕ) : Bytes :=
  (Nat.toDigits 10 n).map fun c => UInt8.ofNat c.toNat

/-- `Bulk`. -/
def bulk (value : Bytes) : Bytes :=
  36 :: decimal value.length ++ [13, 10] ++ value ++ [13, 10]

/-- `SerializeCommand`. -/
def serializeCommand (args : List Bytes) : Bytes :=
  42 :: decimal args.length ++ [13, 10] ++ args.flatMap bulk

theorem toNat_of_isDigit {c : Char} (hc : c.isDigit = true) :
    48 ≤ c.toNat ∧ c.toNat ≤ 57 ∧ (UInt8.ofNat c.toNat).toNat = c.toNat := by
  have hrange : 48 ≤ c.toNat ∧ c.toNat ≤ 57 := by
    simp only [Char.isDigit, Bool.and_eq_true, decide_eq_true_eq] at hc
    exact ⟨UInt32.le_iff_toNat_le.mp hc.1, UInt32.le_iff_toNat_le.mp hc.2⟩
  refine ⟨hrange.1, hrange.2, ?_⟩
  rw [toNat_ofNat_byte]
  omega

theorem foldl_digits {cs : List Char} (hcs : ∀ c ∈ cs, c.isDigit = true) (acc : ℕ) :
    (cs.map fun c => UInt8.ofNat c.toNat).foldl (fun acc c => acc * 10 + (c.toNat - 48)) acc =
      Nat.ofDigitChars 10 cs acc := by
  induction cs generalizing acc with
  | nil => rfl
  | cons c cs ih =>
    obtain ⟨-, -, hbyte⟩ := toNat_of_isDigit (hcs c List.mem_cons_self)
    rw [List.map_cons, List.foldl_cons, ih fun x hx => hcs x (List.mem_cons_of_mem c hx),
      Nat.ofDigitChars_cons, hbyte, Nat.mul_comm]
    rfl

theorem isDigit_toDigits {c : Char} (hc : c ∈ Nat.toDigits 10 n) : c.isDigit = true :=
  Nat.isDigit_of_mem_toDigits (by decide) le_rfl hc

theorem decimal_digits (n : ℕ) : (decimal n).all isDigit = true := by
  rw [List.all_eq_true]
  intro b hb
  obtain ⟨c, hc, rfl⟩ := List.mem_map.mp hb
  obtain ⟨hlow, hhigh, hbyte⟩ := toNat_of_isDigit (isDigit_toDigits hc)
  rw [isDigit, Bool.and_eq_true, decide_eq_true_eq, decide_eq_true_eq, UInt8.le_iff_toNat_le,
    UInt8.le_iff_toNat_le, hbyte]
  exact ⟨hlow, hhigh⟩

theorem decimalValue_decimal (n : ℕ) : decimalValue (decimal n) = n := by
  rw [decimalValue, decimal, foldl_digits fun c hc => isDigit_toDigits hc,
    Nat.ofDigitChars_toDigits (by decide) le_rfl]

theorem isHeader_decimal (kind : UInt8) (hn : n < 10 ^ 20) :
    IsHeader kind n (kind :: (decimal n ++ [13, 10])) := by
  refine ⟨decimal n, rfl, ?_, ?_, decimal_digits n, decimalValue_decimal n⟩
  · rw [decimal, List.length_map]
    exact Nat.length_toDigits_pos
  · rw [decimal, List.length_map]
    exact (Nat.length_toDigits_le_iff (by decide) (by decide)).mpr hn

theorem bulks_flatMap (args : List Bytes)
    (hfits : pos + (args.flatMap bulk).length ≤ kMaxCommandBytes) :
    Bulks pos args (args.flatMap bulk) := by
  induction args generalizing pos with
  | nil => exact .nil pos
  | cons arg args ih =>
    have hbulk : (arg :: args).flatMap bulk =
        (36 :: (decimal arg.length ++ [13, 10])) ++ arg ++ [13, 10] ++ args.flatMap bulk := by
      simp [bulk]
    rw [hbulk] at hfits ⊢
    have hmax : kMaxCommandBytes = 1048576 := rfl
    simp only [List.length_append, List.length_cons, List.length_nil] at hfits
    refine Bulks.cons (isHeader_decimal 36 (by omega)) ?_ (ih ?_)
    · simp only [List.length_append, List.length_cons, List.length_nil]
      omega
    · simp only [List.length_append, List.length_cons, List.length_nil]
      omega

theorem sentence_serializeCommand (hne : args ≠ []) (hcount : args.length ≤ kMaxArguments)
    (hsize : (serializeCommand args).length ≤ kMaxCommandBytes) :
    Sentence args (serializeCommand args) := by
  have hmax : kMaxArguments = 1024 := rfl
  have hsplit : serializeCommand args =
      (42 :: (decimal args.length ++ [13, 10])) ++ args.flatMap bulk := by
    simp [serializeCommand]
  rw [hsplit, List.length_append] at hsize
  exact ⟨List.length_pos_iff.mpr hne, hcount, _, _, hsplit, isHeader_decimal 42 (by omega),
    bulks_flatMap args hsize⟩

/-- **The parser accepts exactly its grammar**, and reads back what was serialized. -/
theorem resp_grammar :
    (∀ raw args n, tryParseOne raw = { state := .complete, consumed := n, args := args } ↔
      n ≤ raw.length ∧ Sentence args (raw.take n)) ∧
    (∀ args b raw, Sentence args b → raw <+: b → raw ≠ b →
      (tryParseOne raw).state = .needMore) ∧
    ∀ args more, args ≠ [] → args.length ≤ kMaxArguments →
      (serializeCommand args).length ≤ kMaxCommandBytes →
      tryParseOne (serializeCommand args ++ more) =
        { state := .complete, consumed := (serializeCommand args).length, args := args } := by
  refine ⟨fun raw args n => tryParseOne_complete_iff,
    fun args b raw hb hpre hne => tryParseOne_needMore_of_prefix hb hpre hne,
    fun args more hne hcount hsize => tryParseOne_complete_iff.mpr ⟨by simp, ?_⟩⟩
  rw [List.take_left]
  exact sentence_serializeCommand hne hcount hsize

end RaftKV
