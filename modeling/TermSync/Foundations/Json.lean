import Mathlib.Data.List.TakeWhile
import TermSync.Foundations.Decimal
import TermSync.Foundations.Lines
import TermSync.Foundations.Utf8

/-!
# JSON texts

The grammar of JSON on bytes (`parse`), strict about control characters, escapes, leading zeros and
what follows the value. A text is well formed (`WellFormed`) when it is valid UTF-8 and the grammar
accepts it.

A writer that puts a text between quotes without escaping it can rely on it exactly when the text is
`Plain`: `parseString_plain` reads a plain text back, and `plain_of_parseString` says that in front of
further members no other text is read back as itself.
-/

namespace Foundations.Json

/-- A JSON value. A number keeps its numeral, and a string is the bytes it denotes. -/
inductive Value where
  | null
  | bool (b : Bool)
  | number (numeral : List UInt8)
  | string (text : List UInt8)
  | array (items : List Value)
  | object (members : List (List UInt8 × Value))
  deriving Repr

/-! ## Lexical elements -/

/-- White space between the elements of a text. -/
def isSpace (b : UInt8) : Bool := b = 32 || b = 9 || b = 10 || b = 13

def skip (text : List UInt8) : List UInt8 := text.dropWhile isSpace

/-- The text behind a byte that has to come next. -/
def expect (b : UInt8) : List UInt8 → Option (List UInt8)
  | [] => none
  | c :: text => if c = b then some text else none

/-- The text behind a word that has to come next. -/
def expectWord (word text : List UInt8) : Option (List UInt8) :=
  if word.isPrefixOf text then some (text.drop word.length) else none

/-- Digits, of which there is at least one. -/
def digits1 (text : List UInt8) : Option (List UInt8 × List UInt8) :=
  match Decimal.span text with
  | ([], _) => none
  | (ds, rest) => some (ds, rest)

/-- `-? (0 | [1-9] [0-9]*)` -/
def parseInteger (text : List UInt8) : Option (List UInt8 × List UInt8) := do
  let sign := if text.head? = some 45 then [45] else []
  let (ds, rest) ← digits1 (text.drop sign.length)
  if ds.head? = some 48 ∧ ds.length ≠ 1 then none else some (sign ++ ds, rest)

/-- `(. [0-9]+)?` -/
def parseFraction (text : List UInt8) : Option (List UInt8 × List UInt8) :=
  match expect 46 text with
  | none => some ([], text)
  | some rest => (digits1 rest).map fun (ds, rest) => (46 :: ds, rest)

/-- `([eE] [+-]? [0-9]+)?` -/
def parseExponent (text : List UInt8) : Option (List UInt8 × List UInt8) :=
  match text with
  | [] => some ([], [])
  | e :: rest =>
    if e = 101 ∨ e = 69 then
      let sign := if rest.head? = some 43 ∨ rest.head? = some 45 then rest.take 1 else []
      (digits1 (rest.drop sign.length)).map fun (ds, rest) => (e :: (sign ++ ds), rest)
    else some ([], text)

def parseNumber (text : List UInt8) : Option (List UInt8 × List UInt8) := do
  let (whole, rest) ← parseInteger text
  let (fraction, rest) ← parseFraction rest
  let (exponent, rest) ← parseExponent rest
  some (whole ++ fraction ++ exponent, rest)

/-! ## Strings -/

/-- A piece of a string: a byte, or a UTF-16 code unit that is given by its number. -/
inductive Piece where
  | byte (b : UInt8)
  | unit (u : ℕ)
  deriving DecidableEq, Repr

/-- What a backslash and this byte stand for. -/
def simpleEscape (e : UInt8) : Option UInt8 :=
  if e = 34 ∨ e = 92 ∨ e = 47 then some e
  else if e = 98 then some 8
  else if e = 102 then some 12
  else if e = 110 then some 10
  else if e = 114 then some 13
  else if e = 116 then some 9
  else none

/-- The value of a hexadecimal digit. -/
def hexOf (b : UInt8) : Option ℕ :=
  if 48 ≤ b ∧ b ≤ 57 then some (b.toNat - 48)
  else if 97 ≤ b ∧ b ≤ 102 then some (b.toNat - 87)
  else if 65 ≤ b ∧ b ≤ 70 then some (b.toNat - 55)
  else none

/-- The pieces of a string up to its closing quote, and the text behind the quote. -/
def scanString : List UInt8 → Option (List Piece × List UInt8)
  | [] => none
  | b :: text =>
    if b = 34 then some ([], text)
    else if b < 32 then none
    else if b = 92 then
      match text with
      | 117 :: h₁ :: h₂ :: h₃ :: h₄ :: text => do
        let d₁ ← hexOf h₁
        let d₂ ← hexOf h₂
        let d₃ ← hexOf h₃
        let d₄ ← hexOf h₄
        let (pieces, rest) ← scanString text
        some (.unit (4096 * d₁ + 256 * d₂ + 16 * d₃ + d₄) :: pieces, rest)
      | e :: text => do
        let c ← simpleEscape e
        let (pieces, rest) ← scanString text
        some (.byte c :: pieces, rest)
      | [] => none
    else do
      let (pieces, rest) ← scanString text
      some (.byte b :: pieces, rest)

/-- The bytes of a code point. -/
def utf8 (n : ℕ) : List UInt8 :=
  if n < 0x80 then [UInt8.ofNat n]
  else if n < 0x800 then [UInt8.ofNat (0xC0 + n / 64), UInt8.ofNat (0x80 + n % 64)]
  else if n < 0x10000 then
    [UInt8.ofNat (0xE0 + n / 4096), UInt8.ofNat (0x80 + n / 64 % 64), UInt8.ofNat (0x80 + n % 64)]
  else
    [UInt8.ofNat (0xF0 + n / 262144), UInt8.ofNat (0x80 + n / 4096 % 64),
      UInt8.ofNat (0x80 + n / 64 % 64), UInt8.ofNat (0x80 + n % 64)]

/-- The code units of surrogate pairs. -/
def isHigh (u : ℕ) : Bool := 0xD800 ≤ u && u < 0xDC00

def isLow (u : ℕ) : Bool := 0xDC00 ≤ u && u < 0xE000

/-- The bytes that some pieces denote, behind a high surrogate that may wait for a low one. -/
def decodePieces : Option ℕ → List Piece → List UInt8
  | waiting, [] => waiting.elim [] utf8
  | waiting, .byte b :: pieces => waiting.elim [] utf8 ++ b :: decodePieces none pieces
  | none, .unit u :: pieces =>
    if isHigh u then decodePieces (some u) pieces else utf8 u ++ decodePieces none pieces
  | some high, .unit u :: pieces =>
    if isLow u then
      utf8 (0x10000 + (high - 0xD800) * 1024 + (u - 0xDC00)) ++ decodePieces none pieces
    else if isHigh u then utf8 high ++ decodePieces (some u) pieces
    else utf8 high ++ (utf8 u ++ decodePieces none pieces)

/-- A string behind its opening quote. -/
def parseString (text : List UInt8) : Option (List UInt8 × List UInt8) :=
  (scanString text).map fun (pieces, rest) => (decodePieces none pieces, rest)

/-! ## Values -/

mutual

/-- A value, with white space already skipped. `fuel` bounds the nesting and the number of members. -/
def parseValue : ℕ → List UInt8 → Option (Value × List UInt8)
  | 0, _ => none
  | fuel + 1, text =>
    match expect 34 text with
    | some text => (parseString text).map fun (s, rest) => (.string s, rest)
    | none =>
    match expect 123 text with
    | some text =>
      match expect 125 (skip text) with
      | some rest => some (.object [], rest)
      | none => (parseMembers fuel (skip text)).map fun (members, rest) => (.object members, rest)
    | none =>
    match expect 91 text with
    | some text =>
      match expect 93 (skip text) with
      | some rest => some (.array [], rest)
      | none => (parseItems fuel (skip text)).map fun (items, rest) => (.array items, rest)
    | none =>
    match expectWord [110, 117, 108, 108] text with
    | some rest => some (.null, rest)
    | none =>
    match expectWord [116, 114, 117, 101] text with
    | some rest => some (.bool true, rest)
    | none =>
    match expectWord [102, 97, 108, 115, 101] text with
    | some rest => some (.bool false, rest)
    | none => (parseNumber text).map fun (numeral, rest) => (.number numeral, rest)

/-- The members of an object up to its closing brace. -/
def parseMembers : ℕ → List UInt8 → Option (List (List UInt8 × Value) × List UInt8)
  | 0, _ => none
  | fuel + 1, text => do
    let text ← expect 34 text
    let (key, text) ← parseString text
    let text ← expect 58 (skip text)
    let (value, text) ← parseValue fuel (skip text)
    match expect 44 (skip text) with
    | some text => do
      let (members, rest) ← parseMembers fuel (skip text)
      some ((key, value) :: members, rest)
    | none => do
      let rest ← expect 125 (skip text)
      some ([(key, value)], rest)

/-- The items of an array up to its closing bracket. -/
def parseItems : ℕ → List UInt8 → Option (List Value × List UInt8)
  | 0, _ => none
  | fuel + 1, text => do
    let (value, text) ← parseValue fuel text
    match expect 44 (skip text) with
    | some text => do
      let (items, rest) ← parseItems fuel (skip text)
      some (value :: items, rest)
    | none => do
      let rest ← expect 93 (skip text)
      some ([value], rest)

end

/-- A text that is one value. Every call behind the first follows a byte that has been read, so the
length of the text is fuel enough. -/
def parse (text : List UInt8) : Option Value :=
  match parseValue (text.length + 1) (skip text) with
  | some (value, rest) => if skip rest = [] then some value else none
  | none => none

/-- A text in UTF-8 that is one value. -/
def WellFormed (text : List UInt8) (value : Value) : Prop :=
  Utf8.Valid text ∧ parse text = some value

/-- A member that stands once in an object. -/
def Value.Has (value : Value) (key : List UInt8) (member : Value) : Prop :=
  ∃ members, value = .object members ∧ members.filter (fun m => m.1 = key) = [(key, member)]

/-- The integer that a numeral denotes, unless it has a fraction or an exponent. -/
def integerOf (numeral : List UInt8) : Option ℤ :=
  let negative := numeral.head? = some 45
  let ds := if negative then numeral.tail else numeral
  if ds.all Decimal.isDigit then
    some (if negative then -(Decimal.value ds : ℤ) else Decimal.value ds)
  else none

/-- A member that stands once in an object and is an integer. -/
def Value.HasInteger (value : Value) (key : List UInt8) (n : ℤ) : Prop :=
  ∃ numeral, value.Has key (.number numeral) ∧ integerOf numeral = some n

/-! ## Texts that stand for themselves -/

/-- A text that needs no escapes between its quotes. -/
def Plain (text : List UInt8) : Prop := ∀ b ∈ text, 32 ≤ b ∧ b ≠ 34 ∧ b ≠ 92

instance (text : List UInt8) : Decidable (Plain text) :=
  inferInstanceAs (Decidable (∀ b ∈ text, _))

theorem plain_cons {b : UInt8} {text : List UInt8} :
    Plain (b :: text) ↔ (32 ≤ b ∧ b ≠ 34 ∧ b ≠ 92) ∧ Plain text := List.forall_mem_cons

theorem scanString_plain {text : List UInt8} (h : Plain text) (rest : List UInt8) :
    scanString (text ++ 34 :: rest) = some (text.map .byte, rest) := by
  induction text with
  | nil =>
    rw [List.nil_append, scanString.eq_def]
    rfl
  | cons b text ih =>
    obtain ⟨⟨hle, hquote, hslash⟩, htext⟩ := plain_cons.mp h
    have hlt : ¬ b < 32 := UInt8.not_lt.mpr hle
    rw [List.cons_append, scanString.eq_def]
    simp only [if_neg hquote, if_neg hlt, if_neg hslash, ih htext]
    rfl

theorem decodePieces_map_byte (text : List UInt8) : decodePieces none (text.map .byte) = text := by
  induction text with
  | nil => rfl
  | cons b text ih => simp [decodePieces, ih]

/-- A plain text is read back. -/
theorem parseString_plain {text : List UInt8} (h : Plain text) (rest : List UInt8) :
    parseString (text ++ 34 :: rest) = some (text, rest) := by
  simp only [parseString, scanString_plain h, Option.map_some, decodePieces_map_byte]

/-! ## Only plain texts stand for themselves -/

/-- The body of a string and its pieces. -/
inductive RawString : List UInt8 → List Piece → Prop
  | nil : RawString [] []
  | byte {b : UInt8} {raw : List UInt8} {pieces : List Piece}
      (hb : 32 ≤ b ∧ b ≠ 34 ∧ b ≠ 92) (h : RawString raw pieces) :
      RawString (b :: raw) (.byte b :: pieces)
  | escape {e c : UInt8} {raw : List UInt8} {pieces : List Piece} (he : simpleEscape e = some c)
      (h : RawString raw pieces) : RawString (92 :: e :: raw) (.byte c :: pieces)
  | unit {h₁ h₂ h₃ h₄ : UInt8} {u : ℕ} {raw : List UInt8} {pieces : List Piece}
      (hhex : ∀ b ∈ [h₁, h₂, h₃, h₄], (hexOf b).isSome = true) (h : RawString raw pieces) :
      RawString (92 :: 117 :: h₁ :: h₂ :: h₃ :: h₄ :: raw) (.unit u :: pieces)

/-- What `scanString` reads is the body of a string and its closing quote. -/
theorem rawString_of_scanString {text rest : List UInt8} {pieces : List Piece}
    (h : scanString text = some (pieces, rest)) :
    ∃ raw, RawString raw pieces ∧ text = raw ++ 34 :: rest := by
  fun_induction scanString text generalizing pieces with
  | case1 => cases h
  | case2 text =>
    cases h
    exact ⟨[], .nil, rfl⟩
  | case3 => cases h
  | case4 hquote hlt h₁ h₂ h₃ h₄ text ih =>
    simp only [Option.bind_eq_bind, Option.bind_eq_some_iff] at h
    obtain ⟨d₁, hd₁, d₂, hd₂, d₃, hd₃, d₄, hd₄, ⟨pieces', rest'⟩, hscan, heq⟩ := h
    cases heq
    obtain ⟨raw, hraw, rfl⟩ := ih hscan
    refine ⟨_, .unit ?_ hraw, rfl⟩
    simp [hd₁, hd₂, hd₃, hd₄]
  | case5 hquote hlt e text hne ih =>
    simp only [Option.bind_eq_bind, Option.bind_eq_some_iff] at h
    obtain ⟨c, hc, ⟨pieces', rest'⟩, hscan, heq⟩ := h
    cases heq
    obtain ⟨raw, hraw, rfl⟩ := ih hscan
    exact ⟨_, .escape hc hraw, rfl⟩
  | case6 => cases h
  | case7 b text hquote hlt hslash ih =>
    simp only [Option.bind_eq_bind, Option.bind_eq_some_iff] at h
    obtain ⟨⟨pieces', rest'⟩, hscan, heq⟩ := h
    cases heq
    obtain ⟨raw, hraw, rfl⟩ := ih hscan
    exact ⟨_, .byte ⟨UInt8.not_lt.mp hlt, hquote, hslash⟩ hraw, rfl⟩

/-- The bytes that a piece denotes at most. -/
def Piece.cost : Piece → ℕ
  | .byte _ => 1
  | .unit _ => 4

theorem length_utf8_le (n : ℕ) : (utf8 n).length ≤ 4 := by
  unfold utf8
  split_ifs <;> simp

theorem length_utf8_of_isHigh {n : ℕ} (h : isHigh n = true) : (utf8 n).length ≤ 3 := by
  have hlt : n < 0x10000 := by
    simp only [isHigh, Bool.and_eq_true, decide_eq_true_eq] at h
    omega
  unfold utf8
  split_ifs <;> simp

/-- A waiting high surrogate is worth three bytes. -/
theorem length_decodePieces_le (waiting : Option ℕ) (pieces : List Piece)
    (hwaiting : ∀ high ∈ waiting, isHigh high = true) :
    (decodePieces waiting pieces).length ≤
      waiting.elim 0 (fun _ => 3) + (pieces.map Piece.cost).sum := by
  have hflush : ∀ waiting : Option ℕ, (∀ high ∈ waiting, isHigh high = true) →
      (waiting.elim [] utf8).length ≤ waiting.elim 0 fun _ => 3 := by
    rintro (- | high) h
    · exact le_refl _
    · exact length_utf8_of_isHigh (h high rfl)
  fun_induction decodePieces waiting pieces with
  | case1 waiting => simpa using hflush waiting hwaiting
  | case2 waiting b pieces ih =>
    have hf := hflush waiting hwaiting
    have hrec := ih (by simp)
    simp only [Option.elim_none] at hrec
    simp only [List.length_append, List.length_cons, List.map_cons, List.sum_cons, Piece.cost]
    omega
  | case3 u pieces hhigh ih =>
    have hrec := ih (by simpa using hhigh)
    simp only [Option.elim_some] at hrec
    simp only [Option.elim_none, List.map_cons, List.sum_cons, Piece.cost]
    omega
  | case4 u pieces hhigh ih =>
    have hrec := ih (by simp)
    have hunit := length_utf8_le u
    simp only [Option.elim_none] at hrec
    simp only [Option.elim_none, List.length_append, List.map_cons, List.sum_cons, Piece.cost]
    omega
  | case5 high u pieces hlow ih =>
    have hrec := ih (by simp)
    have hunit := length_utf8_le (0x10000 + (high - 0xD800) * 1024 + (u - 0xDC00))
    simp only [Option.elim_none] at hrec
    simp only [Option.elim_some, List.length_append, List.map_cons, List.sum_cons, Piece.cost]
    omega
  | case6 high u pieces hlow hhigh ih =>
    have hrec := ih (by simpa using hhigh)
    have hunit := length_utf8_of_isHigh (hwaiting high rfl)
    simp only [Option.elim_some] at hrec
    simp only [Option.elim_some, List.length_append, List.map_cons, List.sum_cons, Piece.cost]
    omega
  | case7 high u pieces hlow hhigh ih =>
    have hrec := ih (by simp)
    have hunit := length_utf8_le u
    have hfirst := length_utf8_of_isHigh (hwaiting high rfl)
    simp only [Option.elim_none] at hrec
    simp only [Option.elim_some, List.length_append, List.map_cons, List.sum_cons, Piece.cost]
    omega

theorem sum_cost_map_byte (raw : List UInt8) :
    ((raw.map Piece.byte).map Piece.cost).sum = raw.length := by
  induction raw with
  | nil => rfl
  | cons b raw ih =>
    rw [List.map_cons, List.map_cons, List.sum_cons, ih, List.length_cons, Piece.cost, Nat.add_comm]

/-- A body without escapes is the only one that is no longer than what it denotes. -/
theorem RawString.plain_or_lt {raw : List UInt8} {pieces : List Piece} (h : RawString raw pieces) :
    (Plain raw ∧ pieces = raw.map .byte) ∨ (pieces.map Piece.cost).sum < raw.length := by
  induction h with
  | nil => exact Or.inl ⟨by simp [Plain], rfl⟩
  | byte hb h ih =>
    rcases ih with ⟨hplain, rfl⟩ | hlt
    · exact Or.inl ⟨plain_cons.mpr ⟨hb, hplain⟩, rfl⟩
    · refine Or.inr ?_
      simp only [List.map_cons, List.sum_cons, Piece.cost, List.length_cons]
      omega
  | escape he h ih =>
    refine Or.inr ?_
    simp only [List.map_cons, List.sum_cons, Piece.cost, List.length_cons]
    rcases ih with ⟨-, rfl⟩ | hlt
    · rw [sum_cost_map_byte]
      omega
    · omega
  | unit hhex h ih =>
    refine Or.inr ?_
    simp only [List.map_cons, List.sum_cons, Piece.cost, List.length_cons]
    rcases ih with ⟨-, rfl⟩ | hlt
    · rw [sum_cost_map_byte]
      omega
    · omega

/-- A byte of a body that is neither a backslash nor a part of the number of a code unit is escaped, or
it is a piece of its own. -/
theorem RawString.split {c : UInt8} (hhex : hexOf c = none) (hslash : 92 ≠ c) (hu : 117 ≠ c)
    {raw : List UInt8} {pieces : List Piece} (h : RawString raw pieces)
    {before after : List UInt8} (hraw : raw = before ++ c :: after) :
    ((∃ t, before = t ++ [92]) ∧ simpleEscape c ≠ none) ∨
      (c ≠ 34 ∧ ∃ p q, pieces = p ++ .byte c :: q ∧ RawString after q) := by
  induction h generalizing before with
  | nil => simp at hraw
  | byte hb h ih =>
    cases before with
    | nil =>
      obtain ⟨rfl, rfl⟩ := List.cons.inj hraw
      exact Or.inr ⟨hb.2.1, [], _, rfl, h⟩
    | cons b before =>
      rcases ih (List.cons.inj hraw).2 with ⟨⟨t, rfl⟩, he⟩ | ⟨hquote, p, q, rfl, hq⟩
      · exact Or.inl ⟨⟨b :: t, rfl⟩, he⟩
      · exact Or.inr ⟨hquote, _ :: p, q, rfl, hq⟩
  | escape he h ih =>
    match before, hraw with
    | [], hraw => exact absurd (List.cons.inj hraw).1 hslash
    | [b], hraw =>
      obtain ⟨rfl, hrest⟩ := List.cons.inj hraw
      obtain ⟨rfl, -⟩ := List.cons.inj hrest
      exact Or.inl ⟨⟨[], rfl⟩, by rw [he]; exact Option.some_ne_none _⟩
    | b :: e :: before, hraw =>
      rcases ih (List.cons.inj (List.cons.inj hraw).2).2 with
        ⟨⟨t, rfl⟩, he⟩ | ⟨hquote, p, q, rfl, hq⟩
      · exact Or.inl ⟨⟨b :: e :: t, rfl⟩, he⟩
      · exact Or.inr ⟨hquote, _ :: p, q, rfl, hq⟩
  | @unit h₁ h₂ h₃ h₄ u raw pieces hhexes h ih =>
    simp only [List.forall_mem_cons] at hhexes
    match before, hraw with
    | [], hraw | [_], hraw => simp [hslash, hu] at hraw
    | [_, _], hraw | [_, _, _], hraw | [_, _, _, _], hraw | [_, _, _, _, _], hraw =>
      simp only [List.cons_append, List.nil_append, List.cons.injEq] at hraw
      simp [hraw, hhex] at hhexes
    | b₁ :: b₂ :: b₃ :: b₄ :: b₅ :: b₆ :: before, hraw =>
      simp only [List.cons_append, List.cons.injEq] at hraw
      rcases ih hraw.2.2.2.2.2.2 with ⟨⟨t, rfl⟩, he⟩ | ⟨hquote, p, q, rfl, hq⟩
      · exact Or.inl ⟨⟨b₁ :: b₂ :: b₃ :: b₄ :: b₅ :: b₆ :: t, rfl⟩, he⟩
      · exact Or.inr ⟨hquote, _ :: p, q, rfl, hq⟩

/-- A quote inside a body stands behind a backslash. -/
theorem RawString.quote_escaped {raw : List UInt8} {pieces : List Piece} (h : RawString raw pieces)
    {before after : List UInt8} (hraw : raw = before ++ 34 :: after) :
    ∃ t, before = t ++ [92] := by
  rcases h.split (by decide) (by decide) (by decide) hraw with ⟨ht, -⟩ | ⟨hquote, -⟩
  · exact ht
  · exact absurd rfl hquote

theorem decodePieces_concat_byte (waiting : Option ℕ) (pieces : List Piece) (b : UInt8) :
    decodePieces waiting (pieces ++ [.byte b]) = decodePieces waiting pieces ++ [b] := by
  fun_induction decodePieces waiting pieces with
  | case1 waiting => cases waiting <;> simp [decodePieces]
  | case2 waiting c pieces ih => simp [decodePieces, ih]
  | case3 u pieces hhigh ih => simp [decodePieces, hhigh, ih]
  | case4 u pieces hhigh ih => simp [decodePieces, hhigh, ih]
  | case5 high u pieces hlow ih => simp [decodePieces, hlow, ih]
  | case6 high u pieces hlow hhigh ih => simp [decodePieces, hlow, hhigh, ih]
  | case7 high u pieces hlow hhigh ih => simp [decodePieces, hlow, hhigh, ih]

/-- A comma is no part of an escape. -/
theorem RawString.comma_last {raw : List UInt8} {pieces : List Piece} (h : RawString raw pieces)
    {before : List UInt8} (hraw : raw = before ++ [44]) :
    ∃ pieces', pieces = pieces' ++ [.byte 44] := by
  rcases h.split (by decide) (by decide) (by decide) hraw with ⟨-, he⟩ | ⟨-, p, q, rfl, hq⟩
  · exact absurd (by decide) he
  · cases hq
    exact ⟨p, rfl⟩

/-- In front of a further member, a text that is read back as itself is plain: a string that went on
behind it would end with a comma, but the text with a backslash. -/
theorem plain_of_parseString {text sep tail rest : List UInt8} (hsep : (34 : UInt8) ∉ sep)
    (h : parseString (text ++ 34 :: (sep ++ 44 :: 34 :: tail)) = some (text, rest)) : Plain text := by
  simp only [parseString, Option.map_eq_some_iff] at h
  obtain ⟨⟨pieces, rest'⟩, hscan, heq⟩ := h
  obtain ⟨hdecode, rfl⟩ := Prod.mk.inj heq
  obtain ⟨raw, hraw, hstream⟩ := rawString_of_scanString hscan
  have hlength := length_decodePieces_le none pieces (by simp)
  rw [hdecode, Option.elim_none, Nat.zero_add] at hlength
  rcases List.append_eq_append_iff.mp hstream with ⟨t, rfl, ht⟩ | ⟨t, rfl, ht⟩
  · -- the string ends with the text or behind it
    cases t with
    | nil =>
      rw [List.append_nil] at hraw
      rcases hraw.plain_or_lt with ⟨hplain, -⟩ | hlt
      · exact hplain
      · omega
    | cons b t =>
      obtain ⟨rfl, htail⟩ := List.cons.inj ht
      obtain ⟨text', rfl⟩ := hraw.quote_escaped rfl
      have hstop : (34 : UInt8) ∉ sep ++ [44] := by simpa using hsep
      have hsepTail : t ++ 34 :: rest' = sep ++ [44] ++ 34 :: tail := by
        rw [List.append_assoc, List.singleton_append]
        exact htail.symm
      have hnot : (34 : UInt8) ∉ t := by
        intro hmem
        obtain ⟨t₁, t₂, rfl, hnot⟩ := List.eq_append_cons_of_mem hmem
        rw [List.append_assoc, List.cons_append] at hsepTail
        obtain ⟨rfl, -⟩ := line_inj hnot hstop hsepTail
        have hraw' : text' ++ [92] ++ 34 :: (sep ++ [44] ++ 34 :: t₂) =
            text' ++ [92] ++ 34 :: sep ++ [44] ++ 34 :: t₂ := by simp
        obtain ⟨t', ht'⟩ := hraw.quote_escaped hraw'
        exact absurd (List.append_inj' ht' rfl).2 (by decide)
      obtain ⟨rfl, -⟩ := line_inj hnot hstop hsepTail
      have hraw' : text' ++ [92] ++ 34 :: (sep ++ [44]) = text' ++ [92] ++ 34 :: sep ++ [44] := by
        simp
      obtain ⟨pieces', rfl⟩ := hraw.comma_last hraw'
      rw [decodePieces_concat_byte] at hdecode
      exact absurd (List.append_inj' hdecode rfl).2 (by decide)
  · -- the string ends inside the text, which is longer than what has been read
    rcases hraw.plain_or_lt with ⟨hplain, rfl⟩ | hlt
    · rw [decodePieces_map_byte] at hdecode
      exact hdecode ▸ hplain
    · rw [List.length_append] at hlength
      omega

/-! ## Reading members -/

theorem skip_cons {b : UInt8} (hb : isSpace b = false) (text : List UInt8) :
    skip (b :: text) = b :: text := by
  simp [skip, hb]

theorem expect_self (b : UInt8) (text : List UInt8) : expect b (b :: text) = some text := if_pos rfl

theorem expect_ne {b c : UInt8} (h : c ≠ b) (text : List UInt8) : expect b (c :: text) = none :=
  if_neg h

/-- A member with a plain key: its value is read, and what stands behind it decides how the object
goes on. -/
theorem parseMembers_key {key : List UInt8} (hkey : Plain key) (fuel : ℕ) (text : List UInt8) :
    parseMembers (fuel + 1) (34 :: (key ++ 34 :: 58 :: text)) =
      (parseValue fuel (skip text)).bind fun r =>
        match expect 44 (skip r.2) with
        | some text => (parseMembers fuel (skip text)).map fun q => ((key, r.1) :: q.1, q.2)
        | none => (expect 125 (skip r.2)).map fun rest => ([(key, r.1)], rest) := by
  rw [parseMembers, expect_self]
  simp only [Option.bind_eq_bind, Option.bind_some, parseString_plain hkey,
    skip_cons (show isSpace 58 = false by decide), expect_self]
  refine congrArg _ (funext fun r => ?_)
  cases expect 44 (skip r.2) with
  | none => exact Option.map_eq_bind.symm
  | some text => exact Option.map_eq_bind.symm

/-- A member that is followed by another one. -/
theorem parseMembers_cons {key text rest : List UInt8} {fuel : ℕ} {value : Value} (hkey : Plain key)
    (hvalue : parseValue fuel (skip text) = some (value, 44 :: 34 :: rest)) :
    parseMembers (fuel + 1) (34 :: (key ++ 34 :: 58 :: text)) =
      (parseMembers fuel (34 :: rest)).map fun q => ((key, value) :: q.1, q.2) := by
  rw [parseMembers_key hkey, hvalue, Option.bind_some]
  simp only [skip_cons (show isSpace 44 = false by decide), expect_self,
    skip_cons (show isSpace 34 = false by decide)]

/-- The last member. -/
theorem parseMembers_last {key text rest : List UInt8} {fuel : ℕ} {value : Value} (hkey : Plain key)
    (hvalue : parseValue fuel (skip text) = some (value, 125 :: rest)) :
    parseMembers (fuel + 1) (34 :: (key ++ 34 :: 58 :: text)) = some ([(key, value)], rest) := by
  rw [parseMembers_key hkey, hvalue, Option.bind_some]
  simp only [skip_cons (show isSpace 125 = false by decide), expect_self,
    expect_ne (show (125 : UInt8) ≠ 44 by decide), Option.map_some]

/-- The first member of an object that could be read. -/
theorem parseMembers_first {key text rest : List UInt8} {fuel : ℕ}
    {members : List (List UInt8 × Value)} (hkey : Plain key)
    (h : parseMembers (fuel + 1) (34 :: (key ++ 34 :: 58 :: text)) = some (members, rest)) :
    ∃ value rest' members', parseValue fuel (skip text) = some (value, rest') ∧
      members = (key, value) :: members' := by
  rw [parseMembers_key hkey, Option.bind_eq_some_iff] at h
  obtain ⟨⟨value, rest'⟩, hvalue, hnext⟩ := h
  refine ⟨value, rest', ?_⟩
  cases hcomma : expect 44 (skip rest') with
  | none =>
    simp only [hcomma, Option.map_eq_some_iff] at hnext
    obtain ⟨r, -, hr⟩ := hnext
    exact ⟨[], hvalue, (Prod.mk.inj hr).1.symm⟩
  | some text' =>
    simp only [hcomma, Option.map_eq_some_iff] at hnext
    obtain ⟨q, -, hq⟩ := hnext
    exact ⟨q.1, hvalue, (Prod.mk.inj hq).1.symm⟩

theorem parseValue_string (fuel : ℕ) (text : List UInt8) :
    parseValue (fuel + 1) (skip (34 :: text)) =
      (parseString text).map fun r => (.string r.1, r.2) := by
  rw [skip_cons (by decide), parseValue, expect_self]

theorem parseValue_plain {text : List UInt8} (h : Plain text) (fuel : ℕ) (rest : List UInt8) :
    parseValue (fuel + 1) (skip (34 :: (text ++ 34 :: rest))) = some (.string text, rest) := by
  rw [parseValue_string, parseString_plain h, Option.map_some]

/-- An object that is not empty. -/
theorem parseValue_object (fuel : ℕ) (text : List UInt8) :
    parseValue (fuel + 1) (skip (123 :: 34 :: text)) =
      (parseMembers fuel (34 :: text)).map fun r => (.object r.1, r.2) := by
  rw [skip_cons (by decide), parseValue, expect_ne (by decide), expect_self]
  simp only [skip_cons (show isSpace 34 = false by decide),
    expect_ne (show (34 : UInt8) ≠ 125 by decide)]

/-! ## Reading numbers -/

/-- An integer as a numeral. -/
def integerNumeral (n : ℤ) : List UInt8 :=
  if n < 0 then 45 :: Decimal.digits n.natAbs else Decimal.digits n.natAbs

/-- Only zero begins with a zero. -/
theorem head_digits (n : ℕ) : (Decimal.digits n).head? = some 48 → (Decimal.digits n).length = 1 := by
  induction n using Nat.strong_induction_on with
  | _ n ih =>
    rcases lt_or_ge n 10 with h | h
    · rw [Decimal.digits_of_lt h]
      exact fun _ => rfl
    · rw [Decimal.digits_of_le h]
      obtain ⟨b, t, hbt, -⟩ := Decimal.digits_eq_cons (n / 10)
      intro hhead
      rw [hbt, List.cons_append, List.head?_cons] at hhead
      have hshort := ih (n / 10) (by omega) (by rw [hbt]; exact hhead)
      -- the numeral of n / 10 is a single zero, but n / 10 is positive
      have ht : t = [] := by
        rw [hbt, List.length_cons] at hshort
        exact List.length_eq_zero_iff.mp (by omega)
      have hvalue := Decimal.value_digits (n / 10)
      rw [hbt, ht, Option.some.inj hhead] at hvalue
      have hzero : Decimal.value [48] = 0 := by decide
      omega

/-- An integer is read up to the comma or brace behind it. -/
theorem parseNumber_integer (n : ℤ) {b : UInt8} (hb : b = 44 ∨ b = 125) (rest : List UInt8) :
    parseNumber (integerNumeral n ++ b :: rest) = some (integerNumeral n, b :: rest) := by
  have hdigit : Decimal.isDigit b = false := by rcases hb with rfl | rfl <;> decide
  have hnext : ∀ c t, b :: rest = c :: t → Decimal.isDigit c = false := by
    intro c t h
    rw [← (List.cons.inj h).1]
    exact hdigit
  have hspan := Decimal.span_digits_append n.natAbs hnext
  obtain ⟨d, ds, hds, hd⟩ := Decimal.digits_eq_cons n.natAbs
  have hdigits : digits1 (Decimal.digits n.natAbs ++ b :: rest) =
      some (Decimal.digits n.natAbs, b :: rest) := by
    rw [digits1, hspan, hds]
  have hzero : ¬ ((Decimal.digits n.natAbs).head? = some 48 ∧
      (Decimal.digits n.natAbs).length ≠ 1) := fun h => h.2 (head_digits _ h.1)
  have hwhole : parseInteger (integerNumeral n ++ b :: rest) = some (integerNumeral n, b :: rest) := by
    unfold parseInteger integerNumeral
    by_cases hneg : n < 0
    · simp [hneg, hdigits, hzero]
    · have hsign : ¬ d = 45 := by
        rintro rfl
        exact absurd hd (by decide)
      have hhead : (Decimal.digits n.natAbs ++ b :: rest).head? ≠ some 45 := by
        rw [hds]
        simpa using hsign
      simp only [if_neg hneg, if_neg hhead]
      simp [hdigits, hzero]
  have hdot : b ≠ 46 := by rcases hb with rfl | rfl <;> decide
  have hexp : ¬ (b = 101 ∨ b = 69) := by rcases hb with rfl | rfl <;> decide
  simp [parseNumber, hwhole, parseFraction, expect_ne hdot, parseExponent, hexp]

theorem parseValue_integer (n : ℤ) (fuel : ℕ) {b : UInt8} (hb : b = 44 ∨ b = 125)
    (rest : List UInt8) :
    parseValue (fuel + 1) (skip (integerNumeral n ++ b :: rest)) =
      some (.number (integerNumeral n), b :: rest) := by
  have hfirst : ∃ c t, integerNumeral n = c :: t ∧ (c = 45 ∨ Decimal.isDigit c = true) := by
    unfold integerNumeral
    split_ifs
    · exact ⟨_, _, rfl, Or.inl rfl⟩
    · obtain ⟨d, ds, hds, hd⟩ := Decimal.digits_eq_cons n.natAbs
      exact ⟨d, ds, hds, Or.inr hd⟩
  obtain ⟨c, t, hct, hc⟩ := hfirst
  have hnot : ∀ x ∈ [32, 9, 10, 13, 34, 123, 91, 110, 116, 102], c ≠ x := by
    have hall : ∀ x ∈ [32, 9, 10, 13, 34, 123, 91, 110, 116, 102],
        ¬ (x = 45 ∨ Decimal.isDigit x = true) := by decide
    rintro x hx rfl
    exact hall c hx hc
  simp only [List.forall_mem_cons] at hnot
  obtain ⟨h32, h9, h10, h13, h34, h123, h91, h110, h116, h102, -⟩ := hnot
  have hspace : isSpace c = false := by simp [isSpace, h32, h9, h10, h13]
  have hnumber := parseNumber_integer n hb rest
  rw [hct, List.cons_append] at hnumber ⊢
  rw [skip_cons hspace, parseValue, expect_ne h34, expect_ne h123, expect_ne h91]
  simp [expectWord, h110.symm, h116.symm, h102.symm, hnumber]

theorem integerOf_integerNumeral (n : ℤ) : integerOf (integerNumeral n) = some n := by
  have hall : (Decimal.digits n.natAbs).all Decimal.isDigit = true :=
    List.all_eq_true.mpr (Decimal.isDigit_of_mem_digits n.natAbs)
  unfold integerOf integerNumeral
  by_cases hneg : n < 0
  · simp only [if_pos hneg, List.head?_cons, List.tail_cons, if_true, hall, Decimal.value_digits,
      Option.some.injEq]
    omega
  · obtain ⟨d, ds, hds, hd⟩ := Decimal.digits_eq_cons n.natAbs
    have hhead : (Decimal.digits n.natAbs).head? ≠ some 45 := by
      rw [hds, List.head?_cons, Ne, Option.some.injEq]
      rintro rfl
      exact absurd hd (by decide)
    simp only [if_neg hneg, if_neg hhead, hall, if_true, Decimal.value_digits, Option.some.injEq]
    omega

/-! ## Looking members up -/

/-- In an object without duplicate keys every member stands once. -/
theorem Value.has_of_nodup {members : List (List UInt8 × Value)} {key : List UInt8} {member : Value}
    (hnodup : (members.map Prod.fst).Nodup) (hmem : (key, member) ∈ members) :
    (Value.object members).Has key member := by
  refine ⟨members, rfl, ?_⟩
  induction members with
  | nil => cases hmem
  | cons m members ih =>
    rw [List.map_cons, List.nodup_cons] at hnodup
    obtain ⟨hnot, hrest⟩ := hnodup
    rcases List.mem_cons.mp hmem with rfl | hmem
    · have hnone : members.filter (fun m => m.1 = key) = [] := by
        rw [List.filter_eq_nil_iff]
        intro x hx heq
        have hkey : x.1 = key := by simpa using heq
        exact hnot (List.mem_map.mpr ⟨x, hx, hkey⟩)
      rw [List.filter_cons_of_pos (by simp), hnone]
    · have hne : ¬ m.1 = key := by
        rintro rfl
        exact hnot (List.mem_map.mpr ⟨_, hmem, rfl⟩)
      rw [List.filter_cons_of_neg (by simpa using hne)]
      exact ih hrest hmem

/-- The first member with a key is the one that is looked up. -/
theorem Value.Has.eq_of_split {before after : List (List UInt8 × Value)} {key : List UInt8}
    {first member : Value} (hbefore : ∀ m ∈ before, m.1 ≠ key)
    (h : (Value.object (before ++ (key, first) :: after)).Has key member) : first = member := by
  obtain ⟨members, heq, hfilter⟩ := h
  rw [← Value.object.inj heq, List.filter_append, List.filter_eq_nil_iff.mpr
    (fun m hm => by simpa using hbefore m hm), List.nil_append,
    List.filter_cons_of_pos (by simp)] at hfilter
  exact (Prod.mk.inj (List.cons.inj hfilter).1).2

end Foundations.Json
