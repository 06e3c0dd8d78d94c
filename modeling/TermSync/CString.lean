import TermSync.Foundations.Decimal

/-!
# C strings and the C library functions the sources use

A `char` buffer or pointer is the list of the bytes before its terminating NUL. `none` stands for
undefined behaviour throughout the model, such as a read past the terminator or the overflow of a
signed counter.
-/

namespace TermSync

open Foundations

/-- The bytes of a C string, without the terminating NUL. -/
abbrev Bytes := List UInt8

/-- A check of all bytes of a text walks the text, not the 256 values of a byte. -/
instance (priority := 1100) decidableAllBytes (p : UInt8 → Prop) [DecidablePred p] (text : Bytes) :
    Decidable (∀ b ∈ text, p b) := List.decidableBAll p text

/-- The bytes of a literal. -/
def bytes (s : String) : Bytes := s.toList.flatMap String.utf8EncodeChar

/-- `text[i]`: the terminator is readable, what lies behind it is not. -/
def charAt (text : Bytes) (i : ℕ) : Option UInt8 :=
  if i < text.length then text[i]? else if i = text.length then some 0 else none

/-- A buffer as a C string: what lies before the first NUL. -/
def cString (buffer : Bytes) : Bytes := buffer.takeWhile fun b => b ≠ 0

/-- `snprintf(out, size, "%s", text)`: the text, cut to what fits before the terminator. -/
def snprintf (size : ℕ) (text : Bytes) : Bytes := text.take (size - 1)

/-- `INT_MAX` and `INT_MIN`. -/
def intMax : ℤ := 2147483647
def intMin : ℤ := -2147483648

/-- `LONG_MAX` and `LONG_MIN`. -/
def longMax : ℤ := 9223372036854775807
def longMin : ℤ := -9223372036854775808

/-- `SIZE_MAX + 1`. -/
def sizeModulus : ℕ := 2 ^ 64

/-- `pos + 1` on a `size_t`. -/
def sizeSucc (pos : ℕ) : ℕ := (pos + 1) % sizeModulus

/-- `a - b` on two `size_t`. -/
def sizeSub (a b : ℕ) : ℕ := (a + sizeModulus - b) % sizeModulus

/-- `(int)value` for a `long`. -/
def toInt (value : ℤ) : ℤ := value.bmod (2 ^ 32)

/-- `%zu` -/
def formatSize (n : ℕ) : Bytes := Decimal.digits n

/-- `%d` -/
def formatInt (n : ℤ) : Bytes :=
  if n < 0 then bytes "-" ++ Decimal.digits n.natAbs else Decimal.digits n.natAbs

/-- `isspace` in the C locale. -/
def isSpace (b : UInt8) : Bool := b == 32 || (9 ≤ b && b ≤ 13)

/-- White space, an optional sign and the leading run of digits: the sign, the digits and the rest,
or `none` when there is no digit. -/
def scanNumber (text : Bytes) : Option (Bool × Bytes × Bytes) :=
  let body := text.dropWhile isSpace
  let negative := body.head? = some 45
  let unsigned := if body.head? = some 45 ∨ body.head? = some 43 then body.tail else body
  match Decimal.span unsigned with
  | ([], _) => none
  | (ds, rest) => some (negative, ds, rest)

/-- `strtol(text, &end, 10)` as `json_get_int` uses it: `none` when there is no number or `errno` is
set. -/
def strtol (text : Bytes) : Option ℤ :=
  match scanNumber text with
  | none => none
  | some (negative, ds, _) =>
    let parsed : ℤ := if negative then -(Decimal.value ds : ℤ) else Decimal.value ds
    if longMin ≤ parsed ∧ parsed ≤ longMax then some parsed else none

end TermSync
