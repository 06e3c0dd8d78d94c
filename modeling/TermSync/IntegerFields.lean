import TermSync.Foundations.Outline
import TermSync.Line
import TermSync.WireOperations

/-!
# The integer fields of a line

What a line gives for an integer field is said about the line alone: the number stands in a member of
the outermost object, or in the member `pos` of the object that is the member `op` or `original_op`
(`IntegerField.Gives`). The decoder looks for the text of the key instead, and may find it in front of
that member, in an inner object or in a string (`Place.First`).
-/

namespace TermSync

open Foundations

/-! ## Numbers in a line -/

/-- A decimal numeral of the number: a sign or none, and digits. -/
inductive Numeral : Bytes → ℤ → Prop
  | unsigned {ds : Bytes} (hne : ds ≠ []) (hds : ∀ b ∈ ds, Decimal.isDigit b = true) :
      Numeral ds (Decimal.value ds)
  | plus {ds : Bytes} (hne : ds ≠ []) (hds : ∀ b ∈ ds, Decimal.isDigit b = true) :
      Numeral (43 :: ds) (Decimal.value ds)
  | minus {ds : Bytes} (hne : ds ≠ []) (hds : ∀ b ∈ ds, Decimal.isDigit b = true) :
      Numeral (45 :: ds) (-(Decimal.value ds : ℤ))

/-- What stands behind the value of a member: space, and a comma or the closing brace. -/
def ValueEnds (rest : Bytes) : Prop :=
  ∃ gap b more, Blank isSpace gap ∧ (b = 44 ∨ b = 125) ∧ rest = gap ++ b :: more

/-- A member of an object: its key, what stands in front of it behind the opening brace, and the text
from the opening brace on. -/
structure Place where
  key : Key
  front : Bytes
  text : Bytes

/-- The value of the member is a numeral of the number. -/
def Place.HasNumber (place : Place) (n : ℤ) : Prop :=
  ∃ numeral rest, Numeral numeral n ∧ ValueEnds rest ∧
    Member isSpace place.key.name place.front (numeral ++ rest) place.text

/-- The value of the member is an object; `object` is its text from brace to brace. -/
def Place.HasObject (place : Place) (object : Bytes) : Prop :=
  ∃ inner after, Outline inner ∧ object = 123 :: (inner ++ [125]) ∧
    Member isSpace place.key.name place.front (object ++ after) place.text

/-- The quoted key begins here, and a colon follows it. -/
def KeyAt (key : Key) (text : Bytes) : Prop :=
  key.pattern <+: text ∧ ((text.drop key.pattern.length).dropWhile isSpace).head? = some 58

instance (key : Key) (text : Bytes) : Decidable (KeyAt key text) :=
  inferInstanceAs (Decidable (_ <+: _ ∧ _ = _))

/-- The quoted key with a colon behind it begins nowhere in front of the member. -/
def Place.First (place : Place) : Prop :=
  ∀ i ≤ place.front.length, ¬ KeyAt place.key (place.text.drop i)

instance (place : Place) : Decidable place.First :=
  inferInstanceAs (Decidable (∀ i ≤ _, _))

/-! ## The fields -/

/-- The integer fields of a message and of its operations. -/
inductive IntegerField where
  | baseVersion
  | serverVersion
  | version
  | historyStartVersion
  | opPos
  | originalOpPos
  deriving DecidableEq, Repr

namespace IntegerField

/-- The key of the field. -/
def key : IntegerField → Key
  | baseVersion => .baseVersion
  | serverVersion => .serverVersion
  | version => .version
  | historyStartVersion => .historyStartVersion
  | opPos => .pos
  | originalOpPos => .pos

/-- The key of the operation that the field belongs to. -/
def operation : IntegerField → Option Key
  | opPos => some .op
  | originalOpPos => some .originalOp
  | _ => none

/-- The line gives the number for the field, in a member of its object or in a member of the
operation; `places` are the members on the way. -/
inductive Gives (line : Bytes) (n : ℤ) (field : IntegerField) : List Place → Prop
  | member {lead : Bytes} {place : Place} (hfield : field.operation = none)
      (hkey : place.key = field.key) (hlead : Blank isSpace lead) (hline : line = lead ++ place.text)
      (hnumber : place.HasNumber n) : Gives line n field [place]
  | operation {lead : Bytes} {outer inner : Place} (hfield : field.operation = some outer.key)
      (hkey : inner.key = field.key) (hlead : Blank isSpace lead) (hline : line = lead ++ outer.text)
      (hobject : outer.HasObject inner.text) (hnumber : inner.HasNumber n) :
      Gives line n field [outer, inner]

/-- The decoded field. -/
def decoded (m : TsMessage) : IntegerField → ℤ
  | baseVersion => m.baseVersion
  | serverVersion => m.serverVersion
  | version => m.version
  | historyStartVersion => m.historyStartVersion
  | opPos => m.op.pos
  | originalOpPos => m.originalOp.pos

/-- The value of a field that is not set. -/
def unset : IntegerField → ℤ
  | opPos => 0
  | originalOpPos => 0
  | _ => -1

/-- The value that a number stands for: a position is never negative. -/
def meant (n : ℤ) : IntegerField → ℤ
  | opPos => max n 0
  | originalOpPos => max n 0
  | _ => n

/-- The number of an `int` is decoded exactly, any other leaves the field unset. -/
def Faithful (field : IntegerField) (n v : ℤ) : Prop :=
  (intMin ≤ n ∧ n ≤ intMax → v = field.meant n) ∧ (¬(intMin ≤ n ∧ n ≤ intMax) → v = field.unset)

/-- The residue modulo `2 ^ 32` is read as an unset field. -/
def ResidueUnset (n : ℤ) : IntegerField → Prop
  | opPos => n % 2 ^ 32 = 0 ∨ 2 ^ 31 ≤ n % 2 ^ 32
  | originalOpPos => n % 2 ^ 32 = 0 ∨ 2 ^ 31 ≤ n % 2 ^ 32
  | _ => n % 2 ^ 32 = 2 ^ 32 - 1

/-- The numbers that the narrowing does not turn into another one. -/
def Survives (field : IntegerField) (n : ℤ) : Prop :=
  (intMin ≤ n ∧ n ≤ intMax) ∨ n < longMin ∨ longMax < n ∨ ResidueUnset n field

/-! ## Fields that are not found first -/

/-- The text from the value of the first quoted key on that a colon follows, as the decoder looks for
it; for a position, in the object behind the first quoted key of its operation. -/
def sought (line : Bytes) (field : IntegerField) : Option Bytes :=
  match field.operation with
  | none => findKey (skipWs line) field.key.name
  | some operation =>
    (jsonGetObject (skipWs line) operation.name).bind fun json => findKey json field.key.name

/-- The residues of both numbers are read as the same value. -/
def SameResidue (other n : ℤ) : IntegerField → Prop
  | opPos => (0 < n → other % 2 ^ 32 = n) ∧ (n ≤ 0 → ResidueUnset other opPos)
  | originalOpPos => (0 < n → other % 2 ^ 32 = n) ∧ (n ≤ 0 → ResidueUnset other originalOpPos)
  | _ => other % 2 ^ 32 = n % 2 ^ 32

/-- What is read elsewhere, a `long` or no number, may stand in for the number that the line gives. -/
def StandsIn (field : IntegerField) (n : ℤ) : Option ℤ → Prop
  | some other => (intMin ≤ n ∧ n ≤ intMax → SameResidue other n field) ∧
    (¬(intMin ≤ n ∧ n ≤ intMax) → ResidueUnset other field)
  | none => intMin ≤ n ∧ n ≤ intMax → field.meant n = field.unset

/-- An `original_op` that is found is accepted. A refused one is left out of the message as a whole; a
refused `op` is an error. -/
def OriginalKept (line : Bytes) (field : IntegerField) : Prop :=
  field = originalOpPos → ∀ json, jsonGetObject (skipWs line) Key.originalOp.name = some json →
    OperationAccepted json

end IntegerField

end TermSync
