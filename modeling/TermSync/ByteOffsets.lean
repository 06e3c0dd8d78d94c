import TermSync.Foundations.Walks
import TermSync.Util

/-!
# Byte offsets of characters

What it means that the byte offsets of a text stay inside of it: every offset is found without a read
behind the terminator, later characters have later offsets, and no difference of sizes wraps. The
offsets depend on the lengths that the first bytes of the characters announce, so a text is judged by
its announced characters.
-/

namespace TermSync

open Foundations

/-- A character with as many bytes as its first byte announces, whatever the other bytes are. -/
abbrev CompleteChar (ch : Bytes) : Prop := IsUnit tsUtf8CharBytes ch

/-- The text ends at the end of an announced character. -/
def CompleteText (text : Bytes) : Prop :=
  ∃ chars : List Bytes, (∀ ch ∈ chars, CompleteChar ch) ∧ text = chars.flatten

/-- The first `n` announced characters are inside the text, or it consists of fewer. -/
def CompleteUpTo (text : Bytes) (n : ℕ) : Prop :=
  ∃ (chars : List Bytes) (rest : Bytes), (∀ ch ∈ chars, CompleteChar ch) ∧
    text = chars.flatten ++ rest ∧ (chars.length = n ∨ chars.length ≤ n ∧ rest = [])

/-- A byte offset is found without a read behind the terminator, and it is inside the text. -/
def OffsetInside (text : Bytes) (charPos : ℕ) : Prop :=
  ∃ offset, tsUtf8ByteOffset text charPos = some offset ∧ offset ≤ text.length

/-- No difference of sizes wraps. -/
def NoWrap (text : Bytes) (op : TsOperation) : Prop :=
  ∃ differences, applyDifferences text op = some differences ∧ ∀ d ∈ differences, d.2 ≤ d.1

/-- Byte offsets stay inside the text. -/
structure OffsetsInside (text : Bytes) : Prop where
  inside : ∀ charPos, OffsetInside text charPos
  monotone : ∀ p q offset offset', p ≤ q → tsUtf8ByteOffset text p = some offset →
    tsUtf8ByteOffset text q = some offset' → offset ≤ offset'
  sizes : ∀ op, NoWrap text op

end TermSync
