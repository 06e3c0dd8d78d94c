import TermSync.Util
import TermSync.Foundations.Edits
import TermSync.Foundations.Utf8

/-!
# Texts as lists of characters

The abstract view of the functions of `util.c`: a text is a list of characters, and an operation
edits that list. A character keeps an identity for as long as it stands in the text, so that one can
say which character an operation removes and where a character ends up.
-/

namespace TermSync

open Foundations

/-- The bytes of one complete well-formed UTF-8 character. The NUL character cannot stand in a C
string. -/
def WellFormedChar (ch : Bytes) : Prop := ∃ c : Char, c ≠ '\x00' ∧ ch = String.utf8EncodeChar c

/-- A check of all characters of a list walks the list, not the values of a character. -/
instance (priority := 1100) decidableAllChars (p : Char → Prop) [DecidablePred p]
    (cs : List Char) : Decidable (∀ c ∈ cs, p c) := List.decidableBAll p cs

/-- The text is valid UTF-8 and encodes these characters. -/
def Denotes (text : Bytes) (cs : List Char) : Prop :=
  (∀ c ∈ cs, c ≠ '\x00') ∧ text = Utf8.encode cs

/-- Valid UTF-8: the encoding of some characters other than NUL. -/
def ValidText (text : Bytes) : Prop :=
  ∃ cs : List Char, (∀ c ∈ cs, c ≠ '\x00') ∧ text = Utf8.encode cs

/-- The edit that an operation makes in a text of `len` characters, where an insertion brings in
`a`. -/
def opEdit {α : Type*} (op : TsOperation) (len : ℕ) (a : α) : Edit α :=
  match op.kind with
  | .insert => .insert (min op.pos len) a
  | .delete => if op.pos < len then .erase op.pos else .keep
  | .noop => .keep
  | .invalid => .keep

/-- The identity of a character occurrence: its index in the initial text, or the version at which
it was inserted. -/
inductive OccId where
  | initial (i : ℕ)
  | inserted (version : ℤ)
  deriving DecidableEq, Repr

/-- A character occurrence: its identity and its bytes. -/
abbrev Occurrence := OccId × Bytes

/-- The bytes of a list of occurrences. -/
def occText (occs : List Occurrence) : Bytes := (occs.map Prod.snd).flatten

/-- The occurrences of an initial text. -/
def initialOccs (cs : List Char) : List Occurrence :=
  cs.mapIdx fun i c => (.initial i, String.utf8EncodeChar c)

/-- The edit that an operation makes in a list of occurrences when it is applied as `version`. -/
def occEdit (op : TsOperation) (version : ℤ) (occs : List Occurrence) : Edit Occurrence :=
  opEdit op occs.length (.inserted version, op.ch)

/-- The occurrences after an operation applied as `version`. -/
def applyOcc (op : TsOperation) (version : ℤ) (occs : List Occurrence) : List Occurrence :=
  (occEdit op version occs).apply occs

end TermSync
