import TermSync.CString

/-!
# Operations and UTF-8 text (`util.c`, `termsync.h`)

Edit operations and the functions that find and splice characters in a text. All positions count
characters, while a text is a C string of bytes.
-/

namespace TermSync

/-! ## Buffer sizes -/

def tsMaxLineBytes : ℕ := 1024 * 1024
def tsMaxType : ℕ := 32
def tsMaxClientId : ℕ := 64
def tsMaxOpId : ℕ := 64
def tsMaxStatus : ℕ := 160
def tsMaxReason : ℕ := 160
def tsMaxUtf8Char : ℕ := 8

/-! ## Files -/

/-- `ts_read_file_text`, where `none` is a file that cannot be read. A NUL in the file ends the
text. -/
def tsReadFileText : Option Bytes → Bytes
  | none => []
  | some file => cString file

/-! ## Operations -/

/-- `TsOpKind` -/
inductive TsOpKind where
  | invalid
  | insert
  | delete
  | noop
  deriving DecidableEq, Repr

/-- `TsOperation`; a zeroed operation is the default. -/
structure TsOperation where
  kind : TsOpKind := .invalid
  /-- A character position, not a byte offset. -/
  pos : ℕ := 0
  ch : Bytes := []
  reason : Bytes := []
  deriving DecidableEq, Repr

/-- `ts_operation_init`; a `NULL` character is the empty one. -/
def tsOperationInit (kind : TsOpKind) (pos : ℕ) (ch : Bytes) : TsOperation :=
  { kind := kind, pos := pos, ch := snprintf tsMaxUtf8Char ch }

/-- `ts_operation_kind_name` -/
def tsOperationKindName : TsOpKind → Bytes
  | .insert => bytes "insert"
  | .delete => bytes "delete"
  | .noop => bytes "noop"
  | .invalid => bytes "invalid"

/-- `ts_operation_kind_from_name` -/
def tsOperationKindFromName (name : Bytes) : TsOpKind :=
  if name = bytes "insert" then .insert
  else if name = bytes "delete" then .delete
  else if name = bytes "noop" then .noop
  else .invalid

/-- `ts_operation_noop`: an operation at the same position that changes nothing. -/
def tsOperationNoop (op : TsOperation) (reason : Bytes) : TsOperation :=
  { tsOperationInit .noop op.pos [] with reason := snprintf tsMaxReason reason }

/-! ## UTF-8 text -/

/-- `is_utf8_continuation` -/
def isUtf8Continuation (value : UInt8) : Bool := value &&& 0xC0 == 0x80

/-- `ts_utf8_char_count`: one character per byte that is not a continuation byte. -/
def tsUtf8CharCount : Bytes → ℕ
  | [] => 0
  | b :: text => (if isUtf8Continuation b then 0 else 1) + tsUtf8CharCount text

/-- `ts_utf8_char_bytes`, read from the first byte (the terminator of an empty text). -/
def tsUtf8CharBytes (first : UInt8) : ℕ :=
  if first = 0 then 0
  else if first < 0x80 then 1
  else if first &&& 0xE0 = 0xC0 then 2
  else if first &&& 0xF0 = 0xE0 then 3
  else if first &&& 0xF8 = 0xF0 then 4
  else 1

/-- The loop of `ts_utf8_byte_offset` at byte `i`, with `left` characters still to skip. Each round
reads `text[i]` and ends at the terminator or when nothing is left to skip. -/
def byteOffsetLoop (text : Bytes) : ℕ → ℕ → Option ℕ
  | 0, i => (charAt text i).map fun _ => i
  | left + 1, i => do
    let first ← charAt text i
    if first = 0 then some i else byteOffsetLoop text left (i + tsUtf8CharBytes first)

/-- `ts_utf8_byte_offset`: the byte offset of a character position, or of the end of the text. The
walk trusts the lead bytes; it is undefined when it steps over the terminator. -/
def tsUtf8ByteOffset (text : Bytes) (charPos : ℕ) : Option ℕ := byteOffsetLoop text charPos 0

/-- `ts_apply_operation_to_text` -/
def tsApplyOperationToText (text : Bytes) (op : TsOperation) : Option Bytes :=
  match op.kind with
  | .noop => some text
  | .insert => do
    -- an insertion behind the end goes to the end
    let pos := if op.pos > tsUtf8CharCount text then tsUtf8CharCount text else op.pos
    let bytePos ← tsUtf8ByteOffset text pos
    some (text.take bytePos ++ op.ch ++ text.drop bytePos)
  | .delete =>
    if op.pos ≥ tsUtf8CharCount text then some text
    else do
      let bytePos ← tsUtf8ByteOffset text op.pos
      let nextByte ← tsUtf8ByteOffset text (op.pos + 1)
      some (text.take bytePos ++ text.drop nextByte)
  | .invalid => some text

/-- The differences of sizes that `ts_apply_operation_to_text` computes, each as a size and what is
taken from it. A deletion takes `next_byte - byte_pos` from the size of the text as well. -/
def applyDifferences (text : Bytes) (op : TsOperation) : Option (List (ℕ × ℕ)) :=
  match op.kind with
  | .noop => some []
  | .insert => do
    let pos := if op.pos > tsUtf8CharCount text then tsUtf8CharCount text else op.pos
    let bytePos ← tsUtf8ByteOffset text pos
    some [(text.length, bytePos)]
  | .delete =>
    if op.pos ≥ tsUtf8CharCount text then some []
    else do
      let bytePos ← tsUtf8ByteOffset text op.pos
      let nextByte ← tsUtf8ByteOffset text (op.pos + 1)
      some [(nextByte, bytePos), (text.length, sizeSub nextByte bytePos), (text.length, nextByte)]
  | .invalid => some []

end TermSync
