import TermSync.Document
import TermSync.Foundations.Json
import TermSync.Protocol

/-!
# Log entries and terminal lines (`events.c`)

The entry of an operation is printed by `build_operation_log` and goes to the log file as it is; for
the terminal, `ts_format_operation_event` looks the fields up in the entry again.
-/

namespace TermSync

open Foundations

/-- `atoi`, which is `(int)strtol(text, NULL, 10)`. -/
def atoi (text : Bytes) : ℤ :=
  match scanNumber text with
  | none => 0
  | some (negative, ds, _) =>
    let parsed : ℤ := if negative then -(Decimal.value ds : ℤ) else Decimal.value ds
    toInt (max longMin (min longMax parsed))

/-- `json_get_for_format`: what stands behind the first occurrence of the key, up to the next
quote. -/
def jsonGetForFormat (json key : Bytes) (outSize : ℕ) : Bytes :=
  let pattern := snprintf 96 (bytes "\"" ++ key ++ bytes "\":\"")
  match strstr pattern json with
  | none => []
  | some p => ((p.drop pattern.length).takeWhile fun b => b ≠ 34).take (outSize - 1)

/-- `json_int_for_format` -/
def jsonIntForFormat (json key : Bytes) (fallback : ℤ) : ℤ :=
  let pattern := snprintf 96 (bytes "\"" ++ key ++ bytes "\":")
  match strstr pattern json with
  | none => fallback
  | some p => atoi (p.drop pattern.length)

/-- The line of an operation in the terminal. -/
def operationLine (version : ℤ) (clientId kind : Bytes) (pos : ℤ) (ch : Bytes) (base : ℤ) : Bytes :=
  if kind = bytes "insert" then
    bytes "OP v" ++ formatInt version ++ bytes " client=" ++ clientId ++ bytes " insert pos=" ++
      formatInt pos ++ bytes " char='" ++ ch ++ bytes "' base=" ++ formatInt base
  else
    bytes "OP v" ++ formatInt version ++ bytes " client=" ++ clientId ++ bytes " " ++
      (if kind ≠ [] then kind else bytes "unknown") ++ bytes " pos=" ++ formatInt pos ++
      bytes " base=" ++ formatInt base

/-- `ts_format_operation_event` -/
def tsFormatOperationEvent (entryJson : Bytes) (outSize : ℕ) : Bytes :=
  let clientId := jsonGetForFormat entryJson (bytes "client_id") tsMaxClientId
  let transformed := (strstr (bytes "\"transformed_op\"") entryJson).getD entryJson
  let kind := jsonGetForFormat transformed (bytes "kind") tsMaxType
  let ch := jsonGetForFormat transformed (bytes "char") tsMaxUtf8Char
  let version := jsonIntForFormat entryJson (bytes "server_version") 0
  let base := jsonIntForFormat entryJson (bytes "base_version") 0
  let pos := jsonIntForFormat transformed (bytes "pos") 0
  snprintf outSize (operationLine version clientId kind pos ch base)

/-! ## What an entry should say -/

/-- The value describes the operation: its kind, its position and the character of an insertion. -/
structure DescribesOperation (value : Json.Value) (op : TsOperation) : Prop where
  kind : value.Has (bytes "kind") (.string (tsOperationKindName op.kind))
  pos : value.HasInteger (bytes "pos") op.pos
  ch : op.kind = .insert → value.Has (bytes "char") (.string op.ch)

/-- The entry is one line and one JSON object from which the fields of the operation can be read, and
its line in the terminal shows the operation as it has been applied. -/
structure EntryFaithful (clientId opId : Bytes) (serverVersion baseVersion : ℤ)
    (original transformed : TsOperation) (outSize : ℕ) (entry : Bytes) : Prop where
  oneLine : (10 : UInt8) ∉ entry
  object : ∃ value, Json.WellFormed entry value ∧
    value.Has (bytes "client_id") (.string clientId) ∧
    value.Has (bytes "op_id") (.string opId) ∧
    value.HasInteger (bytes "base_version") baseVersion ∧
    value.HasInteger (bytes "server_version") serverVersion ∧
    (∃ op, value.Has (bytes "original_op") op ∧ DescribesOperation op original) ∧
    ∃ op, value.Has (bytes "transformed_op") op ∧ DescribesOperation op transformed
  shown : tsFormatOperationEvent entry outSize =
    operationLine serverVersion clientId (tsOperationKindName transformed.kind) transformed.pos
      transformed.ch baseVersion

/-- The text can stand between quotes as it is: valid UTF-8 without control characters, quotes and
backslashes. -/
def Quotable (text : Bytes) : Prop := Utf8.Valid text ∧ Json.Plain text

/-- The operation that the terminal line is read from: an identifier `transformed_op` is taken for the
key of the transformed operation. -/
def shownOperation (clientId opId : Bytes) (original transformed : TsOperation) : TsOperation :=
  if clientId = bytes "transformed_op" ∨ opId = bytes "transformed_op" then original else transformed

/-- The identifiers and the inserted character can be printed as they are, and the operation that is
shown agrees with the transformed one in its kind and, read as an `int`, in its position. -/
structure EntryReadable (clientId opId : Bytes) (original transformed : TsOperation) : Prop where
  client : Quotable clientId
  identifier : Quotable opId
  character : original.kind = .insert → Quotable original.ch
  kind : (shownOperation clientId opId original transformed).kind = transformed.kind
  pos : atoi (formatSize (shownOperation clientId opId original transformed).pos) = transformed.pos

end TermSync
