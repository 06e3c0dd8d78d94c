import TermSync.WireOperations

/-!
# The reads of the decoder (`protocol.c`)

The decoder with its pointers: a pointer is an index into the string that is scanned, and every `*p`
is a read with `charAt`. `none` is a read behind the terminator, so a result of `none` means that the
decoder has left its line, or its copy of a nested object. The loops are given a number of rounds;
each round reads a byte before the terminator and moves on, so the length of the string bounds them.
-/

namespace TermSync

/-- The loop of `skip_ws`. -/
def skipWsLoopAt (text : Bytes) : ℕ → ℕ → Option ℕ
  | 0, p => some p
  | rounds + 1, p => do
    let c ← charAt text p
    if c ≠ 0 ∧ isSpace c then skipWsLoopAt text rounds (p + 1) else some p

/-- `skip_ws` -/
def skipWsAt (text : Bytes) (p : ℕ) : Option ℕ := skipWsLoopAt text (text.length + 1) p

/-- The comparison of `strstr` at one position, which ends at the first difference. -/
def prefixAt (text : Bytes) : Bytes → ℕ → Option Bool
  | [], _ => some true
  | b :: pattern, p => do
    let c ← charAt text p
    if c = b then prefixAt text pattern (p + 1) else some false

/-- The positions that `strstr` tries. -/
def strstrLoopAt (text pattern : Bytes) : ℕ → ℕ → Option (Option ℕ)
  | 0, _ => some none
  | rounds + 1, p => do
    let found ← prefixAt text pattern p
    if found then some (some p)
    else
      let c ← charAt text p
      if c = 0 then some none else strstrLoopAt text pattern rounds (p + 1)

/-- `strstr` -/
def strstrAt (text pattern : Bytes) (p : ℕ) : Option (Option ℕ) :=
  strstrLoopAt text pattern (text.length + 1) p

/-- The loop of `find_key`. -/
def findKeyLoopAt (text pattern : Bytes) : ℕ → ℕ → Option (Option ℕ)
  | 0, _ => some none
  | rounds + 1, p => do
    match ← strstrAt text pattern p with
    | none => some none
    | some p =>
      let after ← skipWsAt text (p + pattern.length)
      let c ← charAt text after
      if c = 58 then (skipWsAt text (after + 1)).map some
      else findKeyLoopAt text pattern rounds (p + pattern.length)

/-- `find_key` -/
def findKeyAt (text : Bytes) (json : ℕ) (key : Bytes) : Option (Option ℕ) :=
  findKeyLoopAt text (snprintf 96 (bytes "\"" ++ key ++ bytes "\"")) (text.length + 1) json

/-- The loop of `parse_json_string_alloc` behind the opening quote. All four digits of a `\u` escape
are read before the first one is checked. -/
def parseStringLoopAt (text : Bytes) : ℕ → Bytes → ℕ → Option (Option Bytes)
  | 0, _, _ => some none
  | rounds + 1, sb, start => do
    let ch ← charAt text start
    if ch = 0 then some none
    else if ch = 34 then some (some sb)
    else if ch = 92 then
      let esc ← charAt text (start + 1)
      if esc = 34 ∨ esc = 92 ∨ esc = 47 then
        parseStringLoopAt text rounds (sb ++ [esc]) (start + 2)
      else if esc = 110 then parseStringLoopAt text rounds (sb ++ [10]) (start + 2)
      else if esc = 114 then parseStringLoopAt text rounds (sb ++ [13]) (start + 2)
      else if esc = 116 then parseStringLoopAt text rounds (sb ++ [9]) (start + 2)
      else if esc = 117 then
        let c1 ← charAt text (start + 2)
        let c2 ← charAt text (start + 3)
        let c3 ← charAt text (start + 4)
        let c4 ← charAt text (start + 5)
        match hexValue c1, hexValue c2, hexValue c3, hexValue c4 with
        | some h1, some h2, some h3, some h4 =>
          parseStringLoopAt text rounds
            (sb ++ [unicodeByte (4096 * h1 + 256 * h2 + 16 * h3 + h4)]) (start + 6)
        | _, _, _, _ => some none
      else some none
    else parseStringLoopAt text rounds (sb ++ [ch]) (start + 1)

/-- `parse_json_string_alloc` -/
def parseJsonStringAllocAt (text : Bytes) (start : ℕ) : Option (Option Bytes) := do
  let first ← charAt text start
  if first = 34 then parseStringLoopAt text (text.length + 1) [] (start + 1) else some none

/-- `json_get_content` -/
def jsonGetContentAt (text : Bytes) (json : ℕ) (key : Bytes) : Option (Option Bytes) := do
  match ← findKeyAt text json key with
  | none => some none
  | some value =>
    let first ← charAt text value
    if first = 34 then parseJsonStringAllocAt text value else some none

/-- `json_get_string` -/
def jsonGetStringAt (text : Bytes) (json : ℕ) (key : Bytes) (outSize : ℕ) :
    Option (Option Bytes) :=
  (jsonGetContentAt text json key).map (Option.map (snprintf outSize))

/-- The digits that `strtol` reads. -/
def digitsAt (text : Bytes) : ℕ → ℕ → Option Bytes
  | 0, _ => some []
  | rounds + 1, p => do
    let c ← charAt text p
    if Foundations.Decimal.isDigit c then (digitsAt text rounds (p + 1)).map (c :: ·) else some []

/-- `strtol` as `json_get_int` uses it: white space, a sign and digits. -/
def strtolAt (text : Bytes) (p : ℕ) : Option (Option ℤ) := do
  let p ← skipWsAt text p
  let sign ← charAt text p
  let ds ← digitsAt text (text.length + 1) (if sign = 45 ∨ sign = 43 then p + 1 else p)
  if ds = [] then some none
  else
    let parsed : ℤ :=
      if sign = 45 then -(Foundations.Decimal.value ds : ℤ) else Foundations.Decimal.value ds
    some (if longMin ≤ parsed ∧ parsed ≤ longMax then some parsed else none)

/-- `json_get_int` -/
def jsonGetIntAt (text : Bytes) (json : ℕ) (key : Bytes) : Option (Option ℤ) := do
  match ← findKeyAt text json key with
  | none => some none
  | some value => (strtolAt text value).map (Option.map toInt)

/-- The scan of `json_get_object`, up to the closing brace. -/
def scanObjectAt (text : Bytes) : ℕ → Bool → Bool → ℤ → ℕ → Option (Option ℕ)
  | 0, _, _, _, _ => some none
  | rounds + 1, inString, escape, depth, value => do
    let ch ← charAt text value
    if ch = 0 then some none
    else if inString then
      if escape then scanObjectAt text rounds true false depth (value + 1)
      else if ch = 92 then scanObjectAt text rounds true true depth (value + 1)
      else if ch = 34 then scanObjectAt text rounds false escape depth (value + 1)
      else scanObjectAt text rounds true false depth (value + 1)
    else if ch = 34 then scanObjectAt text rounds true escape depth (value + 1)
    else if ch = 123 then scanObjectAt text rounds false escape (depth + 1) (value + 1)
    else if ch = 125 then
      if depth - 1 = 0 then some (some value)
      else scanObjectAt text rounds false escape (depth - 1) (value + 1)
    else scanObjectAt text rounds false escape depth (value + 1)

/-- `memcpy(copy, start, len)` -/
def memcpyAt (text : Bytes) : ℕ → ℕ → Option Bytes
  | 0, _ => some []
  | len + 1, start => do
    let c ← charAt text start
    (memcpyAt text len (start + 1)).map (c :: ·)

/-- `json_get_object` -/
def jsonGetObjectAt (text : Bytes) (json : ℕ) (key : Bytes) : Option (Option Bytes) := do
  match ← findKeyAt text json key with
  | none => some none
  | some start =>
    let first ← charAt text start
    if first = 123 then
      match ← scanObjectAt text (text.length + 1) false false 0 start with
      | none => some none
      | some value => (memcpyAt text (value - start + 1) start).map some
    else some none

/-- The position in an operation object. -/
def operationPosAt (json : Bytes) : Option ℕ := do
  match ← jsonGetIntAt json 0 (bytes "pos") with
  | some pos => some (if pos > 0 then pos.toNat else 0)
  | none => some 0

/-- `parse_operation_object` -/
def parseOperationObjectAt (errorSize : ℕ) (json : Bytes) :
    Option (TsOperation × Option Bytes) := do
  match ← jsonGetStringAt json 0 (bytes "kind") tsMaxType with
  | none => some ({}, some (snprintf errorSize (bytes "operation kind is required")))
  | some kind =>
    let op : TsOperation := { kind := tsOperationKindFromName kind }
    if op.kind = .invalid then
      some (op, some (snprintf errorSize (bytes "unsupported operation kind: " ++ kind)))
    else
      let pos ← operationPosAt json
      let op := { op with pos := pos }
      if op.kind = .insert then
        match ← jsonGetStringAt json 0 (bytes "char") tsMaxUtf8Char with
        | none =>
          some (op, some (snprintf errorSize
            (bytes "insert operation requires one UTF-8 character")))
        | some ch =>
          if tsUtf8CharCount ch ≠ 1 then
            some (op, some (snprintf errorSize
              (bytes "insert operation requires one UTF-8 character")))
          else
            let reason ← jsonGetStringAt json 0 (bytes "reason") tsMaxReason
            some ({ op with ch := snprintf tsMaxUtf8Char ch, reason := reason.getD [] }, none)
      else
        let reason ← jsonGetStringAt json 0 (bytes "reason") tsMaxReason
        some ({ op with reason := reason.getD [] }, none)

/-- The fields of `ts_decode_message` up to `content`. -/
def decodeFieldsAt (line : Bytes) (json : ℕ) (type : Bytes) : Option TsMessage := do
  let clientId ← jsonGetStringAt line json (bytes "client_id") tsMaxClientId
  let opId ← jsonGetStringAt line json (bytes "op_id") tsMaxOpId
  let message ← jsonGetStringAt line json (bytes "message") tsMaxStatus
  let reason ← jsonGetStringAt line json (bytes "reason") tsMaxReason
  let baseVersion ← jsonGetIntAt line json (bytes "base_version")
  let serverVersion ← jsonGetIntAt line json (bytes "server_version")
  let version ← jsonGetIntAt line json (bytes "version")
  let historyStartVersion ← jsonGetIntAt line json (bytes "history_start_version")
  let content ← jsonGetContentAt line json (bytes "content")
  some
    { tsMessageInit with
      type := type
      clientId := clientId.getD []
      opId := opId.getD []
      message := message.getD []
      reason := reason.getD []
      baseVersion := baseVersion.getD (-1)
      serverVersion := serverVersion.getD (-1)
      version := version.getD (-1)
      historyStartVersion := historyStartVersion.getD (-1)
      content := content }

/-- The `op` of `ts_decode_message`. -/
def decodeOpAt (errorSize : ℕ) (line : Bytes) (json : ℕ) (message : TsMessage) :
    Option (Except Bytes TsMessage) := do
  match ← jsonGetObjectAt line json (bytes "op") with
  | none => some (.ok message)
  | some opJson =>
    match ← parseOperationObjectAt errorSize opJson with
    | (_, some error) => some (.error error)
    | (op, none) => some (.ok { message with op := op, hasOp := true })

/-- The `original_op` of `ts_decode_message`. -/
def decodeOriginalOpAt (errorSize : ℕ) (line : Bytes) (json : ℕ) (message : TsMessage) :
    Option (Except Bytes TsMessage) := do
  match ← jsonGetObjectAt line json (bytes "original_op") with
  | none => some (.ok message)
  | some originalJson =>
    let (originalOp, error) ← parseOperationObjectAt errorSize originalJson
    some (.ok { message with originalOp := originalOp, hasOriginalOp := error.isNone })

/-- `ts_decode_message` -/
def tsDecodeMessageAt (errorSize : ℕ) (line : Bytes) : Option (Except Bytes TsMessage) := do
  let json ← skipWsAt line 0
  let first ← charAt line json
  if first ≠ 123 then
    some (.error (snprintf errorSize (bytes "protocol message must be a JSON object")))
  else
    match ← jsonGetStringAt line json (bytes "type") tsMaxType with
    | none => some (.error (snprintf errorSize (bytes "message type is required")))
    | some type =>
      let message ← decodeFieldsAt line json type
      match ← decodeOpAt errorSize line json message with
      | .error error => some (.error error)
      | .ok message => decodeOriginalOpAt errorSize line json message

/-! ## Values that are cut short -/

/-- The escapes of one character. -/
def SimpleEscape (e : UInt8) : Prop := e = 34 ∨ e = 92 ∨ e = 47 ∨ e = 110 ∨ e = 114 ∨ e = 116

/-- A byte of a string, or a complete escape. -/
inductive StringPiece : Bytes → Prop
  | byte {b : UInt8} (hquote : b ≠ 34) (hbackslash : b ≠ 92) : StringPiece [b]
  | escape {e : UInt8} (he : SimpleEscape e) : StringPiece [92, e]
  | unicode {c1 c2 c3 c4 : UInt8} (h1 : (hexValue c1).isSome) (h2 : (hexValue c2).isSome)
      (h3 : (hexValue c3).isSome) (h4 : (hexValue c4).isSome) :
      StringPiece [92, 117, c1, c2, c3, c4]

/-- The text of a string runs, through complete pieces, into a `\u` escape with fewer than three bytes
behind the `u`. -/
def RunsIntoCut (rest : Bytes) : Prop :=
  ∃ (pieces : List Bytes) (tail : Bytes), (∀ piece ∈ pieces, StringPiece piece) ∧
    rest = pieces.flatten ++ 92 :: 117 :: tail ∧ tail.length < 3

/-- A string value that the terminator cuts off in a `\u` escape. -/
def CutShort (value : Bytes) : Prop := ∃ rest, value = 34 :: rest ∧ RunsIntoCut rest

/-! ## The values that are parsed -/

/-- The value of a string field, from its first byte on, if the key is found. -/
def valueOf (json key : Bytes) : List Bytes := (findKey json key).toList

/-- The values that are parsed in an operation object. -/
def operationValues (json : Bytes) : List Bytes :=
  valueOf json (bytes "kind") ++
    ((if operationKind json = .insert then valueOf json (bytes "char") else []) ++
      if OperationAccepted json then valueOf json (bytes "reason") else [])

/-- The values that are parsed in the fields of a message behind its type. -/
def fieldValues (json : Bytes) : List Bytes :=
  valueOf json (bytes "client_id") ++ (valueOf json (bytes "op_id") ++
    (valueOf json (bytes "message") ++ (valueOf json (bytes "reason") ++
      valueOf json (bytes "content"))))

/-- The values that are parsed in a line: none without an opening brace, and nothing behind a missing
type or an `op` that is not accepted. -/
def parsedValues (line : Bytes) : List Bytes :=
  let json := skipWs line
  if json.head? ≠ some 123 then []
  else valueOf json (bytes "type") ++
    if jsonGetString json (bytes "type") tsMaxType = none then []
    else fieldValues json ++ ((jsonGetObject json (bytes "op")).elim [] operationValues ++
      if (jsonGetObject json (bytes "op")).all OperationAccepted then
        (jsonGetObject json (bytes "original_op")).elim [] operationValues
      else [])

end TermSync
