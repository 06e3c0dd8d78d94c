import TermSync.Message

/-!
# The JSON Lines codec (`protocol.c`)

A message is encoded as one line of JSON. The decoder is not a JSON parser: it looks for the text
`"key"` followed by a colon anywhere in the line. Bytes are compared with their ASCII codes, such as
34 for the quote, 58 for the colon and 92 for the backslash.
-/

namespace TermSync

/-! ## Encoding -/

/-- `sb_appendf`: nothing is appended when `vsnprintf` cannot return the length of the text. -/
def sbAppendf (sb text : Bytes) : Bytes := if (text.length : ℤ) ≤ intMax then sb ++ text else sb

/-- A digit of `%x`. -/
def hexDigit (d : ℕ) : UInt8 := if d < 10 then UInt8.ofNat (48 + d) else UInt8.ofNat (87 + d)

/-- `%04x` for a value below `0x10000`. -/
def formatHex4 (n : ℕ) : Bytes :=
  [hexDigit (n / 4096 % 16), hexDigit (n / 256 % 16), hexDigit (n / 16 % 16), hexDigit (n % 16)]

/-- One round of the loop of `json_escape`. -/
def escapeByte (ch : UInt8) : Bytes :=
  if ch = 92 then bytes "\\\\"
  else if ch = 34 then bytes "\\\""
  else if ch = 10 then bytes "\\n"
  else if ch = 13 then bytes "\\r"
  else if ch = 9 then bytes "\\t"
  else if ch < 0x20 then bytes "\\u" ++ formatHex4 ch.toNat
  else [ch]

/-- `json_escape` -/
def jsonEscape (value : Bytes) : Bytes := value.flatMap escapeByte

/-- The string builder of an encoder together with its `first` flag. -/
structure FieldWriter where
  sb : Bytes
  first : Bool

/-- `append_json_field_prefix` -/
def appendJsonFieldPrefix (w : FieldWriter) (name : Bytes) : FieldWriter where
  sb := sbAppendf (if w.first then w.sb else w.sb ++ bytes ",") (bytes "\"" ++ name ++ bytes "\":")
  first := false

/-- A field whose value is a string, even an empty one. -/
def appendQuoted (w : FieldWriter) (name value : Bytes) : FieldWriter :=
  let w := appendJsonFieldPrefix w name
  { w with sb := sbAppendf w.sb (bytes "\"" ++ jsonEscape value ++ bytes "\"") }

/-- `append_string_field`: an empty value is left out. -/
def appendStringField (w : FieldWriter) (name value : Bytes) : FieldWriter :=
  if value = [] then w else appendQuoted w name value

/-- `append_int_field`: a negative value stands for an unset field and is left out. -/
def appendIntField (w : FieldWriter) (name : Bytes) (value : ℤ) : FieldWriter :=
  if value < 0 then w
  else
    let w := appendJsonFieldPrefix w name
    { w with sb := sbAppendf w.sb (formatInt value) }

/-- `append_operation_field` -/
def appendOperationField (w : FieldWriter) (name : Bytes) (op : TsOperation) : FieldWriter :=
  let w := appendJsonFieldPrefix w name
  let sb := sbAppendf w.sb (bytes "\x7b\"kind\":\"" ++ tsOperationKindName op.kind ++
    bytes "\",\"pos\":" ++ formatSize op.pos)
  let sb := if op.kind = .insert then
    sbAppendf sb (bytes ",\"char\":\"" ++ jsonEscape op.ch ++ bytes "\"") else sb
  let sb := if op.reason ≠ [] then
    sbAppendf sb (bytes ",\"reason\":\"" ++ jsonEscape op.reason ++ bytes "\"") else sb
  { w with sb := sb ++ bytes "\x7d" }

/-- The `content` of `ts_encode_message`: `NULL` is left out, an empty text is not. -/
def appendContentField (w : FieldWriter) (content : Option Bytes) : FieldWriter :=
  match content with
  | some content => appendQuoted w (bytes "content") content
  | none => w

/-- `ts_encode_message` -/
def tsEncodeMessage (message : TsMessage) : Bytes :=
  let w : FieldWriter := { sb := bytes "\x7b", first := true }
  let w := appendStringField w (bytes "type") message.type
  let w := appendStringField w (bytes "client_id") message.clientId
  let w := appendStringField w (bytes "op_id") message.opId
  let w := appendIntField w (bytes "base_version") message.baseVersion
  let w := appendIntField w (bytes "server_version") message.serverVersion
  let w := appendIntField w (bytes "version") message.version
  let w := appendIntField w (bytes "history_start_version") message.historyStartVersion
  let w := if message.hasOp then appendOperationField w (bytes "op") message.op else w
  let w := if message.hasOriginalOp then
    appendOperationField w (bytes "original_op") message.originalOp else w
  let w := appendStringField w (bytes "message") message.message
  let w := appendStringField w (bytes "reason") message.reason
  let w := appendContentField w message.content
  w.sb ++ bytes "\x7d\n"

/-! ## Decoding -/

/-- `skip_ws` -/
def skipWs (p : Bytes) : Bytes := p.dropWhile isSpace

/-- `strstr`: the text from the first occurrence of the pattern on. -/
def strstr (pattern : Bytes) : Bytes → Option Bytes
  | [] => if pattern = [] then some [] else none
  | b :: text => if pattern.isPrefixOf (b :: text) then some (b :: text) else strstr pattern text

/-- The loop of `find_key`; every round but the last consumes the pattern, so the length of the text
bounds the number of rounds. -/
def findKeyLoop (pattern : Bytes) : ℕ → Bytes → Option Bytes
  | 0, _ => none
  | fuel + 1, p =>
    match strstr pattern p with
    | none => none
    | some p =>
      let after := skipWs (p.drop pattern.length)
      if after.head? = some 58 then some (skipWs after.tail)
      else findKeyLoop pattern fuel (p.drop pattern.length)

/-- `find_key`: the text from the value of the key on. -/
def findKey (json key : Bytes) : Option Bytes :=
  findKeyLoop (snprintf 96 (bytes "\"" ++ key ++ bytes "\"")) (json.length + 1) json

/-- `hex_value`; `none` is the result `-1`. -/
def hexValue (ch : UInt8) : Option ℕ :=
  if 48 ≤ ch ∧ ch ≤ 57 then some (ch.toNat - 48)
  else if 97 ≤ ch ∧ ch ≤ 102 then some (10 + ch.toNat - 97)
  else if 65 ≤ ch ∧ ch ≤ 70 then some (10 + ch.toNat - 65)
  else none

/-- The byte that stands for a `\u` escape: only ASCII codes are restored. -/
def unicodeByte (code : ℕ) : UInt8 := if 0 < code ∧ code < 0x80 then UInt8.ofNat code else 63

/-- The loop of `parse_json_string_alloc` behind the opening quote: the string and what lies behind its
closing quote. A `\u` escape that runs into the terminator has a digit missing, whatever lies behind
the terminator. -/
def parseStringLoop : Bytes → Bytes → Option (Bytes × Bytes)
  | _, [] => none
  | sb, ch :: start =>
    if ch = 34 then some (sb, start)
    else if ch = 92 then
      match start with
      | [] => none
      | esc :: start =>
        if esc = 34 ∨ esc = 92 ∨ esc = 47 then parseStringLoop (sb ++ [esc]) start
        else if esc = 110 then parseStringLoop (sb ++ [10]) start
        else if esc = 114 then parseStringLoop (sb ++ [13]) start
        else if esc = 116 then parseStringLoop (sb ++ [9]) start
        else if esc = 117 then
          match start with
          | c1 :: c2 :: c3 :: c4 :: start =>
            match hexValue c1, hexValue c2, hexValue c3, hexValue c4 with
            | some h1, some h2, some h3, some h4 =>
              parseStringLoop (sb ++ [unicodeByte (4096 * h1 + 256 * h2 + 16 * h3 + h4)]) start
            | _, _, _, _ => none
          | _ => none
        else none
    else parseStringLoop (sb ++ [ch]) start

/-- `parse_json_string_alloc` with `end_out` -/
def parseJsonStringAllocEnd : Bytes → Option (Bytes × Bytes)
  | [] => none
  | b :: start => if b = 34 then parseStringLoop [] start else none

/-- `parse_json_string_alloc` without `end_out` -/
def parseJsonStringAlloc (start : Bytes) : Option Bytes := (parseJsonStringAllocEnd start).map Prod.fst

/-- `json_get_content`: the whole string; a value that is not a string is not parsed at all. -/
def jsonGetContent (json key : Bytes) : Option Bytes := (findKey json key).bind parseJsonStringAlloc

/-- `json_get_string`: the string, cut to the size of the buffer. -/
def jsonGetString (json key : Bytes) (outSize : ℕ) : Option Bytes :=
  (jsonGetContent json key).map (snprintf outSize)

/-- `json_get_int` -/
def jsonGetInt (json key : Bytes) : Option ℤ := ((findKey json key).bind strtol).map toInt

/-- The scan of `json_get_object`; `copied` is what lies between `start` and `value`. -/
def scanObject (inString escape : Bool) (depth : ℤ) (copied : Bytes) : Bytes → Option Bytes
  | [] => none
  | ch :: value =>
    if inString then
      if escape then scanObject true false depth (copied ++ [ch]) value
      else if ch = 92 then scanObject true true depth (copied ++ [ch]) value
      else if ch = 34 then scanObject false escape depth (copied ++ [ch]) value
      else scanObject true false depth (copied ++ [ch]) value
    else if ch = 34 then scanObject true escape depth (copied ++ [ch]) value
    else if ch = 123 then scanObject false escape (depth + 1) (copied ++ [ch]) value
    else if ch = 125 then
      if depth - 1 = 0 then some (copied ++ [ch])
      else scanObject false escape (depth - 1) (copied ++ [ch]) value
    else scanObject false escape depth (copied ++ [ch]) value

/-- `json_get_object` -/
def jsonGetObject (json key : Bytes) : Option Bytes :=
  match findKey json key with
  | none => none
  | some value => if value.head? = some 123 then scanObject false false 0 [] value else none

/-- The position in an operation object: only a positive number replaces the zero. -/
def operationPos (json : Bytes) : ℕ :=
  match jsonGetInt json (bytes "pos") with
  | some pos => if pos > 0 then pos.toNat else 0
  | none => 0

/-- `parse_operation_object`: the operation as far as it has been filled in, and the error. -/
def parseOperationObject (errorSize : ℕ) (json : Bytes) : TsOperation × Option Bytes :=
  match jsonGetString json (bytes "kind") tsMaxType with
  | none => ({}, some (snprintf errorSize (bytes "operation kind is required")))
  | some kind =>
    let op : TsOperation := { kind := tsOperationKindFromName kind }
    if op.kind = .invalid then
      (op, some (snprintf errorSize (bytes "unsupported operation kind: " ++ kind)))
    else
      let op := { op with pos := operationPos json }
      let reason := (jsonGetString json (bytes "reason") tsMaxReason).getD []
      if op.kind = .insert then
        match jsonGetString json (bytes "char") tsMaxUtf8Char with
        | none =>
          (op, some (snprintf errorSize (bytes "insert operation requires one UTF-8 character")))
        | some ch =>
          if tsUtf8CharCount ch ≠ 1 then
            (op, some (snprintf errorSize (bytes "insert operation requires one UTF-8 character")))
          else ({ op with ch := snprintf tsMaxUtf8Char ch, reason := reason }, none)
      else ({ op with reason := reason }, none)

/-- `ts_decode_message`. A bad `original_op` is no error: the message keeps what has been filled in,
without `has_original_op`. -/
def tsDecodeMessage (errorSize : ℕ) (line : Bytes) : Except Bytes TsMessage :=
  let json := skipWs line
  if json.head? ≠ some 123 then
    .error (snprintf errorSize (bytes "protocol message must be a JSON object"))
  else
    match jsonGetString json (bytes "type") tsMaxType with
    | none => .error (snprintf errorSize (bytes "message type is required"))
    | some type =>
      let message : TsMessage :=
        { tsMessageInit with
          type := type
          clientId := (jsonGetString json (bytes "client_id") tsMaxClientId).getD []
          opId := (jsonGetString json (bytes "op_id") tsMaxOpId).getD []
          message := (jsonGetString json (bytes "message") tsMaxStatus).getD []
          reason := (jsonGetString json (bytes "reason") tsMaxReason).getD []
          baseVersion := (jsonGetInt json (bytes "base_version")).getD (-1)
          serverVersion := (jsonGetInt json (bytes "server_version")).getD (-1)
          version := (jsonGetInt json (bytes "version")).getD (-1)
          historyStartVersion := (jsonGetInt json (bytes "history_start_version")).getD (-1)
          content := jsonGetContent json (bytes "content") }
      let withOp : Except Bytes TsMessage := match jsonGetObject json (bytes "op") with
        | none => .ok message
        | some opJson => match parseOperationObject errorSize opJson with
          | (_, some error) => .error error
          | (op, none) => .ok { message with op := op, hasOp := true }
      match withOp with
      | .error error => .error error
      | .ok message => match jsonGetObject json (bytes "original_op") with
        | none => .ok message
        | some originalJson =>
          let (originalOp, error) := parseOperationObject errorSize originalJson
          .ok { message with originalOp := originalOp, hasOriginalOp := error.isNone }

end TermSync
