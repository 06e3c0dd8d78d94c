import Mathlib.Data.List.DropRight
import TermSync.Protocol

/-!
# Encoded lines as lists of tokens

The abstract view of an encoded message: punctuation, and fields with the bytes of their value. On
such a line the textual search of `find_key` finds the first field of that name, wherever it is
nested. At the end stands what comes back of a message that is encoded and decoded.
-/

namespace TermSync

/-- The keys of an encoded message and of an encoded operation. -/
inductive Key where
  | type | clientId | opId | baseVersion | serverVersion | version | historyStartVersion
  | op | originalOp | message | reason | content | kind | pos | char
  deriving DecidableEq, Repr

/-- The name of a key, as it is written. -/
def Key.name : Key → Bytes
  | type => bytes "type"
  | clientId => bytes "client_id"
  | opId => bytes "op_id"
  | baseVersion => bytes "base_version"
  | serverVersion => bytes "server_version"
  | version => bytes "version"
  | historyStartVersion => bytes "history_start_version"
  | op => bytes "op"
  | originalOp => bytes "original_op"
  | message => bytes "message"
  | reason => bytes "reason"
  | content => bytes "content"
  | kind => bytes "kind"
  | pos => bytes "pos"
  | char => bytes "char"

/-- The text that `find_key` looks for. -/
def Key.pattern (key : Key) : Bytes := 34 :: (key.name ++ [34])

/-- The value of a field. -/
inductive Value where
  | str (text : Bytes)
  | num (n : ℕ)
  /-- The opening brace of an object; the fields of the object follow as tokens. -/
  | brace
  /-- A value that was too long to be printed. -/
  | missing
  deriving DecidableEq, Repr

def Value.bytes : Value → Bytes
  | str text => 34 :: (jsonEscape text ++ [34])
  | num n => formatSize n
  | brace => [123]
  | missing => []

/-- A punctuation mark or a field. -/
inductive Token where
  | punct (b : UInt8)
  | field (key : Key) (value : Value)
  deriving DecidableEq, Repr

def Token.bytes : Token → Bytes
  | punct b => [b]
  | field key value => 34 :: (key.name ++ 34 :: 58 :: value.bytes)

/-- The bytes of a list of tokens. -/
def render (ts : List Token) : Bytes := ts.flatMap Token.bytes

/-- A comma or a closing brace comes next. -/
def AtMark : List Token → Prop
  | .punct b :: _ => b = 44 ∨ b = 125
  | _ => False

/-- Every value is followed by a comma or a closing brace, and punctuation contains no quote. -/
def Closed : List Token → Prop
  | [] => True
  | .punct b :: ts => b ≠ 34 ∧ Closed ts
  | .field _ value :: ts => (value ≠ .brace → AtMark ts) ∧ Closed ts

/-- The token is the field `key`. -/
def Token.has (key : Key) : Token → Bool
  | punct _ => false
  | field k _ => k = key

/-- The number of backslashes at the end of a text. -/
def backslashRun (text : Bytes) : ℕ := (text.rtakeWhile fun b => b = 92).length

/-! ## The tokens of a message -/

/-- A string field that is left out when it is empty. -/
def stringTokens (key : Key) (value : Bytes) : List Token :=
  if value = [] then [] else [.punct 44, .field key (.str value)]

/-- An integer field that is left out when it is unset. -/
def intTokens (key : Key) (value : ℤ) : List Token :=
  if value < 0 then [] else [.punct 44, .field key (.num value.toNat)]

/-- The fields of an operation. -/
def operationBody (op : TsOperation) : List Token :=
  [.field .kind (.str (tsOperationKindName op.kind)), .punct 44, .field .pos (.num op.pos)] ++
    (if op.kind = .insert then [.punct 44, .field .char (.str op.ch)] else []) ++
    stringTokens .reason op.reason

/-- A field that is an operation, if it is present. -/
def operationTokens (key : Key) (present : Bool) (op : TsOperation) : List Token :=
  if present then .punct 44 :: .field key .brace :: (operationBody op ++ [.punct 125]) else []

/-- The `content` field: its value is printed unless it is too long. -/
def contentTokens (content : Option Bytes) : List Token :=
  match content with
  | none => []
  | some content =>
    [.punct 44, .field .content
      (if ((jsonEscape content).length + 2 : ℤ) ≤ intMax then .str content else .missing)]

/-- The fields before the operations. -/
def headTokens (m : TsMessage) : List Token :=
  [.punct 123, .field .type (.str m.type)] ++ stringTokens .clientId m.clientId ++
    stringTokens .opId m.opId ++ intTokens .baseVersion m.baseVersion ++
    intTokens .serverVersion m.serverVersion ++ intTokens .version m.version ++
    intTokens .historyStartVersion m.historyStartVersion

/-- The fields after the operations. -/
def tailTokens (m : TsMessage) : List Token :=
  stringTokens .message m.message ++ stringTokens .reason m.reason ++ contentTokens m.content ++
    [.punct 125, .punct 10]

/-- The tokens of an encoded message whose type is not empty. -/
def messageTokens (m : TsMessage) : List Token :=
  headTokens m ++ operationTokens .op m.hasOp m.op ++
    operationTokens .originalOp m.hasOriginalOp m.originalOp ++ tailTokens m

/-! ## Messages that fit their buffers -/

/-- A C string in a buffer of this size. -/
def FitsBuffer (size : ℕ) (text : Bytes) : Prop := text.length < size ∧ ∀ b ∈ text, b ≠ 0

instance (size : ℕ) (text : Bytes) : Decidable (FitsBuffer size text) :=
  inferInstanceAs (Decidable (text.length < size ∧ ∀ b ∈ text, b ≠ 0))

/-- A version field: unset, or a version. -/
def VersionField (value : ℤ) : Prop := -1 ≤ value ∧ value ≤ intMax

instance (value : ℤ) : Decidable (VersionField value) :=
  inferInstanceAs (Decidable (-1 ≤ value ∧ value ≤ intMax))

/-- An operation as it is sent: of a valid kind, with one character exactly if it inserts. -/
structure SentOperation (op : TsOperation) : Prop where
  kind : op.kind ≠ .invalid
  pos : (op.pos : ℤ) ≤ intMax
  reason : FitsBuffer tsMaxReason op.reason
  ch : FitsBuffer tsMaxUtf8Char op.ch
  insert : op.kind = .insert → tsUtf8CharCount op.ch = 1
  empty : op.kind ≠ .insert → op.ch = []

/-- A message as it is sent. -/
structure SentMessage (m : TsMessage) : Prop where
  type_ne : m.type ≠ []
  type : FitsBuffer tsMaxType m.type
  clientId : FitsBuffer tsMaxClientId m.clientId
  opId : FitsBuffer tsMaxOpId m.opId
  message : FitsBuffer tsMaxStatus m.message
  reason : FitsBuffer tsMaxReason m.reason
  baseVersion : VersionField m.baseVersion
  serverVersion : VersionField m.serverVersion
  version : VersionField m.version
  historyStartVersion : VersionField m.historyStartVersion
  op : if m.hasOp then SentOperation m.op else m.op = {}
  originalOp : if m.hasOriginalOp then SentOperation m.originalOp else m.originalOp = {}
  content : ∀ content, m.content = some content → ∀ b ∈ content, b ≠ 0

/-! ## What comes back of a message -/

/-- The first reason that stands in an operation of the message, or the empty one. -/
def nestedReason (m : TsMessage) : Bytes :=
  if m.hasOp ∧ m.op.reason ≠ [] then m.op.reason
  else if m.hasOriginalOp then m.originalOp.reason
  else []

/-- The reason that is found first. -/
def foundReason (m : TsMessage) : Bytes := if nestedReason m ≠ [] then nestedReason m else m.reason

/-- The part of a message that the encoder prints: no version below the one that means unset, and no
operation that has been refused. -/
def TsMessage.kept (m : TsMessage) : TsMessage :=
  { m with
    baseVersion := max (-1) m.baseVersion
    serverVersion := max (-1) m.serverVersion
    version := max (-1) m.version
    historyStartVersion := max (-1) m.historyStartVersion
    originalOp := if m.hasOriginalOp then m.originalOp else {} }

/-- What comes back of a decoded message when it is encoded and decoded again: the reason is the one that
stands first in the line. -/
def TsMessage.normal (m : TsMessage) : TsMessage := { m.kept with reason := foundReason m }

end TermSync
