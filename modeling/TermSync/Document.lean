import TermSync.Message

/-!
# The authoritative document (`document.c`)

The server's document, the transformation of an operation against the history, and
`ts_document_process_operation`, the critical section that orders all operations.
-/

namespace TermSync

/-- `TsHistoryEntry` -/
structure TsHistoryEntry where
  serverVersion : ℤ
  clientId : Bytes
  opId : Bytes
  baseVersion : ℤ
  /-- The operation as the client submitted it. -/
  originalOp : TsOperation
  /-- The operation as it was applied. -/
  op : TsOperation
  deriving DecidableEq, Repr

/-- `TsDocument`; `history_count` is the length of `history`. -/
structure TsDocument where
  text : Bytes
  version : ℤ
  historyStartVersion : ℤ
  historyLimit : ℕ
  history : List TsHistoryEntry
  deriving DecidableEq, Repr

/-- `TsProcessStatus` -/
inductive TsProcessStatus where
  | ok
  | error
  | resync
  deriving DecidableEq, Repr

/-- `TsProcessResult`; `has_ack` and `has_remote` say that `ack` and `remote` are present. -/
structure TsProcessResult where
  status : TsProcessStatus := .ok
  messages : List TsMessage := []
  ack : Option TsMessage := none
  remote : Option TsMessage := none
  snapshotContent : Option Bytes := none
  snapshotVersion : ℤ := 0
  logJson : Bytes := []
  deriving DecidableEq, Repr

/-- `set_message_error` -/
def setMessageError (opId text : Bytes) : TsMessage :=
  { tsMessageInit with
    type := typeError
    opId := snprintf tsMaxOpId opId
    message := snprintf tsMaxStatus text }

/-- `ts_document_init` -/
def tsDocumentInit (initialText : Bytes) (historyLimit : ℕ) : TsDocument where
  text := initialText
  version := 0
  historyStartVersion := 0
  historyLimit := if historyLimit = 0 then 1000 else historyLimit
  history := []

/-- `ts_document_snapshot` -/
def tsDocumentSnapshot (doc : TsDocument) : TsMessage :=
  { tsMessageInit with
    type := typeDocState
    version := doc.version
    historyStartVersion := doc.historyStartVersion
    content := some doc.text }

/-- `ts_transform_against`: the operation in the coordinates after `previous` has been applied. -/
def tsTransformAgainst (op previous : TsOperation) : TsOperation :=
  if op.kind = .noop ∨ previous.kind = .noop then op
  else if previous.kind = .insert then
    if (op.kind = .insert ∨ op.kind = .delete) ∧ previous.pos ≤ op.pos then
      { op with pos := sizeSucc op.pos }
    else op
  else if previous.kind = .delete then
    if op.kind = .insert ∧ previous.pos < op.pos then { op with pos := op.pos - 1 }
    else if op.kind = .delete then
      if previous.pos < op.pos then { op with pos := op.pos - 1 }
      else if previous.pos = op.pos then tsOperationNoop op (bytes "same character already deleted")
      else op
    else op
  else op

/-- `normalize_for_apply`: an insertion is clamped to the end, an impossible operation becomes a
NOOP. -/
def normalizeForApply (doc : TsDocument) (op : TsOperation) : TsOperation :=
  match op.kind with
  | .noop => op
  | .insert => if op.pos > tsUtf8CharCount doc.text then { op with pos := tsUtf8CharCount doc.text }
    else op
  | .delete => if op.pos < tsUtf8CharCount doc.text then op
    else tsOperationNoop op (bytes "delete position out of range")
  | .invalid => tsOperationNoop op (bytes "invalid operation")

/-- `append_history`: at the limit the oldest entry is dropped, and the window starts before the
oldest entry that is left. -/
def appendHistory (doc : TsDocument) (entry : TsHistoryEntry) : TsDocument :=
  let kept := if doc.history.length = doc.historyLimit then doc.history.drop 1 else doc.history
  let history := kept ++ [entry]
  { doc with
    history := history
    historyStartVersion :=
      match history with
      | [] => doc.version
      | oldest :: _ => if oldest.serverVersion - 1 < 0 then 0 else oldest.serverVersion - 1 }

/-- The `original_op` and `transformed_op` objects of a log entry. -/
def logOperation (op : TsOperation) : Bytes :=
  bytes "\x7b\"kind\":\"" ++ tsOperationKindName op.kind ++ bytes "\",\"pos\":" ++ formatSize op.pos ++
    (if op.kind = .insert then bytes ",\"char\":\"" ++ op.ch ++ bytes "\"" else []) ++ bytes "\x7d"

/-- `build_operation_log`: the fields are printed as they are, without escaping. -/
def buildOperationLog (outSize : ℕ) (serverVersion : ℤ) (clientId opId : Bytes) (baseVersion : ℤ)
    (original transformed : TsOperation) (contentLength : ℕ) : Bytes :=
  snprintf outSize
    (bytes "\x7b\"event\":\"operation\",\"server_version\":" ++ formatInt serverVersion ++
      bytes ",\"client_id\":\"" ++ clientId ++ bytes "\",\"op_id\":\"" ++ opId ++
      bytes "\",\"base_version\":" ++ formatInt baseVersion ++
      bytes ",\"original_op\":" ++ logOperation original ++
      bytes ",\"transformed_op\":" ++ logOperation transformed ++
      bytes ",\"content_length\":" ++ formatSize contentLength ++ bytes "\x7d")

/-- The size of `log_json`. -/
def logJsonSize : ℕ := 4096

/-! ## Processing one operation -/

/-- The answer to an operation that the document refuses. -/
def errorResult (opId text : Bytes) : TsProcessResult :=
  { status := .error, messages := [setMessageError opId text] }

/-- The answer to an operation whose base version the history does not cover. -/
def resyncResult (doc : TsDocument) (opId : Bytes) (baseVersion : ℤ) : TsProcessResult where
  status := .resync
  messages :=
    [{ tsMessageInit with
        type := typeResyncRequired
        opId := snprintf tsMaxOpId opId
        reason := snprintf tsMaxReason
          (if baseVersion < doc.historyStartVersion then bytes "operation history expired"
            else bytes "client version is ahead of server")
        serverVersion := doc.version
        historyStartVersion := doc.historyStartVersion },
      { tsMessageInit with
        type := typeDocState
        version := doc.version
        historyStartVersion := doc.historyStartVersion
        content := some doc.text }]

/-- The history entries that `ts_document_process_operation` folds into an operation with this base
version. -/
def entriesSince (doc : TsDocument) (baseVersion : ℤ) : List TsHistoryEntry :=
  doc.history.filter fun entry => entry.serverVersion > baseVersion

/-- The operation that is applied: transformed against every newer history entry, then
normalized. -/
def transformedOp (doc : TsDocument) (baseVersion : ℤ) (op : TsOperation) : TsOperation :=
  normalizeForApply doc
    ((entriesSince doc baseVersion).foldl (fun t entry => tsTransformAgainst t entry.op) op)

/-- The history entry of an accepted operation. -/
def acceptedEntry (doc : TsDocument) (clientId opId : Bytes) (baseVersion : ℤ) (op : TsOperation) :
    TsHistoryEntry where
  serverVersion := doc.version + 1
  clientId := snprintf tsMaxClientId clientId
  opId := snprintf tsMaxOpId opId
  baseVersion := baseVersion
  originalOp := op
  op := transformedOp doc baseVersion op

/-- The messages, snapshot and log entry of an accepted operation; `doc` is the document after it. -/
def okResult (doc : TsDocument) (clientId opId : Bytes) (baseVersion : ℤ)
    (op transformed : TsOperation) : TsProcessResult where
  status := .ok
  ack := some
    { tsMessageInit with
      type := typeAck
      clientId := snprintf tsMaxClientId clientId
      opId := snprintf tsMaxOpId opId
      baseVersion := baseVersion
      serverVersion := doc.version
      version := doc.version
      op := transformed
      hasOp := true
      originalOp := op
      hasOriginalOp := true }
  remote := some
    { tsMessageInit with
      type := typeRemoteOp
      clientId := snprintf tsMaxClientId clientId
      opId := snprintf tsMaxOpId opId
      serverVersion := doc.version
      version := doc.version
      op := transformed
      hasOp := true }
  snapshotContent := some doc.text
  snapshotVersion := doc.version
  logJson := buildOperationLog logJsonSize doc.version clientId opId baseVersion op transformed
    (tsUtf8CharCount doc.text)

/-- The document after an accepted operation has changed its text to `updated`. -/
def acceptedDocument (doc : TsDocument) (entry : TsHistoryEntry) (updated : Bytes) : TsDocument :=
  appendHistory { doc with version := doc.version + 1, text := updated } entry

/-- `ts_document_process_operation`. Incrementing the version `INT_MAX` is undefined, and so is a
splice whose byte offsets leave the text. -/
def tsDocumentProcessOperation (doc : TsDocument) (clientId opId : Bytes) (baseVersion : ℤ)
    (op : Option TsOperation) : Option (TsDocument × TsProcessResult) :=
  match op with
  | none => some (doc, errorResult opId (bytes "invalid operation"))
  | some op =>
    if op.kind = .invalid then some (doc, errorResult opId (bytes "invalid operation"))
    else if op.kind = .insert ∧ tsUtf8CharCount op.ch ≠ 1 then
      some (doc, errorResult opId (bytes "insert operation requires one UTF-8 character"))
    else if baseVersion < doc.historyStartVersion ∨ baseVersion > doc.version then
      some (doc, resyncResult doc opId baseVersion)
    else if doc.version < intMax then do
      let entry := acceptedEntry doc clientId opId baseVersion op
      let updated ← tsApplyOperationToText doc.text entry.op
      let doc' := acceptedDocument doc entry updated
      some (doc', okResult doc' clientId opId baseVersion op entry.op)
    else none

end TermSync
