import TermSync.Document
import TermSync.Text
import TermSync.Foundations.Runs

/-!
# Runs of the document

A run of the document is a sequence of calls of `ts_document_process_operation`. A *traced* document
also carries the occurrences of its characters, which no step of the code reads.
-/

namespace TermSync

open Foundations

/-- The arguments of one call of `ts_document_process_operation`. -/
structure DocCall where
  clientId : Bytes
  opId : Bytes
  baseVersion : ℤ
  op : Option TsOperation

/-- One call. -/
def processCall (doc : TsDocument) (call : DocCall) : Option (TsDocument × TsProcessResult) :=
  tsDocumentProcessOperation doc call.clientId call.opId call.baseVersion call.op

/-- The document after one call. -/
def docStep (doc : TsDocument) (call : DocCall) : Option TsDocument :=
  (processCall doc call).map Prod.fst

/-- What the document-level check of `ts_document_process_operation` lets through. -/
def Acceptable (op : TsOperation) : Prop :=
  op.kind ≠ .invalid ∧ (op.kind = .insert → tsUtf8CharCount op.ch = 1)

instance (op : TsOperation) : Decidable (Acceptable op) :=
  inferInstanceAs (Decidable (op.kind ≠ .invalid ∧ (op.kind = .insert → _)))

/-- The document accepts the operation of an OP. -/
def TsDocument.Accepts (doc : TsDocument) (message : TsMessage) : Prop :=
  message.type = typeOp ∧ message.hasOp = true ∧ Acceptable message.op ∧
    doc.historyStartVersion ≤ message.baseVersion ∧ message.baseVersion ≤ doc.version

instance (doc : TsDocument) (message : TsMessage) : Decidable (doc.Accepts message) :=
  inferInstanceAs (Decidable (_ ∧ _ ∧ _ ∧ _ ∧ _))

/-- An operation of a valid kind that inserts one well-formed character if it inserts. -/
def WellFormedOp (op : TsOperation) : Prop :=
  op.kind ≠ .invalid ∧ (op.kind = .insert → WellFormedChar op.ch)

/-- An operation of a valid kind whose position is in range for a text of `len` characters. -/
structure Normalized (op : TsOperation) (len : ℕ) : Prop where
  kind : op.kind ≠ .invalid
  insert : op.kind = .insert → op.pos ≤ len
  delete : op.kind = .delete → op.pos < len

/-- The call is refused: the document is as it was, and a RESYNC carries its text and both of its
versions. -/
structure Refused (doc doc' : TsDocument) (r : TsProcessResult) : Prop where
  document : doc' = doc
  status : r.status = .error ∨ r.status = .resync
  resync : r.status = .resync → ∀ m ∈ r.messages,
    m.historyStartVersion = doc.historyStartVersion ∧
      (m.type = typeResyncRequired ∧ m.serverVersion = doc.version ∨
        m.type = typeDocState ∧ m.version = doc.version ∧ m.content = some doc.text)
  types : r.status = .resync →
    r.messages.map TsMessage.type = [typeResyncRequired, typeDocState]

/-- The call commits `op` as the next version, and all its outputs agree on that. -/
structure Committed (doc doc' : TsDocument) (r : TsProcessResult) (op : TsOperation) : Prop where
  status : r.status = .ok
  version : doc'.version = doc.version + 1
  text : tsApplyOperationToText doc.text op = some doc'.text
  kind : op.kind ≠ .invalid
  insert : op.kind = .insert → op.pos ≤ tsUtf8CharCount doc.text ∧
    tsUtf8CharCount doc'.text = tsUtf8CharCount doc.text + 1
  delete : op.kind = .delete → op.pos < tsUtf8CharCount doc.text ∧
    tsUtf8CharCount doc'.text + 1 = tsUtf8CharCount doc.text
  noop : op.kind = .noop → tsUtf8CharCount doc'.text = tsUtf8CharCount doc.text
  ack : ∃ ack, r.ack = some ack ∧ ack.hasOp = true ∧ ack.op = op ∧
    ack.version = doc'.version ∧ ack.serverVersion = doc'.version
  remote : ∃ remote, r.remote = some remote ∧ remote.hasOp = true ∧ remote.op = op ∧
    remote.version = doc'.version ∧ remote.serverVersion = doc'.version
  snapshot : r.snapshotContent = some doc'.text ∧ r.snapshotVersion = doc'.version
  newest : ∃ entry, doc'.history.getLast? = some entry ∧ entry.op = op ∧
    entry.serverVersion = doc'.version

/-- Apply the operations of some history entries to a text, one after the other. -/
def replay (text : Bytes) (entries : List TsHistoryEntry) : Option Bytes :=
  entries.foldlM (fun text entry => tsApplyOperationToText text entry.op) text

/-- The retained entries cover every version after `b`. -/
def Replayable (doc : TsDocument) (b : ℤ) : Prop :=
  ∀ v, b < v → v ≤ doc.version → ∃ entry ∈ doc.history, entry.serverVersion = v

/-- A document together with the occurrences of its characters. -/
structure TracedDocument where
  doc : TsDocument
  occs : List Occurrence

/-- A new document on the text made of the characters `cs`. -/
def TracedDocument.init (cs : List Char) (historyLimit : ℕ) : TracedDocument where
  doc := tsDocumentInit (Utf8.encode cs) historyLimit
  occs := initialOccs cs

/-- The occurrences after a call with this result: an accepted operation is applied to them. -/
def traceOccs (occs : List Occurrence) (r : TsProcessResult) : List Occurrence :=
  match r.ack with
  | some ack => applyOcc ack.op ack.version occs
  | none => occs

/-- One call on a traced document, with its result. -/
def TracedDocument.process (t : TracedDocument) (call : DocCall) :
    Option (TracedDocument × TsProcessResult) :=
  (processCall t.doc call).map fun out => ({ doc := out.1, occs := traceOccs t.occs out.2 }, out.2)

/-- The traced document after one call. -/
def TracedDocument.step (t : TracedDocument) (call : DocCall) : Option TracedDocument :=
  (t.process call).map Prod.fst

/-! ## Intentions -/

/-- Every character that the operations of these calls insert is well-formed. -/
def InsertsWellFormed (calls : List DocCall) : Prop :=
  ∀ call ∈ calls, ∀ op, call.op = some op → op.kind = .insert → WellFormedChar op.ch

/-- The elements that `l'` shares with `l` stand in the same order. -/
def KeepsOrder (l l' : List Occurrence) : Prop :=
  ∀ o o', o ∈ l → o' ∈ l → o ∈ l' → o' ∈ l' →
    (l'.idxOf o < l'.idxOf o' ↔ l.idxOf o < l.idxOf o')

/-- What a DELETE at index `p` of `base` does to `current`: exactly the occurrence meant is removed,
if there is one and it is still there. -/
structure DeletesIntended (base current result : List Occurrence) (p : ℕ) (applied : TsOperation) :
    Prop where
  present : ∀ c, base[p]? = some c → c ∈ current →
    applied.kind = .delete ∧ result = current.erase c
  deleted : ∀ c, base[p]? = some c → c ∉ current → applied.kind = .noop ∧ result = current
  outOfRange : base.length ≤ p → applied.kind = .noop ∧ result = current

/-- What an INSERT at index `p` of `base` does to `current`: one new occurrence is added, right of
exactly the surviving occurrences that were left of `p`. -/
structure InsertsIntended (base current result : List Occurrence) (p : ℕ) (new : Occurrence) :
    Prop where
  added : new ∉ current ∧ new ∈ result ∧ result.erase new = current
  placed : ∀ o ∈ base, o ∈ current → (result.idxOf o < result.idxOf new ↔ base.idxOf o < p)

end TermSync
