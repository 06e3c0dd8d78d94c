import TermSync.DocumentRun
import TermSync.Protocol

/-!
# Operations on their way to the document

An operation reaches the document as the bytes of a JSON object. A refused object does not reach it.
-/

namespace TermSync

/-- The kind of an operation object. -/
def operationKind (json : Bytes) : TsOpKind :=
  ((jsonGetString json (bytes "kind") tsMaxType).map tsOperationKindFromName).getD .invalid

/-- An operation object of a known kind, with one character if it inserts. -/
def OperationAccepted (json : Bytes) : Prop :=
  operationKind json ≠ .invalid ∧
    (operationKind json = .insert →
      (jsonGetString json (bytes "char") tsMaxUtf8Char).map tsUtf8CharCount = some 1)

instance (json : Bytes) : Decidable (OperationAccepted json) :=
  inferInstanceAs (Decidable (_ ∧ (_ → _)))

/-- An operation on its way to the document. -/
structure WireOperation where
  clientId : Bytes
  opId : Bytes
  baseVersion : ℤ
  /-- The text of the operation object. -/
  object : Bytes

/-- The operation that `parse_operation_object` accepts, if it accepts one. -/
def WireOperation.parsed (w : WireOperation) : Option TsOperation :=
  match parseOperationObject tsMaxStatus w.object with
  | (op, none) => some op
  | (_, some _) => none

/-- An accepted object is processed by the document; a refused one does not reach it. -/
def wireStep (doc : TsDocument) (w : WireOperation) : Option TsDocument :=
  match w.parsed with
  | some op =>
    docStep doc { clientId := w.clientId, opId := w.opId, baseVersion := w.baseVersion, op := some op }
  | none => some doc

/-- If the operation is an insertion that the document will accept, then its character field is one
well-formed character. -/
def InsertsCharacter (doc : TsDocument) (w : WireOperation) : Prop :=
  ∀ op, w.parsed = some op → op.kind = .insert → doc.historyStartVersion ≤ w.baseVersion →
    w.baseVersion ≤ doc.version → doc.version < intMax → WellFormedChar op.ch

end TermSync
