import TermSync.System

/-!
# Properties of the system

What the runs of the system are meant to keep, and the conditions on their steps under which they do.
-/

namespace TermSync

open Foundations

/-- A key queues an operation of a valid kind, with one well-formed character if it inserts. -/
def Action.WellFormed : Action → Prop
  | .key _ op => WellFormedOp op
  | _ => True

/-! ## Convergence -/

/-- Every client has the text and the version of the server's document. -/
def Sys.Converged (s : Sys) : Prop :=
  ∀ i < s.accepted, (s.conns i).client.content = s.server.document.text ∧
    (s.conns i).client.version = s.server.document.version

instance (s : Sys) : Decidable s.Converged := inferInstanceAs (Decidable (∀ i < s.accepted, _ ∧ _))

/-- The next message does not find the client at a wrong version: an ACK for the operation in flight
has the next version, any other ACK a version that the client already has, and a DOC_STATE is not
older than the local copy. -/
def Conn.InOrder (c : Conn) (message : TsMessage) : Prop :=
  (message.type = typeAck →
    if c.client.inflight.map TsPendingOperation.opId = some message.opId
    then message.version = c.client.version + 1
    else message.version ≤ c.client.version) ∧
  (message.type = typeDocState → c.client.version ≤ message.version)

instance (c : Conn) (message : TsMessage) : Decidable (c.InOrder message) :=
  inferInstanceAs (Decidable (_ ∧ _))

/-- A broadcast of connection `i` leaves out no other client. -/
def Effect.ReachesOthers (clients : List TsClientConnection) (i : ℕ) : Effect → Prop
  | .broadcast _ excludeClientId =>
    ∀ client ∈ clients, client.clientId = excludeClientId → client.fd = i
  | _ => True

instance (clients : List TsClientConnection) (i : ℕ) :
    (effect : Effect) → Decidable (effect.ReachesOthers clients i)
  | .broadcast _ excludeClientId => inferInstanceAs
    (Decidable (∀ client ∈ clients, client.clientId = excludeClientId → client.fd = i))
  | .send _ | .pipe _ | .register _ | .snapshot | .sendTo _ _ | .unlock => isTrue trivial

/-- A client handles only messages that find it at the right version, and a broadcast leaves out no
other client that has the id of the author. -/
def Sys.InOrder (s : Sys) : Action → Prop
  | .deliver i => ∀ message ∈ (s.conns i).toClient.head?, (s.conns i).InOrder message
  | .serve i => ∀ effect ∈ (s.conns i).thread.head?, effect.ReachesOthers s.server.clients i
  | _ => True

instance (s : Sys) : DecidablePred s.InOrder
  | .deliver i => inferInstanceAs
    (Decidable (∀ message ∈ (s.conns i).toClient.head?, (s.conns i).InOrder message))
  | .serve i => inferInstanceAs (Decidable
    (∀ effect ∈ (s.conns i).thread.head?, effect.ReachesOthers s.server.clients i))
  | .connect _ _ | .key _ _ | .save _ | .saverTake _ | .saverTimer _ => isTrue trivial

/-! ## The operations of one client -/

/-- The OPs among some messages. -/
def opsOf (messages : List TsMessage) : List TsMessage :=
  messages.filter fun message => message.type = typeOp

/-- An OP is answered with an ACK, an ERROR or a RESYNC_REQUIRED. -/
def IsAnswer (message : TsMessage) : Prop :=
  message.type = typeAck ∨ message.type = typeError ∨ message.type = typeResyncRequired

instance : DecidablePred IsAnswer := fun _ => inferInstanceAs (Decidable (_ ∨ _ ∨ _))

/-- The operation ids of the answers among some messages. -/
def answersOf (messages : List TsMessage) : List Bytes :=
  (messages.filter IsAnswer).map TsMessage.opId

/-- The calls of `ts_document_process_operation` for one connection. -/
def Sys.processedBy (s : Sys) (i : ℕ) : List Processed := s.processed.filter fun p => p.conn = i

/-- The ACKs of the accepted operations of one connection. -/
def Sys.commitsOf (s : Sys) (i : ℕ) : List TsMessage :=
  (s.commits.filter fun commit => commit.1 = i).map Prod.snd

/-- What a client has queued has been sent or waits, in order, under distinct ids. What it has sent
has been processed or is still in the channel, in order. The server has committed each processed
operation once, in order, and has answered the others with RESYNC_REQUIRED. -/
structure Sys.ClientFifo (s : Sys) (i : ℕ) : Prop where
  queued : ((opsOf (s.conns i).sent).map fun m => (m.opId, m.op)) ++
    ((s.conns i).client.queue.map fun p => (p.opId, p.op)) =
      (s.conns i).queued.map fun p => (p.opId, p.op)
  distinct : ((s.conns i).queued.map TsPendingOperation.opId).Nodup
  sent : opsOf (s.conns i).sent =
    (s.processedBy i).map Processed.message ++ opsOf (s.conns i).toServer
  committed : ((s.commitsOf i).map fun ack => (ack.opId, ack.originalOp)) =
    ((s.processedBy i).filter fun p => p.result.status = .ok).map
      fun p => (p.message.opId, p.message.op)
  ordered : ((s.commitsOf i).map TsMessage.version).Pairwise (· < ·)
  refused : ∀ p ∈ s.processedBy i, p.result.status ≠ .ok →
    ∃ m ∈ p.result.messages, m.type = typeResyncRequired ∧ m.opId = p.message.opId

/-- The OPs that a client has sent and whose answers it has not handled. -/
def Conn.outstanding (c : Conn) : List TsMessage :=
  (opsOf c.sent).filter fun m => m.opId ∉ answersOf c.received

/-- At most one OP of each client is outstanding. -/
def Sys.OneOutstanding (s : Sys) : Prop := ∀ i < s.accepted, (s.conns i).outstanding.length ≤ 1

instance (s : Sys) : Decidable s.OneOutstanding :=
  inferInstanceAs (Decidable (∀ i < s.accepted, (s.conns i).outstanding.length ≤ 1))

/-- A client handles a DOC_STATE only when the operation in flight, if there is one, has been
answered. -/
def Sys.DocAfterAnswer (s : Sys) : Action → Prop
  | .deliver i => ∀ message ∈ (s.conns i).toClient.head?, message.type = typeDocState →
    ∀ p ∈ (s.conns i).client.inflight, p.opId ∈ answersOf (s.conns i).received
  | _ => True

instance (s : Sys) : DecidablePred s.DocAfterAnswer
  | .deliver i => inferInstanceAs (Decidable (∀ message ∈ (s.conns i).toClient.head?,
    message.type = typeDocState →
      ∀ p ∈ (s.conns i).client.inflight, p.opId ∈ answersOf (s.conns i).received))
  | .connect _ _ | .key _ _ | .save _ | .serve _ | .saverTake _ | .saverTimer _ => isTrue trivial

/-! ## What is saved -/

/-- The content and the version that an event asks to save. -/
def SaverEvent.saved? : SaverEvent → Option (Bytes × ℤ)
  | snapshot content version | saveNow content version => some (content, version)
  | log _ => none

/-- The event that a thread writes to the pipe. -/
def Effect.event? : Effect → Option SaverEvent
  | pipe event => some event
  | _ => none

/-- An event asks for no newer version than another one. -/
def SaverEvent.NotNewer (a b : SaverEvent) : Prop := ∀ x ∈ a.saved?, ∀ y ∈ b.saved?, x.2 ≤ y.2

instance (a b : SaverEvent) : Decidable (a.NotNewer b) :=
  inferInstanceAs (Decidable (∀ x ∈ a.saved?, ∀ y ∈ b.saved?, x.2 ≤ y.2))

/-- From `a` to `b` the autosave process has not gone back: neither to an older latest version, nor to
an older `.autosave` file or document. -/
structure SaverState.NotOlder (a b : SaverState) : Prop where
  latest : a.latestVersion ≤ b.latestVersion
  autosaveFile : ∀ x ∈ a.autosaveFile, ∃ y ∈ b.autosaveFile, x.2 ≤ y.2
  documentFile : ∀ x ∈ a.documentFile, ∃ y ∈ b.documentFile, x.2 ≤ y.2

/-- The latest content is the text of the highest version that has been sent to the autosave
process. -/
structure Sys.HoldsNewest (s : Sys) : Prop where
  sent : ∃ event ∈ s.piped, ∃ x ∈ event.saved?, x.2 = s.saver.latestVersion
  highest : ∀ event ∈ s.piped, ∀ x ∈ event.saved?, x.2 ≤ s.saver.latestVersion
  content : s.saver.latestContent = s.textAt s.saver.latestVersion

/-- A thread does not send an older version to the autosave process than has been sent before. -/
def Sys.SendsInOrder (s : Sys) : Action → Prop
  | .serve i => ∀ effect ∈ (s.conns i).thread.head?, ∀ event ∈ effect.event?,
    ∀ sent ∈ s.piped, sent.NotNewer event
  | _ => True

instance (s : Sys) : DecidablePred s.SendsInOrder
  | .serve i => inferInstanceAs (Decidable (∀ effect ∈ (s.conns i).thread.head?,
    ∀ event ∈ effect.event?, ∀ sent ∈ s.piped, sent.NotNewer event))
  | .connect _ _ | .key _ _ | .save _ | .deliver _ | .saverTake _ | .saverTimer _ => isTrue trivial

/-! ## Consecutive typing -/

/-- The edits that some accepted operations make one after the other. -/
def commitEdits : List Occurrence → List TsMessage → List (Edit Occurrence)
  | _, [] => []
  | occs, ack :: acks =>
    occEdit ack.op ack.version occs :: commitEdits (applyOcc ack.op ack.version occs) acks

namespace Sys

/-- The character occurrences of the text at a version; `cs` are the characters of the initial
text. -/
def occsAt (s : Sys) (cs : List Char) (version : ℤ) : List Occurrence :=
  ((s.commits.take version.toNat).map Prod.snd).foldl
    (fun occs ack => applyOcc ack.op ack.version occs) (initialOccs cs)

/-- The edits that lead from the text at a version to the text at a later one. -/
def editsBetween (s : Sys) (cs : List Char) (base version : ℤ) : List (Edit Occurrence) :=
  commitEdits (s.occsAt cs base)
    (((s.commits.take version.toNat).drop base.toNat).map Prod.snd)

/-- What a client has typed: an INSERT and directly after it an INSERT at the next position. -/
def typedPairs (s : Sys) (i : ℕ) : List (TsPendingOperation × TsPendingOperation) :=
  ((s.conns i).queued.zip (s.conns i).queued.tail).filter fun (x, y) =>
    x.op.kind = .insert ∧ y.op.kind = .insert ∧ y.op.pos = x.op.pos + 1

/-- The ACKs of an operation that has been committed for a connection. -/
def acksOf (s : Sys) (i : ℕ) (opId : Bytes) : List TsMessage :=
  (s.commitsOf i).filter fun ack => ack.opId = opId

/-- The occurrence that a committed INSERT has brought in. -/
def occurrenceOf (ack : TsMessage) : Occurrence := (.inserted ack.version, ack.op.ch)

/-- In the text of the document, what has been typed one after the other stands in this order. -/
def KeepsTyping (s : Sys) (cs : List Char) : Prop :=
  ∀ i, ∀ pair ∈ s.typedPairs i, ∀ first ∈ s.acksOf i pair.1.opId, ∀ second ∈ s.acksOf i pair.2.opId,
    let occs := s.occsAt cs s.server.document.version
    occurrenceOf first ∈ occs → occurrenceOf second ∈ occs →
      occs.idxOf (occurrenceOf first) < occs.idxOf (occurrenceOf second)

/-- When the server commits the second of two characters typed one after the other, the first one is no
longer in the text, or it stood left of the position of the second one. The two are compared at the base
version of the second one, or, if the first one has been committed later than that, at its version, to
which the position has moved. -/
def FindsTyping (s : Sys) (cs : List Char) : Action → Prop
  | .serve i => (s.conns i).thread = [] → (s.conns i).phase = .serving →
    ∀ message ∈ (s.conns i).toServer.head?, s.server.document.Accepts message →
      ∀ pair ∈ s.typedPairs i, pair.2.opId = message.opId → ∀ first ∈ s.acksOf i pair.1.opId,
        occurrenceOf first ∈ s.occsAt cs s.server.document.version →
          let version := max message.baseVersion first.version
          (s.occsAt cs version).idxOf (occurrenceOf first) <
            carryGaps (s.editsBetween cs message.baseVersion version) message.op.pos
  | _ => True

instance (s : Sys) (cs : List Char) : DecidablePred (s.FindsTyping cs)
  | .serve i => inferInstanceAs (Decidable ((s.conns i).thread = [] → (s.conns i).phase = .serving →
    ∀ message ∈ (s.conns i).toServer.head?, s.server.document.Accepts message →
      ∀ pair ∈ s.typedPairs i, pair.2.opId = message.opId → ∀ first ∈ s.acksOf i pair.1.opId,
        occurrenceOf first ∈ s.occsAt cs s.server.document.version →
          (s.occsAt cs (max message.baseVersion first.version)).idxOf (occurrenceOf first) <
            carryGaps (s.editsBetween cs message.baseVersion
              (max message.baseVersion first.version)) message.op.pos))
  | .connect _ _ | .key _ _ | .save _ | .deliver _ | .saverTake _ | .saverTimer _ => isTrue trivial

end Sys

/-- The position of an operation can be sent: `json_get_int` reads it as an `int`. -/
def Action.Sendable : Action → Prop
  | .key _ op => (op.pos : ℤ) ≤ intMax
  | _ => True

instance : DecidablePred Action.Sendable
  | .key _ op => inferInstanceAs (Decidable ((op.pos : ℤ) ≤ intMax))
  | .connect _ _ | .save _ | .deliver _ | .serve _ | .saverTake _ | .saverTimer _ => isTrue trivial

/-! ## What the server says -/

/-- What a message to a client says is so. An operation is that of an accepted call at this version, a
document is the text at its version, and a resync is required only because the history has expired.
No message is an ERROR. -/
structure Sys.Truthful (s : Sys) (message : TsMessage) : Prop where
  operation : message.type = typeAck ∨ message.type = typeRemoteOp → message.hasOp = true ∧
    ∃ commit ∈ s.commits, commit.2.version = message.version ∧ commit.2.op = message.op ∧
      commit.2.opId = message.opId
  document : message.type = typeDocState → 0 ≤ message.version ∧
    message.version ≤ s.server.document.version ∧
    ∃ content, message.content = some content ∧ s.textAt message.version = some content
  resync : message.type = typeResyncRequired → message.reason = bytes "operation history expired"
  accepted : message.type ≠ typeError

/-- Everything that a client has been told or is about to be told is so, the client is not ahead of the
server, and its copy is valid UTF-8. -/
structure Sys.ToldTruth (s : Sys) (c : Conn) : Prop where
  said : ∀ message ∈ c.received ++ c.toClient, s.Truthful message
  version : 0 ≤ c.client.version ∧ c.client.version ≤ s.server.document.version
  content : ValidText c.client.content

/-! ## What a client has been sent -/

/-- The message brings the operation of this version to a client. -/
def TsMessage.operationAt (version : ℤ) (message : TsMessage) : Bool :=
  (message.type = typeAck ∨ message.type = typeRemoteOp) ∧ message.version = version

/-- All messages that have been sent to a client. -/
def Conn.heard (c : Conn) : List TsMessage := c.received ++ c.toClient

/-- No version is sent to client `i` twice, and its own operations come as ACKs, those of others as
REMOTE_OPs. -/
structure Sys.SentOnce (s : Sys) (i : ℕ) : Prop where
  once : ∀ version, (s.conns i).heard.countP (TsMessage.operationAt version) ≤ 1
  own : ∀ message ∈ (s.conns i).heard, message.type = typeAck →
    ∃ commit ∈ s.commits, commit.2.version = message.version ∧ commit.1 = i
  other : ∀ message ∈ (s.conns i).heard, message.type = typeRemoteOp →
    ∃ commit ∈ s.commits, commit.2.version = message.version ∧ commit.1 ≠ i

end TermSync
