import TermSync.ClientState
import TermSync.DocumentRun

/-!
# Answers to an operation

The server answers the client that has submitted an operation with the messages of the result of
`ts_document_process_operation`. The client receives them in order, with other inputs between them.
-/

namespace TermSync

/-- The client after one input, and the messages it sends. -/
def clientInput (state : TsClientState) : ClientInput → Option (TsClientState × List TsMessage)
  | .queue op => tsClientStateQueueOperation state op
  | .receive message => tsClientStateHandleMessage state message

/-- One input of a client, of which all sent messages are kept. -/
def sendingStep (s : TsClientState × List TsMessage) (input : ClientInput) :
    Option (TsClientState × List TsMessage) :=
  (clientInput s.1 input).map fun out => (out.1, s.2 ++ out.2)

/-- What the submitting client is sent: the ACK or the other messages of the result. -/
def TsProcessResult.answer (r : TsProcessResult) : List TsMessage := r.ack.toList ++ r.messages

/-- The inputs with which a client handles an answer. -/
inductive Handles : List TsMessage → List ClientInput → Prop where
  | last (message : TsMessage) : Handles [message] [.receive message]
  | more (message : TsMessage) (others : List ClientInput) {rest : List TsMessage}
      {inputs : List ClientInput} (h : Handles rest inputs) :
      Handles (message :: rest) (.receive message :: (others ++ inputs))

/-- The operation is no longer in flight, and the first of those queued behind it has been sent. -/
structure Released (x : TsPendingOperation) (queue : List TsPendingOperation)
    (after : TsClientState) (sent : List TsMessage) : Prop where
  slot : ∀ p, after.inflight = some p → p.opId ≠ x.opId
  next : ∀ p, queue.head? = some p → ∃ clientId baseVersion,
    opMessage clientId { p with baseVersion := baseVersion } ∈ sent

end TermSync
