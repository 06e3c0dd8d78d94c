import TermSync.Message

/-!
# The client state machine (`client_state.c`)

The client keeps a copy of the document, a queue of operations and at most one operation in flight.
`send_fn` is called with the messages that a function returns, in their order. Applying an operation
to the local content is undefined where splicing the text is.
-/

namespace TermSync

/-- `TsPendingOperation` -/
structure TsPendingOperation where
  opId : Bytes
  op : TsOperation
  baseVersion : ℤ
  deriving DecidableEq, Repr

/-- `TsClientState`; `has_inflight` says that `inflight` is present. -/
structure TsClientState where
  clientId : Bytes
  content : Bytes
  version : ℤ
  historyStartVersion : ℤ
  queue : List TsPendingOperation
  inflight : Option TsPendingOperation
  nextOpNumber : ℤ
  status : Bytes
  deriving DecidableEq, Repr

/-- `ts_client_state_init` -/
def tsClientStateInit (clientId : Bytes) : TsClientState where
  clientId := snprintf tsMaxClientId clientId
  content := []
  version := 0
  historyStartVersion := 0
  queue := []
  inflight := none
  nextOpNumber := 1
  status := bytes "disconnected"

/-- The OP message of `state_pump`. -/
def opMessage (clientId : Bytes) (next : TsPendingOperation) : TsMessage :=
  { tsMessageInit with
    type := typeOp
    clientId := clientId
    opId := next.opId
    baseVersion := next.baseVersion
    op := next.op
    hasOp := true }

/-- `state_pump`: when nothing is in flight, the oldest queued operation is bound to the local
version and sent. -/
def statePump (state : TsClientState) : TsClientState × List TsMessage :=
  match state.inflight, state.queue with
  | none, next :: queue =>
    let next := { next with baseVersion := state.version }
    ({ state with queue := queue, inflight := some next }, [opMessage state.clientId next])
  | _, _ => (state, [])

/-- `ts_client_state_set_document` -/
def tsClientStateSetDocument (state : TsClientState) (content : Bytes)
    (version historyStartVersion : ℤ) : TsClientState × List TsMessage :=
  statePump
    { state with
      content := content
      version := version
      historyStartVersion := historyStartVersion
      inflight := none
      status := snprintf tsMaxStatus (bytes "synced at version " ++ formatInt version) }

/-- The operation id that `ts_client_state_queue_operation` prints. -/
def nextOpId (state : TsClientState) : Bytes :=
  snprintf tsMaxOpId (state.clientId.take 48 ++ bytes "-" ++ formatInt state.nextOpNumber)

/-- The queue entry of a new operation. -/
def newPending (state : TsClientState) (op : TsOperation) : TsPendingOperation where
  opId := nextOpId state
  op := op
  baseVersion := -1

/-- `ts_client_state_queue_operation`. Counting past `INT_MAX` is undefined. -/
def tsClientStateQueueOperation (state : TsClientState) (op : TsOperation) :
    Option (TsClientState × List TsMessage) :=
  if state.nextOpNumber < intMax then
    let queue := state.queue ++ [newPending state op]
    some (statePump
      { state with
        nextOpNumber := state.nextOpNumber + 1
        queue := queue
        status := snprintf tsMaxStatus
          (bytes "queued " ++ formatSize queue.length ++ bytes " operation(s)") })
  else none

/-- `apply_authoritative_op` -/
def applyAuthoritativeOp (state : TsClientState) (message : TsMessage) : Option TsClientState :=
  if message.hasOp then do
    let updated ← tsApplyOperationToText state.content message.op
    some
      { state with
        content := updated
        version := if message.version ≥ 0 then message.version else state.version }
  else some state

/-- `handle_ack`: an acknowledgement that is not for the operation in flight is ignored. -/
def handleAck (state : TsClientState) (message : TsMessage) :
    Option (TsClientState × List TsMessage) :=
  if state.inflight.map TsPendingOperation.opId = some message.opId then do
    let state ← applyAuthoritativeOp state message
    some (statePump
      { state with
        inflight := none
        status := snprintf tsMaxStatus (bytes "ACK " ++ message.opId ++ bytes " at version " ++
          formatInt state.version) })
  else
    some ({ state with status := snprintf tsMaxStatus (bytes "ignored stale ACK " ++ message.opId) },
      [])

/-- The message that asks for the whole document. -/
def requestDoc : TsMessage := { tsMessageInit with type := typeRequestDoc }

/-- `handle_remote`: an operation that is not the next one asks for the whole document. -/
def handleRemote (state : TsClientState) (message : TsMessage) :
    Option (TsClientState × List TsMessage) :=
  if message.version ≤ state.version then some (state, [])
  else if message.version ≠ state.version + 1 then
    some ({ state with status := bytes "missed remote operation; requesting document" },
      [requestDoc])
  else do
    let state ← applyAuthoritativeOp state message
    some ({ state with status := snprintf tsMaxStatus (bytes "remote op at version " ++
      formatInt state.version) }, [])

/-- `ts_client_state_handle_message` -/
def tsClientStateHandleMessage (state : TsClientState) (message : TsMessage) :
    Option (TsClientState × List TsMessage) :=
  if message.type = typeDocState then
    some (tsClientStateSetDocument state (message.content.getD [])
      (if message.version < 0 then 0 else message.version)
      (if message.historyStartVersion < 0 then 0 else message.historyStartVersion))
  else if message.type = typeWelcome then
    let clientId := if message.clientId ≠ [] then snprintf tsMaxClientId message.clientId
      else state.clientId
    some ({ state with
      clientId := clientId
      status := snprintf tsMaxStatus (bytes "connected as " ++ clientId) }, [])
  else if message.type = typeAck then handleAck state message
  else if message.type = typeRemoteOp then handleRemote state message
  else if message.type = typeResyncRequired then
    some ({ state with inflight := none, status := bytes "server requested resync" }, [requestDoc])
  else if message.type = typeSaveQueued then
    some ({ state with status := snprintf tsMaxStatus (bytes "save queued at version " ++
      formatInt message.version) }, [])
  else if message.type = typeError then
    some ({ state with status := snprintf tsMaxStatus (bytes "error: " ++ message.message.take 140) },
      [])
  else some (state, [])

/-! ## Runs of a client -/

/-- What happens to a client: an operation is queued, or a message is received. -/
inductive ClientInput where
  | queue (op : TsOperation)
  | receive (message : TsMessage)
  deriving DecidableEq, Repr

/-- The client after one input. -/
def clientStep (state : TsClientState) : ClientInput → Option TsClientState
  | .queue op => (tsClientStateQueueOperation state op).map Prod.fst
  | .receive message => (tsClientStateHandleMessage state message).map Prod.fst

/-- An ACK or a REMOTE_OP with an operation and a version. -/
def OpMessage (message : TsMessage) : Prop :=
  (message.type = typeAck ∨ message.type = typeRemoteOp) ∧ message.hasOp = true ∧
    0 ≤ message.version

instance : DecidablePred OpMessage := fun _ => inferInstanceAs (Decidable (_ ∧ _))

/-- The handlers of ACK and REMOTE_OP get to `apply_authoritative_op`. -/
def AppliesOp (state : TsClientState) (message : TsMessage) : Prop :=
  message.type = typeAck ∧
      state.inflight.map TsPendingOperation.opId = some message.opId ∨
    message.type = typeRemoteOp ∧ message.version = state.version + 1

/-- Handling the message applies its operation as the next version or changes neither the text nor
the version; and a version gap before a REMOTE_OP asks for the document. -/
structure GapFree (state : TsClientState) (message : TsMessage) (state' : TsClientState)
    (sent : List TsMessage) : Prop where
  next : AppliesOp state message →
    message.version = state.version + 1 ∧ state'.version = message.version ∧
      tsApplyOperationToText state.content message.op = some state'.content
  other : ¬ AppliesOp state message →
    state'.content = state.content ∧ state'.version = state.version
  gap : message.type = typeRemoteOp → state.version + 1 < message.version → requestDoc ∈ sent

/-- An ACK of the operation in flight has the next version. -/
def AckIsNext (state : TsClientState) : ClientInput → Prop
  | .receive message => OpMessage message → message.type = typeAck →
    state.inflight.map TsPendingOperation.opId = some message.opId →
      message.version = state.version + 1
  | .queue _ => True

instance (state : TsClientState) : DecidablePred (AckIsNext state)
  | .receive message => inferInstanceAs (Decidable (OpMessage message → message.type = typeAck →
    state.inflight.map TsPendingOperation.opId = some message.opId →
      message.version = state.version + 1))
  | .queue _ => isTrue trivial

end TermSync
