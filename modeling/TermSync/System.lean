import Mathlib.Logic.Function.Basic
import TermSync.ClientState
import TermSync.DocumentRun
import TermSync.Server

/-!
# The system: clients, server threads and the autosave process

The parties run concurrently and are connected by reliable FIFO channels that carry whole messages
and events. One action of the system is one step of one party: a client handles a key or a message, a
thread of the server takes the next message or goes on to its next effect, the autosave process takes
an event.

The histories (`queued`, `sent`, `received`, `processed`, `piped`) are read by no step. They are what
the properties of a run talk about.
-/

namespace TermSync

open Foundations

/-- How far `client_thread_main` has come. -/
inductive Phase where
  /-- The first message has not been taken. -/
  | joining
  | serving
  /-- The first message was not a JOIN. -/
  | closed
  deriving DecidableEq, Repr

/-- One connection: the client, the server's thread for it and the two channels between them. -/
structure Conn where
  client : TsClientState
  toServer : List TsMessage
  toClient : List TsMessage
  /-- The server's record of the connection. -/
  peer : TsClientConnection
  phase : Phase
  /-- What the thread still has to do for the message it is handling. -/
  thread : List Effect
  /-- All operations that have been queued. -/
  queued : List TsPendingOperation
  /-- All messages that the client has sent. -/
  sent : List TsMessage
  /-- All messages that the client has handled. -/
  received : List TsMessage
  deriving DecidableEq, Repr

/-- A call of `ts_document_process_operation` by the thread of a connection. -/
structure Processed where
  conn : ℕ
  message : TsMessage
  result : TsProcessResult
  deriving DecidableEq, Repr

/-- The whole system. -/
structure Sys where
  server : TsServer
  /-- The thread that holds `clients_lock`. -/
  clientsLock : Option ℕ
  /-- The number of connections so far; only those below it exist. -/
  accepted : ℕ
  conns : ℕ → Conn
  pipe : List SaverEvent
  saver : SaverState
  /-- The text of the document at the start. -/
  initialText : Bytes
  /-- All calls of `ts_document_process_operation`, in the order of their critical sections. -/
  processed : List Processed
  /-- All events that have been written to the pipe. -/
  piped : List SaverEvent

/-- What a thread or a user does next. -/
inductive Action where
  /-- A client starts with a client id and sends its JOIN. -/
  | connect (clientId address : Bytes)
  /-- A key queues an operation. -/
  | key (i : ℕ) (op : TsOperation)
  /-- A key asks for a save. -/
  | save (i : ℕ)
  /-- A client handles the next message. -/
  | deliver (i : ℕ)
  /-- A thread takes the next message, or goes on to its next effect. -/
  | serve (i : ℕ)
  /-- The autosave process takes the next event; `written` says whether its file can be written. -/
  | saverTake (written : Bool)
  /-- The timer of the autosave process. -/
  | saverTimer (written : Bool)
  deriving DecidableEq, Repr

/-! ## Start -/

/-- A connection that does not exist yet. -/
def Conn.none : Conn where
  client := tsClientStateInit []
  toServer := []
  toClient := []
  peer := ⟨0, [], []⟩
  phase := .closed
  thread := []
  queued := []
  sent := []
  received := []

/-- The JOIN of a client. -/
def joinMessage (clientId : Bytes) : TsMessage :=
  { tsMessageInit with type := typeJoin, clientId := snprintf tsMaxClientId clientId }

/-- The SAVE of a client. -/
def saveMessage : TsMessage := { tsMessageInit with type := typeSave }

/-- A client that has just connected. -/
def Conn.opened (fd : ℕ) (clientId address : Bytes) : Conn where
  client := tsClientStateInit (snprintf tsMaxClientId clientId)
  toServer := [joinMessage clientId]
  toClient := []
  peer := ⟨fd, [], address⟩
  phase := .joining
  thread := []
  queued := []
  sent := [joinMessage clientId]
  received := []

/-- The server after its start: the autosave process has been sent the initial text. -/
def Sys.init (initialText : Bytes) (historyLimit : ℕ) (documentPath : Bytes) : Sys where
  server :=
    { nextClientNumber := 1, clients := [], document := tsDocumentInit initialText historyLimit }
  clientsLock := .none
  accepted := 0
  conns := fun _ => Conn.none
  pipe := [.snapshot initialText 0]
  saver := SaverState.init documentPath
  initialText := initialText
  processed := []
  piped := [.snapshot initialText 0]

/-! ## Steps -/

/-- Replace one connection. -/
def Sys.setConn (s : Sys) (i : ℕ) (c : Conn) : Sys :=
  { s with conns := Function.update s.conns i c }

/-- The client changes its state and calls `send_fn` with these messages. -/
def Conn.emit (c : Conn) (out : TsClientState × List TsMessage) : Conn :=
  { c with client := out.1, toServer := c.toServer ++ out.2, sent := c.sent ++ out.2 }

/-- The server's thread sends a message to its client. -/
def Conn.push (c : Conn) (message : TsMessage) : Conn :=
  { c with toClient := c.toClient ++ [message] }

/-- A thread without effects left takes a message. An OP is processed at once, since nothing else
touches the channel between both. -/
def Sys.take (s : Sys) (i : ℕ) (message : TsMessage) (rest : List TsMessage) : Option Sys :=
  let c := s.conns i
  match c.phase with
  | .closed => none
  | .joining =>
    if message.type = typeJoin then
      if s.clientsLock = none then do
        let (server, clientId) ← chooseClientId s.server message.clientId
        let peer := { c.peer with clientId := clientId }
        some
          ({ s with server := server }.setConn i
            { c with
              toServer := rest
              peer := peer
              phase := .serving
              thread := joinEffects peer })
      else none
    else
      some (s.setConn i { c with toServer := rest, phase := .closed, thread := [.send joinRequired] })
  | .serving => do
    let (server, effects) ← dispatchMessage s.server c.peer message
    let processed :=
      if message.type = typeOp then
        ((processMessage s.server c.peer message).map fun out => ⟨i, message, out.2⟩).toList
      else []
    some
      ({ s with server := server, processed := s.processed ++ processed }.setConn i
        { c with toServer := rest, thread := effects })

/-- A thread carries out its next effect. -/
def Sys.perform (s : Sys) (i : ℕ) (effect : Effect) (rest : List Effect) : Option Sys :=
  let c := { s.conns i with thread := rest }
  match effect with
  | .send message => some (s.setConn i (c.push message))
  | .pipe event =>
    some ({ s with pipe := s.pipe ++ [event], piped := s.piped ++ [event] }.setConn i c)
  | .register client =>
    if s.clientsLock = none then
      some ({ s with server := registerClient s.server client }.setConn i c)
    else none
  | .snapshot =>
    some (s.setConn i { c with thread := .send (tsDocumentSnapshot s.server.document) :: rest })
  | .broadcast message excludeClientId =>
    if s.clientsLock = none then
      let targets := s.server.clients.filter fun client => client.clientId ≠ excludeClientId
      let sends := targets.map fun client => Effect.sendTo client.fd message
      some
        ({ s with clientsLock := some i }.setConn i { c with thread := sends ++ Effect.unlock :: rest })
    else none
  | .sendTo fd message =>
    let s := s.setConn i c
    some (s.setConn fd ((s.conns fd).push message))
  | .unlock => some ({ s with clientsLock := none }.setConn i c)

/-- One step of the system. An action that is not possible, or that has no defined outcome, has no
result. -/
def Sys.step (s : Sys) : Action → Option Sys
  | .connect clientId address =>
    some ({ s with accepted := s.accepted + 1 }.setConn s.accepted
      (Conn.opened s.accepted clientId address))
  | .key i op =>
    if i < s.accepted then do
      let c := s.conns i
      let out ← tsClientStateQueueOperation c.client op
      some (s.setConn i { c.emit out with queued := c.queued ++ [newPending c.client op] })
    else none
  | .save i =>
    if i < s.accepted then
      let c := s.conns i
      some (s.setConn i (c.emit (c.client, [saveMessage])))
    else none
  | .deliver i =>
    let c := s.conns i
    match c.toClient with
    | [] => none
    | message :: rest => do
      let out ← tsClientStateHandleMessage c.client message
      some (s.setConn i
        { c.emit out with toClient := rest, received := c.received ++ [message] })
  | .serve i =>
    let c := s.conns i
    match c.thread, c.toServer with
    | effect :: rest, _ => s.perform i effect rest
    | [], message :: rest => s.take i message rest
    | [], [] => none
  | .saverTake written =>
    match s.pipe with
    | [] => none
    | event :: rest => some { s with pipe := rest, saver := s.saver.handle event written }
  | .saverTimer written => some { s with saver := s.saver.timer written }

/-! ## What the properties talk about -/

/-- The accepted operations, in the order of their versions: the connection and the ACK. -/
def Sys.commits (s : Sys) : List (ℕ × TsMessage) :=
  s.processed.filterMap fun p => p.result.ack.map fun ack => (p.conn, ack)

/-- The text after these operations. -/
def replayOps (text : Bytes) (ops : List TsOperation) : Option Bytes :=
  ops.foldlM tsApplyOperationToText text

/-- The text of the document at a version. -/
def Sys.textAt (s : Sys) (version : ℤ) : Option Bytes :=
  replayOps s.initialText ((s.commits.take version.toNat).map fun commit => commit.2.op)

/-- A connection whose channels are empty and whose thread waits for a message. -/
def Conn.Idle (c : Conn) : Prop := c.toServer = [] ∧ c.toClient = [] ∧ c.thread = []

instance (c : Conn) : Decidable c.Idle := inferInstanceAs (Decidable (_ ∧ _ ∧ _))

/-- No message is in transit and no thread is handling one. -/
def Sys.Quiescent (s : Sys) : Prop := ∀ i < s.accepted, (s.conns i).Idle

instance (s : Sys) : Decidable s.Quiescent :=
  inferInstanceAs (Decidable (∀ i < s.accepted, (s.conns i).Idle))

end TermSync
