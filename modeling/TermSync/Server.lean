import TermSync.Autosave
import TermSync.Document

/-!
# The server (`server.c`)

One thread serves each connection. Handling a message is a sequence of effects: the thread enters the
critical section of the document first, and sends, pipe writes and the broadcast follow one by one,
without the document lock. A message is handled by `dispatchMessage`, which returns these effects.
-/

namespace TermSync

/-- `TsClientConnection`; `fd` stands for the socket of its transport. -/
structure TsClientConnection where
  fd : ℕ
  clientId : Bytes
  address : Bytes
  deriving DecidableEq, Repr

/-- `TsServer`: what the threads of the connections share. -/
structure TsServer where
  nextClientNumber : ℤ
  /-- The registered connections, the newest first. -/
  clients : List TsClientConnection
  document : TsDocument
  deriving DecidableEq, Repr

/-- One thing that a thread of the server does between two points where other threads may run. -/
inductive Effect where
  /-- `ts_transport_send` to the own client. -/
  | send (message : TsMessage)
  /-- One whole event for the autosave process. -/
  | pipe (event : SaverEvent)
  | register (client : TsClientConnection)
  /-- `ts_document_snapshot`; sending it to the own client is another effect. -/
  | snapshot
  /-- `broadcast_message`, which locks the list of clients. -/
  | broadcast (message : TsMessage) (excludeClientId : Bytes)
  /-- One `ts_transport_send` of a broadcast. -/
  | sendTo (fd : ℕ) (message : TsMessage)
  /-- The end of a broadcast, which unlocks the list of clients. -/
  | unlock
  deriving DecidableEq, Repr

/-! ## Joining -/

/-- `client_id_exists_locked` -/
def clientIdExistsLocked (server : TsServer) (clientId : Bytes) : Bool :=
  server.clients.any fun client => client.clientId = clientId

/-- The loop of `choose_client_id` that counts through `u1`, `u2` and so on, with the next number.
Counting past `INT_MAX` is undefined. -/
def nextFreeClientId (server : TsServer) : ℕ → ℤ → Option (Bytes × ℤ)
  | 0, _ => none
  | fuel + 1, number =>
    if number < intMax then
      let out := snprintf tsMaxClientId (bytes "u" ++ formatInt number)
      if clientIdExistsLocked server out then nextFreeClientId server fuel (number + 1)
      else some (out, number + 1)
    else none

/-- `choose_client_id`: the requested id if it is free. Otherwise at most one number for each
registered client is taken. -/
def chooseClientId (server : TsServer) (requested : Bytes) : Option (TsServer × Bytes) :=
  if requested ≠ [] ∧ clientIdExistsLocked server requested = false then
    some (server, snprintf tsMaxClientId requested)
  else
    (nextFreeClientId server (server.clients.length + 1) server.nextClientNumber).map
      fun (out, number) => ({ server with nextClientNumber := number }, out)

/-- `register_client` -/
def registerClient (server : TsServer) (client : TsClientConnection) : TsServer :=
  { server with clients := client :: server.clients }

/-- `unregister_client`: the first connection with this client id is removed. -/
def unregisterClient (server : TsServer) (clientId : Bytes) : TsServer :=
  { server with clients := server.clients.eraseP fun client => client.clientId = clientId }

/-- The WELCOME of `client_thread_main`. -/
def welcomeMessage (clientId : Bytes) : TsMessage :=
  { tsMessageInit with type := typeWelcome, clientId := snprintf tsMaxClientId clientId }

/-- The log entry of a client that joins. -/
def joinEntry (client : TsClientConnection) : Bytes :=
  snprintf 512 (bytes "\x7b\"event\":\"join\",\"client_id\":\"" ++ client.clientId ++
    bytes "\",\"address\":\"" ++ client.address ++ bytes "\"\x7d")

/-- What `client_thread_main` does once the client has its id. -/
def joinEffects (client : TsClientConnection) : List Effect :=
  [.register client, .send (welcomeMessage client.clientId), .snapshot,
    .pipe (.log (joinEntry client))]

/-- The answer to a first message that is not a JOIN. -/
def joinRequired : TsMessage :=
  { tsMessageInit with
    type := typeError
    message := snprintf tsMaxStatus (bytes "first message must be JOIN") }

/-! ## Serving -/

/-- The call of `ts_document_process_operation` in `dispatch_message`. -/
def processMessage (server : TsServer) (client : TsClientConnection) (message : TsMessage) :
    Option (TsDocument × TsProcessResult) :=
  tsDocumentProcessOperation server.document client.clientId message.opId message.baseVersion
    (if message.hasOp then some message.op else none)

/-- What `dispatch_message` does with the result of an OP. -/
def resultEffects (clientId : Bytes) (result : TsProcessResult) : List Effect :=
  if result.status = .ok then
    [.pipe (.snapshot (result.snapshotContent.getD []) result.snapshotVersion),
      .pipe (.log result.logJson)] ++
    (result.ack.toList.map .send) ++ result.remote.toList.map fun remote => .broadcast remote clientId
  else result.messages.map .send

/-- The answer to a SAVE. -/
def saveQueued (version : ℤ) : TsMessage :=
  { tsMessageInit with type := typeSaveQueued, version := version }

/-- The answer to a PING. -/
def pong : TsMessage := { tsMessageInit with type := typePong }

/-- The answer to a message of another type. -/
def unsupported (message : TsMessage) : TsMessage :=
  { tsMessageInit with
    type := typeError
    message := snprintf tsMaxStatus (bytes "unsupported message type: " ++ message.type) }

/-- `dispatch_message`, up to the end of its critical section: the server and what the thread still
has to do. -/
def dispatchMessage (server : TsServer) (client : TsClientConnection) (message : TsMessage) :
    Option (TsServer × List Effect) :=
  if message.type = typeOp then do
    let (document, result) ← processMessage server client message
    some ({ server with document := document }, resultEffects client.clientId result)
  else if message.type = typeSave then
    let snapshot := tsDocumentSnapshot server.document
    some (server, [.pipe (.saveNow (snapshot.content.getD []) snapshot.version),
      .send (saveQueued snapshot.version)])
  else if message.type = typeRequestDoc then
    some (server, [.send (tsDocumentSnapshot server.document)])
  else if message.type = typePing then some (server, [.send pong])
  else some (server, [.send (unsupported message)])

end TermSync
