import TermSync.Line
import TermSync.Rest
import TermSync.Transport

/-!
# The system on the wire

In `Sys` the channels carry whole messages. Here they are the transports as they are: every message is
encoded, `write(2)` accepts its bytes in pieces, `read(2)` returns the stream in other pieces, and each
side cuts its lines off a buffer of its own and decodes them. On the side of the client the messages wait
in a queue between the thread that reads (`reader_main`) and the one that handles them
(`drain_messages`).
-/

namespace TermSync

open Foundations

/-! ## What a transport can carry -/

/-- The line of the message fits the buffer of the receiver, and each of its fields is printed. -/
structure Carried (m : TsMessage) : Prop where
  sent : SentMessage m
  fits : (tsEncodeMessage m).length ≤ tsMaxLineBytes
  printed : ∀ content, m.content = some content →
    ((jsonEscape content).length + 2 : ℤ) ≤ intMax

/-- The position still fits an `int` after it has been moved `room` times. -/
structure Placed (room : ℕ) (op : TsOperation) : Prop where
  sent : SentOperation op
  room : (op.pos + room : ℤ) ≤ intMax

/-- What users do so that all messages can be carried: client ids are C strings, and the positions of
operations have room for every operation in the history. Whenever a thread of the server goes on, the
DOC_STATE line of the document fits the buffer of the receiver. -/
def TsServer.Carries (server : TsServer) : Action → Prop
  | .connect clientId _ => ∀ b ∈ clientId, b ≠ 0
  | .key _ op => WellFormedOp op ∧ Placed server.document.historyLimit op
  | .serve _ => docStateLength server.document ≤ tsMaxLineBytes
  | .save _ | .deliver _ | .saverTake _ | .saverTimer _ => True

/-! ## Connections -/

/-- One direction of a transport. -/
structure Stream where
  /-- What the sender has encoded and not written yet. -/
  unwritten : Bytes
  /-- What has been written and not been read. -/
  socket : Bytes
  /-- The buffer of the receiver. -/
  buffer : Bytes
  deriving DecidableEq, Repr

/-- A stream on which nothing has been sent. -/
def Stream.empty : Stream := ⟨[], [], []⟩

/-- `ts_transport_send` begins. -/
def Stream.send (stream : Stream) (message : TsMessage) : Stream :=
  { stream with unwritten := stream.unwritten ++ tsEncodeMessage message }

/-- `write(2)` accepts `n` bytes, or none when it is interrupted. -/
def Stream.write (stream : Stream) (n : ℕ) : Stream :=
  { stream with
    unwritten := stream.unwritten.drop n
    socket := stream.socket ++ stream.unwritten.take n }

/-- `read(2)` returns `n` bytes, or none when it is interrupted. -/
def Stream.read (stream : Stream) (n : ℕ) : Stream :=
  { stream with
    socket := stream.socket.drop n
    buffer := stream.buffer ++ stream.socket.take n }

/-- One connection. -/
structure WireConn where
  client : TsClientState
  toServer : Stream
  toClient : Stream
  /-- The thread of the server that holds `send_lock` of the transport to the client. -/
  sendLock : Option ℕ
  /-- `incoming`: what the reader has received and the client has not handled. -/
  incoming : List TsMessage
  /-- The reader has not met an error. -/
  reading : Bool
  peer : TsClientConnection
  phase : Phase
  /-- What the thread of the server still has to do. -/
  thread : List Effect
  /-- The connection on whose transport the thread is sending. -/
  sending : Option ℕ
  deriving DecidableEq, Repr

/-- The whole system. -/
structure Wire where
  server : TsServer
  clientsLock : Option ℕ
  accepted : ℕ
  conns : ℕ → WireConn
  pipe : List SaverEvent
  saver : SaverState

/-- What happens next. -/
inductive WireAction where
  /-- An action of `Sys`; a client handles a message from its queue, and a thread of the server takes
  the first line of its buffer or begins its next effect. -/
  | act (action : Action)
  /-- `write(2)` in the client. -/
  | clientWrite (i n : ℕ)
  /-- `read(2)` in the thread of the server. -/
  | serverRead (i n : ℕ)
  /-- `write(2)` in the thread of the server. -/
  | serverWrite (i n : ℕ)
  /-- The thread of the server has written a whole line and unlocks the transport. -/
  | serverSent (i : ℕ)
  /-- `read(2)` in the reader of the client. -/
  | clientRead (i n : ℕ)
  /-- The reader of the client takes a line off its buffer. -/
  | clientReceive (i : ℕ)
  deriving DecidableEq, Repr

/-! ## Start -/

/-- A connection that does not exist yet. -/
def WireConn.none : WireConn where
  client := tsClientStateInit []
  toServer := .empty
  toClient := .empty
  sendLock := .none
  incoming := []
  reading := true
  peer := ⟨0, [], []⟩
  phase := .closed
  thread := []
  sending := .none

/-- A client that has just connected and is sending its JOIN. -/
def WireConn.opened (fd : ℕ) (clientId address : Bytes) : WireConn :=
  { WireConn.none with
    client := tsClientStateInit (snprintf tsMaxClientId clientId)
    toServer := Stream.empty.send (joinMessage clientId)
    peer := ⟨fd, [], address⟩
    phase := .joining }

/-- The server after its start. -/
def Wire.init (initialText : Bytes) (historyLimit : ℕ) (documentPath : Bytes) : Wire where
  server :=
    { nextClientNumber := 1, clients := [], document := tsDocumentInit initialText historyLimit }
  clientsLock := .none
  accepted := 0
  conns := fun _ => WireConn.none
  pipe := [.snapshot initialText 0]
  saver := SaverState.init documentPath

/-! ## Steps of a client -/

/-- Replace one connection. -/
def Wire.setConn (w : Wire) (i : ℕ) (c : WireConn) : Wire :=
  { w with conns := Function.update w.conns i c }

/-- The client changes its state and `send_fn` sends these messages one after the other. -/
def WireConn.emit (c : WireConn) (out : TsClientState × List TsMessage) : WireConn :=
  { c with client := out.1, toServer := out.2.foldl Stream.send c.toServer }

/-- The size of `error` in `reader_main` and in `client_thread_main`. -/
def recvErrorSize : ℕ := 256

/-- The message that `reader_main` makes of an error. -/
def readerError (error : Bytes) : TsMessage :=
  { tsMessageInit with type := typeError, message := snprintf tsMaxStatus (error.take 150) }

/-- A round of `reader_main` whose `ts_transport_recv` returns: the message is pushed to the queue, and
an error ends the thread. -/
def WireConn.readerRound (c : WireConn) : Option WireConn :=
  if c.reading then
    match recvRound recvErrorSize c.toClient.buffer with
    | .returns (.ok message) rest =>
      some { c with toClient := { c.toClient with buffer := rest }, incoming := c.incoming ++ [message] }
    | .returns (.error error) rest =>
      some
        { c with
          toClient := { c.toClient with buffer := rest }
          incoming := c.incoming ++ [readerError error]
          reading := false }
    | .reads _ => Option.none
  else Option.none

/-! ## Steps of a thread of the server -/

/-- The log entry of a client that leaves. -/
def leaveEntry (clientId : Bytes) : Bytes :=
  snprintf 512 (bytes "\x7b\"event\":\"leave\",\"client_id\":\"" ++ clientId ++ bytes "\"\x7d")

/-- A thread without effects left has received a message, and `c` is its connection without the line. -/
def Wire.take (w : Wire) (i : ℕ) (c : WireConn) (message : TsMessage) : Option Wire :=
  match c.phase with
  | .closed => none
  | .joining =>
    if message.type = typeJoin then
      if w.clientsLock = none then do
        let (server, clientId) ← chooseClientId w.server message.clientId
        let peer := { c.peer with clientId := clientId }
        some ({ w with server := server }.setConn i
          { c with peer := peer, phase := .serving, thread := joinEffects peer })
      else none
    else some (w.setConn i { c with phase := .closed, thread := [.send joinRequired] })
  | .serving => do
    let (server, effects) ← dispatchMessage w.server c.peer message
    some ({ w with server := server }.setConn i { c with thread := effects })

/-- A thread without effects left has met an error of `ts_transport_recv`. A client that has joined is
removed from the list and leaves. -/
def Wire.refuse (w : Wire) (i : ℕ) (c : WireConn) : Option Wire :=
  match c.phase with
  | .closed => none
  | .joining => some (w.setConn i { c with phase := .closed, thread := [.send joinRequired] })
  | .serving =>
    if w.clientsLock = none then
      some ({ w with server := unregisterClient w.server c.peer.clientId }.setConn i
        { c with phase := .closed, thread := [.pipe (.log (leaveEntry c.peer.clientId))] })
    else none

/-- A thread gets `send_lock` of the transport to client `fd` and begins to write. -/
def Wire.sendTo (w : Wire) (i fd : ℕ) (message : TsMessage) : Option Wire :=
  if (w.conns fd).sendLock = none then
    let w := w.setConn i { w.conns i with sending := some fd }
    let c := w.conns fd
    some (w.setConn fd { c with toClient := c.toClient.send message, sendLock := some i })
  else none

/-- A thread begins its next effect. -/
def Wire.perform (w : Wire) (i : ℕ) (effect : Effect) (rest : List Effect) : Option Wire :=
  let c := { w.conns i with thread := rest }
  match effect with
  | .send message => (w.setConn i c).sendTo i i message
  | .sendTo fd message => (w.setConn i c).sendTo i fd message
  | .pipe event => some ({ w with pipe := w.pipe ++ [event] }.setConn i c)
  | .register client =>
    if w.clientsLock = none then
      some ({ w with server := registerClient w.server client }.setConn i c)
    else none
  | .snapshot =>
    some (w.setConn i { c with thread := .send (tsDocumentSnapshot w.server.document) :: rest })
  | .broadcast message excludeClientId =>
    if w.clientsLock = none then
      let targets := w.server.clients.filter fun client => client.clientId ≠ excludeClientId
      let sends := targets.map fun client => Effect.sendTo client.fd message
      some
        ({ w with clientsLock := some i }.setConn i { c with thread := sends ++ Effect.unlock :: rest })
    else none
  | .unlock => some ({ w with clientsLock := none }.setConn i c)

/-- A thread that is not sending goes on. -/
def Wire.serve (w : Wire) (i : ℕ) : Option Wire :=
  let c := w.conns i
  match c.thread with
  | effect :: rest => w.perform i effect rest
  | [] =>
    match recvRound recvErrorSize c.toServer.buffer with
    | .returns (.ok message) rest =>
      w.take i { c with toServer := { c.toServer with buffer := rest } } message
    | .returns (.error _) rest => w.refuse i { c with toServer := { c.toServer with buffer := rest } }
    | .reads _ => none

/-! ## Steps -/

/-- An action of `Sys` on the wire. The thread of a client that is still writing does nothing else. -/
def Wire.act (w : Wire) : Action → Option Wire
  | .connect clientId address =>
    some ({ w with accepted := w.accepted + 1 }.setConn w.accepted
      (WireConn.opened w.accepted clientId address))
  | .key i op =>
    let c := w.conns i
    if i < w.accepted ∧ c.toServer.unwritten = [] then do
      let out ← tsClientStateQueueOperation c.client op
      some (w.setConn i (c.emit out))
    else none
  | .save i =>
    let c := w.conns i
    if i < w.accepted ∧ c.toServer.unwritten = [] then
      some (w.setConn i (c.emit (c.client, [saveMessage])))
    else none
  | .deliver i =>
    let c := w.conns i
    match c.incoming with
    | [] => none
    | message :: rest =>
      if c.toServer.unwritten = [] then do
        let out ← tsClientStateHandleMessage c.client message
        some (w.setConn i { c.emit out with incoming := rest })
      else none
  | .serve i => if (w.conns i).sending = none then w.serve i else none
  | .saverTake written =>
    match w.pipe with
    | [] => none
    | event :: rest => some { w with pipe := rest, saver := w.saver.handle event written }
  | .saverTimer written => some { w with saver := w.saver.timer written }

/-- The bytes that a round of `ts_transport_recv` may read. -/
def readable (buffer : Bytes) : ℕ :=
  match recvRound recvErrorSize buffer with
  | .returns _ _ => 0
  | .reads room => room

/-- One step, where the kernel keeps at most `capacity` bytes that have been written and not been read
for each direction of a connection. An action that is not possible, or that has no defined outcome, has
no result. -/
def Wire.step (capacity : ℕ) (w : Wire) : WireAction → Option Wire
  | .act action => w.act action
  | .clientWrite i n =>
    let c := w.conns i
    if n ≤ c.toServer.unwritten.length ∧ c.toServer.socket.length + n ≤ capacity then
      some (w.setConn i { c with toServer := c.toServer.write n })
    else none
  | .serverRead i n =>
    let c := w.conns i
    if c.thread = [] ∧ c.sending = none ∧ c.phase ≠ .closed ∧
        n ≤ readable c.toServer.buffer ∧ n ≤ c.toServer.socket.length then
      some (w.setConn i { c with toServer := c.toServer.read n })
    else none
  | .serverWrite i n =>
    match (w.conns i).sending with
    | none => none
    | some fd =>
      let c := w.conns fd
      if c.sendLock = some i ∧ n ≤ c.toClient.unwritten.length ∧
          c.toClient.socket.length + n ≤ capacity then
        some (w.setConn fd { c with toClient := c.toClient.write n })
      else none
  | .serverSent i =>
    match (w.conns i).sending with
    | none => none
    | some fd =>
      let c := w.conns fd
      if c.sendLock = some i ∧ c.toClient.unwritten = [] then
        let w := w.setConn fd { c with sendLock := none }
        some (w.setConn i { w.conns i with sending := none })
      else none
  | .clientRead i n =>
    let c := w.conns i
    if c.reading ∧ n ≤ readable c.toClient.buffer ∧ n ≤ c.toClient.socket.length then
      some (w.setConn i { c with toClient := c.toClient.read n })
    else none
  | .clientReceive i => (w.conns i).readerRound.map (w.setConn i)

/-! ## What the wire shows -/

/-- The messages of the system that an action on the wire handles. -/
def WireAction.action? : WireAction → Option Action
  | act action => some action
  | _ => none

/-- An action of the system leaves nothing that cannot be carried. -/
def Wire.Carries (w : Wire) : WireAction → Prop
  | .act action => w.server.Carries action
  | _ => True

/-- What the decoder makes of the line of a message: the reason is the one that stands first in it. -/
def TsMessage.asReceived (m : TsMessage) : TsMessage := { m with reason := foundReason m }

/-- The stream consists of the lines of these messages. -/
def Stream.Holds (stream : Stream) (messages : List TsMessage) : Prop :=
  stream.buffer ++ stream.socket ++ stream.unwritten = framed 10 (messages.map lineOf)

/-- The connection on the wire is in the state of a connection with whole messages. Of the messages to
the client, some wait in its queue and the others are on the stream. -/
structure WireConn.Shows (w : WireConn) (c : Conn) : Prop where
  client : w.client = c.client
  peer : w.peer = c.peer
  phase : w.phase = c.phase
  thread : w.thread = c.thread
  reading : w.reading = true
  toServer : w.toServer.Holds c.toServer
  toClient : ∃ read due, c.toClient = read ++ due ∧ w.incoming = read.map TsMessage.asReceived ∧
    w.toClient.Holds due

/-- The system on the wire is in the state of a system with whole messages. -/
structure Wire.Shows (w : Wire) (s : Sys) : Prop where
  server : w.server = s.server
  clientsLock : w.clientsLock = s.clientsLock
  accepted : w.accepted = s.accepted
  pipe : w.pipe = s.pipe
  saver : w.saver = s.saver
  conns : ∀ i, (w.conns i).Shows (s.conns i)

/-! ## Left alone -/

/-- A step without a user that moves something. -/
def WireAction.Internal : WireAction → Prop
  | act action => action.Internal
  | clientWrite _ n | serverRead _ n | serverWrite _ n | clientRead _ n => 0 < n
  | serverSent _ | clientReceive _ => True

/-- The steps that the bytes of a stream can still take. -/
def Stream.work (stream : Stream) : ℕ :=
  3 * stream.unwritten.length + 2 * stream.socket.length + stream.buffer.length

/-- The steps that the transports of a connection can still take. -/
def WireConn.work (c : WireConn) : ℕ :=
  c.toServer.work + c.toClient.work + if c.sendLock = Option.none then 0 else 1

/-- The steps that can still follow on the wire when `left` steps of the system can: each of them sends a
line at most. -/
def Wire.work (w : Wire) (left : ℕ) : ℕ :=
  left * (4 * tsMaxLineBytes) + ∑ i ∈ Finset.range w.accepted, (w.conns i).work

/-- The DOC_STATE line has room for all the operations that can still be processed. -/
def Sys.LineRoom (s : Sys) : Prop :=
  92 + (jsonEscape s.server.document.text).length + 42 * s.work ≤ tsMaxLineBytes

instance (s : Sys) : Decidable s.LineRoom := inferInstanceAs (Decidable (_ ≤ _))

/-- Nothing is on its way on the connection. -/
structure WireConn.Idle (c : WireConn) : Prop where
  toServer : c.toServer = .empty
  toClient : c.toClient = .empty
  sendLock : c.sendLock = Option.none
  incoming : c.incoming = []
  thread : c.thread = []
  sending : c.sending = Option.none

/-- Nothing is on its way at all, and nobody holds a lock. -/
structure Wire.AtRest (w : Wire) : Prop where
  pipe : w.pipe = []
  clientsLock : w.clientsLock = none
  idle : ∀ i < w.accepted, (w.conns i).Idle

end TermSync
