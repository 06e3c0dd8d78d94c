import Mathlib.Logic.Function.Basic
import TermSync.DocumentRun
import TermSync.Foundations.Lines
import TermSync.Foundations.Runs
import TermSync.Protocol

/-!
# The transport (`ts_transport_send` and `ts_transport_recv`)

A transport carries encoded messages as a stream of bytes. Senders take `send_lock` for a whole line,
which `write(2)` accepts in pieces. The receiver collects what `read(2)` returns in a buffer and cuts
off one line at a time.
-/

namespace TermSync

open Foundations

/-! ## Receiving -/

/-- What one round of the loop of `ts_transport_recv` comes to. -/
inductive RecvRound where
  /-- The call returns; these bytes are left in the buffer. -/
  | returns (result : Except Bytes TsMessage) (buffer : Bytes)
  /-- The round calls `read(2)` with room for so many bytes. -/
  | reads (room : ℕ)

/-- One round of `ts_transport_recv`. A line is terminated in place where its newline was. -/
def recvRound (errorSize : ℕ) (buffer : Bytes) : RecvRound :=
  match cutLine 10 buffer with
  | some (line, rest) => .returns (tsDecodeMessage errorSize (cString line)) rest
  | none =>
    if buffer.length ≥ tsMaxLineBytes then
      .returns
        (.error (snprintf errorSize (bytes "protocol message exceeds maximum line length"))) buffer
    else .reads (tsMaxLineBytes - buffer.length)

/-- `ts_transport_recv`, where `stream` is still to be read and `reads` says how many bytes the next
calls of `read(2)` could return; a call that is interrupted returns none. The result comes with the
rest of the buffer and of the stream; without a result, the call still waits for bytes. -/
def tsTransportRecv (errorSize : ℕ) :
    List ℕ → Bytes → Bytes → Option (Except Bytes TsMessage × Bytes × Bytes)
  | [], buffer, stream =>
    match recvRound errorSize buffer with
    | .returns result buffer => some (result, buffer, stream)
    | .reads _ => none
  | n :: reads, buffer, stream =>
    match recvRound errorSize buffer with
    | .returns result buffer => some (result, buffer, stream)
    | .reads room =>
      tsTransportRecv errorSize reads (buffer ++ stream.take (min n room)) (stream.drop (min n room))

/-! ## Threads that send -/

/-- How far a thread has come in `ts_transport_send`. -/
inductive SendPhase where
  | idle
  /-- The thread waits for `send_lock`. -/
  | locking (message : TsMessage)
  /-- The thread holds `send_lock` and still has to write these bytes. -/
  | writing (message : TsMessage) (rest : Bytes)

/-- A transport, the threads that send on it and the receiver at its other end. -/
structure TransportSys where
  /-- What has been written and not been read. -/
  socket : Bytes
  sendLock : Option ℕ
  threads : ℕ → SendPhase
  buffer : Bytes
  /-- The calls of `ts_transport_send`. -/
  calls : List (ℕ × TsMessage)
  /-- The calls in the order in which they got the lock. -/
  locked : List (ℕ × TsMessage)
  /-- The results of `ts_transport_recv`. -/
  received : List (Except Bytes TsMessage)

/-- A transport on which nothing has been sent. -/
def TransportSys.init : TransportSys where
  socket := []
  sendLock := none
  threads := fun _ => .idle
  buffer := []
  calls := []
  locked := []
  received := []

/-- A step of a sender or of the receiver. -/
inductive TransportAction where
  | call (thread : ℕ) (message : TsMessage)
  | lock (thread : ℕ)
  /-- `write(2)` accepts `n` bytes, or none when it is interrupted. -/
  | write (thread n : ℕ)
  | unlock (thread : ℕ)
  /-- A round of `ts_transport_recv`; `read(2)` returns `n` bytes, or none when it is interrupted. -/
  | recv (n : ℕ)

/-- One step. -/
def TransportSys.step (errorSize : ℕ) (s : TransportSys) : TransportAction → Option TransportSys
  | .call i message =>
    match s.threads i with
    | .idle =>
      some { s with
        threads := Function.update s.threads i (.locking message)
        calls := s.calls ++ [(i, message)] }
    | _ => none
  | .lock i =>
    match s.threads i with
    | .locking message =>
      if s.sendLock = none then
        some { s with
          sendLock := some i
          threads := Function.update s.threads i (.writing message (tsEncodeMessage message))
          locked := s.locked ++ [(i, message)] }
      else none
    | _ => none
  | .write i n =>
    match s.threads i with
    | .writing message rest =>
      if rest ≠ [] ∧ n ≤ rest.length then
        some { s with
          socket := s.socket ++ rest.take n
          threads := Function.update s.threads i (.writing message (rest.drop n)) }
      else none
    | _ => none
  | .unlock i =>
    match s.threads i with
    | .writing _ [] =>
      some { s with sendLock := none, threads := Function.update s.threads i .idle }
    | _ => none
  | .recv n =>
    match recvRound errorSize s.buffer with
    | .returns result rest => some { s with buffer := rest, received := s.received ++ [result] }
    | .reads room =>
      if n ≤ room ∧ n ≤ s.socket.length then
        some { s with socket := s.socket.drop n, buffer := s.buffer ++ s.socket.take n }
      else none

/-! ## Framing -/

/-- The line of a message, without its newline. -/
def lineOf (message : TsMessage) : Bytes := (tsEncodeMessage message).dropLast

/-- The calls of one thread. -/
def callsBy (i : ℕ) (calls : List (ℕ × TsMessage)) : List (ℕ × TsMessage) :=
  calls.filter fun call => call.1 = i

/-- What the decoder makes of the lines of some calls. -/
def decoded (errorSize : ℕ) (calls : List (ℕ × TsMessage)) : List (Except Bytes TsMessage) :=
  calls.map fun call => tsDecodeMessage errorSize (lineOf call.2)

/-- The receiver gets exactly the lines that are sent, in the order in which their senders got the
lock, which is the order of its calls for each thread. As soon as a line is complete in the buffer it is
returned, decoded, as the next of them; and when the receiver waits in `read(2)` for bytes that nobody has
written, it has got all of them. -/
structure TransportSys.Framed (errorSize : ℕ) (s : TransportSys) : Prop where
  received : s.received <+: decoded errorSize s.locked
  ordered : ∀ i, callsBy i s.locked <+: callsBy i s.calls
  returned : ∀ i, s.threads i = .idle → callsBy i s.locked = callsBy i s.calls
  returns : ∀ line rest, (10 : UInt8) ∉ line → s.buffer = line ++ 10 :: rest →
    recvRound errorSize s.buffer = .returns (tsDecodeMessage errorSize line) rest ∧
      s.received ++ [tsDecodeMessage errorSize line] <+: decoded errorSize s.locked
  waits : (10 : UInt8) ∉ s.buffer → ∃ room > 0, recvRound errorSize s.buffer = .reads room
  complete : (∀ i, s.threads i = .idle) → s.socket = [] →
    (∃ room, recvRound errorSize s.buffer = .reads room) → s.received = decoded errorSize s.locked

/-- The encoded line of every message that is sent fits the receiver's buffer. -/
def TransportAction.Fits : TransportAction → Prop
  | .call _ message => (tsEncodeMessage message).length ≤ tsMaxLineBytes
  | _ => True

/-! ## Delivering the document -/

/-- A call whose character is a C string. -/
def DocCall.CString (call : DocCall) : Prop := ∀ op, call.op = some op → ∀ b ∈ op.ch, b ≠ 0

/-- The length of the DOC_STATE line of a document: its fixed fields take 70 bytes. -/
def docStateLength (doc : TsDocument) : ℕ :=
  70 + (formatInt doc.version).length + (formatInt doc.historyStartVersion).length +
    (jsonEscape doc.text).length

/-- The DOC_STATE line of a document is received whatever was left in the buffer, whatever follows on
the stream and however the stream is read: as soon as it has been read, `ts_transport_recv` returns a
message with the versions and the text of the document. -/
def Delivered (errorSize : ℕ) (doc : TsDocument) : Prop :=
  ∀ (reads : List ℕ) (buffer stream later : Bytes), buffer.length ≤ tsMaxLineBytes →
    buffer ++ stream = tsEncodeMessage (tsDocumentSnapshot doc) ++ later →
    (tsTransportRecv errorSize reads buffer stream = none ∧
        reads.countP (0 < ·) < (tsEncodeMessage (tsDocumentSnapshot doc)).length) ∨
      ∃ message rest stream', tsTransportRecv errorSize reads buffer stream =
          some (.ok message, rest, stream') ∧ rest ++ stream' = later ∧
        message.version = doc.version ∧
        message.historyStartVersion = doc.historyStartVersion ∧
        message.content = some doc.text

end TermSync
