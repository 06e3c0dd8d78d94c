import TermSync.SaverLoop
import TermSync.SystemProperties

/-!
# The system down to its files

The threads of the server write their events to the pipe in as many calls of `write` as it takes, a header
and then a payload. The autosave process reads at the other end and writes its files. Every file call may
fail, and the server or the process may die at any moment.
-/

namespace TermSync

open Foundations

/-- The bytes of an event on the pipe. -/
def SaverEvent.stream (e : SaverEvent) : Bytes := e.chunks.flatten

/-- A thread has written so many bytes of the event that it is sending. -/
structure Sending where
  event : SaverEvent
  written : ℕ
  deriving DecidableEq, Repr

/-- What the current `ts_write_all_fd` of the thread has still to write. -/
def Sending.part (w : Sending) : Bytes :=
  let header := w.event.chunks.headD []
  if w.written < header.length then header.drop w.written else w.event.stream.drop w.written

/-- The thread has written `k` more bytes. -/
def Sending.advance (w : Sending) (k : ℕ) : Option Sending :=
  if w.written + k < w.event.stream.length then some { w with written := w.written + k } else none

/-- The system, the threads that are sending an event, and the autosave process with its pipe and the
disk. The process takes the place of `Sys.saver`, and its pipe that of `Sys.pipe`. -/
structure StoredSys where
  sys : Sys
  sends : ℕ → Option Sending
  saver : Saver

/-- The server after its start. `main` sends the first snapshot before it listens. -/
def StoredSys.init (initialText : Bytes) (historyLimit : ℕ) (paths : SaverPaths) (disk : Disk) :
    StoredSys where
  sys := Sys.init initialText historyLimit paths.document
  sends := fun _ => none
  saver := Saver.start (SaverEvent.snapshot initialText 0).stream disk

/-- What can happen next. -/
inductive StoredAction where
  | system (a : Action)
  /-- `write` takes `k` bytes of the thread of a connection. -/
  | write (i k : ℕ)
  /-- `write` fails, since nobody reads the pipe any more. -/
  | writeFails (i : ℕ)
  | saver (a : SaverAction)
  /-- The server dies, wherever its threads are. -/
  | crash
  deriving DecidableEq, Repr

namespace StoredSys

variable (s : StoredSys)

/-- Whether a step of the system is possible: the server lives, `main` has sent its snapshot before it
accepts a connection, and a thread goes on when it has sent its event. -/
def allows : Action → Bool
  | .connect _ _ => !s.saver.closed && decide (s.saver.toSend = [])
  | .serve i => !s.saver.closed && decide (s.sends i = none)
  | .saverTake _ | .saverTimer _ => false
  | _ => !s.saver.closed

/-- A thread has begun to send an event. -/
def sendsAfter : Action → ℕ → Option Sending
  | .serve i => match (s.sys.conns i).thread with
    | .pipe event :: _ => Function.update s.sends i (some ⟨event, 0⟩)
    | _ => s.sends
  | _ => s.sends

/-- `write` takes `k` bytes. -/
def write (i k : ℕ) : Option StoredSys := do
  let w ← s.sends i
  if s.saver.closed = false ∧ 0 < k ∧ k ≤ w.part.length then
    some { s with
      sends := Function.update s.sends i (w.advance k)
      saver := { s.saver with pipe := s.saver.pipe ++ w.part.take k } }
  else none

/-- The autosave process has come to its end. -/
def SaverGone : Prop := s.saver.phase = .ended ∨ s.saver.phase = .killed

instance : Decidable s.SaverGone := inferInstanceAs (Decidable (_ ∨ _))

end StoredSys

/-- One step. -/
def StoredSys.step (paths : SaverPaths) (s : StoredSys) : StoredAction → Option StoredSys
  | .system a =>
    if s.allows a then (s.sys.step a).map fun sys => { s with sys := sys, sends := s.sendsAfter a }
    else none
  | .write i k => s.write i k
  | .writeFails i =>
    if s.SaverGone ∧ s.sends i ≠ none then some { s with sends := Function.update s.sends i none }
    else none
  -- only the server closes its end of the pipe
  | .saver .close => none
  | .saver a => (s.saver.step paths a).map fun saver => { s with saver := saver }
  | .crash => some { s with saver := { s.saver with closed := true, toSend := [] } }

/-! ## Whole files -/

instance : DecidablePred SaverEvent.Fits
  | .snapshot _ _ | .saveNow _ _ => inferInstanceAs (Decidable (_ ∧ _ ∧ _))
  | .log _ => inferInstanceAs (Decidable (_ < _))

instance : DecidablePred SaverEvent.Sendable := fun e =>
  inferInstanceAs (Decidable (e.Fits ∧ ∀ b ∈ e.payload, b ≠ 0))

/-- The threads do not write into each other's events, and their events can be sent. -/
def StoredSys.TakesTurns (s : StoredSys) : StoredAction → Prop
  | .system (.serve i) => ∀ effect ∈ (s.sys.conns i).thread.head?, ∀ event ∈ effect.event?,
    event.Sendable
  | .write i _ => ∀ j < s.sys.accepted, j ≠ i → ∀ w ∈ s.sends j, w.written = 0
  | _ => True

instance (s : StoredSys) : DecidablePred s.TakesTurns
  | .system (.serve i) => inferInstanceAs (Decidable (∀ effect ∈ (s.sys.conns i).thread.head?,
    ∀ event ∈ effect.event?, event.Sendable))
  | .write i _ => inferInstanceAs (Decidable (∀ j < s.sys.accepted, j ≠ i → ∀ w ∈ s.sends j,
    w.written = 0))
  | .system (.connect _ _) | .system (.key _ _) | .system (.save _) | .system (.deliver _)
  | .system (.saverTake _) | .system (.saverTimer _) | .writeFails _ | .saver _ | .crash =>
    isTrue trivial

/-- A file is as it was before, or it holds the text of the document at a version that it has had. -/
def StoredSys.Whole (s : StoredSys) (before : Disk) (path : Bytes) : Prop :=
  s.saver.disk.file path = before.file path ∨
    ∃ version content, 0 ≤ version ∧ version ≤ s.sys.server.document.version ∧
      s.sys.textAt version = some content ∧ s.saver.disk.file path = some content

end TermSync
