import TermSync.System

/-!
# Shutting down (`server_shutdown`)

The main thread sets `stopping`, copies the content, reads the version, sends a last SAVE_NOW and stops
the autosave process. The threads of the connections are not waited for: each tests `stopping` only
between two messages, and a thread that is already waiting for a message still handles it.
-/

namespace TermSync

open Foundations

/-- Where the loop of `client_thread_main` is between two messages. -/
inductive LoopPoint where
  /-- It has to test `stopping`. -/
  | test
  /-- It is in `ts_transport_recv`. -/
  | recv
  | left
  deriving DecidableEq, Repr

/-- How far `server_shutdown` has come. -/
inductive ShutdownPhase where
  | running
  /-- `stopping` is set and no connection is accepted any more. -/
  | stopping
  | copied (content : Bytes)
  | versionRead (content : Bytes) (version : ℤ)
  | saveSent (content : Bytes) (version : ℤ)
  /-- STOP has been sent behind so many events, and the pipe is closed. -/
  | stopSent (content : Bytes) (version : ℤ) (ahead : ℕ)
  | returned (content : Bytes) (version : ℤ)
  deriving DecidableEq, Repr

/-- The system with the loops of its threads and the main thread. -/
structure ShutdownSys where
  sys : Sys
  loops : ℕ → LoopPoint
  phase : ShutdownPhase

/-- The server after its start. -/
def ShutdownSys.init (initialText : Bytes) (historyLimit : ℕ) (documentPath : Bytes) :
    ShutdownSys where
  sys := Sys.init initialText historyLimit documentPath
  loops := fun _ => .test
  phase := .running

/-- A step of the system, the test of `stopping` by a thread, or the next step of
`server_shutdown`. -/
inductive ShutdownAction where
  | system (a : Action)
  | test (i : ℕ)
  | shutdown
  deriving DecidableEq, Repr

/-- The thread of a connection waits for its next message. -/
def ShutdownSys.Takes (s : ShutdownSys) (i : ℕ) : Prop :=
  (s.sys.conns i).thread = [] ∧ (s.sys.conns i).phase = .serving

instance (s : ShutdownSys) (i : ℕ) : Decidable (s.Takes i) := inferInstanceAs (Decidable (_ ∧ _))

/-- Whether a step of the system is possible: a connection is accepted only by the main thread, a
message is taken only in `ts_transport_recv`, and the autosave process ends when it reads STOP. -/
def ShutdownSys.allows (s : ShutdownSys) : Action → Bool
  | .connect _ _ => s.phase = .running
  | .serve i => !decide (s.Takes i) || s.loops i = .recv
  | .saverTake _ => match s.phase with
    | .stopSent _ _ 0 | .returned _ _ => false
    | _ => true
  | .saverTimer _ => match s.phase with
    | .returned _ _ => false
    | _ => true
  | _ => true

/-- The loop of a thread that has taken a message has to test `stopping` next. -/
def ShutdownSys.loopsAfter (s : ShutdownSys) : Action → ℕ → LoopPoint
  | .serve i => if s.Takes i then Function.update s.loops i .test else s.loops
  | _ => s.loops

/-- The autosave process comes closer to STOP. -/
def ShutdownPhase.after (phase : ShutdownPhase) : Action → ShutdownPhase
  | .saverTake _ => match phase with
    | .stopSent content version (ahead + 1) => .stopSent content version ahead
    | phase => phase
  | _ => phase

/-- Whether `write_fd` has been closed. -/
def ShutdownPhase.pipeClosed : ShutdownPhase → Bool
  | .stopSent _ _ _ | .returned _ _ => true
  | _ => false

/-- The next effect of a thread, when the pipe is closed: an event for the pipe is lost. -/
def Sys.dropEvent (s : Sys) (i : ℕ) : Option Sys :=
  match (s.conns i).thread with
  | .pipe _ :: rest => some (s.setConn i { s.conns i with thread := rest })
  | _ => none

/-- A step of the system while the server is shut down. -/
def ShutdownSys.systemStep (s : ShutdownSys) (a : Action) : Option Sys :=
  match a with
  | .serve i => if s.phase.pipeClosed then (s.sys.dropEvent i).or (s.sys.step a) else s.sys.step a
  | _ => s.sys.step a

/-- One step. -/
def ShutdownSys.step (s : ShutdownSys) : ShutdownAction → Option ShutdownSys
  | .system a =>
    if s.allows a then
      (s.systemStep a).map fun sys => ⟨sys, s.loopsAfter a, s.phase.after a⟩
    else none
  | .test i =>
    if s.Takes i ∧ s.loops i = .test then
      some { s with
        loops := Function.update s.loops i (if s.phase = .running then .recv else .left) }
    else none
  | .shutdown =>
    match s.phase with
    | .running => some { s with phase := .stopping }
    -- `ts_document_content` copies under the lock of the document, the version is read without it
    | .stopping => some { s with phase := .copied s.sys.server.document.text }
    | .copied content =>
      some { s with phase := .versionRead content s.sys.server.document.version }
    | .versionRead content version =>
      some { s with
        sys := { s.sys with
          pipe := s.sys.pipe ++ [.saveNow content version]
          piped := s.sys.piped ++ [.saveNow content version] }
        phase := .saveSent content version }
    | .saveSent content version =>
      some { s with phase := .stopSent content version s.sys.pipe.length }
    | .stopSent content version 0 => some { s with phase := .returned content version }
    | .stopSent _ _ (_ + 1) | .returned _ _ => none

/-! ## What is saved -/

/-- The last SAVE_NOW has the content of its version, and every operation whose ACK has been sent to
its author is one of those that lead to this content. -/
structure ShutdownSys.SavesFinal (s : ShutdownSys) (content : Bytes) (version : ℤ) : Prop where
  event : SaverEvent.saveNow content version ∈ s.sys.piped
  text : s.sys.textAt version = some content
  acked : ∀ i, ∀ message ∈ (s.sys.conns i).received ++ (s.sys.conns i).toClient,
    message.type = typeAck → (i, message) ∈ s.sys.commits.take version.toNat

/-- `server_shutdown` has copied the content and has not returned. -/
def ShutdownPhase.Saving : ShutdownPhase → Prop
  | .copied _ | .versionRead _ _ | .saveSent _ _ | .stopSent _ _ _ => True
  | _ => False

instance : DecidablePred ShutdownPhase.Saving
  | .copied _ | .versionRead _ _ | .saveSent _ _ | .stopSent _ _ _ => isTrue trivial
  | .running | .stopping | .returned _ _ => isFalse id

/-- No thread takes an OP that the document accepts between the copy of the content and the return of
`server_shutdown`. -/
def ShutdownSys.NoLateCommit (s : ShutdownSys) : ShutdownAction → Prop
  | .system (.serve i) => s.phase.Saving → s.Takes i →
    ∀ message ∈ (s.sys.conns i).toServer.head?, ¬ s.sys.server.document.Accepts message
  | _ => True

instance (s : ShutdownSys) : DecidablePred s.NoLateCommit
  | .system (.serve i) => inferInstanceAs (Decidable (s.phase.Saving → s.Takes i →
    ∀ message ∈ (s.sys.conns i).toServer.head?, ¬ s.sys.server.document.Accepts message))
  | .system (.connect _ _) | .system (.key _ _) | .system (.save _) | .system (.deliver _)
  | .system (.saverTake _) | .system (.saverTimer _) | .test _ | .shutdown => isTrue trivial

end TermSync
