import Mathlib.Logic.Function.Basic
import TermSync.Autosave
import TermSync.Foundations.Runs

/-!
# Threads that write to the autosave pipe

Several threads send events to one pipe. A thread that has called one of the `ts_autosave_send_*`
functions still has to append the header and the payload of its event; each append is atomic, but
other threads may append in between.
-/

namespace TermSync

/-- The pipe and the threads that write to it. -/
structure PipeSys where
  /-- All bytes that have been appended. -/
  stream : Bytes
  /-- The appends that a thread still has to make for the event it is sending. -/
  pending : ℕ → List Bytes
  /-- The events that the threads have begun to send. -/
  sent : List (ℕ × SaverEvent)

/-- The empty pipe. -/
def PipeSys.init : PipeSys := { stream := [], pending := fun _ => [], sent := [] }

/-- A thread calls a function that sends an event, or makes the next append of its call. -/
inductive PipeAction where
  | call (thread : ℕ) (event : SaverEvent)
  | append (thread : ℕ)

/-- One step of a thread. -/
def PipeSys.step (s : PipeSys) : PipeAction → Option PipeSys
  | .call i event =>
    if s.pending i = [] then
      some { s with
        pending := Function.update s.pending i event.chunks
        sent := s.sent ++ [(i, event)] }
    else none
  | .append i =>
    match s.pending i with
    | [] => none
    | chunk :: rest =>
      some { s with
        stream := s.stream ++ chunk
        pending := Function.update s.pending i rest }

/-- The name, the version and the payload of an event on the pipe. -/
def SaverEvent.name : SaverEvent → Bytes
  | snapshot _ _ => bytes "SNAPSHOT"
  | saveNow _ _ => bytes "SAVE_NOW"
  | log _ => bytes "LOG"

def SaverEvent.version : SaverEvent → ℤ
  | snapshot _ version => version
  | saveNow _ version => version
  | log _ => 0

def SaverEvent.payload : SaverEvent → Bytes
  | snapshot content _ => content
  | saveNow content _ => content
  | log entryJson => entryJson

/-- The header of an event, without its newline. -/
def SaverEvent.headerLine (e : SaverEvent) : Bytes :=
  e.name ++ 32 :: (formatInt e.version ++ 32 :: formatSize e.payload.length)

/-- The version fits an `int` and the payload a `size_t`. -/
def SaverEvent.Fits : SaverEvent → Prop
  | snapshot content version | saveNow content version =>
    intMin ≤ version ∧ version ≤ intMax ∧ content.length < sizeModulus
  | log entryJson => entryJson.length < sizeModulus

instance (e : SaverEvent) : Decidable e.Fits :=
  match e with
  | .snapshot _ _ | .saveNow _ _ => inferInstanceAs (Decidable (_ ∧ _ ∧ _))
  | .log _ => inferInstanceAs (Decidable (_ < _))

/-- The events that a thread has begun to send, in order. -/
def eventsOf (i : ℕ) (events : List (ℕ × SaverEvent)) : List (ℕ × SaverEvent) :=
  events.filter fun e => e.1 = i

/-- The autosave process reads exactly the events that have been sent: every thread's events in its
own order, all of them once it has finished its call; it has not stopped and has skipped nothing. -/
def PipeSys.KeepsEventsWhole (s : PipeSys) : Prop :=
  ∃ events : List (ℕ × SaverEvent),
    autosaveRead s.stream = (events.map fun e => .event e.2, .waiting) ∧
    ∀ i, eventsOf i events <+: eventsOf i s.sent ∧
      (s.pending i = [] → eventsOf i events = eventsOf i s.sent)

/-- A header is written only when no thread still has to write a non-empty payload. -/
def PipeSys.HeaderAlone (s : PipeSys) : PipeAction → Prop
  | .call _ event => event.Fits
  | .append i => (∃ header payload, s.pending i = [header, payload]) →
      ∀ j payload, s.pending j = [payload] → payload = []

end TermSync
