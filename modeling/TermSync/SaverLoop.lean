import TermSync.Document
import TermSync.Files
import TermSync.Foundations.Runs
import TermSync.Pipe

/-!
# The loop of the autosave process (`autosave_loop`)

The process reads a byte of a header or a part of a payload at a time, writes files through calls that
may fail, and looks at the clock at the end of a round. The sender's bytes reach the pipe in any
pieces. A history records what has been received, which files have been replaced and which entries of
its own the process has logged.
-/

namespace TermSync

open Foundations

/-- `autosave_path` -/
def autosaveOf (document : Bytes) : Bytes := document ++ bytes ".autosave"

/-- The paths of a process. The server's `document_path` is a `char[512]`; the log is none of the
files that are saved. -/
structure SaverPaths where
  document : Bytes
  log : Bytes
  fits : document.length < 512
  apart : log ∉ [document, bakOf document, tmpOf document, autosaveOf document,
    tmpOf (autosaveOf document)]

/-- The paths that `main` passes: the log is `%s.edit.log`. -/
def serverPaths (document : Bytes) (fits : document.length < 512) : SaverPaths where
  document := document
  log := document ++ bytes ".edit.log"
  fits := fits
  apart := by
    have hself : document ++ bytes ".edit.log" ≠ document := by simpa using by decide
    simp only [bakOf, tmpOf, autosaveOf, List.append_assoc, List.mem_cons, List.append_right_inj,
      List.not_mem_nil, or_false, not_or]
    exact ⟨hself, by decide, by decide, by decide, by decide⟩

namespace SaverPaths

variable (paths : SaverPaths)

/-- `autosave_path` in its buffer. -/
def autosave : Bytes := suffixPath paths.document (bytes ".autosave")

/-- The entries that the process logs after a save, in their buffers. -/
def manualSaveEntry (version : ℤ) : Bytes :=
  snprintf (pathMax + 160) (saveEntry (bytes "manual_save") version paths.document)

def autosaveEntry (version : ℤ) : Bytes :=
  snprintf (pathMax + 160) (saveEntry (bytes "autosave") version paths.autosave)

end SaverPaths

/-! ## The process and its pipe -/

/-- What the process does next. -/
inductive SaverPhase where
  /-- It is in `select`. -/
  | selecting
  /-- It is in `read_line_fd`, which has read these bytes. -/
  | header (line : Bytes)
  /-- It is in `read_exact_alloc`, which has read these bytes of a payload. -/
  | payload (event : Bytes) (version : ℤ) (len : ℕ) (data : Bytes)
  | saving (payload : Bytes) (version : ℤ)
  /-- The document has been written with this return code, which nobody looks at. -/
  | manualEntry (version rc : ℤ)
  | logging (payload : Bytes)
  /-- It compares the clock with `next_save`. -/
  | timer
  | autosaving (content : Bytes)
  | autosaveEntry (rc : ℤ)
  /-- It writes the last content after a STOP. -/
  | stopping (content : Bytes)
  | ended
  /-- It was stopped in the middle of a call. -/
  | killed
  deriving DecidableEq, Repr

/-- What has happened. -/
inductive SaverMark where
  | received (event : SaverEvent)
  | replaced (path content : Bytes)
  | manualSave (version : ℤ)
  | autosave (version : ℤ)
  deriving DecidableEq, Repr

/-- The process, its pipe and the disk. -/
structure Saver where
  /-- What the sender has still to write. -/
  toSend : Bytes
  pipe : Bytes
  /-- The sender has closed its end. -/
  closed : Bool
  phase : SaverPhase
  latestContent : Option Bytes
  latestVersion : ℤ
  disk : Disk
  history : List SaverMark

/-- The process after its start, with what will be sent to it. -/
def Saver.start (toSend : Bytes) (disk : Disk) : Saver where
  toSend := toSend
  pipe := []
  closed := false
  phase := .selecting
  latestContent := none
  latestVersion := 0
  disk := disk
  history := []

/-- What can happen next. -/
inductive SaverAction where
  /-- The sender writes up to `k` bytes. -/
  | send (k : ℕ)
  | close
  /-- `select` returns, with or without something to read. -/
  | select (ready : Bool)
  /-- `read` returns `k` bytes of a payload, a byte of a header, or the end of the pipe. -/
  | read (k : ℕ)
  | readFails
  /-- The calls of the current phase turn out like this. -/
  | files (script : List CallOutcome)
  /-- The look at the clock. -/
  | tick (expired : Bool)
  deriving DecidableEq, Repr

namespace Saver

variable (s : Saver)

/-- The payload of an event has been read. -/
def receive : SaverInput → Saver
  | .event (.snapshot content version) =>
    { s with
      phase := .timer
      latestContent := some content
      latestVersion := version
      history := s.history ++ [.received (.snapshot content version)] }
  | .event (.saveNow content version) =>
    { s with
      phase := .saving content version
      latestContent := some content
      latestVersion := version
      history := s.history ++ [.received (.saveNow content version)] }
  | .event (.log entryJson) =>
    { s with
      phase := .logging entryJson
      history := s.history ++ [.received (.log entryJson)] }
  | .unknown _ _ | .skipped _ => { s with phase := .timer }

/-- The line of a header has been read. A header that cannot be parsed skips the timer. -/
def takeHeader (line : Bytes) : Saver :=
  if cString line = bytes "STOP" then
    { s with phase := match s.latestContent with
      | some content => .stopping content
      | none => .ended }
  else match scanHeader (cString line) with
    | none => { s with phase := .selecting }
    | some (event, version, len) =>
      if len = 0 then s.receive (namedInput event [] version)
      else { s with phase := .payload event version len [] }

/-- A byte of a header has been read: `header` has room for 127 bytes. -/
def takeByte (line : Bytes) (b : UInt8) : Saver :=
  if b = 10 then s.takeHeader line
  else if line.length + 1 < 127 then { s with phase := .header (line ++ [b]) }
  else { s with phase := .ended }

/-- A part of a payload has been read. -/
def takeData (event : Bytes) (version : ℤ) (len : ℕ) (data : Bytes) : Saver :=
  if data.length < len then { s with phase := .payload event version len data }
  else s.receive (namedInput event (cString data) version)

/-- The files that a program has replaced. -/
def replacedSince (before after : Disk) : List SaverMark :=
  (after.replacements.drop before.replacements.length).map fun r => .replaced r.1 r.2

/-- A program writes files; where its script ends the process has been killed. -/
def perform (program : FileProg ℤ) (script : List CallOutcome) (next : ℤ → SaverPhase) : Saver :=
  let out := program s.disk script
  { s with
    disk := out.1
    history := s.history ++ replacedSince s.disk out.1
    phase := match out.2 with
      | some (rc, _) => next rc
      | none => .killed }

/-- The entry has reached the log. -/
def Appends (paths : SaverPaths) (entry : Bytes) (script : List CallOutcome) : Prop :=
  (s.disk.file paths.log).getD [] ++ entry <+:
    ((tsAppendJsonLog paths.log entry s.disk script).1.file paths.log).getD []

instance (paths : SaverPaths) (entry : Bytes) (script : List CallOutcome) :
    Decidable (s.Appends paths entry script) := inferInstanceAs (Decidable (_ <+: _))

/-- An entry of the process goes to the log. -/
def logOwn (paths : SaverPaths) (entry : Bytes) (mark : SaverMark) (script : List CallOutcome)
    (next : SaverPhase) : Saver :=
  let t := s.perform (tsAppendJsonLog paths.log entry) script fun _ => next
  if s.Appends paths entry script then { t with history := t.history ++ [mark] } else t

/-- The calls of the current phase. The return codes of the saves are not looked at. -/
def runFiles (paths : SaverPaths) (script : List CallOutcome) : Option Saver :=
  match s.phase with
  | .saving payload version =>
    some (s.perform (tsWriteWithBackup paths.document payload) script (.manualEntry version))
  | .manualEntry version _ =>
    some (s.logOwn paths (paths.manualSaveEntry version) (.manualSave version) script .timer)
  | .logging payload =>
    some (s.perform (tsAppendJsonLog paths.log payload) script fun _ => .timer)
  | .autosaving content =>
    some (s.perform (tsAtomicWriteText paths.autosave content) script .autosaveEntry)
  | .autosaveEntry _ =>
    some (s.logOwn paths (paths.autosaveEntry s.latestVersion) (.autosave s.latestVersion) script
      .selecting)
  | .stopping content =>
    some (s.perform (tsAtomicWriteText paths.autosave content) script fun _ => .ended)
  | _ => none

/-- `read` returns `k` bytes, or nothing at the end of the pipe. -/
def read (k : ℕ) : Option Saver :=
  match s.phase, s.pipe with
  | .header _, [] | .payload _ _ _ _, [] =>
    if s.closed then some { s with phase := .ended } else none
  | .header line, b :: pipe => some ({ s with pipe := pipe }.takeByte line b)
  | .payload event version len data, pipe =>
    if 0 < k ∧ k ≤ pipe.length ∧ data.length + k ≤ len then
      some ({ s with pipe := pipe.drop k }.takeData event version len (data ++ pipe.take k))
    else none
  | _, _ => none

end Saver

/-- One step of the process, of its sender or of the clock. -/
def Saver.step (paths : SaverPaths) (s : Saver) : SaverAction → Option Saver
  | .send k => some { s with pipe := s.pipe ++ s.toSend.take k, toSend := s.toSend.drop k }
  | .close => if s.toSend = [] then some { s with closed := true } else none
  | .select ready =>
    match s.phase with
    | .selecting =>
      if ready = false then some { s with phase := .timer }
      else if s.pipe = [] ∧ s.closed = false then none
      else some { s with phase := .header [] }
    | _ => none
  | .read k => s.read k
  | .readFails =>
    match s.phase with
    | .header _ | .payload _ _ _ _ => some { s with phase := .ended }
    | _ => none
  | .files script => s.runFiles paths script
  | .tick expired =>
    match s.phase with
    | .timer =>
      match expired, s.latestContent with
      | true, some content => some { s with phase := .autosaving content }
      | _, _ => some { s with phase := .selecting }
    | _ => none

/-! ## A truthful log -/

/-- The process has received this content with this version, as a snapshot or for a save. -/
def SaverMark.Brings (content : Bytes) (version : ℤ) (m : SaverMark) : Prop :=
  m = .received (.snapshot content version) ∨ m = .received (.saveNow content version)

/-- The last content that the process has received came with this version. -/
def BroughtLast (history : List SaverMark) (content : Bytes) (version : ℤ) : Prop :=
  ∃ earlier m later, history = earlier ++ m :: later ∧ m.Brings content version ∧
    ∀ x ∈ later, ∀ content' version', ¬ x.Brings content' version'

/-- What has to stand before an entry of the process. A save has been asked for with this version, and
directly behind the request the document has been replaced by its payload; or the `.autosave` file has just
been replaced by the content that was received last, which came with this version. -/
def Justified (paths : SaverPaths) (before : List SaverMark) : SaverMark → Prop
  | .manualSave version => ∃ earlier payload, before =
      earlier ++ [.received (.saveNow payload version), .replaced paths.document payload]
  | .autosave version => ∃ earlier content, before = earlier ++ [.replaced paths.autosave content] ∧
      BroughtLast earlier content version
  | _ => True

/-- Every entry of the process is justified by what stands before it. -/
def Truthful (paths : SaverPaths) (history : List SaverMark) : Prop :=
  ∀ before mark after, history = before ++ mark :: after → Justified paths before mark

/-- A step that does not log a save which has reported a failure. -/
def Saver.Reports (paths : SaverPaths) (s : Saver) : SaverAction → Prop
  | .files script =>
    match s.phase with
    | .manualEntry version rc => rc ≠ 0 → ¬ s.Appends paths (paths.manualSaveEntry version) script
    | .autosaveEntry rc => rc ≠ 0 → ¬ s.Appends paths (paths.autosaveEntry s.latestVersion) script
    | _ => True
  | _ => True

instance (paths : SaverPaths) (s : Saver) (a : SaverAction) : Decidable (s.Reports paths a) := by
  unfold Saver.Reports
  split
  · split <;> infer_instance
  · infer_instance

/-! ## What a stream of events leaves behind -/

/-- What one sender writes: the events in order and a STOP. -/
def sentBytes (events : List SaverEvent) : Bytes :=
  (events.flatMap fun e => e.chunks.flatten) ++ bytes "STOP\n"

/-- The event can be sent, and its payload is a C string. -/
def SaverEvent.Sendable (e : SaverEvent) : Prop := e.Fits ∧ ∀ b ∈ e.payload, b ≠ 0

/-- No file call and no `read` fails. -/
def SaverAction.Succeeds : SaverAction → Prop
  | .files script => ∀ o ∈ script, o.Succeeds
  | .readFails => False
  | _ => True

instance : DecidablePred SaverAction.Succeeds
  | .files script => inferInstanceAs (Decidable (∀ o ∈ script, o.Succeeds))
  | .readFails => isFalse id
  | .send _ | .close | .select _ | .read _ | .tick _ => isTrue trivial

/-- The content that an event brings, and the one that it saves. -/
def SaverEvent.text? : SaverEvent → Option Bytes
  | .snapshot content _ | .saveNow content _ => some content
  | .log _ => none

def SaverEvent.savedText? : SaverEvent → Option Bytes
  | .saveNow content _ => some content
  | _ => none

/-- A line of the log. -/
inductive LogLine where
  | event (entryJson : Bytes)
  | manualSave (version : ℤ)
  | autosave (version : ℤ)
  deriving DecidableEq, Repr

def LogLine.text (paths : SaverPaths) : LogLine → Bytes
  | .event entryJson => entryJson
  | .manualSave version => paths.manualSaveEntry version
  | .autosave version => paths.autosaveEntry version

def LogLine.isAutosave : LogLine → Bool
  | .autosave _ => true
  | _ => false

/-- The lines that an event leaves in the log. -/
def SaverEvent.lines : SaverEvent → List LogLine
  | .snapshot _ _ => []
  | .saveNow _ version => [.manualSave version]
  | .log entryJson => [.event entryJson]

/-- The last content saved, or the last one brought, stands in its file, which is untouched if there
is none; the log has got the lines of the events in order, and `autosave` entries between them. -/
structure StreamSaved (paths : SaverPaths) (events : List SaverEvent) (before after : Disk) :
    Prop where
  document : after.file paths.document =
    ((events.filterMap SaverEvent.savedText?).getLast?).or (before.file paths.document)
  autosave : after.file paths.autosave =
    ((events.filterMap SaverEvent.text?).getLast?).or (before.file paths.autosave)
  log : ∃ lines : List LogLine,
    lines.filter (fun l => !l.isAutosave) = events.flatMap SaverEvent.lines ∧
    (after.file paths.log).getD [] = (before.file paths.log).getD [] ++
      lines.flatMap fun l => l.text paths ++ bytes "\n"

/-- What a server sends that starts on this file and shuts down before an operation has been accepted:
the snapshot of `main`, what its clients cause, and the save of `server_shutdown`. -/
def sessionEvents (file : Option Bytes) (historyLimit : ℕ) (between : List SaverEvent) :
    List SaverEvent :=
  let document := tsDocumentInit (tsReadFileText file) historyLimit
  .snapshot document.text document.version :: between ++ [.saveNow document.text document.version]

end TermSync
