import TermSync.Util

/-!
# The autosave process (`autosave.c`)

The server sends events to the autosave process through a pipe. An event is written in two appends,
a header line and a payload (`SaverEvent.chunks`); the process reads headers and payloads back
(`autosaveRead`) and handles the events it reads (`SaverState.handle`).
-/

namespace TermSync

open Foundations

/-- What the callers of `ts_autosave_send_snapshot`, `ts_autosave_send_save_now` and
`ts_autosave_send_log` pass. -/
inductive SaverEvent where
  | snapshot (content : Bytes) (version : ℤ)
  | saveNow (content : Bytes) (version : ℤ)
  | log (entryJson : Bytes)
  deriving DecidableEq, Repr

/-! ## Writing an event -/

/-- The header of `send_payload_event`. -/
def payloadHeader (name payload : Bytes) (version : ℤ) : Bytes :=
  snprintf 128 (name ++ bytes " " ++ formatInt version ++ bytes " " ++ formatSize payload.length ++
    bytes "\n")

/-- The header of `ts_autosave_send_log`. -/
def logHeader (payload : Bytes) : Bytes :=
  snprintf 128 (bytes "LOG 0 " ++ formatSize payload.length ++ bytes "\n")

/-- The appends that send an event: each is one `ts_write_all_fd`. -/
def SaverEvent.chunks : SaverEvent → List Bytes
  | snapshot content version => [payloadHeader (bytes "SNAPSHOT") content version, content]
  | saveNow content version => [payloadHeader (bytes "SAVE_NOW") content version, content]
  | log entryJson => [logHeader entryJson, entryJson]

/-! ## Reading events -/

/-- The result of `read_line_fd`. -/
inductive LineResult where
  | line (line rest : Bytes)
  /-- The bytes written so far do not complete a line. -/
  | blocked
  | tooLong
  deriving DecidableEq, Repr

/-- `read_line_fd` with room for `room` more bytes before the terminator. -/
def readLineFd : ℕ → Bytes → LineResult
  | 0, _ => .tooLong
  | _ + 1, [] => .blocked
  | room + 1, ch :: input =>
    if ch = 10 then .line [] input
    else match readLineFd room input with
      | .line line rest => .line (ch :: line) rest
      | .blocked => .blocked
      | .tooLong => .tooLong

/-- `%31s` of `sscanf`: the word and the rest, or `none` at the end of the input. -/
def scanWord (text : Bytes) : Option (Bytes × Bytes) :=
  let body := text.dropWhile isSpace
  let word := (body.takeWhile fun b => !isSpace b).take 31
  if word = [] then none else some (word, body.drop word.length)

/-- What `%d` stores: the number is read as a `long`, which ends at its bounds, and then narrowed. -/
def scannedInt (negative : Bool) (ds : Bytes) : ℤ :=
  toInt (max longMin (min longMax
    (if negative then -(Decimal.value ds : ℤ) else Decimal.value ds)))

/-- What `%zu` stores: `SIZE_MAX` for a number that is out of range, and the negative of a number behind
a minus sign. -/
def scannedSize (negative : Bool) (ds : Bytes) : ℕ :=
  if sizeModulus ≤ Decimal.value ds then sizeModulus - 1
  else if negative then sizeSub 0 (Decimal.value ds) else Decimal.value ds

/-- `sscanf(header, "%31s %d %zu", ..)` with all three conversions. -/
def scanHeader (header : Bytes) : Option (Bytes × ℤ × ℕ) := do
  let (event, rest) ← scanWord header
  let (negative, ds, rest) ← scanNumber rest
  let (negativeLen, dsLen, _) ← scanNumber rest
  some (event, scannedInt negative ds, scannedSize negativeLen dsLen)

/-- What the process has read in one round of its loop. -/
inductive SaverInput where
  | event (event : SaverEvent)
  /-- An event with another name; its payload is dropped. -/
  | unknown (name payload : Bytes)
  /-- A header that `sscanf` could not parse. -/
  | skipped (header : Bytes)
  deriving DecidableEq, Repr

/-- How the reading of the bytes written so far ends. -/
inductive SaverOutcome where
  | waiting
  | stopped
  /-- A header was too long, which ends the loop. -/
  | broken
  deriving DecidableEq, Repr

/-- The event with this name. -/
def namedInput (name payload : Bytes) (version : ℤ) : SaverInput :=
  if name = bytes "SNAPSHOT" then .event (.snapshot payload version)
  else if name = bytes "SAVE_NOW" then .event (.saveNow payload version)
  else if name = bytes "LOG" then .event (.log payload)
  else .unknown name payload

/-- The reading side of `autosave_loop` on the bytes written so far. Every round consumes a line, so
the length of the input bounds the number of rounds. -/
def autosaveLoop : ℕ → Bytes → List SaverInput × SaverOutcome
  | 0, _ => ([], .waiting)
  | fuel + 1, input =>
    match readLineFd 127 input with
    | .blocked => ([], .waiting)
    | .tooLong => ([], .broken)
    | .line header rest =>
      if header = bytes "STOP" then ([], .stopped)
      else match scanHeader header with
        | none =>
          let (inputs, outcome) := autosaveLoop fuel rest
          (.skipped header :: inputs, outcome)
        | some (name, version, len) =>
          -- `read_exact_alloc` waits for the whole payload
          if rest.length < len then ([], .waiting)
          else
            let (inputs, outcome) := autosaveLoop fuel (rest.drop len)
            (namedInput name (rest.take len) version :: inputs, outcome)

def autosaveRead (input : Bytes) : List SaverInput × SaverOutcome :=
  autosaveLoop (input.length + 1) input

/-! ## Handling events -/

/-- The state of `autosave_loop` and the files it writes; a file keeps the content that was written
last, and the version it belongs to. -/
structure SaverState where
  documentPath : Bytes
  latestContent : Option Bytes
  latestVersion : ℤ
  autosaveFile : Option (Bytes × ℤ)
  documentFile : Option (Bytes × ℤ)
  logFile : List Bytes
  deriving DecidableEq, Repr

/-- The process after its start. -/
def SaverState.init (documentPath : Bytes) : SaverState where
  documentPath := documentPath
  latestContent := none
  latestVersion := 0
  autosaveFile := none
  documentFile := none
  logFile := []

/-- The entry that is logged after a save. -/
def saveEntry (event : Bytes) (version : ℤ) (path : Bytes) : Bytes :=
  bytes "\x7b\"event\":\"" ++ event ++ bytes "\",\"version\":" ++ formatInt version ++
    bytes ",\"path\":\"" ++ path ++ bytes "\"\x7d"

/-- One event in `autosave_loop`. Writing the document replaces it when `written` holds, and leaves
it as it is otherwise. -/
def SaverState.handle (s : SaverState) (event : SaverEvent) (written : Bool) : SaverState :=
  match event with
  | .snapshot content version =>
    { s with latestContent := some content, latestVersion := version }
  | .saveNow content version =>
    { s with
      latestContent := some content
      latestVersion := version
      documentFile := if written then some (content, version) else s.documentFile
      logFile := s.logFile ++ [saveEntry (bytes "manual_save") version s.documentPath] }
  | .log entryJson => { s with logFile := s.logFile ++ [entryJson] }

/-- The timer of `autosave_loop`: the latest content goes to the `.autosave` file. -/
def SaverState.timer (s : SaverState) (written : Bool) : SaverState :=
  match s.latestContent with
  | none => s
  | some content =>
    { s with
      autosaveFile := if written then some (content, s.latestVersion) else s.autosaveFile
      logFile := s.logFile ++
        [saveEntry (bytes "autosave") s.latestVersion (s.documentPath ++ bytes ".autosave")] }

end TermSync
