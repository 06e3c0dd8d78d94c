import TermSync.System

/-!
# The terminal client (`client.c`)

A terminal client edits the document through the keyboard. Its cursor lives in a text that exists
nowhere: the confirmed content with the operation in flight and the queued operations applied to it. What
a user expects is a plain local editor (`Editor`).
-/

namespace TermSync

open Foundations

/-! ## Keys and the cursor -/

/-- `TerminalClient`, as far as its keys and messages are concerned. -/
structure TerminalClient where
  state : TsClientState
  cursorPos : ℕ
  running : Bool
  deriving DecidableEq, Repr

/-- What `get_wch` returns: a key code (`KEY_CODE_YES`) or a character. -/
inductive TerminalKey where
  | left
  | right
  | backspace
  | char (c : Char)
  deriving DecidableEq, Repr

def ctrlQ : Char := Char.ofNat 17
def ctrlS : Char := Char.ofNat 19

/-- The call by which a key reaches the rest of the client. -/
inductive TerminalCall where
  /-- `ts_client_state_queue_operation` -/
  | queueOperation (op : TsOperation)
  /-- `ts_transport_send` of a SAVE -/
  | sendSave
  deriving DecidableEq, Repr

/-- `pending_operation_delta` -/
def pendingOperationDelta (op : TsOperation) : ℤ :=
  match op.kind with
  | .insert => 1
  | .delete => -1
  | _ => 0

/-- `projected_content_length` -/
def projectedContentLength (client : TerminalClient) : ℕ :=
  let len : ℤ := tsUtf8CharCount client.state.content
  let len := match client.state.inflight with
    | some p => len + pendingOperationDelta p.op
    | none => len
  let len := client.state.queue.foldl (fun len p => len + pendingOperationDelta p.op) len
  if len < 0 then 0 else len.toNat

/-- `clamp_cursor_to_projected_content` -/
def clampCursorToProjectedContent (client : TerminalClient) : TerminalClient :=
  let len := projectedContentLength client
  if client.cursorPos > len then { client with cursorPos := len } else client

/-- `queue_insert` -/
def queueInsert (client : TerminalClient) (utf8 : Bytes) : TerminalClient × Option TerminalCall :=
  ({ client with cursorPos := client.cursorPos + 1 },
    some (.queueOperation (tsOperationInit .insert client.cursorPos utf8)))

/-- `delete_before_cursor` -/
def deleteBeforeCursor (client : TerminalClient) : TerminalClient × Option TerminalCall :=
  if client.cursorPos = 0 then (client, none)
  else
    ({ client with cursorPos := client.cursorPos - 1 },
      some (.queueOperation (tsOperationInit .delete (client.cursorPos - 1) [])))

/-- `handle_key` in a UTF-8 locale whose printable characters are `iswprint`. -/
def handleKey (iswprint : Char → Bool) (client : TerminalClient) :
    TerminalKey → TerminalClient × Option TerminalCall
  | .left =>
    if client.cursorPos > 0 then ({ client with cursorPos := client.cursorPos - 1 }, none)
    else (client, none)
  | .right =>
    let len := projectedContentLength client
    if client.cursorPos < len then ({ client with cursorPos := client.cursorPos + 1 }, none)
    else (client, none)
  | .backspace => deleteBeforeCursor client
  | .char c =>
    if c = ctrlQ then ({ client with running := false }, none)
    else if c = ctrlS then (client, some .sendSave)
    else if c = '\n' ∨ c = '\x0d' then queueInsert client (bytes "\n")
    else if c = '\x7f' ∨ c = '\x08' then deleteBeforeCursor client
    else if iswprint c then queueInsert client (String.utf8EncodeChar c)
    else (client, none)

/-! ## Runs of a terminal -/

/-- The terminal client before its first key and message. -/
def TerminalClient.init (clientId : Bytes) : TerminalClient where
  state := tsClientStateInit clientId
  cursorPos := 0
  running := true

/-- What happens to a terminal: a key is read, or `drain_messages` takes a message. -/
inductive TerminalInput where
  | press (key : TerminalKey)
  | receive (message : TsMessage)
  deriving DecidableEq, Repr

/-- The call of a key, which changes the client state only. -/
def TerminalClient.perform (client : TerminalClient) :
    Option TerminalCall → Option TerminalClient
  | some (.queueOperation op) =>
    (tsClientStateQueueOperation client.state op).map fun out => { client with state := out.1 }
  | _ => some client

/-- The terminal after one input. Keys are read as long as it is running. -/
def terminalStep (iswprint : Char → Bool) (client : TerminalClient) :
    TerminalInput → Option TerminalClient
  | .press key =>
    if client.running then
      let (client, call) := handleKey iswprint client key
      client.perform call
    else none
  | .receive message =>
    (tsClientStateHandleMessage client.state message).map fun out =>
      clampCursorToProjectedContent { client with state := out.1 }

/-- The sum that `projected_content_length` cuts off at zero. -/
def estimatedLength (client : TerminalClient) : ℤ :=
  tsUtf8CharCount client.state.content +
    ((client.state.inflight.toList ++ client.state.queue).map
      fun p => pendingOperationDelta p.op).sum

/-- Enter or a printable character. -/
def TerminalKey.Inserts (iswprint : Char → Bool) : TerminalKey → Prop
  | .char c => c ≠ ctrlQ ∧ c ≠ ctrlS ∧
    (c = '\n' ∨ c = '\x0d' ∨ (c ≠ '\x7f' ∧ c ≠ '\x08' ∧ iswprint c = true))
  | _ => False

instance (iswprint : Char → Bool) : DecidablePred (TerminalKey.Inserts iswprint)
  | .char _ => inferInstanceAs (Decidable (_ ∧ _ ∧ _))
  | .left | .right | .backspace => isFalse id

/-- A key that inserts is pressed while the estimated length is not negative. -/
def InsertsInside (iswprint : Char → Bool) (client : TerminalClient) : TerminalInput → Prop
  | .press key => key.Inserts iswprint → 0 ≤ estimatedLength client
  | .receive _ => True

instance (iswprint : Char → Bool) (client : TerminalClient) :
    DecidablePred (InsertsInside iswprint client)
  | .press key => inferInstanceAs (Decidable (key.Inserts iswprint → _))
  | .receive _ => isTrue trivial

/-! ## One terminal and its server -/

/-- The system with one connection, whose client is a terminal. -/
structure TerminalSys where
  sys : Sys
  cursorPos : ℕ
  running : Bool

/-- The terminal client. -/
def TerminalSys.client (s : TerminalSys) : TerminalClient :=
  ⟨(s.sys.conns 0).client, s.cursorPos, s.running⟩

/-- The terminal has connected to a server that has just started. -/
def TerminalSys.init (initialText : Bytes) (historyLimit : ℕ) (documentPath clientId address : Bytes) :
    TerminalSys where
  sys := { Sys.init initialText historyLimit documentPath with accepted := 1 }.setConn 0
    (Conn.opened 0 clientId address)
  cursorPos := 0
  running := true

/-- A key is pressed, the terminal handles the next message, or another party goes on. -/
inductive TerminalAction where
  | press (key : TerminalKey)
  | deliver
  | serve
  | saverTake (written : Bool)
  | saverTimer (written : Bool)
  deriving DecidableEq, Repr

/-- The call of a key. -/
def TerminalSys.perform (s : TerminalSys) : Option TerminalCall → Option Sys
  | none => some s.sys
  | some (.queueOperation op) => s.sys.step (.key 0 op)
  | some .sendSave => s.sys.step (.save 0)

/-- One step. The cursor is clamped after every message, as in `drain_messages`. -/
def TerminalSys.step (iswprint : Char → Bool) (s : TerminalSys) :
    TerminalAction → Option TerminalSys
  | .press key =>
    if s.running then
      let (client, call) := handleKey iswprint s.client key
      (s.perform call).map fun sys => ⟨sys, client.cursorPos, client.running⟩
    else none
  | .deliver =>
    (s.sys.step (.deliver 0)).map fun sys =>
      let client := clampCursorToProjectedContent ⟨(sys.conns 0).client, s.cursorPos, s.running⟩
      ⟨sys, client.cursorPos, s.running⟩
  | .serve => (s.sys.step (.serve 0)).map fun sys => { s with sys := sys }
  | .saverTake written => (s.sys.step (.saverTake written)).map fun sys => { s with sys := sys }
  | .saverTimer written => (s.sys.step (.saverTimer written)).map fun sys => { s with sys := sys }

/-! ## A local editor -/

/-- A plain editor: the characters of a text and a cursor between them. -/
structure Editor where
  chars : List Char
  cursor : ℕ
  deriving DecidableEq, Repr

namespace Editor

def insert (e : Editor) (c : Char) : Editor := ⟨e.chars.insertIdx e.cursor c, e.cursor + 1⟩

def backspace (e : Editor) : Editor :=
  if e.cursor = 0 then e else ⟨e.chars.eraseIdx (e.cursor - 1), e.cursor - 1⟩

/-- The editor after a key: Enter inserts a newline, and the other characters are printable. -/
def press (e : Editor) : TerminalKey → Editor
  | .left => { e with cursor := e.cursor - 1 }
  | .right => if e.cursor < e.chars.length then { e with cursor := e.cursor + 1 } else e
  | .backspace => e.backspace
  | .char c =>
    if c = '\n' ∨ c = '\x0d' then e.insert '\n'
    else if c = '\x7f' ∨ c = '\x08' then e.backspace
    else e.insert c

end Editor

/-- Left, Right, Backspace, Enter or a printable character. -/
def TerminalKey.Edits (iswprint : Char → Bool) : TerminalKey → Prop
  | .char c => c = '\n' ∨ c = '\x0d' ∨ c = '\x7f' ∨ c = '\x08' ∨
    (c ≠ ctrlQ ∧ c ≠ ctrlS ∧ iswprint c = true)
  | _ => True

instance (iswprint : Char → Bool) : DecidablePred (TerminalKey.Edits iswprint)
  | .char _ => inferInstanceAs (Decidable (_ ∨ _ ∨ _ ∨ _ ∨ _))
  | .left | .right | .backspace => isTrue trivial

/-- The keys of a run. -/
def keysOf (actions : List TerminalAction) : List TerminalKey :=
  actions.filterMap fun
    | .press key => some key
    | _ => none

/-- A key edits, and it is pressed after the first DOC_STATE has been handled. -/
def TerminalSys.EditsDocument (iswprint : Char → Bool) (s : TerminalSys) : TerminalAction → Prop
  | .press key => key.Edits iswprint ∧ ∃ message ∈ (s.sys.conns 0).received, message.type = typeDocState
  | _ => True

instance (iswprint : Char → Bool) (s : TerminalSys) : DecidablePred (s.EditsDocument iswprint)
  | .press key => inferInstanceAs (Decidable (key.Edits iswprint ∧ ∃ message ∈ _, _))
  | .deliver | .serve | .saverTake _ | .saverTimer _ => isTrue trivial

/-- The cursor is that of the local editor, and when nothing is under way, the texts are the text of
the local editor and the versions agree. -/
structure TerminalSys.Refines (s : TerminalSys) (e : Editor) : Prop where
  cursor : s.cursorPos = e.cursor
  text : s.sys.Quiescent →
    s.sys.server.document.text = Utf8.encode e.chars ∧
      (s.sys.conns 0).client.content = Utf8.encode e.chars ∧
      (s.sys.conns 0).client.version = s.sys.server.document.version

end TermSync
