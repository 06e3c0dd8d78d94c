import TermSync.Foundations.Layout
import TermSync.Foundations.Runs
import TermSync.Terminal

/-!
# Drawing the terminal (`client.c`)

`render` draws a status bar, a page of the document with line numbers, and a footer, and it puts the
cursor of the terminal where the cursor of the client is. The page scrolls with the cursor. A screen is
the list of the calls of `mvaddnstr` that draw it. Where a text is cut into characters, `end` pointers
are the ends of lists.
-/

namespace TermSync

open Foundations

/-- What the C library knows about characters: `mbrtowc` on the bytes of one character, `none` where it
fails, and `wcwidth`. -/
structure Locale where
  mbrtowc : Bytes → Option Char
  wcwidth : Char → ℤ

/-! ## Lines and columns -/

/-- `line_for_pos` -/
def lineForPos (content : Bytes) (pos : ℕ) : Option ℤ := do
  let byteLimit ← tsUtf8ByteOffset content pos
  some ((content.take byteLimit).count 10)

/-- `bounded_utf8_char_bytes`, where `start` holds the bytes up to `end`. -/
def boundedUtf8CharBytes (start : Bytes) : ℕ :=
  let bytes := tsUtf8CharBytes (start.headD 0)
  if bytes = 0 ∨ bytes > start.length then 1 else bytes

/-- `utf8_display_width` -/
def utf8DisplayWidth (locale : Locale) (ch : Bytes) : ℕ :=
  match locale.mbrtowc ch with
  | none => 1
  | some wc =>
    if wc = '\x00' then 0
    else if locale.wcwidth wc < 0 then 1 else (locale.wcwidth wc).toNat

/-- The loop of `col_for_pos`. Every round consumes a byte, so the length of the text bounds the number
of rounds. -/
def colLoop (locale : Locale) : ℕ → ℤ → Bytes → ℤ
  | 0, col, _ => col
  | _ + 1, col, [] => col
  | fuel + 1, col, b :: start =>
    if b = 10 then colLoop locale fuel 0 start
    else
      let bytes := boundedUtf8CharBytes (b :: start)
      colLoop locale fuel (col + utf8DisplayWidth locale ((b :: start).take bytes))
        ((b :: start).drop bytes)

/-- `col_for_pos` -/
def colForPos (locale : Locale) (content : Bytes) (pos : ℕ) : Option ℤ := do
  let byteLimit ← tsUtf8ByteOffset content pos
  some (colLoop locale byteLimit 0 (content.take byteLimit))

/-! ## Drawing -/

/-- A call of `mvaddnstr`: the position, and the bytes that are drawn. -/
structure Draw where
  row : ℤ
  col : ℤ
  text : Bytes
  deriving DecidableEq, Repr

/-- What is drawn when `mvaddnstr` is given the limit `n`; a negative limit is none. -/
def addnstr (text : Bytes) (n : ℤ) : Bytes := if n < 0 then text else text.take n.toNat

/-- The loop of `render_line_segment`, with the columns that are used. -/
def segmentLoop (locale : Locale) (row col maxCols : ℤ) : ℕ → ℕ → Bytes → List Draw
  | 0, _, _ => []
  | _ + 1, _, [] => []
  | fuel + 1, used, b :: p =>
    if used < maxCols then
      let bytes := boundedUtf8CharBytes (b :: p)
      let width := utf8DisplayWidth locale ((b :: p).take bytes)
      if used + width > maxCols then []
      else ⟨row, col + used, (b :: p).take bytes⟩ ::
        segmentLoop locale row col maxCols fuel (used + width) ((b :: p).drop bytes)
    else []

/-- `render_line_segment` -/
def renderLineSegment (locale : Locale) (row col : ℤ) (segment : Bytes) (maxCols : ℤ) : List Draw :=
  segmentLoop locale row col maxCols segment.length 0 segment

/-- `%4d ` in a buffer of 16 bytes, for the number that is shown. -/
def linePrefix (number : ℤ) : Bytes :=
  snprintf 16 (List.replicate (4 - (formatInt number).length) 32 ++ formatInt number ++ bytes " ")

/-- One line of the page. -/
def drawLine (locale : Locale) (width line row : ℤ) (segment : Bytes) : List Draw :=
  let number := linePrefix (line + 1)
  let bodyWidth := width - number.length - 1
  ⟨row, 0, addnstr number (width - 1)⟩ ::
    renderLineSegment locale row number.length segment (if bodyWidth < 0 then 0 else bodyWidth)

/-- The loop of `render_lines`; `start` is what lies between `start` and `p`. -/
def linesLoop (locale : Locale) (height width scrollLine : ℤ) :
    ℤ → ℤ → Bytes → Bytes → List Draw
  | line, row, start, [] =>
    if line ≥ scrollLine ∧ row < height - 1 then drawLine locale width line row start else []
  | line, row, start, b :: p =>
    if b = 10 then
      if line ≥ scrollLine ∧ row < height - 1 then
        drawLine locale width line row start ++
          linesLoop locale height width scrollLine (line + 1) (row + 1) [] p
      else linesLoop locale height width scrollLine (line + 1) row [] p
    else linesLoop locale height width scrollLine line row (start ++ [b]) p

/-- How `render_lines` scrolls to the line of the cursor. -/
def scrollTo (cursorLine height scrollLine : ℤ) : ℤ :=
  let scrollLine := if cursorLine < scrollLine then cursorLine else scrollLine
  if cursorLine ≥ scrollLine + height - 2 then cursorLine - height + 3 else scrollLine

/-- `render_lines`: the page, and the first line that it shows. -/
def renderLines (locale : Locale) (height width : ℤ) (client : TerminalClient) (scrollLine : ℤ) :
    Option (ℤ × List Draw) := do
  let content := client.state.content
  let cursorLine ← lineForPos content client.cursorPos
  let scrollLine := scrollTo cursorLine height scrollLine
  some (scrollLine, linesLoop locale height width scrollLine 0 1 [] content)

/-- What is on the screen, and where the cursor has been moved, if it has. -/
structure Screen where
  draws : List Draw
  cursor : Option (ℤ × ℤ)
  deriving DecidableEq, Repr

/-- The text of the status bar. -/
def statusBar (client : TerminalClient) : Bytes :=
  snprintf 256 (client.state.clientId ++ bytes " | v" ++ formatInt client.state.version ++
    bytes " | pending=" ++ formatSize client.state.queue.length ++ bytes " | " ++
    client.state.status)

/-- `render` in a window of this size: the first line of the page, and the screen. -/
def TerminalClient.render (client : TerminalClient) (locale : Locale) (height width scrollLine : ℤ) :
    Option (ℤ × Screen) := do
  let (scrollLine, page) ← renderLines locale height width client scrollLine
  let cursorLine ← lineForPos client.state.content client.cursorPos
  let col ← colForPos locale client.state.content client.cursorPos
  let screenRow := cursorLine - scrollLine + 1
  let screenCol := col + 5
  some (scrollLine,
    { draws := ⟨0, 0, addnstr (statusBar client) (width - 1)⟩ :: page ++
        [⟨height - 1, 0, addnstr (bytes "Ctrl-S save | Ctrl-Q quit") (width - 1)⟩]
      cursor :=
        if screenRow > 0 ∧ screenRow < height - 1 ∧ screenCol ≥ 0 ∧ screenCol < width then
          some (screenRow, screenCol) else none })

/-! ## Runs of the terminal and its screen -/

/-- A terminal client, the first line of its page and its last screen. -/
structure TerminalUi where
  client : TerminalClient
  scrollLine : ℤ
  screen : Option Screen

/-- The terminal before it is drawn for the first time. -/
def TerminalUi.init (clientId : Bytes) : TerminalUi := ⟨TerminalClient.init clientId, 0, none⟩

/-- A key or a message, or `render` in a window of this size. -/
inductive UiInput where
  | input (input : TerminalInput)
  | draw (height width : ℤ)

/-- The terminal after a round of its main loop, or a part of one. -/
def uiStep (iswprint : Char → Bool) (locale : Locale) (ui : TerminalUi) :
    UiInput → Option TerminalUi
  | .input input =>
    (terminalStep iswprint ui.client input).map fun client => { ui with client := client }
  | .draw height width =>
    (ui.client.render locale height width ui.scrollLine).map fun (scrollLine, screen) =>
      { ui with scrollLine := scrollLine, screen := some screen }

/-! ## What the screen should show -/

/-- The lines of a text. -/
def textLines (content : Bytes) : List Bytes := content.splitOn 10

/-- The characters of a line, as `bounded_utf8_char_bytes` cuts it. -/
def lineChars : ℕ → Bytes → List Bytes
  | 0, _ => []
  | _ + 1, [] => []
  | fuel + 1, b :: p =>
    let bytes := boundedUtf8CharBytes (b :: p)
    (b :: p).take bytes :: lineChars fuel ((b :: p).drop bytes)

/-- The characters of a whole line. -/
def charsOf (line : Bytes) : List Bytes := lineChars line.length line

/-- The calls that have drawn in a row of the screen. -/
def Screen.inRow (screen : Screen) (row : ℤ) : List Draw :=
  screen.draws.filter fun draw => draw.row = row

/-- The column of the character with this index in a line of the page. -/
def charCol (locale : Locale) (line : ℤ) (segment : Bytes) (k : ℕ) : ℤ :=
  ((linePrefix (line + 1)).length +
    Layout.width (utf8DisplayWidth locale) ((charsOf segment).take k) : ℕ)

/-- A row shows a line: its number and as many of its characters as there is room for, side by side,
with the last column left free. -/
structure RowShows (locale : Locale) (width line row : ℤ) (segment : Bytes) (draws : List Draw) :
    Prop where
  number : draws.head? = some ⟨row, 0, addnstr (linePrefix (line + 1)) (width - 1)⟩
  chars : draws.tail.map Draw.text = (charsOf segment).take draws.tail.length
  columns : ∀ k draw, draws.tail[k]? = some draw →
    draw.row = row ∧ draw.col = charCol locale line segment k ∧
      draw.col + utf8DisplayWidth locale draw.text ≤ width - 1
  full : ∀ ch, (charsOf segment)[draws.tail.length]? = some ch →
    width - 1 ≤ charCol locale line segment draws.tail.length ∨
      width - 1 < charCol locale line segment draws.tail.length + utf8DisplayWidth locale ch

/-- The rows between the two bars show the lines of a text from a line on, and are empty behind the last
line. -/
def Screen.ShowsPage (locale : Locale) (height width : ℤ) (content : Bytes) (top : ℕ)
    (screen : Screen) : Prop :=
  ∀ k : ℕ, (k : ℤ) < height - 2 →
    match (textLines content)[top + k]? with
    | some segment => RowShows locale width (top + k) (k + 1) segment (screen.inRow (k + 1))
    | none => screen.inRow (k + 1) = []

/-- The page shows the line of the cursor, and no page that does is closer to the old one. -/
structure FollowsCursor (height scrollLine : ℤ) (top line : ℕ) : Prop where
  shown : top ≤ line ∧ (line : ℤ) < top + (height - 2)
  nearest : ∀ other : ℤ, other ≤ line → line < other + (height - 2) →
    |top - scrollLine| ≤ |other - scrollLine|

end TermSync
