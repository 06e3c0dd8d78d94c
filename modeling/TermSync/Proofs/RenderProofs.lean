import TermSync.Proofs.CStringProofs
import TermSync.Proofs.UtilProofs
import TermSync.Render

/-!
# Proofs: the page and the cursor on the screen

The loops that draw are the filling of rows and the walk through the lines of a text. From that follows
what every row of the screen shows, for any bytes (`page_shown`), and where the cursor stands on a valid
text (`cursor_on_character_iff`).
-/

namespace TermSync

open Foundations

/-! ## Characters of a line -/

/-- A character is at least one byte and ends inside the line. -/
theorem boundedUtf8CharBytes_bounds (b : UInt8) (p : Bytes) :
    1 ≤ boundedUtf8CharBytes (b :: p) ∧ boundedUtf8CharBytes (b :: p) ≤ (b :: p).length := by
  unfold boundedUtf8CharBytes
  rw [List.headD_cons]
  have hlength : (b :: p).length = p.length + 1 := List.length_cons
  by_cases h : tsUtf8CharBytes b = 0 ∨ tsUtf8CharBytes b > (b :: p).length
  · rw [if_pos h]
    omega
  · rw [if_neg h]
    omega

/-- The bound on the number of rounds does not matter. -/
theorem lineChars_eq (fuel : ℕ) (line : Bytes) (h : line.length ≤ fuel) :
    lineChars fuel line = charsOf line := by
  induction fuel using Nat.strong_induction_on generalizing line with
  | _ fuel ih =>
    cases line with
    | nil => cases fuel <;> rfl
    | cons b p =>
      obtain ⟨hpos, -⟩ := boundedUtf8CharBytes_bounds b p
      have hlength : ((b :: p).drop (boundedUtf8CharBytes (b :: p))).length ≤ p.length := by
        rw [List.length_drop, List.length_cons]
        omega
      cases fuel with
      | zero => cases h
      | succ fuel =>
        rw [List.length_cons] at h
        rw [charsOf, List.length_cons, lineChars, lineChars, ih fuel (by omega) _ (by omega)]
        by_cases heq : p.length = fuel
        · rw [heq, ih fuel (by omega) _ (by omega)]
        · rw [ih p.length (by omega) _ hlength]

theorem charsOf_cons (b : UInt8) (p : Bytes) :
    charsOf (b :: p) = (b :: p).take (boundedUtf8CharBytes (b :: p)) ::
      charsOf ((b :: p).drop (boundedUtf8CharBytes (b :: p))) := by
  obtain ⟨hpos, -⟩ := boundedUtf8CharBytes_bounds b p
  rw [charsOf, List.length_cons, lineChars, lineChars_eq]
  rw [List.length_drop, List.length_cons]
  omega

/-- A well-formed character is recognised whatever follows it. -/
theorem WellFormedChar.bounded {p : Bytes} (h : WellFormedChar p) (rest : Bytes) :
    ∃ b t, p ++ rest = b :: t ∧ boundedUtf8CharBytes (b :: t) = p.length := by
  obtain ⟨b, t, hp, hb, hlength⟩ := h.eq_cons
  refine ⟨b, t ++ rest, by rw [hp, List.cons_append], ?_⟩
  have hle : p.length ≤ (b :: (t ++ rest)).length := by
    rw [← List.cons_append, ← hp, List.length_append]
    omega
  have hne : p.length ≠ 0 := by simp [hp]
  unfold boundedUtf8CharBytes
  rw [List.headD_cons, hlength]
  exact if_neg (by omega)

/-- A line of well-formed characters is cut into them. -/
theorem charsOf_flatten {ps : List Bytes} (hps : ∀ p ∈ ps, WellFormedChar p) :
    charsOf ps.flatten = ps := by
  induction ps with
  | nil => rfl
  | cons p ps ih =>
    obtain ⟨b, t, hp, hbytes⟩ := (hps p List.mem_cons_self).bounded ps.flatten
    rw [List.flatten_cons, hp, charsOf_cons, hbytes, ← hp, List.take_left, List.drop_left,
      ih fun q hq => hps q (List.mem_cons_of_mem p hq)]

/-! ## One row -/

/-- The loop of `render_line_segment` fills the row. -/
theorem segmentLoop_eq (locale : Locale) (row col : ℤ) (room fuel used : ℕ) (p : Bytes)
    (h : p.length ≤ fuel) :
    segmentLoop locale row col room fuel used p =
      (Layout.fill (utf8DisplayWidth locale) room used (charsOf p)).map
        fun placed => ⟨row, col + placed.1, placed.2⟩ := by
  induction fuel generalizing used p with
  | zero =>
    obtain rfl := List.length_eq_zero_iff.mp (Nat.le_zero.mp h)
    rfl
  | succ fuel ih =>
    cases p with
    | nil => rfl
    | cons b p =>
      obtain ⟨hpos, -⟩ := boundedUtf8CharBytes_bounds b p
      have hlength : ((b :: p).drop (boundedUtf8CharBytes (b :: p))).length ≤ fuel := by
        rw [List.length_drop]
        omega
      rw [charsOf_cons, segmentLoop, Layout.fill]
      by_cases hroom : used < room
      · by_cases hfit : used + utf8DisplayWidth locale
          ((b :: p).take (boundedUtf8CharBytes (b :: p))) ≤ room
        · rw [if_pos (by omega), if_neg (by omega), if_pos ⟨hroom, hfit⟩, ih _ _ hlength]
          rfl
        · rw [if_pos (by omega), if_pos (by omega), if_neg (by omega)]
          rfl
      · rw [if_neg (by omega), if_neg (by omega)]
        rfl

/-- The columns of the body of a row. -/
def bodyRoom (width line : ℤ) : ℕ := (width - (linePrefix (line + 1)).length - 1).toNat

theorem drawLine_eq (locale : Locale) (width line row : ℤ) (segment : Bytes) :
    drawLine locale width line row segment =
      ⟨row, 0, addnstr (linePrefix (line + 1)) (width - 1)⟩ ::
        (Layout.fill (utf8DisplayWidth locale) (bodyRoom width line) 0 (charsOf segment)).map
          fun placed => ⟨row, (linePrefix (line + 1)).length + placed.1, placed.2⟩ := by
  have hroom : (if width - (linePrefix (line + 1)).length - 1 < 0 then 0
      else width - (linePrefix (line + 1)).length - 1) = (bodyRoom width line : ℤ) := by
    unfold bodyRoom
    split_ifs <;> omega
  rw [drawLine, renderLineSegment, hroom, segmentLoop_eq _ _ _ _ _ _ _ le_rfl]

theorem row_of_mem_drawLine {locale : Locale} {width line row : ℤ} {segment : Bytes} {draw : Draw}
    (h : draw ∈ drawLine locale width line row segment) : draw.row = row := by
  rw [drawLine_eq] at h
  rcases List.mem_cons.mp h with rfl | h
  · rfl
  · obtain ⟨placed, -, rfl⟩ := List.mem_map.mp h
    rfl

/-- One line of the page shows the line. -/
theorem drawLine_shows (locale : Locale) (width line row : ℤ) (segment : Bytes) :
    RowShows locale width line row segment (drawLine locale width line row segment) := by
  rw [drawLine_eq]
  constructor
  · rfl
  · rw [List.tail_cons, List.map_map, List.length_map]
    exact Layout.map_snd_fill ..
  · intro k draw hdraw
    rw [List.tail_cons, List.getElem?_map] at hdraw
    obtain ⟨⟨col, ch⟩, hplaced, rfl⟩ := Option.map_eq_some_iff.mp hdraw
    obtain ⟨-, hcol, hbegin, hend⟩ := Layout.getElem?_fill hplaced
    unfold bodyRoom at hbegin hend
    refine ⟨rfl, ?_, ?_⟩
    · simp only [charCol]
      omega
    · dsimp only
      omega
  · intro ch hch
    rw [List.tail_cons, List.length_map] at hch ⊢
    have hfull := Layout.fill_maximal hch
    unfold bodyRoom at hfull ⊢
    simp only [charCol]
    omega

/-! ## The page -/

/-- The rows of some lines, where the next line and the next free row are given. -/
def pageRows (locale : Locale) (height width scrollLine : ℤ) : ℤ → ℤ → List Bytes → List Draw
  | _, _, [] => []
  | line, row, segment :: lines =>
    if line ≥ scrollLine ∧ row < height - 1 then
      drawLine locale width line row segment ++
        pageRows locale height width scrollLine (line + 1) (row + 1) lines
    else pageRows locale height width scrollLine (line + 1) row lines

/-- The loop of `render_lines` goes through the lines of the text. -/
theorem linesLoop_eq (locale : Locale) (height width scrollLine line row : ℤ) (start p : Bytes) :
    linesLoop locale height width scrollLine line row start p =
      pageRows locale height width scrollLine line row
        ((textLines p).modifyHead (start ++ ·)) := by
  induction p generalizing line row start with
  | nil =>
    rw [linesLoop, textLines, List.splitOn_nil, List.modifyHead_cons, List.append_nil, pageRows]
    simp only [pageRows, List.append_nil]
  | cons b p ih =>
    unfold textLines at ih ⊢
    rw [linesLoop, List.splitOn_cons_eq_if_modifyHead]
    by_cases hb : b = 10
    · have hsep : (b == 10) = true := by simpa using hb
      rw [if_pos hb, if_pos hsep, List.modifyHead_cons, List.append_nil, pageRows, ih, ih,
        Layout.modifyHead_nil_append]
    · rw [if_neg hb, if_neg (by simpa using hb), ih, List.modifyHead_modifyHead]
      congr 2
      funext l
      simp

section Rows

variable {locale : Locale} {height width scrollLine : ℤ}

/-- The lines before the page are skipped. -/
theorem pageRows_skip (skipped : ℕ) (row : ℤ) (lines : List Bytes) :
    pageRows locale height width scrollLine (scrollLine - skipped) row lines =
      pageRows locale height width scrollLine scrollLine row (lines.drop skipped) := by
  induction skipped generalizing lines with
  | zero => simp
  | succ skipped ih =>
    cases lines with
    | nil => rfl
    | cons segment lines =>
      rw [pageRows, if_neg (by omega), List.drop_succ_cons, ← ih]
      congr 1
      omega

theorem row_of_mem_pageRows {line row : ℤ} {lines : List Bytes} {draw : Draw}
    (h : draw ∈ pageRows locale height width scrollLine line row lines) :
    row ≤ draw.row ∧ draw.row < height - 1 := by
  induction lines generalizing line row with
  | nil => cases h
  | cons segment lines ih =>
    rw [pageRows] at h
    by_cases hshown : line ≥ scrollLine ∧ row < height - 1
    · rw [if_pos hshown] at h
      rcases List.mem_append.mp h with h | h
      · rw [row_of_mem_drawLine h]
        exact ⟨le_rfl, hshown.2⟩
      · have := ih h
        omega
    · rw [if_neg hshown] at h
      exact ih h

/-- The row of a line of the page is drawn by that line alone. -/
theorem filter_pageRows {line row : ℤ} (lines : List Bytes) (k : ℕ) (hline : scrollLine ≤ line)
    (hk : row + k < height - 1) :
    (pageRows locale height width scrollLine line row lines).filter (fun draw => draw.row = row + k) =
      match lines[k]? with
      | some segment => drawLine locale width (line + k) (row + k) segment
      | none => [] := by
  induction lines generalizing line row k with
  | nil => rfl
  | cons segment lines ih =>
    rw [pageRows, if_pos (by omega), List.filter_append]
    cases k with
    | zero =>
      have hown : (drawLine locale width line row segment).filter
          (fun draw => draw.row = row + (0 : ℕ)) = drawLine locale width line row segment := by
        rw [List.filter_eq_self]
        intro draw hdraw
        simp [row_of_mem_drawLine hdraw]
      have hlater : (pageRows locale height width scrollLine (line + 1) (row + 1) lines).filter
          (fun draw => draw.row = row + (0 : ℕ)) = [] := by
        rw [List.filter_eq_nil_iff]
        intro draw hdraw
        have := row_of_mem_pageRows hdraw
        simp only [decide_eq_true_eq]
        omega
      rw [hown, hlater, List.append_nil]
      simp
    | succ k =>
      have hown : (drawLine locale width line row segment).filter
          (fun draw => draw.row = row + (k + 1 : ℕ)) = [] := by
        rw [List.filter_eq_nil_iff]
        intro draw hdraw
        rw [row_of_mem_drawLine hdraw]
        simp only [decide_eq_true_eq]
        omega
      have hline' : scrollLine ≤ line + 1 := by omega
      have hk' : row + 1 + k < height - 1 := by omega
      have hlater := ih k hline' hk'
      rw [show row + 1 + (k : ℤ) = row + (k + 1 : ℕ) by omega,
        show line + 1 + (k : ℤ) = line + (k + 1 : ℕ) by omega] at hlater
      rw [hown, hlater, List.nil_append, List.getElem?_cons_succ]

end Rows

/-! ## The screen -/

theorem scrollTo_eq_follow (cursorLine height scrollLine : ℤ) :
    scrollTo cursorLine height scrollLine = Layout.follow cursorLine (height - 2) scrollLine := by
  unfold scrollTo Layout.follow
  dsimp only
  split_ifs <;> omega

/-- What `render` does when the position of the cursor has a byte offset. -/
theorem render_eq {locale : Locale} {height width : ℤ} {client : TerminalClient}
    {scrollLine top : ℤ} {screen : Screen}
    (h : client.render locale height width scrollLine = some (top, screen)) :
    ∃ byteLimit, tsUtf8ByteOffset client.state.content client.cursorPos = some byteLimit ∧
      let before := client.state.content.take byteLimit
      let screenRow := (before.count 10 : ℤ) - top + 1
      let screenCol := colLoop locale byteLimit 0 before + 5
      top = Layout.follow (before.count 10) (height - 2) scrollLine ∧
      screen.draws = ⟨0, 0, addnstr (statusBar client) (width - 1)⟩ ::
        pageRows locale height width top 0 1 (textLines client.state.content) ++
          [⟨height - 1, 0, addnstr (bytes "Ctrl-S save | Ctrl-Q quit") (width - 1)⟩] ∧
      screen.cursor =
        if screenRow > 0 ∧ screenRow < height - 1 ∧ screenCol ≥ 0 ∧ screenCol < width then
          some (screenRow, screenCol) else none := by
  unfold TerminalClient.render renderLines lineForPos colForPos at h
  cases hlimit : tsUtf8ByteOffset client.state.content client.cursorPos with
  | none => simp [hlimit] at h
  | some byteLimit =>
    simp only [hlimit, Option.bind_eq_bind, Option.bind_some, Option.some.injEq,
      Prod.mk.injEq] at h
    obtain ⟨htop, hscreen⟩ := h
    refine ⟨byteLimit, rfl, ?_⟩
    rw [htop, linesLoop_eq, Layout.modifyHead_nil_append] at hscreen
    rw [scrollTo_eq_follow] at htop
    subst hscreen
    exact ⟨htop.symm, rfl, rfl⟩

/-! ## The page in a run -/

theorem scrollLine_step {iswprint : Char → Bool} {locale : Locale} {ui ui' : TerminalUi}
    {input : UiInput} (h : 0 ≤ ui.scrollLine) (hstep : uiStep iswprint locale ui input = some ui') :
    0 ≤ ui'.scrollLine := by
  cases input with
  | input input =>
    obtain ⟨client, -, rfl⟩ := Option.map_eq_some_iff.mp hstep
    exact h
  | draw height width =>
    obtain ⟨⟨top, screen⟩, hrender, rfl⟩ := Option.map_eq_some_iff.mp hstep
    obtain ⟨byteLimit, -, htop, -⟩ := render_eq hrender
    rw [htop]
    exact Layout.follow_nonneg (Int.natCast_nonneg _) h

/-- The page never begins before the first line. -/
theorem scrollLine_run {iswprint : Char → Bool} {locale : Locale} {clientId : Bytes}
    {inputs : List UiInput} {ui : TerminalUi}
    (hrun : run (uiStep iswprint locale) (TerminalUi.init clientId) inputs = some ui) :
    0 ≤ ui.scrollLine :=
  run_invariant (P := fun ui => 0 ≤ ui.scrollLine) (fun _ _ _ h => scrollLine_step h) le_rfl hrun

/-- A row between the two bars is drawn by its line of the page alone. -/
theorem inRow_eq {height width top : ℤ} {locale : Locale} {status footer : Bytes}
    {lines : List Bytes} {screen : Screen} (htop : 0 ≤ top) {k : ℕ} (hk : (k : ℤ) < height - 2)
    (hdraws : screen.draws = ⟨0, 0, status⟩ :: pageRows locale height width top 0 1 lines ++
      [⟨height - 1, 0, footer⟩]) :
    screen.inRow (k + 1) =
      match lines[top.toNat + k]? with
      | some segment => drawLine locale width (top + k) (k + 1) segment
      | none => [] := by
  have hskip : pageRows locale height width top (top - top.toNat) 1 lines =
      pageRows locale height width top top 1 (lines.drop top.toNat) := pageRows_skip _ _ _
  rw [show top - (top.toNat : ℤ) = 0 by omega] at hskip
  have hrow : (pageRows locale height width top top 1 (lines.drop top.toNat)).filter
      (fun draw => draw.row = (1 : ℤ) + k) =
        match (lines.drop top.toNat)[k]? with
        | some segment => drawLine locale width (top + k) ((1 : ℤ) + k) segment
        | none => [] := filter_pageRows _ _ le_rfl (by omega)
  rw [List.getElem?_drop, add_comm (1 : ℤ)] at hrow
  unfold Screen.inRow
  rw [hdraws, hskip, List.filter_append, List.filter_cons_of_neg, hrow, List.filter_cons_of_neg,
    List.filter_nil, List.append_nil]
  · simp only [decide_eq_true_eq]
    omega
  · simp only [decide_eq_true_eq]
    omega

/-- After every round of the main loop in a window with room for a line, the page shows the line of the
cursor; it has moved there no farther than it had to. Its rows show the lines of the content one by one,
each with its number and as many characters as fit, and nothing else is drawn between the two bars. -/
theorem page_shown (iswprint : Char → Bool) (locale : Locale) (clientId : Bytes)
    (inputs : List UiInput) (ui : TerminalUi) (height width top : ℤ) (screen : Screen)
    (hrun : run (uiStep iswprint locale) (TerminalUi.init clientId) inputs = some ui)
    (hheight : 3 ≤ height)
    (hrender : ui.client.render locale height width ui.scrollLine = some (top, screen)) :
    ∃ line page : ℕ, top = page ∧
      lineForPos ui.client.state.content ui.client.cursorPos = some (line : ℤ) ∧
      line < (textLines ui.client.state.content).length ∧
      FollowsCursor height ui.scrollLine page line ∧
      screen.ShowsPage locale height width ui.client.state.content page := by
  obtain ⟨byteLimit, hlimit, htop, hdraws, -⟩ := render_eq hrender
  have htop0 : 0 ≤ top := by
    rw [htop]
    exact Layout.follow_nonneg (Int.natCast_nonneg _) (scrollLine_run hrun)
  obtain ⟨page, rfl⟩ := Int.eq_ofNat_of_zero_le htop0
  refine ⟨(ui.client.state.content.take byteLimit).count 10, page, rfl, ?_, ?_, ?_, ?_⟩
  · rw [lineForPos, hlimit]
    rfl
  · rw [textLines, Layout.length_splitOn, Nat.lt_succ_iff]
    exact (List.take_sublist ..).count_le 10
  · constructor
    · have hshows := Layout.follow_shows ((ui.client.state.content.take byteLimit).count 10)
        ui.scrollLine (show 1 ≤ height - 2 by omega)
      omega
    · intro other hother hother'
      rw [htop]
      exact Layout.follow_nearest ⟨hother, hother'⟩
  · intro k hk
    rw [inRow_eq htop0 hk hdraws, Int.toNat_natCast]
    cases (textLines ui.client.state.content)[page + k]? with
    | none => rfl
    | some segment => exact drawLine_shows ..

/-- ASCII characters of one column each. -/
def asciiLocale : Locale where
  mbrtowc
    | [b] => some (Char.ofNat b.toNat)
    | _ => none
  wcwidth _ := 1

/-- A terminal gets a document of two lines and moves its cursor to the second one. -/
def secondLine : List UiInput :=
  [.input (.receive { tsMessageInit with
    type := typeDocState, version := 0, historyStartVersion := 0, content := some (bytes "a\nb") }),
    .input (.press .right), .input (.press .right)]

/-- In a window with one line between the bars, the page scrolls to the second line. -/
theorem page_shown_secondLine :
    ∃ ui screen, run (uiStep (fun _ => true) asciiLocale) (TerminalUi.init (bytes "u1")) secondLine =
        some ui ∧ ui.client.render asciiLocale 3 20 ui.scrollLine = some (1, screen) ∧
      screen.ShowsPage asciiLocale 3 20 ui.client.state.content 1 := by
  have hsome : (run (uiStep (fun _ => true) asciiLocale) (TerminalUi.init (bytes "u1"))
      secondLine).any (fun ui => decide
        ((ui.client.render asciiLocale 3 20 ui.scrollLine).any fun out => decide (out.1 = 1))) =
      true := by decide +kernel
  obtain ⟨ui, hrun, hany⟩ := (Option.any_eq_true _ _).mp hsome
  obtain ⟨⟨top, screen⟩, hrender, htop⟩ := (Option.any_eq_true _ _).mp (of_decide_eq_true hany)
  obtain rfl : top = 1 := of_decide_eq_true htop
  obtain ⟨line, page, hpage, -, -, -, hshows⟩ :=
    page_shown _ _ _ secondLine ui 3 20 1 screen hrun (by decide) hrender
  obtain rfl : page = 1 := by omega
  exact ⟨ui, screen, hrun, hrender, hshows⟩

/-! ## The cursor on a valid text -/

theorem utf8EncodeChar_newline : String.utf8EncodeChar '\n' = [10] := by decide

theorem encode_cons (c : Char) (cs : List Char) :
    Utf8.encode (c :: cs) = String.utf8EncodeChar c ++ Utf8.encode cs := by
  simp [Utf8.encode]

/-- The lines of a text are the texts of its lines. -/
theorem textLines_encode (cs : List Char) :
    textLines (Utf8.encode cs) = (cs.splitOn '\n').map Utf8.encode := by
  unfold textLines
  induction cs with
  | nil => rfl
  | cons c cs ih =>
    rw [encode_cons, List.splitOn_cons_eq_if_modifyHead]
    by_cases hc : c = '\n'
    · rw [if_pos (by simpa using hc), hc, utf8EncodeChar_newline, List.singleton_append,
        List.splitOn_cons_eq_if_modifyHead, if_pos (by simp), ih]
      rfl
    · rw [if_neg (by simpa using hc), Layout.splitOn_append_of_notMem
        (Utf8.notMem_utf8EncodeChar utf8EncodeChar_newline (by decide) hc), ih]
      cases cs.splitOn '\n' with
      | nil => rfl
      | cons line lines => simp [encode_cons]

/-- The width of some characters on the screen. -/
def textWidth (locale : Locale) (cs : List Char) : ℕ :=
  Layout.width (utf8DisplayWidth locale) (cs.map String.utf8EncodeChar)

/-- The loop of `col_for_pos` adds up the characters behind the last newline. -/
theorem colLoop_encode (locale : Locale) (cs line : List Char) (fuel : ℕ)
    (hcs : ∀ c ∈ cs, c ≠ '\x00') (hfuel : (Utf8.encode cs).length ≤ fuel) :
    colLoop locale fuel (textWidth locale line) (Utf8.encode cs) =
      textWidth locale (Layout.lastLine '\n' line cs) := by
  induction cs generalizing line fuel with
  | nil => cases fuel <;> rfl
  | cons c cs ih =>
    obtain ⟨hc, hcs⟩ := List.forall_mem_cons.mp hcs
    obtain ⟨b, t, hcons, hbytes⟩ := WellFormedChar.bounded ⟨c, hc, rfl⟩ (Utf8.encode cs)
    have hlength : (String.utf8EncodeChar c).length + (Utf8.encode cs).length ≤ fuel := by
      rw [encode_cons, List.length_append] at hfuel
      exact hfuel
    have hpos : 0 < (String.utf8EncodeChar c).length := by
      rw [← hbytes]
      exact (boundedUtf8CharBytes_bounds b t).1
    rw [encode_cons, hcons]
    cases fuel with
    | zero => omega
    | succ fuel =>
      rw [colLoop, Layout.lastLine]
      by_cases hline : c = '\n'
      · rw [hline, utf8EncodeChar_newline, List.singleton_append, List.cons.injEq] at hcons
        rw [if_pos hcons.1.symm, if_pos hline, ← hcons.2]
        exact ih [] fuel hcs (by omega)
      · have hb : b ≠ 10 := by
          rintro rfl
          refine Utf8.notMem_utf8EncodeChar utf8EncodeChar_newline (by decide) hline ?_
          obtain ⟨lead, tail, heq⟩ := List.exists_cons_of_length_pos hpos
          rw [heq, List.cons_append, List.cons.injEq] at hcons
          rw [heq, hcons.1]
          exact List.mem_cons_self
        have hwidth : (textWidth locale line : ℤ) + utf8DisplayWidth locale (String.utf8EncodeChar c) =
            textWidth locale (line ++ [c]) := by
          simp [textWidth, Layout.width]
        rw [if_neg hb, if_neg hline, hbytes, ← hcons]
        dsimp only
        rw [List.take_left, List.drop_left, hwidth]
        exact ih _ fuel hcs (by omega)

/-- A line number takes five columns up to 9999, and more from there on. -/
theorem length_linePrefix (n : ℕ) : 5 ≤ (linePrefix (n + 1)).length ∧
    ((linePrefix (n + 1)).length = 5 ↔ n < 9999) := by
  have hformat : formatInt ((n : ℤ) + 1) = Decimal.digits (n + 1) := by
    rw [show (n : ℤ) + 1 = ((n + 1 : ℕ) : ℤ) by omega, ← formatSize_eq_formatInt]
    rfl
  have hdigits : (Decimal.digits (n + 1)).length ≤ 4 ↔ n + 1 < 10 ^ 4 := by
    rw [Decimal.digits, List.length_map]
    exact Nat.length_toDigits_le_iff (by decide) (by decide)
  have hblank : (bytes " ").length = 1 := by decide
  unfold linePrefix snprintf
  rw [hformat, List.length_take, List.length_append, List.length_append, List.length_replicate,
    hblank]
  omega

/-- The character at a position is the next one in the line of that position. -/
theorem line_at (cs : List Char) (pos : ℕ) : ∃ after,
    (cs.splitOn '\n')[(cs.take pos).count '\n']? =
      some (Layout.lastLine '\n' [] (cs.take pos) ++ after) ∧
    ∀ c, after[0]? = some c → cs[pos]? = some c := by
  have hline := Layout.getElem?_splitOn_append '\n' [] (cs.take pos) (cs.drop pos)
  rw [List.take_append_drop, Layout.modifyHead_nil_append] at hline
  refine ⟨_, hline, ?_⟩
  intro c hc
  cases hdrop : cs.drop pos with
  | nil =>
    rw [hdrop] at hc
    cases hc
  | cons d rest =>
    rw [hdrop, List.splitOn_cons_eq_if_modifyHead] at hc
    have hd : cs[pos]? = some d := by
      rw [← List.head?_drop, hdrop]
      rfl
    by_cases heq : d = '\n'
    · rw [if_pos (by simpa using heq)] at hc
      cases hc
    · rw [if_neg (by simpa using heq)] at hc
      cases hrest : rest.splitOn '\n' with
      | nil => exact absurd hrest (List.splitOn_ne_nil _ _)
      | cons first lines =>
        rw [hrest] at hc
        obtain rfl := Option.some.inj hc
        exact hd

/-- On a valid text the cursor stands on the character at its position wherever that character is
drawn, exactly if the number of its line has at most four digits: `render` takes the line numbers for
five columns wide, and `render_lines` makes room for longer ones. -/
theorem cursor_on_character_iff (iswprint : Char → Bool) (locale : Locale) (clientId : Bytes)
    (inputs : List UiInput) (ui : TerminalUi) (height width top : ℤ) (screen : Screen)
    (cs : List Char)
    (hrun : run (uiStep iswprint locale) (TerminalUi.init clientId) inputs = some ui)
    (hheight : 3 ≤ height)
    (hrender : ui.client.render locale height width ui.scrollLine = some (top, screen))
    (hcs : Denotes ui.client.state.content cs) (draw : Draw) :
    let before := cs.take ui.client.cursorPos
    let line := before.count '\n'
    let index := (Layout.lastLine '\n' [] before).length
    (screen.inRow (line - top + 1)).tail[index]? = some draw →
      (∃ c, cs[ui.client.cursorPos]? = some c ∧ draw.text = String.utf8EncodeChar c) ∧
        (screen.cursor = some (draw.row, draw.col) ↔ line < 9999) := by
  intro before line index hdraw
  obtain ⟨byteLimit, hlimit, htop, hdraws, hcursor⟩ := render_eq hrender
  -- the text before the cursor
  obtain rfl : (Utf8.encode before).length = byteLimit :=
    Option.some.inj ((hcs.byteOffset _).symm.trans hlimit)
  have hbefore : ui.client.state.content.take (Utf8.encode before).length = Utf8.encode before := by
    conv_lhs => rw [hcs.eq_append ui.client.cursorPos]
    exact List.take_left
  have hcount : (Utf8.encode before).count 10 = line :=
    Utf8.count_encode utf8EncodeChar_newline (by decide) before
  have hcol := colLoop_encode locale before [] _ (hcs.take _).1 le_rfl
  rw [hbefore, hcount] at htop hcursor
  rw [show ((textWidth locale [] : ℕ) : ℤ) = 0 from rfl] at hcol
  rw [hcol] at hcursor
  -- the row of the cursor
  have htop0 : 0 ≤ top := by
    rw [htop]
    exact Layout.follow_nonneg (Int.natCast_nonneg _) (scrollLine_run hrun)
  have hshows := Layout.follow_shows line ui.scrollLine (show 1 ≤ height - 2 by omega)
  rw [← htop] at hshows
  obtain ⟨k, hk⟩ : ∃ k : ℕ, (line : ℤ) = top + k := ⟨line - top.toNat, by omega⟩
  have hinRow := inRow_eq htop0 (k := k) (by omega) hdraws
  obtain ⟨after, hsplit, hafter⟩ := line_at cs ui.client.cursorPos
  rw [show top.toNat + k = line by omega, hcs.2, textLines_encode, List.getElem?_map, hsplit,
    Option.map_some] at hinRow
  dsimp only at hinRow
  rw [show (line : ℤ) - top + 1 = k + 1 by omega, hinRow, ← hk] at hdraw
  -- the character of the cursor
  have hshown := drawLine_shows locale width line (k + 1)
    (Utf8.encode (Layout.lastLine '\n' [] before ++ after))
  have hchars : charsOf (Utf8.encode (Layout.lastLine '\n' [] before ++ after)) =
      (Layout.lastLine '\n' [] before ++ after).map String.utf8EncodeChar := by
    rw [Utf8.encode_eq_flatten]
    refine charsOf_flatten ?_
    intro p hp
    obtain ⟨c, hc, rfl⟩ := List.mem_map.mp hp
    exact ⟨c, hcs.1 c (Layout.mem_of_mem_splitOn (List.mem_of_getElem? hsplit) hc), rfl⟩
  obtain ⟨hrow, hdrawCol, hend⟩ := hshown.columns index draw hdraw
  have hindex : index < (drawLine locale width line (k + 1)
      (Utf8.encode (Layout.lastLine '\n' [] before ++ after))).tail.length :=
    (List.getElem?_eq_some_iff.mp hdraw).1
  have htext : ((Layout.lastLine '\n' [] before ++ after).map String.utf8EncodeChar)[index]? =
      some draw.text := by
    rw [← hchars, ← List.getElem?_take_of_lt hindex, ← hshown.chars, List.getElem?_map, hdraw]
    rfl
  have hwidth : charCol locale line (Utf8.encode (Layout.lastLine '\n' [] before ++ after)) index =
      (linePrefix (line + 1)).length + textWidth locale (Layout.lastLine '\n' [] before) := by
    rw [charCol, hchars, ← List.map_take, List.take_left, ← textWidth, Nat.cast_add]
  obtain ⟨hlong, hshort⟩ := length_linePrefix line
  rw [hwidth] at hdrawCol
  constructor
  · rw [List.getElem?_map, List.getElem?_append_right le_rfl, Nat.sub_self] at htext
    obtain ⟨c, hc, htext⟩ := Option.map_eq_some_iff.mp htext
    exact ⟨c, hafter c hc, htext.symm⟩
  · rw [hcursor, if_pos (by omega), hrow, hdrawCol, ← hshort, Option.some.injEq, Prod.mk.injEq]
    omega

/-- The cursor on the `b` of the second line. -/
theorem cursor_on_character_secondLine :
    ∃ (ui : TerminalUi) (screen : Screen) (draw : Draw), run (uiStep (fun _ => true) asciiLocale) (TerminalUi.init (bytes "u1"))
        secondLine = some ui ∧
      ui.client.render asciiLocale 24 80 ui.scrollLine = some (0, screen) ∧
      draw.text = bytes "b" ∧ screen.cursor = some (draw.row, draw.col) := by
  have hsome : (run (uiStep (fun _ => true) asciiLocale) (TerminalUi.init (bytes "u1"))
      secondLine).any (fun ui => decide (ui.client.cursorPos = 2 ∧
        ui.client.state.content = bytes "a\nb" ∧
        (ui.client.render asciiLocale 24 80 ui.scrollLine).any fun out => decide (out.1 = 0 ∧
          (out.2.inRow 2).tail[0]? = some ⟨2, 5, bytes "b"⟩))) = true := by decide +kernel
  obtain ⟨ui, hrun, hui⟩ := (Option.any_eq_true _ _).mp hsome
  obtain ⟨hpos, hcontent, hany⟩ := of_decide_eq_true hui
  obtain ⟨⟨top, screen⟩, hrender, hout⟩ := (Option.any_eq_true _ _).mp hany
  obtain ⟨rfl, hdraw⟩ := of_decide_eq_true hout
  have hcs : Denotes ui.client.state.content ['a', '\n', 'b'] := by
    rw [hcontent]
    exact ⟨by decide, by decide⟩
  have hcursor := cursor_on_character_iff _ _ _ secondLine ui 24 80 0 screen ['a', '\n', 'b'] hrun
    (by decide) hrender hcs ⟨2, 5, bytes "b"⟩
  rw [hpos] at hcursor
  exact ⟨ui, screen, _, hrun, hrender, rfl, (hcursor hdraw).2.mpr (by decide)⟩

end TermSync
