import Mathlib.Tactic

/-!
# Filling rows and following a position

A row takes items with a width from the left for as long as they fit (`fill`). A window of some
consecutive lines follows a position: it moves only when the position is outside, and then as little
as possible (`follow`). A position in a text that is split into lines has a line, which is counted by the
separators before it, and a place in that line (`lastLine`).
-/

namespace Foundations.Layout

variable {α : Type*}

/-! ## Rows -/

/-- The width of some items side by side. -/
def width (w : α → ℕ) (items : List α) : ℕ := (items.map w).sum

/-- The items that fit into a row of `room` columns from column `used` on, with their columns. -/
def fill (w : α → ℕ) (room : ℕ) : ℕ → List α → List (ℕ × α)
  | _, [] => []
  | used, a :: items =>
    if used < room ∧ used + w a ≤ room then (used, a) :: fill w room (used + w a) items else []

@[simp] theorem width_nil (w : α → ℕ) : width w [] = 0 := rfl

@[simp] theorem width_cons (w : α → ℕ) (a : α) (items : List α) :
    width w (a :: items) = w a + width w items := by
  simp [width]

variable {w : α → ℕ} {room used : ℕ} {items : List α}

/-- A row takes its items in order and skips none. -/
theorem map_snd_fill (w : α → ℕ) (room used : ℕ) (items : List α) :
    (fill w room used items).map Prod.snd = items.take (fill w room used items).length := by
  induction items generalizing used with
  | nil => rfl
  | cons a items ih =>
    unfold fill
    by_cases h : used < room ∧ used + w a ≤ room
    · rw [if_pos h, List.map_cons, List.length_cons, List.take_succ_cons, ih]
    · rw [if_neg h]
      rfl

/-- An item stands right behind the items before it, and it begins and ends inside the row. -/
theorem getElem?_fill {k col : ℕ} {a : α} (h : (fill w room used items)[k]? = some (col, a)) :
    items[k]? = some a ∧ col = used + width w (items.take k) ∧ col < room ∧ col + w a ≤ room := by
  induction items generalizing used k with
  | nil => cases h
  | cons b items ih =>
    unfold fill at h
    by_cases hfit : used < room ∧ used + w b ≤ room
    · rw [if_pos hfit] at h
      cases k with
      | zero =>
        rw [List.getElem?_cons_zero, Option.some.injEq, Prod.mk.injEq] at h
        obtain ⟨rfl, rfl⟩ := h
        exact ⟨rfl, rfl, hfit⟩
      | succ k =>
        obtain ⟨hitem, hcol, hend⟩ := ih h
        refine ⟨hitem, ?_, hend⟩
        rw [hcol, List.take_succ_cons, width_cons]
        omega
    · rw [if_neg hfit] at h
      cases h

/-- The row takes one more item whenever it has room for it. -/
theorem fill_maximal {a : α} (h : items[(fill w room used items).length]? = some a) :
    ¬ (used + width w (items.take (fill w room used items).length) < room ∧
      used + width w (items.take (fill w room used items).length) + w a ≤ room) := by
  induction items generalizing used with
  | nil => cases h
  | cons b items ih =>
    unfold fill at h ⊢
    by_cases hfit : used < room ∧ used + w b ≤ room
    · rw [if_pos hfit] at h ⊢
      rw [List.length_cons, List.getElem?_cons_succ] at h
      rw [List.length_cons, List.take_succ_cons, width_cons, ← add_assoc]
      exact ih h
    · rw [if_neg hfit] at h ⊢
      obtain rfl := Option.some.inj h
      simpa using hfit

/-! ## Windows -/

/-- The first line of a window of `rows` lines that has followed a position. -/
def follow (pos rows top : ℤ) : ℤ :=
  let top := if pos < top then pos else top
  if pos ≥ top + rows then pos - rows + 1 else top

variable {pos rows top : ℤ}

/-- The position is in the window afterwards. -/
theorem follow_shows (pos top : ℤ) (hrows : 1 ≤ rows) :
    follow pos rows top ≤ pos ∧ pos < follow pos rows top + rows := by
  simp only [follow]
  constructor <;> split_ifs <;> omega

/-- No window with the position is closer to the old window. -/
theorem follow_nearest {other : ℤ} (h : other ≤ pos ∧ pos < other + rows) :
    |follow pos rows top - top| ≤ |other - top| := by
  simp only [follow]
  split_ifs with hbefore hafter hafter
  · omega
  · rw [abs_of_neg (by omega), abs_of_neg (by omega)]
    omega
  · rw [abs_of_nonneg (by omega), abs_of_nonneg (by omega)]
    omega
  · rw [sub_self, abs_zero]
    exact abs_nonneg _

/-- A window over non-negative positions does not move before the first of them. -/
theorem follow_nonneg (hpos : 0 ≤ pos) (htop : 0 ≤ top) : 0 ≤ follow pos rows top := by
  simp only [follow]
  split_ifs <;> omega

/-! ## Lines -/

theorem modifyHead_nil_append (lines : List (List α)) : lines.modifyHead ([] ++ ·) = lines := by
  cases lines <;> rfl

variable [DecidableEq α] {sep : α}

/-- What stands behind the last separator; `line` is the line so far. -/
def lastLine (sep : α) : List α → List α → List α
  | line, [] => line
  | line, a :: l => if a = sep then lastLine sep [] l else lastLine sep (line ++ [a]) l

/-- A text has one line more than separators. -/
theorem length_splitOn (l : List α) : (l.splitOn sep).length = l.count sep + 1 := by
  induction l with
  | nil => rfl
  | cons a l ih =>
    rw [List.splitOn_cons_eq_if_modifyHead, List.count_cons]
    by_cases ha : a = sep
    · simp [ha, ih]
    · simp [ha, ih]

theorem mem_of_mem_splitOn {l line : List α} {a : α} (hline : line ∈ l.splitOn sep)
    (ha : a ∈ line) : a ∈ l := by
  induction l generalizing line with
  | nil =>
    rw [List.splitOn_nil, List.mem_singleton] at hline
    rw [hline] at ha
    cases ha
  | cons b l ih =>
    rw [List.splitOn_cons_eq_if_modifyHead] at hline
    by_cases hb : b = sep
    · rw [if_pos (by simpa using hb)] at hline
      rcases List.mem_cons.mp hline with rfl | hline
      · cases ha
      · exact List.mem_cons_of_mem b (ih hline ha)
    · rw [if_neg (by simpa using hb)] at hline
      cases hsplit : l.splitOn sep with
      | nil => exact absurd hsplit (List.splitOn_ne_nil sep l)
      | cons first lines =>
        rw [hsplit] at hline ih
        rcases List.mem_cons.mp hline with rfl | hline
        · rcases List.mem_cons.mp ha with rfl | ha
          · exact List.mem_cons_self
          · exact List.mem_cons_of_mem b (ih List.mem_cons_self ha)
        · exact List.mem_cons_of_mem b (ih (List.mem_cons_of_mem first hline) ha)

/-- What holds no separator belongs to the first line of what follows. -/
theorem splitOn_append_of_notMem {l : List α} (h : sep ∉ l) (rest : List α) :
    (l ++ rest).splitOn sep = (rest.splitOn sep).modifyHead (l ++ ·) := by
  induction l with
  | nil => rw [List.nil_append, modifyHead_nil_append]
  | cons a l ih =>
    rw [List.mem_cons, not_or] at h
    rw [List.cons_append, List.splitOn_cons_eq_if_modifyHead, if_neg (by simpa using Ne.symm h.1),
      ih h.2, List.modifyHead_modifyHead]
    rfl

/-- The line of a position consists of what stands behind the last separator before it and of what
stands before the first separator behind it. -/
theorem getElem?_splitOn_append (sep : α) (line before after : List α) :
    (((before ++ after).splitOn sep).modifyHead (line ++ ·))[before.count sep]? =
      some (lastLine sep line before ++ (after.splitOn sep).headD []) := by
  induction before generalizing line with
  | nil =>
    cases h : after.splitOn sep with
    | nil => exact absurd h (List.splitOn_ne_nil sep after)
    | cons first rest => simp [lastLine, h]
  | cons a before ih =>
    rw [List.cons_append, List.splitOn_cons_eq_if_modifyHead, List.count_cons]
    by_cases ha : a = sep
    · have hline := ih []
      rw [modifyHead_nil_append] at hline
      rw [if_pos (by simpa using ha), if_pos (by simpa using ha), List.modifyHead_cons,
        List.getElem?_cons_succ, hline, lastLine, if_pos ha]
    · simp only [beq_iff_eq, ha, if_false, Nat.add_zero, lastLine, ← ih (line ++ [a]),
        List.modifyHead_modifyHead]
      congr 2
      funext l
      simp

end Foundations.Layout
