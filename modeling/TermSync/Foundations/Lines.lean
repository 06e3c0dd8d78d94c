import Mathlib.Data.List.Basic
import Mathlib.Tactic

/-!
# Streams of delimited lines

Lines that do not contain the delimiter are sent one after the other, each followed by the delimiter.
A receiver sees the stream in pieces; it cuts a line off its buffer as soon as the buffer contains a
delimiter (`cutLine`). Whatever the pieces are, what it cuts off first is the first line of the stream,
and what it holds without a delimiter is a part of that line (`cutLine_line`).
-/

namespace Foundations

variable {α : Type*} {d : α}

/-- The stream of some lines. -/
def framed (d : α) (lines : List (List α)) : List α := lines.flatMap fun line => line ++ [d]

theorem framed_cons (line : List α) (lines : List (List α)) :
    framed d (line :: lines) = line ++ d :: framed d lines := by
  simp [framed]

theorem framed_append (lines more : List (List α)) :
    framed d (lines ++ more) = framed d lines ++ framed d more := List.flatMap_append

section Cut

variable [DecidableEq α]

/-- The part before the first delimiter and the part behind it. -/
def cutLine (d : α) : List α → Option (List α × List α)
  | [] => none
  | a :: l => if a = d then some ([], l) else (cutLine d l).map fun cut => (a :: cut.1, cut.2)

/-- The first line is cut off whatever follows it. -/
theorem cutLine_append {line : List α} (h : d ∉ line) (rest : List α) :
    cutLine d (line ++ d :: rest) = some (line, rest) := by
  induction line with
  | nil => simp [cutLine]
  | cons a line ih =>
    rw [List.mem_cons, not_or] at h
    obtain ⟨hne, hline⟩ := h
    rw [List.cons_append, cutLine, if_neg (Ne.symm hne), ih hline]
    rfl

/-- Two streams that begin with a line each begin with the same one. -/
theorem line_inj {line line' rest rest' : List α} (h : d ∉ line) (h' : d ∉ line')
    (heq : line ++ d :: rest = line' ++ d :: rest') : line = line' ∧ rest = rest' := by
  have hcut := cutLine_append h rest
  rw [heq, cutLine_append h', Option.some.injEq, Prod.mk.injEq] at hcut
  exact ⟨hcut.1.symm, hcut.2.symm⟩

theorem cutLine_eq_none {l : List α} : cutLine d l = none ↔ d ∉ l := by
  induction l with
  | nil => simp [cutLine]
  | cons a l ih =>
    by_cases ha : a = d
    · simp [cutLine, ha]
    · rw [cutLine, if_neg ha, Option.map_eq_none_iff, ih, List.mem_cons, not_or]
      exact ⟨fun h => ⟨Ne.symm ha, h⟩, And.right⟩

theorem cutLine_eq_some {l line rest : List α} (h : cutLine d l = some (line, rest)) :
    l = line ++ d :: rest ∧ d ∉ line := by
  induction l generalizing line with
  | nil => cases h
  | cons a l ih =>
    rw [cutLine] at h
    split_ifs at h with ha
    · obtain ⟨rfl, rfl⟩ := Prod.mk.inj (Option.some.inj h)
      exact ⟨by rw [ha]; rfl, List.not_mem_nil⟩
    · obtain ⟨⟨line', rest'⟩, hcut, heq⟩ := Option.map_eq_some_iff.mp h
      obtain ⟨rfl, rfl⟩ := Prod.mk.inj heq
      obtain ⟨rfl, hline⟩ := ih hcut
      exact ⟨rfl, by rw [List.mem_cons, not_or]; exact ⟨Ne.symm ha, hline⟩⟩

/-- Where a line starts a stream, a buffer that holds the beginning of the stream yields that line, or
it holds a part of it. -/
theorem cutLine_line {line : List α} (hline : d ∉ line) {buffer future later : List α}
    (hstream : buffer ++ future = line ++ d :: later) :
    (∃ rest, cutLine d buffer = some (line, rest) ∧ rest ++ future = later) ∨
      cutLine d buffer = none ∧ buffer <+: line := by
  cases hcut : cutLine d buffer with
  | some cut =>
    obtain ⟨l, rest⟩ := cut
    obtain ⟨rfl, hl⟩ := cutLine_eq_some hcut
    rw [List.append_assoc, List.cons_append] at hstream
    have hfirst := cutLine_append hline later
    rw [← hstream, cutLine_append hl, Option.some.injEq, Prod.mk.injEq] at hfirst
    exact Or.inl ⟨rest, by rw [hfirst.1], hfirst.2⟩
  | none =>
    refine Or.inr ⟨rfl, ?_⟩
    rw [List.append_eq_append_iff] at hstream
    rcases hstream with ⟨tail, hfirst, -⟩ | ⟨tail, rfl, htail⟩
    · exact ⟨tail, hfirst.symm⟩
    · cases tail with
      | nil => simp
      | cons a tail =>
        obtain ⟨rfl, -⟩ := List.cons.inj htail
        exact absurd (List.mem_append_right _ List.mem_cons_self) (cutLine_eq_none.mp hcut)

end Cut

end Foundations
