import Mathlib.Data.List.Basic
import Mathlib.Tactic

/-!
# Self-synchronising sequences of blocks

Some elements of an alphabet are *continuations* (`cont`); a *block* is one element that is not a
continuation followed by continuations only. A sequence that is a concatenation of blocks can be
cut into blocks in one way only, its number of blocks is the number of its non-continuation
elements, and splicing a piece with one non-continuation element between two concatenations of
blocks either adds one block or lengthens the block before it.

UTF-8 is the instance in mind: a block is the encoding of one character.
-/

namespace Foundations

variable {α : Type*} {cont : α → Bool}

/-- One lead element followed by continuations. -/
def IsBlock (cont : α → Bool) (l : List α) : Prop :=
  ∃ b t, l = b :: t ∧ cont b = false ∧ ∀ x ∈ t, cont x = true

/-- A sequence that does not begin in the middle of a block. -/
def AtBoundary (cont : α → Bool) (l : List α) : Prop := ∀ b t, l = b :: t → cont b = false

theorem IsBlock.ne_nil {l : List α} (h : IsBlock cont l) : l ≠ [] := by
  obtain ⟨b, t, rfl, -, -⟩ := h
  exact List.cons_ne_nil b t

theorem IsBlock.atBoundary {l : List α} (h : IsBlock cont l) (m : List α) :
    AtBoundary cont (l ++ m) := by
  obtain ⟨b, t, rfl, hb, -⟩ := h
  intro b' t' heq
  rw [List.cons_append, List.cons.injEq] at heq
  rw [← heq.1, hb]

theorem IsBlock.append {l c : List α} (h : IsBlock cont l) (hc : ∀ x ∈ c, cont x = true) :
    IsBlock cont (l ++ c) := by
  obtain ⟨b, t, rfl, hb, ht⟩ := h
  refine ⟨b, t ++ c, rfl, hb, fun x hx => ?_⟩
  rcases List.mem_append.mp hx with hx | hx
  · exact ht x hx
  · exact hc x hx

theorem countP_eq_zero_of_cont {c : List α} (hc : ∀ x ∈ c, cont x = true) :
    c.countP (fun x => !cont x) = 0 := by
  rw [List.countP_eq_zero]
  intro x hx
  simp [hc x hx]

theorem IsBlock.countP_eq_one {l : List α} (h : IsBlock cont l) :
    l.countP (fun x => !cont x) = 1 := by
  obtain ⟨b, t, rfl, hb, ht⟩ := h
  rw [List.countP_cons_of_pos (by simp [hb]), countP_eq_zero_of_cont ht]

/-- The blocks of a sequence are counted by its non-continuation elements. -/
theorem countP_flatten {L : List (List α)} (hL : ∀ l ∈ L, IsBlock cont l) :
    L.flatten.countP (fun x => !cont x) = L.length := by
  induction L with
  | nil => rfl
  | cons l L ih =>
    rw [List.flatten_cons, List.countP_append, (hL l List.mem_cons_self).countP_eq_one,
      ih fun m hm => hL m (List.mem_cons_of_mem l hm), List.length_cons]
    omega

theorem atBoundary_flatten {L : List (List α)} (hL : ∀ l ∈ L, IsBlock cont l) :
    AtBoundary cont L.flatten := by
  cases L with
  | nil => intro b t h; cases h
  | cons l L => exact (hL l List.mem_cons_self).atBoundary L.flatten

/-- Two runs of continuations that are followed by a block boundary end at the same place. -/
theorem append_inj_of_cont {t u x y : List α} (ht : ∀ e ∈ t, cont e = true)
    (hu : ∀ e ∈ u, cont e = true) (hx : AtBoundary cont x) (hy : AtBoundary cont y)
    (h : t ++ x = u ++ y) : t = u ∧ x = y := by
  induction t generalizing u with
  | nil =>
    cases u with
    | nil => exact ⟨rfl, h⟩
    | cons e u =>
      have hlead := hx e (u ++ y) h
      rw [hu e List.mem_cons_self] at hlead
      cases hlead
  | cons e t ih =>
    cases u with
    | nil =>
      have hlead := hy e (t ++ x) h.symm
      rw [ht e List.mem_cons_self] at hlead
      cases hlead
    | cons e' u =>
      rw [List.cons_append, List.cons_append, List.cons.injEq] at h
      obtain ⟨htu, hxy⟩ := ih (fun a ha => ht a (List.mem_cons_of_mem e ha))
        (fun a ha => hu a (List.mem_cons_of_mem e' ha)) h.2
      exact ⟨by rw [h.1, htu], hxy⟩

/-- A block followed by a block boundary is determined by the whole sequence. -/
theorem IsBlock.append_inj {l m x y : List α} (hl : IsBlock cont l) (hm : IsBlock cont m)
    (hx : AtBoundary cont x) (hy : AtBoundary cont y) (h : l ++ x = m ++ y) : l = m ∧ x = y := by
  obtain ⟨b, t, rfl, -, ht⟩ := hl
  obtain ⟨b', u, rfl, -, hu⟩ := hm
  rw [List.cons_append, List.cons_append, List.cons.injEq] at h
  obtain ⟨htu, hxy⟩ := append_inj_of_cont ht hu hx hy h.2
  exact ⟨by rw [h.1, htu], hxy⟩

/-- A sequence can be cut into blocks in one way only. -/
theorem flatten_blocks_injective {L M : List (List α)} (hL : ∀ l ∈ L, IsBlock cont l)
    (hM : ∀ m ∈ M, IsBlock cont m) (h : L.flatten = M.flatten) : L = M := by
  induction L generalizing M with
  | nil =>
    cases M with
    | nil => rfl
    | cons m M =>
      have hnil : m ++ M.flatten = [] := h.symm
      exact absurd (List.append_eq_nil_iff.mp hnil).1 (hM m List.mem_cons_self).ne_nil
  | cons l L ih =>
    cases M with
    | nil =>
      have hnil : l ++ L.flatten = [] := h
      exact absurd (List.append_eq_nil_iff.mp hnil).1 (hL l List.mem_cons_self).ne_nil
    | cons m M =>
      have hL' : ∀ k ∈ L, IsBlock cont k := fun k hk => hL k (List.mem_cons_of_mem l hk)
      have hM' : ∀ k ∈ M, IsBlock cont k := fun k hk => hM k (List.mem_cons_of_mem m hk)
      obtain ⟨hlm, hrest⟩ := (hL l List.mem_cons_self).append_inj (hM m List.mem_cons_self)
        (atBoundary_flatten hL') (atBoundary_flatten hM') h
      rw [hlm, ih hL' hM' hrest]

/-- A sequence with one non-continuation element is a run of continuations and then a block. -/
theorem exists_block_of_countP_eq_one {x : List α} (h : x.countP (fun e => !cont e) = 1) :
    ∃ c k, x = c ++ k ∧ (∀ e ∈ c, cont e = true) ∧ IsBlock cont k := by
  induction x with
  | nil => cases h
  | cons e x ih =>
    by_cases he : cont e = true
    · rw [List.countP_cons_of_neg (by simp [he])] at h
      obtain ⟨c, k, rfl, hc, hk⟩ := ih h
      refine ⟨e :: c, k, rfl, fun a ha => ?_, hk⟩
      rcases List.mem_cons.mp ha with rfl | ha
      · exact he
      · exact hc a ha
    · rw [Bool.not_eq_true] at he
      rw [List.countP_cons_of_pos (by simp [he]), Nat.add_eq_right, List.countP_eq_zero] at h
      exact ⟨[], e :: x, rfl, by simp, e, x, rfl, he, fun a ha => by simpa using h a ha⟩

/-- Splicing a piece with one non-continuation element between two block sequences: if the result
is a block sequence again, then the piece is one block, or the piece begins with continuations that
lengthen the last block before it. -/
theorem splice_blocks {P S L : List (List α)} {x : List α} (hP : ∀ l ∈ P, IsBlock cont l)
    (hS : ∀ l ∈ S, IsBlock cont l) (hL : ∀ l ∈ L, IsBlock cont l)
    (hx : x.countP (fun e => !cont e) = 1) (h : L.flatten = P.flatten ++ x ++ S.flatten) :
    (IsBlock cont x ∧ L = P ++ x :: S) ∨
      ∃ P' q c k, P = P' ++ [q] ∧ c ≠ [] ∧ x = c ++ k ∧ L = P' ++ (q ++ c) :: k :: S := by
  obtain ⟨c, k, rfl, hc, hk⟩ := exists_block_of_countP_eq_one hx
  by_cases hnil : c = []
  · subst hnil
    refine Or.inl ⟨hk, flatten_blocks_injective hL (fun l hl => ?_) (by simpa using h)⟩
    rcases List.mem_append.mp hl with hl | hl
    · exact hP l hl
    · rcases List.mem_cons.mp hl with rfl | hl
      · exact hk
      · exact hS l hl
  · rcases List.eq_nil_or_concat P with rfl | ⟨P', q, rfl⟩
    · -- the spliced sequence would begin with a continuation
      obtain ⟨e, c', rfl⟩ := List.exists_cons_of_ne_nil hnil
      have hlead := atBoundary_flatten hL e (c' ++ k ++ S.flatten) (by simpa using h)
      rw [hc e List.mem_cons_self] at hlead
      cases hlead
    · rw [List.concat_eq_append] at *
      refine Or.inr ⟨P', q, c, k, rfl, hnil, rfl, flatten_blocks_injective hL (fun l hl => ?_) ?_⟩
      · have hq : IsBlock cont q := hP q (by simp)
        rcases List.mem_append.mp hl with hl | hl
        · exact hP l (by simp [hl])
        · rcases List.mem_cons.mp hl with rfl | hl
          · exact hq.append hc
          · rcases List.mem_cons.mp hl with rfl | hl
            · exact hk
            · exact hS l hl
      · rw [h]; simp

end Foundations
