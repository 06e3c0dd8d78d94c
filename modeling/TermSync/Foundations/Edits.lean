import Mathlib.Data.List.InsertIdx
import Mathlib.Data.List.Nodup
import Mathlib.Tactic

/-!
# Edits of a list and the positions they move

A list whose elements have an identity of their own is changed by *edits*: one element is inserted
at an index, the element at an index is erased, or nothing happens. An edit moves two kinds of
positions. The *element* at an index is found at another index afterwards, or it is gone
(`Edit.carryElem`); an *insertion point* between two elements moves so that the elements before it
stay before it (`Edit.carryGap`).

Both are carried along a whole sequence of edits, provided that the indices of the edits are in
range when they happen (`InRange`) and that no identity is inserted twice. Carrying the index of an
edit along a concurrent edit (`Edit.after`) makes the order of the two irrelevant.
-/

namespace Foundations

variable {α : Type*}

/-- One change of a list. -/
inductive Edit (α : Type*) where
  /-- Insert an element at an index. -/
  | insert (i : ℕ) (a : α)
  /-- Erase the element at an index. -/
  | erase (i : ℕ)
  /-- Change nothing. -/
  | keep

theorem insertIdx_eq_take_append_drop {l : List α} {i : ℕ} (hi : i ≤ l.length) (a : α) :
    l.insertIdx i a = l.take i ++ a :: l.drop i := by
  induction l generalizing i with
  | nil =>
    obtain rfl : i = 0 := by simpa using hi
    rfl
  | cons b l ih =>
    cases i with
    | zero => rfl
    | succ i =>
      rw [List.insertIdx_succ_cons, ih (by simpa using hi), List.take_succ_cons, List.cons_append,
        List.drop_succ_cons]

namespace Edit

/-- The list after the edit. -/
def apply : Edit α → List α → List α
  | insert i a, l => l.insertIdx i a
  | erase i, l => l.eraseIdx i
  | keep, l => l

/-- The index of the edit is in range. -/
def Fits : Edit α → List α → Prop
  | insert i _, l => i ≤ l.length
  | erase i, l => i < l.length
  | keep, _ => True

/-- The element that the edit brings in. -/
def inserted : Edit α → List α
  | insert _ a => [a]
  | erase _ => []
  | keep => []

/-- The insertion point `p` after the edit; an insertion at the same point goes before it. -/
def carryGap : Edit α → ℕ → ℕ
  | insert i _, p => if i ≤ p then p + 1 else p
  | erase i, p => if i < p then p - 1 else p
  | keep, p => p

/-- The index of the element at index `p` after the edit, or `none` once it is erased. -/
def carryElem : Edit α → ℕ → Option ℕ
  | insert i _, p => some (if i ≤ p then p + 1 else p)
  | erase i, p => if i = p then none else some (if i < p then p - 1 else p)
  | keep, p => some p

/-- The edit `e` as it is made once the concurrent edit `d` has been made. -/
def after (d : Edit α) : Edit α → Edit α
  | insert i a => insert (d.carryGap i) a
  | erase i =>
    match d.carryElem i with
    | some j => erase j
    | none => keep
  | keep => keep

/-! ## One edit -/

/-- An element is before an insertion point afterwards iff it was before. -/
theorem carryElem_lt_carryGap {e : Edit α} {i i' : ℕ} (h : e.carryElem i = some i') (p : ℕ) :
    i' < e.carryGap p ↔ i < p := by
  cases e with
  | insert j a =>
    simp only [carryElem, Option.some.injEq] at h
    simp only [carryGap]
    split_ifs at h ⊢ <;> omega
  | erase j =>
    simp only [carryElem] at h
    split_ifs at h <;> simp only [Option.some.injEq] at h <;>
      simp only [carryGap] <;> split_ifs <;> omega
  | keep =>
    simp only [carryElem, Option.some.injEq] at h
    simp only [carryGap, h]

theorem carryElem_le {e : Edit α} {p q : ℕ} (h : e.carryElem p = some q) : q ≤ p + 1 := by
  cases e <;> simp only [carryElem] at h <;> (try split_ifs at h) <;>
    simp only [Option.some.injEq] at h <;> omega

/-- Edits keep the order of the elements. -/
theorem carryElem_lt_carryElem {e : Edit α} {i j i' j' : ℕ} (hi : e.carryElem i = some i')
    (hj : e.carryElem j = some j') : i' < j' ↔ i < j := by
  cases e with
  | insert k a =>
    simp only [carryElem, Option.some.injEq] at hi hj
    split_ifs at hi hj <;> omega
  | erase k =>
    simp only [carryElem] at hi hj
    split_ifs at hi hj <;> simp only [Option.some.injEq] at hi hj <;> omega
  | keep =>
    simp only [carryElem, Option.some.injEq] at hi hj
    rw [hi, hj]

/-- The element at `p` is found at the index to which it is carried. -/
theorem getElem?_apply_of_carryElem {e : Edit α} {l : List α} {p q : ℕ} {c : α} (hfit : e.Fits l)
    (hp : l[p]? = some c) (hq : e.carryElem p = some q) : (e.apply l)[q]? = some c := by
  cases e with
  | insert i a =>
    simp only [carryElem, Option.some.injEq] at hq
    simp only [apply, List.getElem?_insertIdx]
    rw [← hp]
    split_ifs at hq with hi
    · rw [if_neg (by omega), if_neg (by omega), ← hq]
      rfl
    · rw [if_pos (by omega), ← hq]
  | erase i =>
    simp only [carryElem] at hq
    simp only [apply, List.getElem?_eraseIdx]
    rw [← hp]
    split_ifs at hq with hi hlt
    · rw [if_neg (by simp only [Option.some.injEq] at hq; omega)]
      simp only [Option.some.injEq] at hq
      rw [show q + 1 = p by omega]
    · simp only [Option.some.injEq] at hq
      rw [if_pos (by omega), hq]
  | keep =>
    simp only [carryElem, Option.some.injEq] at hq
    rw [← hq]
    exact hp

/-- An element that is not carried anywhere is gone. -/
theorem notMem_apply_of_carryElem {e : Edit α} {l : List α} {p : ℕ} {c : α} (hl : l.Nodup)
    (hp : l[p]? = some c) (hq : e.carryElem p = none) : c ∉ e.apply l := by
  cases e with
  | insert i a => simp [carryElem] at hq
  | erase i =>
    simp only [carryElem, ite_eq_left_iff, reduceCtorEq, imp_false, not_not] at hq
    obtain ⟨hlt, rfl⟩ := List.getElem?_eq_some_iff.mp hp
    subst hq
    simp only [apply]
    intro hmem
    obtain ⟨j, hne, hj⟩ := List.mem_eraseIdx_iff_getElem?.mp hmem
    obtain ⟨hjlt, hje⟩ := List.getElem?_eq_some_iff.mp hj
    exact hne ((List.Nodup.getElem_inj_iff hl).mp hje)
  | keep => simp [carryElem] at hq

/-- A position behind the last element stays behind the last element. -/
theorem length_apply_le_of_carryElem {e : Edit α} {l : List α} {p : ℕ} (hfit : e.Fits l)
    (hp : l.length ≤ p) : ∃ q, e.carryElem p = some q ∧ (e.apply l).length ≤ q := by
  cases e with
  | insert i a =>
    simp only [Fits] at hfit
    refine ⟨_, rfl, ?_⟩
    rw [if_pos (by omega), apply, List.length_insertIdx_of_le_length hfit]
    omega
  | erase i =>
    simp only [Fits] at hfit
    refine ⟨p - 1, ?_, ?_⟩
    · rw [carryElem, if_neg (by omega), if_pos (by omega)]
    · rw [apply, List.length_eraseIdx_of_lt hfit]
      omega
  | keep => exact ⟨p, rfl, hp⟩

/-- The elements after an edit are those before it and the inserted one, without repetition. -/
theorem nodup_apply_append {e : Edit α} {l m : List α} (hfit : e.Fits l)
    (h : (l ++ (e.inserted ++ m)).Nodup) : (e.apply l ++ m).Nodup := by
  cases e with
  | insert i a =>
    have hperm : (l.insertIdx i a ++ m).Perm (l ++ (a :: m)) :=
      ((List.perm_insertIdx a l hfit).append_right m).trans List.perm_middle.symm
    exact hperm.nodup_iff.mpr h
  | erase i => exact h.sublist ((List.eraseIdx_sublist l i).append_right m)
  | keep => exact h

theorem mem_apply_of_mem {e : Edit α} {l : List α} {o : α} (h : o ∈ e.apply l) :
    o ∈ e.inserted ∨ o ∈ l := by
  cases e with
  | insert i a =>
    rcases List.eq_or_mem_of_mem_insertIdx h with rfl | h
    · exact Or.inl (List.mem_singleton.mpr rfl)
    · exact Or.inr h
  | erase i => exact Or.inr (List.mem_of_mem_eraseIdx h)
  | keep => exact Or.inr h

/-! ### Concurrent edits -/

theorem keep_after (e : Edit α) : keep.after e = e := by
  cases e <;> rfl

theorem eraseIdx_eraseIdx {l : List α} {i j : ℕ} (h : i < j) :
    (l.eraseIdx i).eraseIdx (j - 1) = (l.eraseIdx j).eraseIdx i := by
  refine List.ext_getElem? fun k => ?_
  simp only [List.getElem?_eraseIdx]
  split_ifs <;> first | rfl | (congr 1; omega)

/-- Concurrent edits can be made in any order, unless both insert at the same index. -/
theorem after_apply_comm {d e : Edit α} {l : List α} (hd : d.Fits l) (he : e.Fits l)
    (h : ∀ i a b, ¬ (d = insert i a ∧ e = insert i b)) :
    (d.after e).apply (d.apply l) = (e.after d).apply (e.apply l) := by
  cases d with
  | keep => cases e <;> rfl
  | insert i a =>
    cases e with
    | keep => rfl
    | insert j b =>
      have hne : i ≠ j := fun heq => h i a b ⟨rfl, by rw [heq]⟩
      simp only [Fits] at hd he
      simp only [after, carryGap, apply]
      rcases lt_or_gt_of_ne hne with hlt | hlt
      · rw [if_pos hlt.le, if_neg (by omega), List.insertIdx_comm a b hlt.le he]
      · rw [if_neg (by omega), if_pos hlt.le, ← List.insertIdx_comm b a hlt.le hd]
    | erase j =>
      simp only [Fits] at hd he
      simp only [after, carryElem, carryGap, apply]
      by_cases hle : i ≤ j
      · rw [if_pos hle, if_neg (by omega)]
        exact (List.insertIdx_eraseIdx_of_le he hle).symm
      · rw [if_neg hle, if_pos (by omega), List.insertIdx_eraseIdx_of_ge he (by omega),
          Nat.sub_add_cancel (by omega)]
  | erase i =>
    cases e with
    | keep => rfl
    | insert j b =>
      simp only [Fits] at hd he
      simp only [after, carryElem, carryGap, apply]
      by_cases hle : j ≤ i
      · rw [if_pos hle, if_neg (by omega)]
        exact List.insertIdx_eraseIdx_of_le hd hle
      · rw [if_neg hle, if_pos (by omega), List.insertIdx_eraseIdx_of_ge hd (by omega),
          Nat.sub_add_cancel (by omega)]
    | erase j =>
      rcases lt_trichotomy i j with hlt | rfl | hlt
      · simp only [after, carryElem, if_neg hlt.ne, if_pos hlt, if_neg hlt.ne',
          if_neg (Nat.lt_asymm hlt), apply]
        exact eraseIdx_eraseIdx hlt
      · simp only [after, carryElem, if_true, apply]
      · simp only [after, carryElem, if_neg hlt.ne, if_pos hlt, if_neg hlt.ne',
          if_neg (Nat.lt_asymm hlt), apply]
        exact (eraseIdx_eraseIdx hlt).symm

/-- Of two insertions at one index, the later one ends directly behind the earlier one. -/
theorem after_apply_insert {l : List α} {i : ℕ} (hi : i ≤ l.length) (a b : α) :
    ((insert i a).after (insert i b)).apply ((insert i a).apply l) =
      l.take i ++ a :: b :: l.drop i := by
  have hlen : (l.take i ++ [a]).length = i + 1 := by simp [hi]
  simp only [after, carryGap, le_refl, if_true, apply]
  have hsplit : l.take i ++ a :: l.drop i = (l.take i ++ [a]) ++ l.drop i := by simp
  rw [insertIdx_eq_take_append_drop hi, insertIdx_eq_take_append_drop (by simp; omega), hsplit,
    ← hlen, List.take_left, List.drop_left, List.append_assoc]
  rfl

end Edit

/-! ## Sequences of edits -/

/-- The list after a sequence of edits. -/
def applyEdits (es : List (Edit α)) (l : List α) : List α := es.foldl (fun l e => e.apply l) l

/-- Every edit is in range when it happens. -/
def InRange : List (Edit α) → List α → Prop
  | [], _ => True
  | e :: es, l => e.Fits l ∧ InRange es (e.apply l)

/-- All elements that a sequence of edits brings in. -/
def insertedBy (es : List (Edit α)) : List α := es.flatMap Edit.inserted

/-- An insertion point after a sequence of edits. -/
def carryGaps (es : List (Edit α)) (p : ℕ) : ℕ := es.foldl (fun p e => e.carryGap p) p

/-- The index of an element after a sequence of edits, or `none` once it is erased. -/
def carryElems : List (Edit α) → ℕ → Option ℕ
  | [], p => some p
  | e :: es, p => (e.carryElem p).bind (carryElems es)

@[simp] theorem applyEdits_nil (l : List α) : applyEdits [] l = l := rfl

@[simp] theorem applyEdits_cons (e : Edit α) (es : List (Edit α)) (l : List α) :
    applyEdits (e :: es) l = applyEdits es (e.apply l) := rfl

@[simp] theorem carryGaps_cons (e : Edit α) (es : List (Edit α)) (p : ℕ) :
    carryGaps (e :: es) p = carryGaps es (e.carryGap p) := rfl

@[simp] theorem insertedBy_cons (e : Edit α) (es : List (Edit α)) :
    insertedBy (e :: es) = e.inserted ++ insertedBy es := rfl

theorem insertedBy_concat (es : List (Edit α)) (e : Edit α) :
    insertedBy (es ++ [e]) = insertedBy es ++ e.inserted := by
  simp [insertedBy]

theorem applyEdits_append (es fs : List (Edit α)) (l : List α) :
    applyEdits (es ++ fs) l = applyEdits fs (applyEdits es l) := List.foldl_append

theorem carryGaps_append (es fs : List (Edit α)) (p : ℕ) :
    carryGaps (es ++ fs) p = carryGaps fs (carryGaps es p) := List.foldl_append

theorem inRange_append {es fs : List (Edit α)} {l : List α} :
    InRange (es ++ fs) l ↔ InRange es l ∧ InRange fs (applyEdits es l) := by
  induction es generalizing l with
  | nil => simp [InRange]
  | cons e es ih => simp only [List.cons_append, InRange, applyEdits_cons, ih, and_assoc]

theorem nodup_applyEdits_append {es : List (Edit α)} {l m : List α} (hfit : InRange es l)
    (h : (l ++ (insertedBy es ++ m)).Nodup) : (applyEdits es l ++ m).Nodup := by
  induction es generalizing l with
  | nil => exact h
  | cons e es ih =>
    refine ih hfit.2 (Edit.nodup_apply_append hfit.1 ?_)
    rw [insertedBy_cons, List.append_assoc] at h
    exact h

theorem nodup_applyEdits {es : List (Edit α)} {l : List α} (hfit : InRange es l)
    (h : (l ++ insertedBy es).Nodup) : (applyEdits es l).Nodup := by
  have := nodup_applyEdits_append (m := []) hfit (by simpa using h)
  simpa using this

/-- What is in the list after some edits was there before or was inserted by them. -/
theorem mem_applyEdits {es : List (Edit α)} {l : List α} {o : α} (h : o ∈ applyEdits es l) :
    o ∈ insertedBy es ∨ o ∈ l := by
  induction es generalizing l with
  | nil => exact Or.inr h
  | cons e es ih =>
    rw [insertedBy_cons, List.mem_append]
    rcases ih h with h | h
    · exact Or.inl (Or.inr h)
    · rcases Edit.mem_apply_of_mem h with h | h
      · exact Or.inl (Or.inl h)
      · exact Or.inr h

/-- Each edit moves an insertion point by at most one. -/
theorem carryGaps_le (es : List (Edit α)) (p : ℕ) : carryGaps es p ≤ p + es.length := by
  induction es generalizing p with
  | nil => exact le_rfl
  | cons e es ih =>
    have hstep : e.carryGap p ≤ p + 1 := by
      cases e <;> simp only [Edit.carryGap] <;> (try split_ifs) <;> omega
    rw [carryGaps_cons, List.length_cons]
    exact (ih _).trans (by omega)

/-- The element at `p` is found at the index to which a sequence of edits carries it. -/
theorem getElem?_applyEdits {es : List (Edit α)} {l : List α} {p q : ℕ} {c : α}
    (hfit : InRange es l) (hp : l[p]? = some c) (hq : carryElems es p = some q) :
    (applyEdits es l)[q]? = some c := by
  induction es generalizing l p with
  | nil =>
    rw [carryElems, Option.some.injEq] at hq
    rw [← hq]
    exact hp
  | cons e es ih =>
    obtain ⟨r, hr, hq'⟩ := Option.bind_eq_some_iff.mp hq
    exact ih hfit.2 (Edit.getElem?_apply_of_carryElem hfit.1 hp hr) hq'

/-- An element that a sequence of edits carries nowhere is gone for good. -/
theorem notMem_applyEdits {es : List (Edit α)} {l : List α} {p : ℕ} {c : α} (hfit : InRange es l)
    (hnd : (l ++ insertedBy es).Nodup) (hp : l[p]? = some c) (hq : carryElems es p = none) :
    c ∉ applyEdits es l := by
  induction es generalizing l p with
  | nil => cases hq
  | cons e es ih =>
    rw [insertedBy_cons] at hnd
    have hnd' : (e.apply l ++ insertedBy es).Nodup := Edit.nodup_apply_append hfit.1 hnd
    cases he : e.carryElem p with
    | some r =>
      refine ih hfit.2 hnd' (Edit.getElem?_apply_of_carryElem hfit.1 hp he) ?_
      rw [carryElems, he] at hq
      exact hq
    | none =>
      have hgone := Edit.notMem_apply_of_carryElem (List.nodup_append.mp hnd).1 hp he
      intro hmem
      rcases mem_applyEdits (show c ∈ applyEdits es (e.apply l) from hmem) with hins | hmem
      · -- `c` was in the list, so it is not one of the inserted elements
        exact List.disjoint_of_nodup_append hnd (List.mem_of_getElem? hp)
          (List.mem_append_right _ hins)
      · exact hgone hmem

/-- A position behind the last element stays behind the last element. -/
theorem length_applyEdits_le {es : List (Edit α)} {l : List α} {p : ℕ} (hfit : InRange es l)
    (hp : l.length ≤ p) : ∃ q, carryElems es p = some q ∧ (applyEdits es l).length ≤ q := by
  induction es generalizing l p with
  | nil => exact ⟨p, rfl, hp⟩
  | cons e es ih =>
    obtain ⟨r, hr, hle⟩ := Edit.length_apply_le_of_carryElem hfit.1 hp
    obtain ⟨q, hq, hqle⟩ := ih hfit.2 hle
    exact ⟨q, by rw [carryElems, hr]; exact hq, hqle⟩

theorem carryElems_lt_carryGaps {es : List (Edit α)} {i i' : ℕ} (h : carryElems es i = some i')
    (p : ℕ) : i' < carryGaps es p ↔ i < p := by
  induction es generalizing i p with
  | nil => rw [carryElems, Option.some.injEq] at h; rw [h]; rfl
  | cons e es ih =>
    obtain ⟨r, hr, hi'⟩ := Option.bind_eq_some_iff.mp h
    rw [carryGaps_cons, ih hi', Edit.carryElem_lt_carryGap hr]

theorem carryElems_lt_carryElems {es : List (Edit α)} {i j i' j' : ℕ}
    (hi : carryElems es i = some i') (hj : carryElems es j = some j') : i' < j' ↔ i < j := by
  induction es generalizing i j with
  | nil =>
    rw [carryElems, Option.some.injEq] at hi hj
    rw [hi, hj]
  | cons e es ih =>
    obtain ⟨r, hr, hi'⟩ := Option.bind_eq_some_iff.mp hi
    obtain ⟨t, ht, hj'⟩ := Option.bind_eq_some_iff.mp hj
    rw [ih hi' hj', Edit.carryElem_lt_carryElem hr ht]

section Identity

variable [BEq α] [LawfulBEq α]

/-- An element that survives a sequence of edits is carried to its new index. -/
theorem carryElems_idxOf {es : List (Edit α)} {l : List α} {o : α} (hfit : InRange es l)
    (hnd : (l ++ insertedBy es).Nodup) (ho : o ∈ l) (ho' : o ∈ applyEdits es l) :
    carryElems es (l.idxOf o) = some ((applyEdits es l).idxOf o) := by
  have hget : l[l.idxOf o]? = some o := List.getElem?_idxOf ho
  cases hq : carryElems es (l.idxOf o) with
  | none => exact absurd ho' (notMem_applyEdits hfit hnd hget hq)
  | some q =>
    obtain ⟨hlt, hqo⟩ := List.getElem?_eq_some_iff.mp (getElem?_applyEdits hfit hget hq)
    rw [← hqo, List.Nodup.idxOf_getElem (nodup_applyEdits hfit hnd)]

/-- The elements that survive a sequence of edits are before the carried insertion point iff they
were before the insertion point. -/
theorem idxOf_applyEdits_lt_iff {es : List (Edit α)} {l : List α} {o : α} (hfit : InRange es l)
    (hnd : (l ++ insertedBy es).Nodup) (ho : o ∈ l) (ho' : o ∈ applyEdits es l) (p : ℕ) :
    (applyEdits es l).idxOf o < carryGaps es p ↔ l.idxOf o < p :=
  carryElems_lt_carryGaps (carryElems_idxOf hfit hnd ho ho') p

/-- The elements that survive a sequence of edits keep their order. -/
theorem idxOf_applyEdits_lt_idxOf {es : List (Edit α)} {l : List α} {o o' : α}
    (hfit : InRange es l) (hnd : (l ++ insertedBy es).Nodup) (ho : o ∈ l) (ho' : o' ∈ l)
    (hs : o ∈ applyEdits es l) (hs' : o' ∈ applyEdits es l) :
    (applyEdits es l).idxOf o < (applyEdits es l).idxOf o' ↔ l.idxOf o < l.idxOf o' :=
  carryElems_lt_carryElems (carryElems_idxOf hfit hnd ho hs) (carryElems_idxOf hfit hnd ho' hs')

/-- The inserted element stands at its index, and exactly the elements before that index stand
before it. -/
theorem idxOf_insertIdx_lt_iff {l : List α} {a o : α} {i : ℕ} (hi : i ≤ l.length) (ha : a ∉ l)
    (hl : l.Nodup) (ho : o ∈ l) :
    (l.insertIdx i a).idxOf o < (l.insertIdx i a).idxOf a ↔ l.idxOf o < i := by
  have hnd : (l ++ insertedBy [Edit.insert i a]).Nodup :=
    List.nodup_append.mpr ⟨hl, List.nodup_singleton a, fun b hb c hc hbc =>
      ha (by rwa [← List.mem_singleton.mp hc, ← hbc])⟩
  have hfit : InRange [Edit.insert i a] l := ⟨hi, trivial⟩
  have hlen : i < (l.insertIdx i a).length := by
    rw [List.length_insertIdx_of_le_length hi]
    omega
  have hself : (l.insertIdx i a).idxOf a = i := by
    have hnd' : (l.insertIdx i a).Nodup := nodup_applyEdits hfit hnd
    have h := List.Nodup.idxOf_getElem hnd' i hlen
    rwa [List.getElem_insertIdx_self hlen] at h
  have hlt := carryElems_idxOf hfit hnd ho ((List.mem_insertIdx hi).mpr (Or.inr ho))
  rw [hself]
  simp only [carryElems, Edit.carryElem, Option.bind_some, Option.some.injEq, applyEdits_cons,
    Edit.apply, applyEdits_nil] at hlt
  rw [← hlt]
  split_ifs <;> omega

end Identity

end Foundations
