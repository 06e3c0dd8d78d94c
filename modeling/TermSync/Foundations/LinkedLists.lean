import Mathlib.Data.List.Nodup
import Mathlib.Logic.Function.Basic

/-!
# Linked lists in a heap

A heap maps the addresses that are allocated to cells, and a cell ends with a pointer to the next one. A
chain of cells from one pointer to another passes each address once (`Linked.nodup`), and the operations of
a singly linked list are updates of one pointer each: at the front (`Linked.push`), at the end
(`Segment.link`) and in the middle (`Linked.unlink`).
-/

namespace Foundations

/-- A node of a list. -/
structure Cell (α : Type*) where
  value : α
  next : Option ℕ
  deriving DecidableEq, Repr

/-- What is allocated, by its address. -/
abbrev Heap (α : Type*) := ℕ → Option (Cell α)

variable {α : Type*} {heap heap' : Heap α} {p q r : Option ℕ} {a b : ℕ} {as bs : List ℕ} {cell : Cell α}

/-- The cells at these addresses form a chain from the pointer `p` to the pointer `q`. -/
def Segment (heap : Heap α) : Option ℕ → List ℕ → Option ℕ → Prop
  | p, [], q => p = q
  | p, a :: as, q => p = some a ∧ ∃ cell, heap a = some cell ∧ Segment heap cell.next as q

/-- The cells at these addresses form a list that begins at the pointer `p`. -/
abbrev Linked (heap : Heap α) (p : Option ℕ) (as : List ℕ) : Prop := Segment heap p as none

/-- What the cells at these addresses hold. -/
def Heap.values (heap : Heap α) (as : List ℕ) : List α :=
  as.filterMap fun a => (heap a).map Cell.value

@[simp] theorem segment_nil : Segment heap p [] q ↔ p = q := Iff.rfl

@[simp] theorem segment_cons :
    Segment heap p (a :: as) q ↔ p = some a ∧ ∃ cell, heap a = some cell ∧ Segment heap cell.next as q :=
  Iff.rfl

@[simp] theorem values_nil : heap.values [] = [] := rfl

theorem values_cons (h : heap a = some cell) : heap.values (a :: as) = cell.value :: heap.values as := by
  simp [Heap.values, h]

theorem values_append : heap.values (as ++ bs) = heap.values as ++ heap.values bs :=
  List.filterMap_append

/-- A chain is cut in two at any of its pointers. -/
theorem segment_append :
    Segment heap p (as ++ bs) r ↔ ∃ q, Segment heap p as q ∧ Segment heap q bs r := by
  induction as generalizing p with
  | nil => simp
  | cons a as ih =>
    simp only [List.cons_append, segment_cons]
    constructor
    · rintro ⟨hp, cell, hcell, hrest⟩
      obtain ⟨q, has, hbs⟩ := ih.mp hrest
      exact ⟨q, ⟨hp, cell, hcell, has⟩, hbs⟩
    · rintro ⟨q, ⟨hp, cell, hcell, has⟩, hbs⟩
      exact ⟨hp, cell, hcell, ih.mpr ⟨q, has, hbs⟩⟩

theorem Segment.concat (h : Segment heap p as (some a)) (hcell : heap a = some cell) :
    Segment heap p (as ++ [a]) cell.next :=
  segment_append.mpr ⟨some a, h, rfl, cell, hcell, rfl⟩

/-- Every cell of a chain is allocated. -/
theorem Segment.allocated (h : Segment heap p as q) (ha : a ∈ as) : ∃ cell, heap a = some cell := by
  induction as generalizing p with
  | nil => exact absurd ha List.not_mem_nil
  | cons b as ih =>
    obtain ⟨-, cell, hcell, hrest⟩ := segment_cons.mp h
    rcases List.mem_cons.mp ha with rfl | ha
    · exact ⟨cell, hcell⟩
    · exact ih hrest ha

/-- A heap that agrees on the cells of a chain has the same chain. -/
theorem Segment.frame (h : Segment heap p as q) (heq : ∀ a ∈ as, heap' a = heap a) :
    Segment heap' p as q := by
  induction as generalizing p with
  | nil => exact h
  | cons b as ih =>
    obtain ⟨hp, cell, hcell, hrest⟩ := segment_cons.mp h
    exact ⟨hp, cell, (heq b List.mem_cons_self).trans hcell,
      ih hrest fun a ha => heq a (List.mem_cons_of_mem b ha)⟩

/-- Writing elsewhere keeps a chain. -/
theorem Segment.update (h : Segment heap p as q) (ha : a ∉ as) (entry : Option (Cell α)) :
    Segment (Function.update heap a entry) p as q :=
  h.frame fun _ hb => Function.update_of_ne (ne_of_mem_of_not_mem hb ha) ..

theorem values_congr (h : ∀ a ∈ as, (heap' a).map Cell.value = (heap a).map Cell.value) :
    heap'.values as = heap.values as :=
  List.filterMap_congr h

/-- Writing elsewhere keeps the payloads. -/
theorem values_update (ha : a ∉ as) (entry : Option (Cell α)) :
    Heap.values (Function.update heap a entry) as = heap.values as :=
  values_congr fun _ hb => by rw [Function.update_of_ne (ne_of_mem_of_not_mem hb ha)]

/-- Writing a pointer keeps the payload of each cell. -/
theorem map_value_update_next (hcell : heap a = some cell) (next : Option ℕ) (b : ℕ) :
    (Function.update heap a (some { cell with next := next }) b).map Cell.value =
      (heap b).map Cell.value := by
  by_cases hb : b = a
  · rw [hb, Function.update_self, hcell]
    rfl
  · rw [Function.update_of_ne hb]

theorem mem_values {value : α} : value ∈ heap.values as ↔ ∃ a ∈ as, ∃ cell, heap a = some cell ∧
    cell.value = value := by
  simp [Heap.values, List.mem_filterMap, Option.map_eq_some_iff]

/-! ## Lists -/

/-- A pointer determines the list that begins there. -/
theorem Linked.unique (h : Linked heap p as) (h' : Linked heap p bs) : as = bs := by
  induction as generalizing p bs with
  | nil =>
    cases bs with
    | nil => rfl
    | cons b bs =>
      have hp : p = none := h
      rw [hp] at h'
      cases h'.1
  | cons a as ih =>
    obtain ⟨hp, cell, hcell, hrest⟩ := segment_cons.mp h
    cases bs with
    | nil =>
      have hp' : p = none := h'
      rw [hp] at hp'
      cases hp'
    | cons b bs =>
      obtain ⟨hp', cell', hcell', hrest'⟩ := segment_cons.mp h'
      obtain rfl := Option.some.inj (hp.symm.trans hp')
      obtain rfl := Option.some.inj (hcell.symm.trans hcell')
      rw [ih hrest hrest']

/-- A list ends, so it passes no address twice. -/
theorem Linked.nodup (h : Linked heap p as) : as.Nodup := by
  induction as generalizing p with
  | nil => exact List.nodup_nil
  | cons a as ih =>
    obtain ⟨hp, cell, hcell, hrest⟩ := segment_cons.mp h
    refine List.nodup_cons.mpr ⟨fun ha => ?_, ih hrest⟩
    -- the list from the second occurrence on would be the whole list
    obtain ⟨before, after, rfl⟩ := List.append_of_mem ha
    obtain ⟨q, -, hafter⟩ := segment_append.mp hrest
    have hq : q = p := by rw [hp, (segment_cons.mp hafter).1]
    have hlength := congrArg List.length (Linked.unique h (hq ▸ hafter))
    rw [List.length_cons, List.length_cons, List.length_append, List.length_cons] at hlength
    omega

/-- A pointer into a list is null behind the last cell only. -/
theorem Linked.eq_nil (h : Linked heap none as) : as = [] :=
  Linked.unique h (segment_nil.mpr rfl)

theorem Linked.exists_cons (h : Linked heap (some a) as) :
    ∃ cell rest, as = a :: rest ∧ heap a = some cell ∧ Linked heap cell.next rest := by
  cases as with
  | nil => cases h
  | cons b rest =>
    obtain ⟨hb, cell, hcell, hrest⟩ := segment_cons.mp h
    obtain rfl := Option.some.inj hb
    exact ⟨cell, rest, rfl, hcell, hrest⟩

/-- A cell becomes the first one. -/
theorem Linked.push (h : Linked heap p as) (ha : a ∉ as) (cell : Cell α) :
    Linked (Function.update heap a (some { cell with next := p })) (some a) (a :: as) :=
  ⟨rfl, _, Function.update_self .., h.update ha _⟩

/-- The last cell of a chain points somewhere else. -/
theorem Segment.link (h : Segment heap p as (some a)) (ha : a ∉ as) (cell : Cell α) :
    Segment (Function.update heap a (some cell)) p (as ++ [a]) cell.next :=
  (h.update ha _).concat (Function.update_self ..)

/-- The cell behind another one is taken out of the list. -/
theorem Linked.unlink {before after : List ℕ} (h : Linked heap p (before ++ b :: a :: after))
    (hcell : heap a = some cell) (previous : Cell α) :
    Linked (Function.update heap b (some { previous with next := cell.next })) p (before ++ b :: after) := by
  have hnodup := Linked.nodup h
  obtain ⟨q, hbefore, hrest⟩ := segment_append.mp h
  obtain ⟨rfl, _, _, hrest⟩ := segment_cons.mp hrest
  obtain ⟨-, cell', hcell', hafter⟩ := segment_cons.mp hrest
  obtain rfl := Option.some.inj (hcell.symm.trans hcell')
  have hb : b ∉ before := fun hb =>
    (List.nodup_append.mp hnodup).2.2 b hb b List.mem_cons_self rfl
  have hb' : b ∉ after := fun hb =>
    (List.nodup_cons.mp (List.nodup_append.mp hnodup).2.1).1 (List.mem_cons_of_mem a hb)
  exact segment_append.mpr ⟨some b, hbefore.update hb _, rfl, _, Function.update_self ..,
    hafter.update hb' _⟩

/-! ## Walks -/

/-- A walk along the list `as` has passed the cells `before`, and its cursor points to the next one. -/
def Walked (heap : Heap α) (as before : List ℕ) (cursor : Option ℕ) : Prop :=
  ∃ after, as = before ++ after ∧ Linked heap cursor after

theorem Walked.start (h : Linked heap p as) : Walked heap as [] p := ⟨as, rfl, h⟩

/-- The cursor points to a cell of the list, and its pointer takes the walk on. -/
theorem Walked.next {before : List ℕ} (h : Walked heap as before (some a)) :
    ∃ cell, heap a = some cell ∧ a ∈ as ∧ Walked heap as (before ++ [a]) cell.next := by
  obtain ⟨after, rfl, hafter⟩ := h
  obtain ⟨cell, rest, rfl, hcell, hrest⟩ := hafter.exists_cons
  refine ⟨cell, hcell, List.mem_append_right _ List.mem_cons_self, rest, ?_, hrest⟩
  rw [List.append_assoc, List.singleton_append]

/-- A walk whose cursor is null has passed the whole list. -/
theorem Walked.eq_of_null {before : List ℕ} (h : Walked heap as before none) : before = as := by
  obtain ⟨after, rfl, hafter⟩ := h
  rw [hafter.eq_nil, List.append_nil]

theorem Walked.frame {before : List ℕ} {cursor : Option ℕ} (h : Walked heap as before cursor)
    (heq : ∀ a ∈ as, heap' a = heap a) : Walked heap' as before cursor := by
  obtain ⟨after, rfl, hafter⟩ := h
  exact ⟨after, rfl, hafter.frame fun a ha => heq a (List.mem_append_right _ ha)⟩

theorem values_concat {before : List ℕ} (h : heap a = some cell) :
    heap.values (before ++ [a]) = heap.values before ++ [cell.value] := by
  rw [values_append, values_cons h, values_nil]

/-- A walk goes on from the pointer of the last cell that it has passed. -/
theorem Walked.of_last {before after : List ℕ} (h : Linked heap p (before ++ after))
    (hlast : before.getLast? = some b) :
    ∃ cell, heap b = some cell ∧ Walked heap (before ++ after) before cell.next := by
  obtain ⟨before', rfl⟩ := List.getLast?_eq_some_iff.mp hlast
  rw [List.append_assoc, List.singleton_append] at h
  obtain ⟨q, -, hrest⟩ := segment_append.mp h
  obtain ⟨-, cell, hcell, hafter⟩ := segment_cons.mp hrest
  exact ⟨cell, hcell, after, rfl, hafter⟩

end Foundations
