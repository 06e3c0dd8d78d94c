import Mathlib.Data.List.Basic
import Mathlib.Tactic

/-!
# Walks by announced widths

A sequence is walked through in units: the first element of a unit announces its width, and the walk
goes on behind it without looking at the other elements. A walk is inside the sequence as long as the
units that it passes are complete (`walk_eq_some_iff`); it is inside for every number of units exactly
when the whole sequence consists of complete units (`forall_walk_iff`).
-/

namespace Foundations

variable {α : Type*} {width : α → ℕ}

/-- How far `n` units reach, or the end if there are fewer; `none` when a unit is cut off by the
end. -/
def walk (width : α → ℕ) : ℕ → List α → Option ℕ
  | 0, _ => some 0
  | _ + 1, [] => some 0
  | n + 1, a :: l =>
    if width a ≤ (a :: l).length then
      (walk width n ((a :: l).drop (width a))).map fun reached => width a + reached
    else none

/-- A complete unit. -/
def IsUnit (width : α → ℕ) (unit : List α) : Prop :=
  ∃ a l, unit = a :: l ∧ width a = unit.length

theorem walk_nil (n : ℕ) : walk width n [] = some 0 := by
  cases n <;> rfl

theorem walk_le {n reached : ℕ} {l : List α} (h : walk width n l = some reached) :
    reached ≤ l.length := by
  induction n generalizing l reached with
  | zero =>
    obtain rfl := Option.some.inj h
    exact Nat.zero_le _
  | succ n ih =>
    cases l with
    | nil =>
      obtain rfl := Option.some.inj h
      exact Nat.zero_le _
    | cons a l =>
      rw [walk] at h
      split_ifs at h with hwidth
      obtain ⟨rest, hrest, rfl⟩ := Option.map_eq_some_iff.mp h
      have hle := ih hrest
      rw [List.length_drop] at hle
      omega

/-- More units reach at least as far. -/
theorem walk_mono {n m reached reached' : ℕ} {l : List α} (hle : n ≤ m)
    (hn : walk width n l = some reached) (hm : walk width m l = some reached') :
    reached ≤ reached' := by
  induction n generalizing m l reached reached' with
  | zero =>
    obtain rfl := Option.some.inj hn
    exact Nat.zero_le _
  | succ n ih =>
    obtain ⟨m, rfl⟩ : ∃ k, m = k + 1 := ⟨m - 1, by omega⟩
    cases l with
    | nil =>
      obtain rfl := Option.some.inj hn
      exact Nat.zero_le _
    | cons a l =>
      rw [walk] at hn hm
      split_ifs at hn hm with hwidth
      obtain ⟨rest, hrest, rfl⟩ := Option.map_eq_some_iff.mp hn
      obtain ⟨rest', hrest', rfl⟩ := Option.map_eq_some_iff.mp hm
      exact Nat.add_le_add_left (ih (Nat.le_of_succ_le_succ hle) hrest hrest') _

/-- A walk passes complete units, as many as asked for or all there are. -/
theorem units_of_walk {n reached : ℕ} {l : List α} (hwidth : ∀ a ∈ l, 0 < width a)
    (h : walk width n l = some reached) :
    ∃ (units : List (List α)) (rest : List α), (∀ u ∈ units, IsUnit width u) ∧
      l = units.flatten ++ rest ∧ reached = units.flatten.length ∧
      (units.length = n ∨ units.length ≤ n ∧ rest = []) := by
  induction n generalizing l reached with
  | zero =>
    obtain rfl := Option.some.inj h
    exact ⟨[], l, List.forall_mem_nil _, rfl, rfl, Or.inl rfl⟩
  | succ n ih =>
    cases l with
    | nil =>
      obtain rfl := Option.some.inj h
      exact ⟨[], [], List.forall_mem_nil _, rfl, rfl, Or.inr ⟨Nat.zero_le _, rfl⟩⟩
    | cons a l =>
      rw [walk] at h
      split_ifs at h with hle
      obtain ⟨more, hmore, rfl⟩ := Option.map_eq_some_iff.mp h
      obtain ⟨units, rest, hunits, hdrop, rfl, hcount⟩ :=
        ih (fun b hb => hwidth b (List.mem_of_mem_drop hb)) hmore
      have hpos := hwidth a List.mem_cons_self
      have hlength : ((a :: l).take (width a)).length = width a := List.length_take_of_le hle
      refine ⟨(a :: l).take (width a) :: units, rest, ?_, ?_, ?_, ?_⟩
      · refine List.forall_mem_cons.mpr ⟨⟨a, l.take (width a - 1), ?_, hlength.symm⟩, hunits⟩
        obtain ⟨w, hw⟩ : ∃ w, width a = w + 1 := ⟨width a - 1, by omega⟩
        rw [hw, List.take_succ_cons, Nat.add_sub_cancel]
      · rw [List.flatten_cons, List.append_assoc, ← hdrop, List.take_append_drop]
      · rw [List.flatten_cons, List.length_append, hlength]
      · rw [List.length_cons]
        rcases hcount with hcount | ⟨hcount, hrest⟩
        · exact Or.inl (congrArg (· + 1) hcount)
        · exact Or.inr ⟨Nat.succ_le_succ hcount, hrest⟩

/-- Complete units are walked through. -/
theorem walk_units {n : ℕ} {units : List (List α)} (rest : List α)
    (hunits : ∀ u ∈ units, IsUnit width u)
    (hcount : units.length = n ∨ units.length ≤ n ∧ rest = []) :
    walk width n (units.flatten ++ rest) = some units.flatten.length := by
  induction units generalizing n with
  | nil =>
    rcases hcount with rfl | ⟨-, rfl⟩
    · rfl
    · exact walk_nil n
  | cons u units ih =>
    obtain ⟨⟨a, l, rfl, hwidth⟩, hmore⟩ := List.forall_mem_cons.mp hunits
    rw [List.length_cons] at hcount
    obtain ⟨n, rfl⟩ : ∃ k, n = k + 1 := ⟨n - 1, by omega⟩
    have hrest := ih hmore (hcount.imp Nat.succ.inj (And.imp_left Nat.le_of_succ_le_succ))
    have hfits : width a ≤ (a :: (l ++ (units.flatten ++ rest))).length := by
      rw [hwidth, ← List.cons_append, List.length_append]
      exact Nat.le_add_right _ _
    rw [List.flatten_cons, List.append_assoc, List.cons_append, walk, if_pos hfits, hwidth,
      ← List.cons_append, List.drop_left, hrest, Option.map_some, List.length_append]

theorem walk_eq_some_iff {n reached : ℕ} {l : List α} (hwidth : ∀ a ∈ l, 0 < width a) :
    walk width n l = some reached ↔
      ∃ (units : List (List α)) (rest : List α), (∀ u ∈ units, IsUnit width u) ∧
        l = units.flatten ++ rest ∧ reached = units.flatten.length ∧
        (units.length = n ∨ units.length ≤ n ∧ rest = []) := by
  constructor
  · exact units_of_walk hwidth
  · rintro ⟨units, rest, hunits, rfl, rfl, hcount⟩
    exact walk_units rest hunits hcount

theorem length_le_length_flatten {units : List (List α)} (h : ∀ u ∈ units, IsUnit width u) :
    units.length ≤ units.flatten.length := by
  induction units with
  | nil => exact Nat.zero_le _
  | cons u units ih =>
    obtain ⟨⟨a, l, rfl, -⟩, hunits⟩ := List.forall_mem_cons.mp h
    have hle := ih hunits
    rw [List.flatten_cons, List.length_append, List.length_cons, List.length_cons]
    omega

/-- Every walk is inside exactly when the sequence consists of complete units. -/
theorem forall_walk_iff {l : List α} (hwidth : ∀ a ∈ l, 0 < width a) :
    (∀ n, ∃ reached, walk width n l = some reached) ↔
      ∃ units : List (List α), (∀ u ∈ units, IsUnit width u) ∧ l = units.flatten := by
  constructor
  · intro h
    obtain ⟨reached, hreached⟩ := h (l.length + 1)
    obtain ⟨units, rest, hunits, hl, -, hcount⟩ := units_of_walk hwidth hreached
    refine ⟨units, hunits, ?_⟩
    rcases hcount with hcount | ⟨-, rfl⟩
    · -- so many units do not fit
      have hle := length_le_length_flatten hunits
      have hlength := congrArg List.length hl
      rw [List.length_append] at hlength
      omega
    · rw [hl, List.append_nil]
  · rintro ⟨units, hunits, rfl⟩ n
    by_cases hn : units.length ≤ n
    · have hwalk := walk_units [] hunits (Or.inr ⟨hn, rfl⟩)
      rw [List.append_nil] at hwalk
      exact ⟨_, hwalk⟩
    · have htake : (units.take n).length = n := List.length_take_of_le (by omega)
      have hwalk := walk_units (units.drop n).flatten
        (fun u hu => hunits u (List.mem_of_mem_take hu)) (Or.inl htake)
      rw [← List.flatten_append, List.take_append_drop] at hwalk
      exact ⟨_, hwalk⟩

end Foundations
