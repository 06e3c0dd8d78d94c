import Mathlib.Data.Finset.Card
import Mathlib.Tactic

/-!
# Counting up to a free name

A name for every number is tried, one number after the other, until a name is not taken. As long as
different numbers have different names, a list of taken names ends the search after at most one more
trial than the list is long (`firstFree_of_injOn`).
-/

namespace Foundations

variable {α : Type*}

/-- The first number from `n` on whose name is free, or `none` when so many trials do not find it. -/
def firstFree (taken : α → Bool) (name : ℕ → α) : ℕ → ℕ → Option ℕ
  | 0, _ => none
  | trials + 1, n => if taken (name n) then firstFree taken name trials (n + 1) else some n

section FirstFree

variable {taken : α → Bool} {name : ℕ → α}

/-- The search passes the names that are taken; further trials do not change what it finds. -/
theorem firstFree_eq_some {k trials : ℕ} (htrials : k < trials) (n : ℕ)
    (htaken : ∀ j < k, taken (name (n + j)) = true) (hfree : taken (name (n + k)) = false) :
    firstFree taken name trials n = some (n + k) := by
  induction k generalizing n trials with
  | zero =>
    obtain ⟨trials, rfl⟩ : ∃ t, trials = t + 1 := ⟨trials - 1, by omega⟩
    rw [firstFree, if_neg (by simpa using hfree), Nat.add_zero]
  | succ k ih =>
    obtain ⟨trials, rfl⟩ : ∃ t, trials = t + 1 := ⟨trials - 1, by omega⟩
    have hfirst := htaken 0 (Nat.succ_pos k)
    rw [Nat.add_zero] at hfirst
    have hlt : k < trials := Nat.lt_of_succ_lt_succ htrials
    have hrest := ih hlt (n + 1)
      (fun j hj => by rw [Nat.add_assoc, Nat.add_comm 1 j]; exact htaken (j + 1) (by omega))
      (by rw [Nat.add_assoc, Nat.add_comm 1 k]; exact hfree)
    rw [firstFree, if_pos hfirst, hrest, Nat.add_assoc, Nat.add_comm 1 k]

end FirstFree

variable [DecidableEq α]

/-- More different names than the list is long cannot all be in the list. -/
theorem exists_le_notMem {name : ℕ → α} (l : List α) (hname : Set.InjOn name (Set.Iic l.length)) :
    ∃ k ≤ l.length, name k ∉ l := by
  have hinj : Set.InjOn name (Finset.range (l.length + 1)) := by
    intro i hi j hj h
    rw [Finset.mem_coe, Finset.mem_range] at hi hj
    exact hname (Nat.le_of_lt_succ hi) (Nat.le_of_lt_succ hj) h
  have hcard : l.toFinset.card < ((Finset.range (l.length + 1)).image name).card := by
    rw [Finset.card_image_of_injOn hinj, Finset.card_range]
    exact Nat.lt_succ_of_le l.toFinset_card_le
  obtain ⟨a, ha, hfree⟩ := Finset.exists_mem_notMem_of_card_lt_card hcard
  obtain ⟨k, hk, rfl⟩ := Finset.mem_image.mp ha
  refine ⟨k, Nat.le_of_lt_succ (Finset.mem_range.mp hk), fun hmem => hfree ?_⟩
  exact List.mem_toFinset.mpr hmem

/-- The search for a name outside of a list ends after at most one more trial than the list is long,
and what it finds does not depend on how many more trials it would be allowed. -/
theorem firstFree_of_injOn {taken : α → Bool} {name : ℕ → α} {l : List α}
    (htaken : ∀ a, taken a = true ↔ a ∈ l) (hname : Set.InjOn name (Set.Iic l.length)) :
    ∃ k ≤ l.length, name k ∉ l ∧
      ∀ trials, k < trials → firstFree taken name trials 0 = some k := by
  have hex := exists_le_notMem l hname
  obtain ⟨hle, hfree⟩ := Nat.find_spec hex
  refine ⟨Nat.find hex, hle, hfree, fun trials htrials => ?_⟩
  have hpassed : ∀ j < Nat.find hex, taken (name (0 + j)) = true := by
    intro j hj
    have hnot := Nat.find_min hex hj
    rw [Nat.zero_add, htaken]
    by_contra hmem
    exact hnot ⟨by omega, hmem⟩
  have hlast : taken (name (0 + Nat.find hex)) = false := by
    rw [Nat.zero_add, Bool.eq_false_iff]
    exact fun h => hfree ((htaken _).mp h)
  have hfirst := firstFree_eq_some htrials 0 hpassed hlast
  rwa [Nat.zero_add] at hfirst

end Foundations
