import Mathlib.Data.List.Basic
import Mathlib.Tactic

/-!
# Decimal numerals as bytes

`digits n` is the decimal numeral of `n` in ASCII and `value` reads a run of digits back. A numeral
that is followed by something that is not a digit is cut off by `span` at its end.
-/

namespace Foundations.Decimal

/-- The ASCII digits. -/
def isDigit (b : UInt8) : Bool := 48 ≤ b && b ≤ 57

/-- The decimal numeral of a natural number. -/
def digits (n : ℕ) : List UInt8 := (Nat.toDigits 10 n).map fun c => UInt8.ofNat c.toNat

/-- The number that a run of digits denotes. -/
def value (ds : List UInt8) : ℕ := ds.foldl (fun n d => 10 * n + (d.toNat - 48)) 0

/-- Split the leading run of digits from the rest. -/
def span (l : List UInt8) : List UInt8 × List UInt8 := (l.takeWhile isDigit, l.dropWhile isDigit)

theorem digitChar_byte : ∀ d < 10, isDigit (UInt8.ofNat d.digitChar.toNat) = true ∧
    (UInt8.ofNat d.digitChar.toNat).toNat - 48 = d := by decide

/-- The last digit of a numeral and the numeral before it. -/
theorem digits_of_le {n : ℕ} (h : 10 ≤ n) :
    digits n = digits (n / 10) ++ [UInt8.ofNat (n % 10).digitChar.toNat] := by
  rw [digits, Nat.toDigits_of_base_le (by decide) h, List.map_append]
  rfl

theorem digits_of_lt {n : ℕ} (h : n < 10) : digits n = [UInt8.ofNat n.digitChar.toNat] := by
  rw [digits, Nat.toDigits_of_lt_base h]
  rfl

theorem isDigit_of_mem_digits (n : ℕ) : ∀ b ∈ digits n, isDigit b = true := by
  induction n using Nat.strong_induction_on with
  | _ n ih =>
    rcases lt_or_ge n 10 with h | h
    · rw [digits_of_lt h]
      simpa using (digitChar_byte n h).1
    · rw [digits_of_le h]
      intro b hb
      rcases List.mem_append.mp hb with hb | hb
      · exact ih (n / 10) (by omega) b hb
      · rw [List.mem_singleton.mp hb]
        exact (digitChar_byte (n % 10) (Nat.mod_lt n (by decide))).1

theorem digits_ne_nil (n : ℕ) : digits n ≠ [] := by
  rw [digits, Ne, List.map_eq_nil_iff]
  exact Nat.toDigits_ne_nil

/-- Reading a numeral back. -/
theorem value_digits (n : ℕ) : value (digits n) = n := by
  induction n using Nat.strong_induction_on with
  | _ n ih =>
    rcases lt_or_ge n 10 with h | h
    · rw [digits_of_lt h]
      simpa [value] using (digitChar_byte n h).2
    · have hlast := (digitChar_byte (n % 10) (Nat.mod_lt n (by decide))).2
      have hinit := ih (n / 10) (by omega)
      rw [value] at hinit
      rw [digits_of_le h, value, List.foldl_append, hinit, List.foldl_cons, List.foldl_nil, hlast]
      omega

theorem digits_injective : Function.Injective digits := fun m n h => by
  rw [← value_digits m, h, value_digits]

/-- A numeral of a number below `10 ^ k` has at most `k` digits. -/
theorem length_digits_le {n k : ℕ} (hk : 0 < k) (h : n < 10 ^ k) : (digits n).length ≤ k := by
  rw [digits, List.length_map]
  exact (Nat.length_toDigits_le_iff (by decide) hk).mpr h

/-- A run of digits followed by something that is not a digit is cut off at its end. -/
theorem span_append {ds rest : List UInt8} (hds : ∀ b ∈ ds, isDigit b = true)
    (h : ∀ b t, rest = b :: t → isDigit b = false) : span (ds ++ rest) = (ds, rest) := by
  have hrest : rest.takeWhile isDigit = [] ∧ rest.dropWhile isDigit = rest := by
    cases rest with
    | nil => exact ⟨rfl, rfl⟩
    | cons b t => simp [h b t rfl]
  rw [span, List.takeWhile_append_of_pos hds, List.dropWhile_append_of_pos hds, hrest.1, hrest.2,
    List.append_nil]

/-- A numeral followed by something that is not a digit is cut off at its end. -/
theorem span_digits_append (n : ℕ) {rest : List UInt8}
    (h : ∀ b t, rest = b :: t → isDigit b = false) :
    span (digits n ++ rest) = (digits n, rest) :=
  span_append (isDigit_of_mem_digits n) h

/-- The first byte of a numeral is a digit. -/
theorem digits_eq_cons (n : ℕ) : ∃ b t, digits n = b :: t ∧ isDigit b = true := by
  obtain ⟨b, t, h⟩ := List.exists_cons_of_ne_nil (digits_ne_nil n)
  exact ⟨b, t, h, isDigit_of_mem_digits n b (by rw [h]; exact List.mem_cons_self)⟩

end Foundations.Decimal
