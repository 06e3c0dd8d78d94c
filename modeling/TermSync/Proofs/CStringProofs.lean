import Mathlib.Data.List.TakeWhile
import TermSync.CString

/-!
# Proofs: printing and scanning numbers

A number that `%d` or `%zu` has printed is scanned back, with or without white space before it.
-/

namespace TermSync

open Foundations

theorem snprintf_snprintf (size : ℕ) (text : Bytes) :
    snprintf size (snprintf size text) = snprintf size text := by
  simp [snprintf]

/-- A text without a NUL is a C string as it stands. -/
theorem cString_eq_self {text : Bytes} (h : ∀ b ∈ text, b ≠ 0) : cString text = text := by
  rw [cString, List.takeWhile_eq_self_iff]
  exact fun b hb => decide_eq_true (h b hb)

theorem bytes_quote : bytes "\"" = [34] := by decide

theorem bytes_minus : bytes "-" = [45] := by decide

/-- A digit is neither white space nor a sign. -/
theorem isDigit_ne {b : UInt8} (h : Decimal.isDigit b = true) :
    isSpace b = false ∧ b ≠ 45 ∧ b ≠ 43 := by
  have hall : ∀ n < 10, isSpace (UInt8.ofNat (48 + n)) = false ∧ UInt8.ofNat (48 + n) ≠ 45 ∧
      UInt8.ofNat (48 + n) ≠ 43 := by decide
  simp only [Decimal.isDigit, Bool.and_eq_true, decide_eq_true_eq] at h
  have hlo : 48 ≤ b.toNat := UInt8.le_iff_toNat_le.mp h.1
  have hhi : b.toNat ≤ 57 := UInt8.le_iff_toNat_le.mp h.2
  have hb := hall (b.toNat - 48) (by omega)
  rwa [Nat.add_sub_cancel' hlo, UInt8.ofNat_toNat] at hb

/-- The text does not go on with a digit. -/
def NoDigit (rest : Bytes) : Prop := ∀ b t, rest = b :: t → Decimal.isDigit b = false

theorem noDigit_nil : NoDigit [] := fun _ _ h => by cases h

theorem noDigit_cons {b : UInt8} (hb : Decimal.isDigit b = false) (rest : Bytes) :
    NoDigit (b :: rest) := fun c t h => by
  rw [List.cons.injEq] at h
  rw [← h.1, hb]

theorem formatInt_of_nonneg {n : ℤ} (h : 0 ≤ n) : formatInt n = formatSize n.toNat := by
  rw [formatInt, if_neg (by omega), formatSize, ← Int.toNat_of_nonneg h]
  rfl

theorem formatSize_eq_formatInt (n : ℕ) : formatSize n = formatInt n := by
  rw [formatInt_of_nonneg (Int.natCast_nonneg n), Int.toNat_natCast]

theorem scanNumber_space (text : Bytes) : scanNumber (32 :: text) = scanNumber text := by
  simp [scanNumber, isSpace]

theorem scanNumber_formatSize (n : ℕ) {rest : Bytes} (hrest : NoDigit rest) :
    scanNumber (formatSize n ++ rest) = some (false, formatSize n, rest) := by
  obtain ⟨b, t, hbt, hb⟩ := Decimal.digits_eq_cons n
  obtain ⟨hspace, h45, h43⟩ := isDigit_ne hb
  have hspan := Decimal.span_digits_append n hrest
  rw [hbt, List.cons_append] at hspan
  simp [scanNumber, formatSize, hbt, hspace, h45, h43, hspan]

theorem scanNumber_formatInt (n : ℤ) {rest : Bytes} (hrest : NoDigit rest) :
    scanNumber (formatInt n ++ rest) =
      some (decide (n < 0), Decimal.digits n.natAbs, rest) := by
  by_cases hneg : n < 0
  · obtain ⟨b, t, hbt, hb⟩ := Decimal.digits_eq_cons n.natAbs
    have hspan := Decimal.span_digits_append n.natAbs hrest
    rw [hbt, List.cons_append] at hspan
    simp [scanNumber, formatInt, hneg, bytes_minus, hbt, hspan, isSpace]
  · have hnat : n.toNat = n.natAbs := by omega
    rw [formatInt_of_nonneg (by omega), scanNumber_formatSize _ hrest, decide_eq_false hneg,
      formatSize, hnat]

/-- The value that is scanned from a printed number. -/
theorem value_formatInt (n : ℤ) :
    (if decide (n < 0) = true then -(Decimal.value (Decimal.digits n.natAbs) : ℤ)
      else Decimal.value (Decimal.digits n.natAbs)) = n := by
  rw [Decimal.value_digits]
  by_cases hneg : n < 0
  · rw [if_pos (decide_eq_true hneg)]
    omega
  · rw [if_neg (by simpa using hneg)]
    omega

/-- The number can be told from what is printed, whatever follows it. -/
theorem formatInt_append_inj {n m : ℤ} {rest rest' : Bytes} (hrest : NoDigit rest)
    (hrest' : NoDigit rest') (h : formatInt n ++ rest = formatInt m ++ rest') : n = m := by
  have hn := scanNumber_formatInt n hrest
  rw [h, scanNumber_formatInt m hrest', Option.some.injEq, Prod.mk.injEq, Prod.mk.injEq] at hn
  obtain ⟨hsign, hdigits, -⟩ := hn
  rw [← value_formatInt n, ← value_formatInt m, hsign, hdigits]

theorem formatInt_injective : Function.Injective formatInt := fun n m h =>
  formatInt_append_inj noDigit_nil noDigit_nil (by rw [List.append_nil, List.append_nil, h])

theorem toInt_of_range {n : ℤ} (hmin : intMin ≤ n) (hmax : n ≤ intMax) : toInt n = n := by
  simp only [intMin, intMax] at hmin hmax
  simp only [toInt, Int.bmod]
  omega

theorem length_formatSize_le {n k : ℕ} (hk : 0 < k) (h : n < 10 ^ k) : (formatSize n).length ≤ k :=
  Decimal.length_digits_le hk h

theorem length_formatInt_le {n : ℤ} (hmin : intMin ≤ n) (hmax : n ≤ intMax) :
    (formatInt n).length ≤ 11 := by
  have hdigits : (Decimal.digits n.natAbs).length ≤ 10 := by
    refine Decimal.length_digits_le (by decide) ?_
    simp only [intMin, intMax] at hmin hmax
    omega
  have hminus : (bytes "-").length = 1 := by decide
  rw [formatInt]
  split_ifs
  · rw [List.length_append]
    omega
  · omega

end TermSync
