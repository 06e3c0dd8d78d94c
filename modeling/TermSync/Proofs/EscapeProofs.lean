import TermSync.Line

/-!
# Proofs: escaped strings

`json_escape` writes a byte in one of three forms, and the loop of `parse_json_string_alloc` reads
each of them back as that byte. A quote inside an escaped string stands behind an odd number of
backslashes, so the first quote that ends the string is the one the encoder wrote behind it.
-/

namespace TermSync

/-! ## The forms of an escaped byte -/

/-- The three forms of an escaped byte. -/
theorem escapeByte_cases (c : UInt8) :
    (∃ e, escapeByte c = [92, e] ∧
      ((e = 34 ∧ c = 34) ∨ (e = 92 ∧ c = 92) ∨ (e = 110 ∧ c = 10) ∨ (e = 114 ∧ c = 13) ∨
        (e = 116 ∧ c = 9))) ∨
    (escapeByte c = 92 :: 117 :: formatHex4 c.toNat ∧ c.toNat < 32) ∨
    (escapeByte c = [c] ∧ c ≠ 34 ∧ c ≠ 92) := by
  unfold escapeByte
  split_ifs with h92 h34 h10 h13 h9 hlt
  · exact Or.inl ⟨92, by decide, by simp [h92]⟩
  · exact Or.inl ⟨34, by decide, by simp [h34]⟩
  · exact Or.inl ⟨110, by decide, by simp [h10]⟩
  · exact Or.inl ⟨114, by decide, by simp [h13]⟩
  · exact Or.inl ⟨116, by decide, by simp [h9]⟩
  · exact Or.inr (Or.inl ⟨rfl, UInt8.lt_iff_toNat_lt.mp hlt⟩)
  · exact Or.inr (Or.inr ⟨rfl, h34, h92⟩)

theorem hexDigit_props : ∀ d < 16, hexDigit d ≠ 34 ∧ hexDigit d ≠ 92 ∧
    hexValue (hexDigit d) = some d := by decide

theorem notMem_formatHex4 (n : ℕ) : ∀ b ∈ formatHex4 n, b ≠ 34 ∧ b ≠ 92 := by
  have hdigit : ∀ m, hexDigit (m % 16) ≠ 34 ∧ hexDigit (m % 16) ≠ 92 := fun m =>
    ⟨(hexDigit_props (m % 16) (Nat.mod_lt m (by decide))).1,
      (hexDigit_props (m % 16) (Nat.mod_lt m (by decide))).2.1⟩
  intro b hb
  simp only [formatHex4, List.mem_cons, List.not_mem_nil, or_false] at hb
  rcases hb with rfl | rfl | rfl | rfl <;> exact hdigit _

/-- An escaped byte other than the quote contains no quote. -/
theorem notMem_quote_escapeByte {c : UInt8} (hc : c ≠ 34) : ∀ b ∈ escapeByte c, b ≠ 34 := by
  rcases escapeByte_cases c with ⟨e, h, he⟩ | ⟨h, -⟩ | ⟨h, hne, -⟩
  · have hquote : e ≠ 34 := by
      rintro rfl
      rcases he with ⟨-, rfl⟩ | ⟨he, -⟩ | ⟨he, -⟩ | ⟨he, -⟩ | ⟨he, -⟩
      · exact hc rfl
      all_goals exact absurd he (by decide)
    rw [h]
    exact List.forall_mem_cons.mpr ⟨by decide, List.forall_mem_cons.mpr ⟨hquote, by simp⟩⟩
  · rw [h]
    exact List.forall_mem_cons.mpr ⟨by decide, List.forall_mem_cons.mpr ⟨by decide,
      fun b hb => (notMem_formatHex4 _ b hb).1⟩⟩
  · rw [h]
    exact List.forall_mem_cons.mpr ⟨hne, by simp⟩

/-- An escaped byte begins with a backslash or is the byte itself. -/
theorem escapeByte_eq_cons (c : UInt8) :
    (∃ t, escapeByte c = 92 :: t) ∨ (escapeByte c = [c] ∧ c ≠ 34 ∧ c ≠ 92) := by
  rcases escapeByte_cases c with ⟨e, h, -⟩ | ⟨h, -⟩ | h
  · exact Or.inl ⟨_, h⟩
  · exact Or.inl ⟨_, h⟩
  · exact Or.inr h

theorem jsonEscape_cons (c : UInt8) (v : Bytes) : jsonEscape (c :: v) = escapeByte c ++ jsonEscape v :=
  List.flatMap_cons

theorem le_of_mem_formatHex4 (n : ℕ) : ∀ b ∈ formatHex4 n, 32 ≤ b := by
  have hdigit : ∀ d < 16, 32 ≤ hexDigit d := by decide
  have hmod : ∀ m, 32 ≤ hexDigit (m % 16) := fun m => hdigit (m % 16) (Nat.mod_lt m (by decide))
  intro b hb
  simp only [formatHex4, List.mem_cons, List.not_mem_nil, or_false] at hb
  rcases hb with rfl | rfl | rfl | rfl <;> exact hmod _

/-- Escaping leaves no control byte. -/
theorem le_of_mem_escapeByte (c : UInt8) : ∀ b ∈ escapeByte c, 32 ≤ b := by
  unfold escapeByte
  split_ifs with h92 h34 h10 h13 h9 hlt
  · decide
  · decide
  · decide
  · decide
  · decide
  · intro b hb
    rcases List.mem_append.mp hb with hb | hb
    · exact (by decide : ∀ b ∈ bytes "\\u", 32 ≤ b) b hb
    · exact le_of_mem_formatHex4 _ b hb
  · intro b hb
    rw [List.mem_singleton.mp hb]
    exact UInt8.not_lt.mp hlt

theorem le_of_mem_jsonEscape (v : Bytes) : ∀ b ∈ jsonEscape v, 32 ≤ b := by
  intro b hb
  obtain ⟨c, -, hc⟩ := List.mem_flatMap.mp hb
  exact le_of_mem_escapeByte c b hc

/-! ## Reading a string back -/

theorem unicodeByte_escaped : ∀ n < 32, n ≠ 0 →
    unicodeByte (4096 * (n / 4096 % 16) + 256 * (n / 256 % 16) + 16 * (n / 16 % 16) + n % 16) =
      UInt8.ofNat n := by decide

theorem parseStringLoop_quote (sb rest : Bytes) :
    parseStringLoop sb (34 :: rest) = some (sb, rest) := by
  rw [parseStringLoop.eq_def]
  rfl

theorem parseStringLoop_escapeByte {c : UInt8} (hc : c ≠ 0) (sb rest : Bytes) :
    parseStringLoop sb (escapeByte c ++ rest) = parseStringLoop (sb ++ [c]) rest := by
  rcases escapeByte_cases c with ⟨e, h, he⟩ | ⟨h, hlt⟩ | ⟨h, h34, h92⟩
  · rw [h, List.cons_append, List.singleton_append, parseStringLoop.eq_def]
    rcases he with ⟨rfl, rfl⟩ | ⟨rfl, rfl⟩ | ⟨rfl, rfl⟩ | ⟨rfl, rfl⟩ | ⟨rfl, rfl⟩ <;> rfl
  · have hhex : ∀ m, hexValue (hexDigit (m % 16)) = some (m % 16) := fun m =>
      (hexDigit_props (m % 16) (Nat.mod_lt m (by decide))).2.2
    have hne : c.toNat ≠ 0 := fun h0 => hc (UInt8.toNat_inj.mp h0)
    have hcode := unicodeByte_escaped _ hlt hne
    rw [UInt8.ofNat_toNat] at hcode
    rw [h, formatHex4, parseStringLoop.eq_def]
    simp [hhex, hcode]
  · rw [h, List.singleton_append, parseStringLoop.eq_def]
    simp only [if_neg h34, if_neg h92]

theorem parseStringLoop_jsonEscape {v : Bytes} (hv : ∀ b ∈ v, b ≠ 0) (sb rest : Bytes) :
    parseStringLoop sb (jsonEscape v ++ 34 :: rest) = some (sb ++ v, rest) := by
  induction v generalizing sb with
  | nil => rw [jsonEscape, List.flatMap_nil, List.nil_append, parseStringLoop_quote, List.append_nil]
  | cons c v ih =>
    rw [jsonEscape_cons, List.append_assoc, parseStringLoop_escapeByte (hv c List.mem_cons_self),
      ih (fun b hb => hv b (List.mem_cons_of_mem c hb)), List.append_assoc, List.singleton_append]

/-! ## What a string can hold -/

/-- A restored byte is not zero. -/
theorem unicodeByte_ne_zero (code : ℕ) : unicodeByte code ≠ 0 := by
  unfold unicodeByte
  split_ifs with h
  · intro hzero
    have hnat := congrArg UInt8.toNat hzero
    rw [UInt8.toNat_ofNat_of_lt' (by simp [UInt8.size]; omega)] at hnat
    simp at hnat
    omega
  · decide

/-- The bytes of a string so far, when one more byte is restored from the text. -/
theorem restored_byte {sb value text rest : Bytes} {x : UInt8} (hsb : ∀ b ∈ sb, b ≠ 0) (hx : x ≠ 0)
    (hrest : rest.length < text.length)
    (ih : (∀ b ∈ sb ++ [x], b ≠ 0) → (∀ b ∈ value, b ≠ 0) ∧
      value.length ≤ (sb ++ [x]).length + rest.length) :
    (∀ b ∈ value, b ≠ 0) ∧ value.length ≤ sb.length + text.length := by
  obtain ⟨hnul, hlength⟩ := ih (List.forall_mem_append.mpr ⟨hsb, List.forall_mem_singleton.mpr hx⟩)
  rw [List.length_append, List.length_singleton] at hlength
  exact ⟨hnul, by omega⟩

/-- A string value is not longer than the text that it stands in, and has no terminator in it. -/
theorem parseStringLoop_ok {sb start value rest : Bytes}
    (h : parseStringLoop sb start = some (value, rest))
    (hsb : ∀ b ∈ sb, b ≠ 0) (hstart : ∀ b ∈ start, b ≠ 0) :
    (∀ b ∈ value, b ≠ 0) ∧ value.length ≤ sb.length + start.length := by
  fun_induction parseStringLoop sb start with
  | case2 sb start =>
    obtain rfl := (Prod.mk.inj (Option.some.inj h)).1
    exact ⟨hsb, Nat.le_add_right _ _⟩
  | case4 sb esc start hesc _ ih =>
    have hne : esc ≠ 0 := hstart esc (by simp)
    exact restored_byte hsb hne (by simp only [List.length_cons]; omega)
      fun hsb' => ih h hsb' fun b hb => hstart b (by simp [hb])
  | case5 | case6 | case7 =>
    rename_i ih
    exact restored_byte hsb (by decide) (by simp only [List.length_cons]; omega)
      fun hsb' => ih h hsb' fun b hb => hstart b (by simp [hb])
  | case8 =>
    rename_i ih
    exact restored_byte hsb (unicodeByte_ne_zero _) (by simp only [List.length_cons]; omega)
      fun hsb' => ih h hsb' fun b hb => hstart b (by simp [hb])
  | case12 sb ch start hquote hbackslash ih =>
    have hne : ch ≠ 0 := hstart ch List.mem_cons_self
    exact restored_byte hsb hne (by simp only [List.length_cons]; omega)
      fun hsb' => ih h hsb' fun b hb => hstart b (List.mem_cons_of_mem ch hb)
  | _ => cases h

/-! ## Quotes inside an escaped string -/

theorem backslashRun_concat (text : Bytes) (b : UInt8) :
    backslashRun (text ++ [b]) = if b = 92 then backslashRun text + 1 else 0 := by
  unfold backslashRun
  by_cases hb : b = 92
  · rw [List.rtakeWhile_concat_pos _ _ _ (by simpa using hb), List.length_append, if_pos hb]
    rfl
  · rw [List.rtakeWhile_concat_neg _ _ _ (by simpa using hb), if_neg hb]
    rfl

/-- An even run of backslashes in front does not change the parity of a run. -/
theorem odd_backslashRun_append {text : Bytes} (h : Even (backslashRun text)) (more : Bytes) :
    Odd (backslashRun (text ++ more)) ↔ Odd (backslashRun more) := by
  induction more using List.reverseRecOn with
  | nil =>
    rw [List.append_nil]
    exact iff_of_false (Nat.not_odd_iff_even.mpr h) (by decide)
  | append_singleton more b ih =>
    rw [← List.append_assoc, backslashRun_concat, backslashRun_concat]
    by_cases hb : b = 92
    · rw [if_pos hb, if_pos hb, Nat.odd_add_one, Nat.odd_add_one, ih]
    · rw [if_neg hb, if_neg hb]

theorem backslashRun_eq_zero {text : Bytes} (h : ∀ b ∈ text, b ≠ 92) : backslashRun text = 0 := by
  cases text using List.reverseRecOn with
  | nil => rfl
  | append_singleton text b => rw [backslashRun_concat, if_neg (h b (by simp))]

/-- The backslashes at the end of an escaped byte are those of an escaped backslash. -/
theorem even_backslashRun_escapeByte (c : UInt8) : Even (backslashRun (escapeByte c)) := by
  rcases escapeByte_cases c with ⟨e, h, he⟩ | ⟨h, -⟩ | ⟨h, -, h92⟩
  · rw [h]
    rcases he with ⟨rfl, -⟩ | ⟨rfl, -⟩ | ⟨rfl, -⟩ | ⟨rfl, -⟩ | ⟨rfl, -⟩ <;> decide
  · have hlast : hexDigit (c.toNat % 16) ≠ 92 :=
      (hexDigit_props (c.toNat % 16) (Nat.mod_lt _ (by decide))).2.1
    rw [h, formatHex4, ← List.dropLast_append_getLast (List.cons_ne_nil _ _), backslashRun_concat]
    simp [hlast]
  · rw [h, backslashRun_eq_zero (by simpa using h92)]
    decide

theorem escapeByte_eq_append_quote {c : UInt8} {pre post : Bytes}
    (h : escapeByte c = pre ++ 34 :: post) : pre = [92] := by
  obtain rfl : c = 34 := by
    by_contra hc
    exact notMem_quote_escapeByte hc 34 (by simp [h]) rfl
  rw [show escapeByte 34 = [92, 34] by decide] at h
  cases pre with
  | nil => exact absurd (List.cons.inj h).1 (by decide)
  | cons b pre =>
    obtain ⟨rfl, hrest⟩ := List.cons.inj h
    cases pre with
    | nil => rfl
    | cons d pre => simp at hrest

/-- A quote inside an escaped string stands behind an odd run of backslashes. -/
theorem odd_backslashRun_of_jsonEscape {v pre post : Bytes}
    (h : jsonEscape v = pre ++ 34 :: post) : Odd (backslashRun pre) := by
  induction v generalizing pre with
  | nil => simp [jsonEscape] at h
  | cons c v ih =>
    rw [jsonEscape_cons] at h
    rcases List.append_eq_append_iff.mp h with ⟨mid, hpre, hrest⟩ | ⟨mid, hbyte, hrest⟩
    · rw [hpre]
      exact (odd_backslashRun_append (even_backslashRun_escapeByte c) mid).mpr (ih hrest)
    · cases mid with
      | nil =>
        have hodd : Odd (backslashRun []) := ih hrest.symm
        exact absurd hodd (by decide)
      | cons b mid =>
        rw [List.cons_append, List.cons.injEq] at hrest
        rw [← hrest.1] at hbyte
        rw [escapeByte_eq_append_quote hbyte]
        decide

/-- A string is read back exactly, up to the quote that the encoder wrote behind it. -/
theorem parseJsonStringAlloc_jsonEscape (s r : Bytes) (hs : ∀ b ∈ s, b ≠ 0) :
    parseJsonStringAllocEnd (34 :: (jsonEscape s ++ 34 :: r)) = some (s, r) ∧
    10 ∉ jsonEscape s ∧
    ∀ pre post, jsonEscape s = pre ++ 34 :: post → Odd (backslashRun pre) := by
  refine ⟨?_, ?_, fun pre post h => odd_backslashRun_of_jsonEscape h⟩
  · have hparse := parseStringLoop_jsonEscape hs [] r
    rw [List.nil_append] at hparse
    exact hparse
  · intro h
    exact absurd (le_of_mem_jsonEscape s 10 h) (by decide)

theorem parseJsonStringAlloc_jsonEscape_controls :
    parseJsonStringAllocEnd
        (34 :: (jsonEscape [34, 92, 110, 10, 1, 228] ++ 34 :: bytes ",\"x\":1")) =
      some ([34, 92, 110, 10, 1, 228], bytes ",\"x\":1") ∧
    10 ∉ jsonEscape [34, 92, 110, 10, 1, 228] ∧
    ∀ pre post, jsonEscape [34, 92, 110, 10, 1, 228] = pre ++ 34 :: post →
      Odd (backslashRun pre) :=
  parseJsonStringAlloc_jsonEscape [34, 92, 110, 10, 1, 228] (bytes ",\"x\":1") (by decide)

end TermSync
