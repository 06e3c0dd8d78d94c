import TermSync.Proofs.CStringProofs
import TermSync.Proofs.UtilProofs
import TermSync.Reads

/-!
# Proofs: pointers into a string

A pointer into a string stands for the rest of the string (`PointsTo`). The scanners of the decoder,
apart from the one for string values, read a string from a pointer on up to its terminator at most;
they find what the scanners of the codec find in the rest of the string.
-/

namespace TermSync

open Foundations

/-! ## Pointers -/

@[simp] theorem charAt_cons_zero (b : UInt8) (text : Bytes) : charAt (b :: text) 0 = some b := by
  simp [charAt]

@[simp] theorem charAt_nil_zero : charAt [] 0 = some 0 := rfl

/-- The pointer `p` into the text stands for the C string `rest`. -/
def PointsTo (text : Bytes) (p : ℕ) (rest : Bytes) : Prop :=
  ∃ before, before.length = p ∧ text = before ++ rest

theorem pointsTo_zero (text : Bytes) : PointsTo text 0 text := ⟨[], rfl, rfl⟩

namespace PointsTo

variable {text rest : Bytes} {p : ℕ} {b : UInt8}

/-- A read relative to a pointer is a read of the string that it stands for. -/
theorem read_add (h : PointsTo text p rest) (n : ℕ) : charAt text (p + n) = charAt rest n := by
  obtain ⟨before, rfl, rfl⟩ := h
  simp only [charAt, List.length_append, Nat.add_lt_add_iff_left, Nat.add_right_inj]
  rw [List.getElem?_append_right (Nat.le_add_right _ _), Nat.add_sub_cancel_left]

theorem read (h : PointsTo text p rest) : charAt text p = charAt rest 0 := h.read_add 0

theorem add {skipped : Bytes} (h : PointsTo text p (skipped ++ rest)) :
    PointsTo text (p + skipped.length) rest := by
  obtain ⟨before, rfl, rfl⟩ := h
  exact ⟨before ++ skipped, List.length_append, (List.append_assoc _ _ _).symm⟩

theorem next (h : PointsTo text p (b :: rest)) : PointsTo text (p + 1) rest :=
  add (show PointsTo text p ([b] ++ rest) from h)

theorem length_eq (h : PointsTo text p rest) : p + rest.length = text.length := by
  obtain ⟨before, rfl, rfl⟩ := h
  rw [List.length_append]

theorem length_lt (h : PointsTo text p rest) : rest.length < text.length + 1 := by
  have := h.length_eq
  omega

theorem ne_zero (h : PointsTo text p rest) (htext : ∀ b ∈ text, b ≠ 0) : ∀ b ∈ rest, b ≠ 0 := by
  obtain ⟨before, -, rfl⟩ := h
  exact fun b hb => htext b (List.mem_append_right _ hb)

end PointsTo

section Scanners

variable {text rest : Bytes} {p : ℕ} (htext : ∀ b ∈ text, b ≠ 0)

include htext

/-! ## White space -/

theorem skipWsLoopAt_spec {rounds : ℕ} (h : PointsTo text p rest) (hrounds : rest.length < rounds) :
    ∃ q, skipWsLoopAt text rounds p = some q ∧ PointsTo text q (skipWs rest) := by
  induction rest generalizing p rounds with
  | nil =>
    obtain ⟨rounds, rfl⟩ := Nat.exists_eq_add_one_of_ne_zero (Nat.ne_zero_of_lt hrounds)
    refine ⟨p, ?_, h⟩
    rw [skipWsLoopAt, h.read]
    rfl
  | cons b rest ih =>
    obtain ⟨rounds, rfl⟩ := Nat.exists_eq_add_one_of_ne_zero (Nat.ne_zero_of_lt hrounds)
    have hb := h.ne_zero htext b List.mem_cons_self
    rw [skipWsLoopAt, h.read, charAt_cons_zero, Option.bind_eq_bind, Option.bind_some]
    by_cases hspace : isSpace b = true
    · obtain ⟨q, hq, hpoints⟩ := ih h.next (Nat.lt_of_succ_lt_succ hrounds)
      refine ⟨q, by rw [if_pos ⟨hb, hspace⟩, hq], ?_⟩
      rwa [skipWs, List.dropWhile_cons_of_pos hspace]
    · refine ⟨p, by rw [if_neg fun hand => hspace hand.2], ?_⟩
      rwa [skipWs, List.dropWhile_cons_of_neg hspace]

theorem skipWsAt_spec (h : PointsTo text p rest) :
    ∃ q, skipWsAt text p = some q ∧ PointsTo text q (skipWs rest) :=
  skipWsLoopAt_spec htext h h.length_lt

/-! ## Searching -/

omit htext in
/-- The comparison stops at the terminator, which is in no pattern. -/
theorem prefixAt_eq {pattern : Bytes} (hpattern : ∀ b ∈ pattern, b ≠ 0) (h : PointsTo text p rest) :
    prefixAt text pattern p = some (pattern.isPrefixOf rest) := by
  induction pattern generalizing p rest with
  | nil => rfl
  | cons b pattern ih =>
    obtain ⟨hb, hpattern⟩ := List.forall_mem_cons.mp hpattern
    rw [prefixAt, h.read]
    cases rest with
    | nil =>
      rw [charAt_nil_zero, Option.bind_eq_bind, Option.bind_some, if_neg (Ne.symm hb)]
      rfl
    | cons c rest =>
      rw [charAt_cons_zero, Option.bind_eq_bind, Option.bind_some, List.isPrefixOf]
      by_cases hc : c = b
      · rw [if_pos hc, ih hpattern h.next, hc, beq_self_eq_true, Bool.true_and]
      · rw [if_neg hc, beq_eq_false_iff_ne.mpr (Ne.symm hc), Bool.false_and]

theorem strstrLoopAt_spec {pattern : Bytes} {rounds : ℕ} (hpattern : ∀ b ∈ pattern, b ≠ 0)
    (h : PointsTo text p rest) (hrounds : rest.length < rounds) :
    ∃ r, strstrLoopAt text pattern rounds p = some r ∧
      Option.Rel (PointsTo text) r (strstr pattern rest) := by
  induction rest generalizing p rounds with
  | nil =>
    obtain ⟨rounds, rfl⟩ := Nat.exists_eq_add_one_of_ne_zero (Nat.ne_zero_of_lt hrounds)
    rw [strstrLoopAt, prefixAt_eq hpattern h, Option.bind_eq_bind, Option.bind_some, strstr, h.read]
    cases pattern with
    | nil => exact ⟨some p, rfl, .some h⟩
    | cons b pattern => exact ⟨none, rfl, .none⟩
  | cons b rest ih =>
    obtain ⟨rounds, rfl⟩ := Nat.exists_eq_add_one_of_ne_zero (Nat.ne_zero_of_lt hrounds)
    have hb := h.ne_zero htext b List.mem_cons_self
    rw [strstrLoopAt, prefixAt_eq hpattern h, Option.bind_eq_bind, Option.bind_some, strstr]
    by_cases hprefix : pattern.isPrefixOf (b :: rest) = true
    · rw [if_pos hprefix, if_pos hprefix]
      exact ⟨some p, rfl, .some h⟩
    · rw [if_neg hprefix, if_neg hprefix, h.read, charAt_cons_zero, Option.bind_eq_bind,
        Option.bind_some, if_neg hb]
      exact ih h.next (Nat.lt_of_succ_lt_succ hrounds)

theorem strstrAt_spec {pattern : Bytes} (hpattern : ∀ b ∈ pattern, b ≠ 0) (h : PointsTo text p rest) :
    ∃ r, strstrAt text pattern p = some r ∧ Option.Rel (PointsTo text) r (strstr pattern rest) :=
  strstrLoopAt_spec htext hpattern h h.length_lt

omit htext in
/-- What is found begins with the pattern. -/
theorem strstr_eq_some {pattern found : Bytes} (h : strstr pattern rest = some found) :
    ∃ after, found = pattern ++ after ∧ found.length ≤ rest.length := by
  induction rest with
  | nil =>
    rw [strstr] at h
    split_ifs at h with hpattern
    obtain rfl := Option.some.inj h
    exact ⟨[], by rw [hpattern]; rfl, le_rfl⟩
  | cons b rest ih =>
    rw [strstr] at h
    split_ifs at h with hprefix
    · obtain rfl := Option.some.inj h
      obtain ⟨after, hafter⟩ := List.isPrefixOf_iff_prefix.mp hprefix
      exact ⟨after, hafter.symm, le_rfl⟩
    · obtain ⟨after, hafter, hle⟩ := ih h
      exact ⟨after, hafter, hle.trans (Nat.le_succ _)⟩

theorem findKeyLoopAt_spec {pattern : Bytes} (hpattern : ∀ b ∈ pattern, b ≠ 0) (hne : pattern ≠ [])
    {rounds fuel : ℕ} (h : PointsTo text p rest) (hrounds : rest.length < rounds)
    (hfuel : rest.length < fuel) :
    ∃ r, findKeyLoopAt text pattern rounds p = some r ∧
      Option.Rel (PointsTo text) r (findKeyLoop pattern fuel rest) := by
  have hpos := List.length_pos_iff.mpr hne
  induction rounds generalizing p rest fuel with
  | zero => omega
  | succ rounds ih =>
    obtain ⟨fuel, rfl⟩ : ∃ k, fuel = k + 1 := ⟨fuel - 1, by omega⟩
    obtain ⟨r, hr, hrel⟩ := strstrAt_spec htext hpattern h
    rw [findKeyLoopAt, hr, Option.bind_eq_bind, Option.bind_some, findKeyLoop]
    cases hfound : strstr pattern rest with
    | none =>
      rw [hfound] at hrel
      cases hrel
      exact ⟨none, rfl, .none⟩
    | some found =>
      rw [hfound] at hrel
      cases hrel with
      | some hq =>
        obtain ⟨t, rfl, hle⟩ := strstr_eq_some hfound
        rw [List.length_append] at hle
        obtain ⟨after, hafter, hpoints⟩ := skipWsAt_spec htext hq.add
        simp only [hafter, Option.bind_eq_bind, Option.bind_some, List.drop_left, hpoints.read]
        have hrest := ih hq.add (by omega) (show t.length < fuel by omega)
        cases hskip : skipWs t with
        | nil => exact hrest
        | cons c value =>
          rw [hskip] at hpoints
          by_cases hc : c = 58
          · obtain ⟨v, hv, hvalue⟩ := skipWsAt_spec htext hpoints.next
            refine ⟨some v, by simp [hc, hv], ?_⟩
            simpa [hc] using Option.Rel.some hvalue
          · simpa [hc] using hrest

omit htext in
/-- The text that is looked for is not empty and has no NUL in it. -/
theorem keyPattern_props {key : Bytes} (hkey : ∀ b ∈ key, b ≠ 0) :
    (∀ b ∈ snprintf 96 (bytes "\"" ++ key ++ bytes "\""), b ≠ 0) ∧
      snprintf 96 (bytes "\"" ++ key ++ bytes "\"") ≠ [] := by
  rw [bytes_quote]
  constructor
  · intro b hb
    have hmem := List.mem_of_mem_take hb
    rw [List.mem_append, List.mem_append, List.mem_singleton] at hmem
    rcases hmem with (rfl | hmem) | rfl
    · decide
    · exact hkey b hmem
    · decide
  · rw [List.append_assoc, snprintf]
    exact List.cons_ne_nil _ _

/-- A key is not found by either search, or both find the same value. -/
theorem findKeyAt_cases {key : Bytes} (hkey : ∀ b ∈ key, b ≠ 0) (h : PointsTo text p rest) :
    (findKeyAt text p key = some none ∧ findKey rest key = none) ∨
      ∃ v value, findKeyAt text p key = some (some v) ∧ findKey rest key = some value ∧
        PointsTo text v value := by
  obtain ⟨hpattern, hne⟩ := keyPattern_props hkey
  obtain ⟨r, hr, hrel⟩ :=
    findKeyLoopAt_spec htext hpattern hne h h.length_lt (Nat.lt_succ_self rest.length)
  rw [findKeyAt, findKey, hr]
  generalize findKeyLoop _ (rest.length + 1) rest = found at hrel ⊢
  cases hrel with
  | none => exact Or.inl ⟨rfl, rfl⟩
  | some hvalue => exact Or.inr ⟨_, _, rfl, rfl, hvalue⟩

/-! ## Numbers -/

omit htext in
theorem digitsAt_eq {rounds : ℕ} (h : PointsTo text p rest) (hrounds : rest.length < rounds) :
    digitsAt text rounds p = some (rest.takeWhile Decimal.isDigit) := by
  induction rest generalizing p rounds with
  | nil =>
    obtain ⟨rounds, rfl⟩ := Nat.exists_eq_add_one_of_ne_zero (Nat.ne_zero_of_lt hrounds)
    rw [digitsAt, h.read]
    rfl
  | cons b rest ih =>
    obtain ⟨rounds, rfl⟩ := Nat.exists_eq_add_one_of_ne_zero (Nat.ne_zero_of_lt hrounds)
    rw [digitsAt, h.read, charAt_cons_zero, Option.bind_eq_bind, Option.bind_some]
    by_cases hb : Decimal.isDigit b = true
    · rw [if_pos hb, ih h.next (Nat.lt_of_succ_lt_succ hrounds), List.takeWhile_cons_of_pos hb]
      rfl
    · rw [if_neg hb, List.takeWhile_cons_of_neg hb]

/-- The number from a sign and a run of digits. -/
def signedValue (negative : Bool) (ds : Bytes) : Option ℤ :=
  if ds = [] then none
  else
    let parsed : ℤ := if negative then -(Decimal.value ds : ℤ) else Decimal.value ds
    if longMin ≤ parsed ∧ parsed ≤ longMax then some parsed else none

omit htext in
theorem strtol_eq {body : Bytes} (hbody : skipWs rest = body) :
    strtol rest = signedValue (body.head? = some 45)
      ((if body.head? = some 45 ∨ body.head? = some 43 then body.tail else body).takeWhile
        Decimal.isDigit) := by
  rw [skipWs] at hbody
  rw [strtol, scanNumber, hbody]
  simp only [Decimal.span, signedValue]
  cases (if body.head? = some 45 ∨ body.head? = some 43 then body.tail else body).takeWhile
    Decimal.isDigit with
  | nil => rfl
  | cons b ds => rfl

theorem strtolAt_eq (h : PointsTo text p rest) : strtolAt text p = some (strtol rest) := by
  obtain ⟨q, hq, hpoints⟩ := skipWsAt_spec htext h
  rw [strtolAt, hq, Option.bind_eq_bind, Option.bind_some, hpoints.read]
  cases hbody : skipWs rest with
  | nil =>
    rw [hbody] at hpoints
    rw [strtol_eq hbody, charAt_nil_zero, Option.bind_eq_bind, Option.bind_some,
      if_neg (by decide), digitsAt_eq hpoints hpoints.length_lt]
    rfl
  | cons c body =>
    rw [hbody] at hpoints
    have hdigits : digitsAt text (text.length + 1) (if c = 45 ∨ c = 43 then q + 1 else q) =
        some ((if c = 45 ∨ c = 43 then body else c :: body).takeWhile Decimal.isDigit) := by
      split_ifs
      · exact digitsAt_eq hpoints.next hpoints.next.length_lt
      · exact digitsAt_eq hpoints hpoints.length_lt
    rw [strtol_eq hbody, charAt_cons_zero, Option.bind_eq_bind, Option.bind_some, hdigits,
      Option.bind_eq_bind, Option.bind_some]
    simp only [List.head?_cons, Option.some.injEq, List.tail_cons, signedValue, decide_eq_true_eq]
    split_ifs <;> rfl

theorem jsonGetIntAt_eq {key : Bytes} (hkey : ∀ b ∈ key, b ≠ 0) (h : PointsTo text p rest) :
    jsonGetIntAt text p key = some (jsonGetInt rest key) := by
  rw [jsonGetIntAt, jsonGetInt]
  rcases findKeyAt_cases htext hkey h with ⟨hat, hkey⟩ | ⟨v, value, hat, hkey, hvalue⟩
  · rw [hat, hkey]
    rfl
  · rw [hat, hkey]
    exact congrArg (Option.map (Option.map toInt)) (strtolAt_eq htext hvalue)

/-! ## Objects -/

omit htext in
theorem memcpyAt_eq {len : ℕ} (h : PointsTo text p rest) (hlen : len ≤ rest.length) :
    memcpyAt text len p = some (rest.take len) := by
  induction len generalizing p rest with
  | zero => rfl
  | succ len ih =>
    cases rest with
    | nil => exact absurd hlen (Nat.not_succ_le_zero len)
    | cons b rest =>
      rw [memcpyAt, h.read, charAt_cons_zero, Option.bind_eq_bind, Option.bind_some,
        ih h.next (Nat.le_of_succ_le_succ hlen), List.take_succ_cons]
      rfl

/-- The scan ends at the closing brace: what it has passed is what has been copied. -/
theorem scanObjectAt_spec {rounds : ℕ} (inString escape : Bool) (depth : ℤ) (copied : Bytes)
    (h : PointsTo text p rest) (hrounds : rest.length < rounds) :
    ∃ r, scanObjectAt text rounds inString escape depth p = some r ∧
      scanObject inString escape depth copied rest =
        r.map (fun value => copied ++ rest.take (value - p + 1)) ∧
      ∀ value, r = some value → p ≤ value ∧ value < text.length := by
  induction rest generalizing p rounds inString escape depth copied with
  | nil =>
    obtain ⟨rounds, rfl⟩ := Nat.exists_eq_add_one_of_ne_zero (Nat.ne_zero_of_lt hrounds)
    refine ⟨none, ?_, rfl, fun value h => by cases h⟩
    rw [scanObjectAt, h.read]
    rfl
  | cons b rest ih =>
    obtain ⟨rounds, rfl⟩ := Nat.exists_eq_add_one_of_ne_zero (Nat.ne_zero_of_lt hrounds)
    have hb := h.ne_zero htext b List.mem_cons_self
    have hlength := h.length_eq
    rw [List.length_cons] at hlength
    -- the scan goes on behind this byte
    have hstep : ∀ (i e : Bool) (d : ℤ), ∃ r, scanObjectAt text rounds i e d (p + 1) = some r ∧
        scanObject i e d (copied ++ [b]) rest =
          r.map (fun value => copied ++ (b :: rest).take (value - p + 1)) ∧
        ∀ value, r = some value → p ≤ value ∧ value < text.length := by
      intro i e d
      obtain ⟨r, hr, hscan, hbounds⟩ :=
        ih i e d (copied ++ [b]) h.next (Nat.lt_of_succ_lt_succ hrounds)
      refine ⟨r, hr, ?_, fun value hvalue => ?_⟩
      · rw [hscan]
        cases r with
        | none => rfl
        | some value =>
          obtain ⟨hle, -⟩ := hbounds value rfl
          have hoffset : value - p = value - (p + 1) + 1 := by omega
          rw [Option.map_some, Option.map_some, hoffset, List.take_succ_cons, List.append_assoc,
            List.singleton_append]
      · obtain ⟨hle, hlt⟩ := hbounds value hvalue
        exact ⟨by omega, hlt⟩
    rw [scanObjectAt, h.read, charAt_cons_zero, Option.bind_eq_bind, Option.bind_some, if_neg hb,
      scanObject]
    split_ifs
    all_goals first | exact hstep _ _ _ | skip
    refine ⟨some p, rfl, ?_, fun value hvalue => ?_⟩
    · rw [Option.map_some, Nat.sub_self, Nat.zero_add, List.take_succ_cons, List.take_zero]
    · obtain rfl := Option.some.inj hvalue
      exact ⟨le_rfl, by omega⟩

theorem jsonGetObjectAt_eq {key : Bytes} (hkey : ∀ b ∈ key, b ≠ 0) (h : PointsTo text p rest) :
    jsonGetObjectAt text p key = some (jsonGetObject rest key) := by
  rw [jsonGetObjectAt, jsonGetObject]
  rcases findKeyAt_cases htext hkey h with ⟨hat, hkey⟩ | ⟨start, value, hat, hkey, hvalue⟩
  · rw [hat, hkey]
    rfl
  · rw [hat, hkey, Option.bind_eq_bind, Option.bind_some]
    simp only [hvalue.read, Option.bind_eq_bind]
    cases value with
    | nil => rfl
    | cons c value =>
      simp only [charAt_cons_zero, Option.bind_some, List.head?_cons, Option.some.injEq]
      by_cases hc : c = 123
      · obtain ⟨r, hr, hscan, hbounds⟩ :=
          scanObjectAt_spec htext false false 0 [] hvalue hvalue.length_lt
        rw [if_pos hc, if_pos hc, hr, Option.bind_some, hscan]
        cases r with
        | none => rfl
        | some stop =>
          obtain ⟨hle, hlt⟩ := hbounds stop rfl
          have hlength := hvalue.length_eq
          simp only [memcpyAt_eq hvalue (show stop - start + 1 ≤ (c :: value).length by omega),
            Option.map_some, List.nil_append]
      · rw [if_neg hc, if_neg hc]

/-- A copied object is a C string as well. -/
theorem jsonGetObject_ne_zero {key object : Bytes} (hkey : ∀ b ∈ key, b ≠ 0)
    (hobject : jsonGetObject text key = some object) : ∀ b ∈ object, b ≠ 0 := by
  rw [jsonGetObject] at hobject
  rcases findKeyAt_cases htext hkey (pointsTo_zero text) with ⟨-, hfind⟩ | ⟨v, value, -, hfind, hvalue⟩
  · rw [hfind] at hobject
    cases hobject
  · rw [hfind] at hobject
    simp only at hobject
    split_ifs at hobject
    obtain ⟨r, -, hscan, -⟩ := scanObjectAt_spec htext false false 0 [] hvalue hvalue.length_lt
    rw [hscan] at hobject
    obtain ⟨stop, -, rfl⟩ := Option.map_eq_some_iff.mp hobject
    exact fun b hb => hvalue.ne_zero htext b (List.mem_of_mem_take hb)

end Scanners

end TermSync
