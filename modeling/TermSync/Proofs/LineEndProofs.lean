import TermSync.Proofs.FindKeyProofs

/-!
# Proofs: the newline at the end of a line

A line reaches the decoder without its newline. The decoder passes over the newline as it does over
other white space, so a line with it is decoded to the same message (`tsDecodeMessage_newline`).
-/

namespace TermSync

open Foundations

/-- The same text, perhaps with a newline at its end. -/
def SameLine (x y : Bytes) : Prop := y = x ∨ y = x ++ [10]

theorem SameLine.skipWs {x y : Bytes} (h : SameLine x y) : SameLine (skipWs x) (skipWs y) := by
  rcases h with rfl | rfl
  · exact Or.inl rfl
  · simp only [TermSync.skipWs, List.dropWhile_append]
    split_ifs with hempty
    · rw [List.isEmpty_iff.mp hempty]
      exact Or.inl (by decide)
    · exact Or.inr rfl

theorem SameLine.head? {x y : Bytes} (h : SameLine x y) {b : UInt8} (hb : b ≠ 10) :
    y.head? = some b ↔ x.head? = some b := by
  rcases h with rfl | rfl
  · rfl
  · cases x with
    | nil => simp [Ne.symm hb]
    | cons a x => rfl

theorem SameLine.drop {x y : Bytes} (h : SameLine x y) (n : ℕ) :
    SameLine (x.drop n) (y.drop n) := by
  rcases h with rfl | rfl
  · exact Or.inl rfl
  · rw [List.drop_append]
    by_cases hn : n ≤ x.length
    · rw [Nat.sub_eq_zero_of_le hn]
      exact Or.inr rfl
    · have hrest : ([10] : Bytes).drop (n - x.length) = [] :=
        List.drop_of_length_le (Nat.sub_pos_of_lt (not_le.mp hn))
      rw [hrest, List.append_nil]
      exact Or.inl rfl

theorem SameLine.tail {x y : Bytes} (h : SameLine x y) : SameLine x.tail y.tail := by
  rw [← List.drop_one, ← List.drop_one]
  exact h.drop 1

/-! ## Keys -/

theorem length_strstr_le {pattern x t : Bytes} (h : strstr pattern x = some t) :
    t.length ≤ x.length := by
  induction x with
  | nil =>
    rw [strstr] at h
    split_ifs at h
    rw [← Option.some.inj h]
  | cons b x ih =>
    rw [strstr] at h
    split_ifs at h
    · rw [← Option.some.inj h]
    · exact (ih h).trans (Nat.le_succ _)

theorem SameLine.strstr {pattern x y : Bytes} (hne : pattern ≠ []) (hline : 10 ∉ pattern)
    (h : SameLine x y) : Option.Rel SameLine (strstr pattern x) (strstr pattern y) := by
  rcases h with rfl | rfl
  · cases TermSync.strstr pattern y with
    | none => exact .none
    | some t => exact .some (Or.inl rfl)
  · induction x with
    | nil =>
      have hpre : pattern.isPrefixOf [10] = false := by
        cases pattern with
        | nil => exact absurd rfl hne
        | cons b pattern =>
          have hb : b ≠ 10 := fun hb => hline (hb ▸ List.mem_cons_self)
          simp [List.isPrefixOf, hb]
      simp only [List.nil_append, TermSync.strstr, hne, hpre, if_false, Bool.false_eq_true]
      exact .none
    | cons b x ih =>
      have hpre : pattern.isPrefixOf (b :: (x ++ [10])) = pattern.isPrefixOf (b :: x) := by
        rw [Bool.eq_iff_iff, List.isPrefixOf_iff_prefix, List.isPrefixOf_iff_prefix,
          ← List.cons_append, List.prefix_concat_iff]
        exact or_iff_right fun heq => hline (heq ▸ by simp)
      simp only [List.cons_append, TermSync.strstr, hpre]
      split_ifs
      · exact .some (Or.inr rfl)
      · exact ih

/-- The rounds of `find_key` find the same value. -/
theorem SameLine.findKeyLoop {pattern : Bytes} (hne : pattern ≠ []) (hline : 10 ∉ pattern) :
    ∀ {n m : ℕ} {x y : Bytes}, SameLine x y → x.length < n → y.length < m →
      Option.Rel SameLine (findKeyLoop pattern n x) (findKeyLoop pattern m y)
  | 0, _, _, _, _, hn, _ => absurd hn (Nat.not_lt_zero _)
  | _ + 1, 0, _, _, _, _, hm => absurd hm (Nat.not_lt_zero _)
  | n + 1, m + 1, x, y, h, hn, hm => by
    have hlength := List.length_pos_of_ne_nil hne
    have hrel := h.strstr hne hline
    simp only [TermSync.findKeyLoop]
    cases hx : TermSync.strstr pattern x with
    | none =>
      rw [hx] at hrel
      cases hy : TermSync.strstr pattern y with
      | none => exact .none
      | some t' => rw [hy] at hrel; cases hrel
    | some t =>
      rw [hx] at hrel
      cases hy : TermSync.strstr pattern y with
      | none => rw [hy] at hrel; cases hrel
      | some t' =>
        rw [hy] at hrel
        obtain ⟨htt⟩ := hrel
        have hdrop := htt.drop pattern.length
        have hafter := hdrop.skipWs
        by_cases hcolon : (TermSync.skipWs (t.drop pattern.length)).head? = some 58
        · simp only [hcolon, (hafter.head? (by decide)).mpr hcolon, if_true]
          exact .some hafter.tail.skipWs
        · have hcolon' := mt (hafter.head? (by decide)).mp hcolon
          simp only [hcolon, hcolon', if_false]
          have hpos : x ≠ [] := by
            rintro rfl
            simp [TermSync.strstr, hne] at hx
          have hpos' : y ≠ [] := by
            rintro rfl
            simp [TermSync.strstr, hne] at hy
          have := length_strstr_le hx
          have := length_strstr_le hy
          have := List.length_pos_of_ne_nil hpos
          have := List.length_pos_of_ne_nil hpos'
          have hn' : (t.drop pattern.length).length < n := by rw [List.length_drop]; omega
          have hm' : (t'.drop pattern.length).length < m := by rw [List.length_drop]; omega
          exact SameLine.findKeyLoop hne hline hdrop hn' hm'

theorem SameLine.findKey {x y : Bytes} (h : SameLine x y) (key : Key) :
    Option.Rel SameLine (findKey x key.name) (findKey y key.name) := by
  have hline : 10 ∉ key.pattern := by cases key <;> decide
  simp only [TermSync.findKey, key.snprintf_pattern]
  exact SameLine.findKeyLoop key.pattern_ne_nil hline h (Nat.lt_succ_self _) (Nat.lt_succ_self _)

/-! ## Values -/

theorem parseStringLoop_newline (sb x : Bytes) :
    (parseStringLoop sb (x ++ [10])).map Prod.fst = (parseStringLoop sb x).map Prod.fst := by
  fun_induction parseStringLoop sb x with
  | case1 sb => rfl
  | case12 sb ch start h34 h92 ih =>
    rw [List.cons_append, parseStringLoop.eq_def]
    simp only [h34, h92, if_false]
    exact ih
  | case10 sb start hshort =>
    -- the newline may stand for the fourth digit
    rw [List.cons_append, parseStringLoop.eq_def]
    rcases start with _ | ⟨c1, _ | ⟨c2, _ | ⟨c3, _ | ⟨c4, start⟩⟩⟩⟩
    · simp
    · simp
    · simp
    · simp [show hexValue 10 = none by decide]
    · exact absurd rfl (hshort c1 c2 c3 c4 start)
  | _ =>
    rw [List.cons_append, parseStringLoop.eq_def]
    simp_all

theorem SameLine.parseJsonStringAlloc {x y : Bytes} (h : SameLine x y) :
    parseJsonStringAlloc y = parseJsonStringAlloc x := by
  rcases h with rfl | rfl
  · rfl
  · cases x with
    | nil => rfl
    | cons b x =>
      simp only [List.cons_append, TermSync.parseJsonStringAlloc, parseJsonStringAllocEnd]
      split_ifs
      · exact parseStringLoop_newline [] x
      · rfl

theorem SameLine.span {x y : Bytes} (h : SameLine x y) :
    (Decimal.span y).1 = (Decimal.span x).1 := by
  rcases h with rfl | rfl
  · rfl
  · simp only [Decimal.span, List.takeWhile_append]
    split_ifs with hall
    · rw [List.takeWhile_cons_of_neg (by decide), List.append_nil]
      exact (List.takeWhile_prefix _).eq_of_length hall |>.symm
    · rfl

/-- Behind the white space and the sign. -/
def unsignedPart (text : Bytes) : Bytes :=
  if (skipWs text).head? = some 45 ∨ (skipWs text).head? = some 43 then (skipWs text).tail
  else skipWs text

theorem SameLine.unsignedPart {x y : Bytes} (h : SameLine x y) :
    SameLine (unsignedPart x) (unsignedPart y) := by
  have hbody := h.skipWs
  have hminus := hbody.head? (b := 45) (by decide)
  have hplus := hbody.head? (b := 43) (by decide)
  simp only [TermSync.unsignedPart, hminus, hplus]
  split_ifs
  · exact hbody.tail
  · exact hbody

theorem scanNumber_eq (text : Bytes) : scanNumber text =
    if (Decimal.span (unsignedPart text)).1 = [] then none
    else some (decide ((skipWs text).head? = some 45), Decimal.span (unsignedPart text)) := by
  have hskip : text.dropWhile isSpace = skipWs text := rfl
  unfold scanNumber
  simp only [hskip]
  rw [← unsignedPart]
  obtain ⟨ds, rest⟩ := Decimal.span (unsignedPart text)
  cases ds <;> simp

theorem SameLine.strtol {x y : Bytes} (h : SameLine x y) : strtol y = strtol x := by
  have hminus := h.skipWs.head? (b := 45) (by decide)
  have hdigits := h.unsignedPart.span
  simp only [TermSync.strtol, scanNumber_eq, hminus, hdigits]
  split_ifs
  · rfl
  · simp only [hdigits]

theorem SameLine.scanObject {x y : Bytes} (h : SameLine x y) (inString escape : Bool) (depth : ℤ)
    (copied : Bytes) : scanObject inString escape depth copied y =
      scanObject inString escape depth copied x := by
  rcases h with rfl | rfl
  · rfl
  · induction x generalizing inString escape depth copied with
    | nil => cases inString <;> cases escape <;> simp [TermSync.scanObject]
    | cons ch x ih => simp only [List.cons_append, TermSync.scanObject, ih]

/-! ## Messages -/

/-- What is read off the value of a key. -/
theorem bind_eq_of_rel {α : Type*} {R : Bytes → Bytes → Prop} {a b : Option Bytes}
    (h : Option.Rel R a b) {f : Bytes → Option α} (hf : ∀ x y, R x y → f y = f x) :
    b.bind f = a.bind f := by
  cases h with
  | none => rfl
  | some hxy => exact hf _ _ hxy

theorem SameLine.jsonGetContent {x y : Bytes} (h : SameLine x y) (key : Key) :
    jsonGetContent y key.name = jsonGetContent x key.name :=
  bind_eq_of_rel (h.findKey key) fun _ _ hxy => hxy.parseJsonStringAlloc

theorem SameLine.jsonGetString {x y : Bytes} (h : SameLine x y) (key : Key) (size : ℕ) :
    jsonGetString y key.name size = jsonGetString x key.name size := by
  rw [TermSync.jsonGetString, TermSync.jsonGetString, h.jsonGetContent]

theorem SameLine.jsonGetInt {x y : Bytes} (h : SameLine x y) (key : Key) :
    jsonGetInt y key.name = jsonGetInt x key.name := by
  rw [TermSync.jsonGetInt, TermSync.jsonGetInt,
    bind_eq_of_rel (h.findKey key) fun _ _ hxy => hxy.strtol]

theorem SameLine.jsonGetObject {x y : Bytes} (h : SameLine x y) (key : Key) :
    jsonGetObject y key.name = jsonGetObject x key.name := by
  have hbind : ∀ json, TermSync.jsonGetObject json key.name = (TermSync.findKey json key.name).bind
      fun value => if value.head? = some 123 then TermSync.scanObject false false 0 [] value
        else none := by
    intro json
    rw [TermSync.jsonGetObject]
    cases TermSync.findKey json key.name <;> rfl
  rw [hbind, hbind]
  refine bind_eq_of_rel (h.findKey key) fun value value' hvalue => ?_
  simp only [hvalue.head? (b := 123) (by decide), hvalue.scanObject]

/-- A newline at the end of a line changes nothing. -/
theorem tsDecodeMessage_newline (errorSize : ℕ) (line : Bytes) :
    tsDecodeMessage errorSize (line ++ [10]) = tsDecodeMessage errorSize line := by
  have h : SameLine (skipWs line) (skipWs (line ++ [10])) := SameLine.skipWs (Or.inr rfl)
  simp only [tsDecodeMessage, show bytes "type" = Key.type.name from rfl,
    show bytes "client_id" = Key.clientId.name from rfl,
    show bytes "op_id" = Key.opId.name from rfl, show bytes "message" = Key.message.name from rfl,
    show bytes "reason" = Key.reason.name from rfl,
    show bytes "base_version" = Key.baseVersion.name from rfl,
    show bytes "server_version" = Key.serverVersion.name from rfl,
    show bytes "version" = Key.version.name from rfl,
    show bytes "history_start_version" = Key.historyStartVersion.name from rfl,
    show bytes "content" = Key.content.name from rfl, show bytes "op" = Key.op.name from rfl,
    show bytes "original_op" = Key.originalOp.name from rfl, h.jsonGetString, h.jsonGetInt,
    h.jsonGetContent, h.jsonGetObject, h.head? (b := 123) (by decide), ne_eq]

end TermSync
