import TermSync.Proofs.DecodeProofs
import TermSync.Proofs.PointerProofs

/-!
# Proofs: the reads of the decoder

All digits of a `\u` escape are read at once, so a string value that is cut off there is read past its
terminator (`CutShort`). This is the only such place: with its pointers, the decoder computes what the
decoder of the codec computes, exactly when no value that it parses is cut short
(`tsDecodeMessageAt_eq`).
-/

namespace TermSync

open Foundations

/-! ## Values that are cut short -/

/-- The check of a value behind its opening quote. -/
def cutEscape : Bytes → Bool
  | [] => false
  | ch :: rest =>
    if ch = 34 then false
    else if ch = 92 then
      match rest with
      | [] => false
      | esc :: rest =>
        if esc = 34 ∨ esc = 92 ∨ esc = 47 ∨ esc = 110 ∨ esc = 114 ∨ esc = 116 then cutEscape rest
        else if esc = 117 then
          match rest with
          | c1 :: c2 :: c3 :: c4 :: rest =>
            (hexValue c1).isSome && (hexValue c2).isSome && (hexValue c3).isSome &&
              (hexValue c4).isSome && cutEscape rest
          | tail => tail.length < 3
        else false
    else cutEscape rest

theorem cutEscape_byte {b : UInt8} (hquote : b ≠ 34) (hbackslash : b ≠ 92) (rest : Bytes) :
    cutEscape (b :: rest) = cutEscape rest := by
  rw [cutEscape.eq_def]
  simp only [if_neg hquote, if_neg hbackslash]

theorem cutEscape_escape {e : UInt8} (he : SimpleEscape e) (rest : Bytes) :
    cutEscape (92 :: e :: rest) = cutEscape rest := by
  rw [cutEscape.eq_def]
  exact if_pos he

theorem cutEscape_unicode (c1 c2 c3 c4 : UInt8) (rest : Bytes) :
    cutEscape (92 :: 117 :: c1 :: c2 :: c3 :: c4 :: rest) =
      ((hexValue c1).isSome && (hexValue c2).isSome && (hexValue c3).isSome &&
        (hexValue c4).isSome && cutEscape rest) := by
  rw [cutEscape.eq_def]
  rfl

theorem cutEscape_tail {tail : Bytes} (h : tail.length < 4) :
    cutEscape (92 :: 117 :: tail) = decide (tail.length < 3) := by
  match tail, h with
  | [], _ => rfl
  | [_], _ => rfl
  | [_, _], _ => rfl
  | [_, _, _], _ => rfl

theorem length_lt_four {tail : Bytes}
    (h : ∀ c1 c2 c3 c4 rest, tail = c1 :: c2 :: c3 :: c4 :: rest → False) : tail.length < 4 := by
  match tail, h with
  | [], _ => simp
  | [_], _ => simp
  | [_, _], _ => simp
  | [_, _, _], _ => simp
  | c1 :: c2 :: c3 :: c4 :: rest, h => exact absurd rfl (h c1 c2 c3 c4 rest)

theorem cutEscape_append {piece : Bytes} (h : StringPiece piece) (rest : Bytes) :
    cutEscape (piece ++ rest) = cutEscape rest := by
  cases h with
  | byte hquote hbackslash => exact cutEscape_byte hquote hbackslash rest
  | escape he => exact cutEscape_escape he rest
  | unicode h1 h2 h3 h4 =>
    simp only [List.cons_append, List.nil_append, cutEscape_unicode, h1, h2, h3, h4, Bool.true_and]

theorem RunsIntoCut.append {piece rest : Bytes} (hpiece : StringPiece piece)
    (h : RunsIntoCut rest) : RunsIntoCut (piece ++ rest) := by
  obtain ⟨pieces, tail, hpieces, rfl, htail⟩ := h
  refine ⟨piece :: pieces, tail, List.forall_mem_cons.mpr ⟨hpiece, hpieces⟩, ?_, htail⟩
  rw [List.flatten_cons, List.append_assoc]

theorem cutEscape_iff {rest : Bytes} : cutEscape rest = true ↔ RunsIntoCut rest := by
  constructor
  · intro h
    induction rest using cutEscape.induct with
    | case1 => cases h
    | case2 rest =>
      rw [cutEscape.eq_def] at h
      cases h
    | case3 => cases h
    | case4 e rest he _ ih =>
      rw [cutEscape_escape he] at h
      exact (ih h).append (.escape he)
    | case5 c1 c2 c3 c4 rest _ _ ih =>
      simp only [cutEscape_unicode, Bool.and_eq_true] at h
      obtain ⟨⟨⟨⟨h1, h2⟩, h3⟩, h4⟩, hrest⟩ := h
      exact (ih hrest).append (.unicode h1 h2 h3 h4)
    | case6 tail htail =>
      rw [cutEscape_tail (length_lt_four htail), decide_eq_true_eq] at h
      exact ⟨[], tail, List.forall_mem_nil _, rfl, h⟩
    | case7 e rest he hu _ =>
      rw [cutEscape.eq_def] at h
      simp only [if_neg he, if_neg hu] at h
      cases h
    | case8 b rest hquote hbackslash ih =>
      rw [cutEscape_byte hquote hbackslash] at h
      exact (ih h).append (.byte hquote hbackslash)
  · rintro ⟨pieces, tail, hpieces, rfl, htail⟩
    induction pieces with
    | nil =>
      rw [List.flatten_nil, List.nil_append, cutEscape_tail (by omega)]
      exact decide_eq_true htail
    | cons piece pieces ih =>
      obtain ⟨hpiece, hpieces⟩ := List.forall_mem_cons.mp hpieces
      rw [List.flatten_cons, List.append_assoc, cutEscape_append hpiece]
      exact ih hpieces

theorem cutShort_cons {rest : Bytes} : CutShort (34 :: rest) ↔ RunsIntoCut rest := by
  constructor
  · rintro ⟨rest', heq, h⟩
    rwa [(List.cons.inj heq).2]
  · exact fun h => ⟨rest, rfl, h⟩

theorem not_cutShort_of_ne {b : UInt8} (hb : b ≠ 34) (rest : Bytes) : ¬ CutShort (b :: rest) := by
  rintro ⟨rest', heq, -⟩
  exact hb (List.cons.inj heq).1

theorem not_cutShort_nil : ¬ CutShort [] := by
  rintro ⟨rest, heq, -⟩
  cases heq

instance decidableCutShort : (value : Bytes) → Decidable (CutShort value)
  | [] => isFalse not_cutShort_nil
  | b :: rest =>
    if hb : b = 34 then
      decidable_of_iff (cutEscape rest = true) (by rw [hb, cutShort_cons, cutEscape_iff])
    else isFalse (not_cutShort_of_ne hb rest)

/-! ## Results that need every parsed value to be complete -/

/-- The result, unless one of the values is cut short. -/
def unlessCut {α : Type*} (values : List Bytes) (a : α) : Option α :=
  if ∀ value ∈ values, ¬ CutShort value then some a else none

theorem unlessCut_eq_some_iff {α : Type*} {values : List Bytes} {a r : α} :
    unlessCut values a = some r ↔ (∀ value ∈ values, ¬ CutShort value) ∧ a = r := by
  simp [unlessCut]

theorem unlessCut_singleton {α : Type*} (value : Bytes) (a : α) :
    unlessCut [value] a = if CutShort value then none else some a := by
  by_cases h : CutShort value <;> simp [unlessCut, h]

theorem unlessCut_map {α β : Type*} (values : List Bytes) (a : α) (f : α → β) :
    (unlessCut values a).map f = unlessCut values (f a) := by
  rw [unlessCut, unlessCut]
  split_ifs <;> rfl

/-- One part of the decoder after the other. -/
theorem unlessCut_bind {α β : Type} {values more : List Bytes} {a : α} {b : β} {f : α → Option β}
    (h : f a = unlessCut more b) : (unlessCut values a >>= f) = unlessCut (values ++ more) b := by
  simp only [unlessCut, List.forall_mem_append, Option.bind_eq_bind]
  by_cases hvalues : ∀ value ∈ values, ¬ CutShort value
  · rw [if_pos hvalues, Option.bind_some, h, unlessCut]
    simp only [and_iff_right hvalues]
  · rw [if_neg hvalues, if_neg fun hand => hvalues hand.1]
    rfl

/-- The last part of the decoder, which parses no value. -/
theorem unlessCut_bind_some {α β : Type} {values : List Bytes} {a : α} {b : β} {f : α → Option β}
    (h : f a = some b) : (unlessCut values a).bind f = unlessCut values b := by
  have hbind : (unlessCut values a >>= f) = unlessCut (values ++ []) b := unlessCut_bind h
  rwa [List.append_nil] at hbind

/-! ## Strings -/

theorem parseStringLoop_unicode (sb : Bytes) (c1 c2 c3 c4 : UInt8) (rest : Bytes) :
    parseStringLoop sb (92 :: 117 :: c1 :: c2 :: c3 :: c4 :: rest) =
      match hexValue c1, hexValue c2, hexValue c3, hexValue c4 with
      | some h1, some h2, some h3, some h4 =>
        parseStringLoop (sb ++ [unicodeByte (4096 * h1 + 256 * h2 + 16 * h3 + h4)]) rest
      | _, _, _, _ => none := by
  rw [parseStringLoop.eq_def]
  rfl

theorem parseStringLoop_byte {b : UInt8} (hquote : b ≠ 34) (hbackslash : b ≠ 92)
    (sb rest : Bytes) : parseStringLoop sb (b :: rest) = parseStringLoop (sb ++ [b]) rest := by
  rw [parseStringLoop.eq_def]
  exact (if_neg hquote).trans (if_neg hbackslash)

section Strings

variable {text rest : Bytes} {p rounds : ℕ}

/-- One round on a byte that is neither the terminator nor a quote nor a backslash. -/
theorem parseStringLoopAt_byte {b : UInt8} (hb : b ≠ 0) (hquote : b ≠ 34) (hbackslash : b ≠ 92)
    (sb : Bytes) (h : PointsTo text p (b :: rest)) :
    parseStringLoopAt text (rounds + 1) sb p =
      parseStringLoopAt text rounds (sb ++ [b]) (p + 1) := by
  rw [parseStringLoopAt, h.read]
  exact (if_neg hb).trans ((if_neg hquote).trans (if_neg hbackslash))

/-- One round on a `\u`: four bytes are read. -/
theorem parseStringLoopAt_unicode {tail : Bytes} (sb : Bytes)
    (h : PointsTo text p (92 :: 117 :: tail)) :
    parseStringLoopAt text (rounds + 1) sb p = (do
      let c1 ← charAt tail 0
      let c2 ← charAt tail 1
      let c3 ← charAt tail 2
      let c4 ← charAt tail 3
      match hexValue c1, hexValue c2, hexValue c3, hexValue c4 with
      | some h1, some h2, some h3, some h4 =>
        parseStringLoopAt text rounds
          (sb ++ [unicodeByte (4096 * h1 + 256 * h2 + 16 * h3 + h4)]) (p + 6)
      | _, _, _, _ => some none) := by
  have htail : PointsTo text (p + 2) tail := h.next.next
  rw [← htail.read_add 0, ← htail.read_add 1, ← htail.read_add 2, ← htail.read_add 3,
    parseStringLoopAt, h.read, h.read_add 1]
  rfl

/-- An unknown escape ends both loops. -/
theorem parseStringLoopAt_unknown {e : UInt8} (he : ¬ SimpleEscape e) (hu : e ≠ 117) (sb : Bytes)
    (h : PointsTo text p (92 :: e :: rest)) :
    parseStringLoopAt text (rounds + 1) sb p = some none ∧
      parseStringLoop sb (92 :: e :: rest) = none ∧ cutEscape (92 :: e :: rest) = false := by
  have hcut : cutEscape (92 :: e :: rest) = false := by
    rw [cutEscape.eq_def]
    exact (if_neg he).trans (if_neg hu)
  simp only [SimpleEscape, not_or] at he
  obtain ⟨h34, h92, h47, h110, h114, h116⟩ := he
  have hself : ¬ (e = 34 ∨ e = 92 ∨ e = 47) := by
    rintro (heq | heq | heq)
    · exact h34 heq
    · exact h92 heq
    · exact h47 heq
  refine ⟨?_, ?_, hcut⟩
  · rw [parseStringLoopAt, h.read, h.read_add 1]
    exact (if_neg hself).trans ((if_neg h110).trans ((if_neg h114).trans
      ((if_neg h116).trans (if_neg hu))))
  · rw [parseStringLoop.eq_def]
    exact (if_neg hself).trans ((if_neg h110).trans ((if_neg h114).trans
      ((if_neg h116).trans (if_neg hu))))

/-- With fewer than four bytes behind the `u`, the loop reads behind the terminator, or it reads the
terminator as the last digit. -/
theorem parseStringLoopAt_cut {tail : Bytes} (htail : tail.length < 4) (sb : Bytes)
    (h : PointsTo text p (92 :: 117 :: tail)) :
    parseStringLoopAt text (rounds + 1) sb p = if tail.length < 3 then none else some none := by
  rw [parseStringLoopAt_unicode sb h]
  match tail, htail with
  | [], _ => rfl
  | [_], _ => rfl
  | [_, _], _ => rfl
  | [c1, c2, c3], _ =>
    have hzero : hexValue 0 = none := by decide
    simp only [charAt, List.length_cons, List.length_nil, Nat.reduceAdd, Nat.reduceLT, if_true,
      if_false, List.getElem?_cons_zero, List.getElem?_cons_succ, Option.bind_eq_bind,
      Option.bind_some, hzero]
    cases hexValue c1 <;> cases hexValue c2 <;> cases hexValue c3 <;> rfl

/-- The loop reads behind the terminator exactly when it runs into a cut-off escape. -/
theorem parseStringLoopAt_eq (htext : ∀ b ∈ text, b ≠ 0) (sb : Bytes) (h : PointsTo text p rest)
    (hrounds : rest.length < rounds) :
    parseStringLoopAt text rounds sb p =
      if cutEscape rest then none else some ((parseStringLoop sb rest).map Prod.fst) := by
  induction rest using cutEscape.induct generalizing p rounds sb with
  | case1 =>
    obtain ⟨rounds, rfl⟩ := Nat.exists_eq_add_one_of_ne_zero (Nat.ne_zero_of_lt hrounds)
    rw [parseStringLoopAt, h.read]
    rfl
  | case2 rest =>
    obtain ⟨rounds, rfl⟩ := Nat.exists_eq_add_one_of_ne_zero (Nat.ne_zero_of_lt hrounds)
    rw [parseStringLoopAt, h.read, parseStringLoop.eq_def, cutEscape.eq_def]
    rfl
  | case3 =>
    obtain ⟨rounds, rfl⟩ := Nat.exists_eq_add_one_of_ne_zero (Nat.ne_zero_of_lt hrounds)
    rw [parseStringLoopAt, h.read, h.read_add 1]
    rfl
  | case4 e rest he _ ih =>
    obtain ⟨rounds, rfl⟩ := Nat.exists_eq_add_one_of_ne_zero (Nat.ne_zero_of_lt hrounds)
    have hrest : ∀ sb, parseStringLoopAt text rounds sb (p + 2) =
        if cutEscape rest then none else some ((parseStringLoop sb rest).map Prod.fst) := fun sb =>
      ih sb h.next.next (by rw [List.length_cons, List.length_cons] at hrounds; omega)
    rw [parseStringLoopAt, h.read, h.read_add 1, cutEscape_escape he, parseStringLoop.eq_def]
    rcases he with rfl | rfl | rfl | rfl | rfl | rfl
    all_goals exact hrest _
  | case5 c1 c2 c3 c4 rest _ _ ih =>
    obtain ⟨rounds, rfl⟩ := Nat.exists_eq_add_one_of_ne_zero (Nat.ne_zero_of_lt hrounds)
    have hpoints : PointsTo text (p + 6) rest := h.next.next.next.next.next.next
    have hrest : ∀ sb, parseStringLoopAt text rounds sb (p + 6) =
        if cutEscape rest then none else some ((parseStringLoop sb rest).map Prod.fst) := fun sb =>
      ih sb hpoints (by simp only [List.length_cons] at hrounds; omega)
    rw [parseStringLoopAt_unicode sb h, cutEscape_unicode, parseStringLoop_unicode]
    change (match hexValue c1, hexValue c2, hexValue c3, hexValue c4 with
      | some h1, some h2, some h3, some h4 => parseStringLoopAt text rounds
          (sb ++ [unicodeByte (4096 * h1 + 256 * h2 + 16 * h3 + h4)]) (p + 6)
      | _, _, _, _ => some none) = _
    cases hexValue c1 with
    | none => rfl
    | some h1 =>
      cases hexValue c2 with
      | none => rfl
      | some h2 =>
        cases hexValue c3 with
        | none => rfl
        | some h3 =>
          cases hexValue c4 with
          | none => rfl
          | some h4 => exact hrest _
  | case6 tail htail =>
    obtain ⟨rounds, rfl⟩ := Nat.exists_eq_add_one_of_ne_zero (Nat.ne_zero_of_lt hrounds)
    have hlength := length_lt_four htail
    rw [parseStringLoopAt_cut hlength sb h, cutEscape_tail hlength]
    match tail, hlength with
    | [], _ => rfl
    | [_], _ => rfl
    | [_, _], _ => rfl
    | [_, _, _], _ => rfl
  | case7 e rest he hu _ =>
    obtain ⟨rounds, rfl⟩ := Nat.exists_eq_add_one_of_ne_zero (Nat.ne_zero_of_lt hrounds)
    obtain ⟨hat, hnone, hcut⟩ := parseStringLoopAt_unknown he hu sb h
    rw [hat, hnone, hcut]
    rfl
  | case8 b rest hquote hbackslash ih =>
    obtain ⟨rounds, rfl⟩ := Nat.exists_eq_add_one_of_ne_zero (Nat.ne_zero_of_lt hrounds)
    have hb := h.ne_zero htext b List.mem_cons_self
    rw [parseStringLoopAt_byte hb hquote hbackslash sb h, cutEscape_byte hquote hbackslash,
      parseStringLoop_byte hquote hbackslash]
    exact ih _ h.next (Nat.lt_of_succ_lt_succ hrounds)

variable (htext : ∀ b ∈ text, b ≠ 0)

include htext

theorem parseJsonStringAllocAt_eq (h : PointsTo text p rest) :
    parseJsonStringAllocAt text p = unlessCut [rest] (parseJsonStringAlloc rest) := by
  rw [parseJsonStringAllocAt, h.read, unlessCut_singleton]
  cases rest with
  | nil =>
    rw [if_neg not_cutShort_nil]
    rfl
  | cons b rest =>
    rw [charAt_cons_zero, Option.bind_eq_bind, Option.bind_some, parseJsonStringAlloc,
      parseJsonStringAllocEnd]
    by_cases hb : b = 34
    · rw [if_pos hb, if_pos hb, hb, parseStringLoopAt_eq htext [] h.next h.next.length_lt]
      by_cases hcut : cutEscape rest = true
      · rw [if_pos hcut, if_pos (cutShort_cons.mpr (cutEscape_iff.mp hcut))]
      · rw [if_neg hcut, if_neg fun h => hcut (cutEscape_iff.mpr (cutShort_cons.mp h))]
    · rw [if_neg hb, if_neg hb, if_neg (not_cutShort_of_ne hb rest)]
      rfl

/-! ## Fields -/

variable {json key : Bytes} (hkey : ∀ b ∈ key, b ≠ 0) (h : PointsTo text p json)

include hkey h

theorem jsonGetContentAt_eq :
    jsonGetContentAt text p key = unlessCut (valueOf json key) (jsonGetContent json key) := by
  rw [jsonGetContentAt, jsonGetContent, valueOf]
  rcases findKeyAt_cases htext hkey h with ⟨hat, hfind⟩ | ⟨v, value, hat, hfind, hvalue⟩
  · rw [hat, hfind]
    rfl
  · rw [hat, hfind, Option.bind_eq_bind, Option.bind_some]
    simp only [hvalue.read, Option.bind_eq_bind, Option.toList_some, Option.bind_some,
      parseJsonStringAllocAt_eq htext hvalue]
    cases value with
    | nil =>
      rw [unlessCut_singleton, if_neg not_cutShort_nil]
      rfl
    | cons b value =>
      rw [charAt_cons_zero, Option.bind_some]
      by_cases hb : b = 34
      · rw [if_pos hb]
      · rw [if_neg hb, unlessCut_singleton, if_neg (not_cutShort_of_ne hb value),
          parseJsonStringAlloc, parseJsonStringAllocEnd, if_neg hb]
        rfl

theorem jsonGetStringAt_eq (outSize : ℕ) :
    jsonGetStringAt text p key outSize =
      unlessCut (valueOf json key) (jsonGetString json key outSize) := by
  rw [jsonGetStringAt, jsonGetContentAt_eq htext hkey h, unlessCut_map, jsonGetString]

end Strings

/-! ## Operations -/

theorem operationPosAt_eq {json : Bytes} (hjson : ∀ b ∈ json, b ≠ 0) :
    operationPosAt json = some (operationPos json) := by
  rw [operationPosAt, jsonGetIntAt_eq hjson (by decide) (pointsTo_zero json), operationPos]
  cases jsonGetInt json (bytes "pos") with
  | none => rfl
  | some pos => rfl

theorem parseOperationObjectAt_eq (errorSize : ℕ) {json : Bytes} (hjson : ∀ b ∈ json, b ≠ 0) :
    parseOperationObjectAt errorSize json =
      unlessCut (operationValues json) (parseOperationObject errorSize json) := by
  have hread : ∀ (key : Bytes) (size : ℕ), (∀ b ∈ key, b ≠ 0) → jsonGetStringAt json 0 key size =
      unlessCut (valueOf json key) (jsonGetString json key size) := fun key size hkey =>
    jsonGetStringAt_eq hjson hkey (pointsTo_zero json) size
  rw [parseOperationObjectAt, hread _ _ (by decide), operationValues, parseOperationObject]
  refine unlessCut_bind ?_
  cases hstring : jsonGetString json (bytes "kind") tsMaxType with
  | none =>
    have hkind : operationKind json = .invalid := by
      rw [operationKind, hstring]
      rfl
    rw [if_neg (by rw [hkind]; decide), if_neg fun h => h.1 hkind]
    rfl
  | some kind =>
    have hkind : operationKind json = tsOperationKindFromName kind := by
      rw [operationKind, hstring]
      rfl
    by_cases hinvalid : tsOperationKindFromName kind = .invalid
    · rw [if_neg (by rw [hkind, hinvalid]; decide), if_neg fun h => h.1 (hkind.trans hinvalid)]
      simp only [if_pos hinvalid]
      rfl
    by_cases hinsert : tsOperationKindFromName kind = .insert
    · simp only [if_neg hinvalid, if_pos hinsert, operationPosAt_eq hjson, Option.bind_eq_bind,
        Option.bind_some, if_pos (hkind.trans hinsert)]
      rw [hread _ _ (by decide)]
      refine unlessCut_bind ?_
      cases hch : jsonGetString json (bytes "char") tsMaxUtf8Char with
      | none =>
        rw [if_neg fun h => by simpa [hch] using h.2 (hkind.trans hinsert)]
        rfl
      | some ch =>
        by_cases hone : tsUtf8CharCount ch = 1
        · have haccepted : OperationAccepted json :=
            ⟨by rwa [hkind], fun _ => by rw [hch, Option.map_some, hone]⟩
          simp only [ne_eq, hone, not_true_eq_false, if_false, if_pos haccepted,
            hread (bytes "reason") tsMaxReason (by decide)]
          exact unlessCut_bind_some rfl
        · have hrefused : ¬ OperationAccepted json := fun h =>
            hone (by simpa [hch] using h.2 (hkind.trans hinsert))
          simp only [ne_eq, hone, not_false_iff, if_true, if_neg hrefused]
          rfl
    · have haccepted : OperationAccepted json :=
        ⟨by rwa [hkind], fun h => absurd (hkind.symm.trans h) hinsert⟩
      simp only [if_neg hinvalid, if_neg hinsert, operationPosAt_eq hjson, Option.bind_eq_bind,
        Option.bind_some, hkind, if_pos haccepted, hread (bytes "reason") tsMaxReason (by decide),
        List.nil_append]
      exact unlessCut_bind_some rfl

/-! ## Messages -/

section Messages

variable {line json : Bytes} {p : ℕ} (hline : ∀ b ∈ line, b ≠ 0) (h : PointsTo line p json)

include hline h

theorem decodeFieldsAt_eq (type : Bytes) :
    decodeFieldsAt line p type = unlessCut (fieldValues json) (decodeFields json type) := by
  have hstring : ∀ (key : Bytes) (size : ℕ), (∀ b ∈ key, b ≠ 0) → jsonGetStringAt line p key size =
      unlessCut (valueOf json key) (jsonGetString json key size) := fun key size hkey =>
    jsonGetStringAt_eq hline hkey h size
  have hint : ∀ key : Bytes, (∀ b ∈ key, b ≠ 0) → jsonGetIntAt line p key =
      some (jsonGetInt json key) := fun key hkey => jsonGetIntAt_eq hline hkey h
  rw [decodeFieldsAt, fieldValues, hstring _ _ (by decide)]
  refine unlessCut_bind ?_
  rw [hstring _ _ (by decide)]
  refine unlessCut_bind ?_
  rw [hstring _ _ (by decide)]
  refine unlessCut_bind ?_
  rw [hstring _ _ (by decide)]
  refine unlessCut_bind ?_
  rw [hint _ (by decide), hint _ (by decide), hint _ (by decide), hint _ (by decide),
    jsonGetContentAt_eq hline (by decide) h]
  exact unlessCut_bind_some rfl

theorem decodeOpAt_eq (errorSize : ℕ) (message : TsMessage) :
    decodeOpAt errorSize line p message =
      unlessCut ((jsonGetObject json (bytes "op")).elim [] operationValues)
        (decodeOp errorSize json message) := by
  rw [decodeOpAt, jsonGetObjectAt_eq hline (by decide) h, decodeOp, Option.bind_eq_bind,
    Option.bind_some]
  cases hobject : jsonGetObject json (bytes "op") with
  | none => rfl
  | some opJson =>
    have hjson := jsonGetObject_ne_zero (h.ne_zero hline) (by decide) hobject
    simp only [parseOperationObjectAt_eq errorSize hjson, Option.elim_some]
    refine unlessCut_bind_some ?_
    rcases parseOperationObject errorSize opJson with ⟨op, error | error⟩ <;> rfl

theorem decodeOriginalOpAt_eq (errorSize : ℕ) (message : TsMessage) :
    decodeOriginalOpAt errorSize line p message =
      unlessCut ((jsonGetObject json (bytes "original_op")).elim [] operationValues)
        (decodeOriginalOp errorSize json message) := by
  rw [decodeOriginalOpAt, jsonGetObjectAt_eq hline (by decide) h, decodeOriginalOp,
    Option.bind_eq_bind, Option.bind_some]
  cases hobject : jsonGetObject json (bytes "original_op") with
  | none => rfl
  | some originalJson =>
    have hjson := jsonGetObject_ne_zero (h.ne_zero hline) (by decide) hobject
    simp only [parseOperationObjectAt_eq errorSize hjson, Option.elim_some]
    exact unlessCut_bind_some rfl

end Messages

/-- The decoder with its pointers reads behind a terminator exactly when a value that it parses is cut
short; otherwise it computes what the decoder of the codec computes. -/
theorem tsDecodeMessageAt_eq (errorSize : ℕ) {line : Bytes} (hline : ∀ b ∈ line, b ≠ 0) :
    tsDecodeMessageAt errorSize line =
      unlessCut (parsedValues line) (tsDecodeMessage errorSize line) := by
  obtain ⟨p, hp, h⟩ := skipWsAt_spec hline (pointsTo_zero line)
  rw [tsDecodeMessageAt, hp, Option.bind_eq_bind, Option.bind_some, h.read, tsDecodeMessage_eq,
    parsedValues]
  generalize skipWs line = json at h
  have hfirst : charAt json 0 = some (json.head?.getD 0) := by
    cases json <;> rfl
  have hobject : json.head?.getD 0 ≠ 123 ↔ json.head? ≠ some 123 := by
    cases json <;> simp
  rw [hfirst, Option.bind_eq_bind, Option.bind_some]
  by_cases hbrace : json.head? ≠ some 123
  · rw [if_pos (hobject.mpr hbrace)]
    simp only [if_pos hbrace]
    rfl
  · rw [if_neg fun hne => hbrace (hobject.mp hne)]
    simp only [if_neg hbrace, jsonGetStringAt_eq hline (show ∀ b ∈ bytes "type", b ≠ 0 by decide) h]
    refine unlessCut_bind ?_
    cases jsonGetString json (bytes "type") tsMaxType with
    | none => rfl
    | some type =>
      simp only [decodeFieldsAt_eq hline h, reduceCtorEq, if_false]
      refine unlessCut_bind ?_
      simp only [decodeOpAt_eq hline h]
      refine unlessCut_bind ?_
      rcases decodeOp_cases errorSize json (decodeFields json type) with
        ⟨hall, message, hop⟩ | ⟨hall, error, hop⟩
      · rw [hop, if_pos hall]
        exact decodeOriginalOpAt_eq hline h errorSize message
      · rw [hop, if_neg (by rw [hall]; decide)]
        rfl

/-- The decoder stays inside its line, and inside its copies of nested objects, exactly when no value
that it parses is cut short in a `\u` escape. Then it computes what the decoder of the codec
computes. -/
theorem decoder_inside_iff (errorSize : ℕ) {line : Bytes} (hline : ∀ b ∈ line, b ≠ 0) :
    ((∃ result, tsDecodeMessageAt errorSize line = some result) ↔
      ∀ value ∈ parsedValues line, ¬ CutShort value) ∧
    ∀ result, tsDecodeMessageAt errorSize line = some result →
      result = tsDecodeMessage errorSize line := by
  rw [tsDecodeMessageAt_eq errorSize hline]
  refine ⟨⟨?_, fun h => ⟨_, unlessCut_eq_some_iff.mpr ⟨h, rfl⟩⟩⟩, fun result hresult => ?_⟩
  · rintro ⟨result, hresult⟩
    exact (unlessCut_eq_some_iff.mp hresult).1
  · exact (unlessCut_eq_some_iff.mp hresult).2.symm

/-- A line that is cut off in every way but in a `\u` escape: an open object in an open object, and an
open string that ends with a backslash. -/
theorem decoder_inside_iff_backslash : ∃ result, tsDecodeMessageAt tsMaxStatus
    (bytes "\x7b\"type\":\"OP\",\"op\":\x7b\"kind\":\"insert\",\"char\":\"\\") = some result := by
  have hline : ∀ b ∈ bytes "\x7b\"type\":\"OP\",\"op\":\x7b\"kind\":\"insert\",\"char\":\"\\",
      b ≠ 0 := by decide +kernel
  refine (decoder_inside_iff tsMaxStatus hline).1.mpr ?_
  decide +kernel

/-- The line ends two bytes behind a `\u`. -/
def cutOffLine : Bytes := bytes "\x7b\"type\":\"\\u\"\x7d"

/-- The last of the four digits is read behind the terminator. -/
theorem not_decoder_inside_cutOff :
    (∀ b ∈ cutOffLine, b ≠ 0) ∧ ¬ ∃ result, tsDecodeMessageAt tsMaxStatus cutOffLine = some result := by
  have hnone : tsDecodeMessageAt tsMaxStatus cutOffLine = none := by decide +kernel
  refine ⟨by decide, ?_⟩
  rintro ⟨result, h⟩
  rw [hnone] at h
  cases h

end TermSync
