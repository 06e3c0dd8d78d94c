import TermSync.IntegerFields
import TermSync.Proofs.DecodeProofs
import TermSync.Proofs.FindKeyProofs

/-!
# Proofs: the integer fields of a message

`json_get_int` reads a `long` and stores it as an `int`. A number that only a `long` can hold is
stored as its residue modulo `2 ^ 32`. So a field whose member is the first one that the search for the
key can find is decoded faithfully exactly when the number fits an `int`, when not even `strtol` can
represent it, or when the residue happens to be read as an unset field; if the search stops earlier,
what it finds there has to stand in for the number (`decodes_faithfully_iff`).
-/

namespace TermSync

open Foundations

/-! ## Numerals -/

theorem Numeral.first {numeral : Bytes} {n : ℤ} (h : Numeral numeral n) :
    ∃ b t, numeral = b :: t ∧ isSpace b = false := by
  cases h with
  | unsigned hne hds =>
    obtain ⟨d, ds', rfl⟩ := List.exists_cons_of_ne_nil hne
    exact ⟨d, ds', rfl, (isDigit_ne (hds d List.mem_cons_self)).1⟩
  | plus => exact ⟨43, _, rfl, by decide⟩
  | minus => exact ⟨45, _, rfl, by decide⟩

theorem ValueEnds.noDigit {rest : Bytes} (h : ValueEnds rest) : NoDigit rest := by
  obtain ⟨gap, b, more, hgap, hb, rfl⟩ := h
  cases gap with
  | nil => exact noDigit_cons (by rcases hb with rfl | rfl <;> decide) more
  | cons c gap =>
    refine noDigit_cons ?_ (gap ++ b :: more)
    by_contra hdigit
    have hspace := hgap c List.mem_cons_self
    rw [(isDigit_ne (Bool.not_eq_false _ ▸ hdigit)).1] at hspace
    cases hspace

/-- The digits of a numeral, with the first one apart. -/
theorem span_digits {ds rest : Bytes} (hne : ds ≠ []) (hds : ∀ b ∈ ds, Decimal.isDigit b = true)
    (hrest : NoDigit rest) : ∃ d ds', ds = d :: ds' ∧ Decimal.isDigit d = true ∧
      Decimal.span (d :: (ds' ++ rest)) = (d :: ds', rest) := by
  obtain ⟨d, ds', rfl⟩ := List.exists_cons_of_ne_nil hne
  exact ⟨d, ds', rfl, hds d List.mem_cons_self, Decimal.span_append hds hrest⟩

/-- `strtol` reads a numeral whose number is a `long`. -/
theorem strtol_numeral {numeral rest : Bytes} {n : ℤ} (h : Numeral numeral n)
    (hrest : NoDigit rest) :
    strtol (numeral ++ rest) = if longMin ≤ n ∧ n ≤ longMax then some n else none := by
  cases h with
  | @unsigned ds hne hds =>
    obtain ⟨d, ds', rfl, hd, hspan⟩ := span_digits hne hds hrest
    obtain ⟨hspace, h45, h43⟩ := isDigit_ne hd
    simp [strtol, scanNumber, hspan, hspace, h45, h43]
  | @plus ds hne hds =>
    obtain ⟨d, ds', rfl, -, hspan⟩ := span_digits hne hds hrest
    simp [strtol, scanNumber, hspan, isSpace]
  | @minus ds hne hds =>
    obtain ⟨d, ds', rfl, -, hspan⟩ := span_digits hne hds hrest
    simp [strtol, scanNumber, hspan, isSpace]

/-! ## Finding a member -/

theorem skipWs_blank {gap : Bytes} {b : UInt8} (hgap : Blank isSpace gap) (hb : isSpace b = false)
    (text : Bytes) : skipWs (gap ++ b :: text) = b :: text := by
  rw [skipWs, List.dropWhile_append_of_pos hgap, List.dropWhile_cons_of_neg (by simp [hb])]

/-- The byte in front of a member is in no quoted key. -/
theorem notMem_pattern (key : Key) {b : UInt8} (hb : b = 123 ∨ b = 44 ∨ isSpace b = true) :
    b ∉ key.pattern := by
  have hall : ∀ c ∈ key.pattern, ¬ (c = 123 ∨ c = 44 ∨ isSpace c = true) := by
    cases key <;> decide
  exact fun hmem => hall b hmem hb

/-- The search passes over a front in which no quoted key with a colon begins, if the last byte of the
front is in no quoted key. -/
theorem Finds.front {key : Key} {front text : Bytes} {r : Option Bytes}
    (hlast : ∀ p b, front = p ++ [b] → b ∉ key.pattern)
    (hfront : ∀ i < front.length, ¬ KeyAt key ((front ++ text).drop i))
    (h : Finds key.pattern text r) : Finds key.pattern (front ++ text) r := by
  induction hn : front.length using Nat.strong_induction_on generalizing front with
  | _ n ih =>
    subst hn
    cases front with
    | nil => exact h
    | cons b front =>
      by_cases hpre : key.pattern <+: b :: front ++ text
      · -- an occurrence ends inside the front, and no colon follows it
        have hinside : key.pattern <+: b :: front := by
          rcases le_total key.pattern.length (b :: front).length with hle | hle
          · exact List.prefix_of_prefix_length_le hpre (List.prefix_append _ _) hle
          · have hproper : b :: front <+: key.pattern :=
              List.prefix_of_prefix_length_le (List.prefix_append _ _) hpre hle
            obtain ⟨p, c, hconcat⟩ := List.eq_nil_or_concat (b :: front) |>.resolve_left (by simp)
            rw [List.concat_eq_append] at hconcat
            have hmem : c ∈ key.pattern := hproper.subset (by rw [hconcat]; simp)
            exact absurd hmem (hlast p c hconcat)
        obtain ⟨q, hq⟩ := hinside
        have hcolon : (skipWs (q ++ text)).head? ≠ some 58 := by
          intro hcolon
          refine hfront 0 (by simp) ⟨by simpa using hpre, ?_⟩
          rwa [List.drop_zero, ← hq, List.append_assoc, List.drop_left]
        have hpos := List.length_pos_iff.mpr key.pattern_ne_nil
        have hlength : (b :: front).length = key.pattern.length + q.length := by
          rw [← hq, List.length_append]
        rw [← hq, List.append_assoc]
        refine Finds.pass key.pattern_ne_nil hcolon (ih q.length (by omega) ?_ ?_ rfl)
        · intro p c hp
          exact hlast (key.pattern ++ p) c (by rw [← hq, hp, List.append_assoc])
        · intro i hi
          have hshift := hfront (key.pattern.length + i) (by omega)
          rwa [← hq, List.append_assoc, ← List.drop_drop, List.drop_left] at hshift
      · refine Finds.skip hpre (ih front.length (by simp) ?_ ?_ rfl)
        · intro p c hp
          exact hlast (b :: p) c (by rw [hp, List.cons_append])
        · intro i hi
          have hshift := hfront (i + 1) (by simpa using hi)
          rwa [List.cons_append, List.drop_succ_cons] at hshift

/-- The search stops at a member that comes first. -/
theorem findKey_place {place : Place} {value : Bytes}
    (hmember : Member isSpace place.key.name place.front value place.text) (hfirst : place.First) :
    findKey place.text place.key.name = some (skipWs value) := by
  obtain ⟨gap, gap', hgap, hgap', htext⟩ := hmember.written
  have hvalue : skipWs (gap' ++ value) = skipWs value := by
    rw [skipWs, List.dropWhile_append_of_pos hgap', ← skipWs]
  have hcolon : skipWs (gap ++ 58 :: (gap' ++ value)) = 58 :: (gap' ++ value) :=
    skipWs_blank hgap (by decide) _
  have hkey : Finds place.key.pattern
      (place.key.pattern ++ (gap ++ 58 :: (gap' ++ value))) (some (skipWs value)) := by
    rw [← hvalue]
    exact finds_colon place.key.pattern_ne_nil hcolon
  have hsplit : place.text =
      (123 :: place.front) ++ (place.key.pattern ++ (gap ++ 58 :: (gap' ++ value))) := by
    rw [htext, Key.pattern]
    simp
  refine findKey_eq_of_finds ?_
  rw [hsplit]
  refine Finds.front ?_ ?_ hkey
  · exact fun p b hp => notMem_pattern place.key (hmember.before.last hp)
  · intro i hi
    rw [← hsplit]
    exact hfirst i (by simpa using Nat.lt_succ_iff.mp hi)

/-! ## Cutting out an object -/

theorem scanObject_string {body : Bytes} (h : StringBody body) (depth : ℤ) (copied rest : Bytes) :
    scanObject true false depth copied (body ++ rest) =
      scanObject true false depth (copied ++ body) rest := by
  induction h generalizing copied with
  | nil => rw [List.nil_append, List.append_nil]
  | @byte b body hquote hbackslash _ ih =>
    rw [List.cons_append, scanObject]
    simp only [hquote, hbackslash, if_true, if_false, Bool.false_eq_true]
    rw [ih, List.append_assoc, List.singleton_append]
  | @escape b body _ ih =>
    rw [List.cons_append, List.cons_append, scanObject]
    simp only [if_true, if_false, Bool.false_eq_true]
    rw [scanObject]
    simp only [if_true]
    rw [ih, List.append_assoc, List.append_assoc, List.singleton_append, List.singleton_append]

/-- The scan of an outline keeps the depth and does not end inside of it. -/
theorem scanObject_outline {text : Bytes} (h : Outline text) {depth : ℤ} (hdepth : 1 ≤ depth)
    (copied rest : Bytes) :
    scanObject false false depth copied (text ++ rest) =
      scanObject false false depth (copied ++ text) rest := by
  induction h generalizing depth copied rest with
  | nil => rw [List.nil_append, List.append_nil]
  | @byte b text hb _ ih =>
    obtain ⟨h34, h123, h125⟩ := hb
    rw [List.cons_append, scanObject]
    simp only [h34, h123, h125, if_false, Bool.false_eq_true]
    rw [ih hdepth, List.append_assoc, List.singleton_append]
  | @string body text hbody _ ih =>
    have hclose : scanObject true false depth (copied ++ [34] ++ body) (34 :: (text ++ rest)) =
        scanObject false false depth (copied ++ [34] ++ body ++ [34]) (text ++ rest) := by
      rw [scanObject]
      simp
    rw [List.cons_append, List.append_assoc, List.cons_append, scanObject]
    simp only [if_true, if_false, Bool.false_eq_true]
    rw [scanObject_string hbody, hclose, ih hdepth]
    simp
  | @object inner text _ _ ihInner ih =>
    have hopen : (1 : ℤ) ≤ depth + 1 := by omega
    have hclose : scanObject false false (depth + 1) (copied ++ [123] ++ inner)
        (125 :: (text ++ rest)) =
        scanObject false false depth (copied ++ [123] ++ inner ++ [125]) (text ++ rest) := by
      rw [scanObject]
      have hne : ¬ depth = 0 := by omega
      simp [hne]
    rw [List.cons_append, List.append_assoc, List.cons_append, scanObject]
    simp only [if_true, if_false, Bool.false_eq_true, show ¬ (123 : UInt8) = 34 by decide]
    rw [ihInner hopen, hclose, ih hdepth]
    simp

/-- The object of a member that comes first is cut out from brace to brace. -/
theorem jsonGetObject_place {place : Place} {object : Bytes} (hobject : place.HasObject object)
    (hfirst : place.First) : jsonGetObject place.text place.key.name = some object := by
  obtain ⟨inner, after, hinner, rfl, hmember⟩ := hobject
  have hfound := findKey_place hmember hfirst
  have hskip : skipWs (123 :: (inner ++ [125]) ++ after) = 123 :: (inner ++ 125 :: after) := by
    rw [List.cons_append, List.append_assoc, List.singleton_append]
    exact skipWs_blank (List.forall_mem_nil _) (by decide) _
  have hopen : scanObject false false 0 [] (123 :: (inner ++ 125 :: after)) =
      scanObject false false 1 [123] (inner ++ 125 :: after) := by
    rw [scanObject]
    simp
  rw [hskip] at hfound
  rw [jsonGetObject, hfound]
  simp only [List.head?_cons, if_true]
  rw [hopen, scanObject_outline hinner le_rfl, scanObject]
  simp

/-! ## What the decoder stores -/

/-- An operation that is parsed without an error has the position of its object. -/
theorem parseOperationObject_pos {errorSize : ℕ} {json : Bytes}
    (h : (parseOperationObject errorSize json).2.isNone = true) :
    (parseOperationObject errorSize json).1.pos = operationPos json := by
  unfold parseOperationObject at h ⊢
  cases hkind : jsonGetString json (bytes "kind") tsMaxType with
  | none => simp [hkind] at h
  | some kind =>
    by_cases hinvalid : tsOperationKindFromName kind = .invalid
    · simp [hkind, hinvalid] at h
    by_cases hinsert : tsOperationKindFromName kind = .insert
    · cases hch : jsonGetString json (bytes "char") tsMaxUtf8Char with
      | none => simp [hkind, hinsert, hch] at h
      | some ch =>
        by_cases hcount : tsUtf8CharCount ch = 1
        · simp [hinsert, hcount]
        · simp [hkind, hinsert, hch, hcount] at h
    · simp [hinvalid, hinsert]

/-- The integers of a decoded message are what `json_get_int` returns, or unset. -/
theorem tsDecodeMessage_integers {errorSize : ℕ} {line : Bytes} {m : TsMessage}
    (h : tsDecodeMessage errorSize line = .ok m) :
    (m.baseVersion = (jsonGetInt (skipWs line) (bytes "base_version")).getD (-1) ∧
      m.serverVersion = (jsonGetInt (skipWs line) (bytes "server_version")).getD (-1) ∧
      m.version = (jsonGetInt (skipWs line) (bytes "version")).getD (-1) ∧
      m.historyStartVersion =
        (jsonGetInt (skipWs line) (bytes "history_start_version")).getD (-1)) ∧
    m.op.pos = (jsonGetObject (skipWs line) (bytes "op")).elim 0 operationPos ∧
    ((∀ json, jsonGetObject (skipWs line) (bytes "original_op") = some json →
        OperationAccepted json) →
      m.originalOp.pos = (jsonGetObject (skipWs line) (bytes "original_op")).elim 0 operationPos) := by
  obtain ⟨type, withOp, -, hop, horiginal⟩ := tsDecodeMessage_ok h
  have hwithOp : (withOp.baseVersion = (jsonGetInt (skipWs line) (bytes "base_version")).getD (-1) ∧
      withOp.serverVersion = (jsonGetInt (skipWs line) (bytes "server_version")).getD (-1) ∧
      withOp.version = (jsonGetInt (skipWs line) (bytes "version")).getD (-1) ∧
      withOp.historyStartVersion =
        (jsonGetInt (skipWs line) (bytes "history_start_version")).getD (-1)) ∧
      withOp.op.pos = (jsonGetObject (skipWs line) (bytes "op")).elim 0 operationPos ∧
      withOp.originalOp.pos = 0 := by
    rcases decodeOp_ok hop with ⟨hobject, rfl⟩ | ⟨opJson, op, hobject, hparse, rfl⟩
    · rw [hobject]
      exact ⟨⟨rfl, rfl, rfl, rfl⟩, rfl, rfl⟩
    · have hpos : (parseOperationObject errorSize opJson).1.pos = operationPos opJson :=
        parseOperationObject_pos (by rw [hparse]; rfl)
      rw [hparse] at hpos
      rw [hobject]
      exact ⟨⟨rfl, rfl, rfl, rfl⟩, hpos, rfl⟩
  obtain ⟨hints, hpos, hzero⟩ := hwithOp
  rcases decodeOriginalOp_ok horiginal with ⟨hobject, rfl⟩ | ⟨originalJson, hobject, rfl⟩
  · refine ⟨hints, hpos, fun _ => ?_⟩
    rw [hobject]
    exact hzero
  · refine ⟨hints, hpos, fun haccepted => ?_⟩
    have hnone := (parseOperationObject_accepted errorSize originalJson).mpr
      (haccepted originalJson hobject)
    rw [hobject]
    exact parseOperationObject_pos (by rw [hnone]; rfl)

/-! ## The fields -/

namespace IntegerField

/-- The field that results when `json_get_int` returns `o`. -/
def stored (o : Option ℤ) : IntegerField → ℤ
  | opPos => max (o.getD 0) 0
  | originalOpPos => max (o.getD 0) 0
  | _ => o.getD (-1)

theorem operationPos_eq_max (json : Bytes) :
    (operationPos json : ℤ) = max ((jsonGetInt json (bytes "pos")).getD 0) 0 := by
  unfold operationPos
  cases jsonGetInt json (bytes "pos") with
  | none => rfl
  | some pos =>
    by_cases hpos : pos > 0
    · simp only [if_pos hpos, Option.getD_some]
      omega
    · simp only [if_neg hpos, Option.getD_some]
      omega

theorem operationPos_elim (object : Option Bytes) :
    ((object.elim 0 operationPos : ℕ) : ℤ) =
      max ((object.bind fun json => jsonGetInt json (bytes "pos")).getD 0) 0 := by
  cases object with
  | none => rfl
  | some json => exact operationPos_eq_max json

/-- A field is stored as the residue of the number at the place where the decoder looks for it. -/
theorem decoded_eq_stored {errorSize : ℕ} {line : Bytes} {m : TsMessage} {field : IntegerField}
    (hm : tsDecodeMessage errorSize line = .ok m) (hkept : field.OriginalKept line) :
    field.decoded m = field.stored (((field.sought line).bind strtol).map toInt) := by
  have hassoc : ∀ object : Option Bytes,
      (((object.bind fun json => findKey json Key.pos.name).bind strtol).map toInt) =
        object.bind fun json => jsonGetInt json (bytes "pos") := by
    intro object
    cases object with
    | none => rfl
    | some json => rfl
  obtain ⟨⟨hbase, hserver, hversion, hhistory⟩, hop, horiginal⟩ := tsDecodeMessage_integers hm
  cases field with
  | baseVersion => exact hbase
  | serverVersion => exact hserver
  | version => exact hversion
  | historyStartVersion => exact hhistory
  | opPos =>
    rw [decoded, hop, operationPos_elim, ← hassoc]
    rfl
  | originalOpPos =>
    rw [decoded, horiginal (hkept rfl), operationPos_elim, ← hassoc]
    rfl

/-- What is stored for a number, or for none, is right exactly if it may stand in for the number. -/
theorem faithful_stored_iff (field : IntegerField) (n : ℤ) (o : Option ℤ) :
    field.Faithful n (field.stored (o.map toInt)) ↔ field.StandsIn n o := by
  unfold Faithful StandsIn
  cases o with
  | none =>
    have hunset : field.stored (Option.map toInt none) = field.unset := by cases field <;> rfl
    rw [hunset]
    exact ⟨fun h hint => (h.1 hint).symm, fun h => ⟨fun hint => (h hint).symm, fun _ => rfl⟩⟩
  | some other =>
    simp only [intMin, intMax, toInt, Int.bmod, Option.map_some]
    cases field <;>
      simp only [stored, meant, unset, ResidueUnset, SameResidue, Option.getD_some] <;> omega

/-- A number stands in for itself exactly if it survives the narrowing. -/
theorem standsIn_self_iff (field : IntegerField) (n : ℤ) :
    field.StandsIn n (if longMin ≤ n ∧ n ≤ longMax then some n else none) ↔ field.Survives n := by
  unfold Survives
  by_cases hlong : longMin ≤ n ∧ n ≤ longMax
  · rw [if_pos hlong]
    simp only [StandsIn, longMin, longMax, intMin, intMax] at hlong ⊢
    cases field <;> simp only [SameResidue, ResidueUnset, implies_true, true_and] <;> omega
  · -- `strtol` fails, and the field stays unset
    rw [if_neg hlong]
    simp only [StandsIn, longMin, longMax, intMin, intMax] at hlong ⊢
    omega

/-- A member that comes first is where the decoder looks for the field. -/
theorem sought_eq {line : Bytes} {n : ℤ} {field : IntegerField} {places : List Place}
    (hgives : field.Gives line n places) (hfirst : ∀ place ∈ places, place.First) :
    (field.sought line).bind strtol = if longMin ≤ n ∧ n ≤ longMax then some n else none := by
  have hnumber : ∀ place : Place, place.HasNumber n → place.First →
      (findKey place.text place.key.name).bind strtol =
        if longMin ≤ n ∧ n ≤ longMax then some n else none := by
    rintro place ⟨numeral, rest, hnumeral, hrest, hmember⟩ hplace
    obtain ⟨b, t, rfl, hspace⟩ := hnumeral.first
    have hskip : skipWs (b :: t ++ rest) = b :: t ++ rest :=
      skipWs_blank (List.forall_mem_nil _) hspace (t ++ rest)
    rw [findKey_place hmember hplace, hskip, Option.bind_some]
    exact strtol_numeral hnumeral hrest.noDigit
  have hstart : ∀ {lead value : Bytes} {place : Place}, Blank isSpace lead →
      Member isSpace place.key.name place.front value place.text →
      skipWs (lead ++ place.text) = place.text := by
    intro lead value place hlead hmember
    obtain ⟨gap, gap', -, -, htext⟩ := hmember.written
    rw [htext]
    exact skipWs_blank hlead (by decide) _
  cases hgives with
  | @member lead place hfield hkey hlead hline hn =>
    have ⟨numeral, rest, _, _, hmember⟩ := hn
    rw [sought, hfield, hline, hstart hlead hmember, ← hkey]
    exact hnumber place hn (hfirst place List.mem_cons_self)
  | @operation lead outer inner hfield hkey hlead hline hobject hn =>
    have ⟨body, after, _, _, hmember⟩ := hobject
    have hcut := jsonGetObject_place hobject (hfirst outer List.mem_cons_self)
    rw [sought, hfield, hline, hstart hlead hmember]
    simp only [hcut, Option.bind_some, ← hkey]
    exact hnumber inner hn (hfirst inner (List.mem_cons_of_mem outer List.mem_cons_self))

/-- An integer field is decoded faithfully exactly when its number survives the narrowing, if no quoted
key with a colon begins in front of its member, or else when the number that the decoder finds earlier
may stand in for it. -/
theorem decodes_faithfully_iff {errorSize : ℕ} {line : Bytes} {m : TsMessage} {n : ℤ}
    {field : IntegerField} {places : List Place} (hgives : field.Gives line n places)
    (hm : tsDecodeMessage errorSize line = .ok m) (hkept : field.OriginalKept line) :
    field.Faithful n (field.decoded m) ↔
      if ∀ place ∈ places, place.First then field.Survives n
      else field.StandsIn n ((field.sought line).bind strtol) := by
  rw [decoded_eq_stored hm hkept, faithful_stored_iff]
  by_cases hfirst : ∀ place ∈ places, place.First
  · rw [if_pos hfirst, sought_eq hgives hfirst, standsIn_self_iff]
  · rw [if_neg hfirst]

/-! ## Lines that are decoded wrongly -/

/-- A line that gives a base version that only a `long` can hold. -/
def widePlace : Place where
  key := .baseVersion
  front := bytes "\"type\":\"OP\","
  text := bytes "\x7b\"type\":\"OP\",\"base_version\":4294967301\x7d"

/-- A line that gives a base version behind an operation that has a member of that name, too. -/
def shadowedPlace : Place where
  key := .baseVersion
  front := bytes "\"type\":\"OP\",\"op\":\x7b\"kind\":\"noop\",\"base_version\":9\x7d,"
  text := bytes "\x7b\"type\":\"OP\",\"op\":\x7b\"kind\":\"noop\",\"base_version\":9\x7d," ++
    bytes "\"base_version\":5\x7d"

theorem outline_member {key value rest : Bytes} (hkey : ∀ b ∈ key, b ≠ 34 ∧ b ≠ 92)
    (hvalue : ∀ b ∈ value, b ≠ 34 ∧ b ≠ 92) (h : Outline rest) :
    Outline (34 :: (key ++ 34 :: 58 :: 34 :: (value ++ 34 :: rest))) :=
  Outline.string (StringBody.of_plain hkey)
    (Outline.byte (by decide) (Outline.string (StringBody.of_plain hvalue) h))

/-- A place with a numeral directly behind the colon, at the end of the line. -/
theorem hasNumber_of_digits {place : Place} {others ds : Bytes} (hothers : Outline others)
    (hfront : place.front = others ++ [44]) (hne : ds ≠ [])
    (hds : ∀ b ∈ ds, Decimal.isDigit b = true)
    (htext : place.text = 123 :: (place.front ++ (place.key.pattern ++ 58 :: (ds ++ [125])))) :
    place.HasNumber (Decimal.value ds) := by
  refine ⟨ds, [125], .unsigned hne hds, ⟨[], 125, [], List.forall_mem_nil _, Or.inr rfl, rfl⟩, ?_⟩
  refine ⟨Or.inr ⟨others, [], hothers, List.forall_mem_nil _, hfront⟩, [], [],
    List.forall_mem_nil _, List.forall_mem_nil _, ?_⟩
  rw [htext, Key.pattern]
  simp

theorem gives_wide : baseVersion.Gives widePlace.text 4294967301 [widePlace] := by
  have hothers : Outline (34 :: (bytes "type" ++ 34 :: 58 :: 34 :: (bytes "OP" ++ [34]))) :=
    outline_member (by decide) (by decide) Outline.nil
  have hn : (4294967301 : ℤ) = Decimal.value (bytes "4294967301") := rfl
  rw [hn]
  exact .member rfl rfl (List.forall_mem_nil _) rfl
    (hasNumber_of_digits hothers rfl (by decide) (by decide) rfl)

theorem gives_shadowed : baseVersion.Gives shadowedPlace.text 5 [shadowedPlace] := by
  have hinner : Outline (34 :: (bytes "kind" ++ 34 :: 58 :: 34 :: (bytes "noop" ++ 34 :: 44 ::
      34 :: (bytes "base_version" ++ [34, 58, 57])))) :=
    outline_member (by decide) (by decide) (Outline.byte (by decide)
      (Outline.string (StringBody.of_plain (by decide))
        (Outline.byte (by decide) (Outline.byte (by decide) Outline.nil))))
  have hothers := outline_member (show ∀ b ∈ bytes "type", b ≠ 34 ∧ b ≠ 92 by decide)
    (show ∀ b ∈ bytes "OP", b ≠ 34 ∧ b ≠ 92 by decide)
    (Outline.byte (b := 44) (by decide)
      (Outline.string (StringBody.of_plain (show ∀ b ∈ bytes "op", b ≠ 34 ∧ b ≠ 92 by decide))
        (Outline.byte (b := 58) (by decide) (Outline.object hinner Outline.nil))))
  have hn : (5 : ℤ) = Decimal.value (bytes "5") := rfl
  rw [hn]
  exact .member rfl rfl (List.forall_mem_nil _) rfl
    (hasNumber_of_digits hothers rfl (by decide) (by decide) rfl)

theorem decode_wide : tsDecodeMessage 128 widePlace.text =
    .ok { tsMessageInit with type := typeOp, baseVersion := 5 } := by decide +kernel

theorem decode_shadowed : tsDecodeMessage 128 shadowedPlace.text =
    .ok { tsMessageInit with
      type := typeOp
      baseVersion := 9
      op := { kind := .noop }
      hasOp := true } := by decide +kernel

theorem decodes_faithfully_iff_wide :
    (baseVersion.Faithful 4294967301 5 ↔
      if ∀ place ∈ [widePlace], place.First then baseVersion.Survives 4294967301
      else baseVersion.StandsIn 4294967301 ((baseVersion.sought widePlace.text).bind strtol)) ∧
    (baseVersion.Faithful 5 9 ↔
      if ∀ place ∈ [shadowedPlace], place.First then baseVersion.Survives 5
      else baseVersion.StandsIn 5 ((baseVersion.sought shadowedPlace.text).bind strtol)) :=
  ⟨decodes_faithfully_iff gives_wide decode_wide (fun h => by cases h),
    decodes_faithfully_iff gives_shadowed decode_shadowed (fun h => by cases h)⟩

/-- The number is narrowed, or another one is found earlier. -/
theorem not_faithful_wide :
    (baseVersion.Gives widePlace.text 4294967301 [widePlace] ∧
      tsDecodeMessage 128 widePlace.text =
        .ok { tsMessageInit with type := typeOp, baseVersion := 5 } ∧
      ¬ baseVersion.Faithful 4294967301 5) ∧
    (baseVersion.Gives shadowedPlace.text 5 [shadowedPlace] ∧
      tsDecodeMessage 128 shadowedPlace.text =
        .ok { tsMessageInit with
          type := typeOp
          baseVersion := 9
          op := { kind := .noop }
          hasOp := true } ∧
      ¬ baseVersion.Faithful 5 9) :=
  ⟨⟨gives_wide, decode_wide, by simp [Faithful, intMin, intMax, unset]⟩,
    ⟨gives_shadowed, decode_shadowed, by simp [Faithful, intMin, intMax, meant]⟩⟩

end IntegerField

end TermSync
