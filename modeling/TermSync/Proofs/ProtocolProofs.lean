import TermSync.Proofs.FindKeyProofs

/-!
# Proofs: the codec round trip

The encoder prints the tokens of a message (`tsEncodeMessage_eq`), and the decoder reads from them
what `find_key` finds. Every key but `reason` occurs once, so every other field is restored; the
`reason` of the message is read from the first operation that has one.
-/

namespace TermSync

open Foundations

/-! ## Reading values back -/

/-- The string that a field holds. -/
def Token.text : Token → Option Bytes
  | field _ (.str text) => some text
  | _ => none

/-- The number that a field holds. -/
def Token.number : Token → Option ℤ
  | field _ (.num n) => some n
  | _ => none

/-- Every string is a C string. -/
def NoNul (ts : List Token) : Prop := ∀ t ∈ ts, ∀ text, t.text = some text → ∀ b ∈ text, b ≠ 0

/-- `json_get_content` reads the first field with the key, if it is a string. -/
theorem jsonGetContent_render {key : Key} {ts : List Token} (hc : Closed ts) (hnul : NoNul ts) :
    jsonGetContent (render ts) key.name = (ts.find? (Token.has key)).bind Token.text := by
  rw [jsonGetContent]
  cases hfind : ts.find? (Token.has key) with
  | none =>
    rw [findKey_none hc fun t ht => by simpa using List.find?_eq_none.mp hfind t ht]
    rfl
  | some t =>
    obtain ⟨hhas, pre, post, rfl, hpre⟩ := List.find?_eq_some_iff_append.mp hfind
    cases t with
    | punct b => cases hhas
    | field key' value =>
      obtain rfl : key' = key := of_decide_eq_true hhas
      rw [findKey_field hc fun t ht => by simpa using hpre t ht, Option.bind_some, Option.bind_some]
      cases value with
      | str v =>
        have hv := hnul (.field key' (.str v)) (by simp) v rfl
        simp [Value.bytes, parseJsonStringAlloc, parseJsonStringAllocEnd, Token.text,
          parseStringLoop_jsonEscape hv]
      | num n =>
        obtain ⟨b, t, hbt, hb⟩ := Decimal.digits_eq_cons n
        have hne : b ≠ 34 := by
          rintro rfl
          exact absurd hb (by decide)
        simp [Value.bytes, formatSize, hbt, parseJsonStringAlloc, parseJsonStringAllocEnd, hne, Token.text]
      | brace => rfl
      | missing =>
        have hmark := (closed_of_append hc).1 (by simp)
        rcases head?_render_of_atMark hmark with h | h <;>
          (obtain ⟨t, ht⟩ := List.head?_eq_some_iff.mp h
           rw [Value.bytes, List.nil_append, ht]
           rfl)

/-- No number starts here. -/
theorem strtol_eq_none {b : UInt8} {text : Bytes}
    (hb : b ≠ 45 ∧ b ≠ 43 ∧ Decimal.isDigit b = false ∧ isSpace b = false) :
    strtol (b :: text) = none := by
  obtain ⟨h45, h43, hdigit, hspace⟩ := hb
  simp [strtol, scanNumber, hspace, h45, h43, Decimal.span, hdigit]

theorem strtol_formatSize {n : ℕ} (hn : (n : ℤ) ≤ intMax) {rest : Bytes} (hrest : NoDigit rest) :
    strtol (formatSize n ++ rest) = some (n : ℤ) := by
  have hlong : longMin ≤ (n : ℤ) ∧ (n : ℤ) ≤ longMax := by
    simp only [longMin, longMax, intMax] at hn ⊢
    omega
  have hvalue : Decimal.value (formatSize n) = n := Decimal.value_digits n
  simp [strtol, scanNumber_formatSize n hrest, hvalue, hlong]

/-- `json_get_int` reads the first field with the key, if it is a number. -/
theorem jsonGetInt_render {key : Key} {ts : List Token} (hc : Closed ts)
    (hnum : ∀ t ∈ ts, ∀ n, t.number = some n → n ≤ intMax) :
    jsonGetInt (render ts) key.name = (ts.find? (Token.has key)).bind Token.number := by
  rw [jsonGetInt]
  cases hfind : ts.find? (Token.has key) with
  | none =>
    rw [findKey_none hc fun t ht => by simpa using List.find?_eq_none.mp hfind t ht]
    rfl
  | some t =>
    obtain ⟨hhas, pre, post, rfl, hpre⟩ := List.find?_eq_some_iff_append.mp hfind
    cases t with
    | punct b => cases hhas
    | field key' value =>
      obtain rfl : key' = key := of_decide_eq_true hhas
      have hmark := (closed_of_append hc).1
      rw [findKey_field hc fun t ht => by simpa using hpre t ht, Option.bind_some, Option.bind_some]
      cases value with
      | str v =>
        rw [Value.bytes, List.cons_append, strtol_eq_none (by decide)]
        rfl
      | num n =>
        have hn := hnum (.field key' (.num n)) (by simp) n rfl
        have hmin : intMin ≤ (n : ℤ) := by
          simp only [intMin]
          omega
        have hrest : NoDigit (render post) := by
          intro b t hbt
          rcases head?_render_of_atMark (hmark (by simp)) with h | h <;>
            (rw [hbt, List.head?_cons, Option.some.injEq] at h
             rw [h]
             decide)
        rw [Value.bytes, strtol_formatSize hn hrest, Option.map_some, toInt_of_range hmin hn]
        rfl
      | brace =>
        rw [Value.bytes, List.singleton_append, strtol_eq_none (by decide)]
        rfl
      | missing =>
        rcases head?_render_of_atMark (hmark (by simp)) with h | h <;>
          (obtain ⟨t, ht⟩ := List.head?_eq_some_iff.mp h
           rw [Value.bytes, List.nil_append, ht, strtol_eq_none (by decide)]
           rfl)

/-! ## Cutting out an object -/

theorem scanObject_inString {l : Bytes} (hl : ∀ b ∈ l, b ≠ 34 ∧ b ≠ 92) (depth : ℤ)
    (copied rest : Bytes) :
    scanObject true false depth copied (l ++ rest) =
      scanObject true false depth (copied ++ l) rest := by
  induction l generalizing copied with
  | nil => simp
  | cons b l ih =>
    obtain ⟨h34, h92⟩ := hl b List.mem_cons_self
    rw [List.cons_append, scanObject, if_pos rfl, if_neg (by simp), if_neg h92, if_neg h34,
      ih (fun d hd => hl d (List.mem_cons_of_mem b hd)), List.append_assoc, List.singleton_append]

/-- An escaped byte does not end a string. -/
theorem scanObject_escapeByte (c : UInt8) (depth : ℤ) (copied rest : Bytes) :
    scanObject true false depth copied (escapeByte c ++ rest) =
      scanObject true false depth (copied ++ escapeByte c) rest := by
  have hpair : ∀ e l, (∀ b ∈ l, b ≠ 34 ∧ b ≠ 92) →
      scanObject true false depth copied (92 :: e :: l ++ rest) =
        scanObject true false depth (copied ++ 92 :: e :: l) rest := by
    intro e l hl
    rw [List.cons_append, List.cons_append, scanObject, if_pos rfl, if_neg (by simp), if_pos rfl,
      scanObject, if_pos rfl, if_pos rfl, scanObject_inString hl]
    simp
  rcases escapeByte_cases c with ⟨e, h, -⟩ | ⟨h, -⟩ | ⟨h, h34, h92⟩
  · rw [h]
    exact hpair e [] (by simp)
  · rw [h]
    exact hpair 117 _ (notMem_formatHex4 _)
  · rw [h]
    exact scanObject_inString (List.forall_mem_cons.mpr ⟨⟨h34, h92⟩, by simp⟩) depth copied rest

theorem scanObject_jsonEscape (v : Bytes) (depth : ℤ) (copied rest : Bytes) :
    scanObject true false depth copied (jsonEscape v ++ 34 :: rest) =
      scanObject false false depth (copied ++ jsonEscape v ++ [34]) rest := by
  induction v generalizing copied with
  | nil =>
    rw [jsonEscape, List.flatMap_nil, List.nil_append, List.append_nil, scanObject, if_pos rfl,
      if_neg (by simp), if_neg (by decide), if_pos rfl]
  | cons c v ih =>
    rw [jsonEscape_cons, List.append_assoc, scanObject_escapeByte, ih]
    simp only [List.append_assoc]

theorem scanObject_outside {l : Bytes} (hl : ∀ b ∈ l, b ≠ 34 ∧ b ≠ 123 ∧ b ≠ 125) (depth : ℤ)
    (copied rest : Bytes) :
    scanObject false false depth copied (l ++ rest) =
      scanObject false false depth (copied ++ l) rest := by
  induction l generalizing copied with
  | nil => simp
  | cons b l ih =>
    obtain ⟨h34, h123, h125⟩ := hl b List.mem_cons_self
    rw [List.cons_append, scanObject, if_neg (by simp), if_neg h34, if_neg h123, if_neg h125,
      ih (fun d hd => hl d (List.mem_cons_of_mem b hd)), List.append_assoc, List.singleton_append]

/-- The tokens open and close no object. -/
def Flat (ts : List Token) : Prop :=
  ∀ t ∈ ts, match t with
    | .punct b => b ≠ 34 ∧ b ≠ 123 ∧ b ≠ 125
    | .field _ value => value ≠ .brace

theorem formatSize_flat (n : ℕ) : ∀ b ∈ formatSize n, b ≠ 34 ∧ b ≠ 123 ∧ b ≠ 125 := by
  intro b hb
  have hdigit := Decimal.isDigit_of_mem_digits n b hb
  refine ⟨?_, ?_, ?_⟩ <;> rintro rfl <;> exact absurd hdigit (by decide)

theorem scanObject_value {value : Value} (hv : value ≠ .brace) (depth : ℤ) (copied rest : Bytes) :
    scanObject false false depth copied (value.bytes ++ rest) =
      scanObject false false depth (copied ++ value.bytes) rest := by
  cases value with
  | str v =>
    rw [Value.bytes, List.cons_append, List.append_assoc, scanObject, if_neg (by simp), if_pos rfl,
      List.singleton_append, scanObject_jsonEscape]
    simp only [List.append_assoc, List.cons_append, List.nil_append]
  | num n => exact scanObject_outside (formatSize_flat n) depth copied rest
  | brace => exact absurd rfl hv
  | missing => simp [Value.bytes]

theorem scanObject_render {ts : List Token} (hts : Flat ts) (depth : ℤ) (copied rest : Bytes) :
    scanObject false false depth copied (render ts ++ rest) =
      scanObject false false depth (copied ++ render ts) rest := by
  induction ts generalizing copied with
  | nil => simp [render]
  | cons t ts ih =>
    have hrest : Flat ts := fun u hu => hts u (List.mem_cons_of_mem t hu)
    have ht := hts t List.mem_cons_self
    rw [render_cons, List.append_assoc]
    cases t with
    | punct b =>
      have hb : ∀ c ∈ [b], c ≠ 34 ∧ c ≠ 123 ∧ c ≠ 125 := List.forall_mem_cons.mpr ⟨ht, by simp⟩
      rw [Token.bytes, scanObject_outside hb, ih hrest, List.append_assoc]
    | field key value =>
      have hname : ∀ b ∈ key.name, b ≠ 34 ∧ b ≠ 92 := fun b hb =>
        ⟨(key.plain b hb).1, (key.plain b hb).2.1⟩
      have hcolon : ∀ b ∈ [(58 : UInt8)], b ≠ 34 ∧ b ≠ 123 ∧ b ≠ 125 := by decide
      have hstep : ∀ l, scanObject false false depth copied (34 :: (key.name ++ 34 :: 58 :: l)) =
          scanObject false false depth (copied ++ 34 :: (key.name ++ [34, 58])) l := by
        intro l
        rw [scanObject, if_neg (by simp), if_pos rfl, scanObject_inString hname, scanObject,
          if_pos rfl, if_neg (by simp), if_neg (by decide), if_pos rfl]
        have := scanObject_outside hcolon depth (copied ++ [34] ++ key.name ++ [34]) l
        rw [List.singleton_append] at this
        rw [this]
        simp
      rw [Token.bytes]
      simp only [List.cons_append, List.append_assoc]
      rw [hstep, scanObject_value ht, ih hrest]
      simp

/-- `json_get_object` cuts out the object of the first field with the key. -/
theorem jsonGetObject_render {key : Key} {pre body post : List Token} (hflat : Flat body)
    (hc : Closed (pre ++ .field key .brace :: (body ++ .punct 125 :: post)))
    (hpre : ∀ t ∈ pre, t.has key = false) :
    jsonGetObject (render (pre ++ .field key .brace :: (body ++ .punct 125 :: post))) key.name =
      some (render (.punct 123 :: (body ++ [.punct 125]))) := by
  rw [jsonGetObject, findKey_field hc hpre]
  simp only [Value.bytes, List.singleton_append, List.head?_cons, if_true]
  rw [scanObject, if_neg (by simp), if_neg (by decide), if_pos rfl, render_append,
    scanObject_render hflat, render_cons, Token.bytes, List.singleton_append, scanObject,
    if_neg (by simp), if_neg (by decide), if_neg (by decide), if_pos rfl, if_pos (by decide)]
  simp [Token.bytes, render]

theorem jsonGetObject_none {key : Key} {ts : List Token} (hc : Closed ts)
    (hts : ∀ t ∈ ts, t.has key = false) : jsonGetObject (render ts) key.name = none := by
  rw [jsonGetObject, findKey_none hc hts]

/-! ## Encoding prints the tokens -/

theorem length_escapeByte_le (c : UInt8) : (escapeByte c).length ≤ 6 := by
  rcases escapeByte_cases c with ⟨e, h, -⟩ | ⟨h, -⟩ | ⟨h, -⟩ <;> rw [h] <;> simp [formatHex4]

theorem length_jsonEscape_le (v : Bytes) : (jsonEscape v).length ≤ 6 * v.length := by
  induction v with
  | nil => simp [jsonEscape]
  | cons c v ih =>
    have := length_escapeByte_le c
    rw [jsonEscape_cons, List.length_append, List.length_cons]
    omega

theorem sbAppendf_of_le {sb text : Bytes} (h : text.length ≤ 1000) :
    sbAppendf sb text = sb ++ text := by
  rw [sbAppendf, if_pos]
  simp only [intMax]
  omega

/-- The writer after some more tokens. -/
def FieldWriter.print (w : FieldWriter) (ts : List Token) : FieldWriter where
  sb := w.sb ++ render ts
  first := false

theorem FieldWriter.print_print (w : FieldWriter) (ts us : List Token) :
    (w.print ts).print us = w.print (ts ++ us) := by
  simp [FieldWriter.print, render_append]

theorem FieldWriter.print_nil {w : FieldWriter} (h : w.first = false) : w.print [] = w := by
  obtain ⟨sb, first⟩ := w
  simp only at h
  simp [FieldWriter.print, render, h]

theorem Key.length_name_le (key : Key) : key.name.length ≤ 21 := by
  cases key <;> decide

theorem appendJsonFieldPrefix_eq {w : FieldWriter} (h : w.first = false) (key : Key) :
    appendJsonFieldPrefix w key.name =
      { sb := w.sb ++ 44 :: 34 :: (key.name ++ [34, 58]), first := false } := by
  have hname := key.length_name_le
  rw [appendJsonFieldPrefix, h, sbAppendf_of_le]
  · simp [TermSync.bytes, String.utf8EncodeChar]
  · simp [TermSync.bytes, String.utf8EncodeChar]
    omega

theorem appendStringField_eq {w : FieldWriter} (h : w.first = false) (key : Key) {v : Bytes}
    (hv : v.length < 160) : appendStringField w key.name v = w.print (stringTokens key v) := by
  have hesc := length_jsonEscape_le v
  rw [appendStringField, stringTokens]
  split_ifs with hnil
  · exact (FieldWriter.print_nil h).symm
  · rw [appendQuoted, appendJsonFieldPrefix_eq h, sbAppendf_of_le]
    · simp [FieldWriter.print, render, Token.bytes, Value.bytes, TermSync.bytes,
        String.utf8EncodeChar]
    · simp [TermSync.bytes, String.utf8EncodeChar]
      omega

theorem length_formatSize_le_ten {n : ℕ} (h : (n : ℤ) ≤ intMax) : (formatSize n).length ≤ 10 := by
  refine length_formatSize_le (by decide) ?_
  simp only [intMax] at h
  omega

theorem appendIntField_eq {w : FieldWriter} (h : w.first = false) (key : Key) {n : ℤ}
    (hn : VersionField n) : appendIntField w key.name n = w.print (intTokens key n) := by
  rw [appendIntField, intTokens]
  split_ifs with hneg
  · exact (FieldWriter.print_nil h).symm
  · have hlen := length_formatSize_le_ten (n := n.toNat) (by have := hn.2; omega)
    have hshort : (formatSize n.toNat).length ≤ 1000 := by omega
    rw [appendJsonFieldPrefix_eq h, formatInt_of_nonneg (by omega)]
    simp [sbAppendf_of_le hshort, FieldWriter.print, render, Token.bytes, Value.bytes]

theorem jsonEscape_kindName (kind : TsOpKind) :
    jsonEscape (tsOperationKindName kind) = tsOperationKindName kind := by
  cases kind <;> decide

theorem appendOperationField_eq {w : FieldWriter} (h : w.first = false) (key : Key)
    {op : TsOperation} (hop : SentOperation op) :
    appendOperationField w key.name op = w.print (operationTokens key true op) := by
  have hkind : bytes "\x7b\"kind\":\"" = 123 :: 34 :: (Key.kind.name ++ [34, 58, 34]) := by decide
  have hpos : bytes "\",\"pos\":" = 34 :: 44 :: 34 :: (Key.pos.name ++ [34, 58]) := by decide
  have hchar : bytes ",\"char\":\"" = 44 :: 34 :: (Key.char.name ++ [34, 58, 34]) := by decide
  have hreason : bytes ",\"reason\":\"" = 44 :: 34 :: (Key.reason.name ++ [34, 58, 34]) := by
    decide
  have hbrace : bytes "\x7d" = [125] := by decide
  have hlen := length_kindName_le op.kind
  have hdigits := length_formatSize_le_ten hop.pos
  have hch := length_jsonEscape_le op.ch
  have hchlen := hop.ch.1
  have hre := length_jsonEscape_le op.reason
  have hrelen := hop.reason.1
  have hk4 : Key.kind.name.length = 4 := by decide
  have hp3 : Key.pos.name.length = 3 := by decide
  have hc4 : Key.char.name.length = 4 := by decide
  have hr6 : Key.reason.name.length = 6 := by decide
  rw [tsMaxUtf8Char] at hchlen
  rw [tsMaxReason] at hrelen
  rw [appendOperationField, appendJsonFieldPrefix_eq h, hkind, hpos, hchar, hreason, bytes_quote, hbrace,
    sbAppendf_of_le (by simp; omega), sbAppendf_of_le (by simp; omega),
    sbAppendf_of_le (by simp; omega)]
  simp only [operationTokens, operationBody, stringTokens, FieldWriter.print]
  split_ifs <;> simp_all [render, Token.bytes, Value.bytes, jsonEscape_kindName]

/-- The first field follows the opening brace. -/
theorem appendStringField_type {v : Bytes} (hne : v ≠ []) (hv : v.length < 160) :
    appendStringField { sb := bytes "\x7b", first := true } Key.type.name v =
      { sb := render [.punct 123, .field .type (.str v)], first := false } := by
  have hbrace : bytes "\x7b" = [123] := by decide
  have hcolon : bytes "\":" = [34, 58] := by decide
  have ht4 : Key.type.name.length = 4 := by decide
  have hesc := length_jsonEscape_le v
  rw [appendStringField, if_neg hne, appendQuoted, appendJsonFieldPrefix, hbrace, bytes_quote, hcolon,
    sbAppendf_of_le (by simp; omega), sbAppendf_of_le (by simp; omega)]
  simp [render, Token.bytes, Value.bytes]

theorem appendContentField_eq {w : FieldWriter} (h : w.first = false) (content : Option Bytes) :
    appendContentField w content = w.print (contentTokens content) := by
  cases content with
  | none => exact (FieldWriter.print_nil h).symm
  | some content =>
    have hlen : ([34] ++ jsonEscape content ++ [34]).length = (jsonEscape content).length + 2 := by
      simp
    rw [appendContentField, show bytes "content" = Key.content.name from rfl, appendQuoted,
      appendJsonFieldPrefix_eq h, bytes_quote, sbAppendf, hlen]
    simp only [contentTokens, FieldWriter.print]
    push_cast
    split_ifs <;> simp [render, Token.bytes, Value.bytes]

/-- An operation of the message is present, or it is zeroed and left out. -/
theorem operationField_eq {w : FieldWriter} (h : w.first = false) (key : Key) {present : Bool}
    {op : TsOperation} (hop : if present then SentOperation op else op = {}) :
    (if present then appendOperationField w key.name op else w) =
      w.print (operationTokens key present op) := by
  cases present with
  | true => exact appendOperationField_eq h key hop
  | false => exact (FieldWriter.print_nil h).symm

theorem tsEncodeMessage_eq {m : TsMessage} (hm : SentMessage m) :
    tsEncodeMessage m = render (messageTokens m) := by
  have hshort : ∀ {size : ℕ} {text : Bytes}, FitsBuffer size text → size ≤ 160 →
      text.length < 160 := fun h hle => h.1.trans_le hle
  have hend : bytes "\x7d\n" = [125, 10] := by decide
  simp only [tsEncodeMessage]
  rw [show bytes "type" = Key.type.name from rfl,
    appendStringField_type hm.type_ne (hshort hm.type (by decide)),
    show bytes "client_id" = Key.clientId.name from rfl,
    appendStringField_eq rfl _ (hshort hm.clientId (by decide)),
    show bytes "op_id" = Key.opId.name from rfl,
    appendStringField_eq rfl _ (hshort hm.opId (by decide)),
    show bytes "base_version" = Key.baseVersion.name from rfl,
    appendIntField_eq rfl _ hm.baseVersion,
    show bytes "server_version" = Key.serverVersion.name from rfl,
    appendIntField_eq rfl _ hm.serverVersion,
    show bytes "version" = Key.version.name from rfl, appendIntField_eq rfl _ hm.version,
    show bytes "history_start_version" = Key.historyStartVersion.name from rfl,
    appendIntField_eq rfl _ hm.historyStartVersion,
    show bytes "op" = Key.op.name from rfl, operationField_eq rfl _ hm.op,
    show bytes "original_op" = Key.originalOp.name from rfl, operationField_eq rfl _ hm.originalOp,
    show bytes "message" = Key.message.name from rfl,
    appendStringField_eq rfl _ (hshort hm.message (by decide)),
    show bytes "reason" = Key.reason.name from rfl,
    appendStringField_eq rfl _ (hshort hm.reason (by decide)),
    appendContentField_eq rfl, hend]
  simp only [FieldWriter.print_print]
  simp [FieldWriter.print, messageTokens, headTokens, tailTokens, render, Token.bytes]

/-! ## The tokens of a message are in order -/

/-- Closed tokens that begin with a comma or a closing brace. -/
def Tail (ts : List Token) : Prop := AtMark ts ∧ Closed ts

theorem Tail.field {key : Key} {value : Value} {ts : List Token} (h : Tail ts) :
    Tail (.punct 44 :: .field key value :: ts) :=
  ⟨Or.inl rfl, by decide, fun _ => h.1, h.2⟩

theorem Tail.string {ts : List Token} (h : Tail ts) (key : Key) (v : Bytes) :
    Tail (stringTokens key v ++ ts) := by
  rw [stringTokens]
  split_ifs
  · exact h
  · exact h.field

theorem Tail.int {ts : List Token} (h : Tail ts) (key : Key) (n : ℤ) :
    Tail (intTokens key n ++ ts) := by
  rw [intTokens]
  split_ifs
  · exact h
  · exact h.field

theorem Tail.content {ts : List Token} (h : Tail ts) (content : Option Bytes) :
    Tail (contentTokens content ++ ts) := by
  cases content with
  | none => exact h
  | some content => exact h.field

theorem tail_end (ts : List Token) (h : Closed ts) : Tail (.punct 125 :: ts) :=
  ⟨Or.inr rfl, by decide, h⟩

theorem closed_operationBody {ts : List Token} (h : Tail ts) (op : TsOperation) :
    Closed (operationBody op ++ ts) := by
  have hreason := h.string .reason op.reason
  have hchar : Tail ((if op.kind = .insert then [.punct 44, .field .char (.str op.ch)] else []) ++
      (stringTokens .reason op.reason ++ ts)) := by
    split_ifs
    · exact hreason.field
    · exact hreason
  simp only [operationBody, List.append_assoc]
  exact ⟨fun _ => Or.inl rfl, by decide, fun _ => hchar.1, hchar.2⟩

theorem Tail.operation {ts : List Token} (h : Tail ts) (key : Key) (present : Bool)
    (op : TsOperation) : Tail (operationTokens key present op ++ ts) := by
  cases present with
  | false => exact h
  | true =>
    have hbody := closed_operationBody (tail_end ts h.2) op
    simp only [operationTokens, if_true, List.cons_append, List.append_assoc, List.nil_append]
    exact ⟨Or.inl rfl, by decide, fun hne => absurd rfl hne, hbody⟩

theorem tail_tailTokens (m : TsMessage) : Tail (tailTokens m) := by
  have hend : Closed [.punct 10] := ⟨by decide, trivial⟩
  simp only [tailTokens, List.append_assoc]
  exact (((tail_end _ hend).content _).string _ _).string _ _

theorem closed_headTokens {m : TsMessage} {ts : List Token} (h : Tail ts) :
    Closed (headTokens m ++ ts) := by
  have hrest := ((((((h.int .historyStartVersion m.historyStartVersion).int .version m.version).int
    .serverVersion m.serverVersion).int .baseVersion m.baseVersion).string .opId m.opId).string
    .clientId m.clientId)
  simp only [headTokens, List.append_assoc]
  exact ⟨by decide, fun _ => hrest.1, hrest.2⟩

theorem closed_messageTokens (m : TsMessage) : Closed (messageTokens m) := by
  simp only [messageTokens, List.append_assoc]
  exact closed_headTokens (((tail_tailTokens m).operation _ _ _).operation _ _ _)

/-- What the values of well-formed tokens meet: strings are C strings and numbers are small. -/
def Sound (ts : List Token) : Prop :=
  NoNul ts ∧ ∀ t ∈ ts, ∀ n, t.number = some n → n ≤ intMax

theorem Sound.append {ts us : List Token} (ht : Sound ts) (hu : Sound us) : Sound (ts ++ us) := by
  refine ⟨fun t h => ?_, fun t h => ?_⟩ <;> rcases List.mem_append.mp h with h | h
  · exact ht.1 t h
  · exact hu.1 t h
  · exact ht.2 t h
  · exact hu.2 t h

theorem sound_nil : Sound [] := ⟨by simp [NoNul], by simp⟩

theorem Sound.cons {t : Token} {ts : List Token}
    (htext : ∀ text, t.text = some text → ∀ b ∈ text, b ≠ 0)
    (hnum : ∀ n, t.number = some n → n ≤ intMax) (h : Sound ts) : Sound (t :: ts) :=
  ⟨List.forall_mem_cons.mpr ⟨htext, h.1⟩, List.forall_mem_cons.mpr ⟨hnum, h.2⟩⟩

theorem Sound.punct {ts : List Token} (h : Sound ts) (b : UInt8) : Sound (.punct b :: ts) :=
  h.cons (fun _ ht => by cases ht) fun _ hn => by cases hn

theorem Sound.str {ts : List Token} (h : Sound ts) (key : Key) {v : Bytes} (hv : ∀ b ∈ v, b ≠ 0) :
    Sound (.field key (.str v) :: ts) :=
  h.cons (fun text ht => by cases ht; exact hv) fun _ hn => by cases hn

theorem Sound.num {ts : List Token} (h : Sound ts) (key : Key) {n : ℕ} (hn : (n : ℤ) ≤ intMax) :
    Sound (.field key (.num n) :: ts) :=
  h.cons (fun _ ht => by cases ht) fun m hm => by cases hm; exact hn

theorem sound_stringTokens (key : Key) {size : ℕ} {v : Bytes} (h : FitsBuffer size v) :
    Sound (stringTokens key v) := by
  rw [stringTokens]
  split_ifs
  · exact sound_nil
  · exact (sound_nil.str key h.2).punct 44

theorem sound_intTokens (key : Key) {n : ℤ} (h : VersionField n) : Sound (intTokens key n) := by
  rw [intTokens]
  split_ifs
  · exact sound_nil
  · refine (sound_nil.num key ?_).punct 44
    have := h.2
    omega

theorem sound_contentTokens {content : Option Bytes}
    (h : ∀ text, content = some text → ∀ b ∈ text, b ≠ 0) : Sound (contentTokens content) := by
  cases content with
  | none => exact sound_nil
  | some text =>
    rw [contentTokens]
    split_ifs
    · exact (sound_nil.str _ (h text rfl)).punct 44
    · exact (sound_nil.cons (fun _ ht => by cases ht) fun _ hn => by cases hn).punct 44

theorem sound_operationBody {op : TsOperation} (h : SentOperation op) :
    Sound (operationBody op) := by
  have hkind : ∀ b ∈ tsOperationKindName op.kind, b ≠ 0 := by
    cases op.kind <;> decide
  have hchar : Sound (if op.kind = .insert then [.punct 44, .field .char (.str op.ch)] else []) := by
    split_ifs
    · exact (sound_nil.str _ h.ch.2).punct 44
    · exact sound_nil
  exact (((sound_nil.num .pos h.pos).punct 44).str .kind hkind |>.append hchar).append
    (sound_stringTokens _ h.reason)

theorem sound_operationTokens (key : Key) {present : Bool} {op : TsOperation}
    (h : if present then SentOperation op else op = {}) :
    Sound (operationTokens key present op) := by
  cases present with
  | false => exact sound_nil
  | true =>
    have hbody := (sound_operationBody h).append (sound_nil.punct 125)
    exact (hbody.cons (fun _ ht => by cases ht) fun _ hn => by cases hn).punct 44

theorem sound_messageTokens {m : TsMessage} (h : SentMessage m) : Sound (messageTokens m) := by
  have hhead : Sound (headTokens m) :=
    ((((((((sound_nil.str .type h.type.2).punct 123).append (sound_stringTokens _ h.clientId)).append
      (sound_stringTokens _ h.opId)).append (sound_intTokens _ h.baseVersion)).append
      (sound_intTokens _ h.serverVersion)).append (sound_intTokens _ h.version)).append
      (sound_intTokens _ h.historyStartVersion))
  have htail : Sound (tailTokens m) :=
    (((sound_stringTokens _ h.message).append (sound_stringTokens _ h.reason)).append
      (sound_contentTokens h.content)).append ((sound_nil.punct 10).punct 125)
  exact ((hhead.append (sound_operationTokens _ h.op)).append
    (sound_operationTokens _ h.originalOp)).append htail

/-! ## Looking up a key -/

theorem find?_stringTokens (key k : Key) (v : Bytes) :
    (stringTokens key v).find? (Token.has k) =
      if key = k ∧ v ≠ [] then some (.field key (.str v)) else none := by
  rw [stringTokens]
  by_cases hv : v = [] <;> by_cases hk : key = k <;> simp [hv, hk, Token.has]

theorem find?_intTokens (key k : Key) (n : ℤ) :
    (intTokens key n).find? (Token.has k) =
      if key = k ∧ 0 ≤ n then some (.field key (.num n.toNat)) else none := by
  rw [intTokens]
  by_cases hn : n < 0 <;> by_cases hk : key = k <;> simp [hn, hk, Token.has]

theorem find?_contentTokens {k : Key} (hk : k ≠ .content) (content : Option Bytes) :
    (contentTokens content).find? (Token.has k) = none := by
  cases content with
  | none => rfl
  | some text => simp [contentTokens, Token.has, hk.symm]

theorem find?_operationBody (k : Key) (op : TsOperation) :
    (operationBody op).find? (Token.has k) =
      if k = .kind then some (.field .kind (.str (tsOperationKindName op.kind)))
      else if k = .pos then some (.field .pos (.num op.pos))
      else if k = .char ∧ op.kind = .insert then some (.field .char (.str op.ch))
      else if k = .reason ∧ op.reason ≠ [] then some (.field .reason (.str op.reason))
      else none := by
  simp only [operationBody, List.find?_append, find?_stringTokens]
  by_cases hi : op.kind = .insert <;> cases k <;> simp [hi, Token.has]

theorem find?_operationTokens (key k : Key) (present : Bool) (op : TsOperation) :
    (operationTokens key present op).find? (Token.has k) =
      if present then
        if key = k then some (.field key .brace) else (operationBody op).find? (Token.has k)
      else none := by
  cases present with
  | false => rfl
  | true =>
    by_cases hk : key = k <;>
      simp [operationTokens, Token.has, hk, List.find?_append]

/-- The lookup in a message, segment by segment. -/
theorem find?_messageTokens (k : Key) (m : TsMessage) :
    (messageTokens m).find? (Token.has k) =
      (((headTokens m).find? (Token.has k)).or
        (((operationTokens .op m.hasOp m.op).find? (Token.has k)).or
          ((operationTokens .originalOp m.hasOriginalOp m.originalOp).find? (Token.has k)))).or
        ((tailTokens m).find? (Token.has k)) := by
  simp [messageTokens, List.find?_append, Option.or_assoc]

theorem find?_headTokens (k : Key) (m : TsMessage) :
    (headTokens m).find? (Token.has k) =
      match k with
      | .type => some (.field .type (.str m.type))
      | .clientId => if m.clientId ≠ [] then some (.field .clientId (.str m.clientId)) else none
      | .opId => if m.opId ≠ [] then some (.field .opId (.str m.opId)) else none
      | .baseVersion =>
        if 0 ≤ m.baseVersion then some (.field .baseVersion (.num m.baseVersion.toNat)) else none
      | .serverVersion =>
        if 0 ≤ m.serverVersion then some (.field .serverVersion (.num m.serverVersion.toNat))
        else none
      | .version => if 0 ≤ m.version then some (.field .version (.num m.version.toNat)) else none
      | .historyStartVersion =>
        if 0 ≤ m.historyStartVersion then
          some (.field .historyStartVersion (.num m.historyStartVersion.toNat))
        else none
      | _ => none := by
  cases k <;> simp [headTokens, List.find?_append, find?_stringTokens, find?_intTokens, Token.has]

theorem find?_tailTokens (k : Key) (m : TsMessage) :
    (tailTokens m).find? (Token.has k) =
      match k with
      | .message => if m.message ≠ [] then some (.field .message (.str m.message)) else none
      | .reason => if m.reason ≠ [] then some (.field .reason (.str m.reason)) else none
      | .content => (contentTokens m.content).find? (Token.has .content)
      | _ => none := by
  cases k <;>
    simp [tailTokens, List.find?_append, find?_stringTokens, find?_contentTokens, Token.has]

/-! ## Decoding -/

/-- What `json_get_string` reads from tokens. -/
theorem jsonGetString_render {ts : List Token} (hc : Closed ts) (hs : Sound ts) (key : Key)
    (size : ℕ) :
    jsonGetString (render ts) key.name size =
      ((ts.find? (Token.has key)).bind Token.text).map (snprintf size) := by
  rw [jsonGetString, jsonGetContent_render hc hs.1]

theorem snprintf_of_fits {size : ℕ} {text : Bytes} (h : FitsBuffer size text) :
    snprintf size text = text :=
  List.take_of_length_le (by have := h.1; omega)

theorem tsOperationKindFromName_name (kind : TsOpKind) :
    tsOperationKindFromName (tsOperationKindName kind) = kind := by
  cases kind <;> decide

/-- The text of an operation object. -/
def operationObject (op : TsOperation) : List Token :=
  .punct 123 :: (operationBody op ++ [.punct 125])

theorem find?_operationObject (k : Key) (op : TsOperation) :
    (operationObject op).find? (Token.has k) = (operationBody op).find? (Token.has k) := by
  simp [operationObject, Token.has, List.find?_append]

/-- An encoded operation is parsed back. -/
theorem parseOperationObject_render {op : TsOperation} (h : SentOperation op) (errorSize : ℕ) :
    parseOperationObject errorSize (render (operationObject op)) = (op, none) := by
  have hc : Closed (operationObject op) := by
    have hend : Closed [] := trivial
    exact ⟨by decide, closed_operationBody (tail_end _ hend) op⟩
  have hs : Sound (operationObject op) :=
    ((sound_operationBody h).append (sound_nil.punct 125)).punct 123
  have hkind : snprintf tsMaxType (tsOperationKindName op.kind) = tsOperationKindName op.kind :=
    snprintf_of_fits ⟨(length_kindName_le op.kind).trans_lt (by decide), by cases op.kind <;> decide⟩
  have hreason : ((jsonGetString (render (operationObject op)) Key.reason.name
      tsMaxReason).getD []) = op.reason := by
    rw [jsonGetString_render hc hs, find?_operationObject, find?_operationBody]
    by_cases hr : op.reason = []
    · simp [hr]
    · simp [hr, Token.text, snprintf_of_fits h.reason]
  have hpos : operationPos (render (operationObject op)) = op.pos := by
    rw [operationPos, show bytes "pos" = Key.pos.name from rfl, jsonGetInt_render hc hs.2,
      find?_operationObject, find?_operationBody]
    by_cases hp : op.pos = 0 <;> simp [hp, Token.number, Nat.pos_of_ne_zero]
  have hchar : op.kind = .insert → jsonGetString (render (operationObject op)) Key.char.name
      tsMaxUtf8Char = some op.ch := by
    intro hi
    rw [jsonGetString_render hc hs, find?_operationObject, find?_operationBody]
    simp [hi, Token.text, snprintf_of_fits h.ch]
  rw [parseOperationObject, show bytes "kind" = Key.kind.name from rfl, jsonGetString_render hc hs,
    find?_operationObject, find?_operationBody, show bytes "char" = Key.char.name from rfl,
    show bytes "reason" = Key.reason.name from rfl, hreason, hpos]
  simp only [if_true, Option.bind_some, Token.text, Option.map_some, hkind,
    tsOperationKindFromName_name, if_neg h.kind]
  split_ifs with hi
  · rw [hchar hi]
    simp only [h.insert hi, ne_eq, not_true_eq_false, if_false, snprintf_of_fits h.ch]
  · have hch := h.empty hi
    obtain ⟨kind, pos, ch, reason⟩ := op
    simp only at hch
    rw [hch]

theorem getD_string {o : Option Token} {k : Key} {size : ℕ} {v : Bytes}
    (ho : o = if v ≠ [] then some (.field k (.str v)) else none) (hv : FitsBuffer size v) :
    ((o.bind Token.text).map (snprintf size)).getD [] = v := by
  rw [ho]
  split_ifs with hne
  · simp [Token.text, snprintf_of_fits hv]
  · exact (not_not.mp hne).symm

theorem getD_int {o : Option Token} {k : Key} {n : ℤ}
    (ho : o = if 0 ≤ n then some (.field k (.num n.toNat)) else none) (hn : VersionField n) :
    (o.bind Token.number).getD (-1) = n := by
  rw [ho]
  split_ifs with hle
  · exact Int.toNat_of_nonneg hle
  · have := hn.1
    simp only [Option.bind_none, Option.getD_none]
    omega

/-- The content that the encoder prints. -/
def printedContent (m : TsMessage) : Option Bytes :=
  m.content.filter fun content => ((jsonEscape content).length + 2 : ℤ) ≤ intMax

theorem text_contentTokens (m : TsMessage) :
    ((contentTokens m.content).find? (Token.has .content)).bind Token.text = printedContent m := by
  cases hcontent : m.content with
  | none => simp [contentTokens, printedContent, hcontent]
  | some text =>
    by_cases hle : ((jsonEscape text).length + 2 : ℤ) ≤ intMax <;>
      simp [contentTokens, printedContent, hcontent, hle, Token.has, Token.text, Option.filter]

theorem find?_reason (m : TsMessage) :
    (messageTokens m).find? (Token.has .reason) =
      if foundReason m ≠ [] then some (.field .reason (.str (foundReason m))) else none := by
  rw [find?_messageTokens, find?_headTokens, find?_operationTokens, find?_operationTokens,
    find?_tailTokens, find?_operationBody, find?_operationBody]
  by_cases hop : m.hasOp = true <;> by_cases horig : m.hasOriginalOp = true <;>
    by_cases h1 : m.op.reason = [] <;> by_cases h2 : m.originalOp.reason = [] <;>
    simp [foundReason, nestedReason, hop, horig, h1, h2]

theorem has_eq_false {k : Key} {ts : List Token} (h : ts.find? (Token.has k) = none) :
    ∀ t ∈ ts, t.has k = false :=
  fun t ht => by simpa using List.find?_eq_none.mp h t ht

theorem flat_operationBody (op : TsOperation) : Flat (operationBody op) := by
  have happ : ∀ {ts us : List Token}, Flat ts → Flat us → Flat (ts ++ us) := fun ht hu t h =>
    (List.mem_append.mp h).elim (ht t) (hu t)
  have hfield : ∀ key v, Flat [.punct 44, .field key (.str v)] := fun key v =>
    List.forall_mem_cons.mpr ⟨by decide, List.forall_mem_cons.mpr ⟨by simp, by simp⟩⟩
  have hnil : Flat [] := by simp [Flat]
  refine happ (happ ?_ ?_) ?_
  · exact List.forall_mem_cons.mpr ⟨by simp, List.forall_mem_cons.mpr ⟨by decide,
      List.forall_mem_cons.mpr ⟨by simp, by simp⟩⟩⟩
  · split_ifs
    · exact hfield _ _
    · exact hnil
  · rw [stringTokens]
    split_ifs
    · exact hnil
    · exact hfield _ _

/-- An operation among closed tokens is cut out of them. -/
theorem jsonGetObject_operation {key : Key} {present : Bool} {op : TsOperation}
    {pre post : List Token} (hc : Closed (pre ++ (operationTokens key present op ++ post)))
    (hpre : pre.find? (Token.has key) = none) (hpost : post.find? (Token.has key) = none) :
    jsonGetObject (render (pre ++ (operationTokens key present op ++ post))) key.name =
      if present then some (render (operationObject op)) else none := by
  cases present with
  | false =>
    refine jsonGetObject_none hc (has_eq_false ?_)
    simp [operationTokens, List.find?_append, hpre, hpost]
  | true =>
    have heq : pre ++ (operationTokens key true op ++ post) =
        (pre ++ [.punct 44]) ++ .field key .brace :: (operationBody op ++ .punct 125 :: post) := by
      simp [operationTokens]
    rw [heq] at hc ⊢
    refine jsonGetObject_render (flat_operationBody op) hc (has_eq_false ?_)
    simp [List.find?_append, hpre, Token.has]

theorem jsonGetObject_op (m : TsMessage) :
    jsonGetObject (render (messageTokens m)) Key.op.name =
      if m.hasOp then some (render (operationObject m.op)) else none := by
  have hc := closed_messageTokens m
  have heq : messageTokens m = headTokens m ++ (operationTokens .op m.hasOp m.op ++
      (operationTokens .originalOp m.hasOriginalOp m.originalOp ++ tailTokens m)) := by
    simp [messageTokens]
  rw [heq] at hc ⊢
  refine jsonGetObject_operation hc (find?_headTokens _ _) ?_
  rw [List.find?_append, find?_operationTokens, find?_operationBody, find?_tailTokens]
  simp

theorem jsonGetObject_originalOp (m : TsMessage) :
    jsonGetObject (render (messageTokens m)) Key.originalOp.name =
      if m.hasOriginalOp then some (render (operationObject m.originalOp)) else none := by
  have hc := closed_messageTokens m
  have heq : messageTokens m = (headTokens m ++ operationTokens .op m.hasOp m.op) ++
      (operationTokens .originalOp m.hasOriginalOp m.originalOp ++ tailTokens m) := by
    simp [messageTokens]
  rw [heq] at hc ⊢
  refine jsonGetObject_operation hc ?_ (find?_tailTokens _ _)
  rw [List.find?_append, find?_operationTokens, find?_operationBody, find?_headTokens]
  simp

/-- A key that no operation uses is looked up in the fields around the operations. -/
theorem find?_messageTokens_outside {k : Key}
    (hk : k ∉ [Key.op, .originalOp, .kind, .pos, .char, .reason]) (m : TsMessage) :
    (messageTokens m).find? (Token.has k) =
      ((headTokens m).find? (Token.has k)).or ((tailTokens m).find? (Token.has k)) := by
  simp only [List.mem_cons, List.not_mem_nil, or_false, not_or] at hk
  obtain ⟨hop, horig, hkind, hpos, hchar, hreason⟩ := hk
  simp [find?_messageTokens, find?_operationTokens, find?_operationBody, hkind, hpos, hchar,
    hreason, Ne.symm hop, Ne.symm horig]

/-- Decoding an encoded message restores every field but the reason, which is the one found first,
and a content that was too long to be printed. -/
theorem tsDecodeMessage_encode {m : TsMessage} (hm : SentMessage m) (errorSize : ℕ) :
    tsDecodeMessage errorSize (tsEncodeMessage m) =
      .ok { m with reason := foundReason m, content := printedContent m } := by
  have hc := closed_messageTokens m
  have hs := sound_messageTokens hm
  have hstart : skipWs (render (messageTokens m)) = render (messageTokens m) ∧
      (render (messageTokens m)).head? = some 123 := by
    have hcons : ∃ t, render (messageTokens m) = 123 :: t := ⟨_, rfl⟩
    obtain ⟨t, ht⟩ := hcons
    rw [ht]
    exact ⟨by simp [skipWs, isSpace], rfl⟩
  have hreason : FitsBuffer tsMaxReason (foundReason m) := by
    have hop := hm.op
    have horig := hm.originalOp
    simp only [foundReason, nestedReason]
    split_ifs at hop horig ⊢ <;>
      first | exact hm.reason | exact hop.reason | exact horig.reason | simp_all
  have hstring : ∀ {k : Key} {size : ℕ} {v : Bytes}, FitsBuffer size v →
      (messageTokens m).find? (Token.has k) =
        (if v ≠ [] then some (.field k (.str v)) else none) →
      (jsonGetString (render (messageTokens m)) k.name size).getD [] = v := by
    intro k size v hv hfind
    rw [jsonGetString_render hc hs]
    exact getD_string hfind hv
  have hint : ∀ {k : Key} {n : ℤ}, VersionField n →
      (messageTokens m).find? (Token.has k) =
        (if 0 ≤ n then some (.field k (.num n.toNat)) else none) →
      (jsonGetInt (render (messageTokens m)) k.name).getD (-1) = n := by
    intro k n hn hfind
    rw [jsonGetInt_render hc hs.2]
    exact getD_int hfind hn
  have hhead : ∀ {k : Key}, k ∉ [Key.op, .originalOp, .kind, .pos, .char, .reason] →
      (tailTokens m).find? (Token.has k) = none →
      (messageTokens m).find? (Token.has k) = (headTokens m).find? (Token.has k) := by
    intro k hk htail
    rw [find?_messageTokens_outside hk, htail, Option.or_none]
  have htype : jsonGetString (render (messageTokens m)) Key.type.name tsMaxType =
      some m.type := by
    rw [jsonGetString_render hc hs, hhead (by decide) (find?_tailTokens _ _), find?_headTokens]
    simp [Token.text, snprintf_of_fits hm.type]
  have hclient := hstring hm.clientId
    ((hhead (by decide) (find?_tailTokens _ _)).trans (find?_headTokens .clientId m))
  have hopId := hstring hm.opId
    ((hhead (by decide) (find?_tailTokens _ _)).trans (find?_headTokens .opId m))
  have hmessage := hstring (k := .message) hm.message (by
    rw [find?_messageTokens_outside (by decide), find?_headTokens, find?_tailTokens,
      Option.none_or])
  have hreason' := hstring hreason (find?_reason m)
  have hbase := hint hm.baseVersion
    ((hhead (by decide) (find?_tailTokens _ _)).trans (find?_headTokens .baseVersion m))
  have hserver := hint hm.serverVersion
    ((hhead (by decide) (find?_tailTokens _ _)).trans (find?_headTokens .serverVersion m))
  have hversion := hint hm.version
    ((hhead (by decide) (find?_tailTokens _ _)).trans (find?_headTokens .version m))
  have hhistory := hint hm.historyStartVersion
    ((hhead (by decide) (find?_tailTokens _ _)).trans (find?_headTokens .historyStartVersion m))
  have hcontent : jsonGetContent (render (messageTokens m)) Key.content.name = printedContent m := by
    rw [jsonGetContent_render hc hs.1, find?_messageTokens_outside (by decide), find?_headTokens,
      find?_tailTokens, Option.none_or, text_contentTokens]
  rw [tsEncodeMessage_eq hm, tsDecodeMessage, hstart.1, hstart.2]
  simp only [ne_eq, not_true_eq_false, if_false]
  rw [show bytes "type" = Key.type.name from rfl, htype]
  simp only [show bytes "client_id" = Key.clientId.name from rfl,
    show bytes "op_id" = Key.opId.name from rfl, show bytes "message" = Key.message.name from rfl,
    show bytes "reason" = Key.reason.name from rfl,
    show bytes "base_version" = Key.baseVersion.name from rfl,
    show bytes "server_version" = Key.serverVersion.name from rfl,
    show bytes "version" = Key.version.name from rfl,
    show bytes "history_start_version" = Key.historyStartVersion.name from rfl,
    show bytes "content" = Key.content.name from rfl, show bytes "op" = Key.op.name from rfl,
    show bytes "original_op" = Key.originalOp.name from rfl, hclient, hopId, hmessage, hreason',
    hbase, hserver, hversion, hhistory, hcontent, jsonGetObject_op, jsonGetObject_originalOp]
  -- the operations are absent and zeroed, or they are parsed back
  have hop := hm.op
  have horig := hm.originalOp
  by_cases h1 : m.hasOp = true <;> by_cases h2 : m.hasOriginalOp = true <;>
    simp only [h1, h2, if_true, if_false, Bool.false_eq_true] at hop horig ⊢ <;>
    simp_all [parseOperationObject_render, tsMessageInit]

theorem printedContent_eq_iff (m : TsMessage) :
    printedContent m = m.content ↔
      ∀ content, m.content = some content → ((jsonEscape content).length + 2 : ℤ) ≤ intMax := by
  cases hcontent : m.content with
  | none => simp [printedContent, hcontent]
  | some text =>
    by_cases hle : ((jsonEscape text).length + 2 : ℤ) ≤ intMax <;>
      simp [printedContent, hcontent, Option.filter, hle]

theorem foundReason_eq_iff (m : TsMessage) :
    foundReason m = m.reason ↔ nestedReason m = [] ∨ nestedReason m = m.reason := by
  by_cases h : nestedReason m = [] <;> simp [foundReason, h]

/-- Encoding and decoding restore a message exactly when its content is short enough to be printed
and no operation of it carries a reason that differs from the reason of the message. -/
theorem decode_encode_iff (m : TsMessage) (hm : SentMessage m) (errorSize : ℕ) :
    tsDecodeMessage errorSize (tsEncodeMessage m) = .ok m ↔
      (∀ content, m.content = some content → ((jsonEscape content).length + 2 : ℤ) ≤ intMax) ∧
      (nestedReason m = [] ∨ nestedReason m = m.reason) := by
  have heq : { m with reason := foundReason m, content := printedContent m } = m ↔
      printedContent m = m.content ∧ foundReason m = m.reason := by
    constructor
    · intro h
      exact ⟨congrArg TsMessage.content h, congrArg TsMessage.reason h⟩
    · rintro ⟨hcontent, hreason⟩
      rw [hcontent, hreason]
  rw [tsDecodeMessage_encode hm, Except.ok.injEq, heq, printedContent_eq_iff, foundReason_eq_iff]

/-- The acknowledgement of a second deletion of the same character. -/
def noopAck : TsMessage :=
  { tsMessageInit with
    type := typeAck
    clientId := bytes "u2"
    opId := bytes "u2-1"
    baseVersion := 0
    serverVersion := 2
    version := 2
    op := tsOperationNoop (tsOperationInit .delete 1 []) (bytes "same character already deleted")
    hasOp := true
    originalOp := tsOperationInit .delete 1 []
    hasOriginalOp := true }

theorem sentMessage_noopAck : SentMessage noopAck where
  type_ne := by decide
  type := by decide
  clientId := by decide
  opId := by decide
  message := by decide
  reason := by decide
  baseVersion := by decide
  serverVersion := by decide
  version := by decide
  historyStartVersion := by decide
  op := ⟨by decide, by decide, by decide, by decide, by decide, by decide⟩
  originalOp := ⟨by decide, by decide, by decide, by decide, by decide, by decide⟩
  content := by simp [noopAck, tsMessageInit]

/-- An acknowledgement whose own reason is the reason of its operation is restored. -/
theorem decode_encode_noopAck :
    tsDecodeMessage 160 (tsEncodeMessage { noopAck with reason := noopAck.op.reason }) =
      .ok { noopAck with reason := noopAck.op.reason } := by
  have hsent : SentMessage { noopAck with reason := noopAck.op.reason } :=
    { sentMessage_noopAck with reason := by decide }
  exact (decode_encode_iff _ hsent 160).mpr ⟨by simp [noopAck, tsMessageInit], Or.inr (by decide)⟩

/-- The reason of its operation shows up as the reason of the message. -/
theorem decode_encode_noopAck_ne :
    SentMessage noopAck ∧ tsDecodeMessage 160 (tsEncodeMessage noopAck) ≠ .ok noopAck := by
  refine ⟨sentMessage_noopAck, fun h => ?_⟩
  rw [tsDecodeMessage_encode sentMessage_noopAck, Except.ok.injEq] at h
  exact absurd (congrArg TsMessage.reason h) (by decide)

end TermSync
