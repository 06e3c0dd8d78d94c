import TermSync.Proofs.DecodeProofs
import TermSync.Proofs.ProtocolProofs

/-!
# Proofs: what the decoder accepts

Whatever stands in a line, a message that `ts_decode_message` accepts fits its buffers (`sent_kept`). The
encoder prints a part of it, its normal form, and that part comes back from there on unchanged
(`decode_normal`).
-/

namespace TermSync

/-! ## Parts of a line -/

theorem strstr_suffix {pattern text found : Bytes} (h : strstr pattern text = some found) :
    found <:+ text := by
  induction text with
  | nil =>
    unfold strstr at h
    split_ifs at h
    obtain rfl := Option.some.inj h
    exact List.suffix_rfl
  | cons b text ih =>
    unfold strstr at h
    split_ifs at h
    · obtain rfl := Option.some.inj h
      exact List.suffix_rfl
    · exact (ih h).trans (List.suffix_cons b text)

theorem skipWs_suffix (p : Bytes) : skipWs p <:+ p := List.dropWhile_suffix _

/-- What `find_key` returns is the end of the text. -/
theorem findKeyLoop_suffix {pattern : Bytes} (fuel : ℕ) {p value : Bytes}
    (h : findKeyLoop pattern fuel p = some value) : value <:+ p := by
  induction fuel generalizing p with
  | zero => cases h
  | succ fuel ih =>
    unfold findKeyLoop at h
    cases hfound : strstr pattern p with
    | none =>
      rw [hfound] at h
      cases h
    | some found =>
      rw [hfound] at h
      have hdrop : found.drop pattern.length <:+ p :=
        (List.drop_suffix _ _).trans (strstr_suffix hfound)
      dsimp only at h
      split_ifs at h
      · obtain rfl := Option.some.inj h
        refine (skipWs_suffix _).trans (List.IsSuffix.trans ?_ ((skipWs_suffix _).trans hdrop))
        exact List.tail_suffix _
      · exact (ih h).trans hdrop

theorem findKey_suffix {json key value : Bytes} (h : findKey json key = some value) : value <:+ json :=
  findKeyLoop_suffix _ h

theorem jsonGetContent_ok {json key value : Bytes} (hjson : ∀ b ∈ json, b ≠ 0)
    (h : jsonGetContent json key = some value) :
    (∀ b ∈ value, b ≠ 0) ∧ value.length ≤ json.length := by
  obtain ⟨text, hkey, hparse⟩ := Option.bind_eq_some_iff.mp h
  have hsuffix := findKey_suffix hkey
  cases text with
  | nil => cases hparse
  | cons b start =>
    obtain ⟨⟨parsed, rest⟩, hloop, hvalue⟩ := Option.map_eq_some_iff.mp hparse
    obtain rfl : parsed = value := hvalue
    simp only [parseJsonStringAllocEnd] at hloop
    split_ifs at hloop
    obtain ⟨hnul, hlength⟩ := parseStringLoop_ok hloop (List.forall_mem_nil _)
      fun c hc => hjson c (hsuffix.subset (List.mem_cons_of_mem b hc))
    have hle := hsuffix.length_le
    rw [List.length_nil] at hlength
    rw [List.length_cons] at hle
    exact ⟨hnul, by omega⟩

/-- A string field fits its buffer, also when it is left at its default. -/
theorem fitsBuffer_jsonGetString {json : Bytes} (key : Bytes) {size : ℕ} (hjson : ∀ b ∈ json, b ≠ 0)
    (hsize : 0 < size) : FitsBuffer size ((jsonGetString json key size).getD []) := by
  unfold jsonGetString
  cases hcontent : jsonGetContent json key with
  | none => exact ⟨hsize, List.forall_mem_nil _⟩
  | some text =>
    refine ⟨?_, fun b hb => (jsonGetContent_ok hjson hcontent).1 b (List.mem_of_mem_take hb)⟩
    simp only [Option.map_some, Option.getD_some, snprintf, List.length_take]
    omega

theorem jsonGetInt_range {json key : Bytes} {n : ℤ} (h : jsonGetInt json key = some n) :
    intMin ≤ n ∧ n ≤ intMax := by
  obtain ⟨parsed, -, rfl⟩ := Option.map_eq_some_iff.mp h
  simp only [toInt, Int.bmod, intMin, intMax]
  omega

/-- An object that is cut out is a part of the line. -/
theorem mem_of_scanObject {inString escape : Bool} {depth : ℤ} {copied value object : Bytes}
    (h : scanObject inString escape depth copied value = some object) {b : UInt8} (hb : b ∈ object) :
    b ∈ copied ∨ b ∈ value := by
  have hpass {copied : Bytes} {ch : UInt8} {value : Bytes} (hmem : b ∈ copied ++ [ch] ∨ b ∈ value) :
      b ∈ copied ∨ b ∈ ch :: value := by
    simp only [List.mem_append, List.mem_cons] at hmem ⊢
    tauto
  fun_induction scanObject inString escape depth copied value with
  | case1 => cases h
  | case8 =>
    obtain rfl := Option.some.inj h
    exact hpass (Or.inl hb)
  | _ =>
    rename_i ih
    exact hpass (ih h)

theorem jsonGetObject_ok {json key object : Bytes} (hjson : ∀ b ∈ json, b ≠ 0)
    (h : jsonGetObject json key = some object) : ∀ b ∈ object, b ≠ 0 := by
  unfold jsonGetObject at h
  cases hkey : findKey json key with
  | none =>
    rw [hkey] at h
    cases h
  | some value =>
    rw [hkey] at h
    dsimp only at h
    split_ifs at h
    intro b hb
    rcases mem_of_scanObject h hb with hb | hb
    · exact absurd hb List.not_mem_nil
    · exact hjson b ((findKey_suffix hkey).subset hb)

/-! ## Messages -/

theorem operationPos_le (json : Bytes) : (operationPos json : ℤ) ≤ intMax := by
  unfold operationPos
  cases hpos : jsonGetInt json (bytes "pos") with
  | none =>
    simp only [intMax]
    omega
  | some pos =>
    have hrange := (jsonGetInt_range hpos).2
    dsimp only
    split_ifs
    · omega
    · simp only [intMax]
      omega

/-- An operation that is accepted is one that could have been sent. -/
theorem sentOperation_of_parse {errorSize : ℕ} {json : Bytes} {op : TsOperation}
    (hjson : ∀ b ∈ json, b ≠ 0) (h : parseOperationObject errorSize json = (op, none)) :
    SentOperation op := by
  have hreason : FitsBuffer tsMaxReason ((jsonGetString json (bytes "reason") tsMaxReason).getD []) :=
    fitsBuffer_jsonGetString (bytes "reason") hjson (by decide)
  unfold parseOperationObject at h
  cases hkind : jsonGetString json (bytes "kind") tsMaxType with
  | none =>
    rw [hkind] at h
    cases (Prod.mk.inj h).2
  | some kind =>
    rw [hkind] at h
    dsimp only at h
    split_ifs at h with hinvalid hinsert
    · cases (Prod.mk.inj h).2
    · cases hch : jsonGetString json (bytes "char") tsMaxUtf8Char with
      | none =>
        rw [hch] at h
        cases (Prod.mk.inj h).2
      | some ch =>
        have hfits := fitsBuffer_jsonGetString (bytes "char") hjson (show 0 < tsMaxUtf8Char by decide)
        rw [hch, Option.getD_some] at hfits
        rw [hch] at h
        dsimp only at h
        split_ifs at h with hone
        · cases (Prod.mk.inj h).2
        · obtain rfl := (Prod.mk.inj h).1
          have hcut : snprintf tsMaxUtf8Char ch = ch := snprintf_of_fits hfits
          constructor
          · exact hinvalid
          · exact operationPos_le json
          · exact hreason
          · exact hcut.symm ▸ hfits
          · intro _
            rw [hcut]
            exact not_not.mp hone
          · exact fun hne => absurd hinsert hne
    · obtain rfl := (Prod.mk.inj h).1
      constructor
      · exact hinvalid
      · exact operationPos_le json
      · exact hreason
      · exact ⟨(by decide : 0 < tsMaxUtf8Char), List.forall_mem_nil _⟩
      · exact fun hinsert' => absurd hinsert' hinsert
      · exact fun _ => rfl

theorem appendIntField_max (w : FieldWriter) (name : Bytes) (value : ℤ) :
    appendIntField w name (max (-1) value) = appendIntField w name value := by
  by_cases hneg : value < 0
  · have hmax : max (-1) value < 0 := by omega
    rw [appendIntField, appendIntField, if_pos hneg, if_pos hmax]
  · have hmax : max (-1) value = value := by omega
    rw [hmax]

theorem tsEncodeMessage_kept (m : TsMessage) : tsEncodeMessage m.kept = tsEncodeMessage m := by
  cases hhas : m.hasOriginalOp with
  | false =>
    simp only [tsEncodeMessage, TsMessage.kept, appendIntField_max, hhas, Bool.false_eq_true, if_false]
  | true => simp only [tsEncodeMessage, TsMessage.kept, appendIntField_max, hhas, if_true]

theorem versionField_max {json key : Bytes} : VersionField (max (-1) ((jsonGetInt json key).getD (-1))) := by
  cases hvalue : jsonGetInt json key with
  | none => decide
  | some n =>
    have hrange := (jsonGetInt_range hvalue).2
    simp only [Option.getD_some, VersionField, intMax] at hrange ⊢
    omega

/-- A message that is accepted is one that could have been sent, apart from what the encoder leaves out
anyway. -/
theorem sent_kept {errorSize : ℕ} {line : Bytes} {m : TsMessage} (hline : ∀ b ∈ line, b ≠ 0)
    (h : tsDecodeMessage errorSize line = .ok m) (htype : m.type ≠ []) : SentMessage m.kept := by
  obtain ⟨type, withOp, hgot, hop, horiginal⟩ := tsDecodeMessage_ok h
  have hjson : ∀ b ∈ skipWs line, b ≠ 0 := fun b hb => hline b ((skipWs_suffix line).subset hb)
  have hstring (key : Bytes) {size : ℕ} (hsize : 0 < size) :
      FitsBuffer size ((jsonGetString (skipWs line) key size).getD []) :=
    fitsBuffer_jsonGetString key hjson hsize
  have hwithOp : ∃ op hasOp, withOp = { decodeFields (skipWs line) type with op := op, hasOp := hasOp } ∧
      if hasOp then SentOperation op else op = {} := by
    rcases decodeOp_ok hop with ⟨-, rfl⟩ | ⟨opJson, op, hobject, hparse, rfl⟩
    · exact ⟨{}, false, rfl, rfl⟩
    · exact ⟨op, true, rfl, sentOperation_of_parse (jsonGetObject_ok hjson hobject) hparse⟩
  obtain ⟨op, hasOp, rfl, hsentOp⟩ := hwithOp
  have hm : ∃ originalOp hasOriginalOp, m = { decodeFields (skipWs line) type with
        op := op
        hasOp := hasOp
        originalOp := originalOp
        hasOriginalOp := hasOriginalOp } ∧
      (hasOriginalOp = true → SentOperation originalOp) := by
    rcases decodeOriginalOp_ok horiginal with ⟨-, rfl⟩ | ⟨originalJson, hobject, rfl⟩
    · exact ⟨{}, false, rfl, fun h => absurd h Bool.false_ne_true⟩
    · refine ⟨_, _, rfl, fun hnone => ?_⟩
      have hparse : parseOperationObject errorSize originalJson =
          ((parseOperationObject errorSize originalJson).1, none) :=
        Prod.ext rfl (Option.isNone_iff_eq_none.mp hnone)
      exact sentOperation_of_parse (jsonGetObject_ok hjson hobject) hparse
  obtain ⟨originalOp, hasOriginalOp, rfl, hsentOriginal⟩ := hm
  have hgot' : (jsonGetString (skipWs line) (bytes "type") tsMaxType).getD [] = type := by
    rw [hgot, Option.getD_some]
  constructor
  · exact htype
  · exact hgot' ▸ hstring (bytes "type") (by decide)
  · exact hstring (bytes "client_id") (by decide)
  · exact hstring (bytes "op_id") (by decide)
  · exact hstring (bytes "message") (by decide)
  · exact hstring (bytes "reason") (by decide)
  · exact versionField_max
  · exact versionField_max
  · exact versionField_max
  · exact versionField_max
  · exact hsentOp
  · cases hasOriginalOp with
    | false => rfl
    | true => exact hsentOriginal rfl
  · exact fun content hcontent => (jsonGetContent_ok hjson hcontent).1

/-! ## The normal form -/

theorem fitsBuffer_foundReason {m : TsMessage} (hm : SentMessage m) :
    FitsBuffer tsMaxReason (foundReason m) := by
  have hop := hm.op
  have horiginal := hm.originalOp
  by_cases hne : nestedReason m = []
  · rw [foundReason, if_neg (not_not.mpr hne)]
    exact hm.reason
  · rw [foundReason, if_pos hne]
    unfold nestedReason at hne ⊢
    split_ifs at hne ⊢ with hhas hhas'
    · rw [if_pos hhas.1] at hop
      exact hop.reason
    · rw [if_pos hhas'] at horiginal
      exact horiginal.reason
    · exact absurd rfl hne

theorem nestedReason_kept (m : TsMessage) : nestedReason m.kept = nestedReason m := by
  unfold nestedReason TsMessage.kept
  cases m.hasOriginalOp <;> simp

theorem foundReason_kept (m : TsMessage) : foundReason m.kept = foundReason m := by
  rw [foundReason, foundReason, nestedReason_kept]
  rfl

/-- The first reason of the normal form is its own. -/
theorem foundReason_normal (m : TsMessage) : foundReason m.normal = m.normal.reason := by
  have hnested : nestedReason m.normal = nestedReason m := nestedReason_kept m
  rw [foundReason_eq_iff, hnested]
  by_cases hne : nestedReason m = []
  · exact Or.inl hne
  · exact Or.inr (if_pos hne).symm

theorem tsDecodeMessage_content {errorSize : ℕ} {line : Bytes} {m : TsMessage}
    (h : tsDecodeMessage errorSize line = .ok m) :
    m.content = jsonGetContent (skipWs line) (bytes "content") := by
  obtain ⟨type, withOp, -, hop, horiginal⟩ := tsDecodeMessage_ok h
  rcases decodeOp_ok hop with ⟨-, rfl⟩ | ⟨opJson, op, -, -, rfl⟩ <;>
    rcases decodeOriginalOp_ok horiginal with ⟨-, rfl⟩ | ⟨originalJson, -, rfl⟩ <;> rfl

/-- The content of a line that fits the buffer of the receiver can be printed. -/
theorem printed_of_decode {errorSize : ℕ} {line : Bytes} {m : TsMessage} (hline : ∀ b ∈ line, b ≠ 0)
    (hlength : line.length ≤ tsMaxLineBytes) (h : tsDecodeMessage errorSize line = .ok m)
    (content : Bytes) (hcontent : m.content = some content) :
    ((jsonEscape content).length + 2 : ℤ) ≤ intMax := by
  rw [tsDecodeMessage_content h] at hcontent
  have hle := (jsonGetContent_ok (fun b hb => hline b ((skipWs_suffix line).subset hb)) hcontent).2
  have hskip := (skipWs_suffix line).length_le
  have hescape := length_jsonEscape_le content
  simp only [tsMaxLineBytes] at hlength
  simp only [intMax]
  omega

/-- A message that has been decoded from any line fits its buffers, apart from what the encoder leaves out
anyway. Encoding and decoding it again yields its normal form, which encoding and decoding then restore. -/
theorem decode_normal (errorSize errorSize' : ℕ) (line : Bytes) (m : TsMessage)
    (hline : ∀ b ∈ line, b ≠ 0) (hlength : line.length ≤ tsMaxLineBytes)
    (h : tsDecodeMessage errorSize line = .ok m) (htype : m.type ≠ []) :
    SentMessage m.kept ∧ tsDecodeMessage errorSize' (tsEncodeMessage m) = .ok m.normal ∧
      tsDecodeMessage errorSize' (tsEncodeMessage m.normal) = .ok m.normal := by
  have hsent := sent_kept hline h htype
  have hprinted : printedContent m = m.content :=
    (printedContent_eq_iff m).mpr (printed_of_decode hline hlength h)
  have hreason := fitsBuffer_foundReason hsent
  rw [foundReason_kept] at hreason
  have hnormal : SentMessage m.normal := { hsent with reason := hreason }
  refine ⟨hsent, ?_, ?_⟩
  · rw [← tsEncodeMessage_kept, tsDecodeMessage_encode hsent, foundReason_kept]
    exact congrArg (fun content => Except.ok { m.normal with content := content }) hprinted
  · rw [tsDecodeMessage_encode hnormal, foundReason_normal]
    exact congrArg (fun content => Except.ok { m.normal with content := content }) hprinted

/-- A line with a version that is too small, a refused `original_op` and a reason inside of `op` only. -/
def crookedLine : Bytes :=
  bytes "\x7b\"type\":\"ACK\",\"version\":-7,\"op\":\x7b\"kind\":\"noop\",\"reason\":\"r\"\x7d," ++
    bytes "\"original_op\":\x7b\"kind\":\"up\"\x7d\x7d"

theorem decode_normal_crookedLine : ∃ m, tsDecodeMessage 256 crookedLine = .ok m ∧ m.normal ≠ m ∧
    tsDecodeMessage 256 (tsEncodeMessage m) = .ok m.normal := by
  have hany : (tsDecodeMessage 256 crookedLine).toOption.any
      (fun m => decide (m.normal ≠ m ∧ m.type ≠ [])) = true := by decide +kernel
  obtain ⟨m, hm, hcond⟩ := (Option.any_eq_true _ _).mp hany
  obtain ⟨hne, htype⟩ := of_decide_eq_true hcond
  have hdecode : tsDecodeMessage 256 crookedLine = .ok m := by
    cases hresult : tsDecodeMessage 256 crookedLine with
    | error error =>
      rw [hresult] at hm
      cases hm
    | ok m' =>
      rw [hresult] at hm
      rw [Option.some.inj hm]
  have hline : ∀ b ∈ crookedLine, b ≠ 0 := by decide +kernel
  have hlength : crookedLine.length ≤ tsMaxLineBytes := by decide +kernel
  exact ⟨m, hdecode, hne, (decode_normal 256 256 crookedLine m hline hlength hdecode htype).2.1⟩

end TermSync
