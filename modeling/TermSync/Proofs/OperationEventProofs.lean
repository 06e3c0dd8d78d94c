import TermSync.Proofs.DocumentProofs
import TermSync.Proofs.LogEntryProofs

/-!
# Proofs: the terminal line of an operation

`ts_format_operation_event` searches the entry for the texts of its keys. In an entry made of plain
texts the quotes stand where they were meant to, so every search passes whole texts between quotes.
Only the key of the transformed operation is searched for without its colon.
-/

namespace TermSync

open Foundations Foundations.Json

/-! ## Searching between quotes -/

section Search

variable {key more rest : Bytes}

/-- The pattern of a key: the key between quotes, and what has to follow. -/
def quoted (key more : Bytes) : Bytes := 34 :: (key ++ 34 :: more)

/-- A text without quotes is passed over. -/
theorem strstr_skip {seg : Bytes} (hseg : (34 : UInt8) ∉ seg) :
    strstr (quoted key more) (seg ++ rest) = strstr (quoted key more) rest := by
  induction seg with
  | nil => rfl
  | cons b seg ih =>
    rw [List.mem_cons, not_or] at hseg
    obtain ⟨hb, hseg⟩ := hseg
    have hpre : ¬ quoted key more <+: b :: (seg ++ rest) := by
      intro hpre
      rw [quoted, List.cons_prefix_cons] at hpre
      exact hb hpre.1
    rw [List.cons_append, strstr, if_neg (by rwa [List.isPrefixOf_iff_prefix]), ih hseg]

/-- A text between quotes is passed over unless it is the key and what follows fits. -/
theorem strstr_segment {seg : Bytes} (hkey : (34 : UInt8) ∉ key) (hseg : (34 : UInt8) ∉ seg)
    (hmiss : seg = key → ¬ more <+: rest) :
    strstr (quoted key more) (34 :: (seg ++ 34 :: rest)) =
      strstr (quoted key more) (34 :: rest) := by
  have hpre : ¬ quoted key more <+: 34 :: (seg ++ 34 :: rest) := by
    intro hpre
    rw [quoted, List.cons_prefix_cons] at hpre
    obtain ⟨t, ht⟩ := hpre.2
    rw [List.append_assoc, List.cons_append] at ht
    obtain ⟨rfl, hrest⟩ := line_inj hkey hseg ht
    exact hmiss rfl ⟨t, hrest⟩
  rw [strstr, if_neg (by rwa [List.isPrefixOf_iff_prefix]), strstr_skip hseg]

theorem quoted_append (key more rest : Bytes) :
    quoted key more ++ rest = 34 :: (key ++ 34 :: (more ++ rest)) := by
  simp [quoted]

/-- The text between quotes is the key, and what follows fits. -/
theorem strstr_quoted (key more rest : Bytes) :
    strstr (quoted key more) (34 :: (key ++ 34 :: (more ++ rest))) =
      some (34 :: (key ++ 34 :: (more ++ rest))) := by
  rw [← quoted_append]
  exact strstr_append (List.cons_ne_nil _ _) _

/-- What stands between two strings is no key. -/
theorem strstr_mark (seg : Bytes) (hkey : PlainKey key) (hseg : (34 : UInt8) ∉ seg)
    (hmark : (44 : UInt8) ∈ seg ∨ (58 : UInt8) ∈ seg) :
    strstr (quoted key more) (34 :: (seg ++ 34 :: rest)) =
      strstr (quoted key more) (34 :: rest) := by
  refine strstr_segment (fun h => (hkey 34 h).1 rfl) hseg ?_
  rintro rfl
  rcases hmark with h | h
  · exact absurd rfl (hkey 44 h).2.2.1
  · exact absurd rfl (hkey 58 h).2.2.2.1

theorem quote_notMem_comma : (34 : UInt8) ∉ ([44] : Bytes) := by decide

theorem quote_notMem_brace : (34 : UInt8) ∉ ([123] : Bytes) := by decide

/-- The comma between two members. -/
theorem strstr_comma (hkey : PlainKey key) :
    strstr (quoted key more) (34 :: 44 :: 34 :: rest) = strstr (quoted key more) (34 :: rest) := by
  exact strstr_mark [44] hkey quote_notMem_comma (Or.inl List.mem_cons_self)

/-- A member whose value is not a string, up to the next quote. -/
theorem strstr_bare {name : Bytes} (seg : Bytes) (hkey : PlainKey key) (hname : Plain name) (hne : name ≠ key)
    (hseg : (34 : UInt8) ∉ seg) :
    strstr (quoted key more) (34 :: (name ++ 34 :: 58 :: (seg ++ 34 :: rest))) =
      strstr (quoted key more) (34 :: rest) := by
  rw [strstr_segment (fun h => (hkey 34 h).1 rfl) (fun h => (hname 34 h).2.1 rfl)
    (fun heq => absurd heq hne)]
  exact strstr_mark (58 :: seg) hkey (by simpa using hseg) (Or.inr List.mem_cons_self)

/-- The name of a member whose value is a string. -/
theorem strstr_name {name : Bytes} (hkey : PlainKey key) (hname : Plain name) (hne : name ≠ key) :
    strstr (quoted key more) (34 :: (name ++ 34 :: 58 :: 34 :: rest)) =
      strstr (quoted key more) (34 :: rest) :=
  strstr_bare [] hkey hname hne List.not_mem_nil

/-- A member whose value is a string, up to the quote behind it. -/
theorem strstr_member {name value : Bytes} (hkey : PlainKey key) (hname : Plain name)
    (hne : name ≠ key) (hvalue : Plain value) (hmiss : value = key → ¬ more <+: rest) :
    strstr (quoted key more) (34 :: (name ++ 34 :: 58 :: 34 :: (value ++ 34 :: rest))) =
      strstr (quoted key more) (34 :: rest) := by
  rw [strstr_name hkey hname hne, strstr_segment (fun h => (hkey 34 h).1 rfl)
    (fun h => (hvalue 34 h).2.1 rfl) hmiss]

end Search

/-! ## Reading one field -/

theorem jsonGetForFormat_eq {json key value : Bytes} {outSize : ℕ} (rest : Bytes) (hkey : key.length ≤ 91)
    (hvalue : Plain value) (hlength : value.length < outSize)
    (h : strstr (quoted key [58, 34]) json =
      some (34 :: (key ++ 34 :: 58 :: 34 :: (value ++ 34 :: rest)))) :
    jsonGetForFormat json key outSize = value := by
  have hpattern : snprintf 96 (bytes "\"" ++ key ++ bytes "\":\"") = quoted key [58, 34] := by
    have hcolon : bytes "\":\"" = [34, 58, 34] := by decide
    rw [bytes_quote, hcolon, snprintf, List.take_of_length_le (by simp; omega)]
    simp [quoted]
  have htake : (value ++ 34 :: rest).takeWhile (fun b => decide (b ≠ 34)) = value := by
    rw [List.takeWhile_append_of_pos (fun b hb => decide_eq_true (hvalue b hb).2.1),
      List.takeWhile_cons_of_neg (by decide), List.append_nil]
  have hdrop : (34 :: (key ++ 34 :: 58 :: 34 :: (value ++ 34 :: rest))).drop
      (quoted key [58, 34]).length = value ++ 34 :: rest := by
    have htext := quoted_append key [58, 34] (value ++ 34 :: rest)
    rw [List.cons_append, List.singleton_append] at htext
    rw [← htext, List.drop_left]
  unfold jsonGetForFormat
  simp only [hpattern, h, hdrop, htake]
  exact List.take_of_length_le (by omega)

theorem jsonIntForFormat_eq {json key text : Bytes} (hkey : key.length ≤ 92)
    (h : strstr (quoted key [58]) json = some (34 :: (key ++ 34 :: 58 :: text))) (fallback : ℤ) :
    jsonIntForFormat json key fallback = atoi text := by
  have hpattern : snprintf 96 (bytes "\"" ++ key ++ bytes "\":") = quoted key [58] := by
    have hcolon : bytes "\":" = [34, 58] := by decide
    rw [bytes_quote, hcolon, snprintf, List.take_of_length_le (by simp; omega)]
    simp [quoted]
  have hdrop : (34 :: (key ++ 34 :: 58 :: text)).drop (quoted key [58]).length = text := by
    have htext := quoted_append key [58] text
    rw [List.singleton_append] at htext
    rw [← htext, List.drop_left]
  unfold jsonIntForFormat
  simp only [hpattern, h, hdrop]

theorem atoi_formatInt {n : ℤ} (hmin : intMin ≤ n) (hmax : n ≤ intMax) {rest : Bytes}
    (hrest : NoDigit rest) : atoi (formatInt n ++ rest) = n := by
  have hlong : max longMin (min longMax n) = n := by
    simp only [intMin, intMax, longMin, longMax] at *
    omega
  simp only [atoi, scanNumber_formatInt n hrest, value_formatInt, hlong]
  exact toInt_of_range hmin hmax

/-- What stands behind the digits does not matter. -/
theorem atoi_formatSize (n : ℕ) {rest : Bytes} (hrest : NoDigit rest) :
    atoi (formatSize n ++ rest) = atoi (formatSize n) := by
  have hplain := scanNumber_formatSize n noDigit_nil
  rw [List.append_nil] at hplain
  simp only [atoi, scanNumber_formatSize n hrest, hplain]

/-! ## The bytes of an entry -/

theorem numeral_bytes (n : ℤ) : ∀ b ∈ formatInt n, 45 ≤ b ∧ b ≤ 57 := by
  intro b hb
  have hdigit : ∀ b ∈ Decimal.digits n.natAbs, 45 ≤ b ∧ b ≤ 57 := by
    intro b hb
    have hd := Decimal.isDigit_of_mem_digits _ b hb
    simp only [Decimal.isDigit, Bool.and_eq_true, decide_eq_true_eq] at hd
    exact ⟨UInt8.le_trans (show (45 : UInt8) ≤ 48 by decide) hd.1, hd.2⟩
  unfold formatInt at hb
  split_ifs at hb
  · rw [bytes_minus, List.singleton_append, List.mem_cons] at hb
    rcases hb with rfl | hb
    · decide
    · exact hdigit b hb
  · exact hdigit b hb

theorem plain_formatInt (n : ℤ) : Plain (formatInt n) := by
  intro b hb
  obtain ⟨hlo, hhi⟩ := numeral_bytes n b hb
  refine ⟨UInt8.le_trans (show (32 : UInt8) ≤ 45 by decide) hlo, ?_, ?_⟩
  · rintro rfl
    exact absurd hlo (by decide)
  · rintro rfl
    exact absurd hhi (by decide)

theorem quote_notMem {text : Bytes} (h : Plain text) : (34 : UInt8) ∉ text :=
  fun hmem => (h 34 hmem).2.1 rfl

/-! ## Passing the members of an entry -/

section Entry

variable {e : LogEntry} {key more : Bytes}

/-- A member whose value is a number. -/
theorem strstr_number {name rest : Bytes} (marks : Bytes) (hkey : PlainKey key)
    (hname : Plain name) (hne : name ≠ key) (n : ℤ) (hmarks : (34 : UInt8) ∉ marks) :
    strstr (quoted key more) (34 :: (name ++ 34 :: 58 :: (formatInt n ++ (marks ++ 34 :: rest)))) =
      strstr (quoted key more) (34 :: rest) := by
  have hseg : (34 : UInt8) ∉ formatInt n ++ marks := by
    rw [List.mem_append, not_or]
    exact ⟨quote_notMem (plain_formatInt n), hmarks⟩
  rw [← List.append_assoc]
  exact strstr_bare _ hkey hname hne hseg

theorem strstr_text (hkey : PlainKey key)
    (hne : bytes "event" ≠ key ∧ bytes "operation" ≠ key) :
    strstr (quoted key more) e.text = strstr (quoted key more) (34 :: e.fromVersion) := by
  have hskip : strstr (quoted key more) e.text = strstr (quoted key more) e.text.tail :=
    strstr_skip quote_notMem_brace
  unfold LogEntry.text at hskip ⊢
  rw [List.tail_cons] at hskip
  rw [hskip, strstr_member hkey (plain_names _ (by simp [entryNames])) hne.1
    (plain_names _ (by simp [entryNames])) (fun heq => absurd heq hne.2), strstr_comma hkey]

theorem strstr_fromVersion (hkey : PlainKey key) (hne : bytes "server_version" ≠ key) :
    strstr (quoted key more) (34 :: e.fromVersion) =
      strstr (quoted key more) (34 :: e.fromClientId) := by
  unfold LogEntry.fromVersion
  exact strstr_number [44] hkey (plain_names _ (by simp [entryNames])) hne _ quote_notMem_comma

theorem strstr_fromClientId (hkey : PlainKey key) (hne : bytes "client_id" ≠ key)
    (hclient : Plain e.clientId) (hmiss : e.clientId = key → ∀ t, ¬ more <+: 44 :: t) :
    strstr (quoted key more) (34 :: e.fromClientId) =
      strstr (quoted key more) (34 :: e.fromOpId) := by
  unfold LogEntry.fromClientId
  rw [strstr_member hkey (plain_names _ (by simp [entryNames])) hne hclient (fun heq => hmiss heq _),
    strstr_comma hkey]

theorem strstr_fromOpId (hkey : PlainKey key) (hne : bytes "op_id" ≠ key)
    (hop : Plain e.opId) (hmiss : e.opId = key → ∀ t, ¬ more <+: 44 :: t) :
    strstr (quoted key more) (34 :: e.fromOpId) =
      strstr (quoted key more) (34 :: e.fromBase) := by
  unfold LogEntry.fromOpId
  rw [strstr_member hkey (plain_names _ (by simp [entryNames])) hne hop (fun heq => hmiss heq _),
    strstr_comma hkey]

/-- From `base_version` on, up to the members of the original operation. -/
theorem strstr_fromBase (hkey : PlainKey key)
    (hne : bytes "base_version" ≠ key ∧ bytes "original_op" ≠ key) :
    strstr (quoted key more) (34 :: e.fromBase) = strstr (quoted key more)
      (34 :: operationText e.original (125 :: 44 :: 34 :: e.fromTransformed)) := by
  have hbase : strstr (quoted key more) (34 :: e.fromBase) =
      strstr (quoted key more) (34 :: e.fromOriginal) :=
    strstr_number [44] hkey (plain_names _ (by simp [entryNames])) hne.1 e.baseVersion quote_notMem_comma
  have horiginal : strstr (quoted key more) (34 :: e.fromOriginal) = strstr (quoted key more)
      (34 :: operationText e.original (125 :: 44 :: 34 :: e.fromTransformed)) :=
    strstr_bare [123] hkey (plain_names _ (by simp [entryNames])) hne.2 quote_notMem_brace
  exact hbase.trans horiginal

/-- The kind of an operation is passed. -/
theorem strstr_kind (hkey : PlainKey key) (hne : bytes "kind" ≠ key) {op : TsOperation}
    (hname : tsOperationKindName op.kind ≠ key) (rest : Bytes) :
    strstr (quoted key more) (34 :: operationText op rest) = strstr (quoted key more)
      (34 :: (bytes "pos" ++ 34 :: 58 :: (formatSize op.pos ++ characterText op rest))) := by
  unfold operationText
  rw [strstr_member hkey (plain_names _ (by simp [entryNames])) hne (plain_kindName op.kind)
    (fun heq => absurd heq hname), strstr_comma hkey]

/-- The position of an insertion is passed. -/
theorem strstr_pos (hkey : PlainKey key) (hne : bytes "pos" ≠ key) {op : TsOperation}
    (hinsert : op.kind = .insert) (rest : Bytes) :
    strstr (quoted key more)
        (34 :: (bytes "pos" ++ 34 :: 58 :: (formatSize op.pos ++ characterText op rest))) =
      strstr (quoted key more)
        (34 :: (bytes "char" ++ 34 :: 58 :: 34 :: (op.ch ++ 34 :: rest))) := by
  unfold characterText
  rw [if_pos hinsert, formatSize_eq_formatInt]
  exact strstr_number [44] hkey (plain_names _ (by simp [entryNames])) hne _ quote_notMem_comma

/-- All members of an operation are passed, up to the quote behind its closing brace. -/
theorem strstr_operationText (hkey : PlainKey key)
    (hne : bytes "kind" ≠ key ∧ bytes "pos" ≠ key ∧ bytes "char" ≠ key) {op : TsOperation}
    (hname : tsOperationKindName op.kind ≠ key) (hch : op.kind = .insert → Plain op.ch)
    (hmiss : op.ch ≠ key) (rest : Bytes) :
    strstr (quoted key more) (34 :: operationText op (125 :: 44 :: 34 :: rest)) =
      strstr (quoted key more) (34 :: rest) := by
  have hend : (34 : UInt8) ∉ ([125, 44] : Bytes) := by decide
  have hmark : (44 : UInt8) ∈ ([125, 44] : Bytes) := by decide
  rw [strstr_kind hkey hne.1 hname]
  by_cases hinsert : op.kind = .insert
  · rw [strstr_pos hkey hne.2.1 hinsert, strstr_member hkey (plain_names _ (by simp [entryNames]))
      hne.2.2 (hch hinsert) (fun heq => absurd heq hmiss)]
    exact strstr_mark [125, 44] hkey hend (Or.inl hmark)
  · unfold characterText
    rw [if_neg hinsert, formatSize_eq_formatInt]
    exact strstr_number [125, 44] hkey (plain_names _ (by simp [entryNames])) hne.2.1 _ hend

end Entry

/-! ## The terminal line -/

/-- What holds of the entry of an accepted operation: the sizes of its fields, and how the operation
that is applied relates to the submitted one. -/
structure LogEntry.Accepted (e : LogEntry) : Prop where
  clientId : e.clientId.length < tsMaxClientId
  opId : e.opId.length < tsMaxOpId
  ch : e.original.ch.length < tsMaxUtf8Char
  serverVersion : intMin ≤ e.serverVersion ∧ e.serverVersion ≤ intMax
  baseVersion : intMin ≤ e.baseVersion ∧ e.baseVersion ≤ intMax
  pos : e.original.pos < sizeModulus ∧ e.transformed.pos < sizeModulus
  contentLength : e.contentLength < sizeModulus
  valid : e.original.kind ≠ .invalid ∧ e.transformed.kind ≠ .invalid
  insert : e.transformed.kind = .insert ↔ e.original.kind = .insert
  sameChar : e.original.kind = .insert → e.transformed.ch = e.original.ch

/-- The operation that is shown. -/
def LogEntry.shown (e : LogEntry) : TsOperation :=
  shownOperation e.clientId e.opId e.original e.transformed

section Shown

variable {e : LogEntry}

theorem clientId_shown (h : e.AllPlain) (haccepted : e.Accepted) :
    jsonGetForFormat e.text (bytes "client_id") tsMaxClientId = e.clientId := by
  have hkey : PlainKey (bytes "client_id") := by decide
  refine jsonGetForFormat_eq (44 :: 34 :: e.fromOpId) (by decide) h.clientId haccepted.clientId ?_
  rw [strstr_text hkey (by decide), strstr_fromVersion hkey (by decide)]
  exact strstr_quoted _ [58, 34] _

theorem serverVersion_shown (haccepted : e.Accepted) (fallback : ℤ) :
    jsonIntForFormat e.text (bytes "server_version") fallback = e.serverVersion := by
  have hkey : PlainKey (bytes "server_version") := by decide
  have hfind : strstr (quoted (bytes "server_version") [58]) e.text =
      some (34 :: (bytes "server_version" ++ 34 :: 58 ::
        (formatInt e.serverVersion ++ 44 :: 34 :: e.fromClientId))) := by
    rw [strstr_text hkey (by decide)]
    exact strstr_quoted _ [58] _
  rw [jsonIntForFormat_eq (by decide) hfind]
  exact atoi_formatInt haccepted.serverVersion.1 haccepted.serverVersion.2
    (noDigit_cons (by decide) _)

theorem baseVersion_shown (h : e.AllPlain) (haccepted : e.Accepted) (fallback : ℤ) :
    jsonIntForFormat e.text (bytes "base_version") fallback = e.baseVersion := by
  have hkey : PlainKey (bytes "base_version") := by decide
  have hmiss : ∀ text : Bytes, text = bytes "base_version" → ∀ t, ¬ ([58] : Bytes) <+: 44 :: t :=
    fun _ _ t hpre => absurd (List.cons_prefix_cons.mp hpre).1 (by decide)
  have hfind : strstr (quoted (bytes "base_version") [58]) e.text =
      some (34 :: (bytes "base_version" ++ 34 :: 58 ::
        (formatInt e.baseVersion ++ 44 :: 34 :: e.fromOriginal))) := by
    rw [strstr_text hkey (by decide), strstr_fromVersion hkey (by decide),
      strstr_fromClientId hkey (by decide) h.clientId (hmiss _),
      strstr_fromOpId hkey (by decide) h.opId (hmiss _)]
    exact strstr_quoted _ [58] _
  rw [jsonIntForFormat_eq (by decide) hfind]
  exact atoi_formatInt haccepted.baseVersion.1 haccepted.baseVersion.2 (noDigit_cons (by decide) _)

/-- The keys that are looked up in the shown operation. -/
theorem operationKeys_apart : ∀ key ∈ [bytes "kind", bytes "pos", bytes "char"],
    PlainKey key ∧ bytes "transformed_op" ≠ key ∧ bytes "op_id" ≠ key ∧
      bytes "base_version" ≠ key ∧ bytes "original_op" ≠ key := by decide

/-- An identifier that is taken for the key of the transformed operation is passed. -/
theorem strstr_identifier {key more rest : Bytes}
    (hkey : key ∈ [bytes "kind", bytes "pos", bytes "char"]) :
    strstr (quoted key (58 :: more)) (34 :: (bytes "transformed_op" ++ 34 :: 44 :: 34 :: rest)) =
      strstr (quoted key (58 :: more)) (34 :: rest) := by
  obtain ⟨hplain, hne, -⟩ := operationKeys_apart key hkey
  rw [strstr_segment (fun h => (hplain 34 h).1 rfl)
    (quote_notMem (plain_names _ (by simp [entryNames]))) (fun heq => absurd heq hne),
    strstr_comma hplain]

/-- The search for the key of the transformed operation ends at the operation that is shown. -/
theorem exists_shown (h : e.AllPlain) (haccepted : e.Accepted) : ∃ tail rest : Bytes,
    strstr (bytes "\"transformed_op\"") e.text = some tail ∧
    ∀ key ∈ [bytes "kind", bytes "pos", bytes "char"], ∀ more,
      strstr (quoted key (58 :: more)) tail =
        strstr (quoted key (58 :: more)) (34 :: operationText e.shown (125 :: rest)) := by
  have hpattern : bytes "\"transformed_op\"" = quoted (bytes "transformed_op") [] := by decide
  have htrans : PlainKey (bytes "transformed_op") := by decide
  have hmiss : ∀ {text key more : Bytes}, text = key → ∀ t, ¬ 58 :: more <+: 44 :: t :=
    fun _ t hpre => absurd (List.cons_prefix_cons.mp hpre).1 (by decide)
  rw [hpattern, strstr_text htrans (by decide), strstr_fromVersion htrans (by decide)]
  by_cases hclient : e.clientId = bytes "transformed_op"
  · -- the first occurrence is the client id, and the first operation behind it is the original one
    have hshown : e.shown = e.original := if_pos (Or.inl hclient)
    refine ⟨34 :: (bytes "transformed_op" ++ 34 :: 44 :: 34 :: e.fromOpId),
      44 :: 34 :: e.fromTransformed, ?_, ?_⟩
    · unfold LogEntry.fromClientId
      rw [strstr_name htrans (plain_names _ (by simp [entryNames])) (by decide), hclient]
      exact strstr_quoted _ [] _
    · intro key hkey more
      obtain ⟨hplain, -, hop, hbase, horiginal⟩ := operationKeys_apart key hkey
      rw [hshown, strstr_identifier hkey, strstr_fromOpId hplain hop h.opId hmiss,
        strstr_fromBase hplain ⟨hbase, horiginal⟩]
  rw [strstr_fromClientId htrans (by decide) h.clientId (fun heq => absurd heq hclient)]
  by_cases hop : e.opId = bytes "transformed_op"
  · -- the same with the operation id
    have hshown : e.shown = e.original := if_pos (Or.inr hop)
    refine ⟨34 :: (bytes "transformed_op" ++ 34 :: 44 :: 34 :: e.fromBase),
      44 :: 34 :: e.fromTransformed, ?_, ?_⟩
    · unfold LogEntry.fromOpId
      rw [strstr_name htrans (plain_names _ (by simp [entryNames])) (by decide), hop]
      exact strstr_quoted _ [] _
    · intro key hkey more
      obtain ⟨hplain, -, -, hbase, horiginal⟩ := operationKeys_apart key hkey
      rw [hshown, strstr_identifier hkey, strstr_fromBase hplain ⟨hbase, horiginal⟩]
  · have hshown : e.shown = e.transformed := if_neg (by simp [hclient, hop])
    have hname : tsOperationKindName e.original.kind ≠ bytes "transformed_op" := by
      cases e.original.kind <;> decide
    -- a character is too short to be taken for the key
    have hch : e.original.ch ≠ bytes "transformed_op" := by
      intro heq
      have hlength := haccepted.ch
      rw [heq] at hlength
      exact absurd hlength (by decide)
    refine ⟨34 :: e.fromTransformed, 44 :: 34 :: e.fromLength, ?_, ?_⟩
    · rw [strstr_fromOpId htrans (by decide) h.opId (fun heq => absurd heq hop),
        strstr_fromBase htrans (by decide),
        strstr_operationText htrans (by decide) hname h.original hch]
      exact strstr_quoted _ [] _
    · intro key hkey more
      obtain ⟨hplain, hne, -⟩ := operationKeys_apart key hkey
      rw [hshown]
      exact strstr_bare [123] hplain (plain_names _ (by simp [entryNames])) hne quote_notMem_brace

theorem shown_kind (haccepted : e.Accepted) : e.shown.kind ≠ .invalid := by
  unfold LogEntry.shown shownOperation
  split_ifs
  · exact haccepted.valid.1
  · exact haccepted.valid.2

/-- An insertion is shown with the character that has been submitted. -/
theorem shown_insert (haccepted : e.Accepted) (hinsert : e.shown.kind = .insert) :
    e.original.kind = .insert ∧ e.shown.ch = e.original.ch := by
  unfold LogEntry.shown shownOperation at hinsert ⊢
  split_ifs at hinsert ⊢
  · exact ⟨hinsert, rfl⟩
  · have horiginal := haccepted.insert.mp hinsert
    exact ⟨horiginal, haccepted.sameChar horiginal⟩

/-- The line that is printed from the operation that is shown. -/
theorem tsFormatOperationEvent_text (h : e.AllPlain) (haccepted : e.Accepted) (outSize : ℕ) :
    ∃ ch, (e.shown.kind = .insert → ch = e.original.ch) ∧
      tsFormatOperationEvent e.text outSize = snprintf outSize (operationLine e.serverVersion
        e.clientId (tsOperationKindName e.shown.kind) (atoi (formatSize e.shown.pos)) ch
        e.baseVersion) := by
  obtain ⟨tail, rest, htail, hfind⟩ := exists_shown h haccepted
  have hkind : jsonGetForFormat tail (bytes "kind") tsMaxType =
      tsOperationKindName e.shown.kind := by
    have hlength : (tsOperationKindName e.shown.kind).length < tsMaxType := by
      cases e.shown.kind <;> decide
    refine jsonGetForFormat_eq (44 :: 34 :: (bytes "pos" ++ 34 :: 58 ::
        (formatSize e.shown.pos ++ characterText e.shown (125 :: rest)))) (by decide)
      (plain_kindName e.shown.kind) hlength ?_
    rw [hfind _ (by simp) [34]]
    exact strstr_quoted _ [58, 34] _
  have hpos : jsonIntForFormat tail (bytes "pos") 0 = atoi (formatSize e.shown.pos) := by
    have hkey : PlainKey (bytes "pos") := by decide
    have hname : tsOperationKindName e.shown.kind ≠ bytes "pos" := by
      cases e.shown.kind <;> decide
    have hpos : strstr (quoted (bytes "pos") [58]) tail = some (34 :: (bytes "pos" ++ 34 :: 58 ::
        (formatSize e.shown.pos ++ characterText e.shown (125 :: rest)))) := by
      rw [hfind _ (by simp) [], strstr_kind hkey (by decide) hname]
      exact strstr_quoted _ [58] _
    have hdigit : NoDigit (characterText e.shown (125 :: rest)) := by
      unfold characterText
      split_ifs <;> exact noDigit_cons (by decide) _
    rw [jsonIntForFormat_eq (by decide) hpos, atoi_formatSize _ hdigit]
  refine ⟨jsonGetForFormat tail (bytes "char") tsMaxUtf8Char, fun hinsert => ?_, ?_⟩
  · obtain ⟨horiginal, hch⟩ := shown_insert haccepted hinsert
    have hkey : PlainKey (bytes "char") := by decide
    have hname : tsOperationKindName e.shown.kind ≠ bytes "char" := by
      cases e.shown.kind <;> decide
    refine jsonGetForFormat_eq (125 :: rest) (by decide) (h.original horiginal) haccepted.ch ?_
    rw [hfind _ (by simp) [34], strstr_kind hkey (by decide) hname,
      strstr_pos hkey (by decide) hinsert, hch]
    exact strstr_quoted _ [58, 34] _
  · unfold tsFormatOperationEvent
    simp only [htail, Option.getD_some, hkind, hpos, clientId_shown h haccepted,
      serverVersion_shown haccepted, baseVersion_shown h haccepted]

end Shown

/-! ## Two lines are different -/

/-- An insertion, and every other kind. -/
theorem operationLine_insert (version : ℤ) (clientId : Bytes) (pos : ℤ) (ch : Bytes) (base : ℤ) :
    operationLine version clientId (tsOperationKindName .insert) pos ch base =
      bytes "OP v" ++ formatInt version ++ bytes " client=" ++ clientId ++ bytes " insert pos=" ++
        formatInt pos ++ bytes " char='" ++ ch ++ bytes "' base=" ++ formatInt base :=
  if_pos rfl

theorem operationLine_other {kind : TsOpKind} (hkind : kind ≠ .insert) (version : ℤ)
    (clientId : Bytes) (pos : ℤ) (ch : Bytes) (base : ℤ) :
    operationLine version clientId (tsOperationKindName kind) pos ch base =
      bytes "OP v" ++ formatInt version ++ bytes " client=" ++ clientId ++ bytes " " ++
        tsOperationKindName kind ++ bytes " pos=" ++ formatInt pos ++ bytes " base=" ++
          formatInt base := by
  have hname : tsOperationKindName kind ≠ bytes "insert" := by
    cases kind <;> first | exact absurd rfl hkind | decide
  have hnil : tsOperationKindName kind ≠ [] := by cases kind <;> decide
  rw [operationLine, if_neg hname, if_pos hnil]

/-- A line says the kind and the position. -/
theorem operationLine_inj {kind kind' : TsOpKind} (hkind : kind ≠ .invalid)
    (hkind' : kind' ≠ .invalid) (hinsert : kind = .insert ↔ kind' = .insert)
    {version base pos pos' : ℤ} {clientId ch ch' : Bytes}
    (h : operationLine version clientId (tsOperationKindName kind) pos ch base =
      operationLine version clientId (tsOperationKindName kind') pos' ch' base) :
    kind = kind' ∧ pos = pos' := by
  have hspace : ∀ text, NoDigit (bytes " base=" ++ text) := fun _ => noDigit_cons (by decide) _
  have hquote : ∀ text, NoDigit (bytes " char='" ++ text) := fun _ => noDigit_cons (by decide) _
  by_cases hk : kind = .insert
  · have hk' := hinsert.mp hk
    subst hk hk'
    simp only [operationLine_insert, List.append_assoc, List.append_cancel_left_eq] at h
    exact ⟨rfl, formatInt_append_inj (hquote _) (hquote _) h⟩
  · have hk' : kind' ≠ .insert := fun heq => hk (hinsert.mpr heq)
    rw [operationLine_other hk, operationLine_other hk'] at h
    simp only [List.append_assoc, List.append_cancel_left_eq] at h
    have hdelete : ∀ text, (tsOperationKindName .delete ++ text).head? = some 100 := fun _ => rfl
    have hnoop : ∀ text, (tsOperationKindName .noop ++ text).head? = some 110 := fun _ => rfl
    have hsame : kind = kind' := by
      have hhead := congrArg List.head? h
      cases kind <;> cases kind' <;> first | rfl | contradiction | simp [hdelete, hnoop] at hhead
    subst hsame
    rw [List.append_cancel_left_eq, List.append_cancel_left_eq] at h
    exact ⟨rfl, formatInt_append_inj (hspace _) (hspace _) h⟩

/-! ## Nothing is cut off -/

theorem length_formatSize_size {n : ℕ} (h : n < sizeModulus) : (formatSize n).length ≤ 20 :=
  length_formatSize_le (by decide) (lt_of_lt_of_le h (by decide))

theorem length_operationText_le {op : TsOperation} (hpos : op.pos < sizeModulus)
    (hch : op.kind = .insert → op.ch.length < tsMaxUtf8Char) (rest : Bytes) :
    (operationText op rest).length ≤ 70 + rest.length := by
  have hnames : (bytes "kind").length = 4 ∧ (bytes "pos").length = 3 ∧
      (bytes "char").length = 4 := by decide
  have hkind := length_kindName_le op.kind
  have hnumber := length_formatSize_size hpos
  unfold operationText characterText
  split_ifs with hinsert
  · have hlength := hch hinsert
    unfold tsMaxUtf8Char at hlength
    simp only [List.length_append, List.length_cons]
    omega
  · simp only [List.length_append, List.length_cons]
    omega

theorem length_text_lt {e : LogEntry} (haccepted : e.Accepted) : e.text.length < logJsonSize := by
  have hnames := fun name hmem => (entryNames_spec name hmem).2.2
  simp only [entryNames, List.forall_mem_cons] at hnames
  have hclient := haccepted.clientId
  have hop := haccepted.opId
  have hversion := length_formatInt_le haccepted.serverVersion.1 haccepted.serverVersion.2
  have hbase := length_formatInt_le haccepted.baseVersion.1 haccepted.baseVersion.2
  have hlength := length_formatSize_size haccepted.contentLength
  have hch : e.transformed.kind = .insert → e.transformed.ch.length < tsMaxUtf8Char := by
    intro hinsert
    rw [haccepted.sameChar (haccepted.insert.mp hinsert)]
    exact haccepted.ch
  have htransformed := length_operationText_le haccepted.pos.2 hch (125 :: 44 :: 34 :: e.fromLength)
  have horiginal := length_operationText_le haccepted.pos.1 (fun _ => haccepted.ch)
    (125 :: 44 :: 34 :: e.fromTransformed)
  unfold tsMaxClientId at hclient
  unfold tsMaxOpId at hop
  simp only [LogEntry.fromLength, LogEntry.fromTransformed, List.length_append, List.length_cons,
    List.length_nil] at htransformed horiginal
  simp only [logJsonSize, LogEntry.text, LogEntry.fromVersion, LogEntry.fromClientId,
    LogEntry.fromOpId, LogEntry.fromBase, LogEntry.fromOriginal, LogEntry.fromTransformed,
    LogEntry.fromLength, List.length_append, List.length_cons]
  omega

theorem length_operationLine_lt {version base pos : ℤ} {clientId ch : Bytes} {kind : TsOpKind}
    (hversion : intMin ≤ version ∧ version ≤ intMax) (hbase : intMin ≤ base ∧ base ≤ intMax)
    (hpos : (formatInt pos).length ≤ 20) (hclient : clientId.length < tsMaxClientId)
    (hch : kind = .insert → ch.length < tsMaxUtf8Char) :
    (operationLine version clientId (tsOperationKindName kind) pos ch base).length < 512 := by
  have hv := length_formatInt_le hversion.1 hversion.2
  have hb := length_formatInt_le hbase.1 hbase.2
  have hnames : ∀ name ∈ [bytes "OP v", bytes " client=", bytes " insert pos=", bytes " char='",
      bytes "' base=", bytes " ", bytes " pos=", bytes " base="], name.length ≤ 12 := by decide
  simp only [List.forall_mem_cons] at hnames
  unfold tsMaxClientId at hclient
  by_cases hinsert : kind = .insert
  · have hc := hch hinsert
    unfold tsMaxUtf8Char at hc
    rw [hinsert, operationLine_insert]
    simp only [List.length_append]
    omega
  · have hk := length_kindName_le kind
    rw [operationLine_other hinsert]
    simp only [List.length_append]
    omega

/-! ## Lines and characters of an entry -/

theorem valid_formatInt (n : ℤ) : Utf8.Valid (formatInt n) :=
  Utf8.valid_of_ascii fun b hb => UInt8.lt_of_le_of_lt (numeral_bytes n b hb).2 (by decide)

theorem valid_names : ∀ name ∈ entryNames, Utf8.Valid name :=
  fun name hmem => Utf8.valid_of_ascii (entryNames_spec name hmem).2.1

theorem valid_kindName (kind : TsOpKind) : Utf8.Valid (tsOperationKindName kind) := by
  have hall : ∀ b ∈ tsOperationKindName kind, b < 0x80 := by cases kind <;> decide
  exact Utf8.valid_of_ascii hall

theorem valid_operationText (op : TsOperation) {b : UInt8} (hb : b < 0x80) (rest : Bytes) :
    Utf8.Valid (operationText op (b :: rest)) ↔
      (op.kind = .insert → Utf8.Valid op.ch) ∧ Utf8.Valid rest := by
  have hnames := valid_names
  simp only [entryNames, List.forall_mem_cons] at hnames
  unfold operationText characterText
  split_ifs with hinsert
  · simp (disch := decide) [Utf8.valid_append_cons, Utf8.valid_cons, hnames, valid_kindName,
      formatSize_eq_formatInt, valid_formatInt, hinsert, Utf8.valid_cons hb]
  · simp (disch := decide) [Utf8.valid_append_cons, Utf8.valid_cons, hnames, valid_kindName,
      formatSize_eq_formatInt, valid_formatInt, hinsert, Utf8.valid_append_cons hb]

theorem valid_text (e : LogEntry) : Utf8.Valid e.text ↔ Utf8.Valid e.clientId ∧ Utf8.Valid e.opId ∧
    (e.original.kind = .insert → Utf8.Valid e.original.ch) ∧
    (e.transformed.kind = .insert → Utf8.Valid e.transformed.ch) := by
  have hnames := valid_names
  simp only [entryNames, List.forall_mem_cons] at hnames
  have hop := fun op => valid_operationText op (show (125 : UInt8) < 0x80 by decide)
  simp (disch := decide) [LogEntry.text, LogEntry.fromVersion, LogEntry.fromClientId,
    LogEntry.fromOpId, LogEntry.fromBase, LogEntry.fromOriginal, LogEntry.fromTransformed,
    LogEntry.fromLength, Utf8.valid_append_cons, Utf8.valid_cons, hnames, hop, valid_formatInt,
    formatSize_eq_formatInt, Utf8.valid_nil]

theorem newline_notMem {text : Bytes} (h : Plain text) : (10 : UInt8) ∉ text :=
  fun hmem => absurd (h 10 hmem).1 (by decide)

theorem newline_notMem_operationText {op : TsOperation} (hch : op.kind = .insert → Plain op.ch)
    {rest : Bytes} (hrest : (10 : UInt8) ∉ rest) : (10 : UInt8) ∉ operationText op rest := by
  have hnames := fun name hmem => newline_notMem (plain_names name hmem)
  simp only [entryNames, List.forall_mem_cons] at hnames
  have hkind := newline_notMem (plain_kindName op.kind)
  have hpos := newline_notMem (plain_formatInt op.pos)
  unfold operationText characterText
  split_ifs with hinsert
  · simp [formatSize_eq_formatInt, hnames, hkind, hpos, newline_notMem (hch hinsert), hrest]
  · simp [formatSize_eq_formatInt, hnames, hkind, hpos, hrest]

/-- An entry made of plain texts is one line. -/
theorem newline_notMem_text {e : LogEntry} (h : e.AllPlain)
    (htransformed : e.transformed.kind = .insert → Plain e.transformed.ch) :
    (10 : UInt8) ∉ e.text := by
  have hnames := fun name hmem => newline_notMem (plain_names name hmem)
  simp only [entryNames, List.forall_mem_cons] at hnames
  have hnumber := fun n => newline_notMem (plain_formatInt n)
  have hlength : (10 : UInt8) ∉ e.fromLength := by
    simp [LogEntry.fromLength, formatSize_eq_formatInt, hnames, hnumber]
  have hafter : (10 : UInt8) ∉ e.fromTransformed := by
    have hop : (10 : UInt8) ∉ operationText e.transformed (125 :: 44 :: 34 :: e.fromLength) :=
      newline_notMem_operationText htransformed (by simp [hlength])
    simp [LogEntry.fromTransformed, hnames, hop]
  have hop : (10 : UInt8) ∉ operationText e.original (125 :: 44 :: 34 :: e.fromTransformed) :=
    newline_notMem_operationText h.original (by simp [hafter])
  simp [LogEntry.text, LogEntry.fromVersion, LogEntry.fromClientId, LogEntry.fromOpId,
    LogEntry.fromBase, LogEntry.fromOriginal, hnames, hnumber, hop, newline_notMem h.clientId,
    newline_notMem h.opId]

/-! ## The entry of an accepted operation -/

theorem tsUtf8CharCount_le_length (text : Bytes) : tsUtf8CharCount text ≤ text.length := by
  rw [tsUtf8CharCount_eq_countP]
  exact List.countP_le_length

theorem tsTransformAgainst_pos_lt {op : TsOperation} (h : op.pos < sizeModulus)
    (previous : TsOperation) : (tsTransformAgainst op previous).pos < sizeModulus := by
  have hsucc : sizeSucc op.pos < sizeModulus := Nat.mod_lt _ (by decide)
  unfold tsTransformAgainst
  split_ifs
  · exact h
  · exact hsucc
  · exact h
  · exact lt_of_le_of_lt (Nat.sub_le _ _) h
  · exact lt_of_le_of_lt (Nat.sub_le _ _) h
  · exact h
  · exact h
  · exact h
  · exact h

theorem foldl_tsTransformAgainst_pos_lt (entries : List TsHistoryEntry) {op : TsOperation}
    (h : op.pos < sizeModulus) :
    (entries.foldl (fun t entry => tsTransformAgainst t entry.op) op).pos < sizeModulus := by
  induction entries generalizing op with
  | nil => exact h
  | cons entry entries ih => exact ih (tsTransformAgainst_pos_lt h entry.op)

theorem normalizeForApply_pos_le (doc : TsDocument) (op : TsOperation) :
    (normalizeForApply doc op).pos ≤ op.pos := by
  unfold normalizeForApply
  cases op.kind with
  | noop => exact le_refl _
  | insert =>
    simp only
    split_ifs with hpos
    · exact le_of_lt hpos
    · exact le_refl _
  | delete =>
    simp only
    split_ifs
    · exact le_refl _
    · exact le_refl _
  | invalid => exact le_refl _

theorem transformedOp_pos_lt {op : TsOperation} (h : op.pos < sizeModulus) (doc : TsDocument)
    (b : ℤ) : (transformedOp doc b op).pos < sizeModulus :=
  lt_of_le_of_lt (normalizeForApply_pos_le doc _) (foldl_tsTransformAgainst_pos_lt _ h)

theorem okResult_logJson (doc : TsDocument) (clientId opId : Bytes) (baseVersion : ℤ)
    (op transformed : TsOperation) :
    (okResult doc clientId opId baseVersion op transformed).logJson =
      buildOperationLog logJsonSize doc.version clientId opId baseVersion op transformed
        (tsUtf8CharCount doc.text) := by
  simp only [okResult]

/-- What the call prints. -/
def acceptedLogEntry (doc doc' : TsDocument) (clientId opId : Bytes) (baseVersion : ℤ)
    (op : TsOperation) : LogEntry where
  serverVersion := doc'.version
  clientId := clientId
  opId := opId
  baseVersion := baseVersion
  original := op
  transformed := transformedOp doc baseVersion op
  contentLength := tsUtf8CharCount doc'.text

theorem accepted_of_process {doc doc' : TsDocument} {clientId opId : Bytes} {baseVersion : ℤ}
    {op : TsOperation} {result : TsProcessResult} (hclient : clientId.length < tsMaxClientId)
    (hop : opId.length < tsMaxOpId) (hch : op.ch.length < tsMaxUtf8Char)
    (hpos : op.pos < sizeModulus) (hversion : intMin ≤ doc.version) (hbase : intMin ≤ baseVersion)
    (hlength : doc'.text.length < sizeModulus)
    (hprocess : tsDocumentProcessOperation doc clientId opId baseVersion (some op) =
      some (doc', result)) (hok : result.status = .ok) :
    (acceptedLogEntry doc doc' clientId opId baseVersion op).Accepted ∧
      result.logJson = buildOperationLog logJsonSize doc'.version clientId opId baseVersion op
        (transformedOp doc baseVersion op) (tsUtf8CharCount doc'.text) := by
  have houtcome : ProcessOutcome doc ⟨clientId, opId, baseVersion, some op⟩ doc' result :=
    processOutcome hprocess
  cases houtcome with
  | error text hno => cases hok
  | resync op' hcall hacceptable hstale => cases hok
  | ok op' updated hcall hacceptable hstart hcovered hmax happly =>
    obtain rfl := Option.some.inj hcall
    refine ⟨?_, okResult_logJson _ _ _ _ _ _⟩
    exact
      { clientId := hclient
        opId := hop
        ch := hch
        serverVersion := by
          simp only [acceptedLogEntry, acceptedDocument_version]
          omega
        baseVersion := by
          simp only [acceptedLogEntry]
          simp only at hcovered
          omega
        pos := ⟨hpos, transformedOp_pos_lt hpos doc baseVersion⟩
        contentLength := lt_of_le_of_lt (tsUtf8CharCount_le_length _) hlength
        valid := ⟨hacceptable.1, (normalized_normalizeForApply doc _).kind⟩
        insert := ⟨fun h => (transformedOp_insert h).1,
          fun h => transformedOp_kind_insert h doc baseVersion⟩
        sameChar := fun h => (transformedOp_insert (transformedOp_kind_insert h doc baseVersion)).2 }

/-! ## When an entry is faithful -/

theorem atoi_range (text : Bytes) : intMin ≤ atoi text ∧ atoi text ≤ intMax := by
  have hrange : ∀ n, intMin ≤ toInt n ∧ toInt n ≤ intMax := by
    intro n
    simp only [toInt, Int.bmod, intMin, intMax]
    omega
  unfold atoi
  split
  · decide
  · exact hrange _

section Entry

variable {e : LogEntry}

theorem transformed_plain (haccepted : e.Accepted) (h : e.AllPlain)
    (hinsert : e.transformed.kind = .insert) : Plain e.transformed.ch := by
  have horiginal := haccepted.insert.mp hinsert
  rw [haccepted.sameChar horiginal]
  exact h.original horiginal

/-- The operation that is shown is an insertion exactly when the applied one is. -/
theorem shown_insert_iff (haccepted : e.Accepted) :
    e.shown.kind = .insert ↔ e.transformed.kind = .insert := by
  unfold LogEntry.shown shownOperation
  split_ifs
  · exact haccepted.insert.symm
  · exact Iff.rfl

/-- The terminal line is never cut off. -/
theorem shown_line (haccepted : e.Accepted) {outSize : ℕ} (hsize : 512 ≤ outSize) {ch : Bytes}
    (hch : e.shown.kind = .insert → ch = e.original.ch) :
    snprintf outSize (operationLine e.serverVersion e.clientId (tsOperationKindName e.shown.kind)
        (atoi (formatSize e.shown.pos)) ch e.baseVersion) =
      operationLine e.serverVersion e.clientId (tsOperationKindName e.shown.kind)
        (atoi (formatSize e.shown.pos)) ch e.baseVersion := by
  have hpos : (formatInt (atoi (formatSize e.shown.pos))).length ≤ 20 := by
    have hrange := atoi_range (formatSize e.shown.pos)
    have hlength := length_formatInt_le hrange.1 hrange.2
    omega
  have hlength : e.shown.kind = .insert → ch.length < tsMaxUtf8Char := by
    intro hinsert
    rw [hch hinsert]
    exact haccepted.ch
  have hline := length_operationLine_lt haccepted.serverVersion haccepted.baseVersion hpos
    haccepted.clientId hlength
  exact List.take_of_length_le (by omega)

theorem entryReadable_of_faithful (haccepted : e.Accepted) {outSize : ℕ} (hsize : 512 ≤ outSize)
    (h : EntryFaithful e.clientId e.opId e.serverVersion e.baseVersion e.original e.transformed
      outSize e.text) :
    EntryReadable e.clientId e.opId e.original e.transformed := by
  obtain ⟨value, ⟨hvalid, hparse⟩, hclient, hop, hbase, hversion, horiginal, htransformed⟩ := h.object
  have hplain : e.AllPlain := allPlain_of_readFrom hparse
    { clientId := hclient, opId := hop, baseVersion := hbase, serverVersion := hversion
      original := horiginal, transformed := htransformed }
  obtain ⟨hclientUtf8, hopUtf8, hchUtf8, -⟩ := (valid_text e).mp hvalid
  obtain ⟨ch, hch, hline⟩ := tsFormatOperationEvent_text hplain haccepted outSize
  have hshown := h.shown
  rw [hline, shown_line haccepted hsize hch] at hshown
  obtain ⟨hkind, hpos⟩ := operationLine_inj (shown_kind haccepted) haccepted.valid.2
    (shown_insert_iff haccepted) hshown
  exact
    { client := ⟨hclientUtf8, hplain.clientId⟩
      identifier := ⟨hopUtf8, hplain.opId⟩
      character := fun hinsert => ⟨hchUtf8 hinsert, hplain.original hinsert⟩
      kind := hkind
      pos := hpos }

theorem entryFaithful_of_readable (haccepted : e.Accepted) {outSize : ℕ} (hsize : 512 ≤ outSize)
    (h : EntryReadable e.clientId e.opId e.original e.transformed) :
    EntryFaithful e.clientId e.opId e.serverVersion e.baseVersion e.original e.transformed outSize
      e.text := by
  have hplain : e.AllPlain :=
    { clientId := h.client.2, opId := h.identifier.2, original := fun hk => (h.character hk).2 }
  have htransformed := transformed_plain haccepted hplain
  have hvalid : Utf8.Valid e.text := by
    refine (valid_text e).mpr ⟨h.client.1, h.identifier.1, fun hk => (h.character hk).1, fun hk => ?_⟩
    have horiginal := haccepted.insert.mp hk
    rw [haccepted.sameChar horiginal]
    exact (h.character horiginal).1
  have hread := readFrom_members e
  obtain ⟨ch, hch, hline⟩ := tsFormatOperationEvent_text hplain haccepted outSize
  have hkind : e.shown.kind = e.transformed.kind := h.kind
  have hpos : atoi (formatSize e.shown.pos) = e.transformed.pos := h.pos
  refine
    { oneLine := newline_notMem_text hplain htransformed
      object := ⟨_, ⟨hvalid, parse_of_allPlain hplain htransformed⟩, hread.clientId, hread.opId,
        hread.baseVersion, hread.serverVersion, hread.original, hread.transformed⟩
      shown := ?_ }
  rw [hline, shown_line haccepted hsize hch, hkind, hpos]
  by_cases hinsert : e.transformed.kind = .insert
  · rw [hch (hkind.trans hinsert), haccepted.sameChar (haccepted.insert.mp hinsert)]
  · rw [operationLine_other hinsert, operationLine_other hinsert]

end Entry

/-- The entry of an accepted operation is faithful exactly when the identifiers and the character need
no escapes and the operation that is shown reads like the applied one. -/
theorem entryFaithful_iff {doc doc' : TsDocument} {clientId opId : Bytes} {baseVersion : ℤ}
    {op : TsOperation} {result : TsProcessResult} {outSize : ℕ}
    (hclient : clientId.length < tsMaxClientId) (hop : opId.length < tsMaxOpId)
    (hch : op.ch.length < tsMaxUtf8Char) (hpos : op.pos < sizeModulus)
    (hversion : intMin ≤ doc.version) (hbase : intMin ≤ baseVersion)
    (hlength : doc'.text.length < sizeModulus) (hsize : 512 ≤ outSize)
    (hprocess : tsDocumentProcessOperation doc clientId opId baseVersion (some op) =
      some (doc', result)) (hok : result.status = .ok) :
    EntryFaithful clientId opId doc'.version baseVersion op (transformedOp doc baseVersion op) outSize
        result.logJson ↔
      EntryReadable clientId opId op (transformedOp doc baseVersion op) := by
  obtain ⟨haccepted, hlog⟩ := accepted_of_process hclient hop hch hpos hversion hbase hlength
    hprocess hok
  have htext : result.logJson = (acceptedLogEntry doc doc' clientId opId baseVersion op).text := by
    have hshort := length_text_lt haccepted
    have hbuild := buildOperationLog_eq (acceptedLogEntry doc doc' clientId opId baseVersion op)
      logJsonSize
    rw [snprintf, List.take_of_length_le (by omega)] at hbuild
    rw [hlog, ← hbuild]
    rfl
  rw [htext]
  exact ⟨entryReadable_of_faithful haccepted hsize, entryFaithful_of_readable haccepted hsize⟩

/-- The document and the answer after an insertion into the empty document. -/
def afterTyping (op : TsOperation) : TsDocument × TsProcessResult :=
  let doc := tsDocumentInit [] 0
  let doc' := acceptedDocument doc (acceptedEntry doc (bytes "u1") (bytes "u1-1") 0 op) op.ch
  (doc', okResult doc' (bytes "u1") (bytes "u1-1") 0 op op)

theorem entryFaithful_iff_letter :
    EntryFaithful (bytes "u1") (bytes "u1-1") 1 0 { kind := .insert, ch := bytes "x" }
      { kind := .insert, ch := bytes "x" } 512
      (afterTyping { kind := .insert, ch := bytes "x" }).2.logJson := by
  have hprocess : tsDocumentProcessOperation (tsDocumentInit [] 0) (bytes "u1") (bytes "u1-1") 0
      (some { kind := .insert, ch := bytes "x" }) =
        some (afterTyping { kind := .insert, ch := bytes "x" }) := by decide +kernel
  have hquotable : ∀ text ∈ [bytes "u1", bytes "u1-1", bytes "x"], Quotable text := by
    have hall : ∀ text ∈ [bytes "u1", bytes "u1-1", bytes "x"],
        (∀ b ∈ text, b < 0x80) ∧ Plain text := by decide
    exact fun text hmem => ⟨Utf8.valid_of_ascii (hall text hmem).1, (hall text hmem).2⟩
  refine (entryFaithful_iff (by decide) (by decide) (by decide) (by decide) (by decide) (by decide)
    (by decide) (le_refl _) hprocess rfl).mpr ?_
  exact
    { client := hquotable _ (by simp)
      identifier := hquotable _ (by simp)
      character := fun _ => hquotable _ (by simp)
      kind := rfl
      pos := by decide }

/-- An `OP` line of a client whose user presses Enter. -/
def enterLine : Bytes :=
  bytes "\x7b\"type\":\"OP\",\"client_id\":\"u1\",\"op_id\":\"u1-1\",\"base_version\":0," ++
    bytes "\"op\":\x7b\"kind\":\"insert\",\"pos\":0,\"char\":\"\\n\"\x7d\x7d"

theorem not_entryFaithful_enter :
    ¬ ∀ (line : Bytes) (m : TsMessage) (doc doc' : TsDocument) (result : TsProcessResult),
      tsDecodeMessage 128 line = .ok m → m.hasOp = true →
      tsDocumentProcessOperation doc m.clientId m.opId m.baseVersion (some m.op) =
        some (doc', result) →
      result.status = .ok →
      EntryFaithful m.clientId m.opId doc'.version m.baseVersion m.op
        (transformedOp doc m.baseVersion m.op) 512 result.logJson := by
  intro h
  have hdecode : tsDecodeMessage 128 enterLine = .ok { tsMessageInit with
      type := typeOp, clientId := bytes "u1", opId := bytes "u1-1", baseVersion := 0,
      op := { kind := .insert, ch := [10] }, hasOp := true } := by decide +kernel
  have hprocess : tsDocumentProcessOperation (tsDocumentInit [] 0) (bytes "u1") (bytes "u1-1") 0
      (some { kind := .insert, ch := [10] }) = some (afterTyping { kind := .insert, ch := [10] }) := by
    decide +kernel
  have hfaithful := h enterLine _ _ _ _ hdecode rfl hprocess rfl
  have hnewline : (10 : UInt8) ∈ (afterTyping { kind := .insert, ch := [10] }).2.logJson := by
    decide +kernel
  exact hfaithful.oneLine hnewline

end TermSync
