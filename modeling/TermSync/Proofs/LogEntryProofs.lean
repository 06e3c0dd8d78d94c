import TermSync.Events
import TermSync.Proofs.FindKeyProofs
import TermSync.Proofs.Utf8InvariantProofs

/-!
# Proofs: the log entry of an operation

The entry is one text between quotes after the other. A JSON parser reads it as it is meant exactly
when the three texts that clients choose need no escapes, and the terminal line is read from the right
operation unless an identifier looks like its key.
-/

namespace TermSync

open Foundations Foundations.Json

/-! ## The text of an entry -/

/-- What goes into an entry. -/
structure LogEntry where
  serverVersion : ℤ
  clientId : Bytes
  opId : Bytes
  baseVersion : ℤ
  original : TsOperation
  transformed : TsOperation
  contentLength : ℕ

/-- The character of an operation, and what follows. -/
def characterText (op : TsOperation) (rest : Bytes) : Bytes :=
  if op.kind = .insert then 44 :: 34 :: (bytes "char" ++ 34 :: 58 :: 34 :: (op.ch ++ 34 :: rest))
  else rest

/-- The members of an operation, and what follows. -/
def operationText (op : TsOperation) (rest : Bytes) : Bytes :=
  bytes "kind" ++ 34 :: 58 :: 34 :: (tsOperationKindName op.kind ++ 34 :: 44 :: 34 ::
    (bytes "pos" ++ 34 :: 58 :: (formatSize op.pos ++ characterText op rest)))

namespace LogEntry

variable (e : LogEntry)

/-- The entry from each of its members on, behind the quote of the key. -/
def fromLength : Bytes :=
  bytes "content_length" ++ 34 :: 58 :: (formatSize e.contentLength ++ [125])

def fromTransformed : Bytes :=
  bytes "transformed_op" ++ 34 :: 58 :: 123 :: 34 ::
    operationText e.transformed (125 :: 44 :: 34 :: e.fromLength)

def fromOriginal : Bytes :=
  bytes "original_op" ++ 34 :: 58 :: 123 :: 34 ::
    operationText e.original (125 :: 44 :: 34 :: e.fromTransformed)

def fromBase : Bytes :=
  bytes "base_version" ++ 34 :: 58 :: (formatInt e.baseVersion ++ 44 :: 34 :: e.fromOriginal)

def fromOpId : Bytes :=
  bytes "op_id" ++ 34 :: 58 :: 34 :: (e.opId ++ 34 :: 44 :: 34 :: e.fromBase)

def fromClientId : Bytes :=
  bytes "client_id" ++ 34 :: 58 :: 34 :: (e.clientId ++ 34 :: 44 :: 34 :: e.fromOpId)

def fromVersion : Bytes :=
  bytes "server_version" ++ 34 :: 58 :: (formatInt e.serverVersion ++ 44 :: 34 :: e.fromClientId)

def text : Bytes :=
  123 :: 34 :: (bytes "event" ++ 34 :: 58 :: 34 :: (bytes "operation" ++ 34 :: 44 :: 34 ::
    e.fromVersion))

end LogEntry

theorem operationText_append (op : TsOperation) (rest more : Bytes) :
    operationText op rest ++ more = operationText op (rest ++ more) := by
  unfold operationText characterText
  split_ifs <;> simp

theorem logOperation_append (op : TsOperation) (rest : Bytes) :
    logOperation op ++ rest = 123 :: 34 :: operationText op (125 :: rest) := by
  have h1 : bytes "\x7b\"kind\":\"" = 123 :: 34 :: (bytes "kind" ++ [34, 58, 34]) := by decide
  have h2 : bytes "\",\"pos\":" = 34 :: 44 :: 34 :: (bytes "pos" ++ [34, 58]) := by decide
  have h3 : bytes ",\"char\":\"" = 44 :: 34 :: (bytes "char" ++ [34, 58, 34]) := by decide
  have h4 : bytes "\x7d" = [125] := by decide
  unfold logOperation operationText characterText
  split_ifs <;> simp [h1, h2, h3, bytes_quote, h4]

theorem buildOperationLog_eq (e : LogEntry) (outSize : ℕ) :
    buildOperationLog outSize e.serverVersion e.clientId e.opId e.baseVersion e.original
      e.transformed e.contentLength = snprintf outSize e.text := by
  have h1 : bytes "\x7b\"event\":\"operation\",\"server_version\":" =
      123 :: 34 :: (bytes "event" ++ 34 :: 58 :: 34 :: (bytes "operation" ++ 34 :: 44 :: 34 ::
        (bytes "server_version" ++ [34, 58]))) := by decide
  have h2 : bytes ",\"client_id\":\"" = 44 :: 34 :: (bytes "client_id" ++ [34, 58, 34]) := by decide
  have h3 : bytes "\",\"op_id\":\"" = 34 :: 44 :: 34 :: (bytes "op_id" ++ [34, 58, 34]) := by decide
  have h4 : bytes "\",\"base_version\":" = 34 :: 44 :: 34 :: (bytes "base_version" ++ [34, 58]) := by
    decide
  have h5 : bytes ",\"original_op\":" = 44 :: 34 :: (bytes "original_op" ++ [34, 58]) := by decide
  have h6 : bytes ",\"transformed_op\":" = 44 :: 34 :: (bytes "transformed_op" ++ [34, 58]) := by
    decide
  have h7 : bytes ",\"content_length\":" = 44 :: 34 :: (bytes "content_length" ++ [34, 58]) := by
    decide
  have h8 : bytes "\x7d" = [125] := by decide
  unfold buildOperationLog
  refine congrArg (snprintf outSize) ?_
  simp only [LogEntry.text, LogEntry.fromVersion, LogEntry.fromClientId, LogEntry.fromOpId,
    LogEntry.fromBase, LogEntry.fromOriginal, LogEntry.fromTransformed, LogEntry.fromLength, h1, h2,
    h3, h4, h5, h6, h7, h8, List.append_assoc, List.cons_append, List.nil_append, logOperation_append,
    operationText_append]

/-! ## Reading the entry -/

theorem formatInt_eq (n : ℤ) : formatInt n = integerNumeral n := by
  unfold formatInt integerNumeral
  rw [bytes_minus]
  rfl

theorem formatSize_eq (n : ℕ) : formatSize n = integerNumeral n := by
  rw [formatSize_eq_formatInt, formatInt_eq]

/-- The names between the quotes that `build_operation_log` writes itself. -/
def entryNames : List Bytes :=
  [bytes "event", bytes "operation", bytes "server_version", bytes "client_id", bytes "op_id",
    bytes "base_version", bytes "original_op", bytes "transformed_op", bytes "content_length",
    bytes "kind", bytes "pos", bytes "char"]

theorem entryNames_spec : ∀ name ∈ entryNames,
    Plain name ∧ (∀ b ∈ name, b < 0x80) ∧ name.length ≤ 14 := by decide

theorem plain_names : ∀ name ∈ entryNames, Plain name :=
  fun name hmem => (entryNames_spec name hmem).1

theorem plain_kindName (kind : TsOpKind) : Plain (tsOperationKindName kind) := by
  cases kind <;> decide

/-- The value that describes an operation. -/
def operationMembers (op : TsOperation) : List (Bytes × Json.Value) :=
  [(bytes "kind", .string (tsOperationKindName op.kind)),
    (bytes "pos", .number (formatSize op.pos))] ++
  if op.kind = .insert then [(bytes "char", .string op.ch)] else []

theorem describes_operationMembers (op : TsOperation) :
    DescribesOperation (.object (operationMembers op)) op := by
  have hnodup : ((operationMembers op).map Prod.fst).Nodup := by
    have hkeys : [bytes "kind", bytes "pos", bytes "char"].Nodup ∧
        [bytes "kind", bytes "pos"].Nodup := by decide
    unfold operationMembers
    split_ifs
    · exact hkeys.1
    · exact hkeys.2
  refine ⟨Json.Value.has_of_nodup hnodup (by simp [operationMembers]), ⟨formatSize op.pos, ?_, ?_⟩,
    fun hinsert => Json.Value.has_of_nodup hnodup (by simp [operationMembers, hinsert])⟩
  · exact Json.Value.has_of_nodup hnodup (by simp [operationMembers])
  · rw [formatSize_eq]
    exact integerOf_integerNumeral _

theorem parseValue_formatInt (n : ℤ) (fuel : ℕ) {b : UInt8} (hb : b = 44 ∨ b = 125) (rest : Bytes) :
    parseValue (fuel + 1) (skip (formatInt n ++ b :: rest)) =
      some (.number (formatInt n), b :: rest) := by
  rw [formatInt_eq]
  exact parseValue_integer n fuel hb rest

theorem parseValue_formatSize (n fuel : ℕ) {b : UInt8} (hb : b = 44 ∨ b = 125) (rest : Bytes) :
    parseValue (fuel + 1) (skip (formatSize n ++ b :: rest)) =
      some (.number (formatSize n), b :: rest) := by
  rw [formatSize_eq]
  exact parseValue_integer n fuel hb rest

/-- The first two members of an operation. -/
theorem parseMembers_operation (op : TsOperation) (fuel : ℕ) (rest : Bytes)
    (hinsert : op.kind = .insert) :
    parseMembers (fuel + 3) (34 :: operationText op rest) =
      (parseMembers (fuel + 1) (34 :: (bytes "char" ++ 34 :: 58 :: 34 :: (op.ch ++ 34 :: rest)))).map
        fun q => ((bytes "kind", .string (tsOperationKindName op.kind)) ::
          (bytes "pos", .number (formatSize op.pos)) :: q.1, q.2) := by
  unfold operationText characterText
  rw [if_pos hinsert, parseMembers_cons (plain_names _ (by simp [entryNames]))
      (parseValue_plain (plain_kindName op.kind) _ _),
    parseMembers_cons (plain_names _ (by simp [entryNames]))
      (parseValue_formatSize op.pos _ (Or.inl rfl) _),
    Option.map_map]
  rfl

/-- An operation whose character can be printed is read back. -/
theorem parseValue_operation (op : TsOperation) (hch : op.kind = .insert → Plain op.ch) (fuel : ℕ)
    (rest : Bytes) :
    parseValue (fuel + 5) (skip (123 :: 34 :: operationText op (125 :: rest))) =
      some (.object (operationMembers op), rest) := by
  rw [parseValue_object]
  unfold operationMembers
  by_cases hinsert : op.kind = .insert
  · rw [parseMembers_operation op (fuel + 1) _ hinsert, if_pos hinsert, parseMembers_last
      (plain_names _ (by simp [entryNames])) (parseValue_plain (hch hinsert) _ _)]
    rfl
  · unfold operationText characterText
    rw [if_neg hinsert, if_neg hinsert, parseMembers_cons (plain_names _ (by simp [entryNames]))
        (parseValue_plain (plain_kindName op.kind) _ _),
      parseMembers_last (plain_names _ (by simp [entryNames]))
        (parseValue_formatSize op.pos _ (Or.inr rfl) _)]
    rfl

/-- The members from `op_id` on, `base_version` on and so on, read one by one. -/
theorem parseMembers_fromTransformed (e : LogEntry) (hch : e.transformed.kind = .insert →
    Plain e.transformed.ch) (fuel : ℕ) :
    parseMembers (fuel + 6) (34 :: e.fromTransformed) =
      some ([(bytes "transformed_op", .object (operationMembers e.transformed)),
        (bytes "content_length", .number (formatSize e.contentLength))], []) := by
  unfold LogEntry.fromTransformed LogEntry.fromLength
  rw [parseMembers_cons (plain_names _ (by simp [entryNames]))
      (parseValue_operation e.transformed hch _ _),
    parseMembers_last (plain_names _ (by simp [entryNames]))
      (parseValue_formatSize _ _ (Or.inr rfl) _)]
  rfl

theorem parseMembers_fromOriginal (e : LogEntry) (hch : e.original.kind = .insert →
    Plain e.original.ch) (fuel : ℕ) :
    parseMembers (fuel + 6) (34 :: e.fromOriginal) =
      (parseMembers (fuel + 5) (34 :: e.fromTransformed)).map fun q =>
        ((bytes "original_op", .object (operationMembers e.original)) :: q.1, q.2) := by
  unfold LogEntry.fromOriginal
  rw [parseMembers_cons (plain_names _ (by simp [entryNames]))
    (parseValue_operation e.original hch _ _)]

theorem parseMembers_fromBase (e : LogEntry) (fuel : ℕ) :
    parseMembers (fuel + 2) (34 :: e.fromBase) =
      (parseMembers (fuel + 1) (34 :: e.fromOriginal)).map fun q =>
        ((bytes "base_version", .number (formatInt e.baseVersion)) :: q.1, q.2) := by
  unfold LogEntry.fromBase
  rw [parseMembers_cons (plain_names _ (by simp [entryNames]))
    (parseValue_formatInt _ _ (Or.inl rfl) _)]

theorem parseMembers_fromOpId (e : LogEntry) (hop : Plain e.opId) (fuel : ℕ) :
    parseMembers (fuel + 2) (34 :: e.fromOpId) =
      (parseMembers (fuel + 1) (34 :: e.fromBase)).map fun q =>
        ((bytes "op_id", .string e.opId) :: q.1, q.2) := by
  unfold LogEntry.fromOpId
  rw [parseMembers_cons (plain_names _ (by simp [entryNames])) (parseValue_plain hop _ _)]

theorem parseMembers_fromClientId (e : LogEntry) (hclient : Plain e.clientId) (fuel : ℕ) :
    parseMembers (fuel + 2) (34 :: e.fromClientId) =
      (parseMembers (fuel + 1) (34 :: e.fromOpId)).map fun q =>
        ((bytes "client_id", .string e.clientId) :: q.1, q.2) := by
  unfold LogEntry.fromClientId
  rw [parseMembers_cons (plain_names _ (by simp [entryNames])) (parseValue_plain hclient _ _)]

/-- The members in front of the first text that a client chooses. -/
def LogEntry.head (e : LogEntry) : List (Bytes × Json.Value) :=
  [(bytes "event", .string (bytes "operation")),
    (bytes "server_version", .number (formatInt e.serverVersion))]

/-- An entry is parsed like the members from `client_id` on. -/
theorem parse_text (e : LogEntry) :
    ∃ fuel, Json.parse e.text = match parseMembers (fuel + 12) (34 :: e.fromClientId) with
      | some (members, rest) => if skip rest = [] then some (.object (e.head ++ members)) else none
      | none => none := by
  have hlength : 14 ≤ e.text.length := by
    have hname : (bytes "event").length = 5 ∧ (bytes "operation").length = 9 := by decide
    simp only [LogEntry.text, List.length_cons, List.length_append]
    omega
  obtain ⟨fuel, hfuel⟩ := Nat.exists_eq_add_of_le hlength
  refine ⟨fuel, ?_⟩
  unfold Json.parse
  rw [hfuel, show 14 + fuel + 1 = fuel + 14 + 1 by omega]
  unfold LogEntry.text
  rw [parseValue_object, parseMembers_cons (plain_names _ (by simp [entryNames]))
    (parseValue_plain (plain_names _ (by simp [entryNames])) _ _)]
  unfold LogEntry.fromVersion
  rw [parseMembers_cons (plain_names _ (by simp [entryNames]))
    (parseValue_formatInt _ _ (Or.inl rfl) _)]
  cases parseMembers (fuel + 12) (34 :: e.fromClientId) <;> rfl

/-- The members that an entry should have. -/
def LogEntry.members (e : LogEntry) : List (Bytes × Json.Value) :=
  e.head ++ [(bytes "client_id", .string e.clientId), (bytes "op_id", .string e.opId),
    (bytes "base_version", .number (formatInt e.baseVersion)),
    (bytes "original_op", .object (operationMembers e.original)),
    (bytes "transformed_op", .object (operationMembers e.transformed)),
    (bytes "content_length", .number (formatSize e.contentLength))]

/-- What can be looked up in an entry. -/
structure LogEntry.ReadFrom (e : LogEntry) (value : Json.Value) : Prop where
  clientId : value.Has (bytes "client_id") (.string e.clientId)
  opId : value.Has (bytes "op_id") (.string e.opId)
  baseVersion : value.HasInteger (bytes "base_version") e.baseVersion
  serverVersion : value.HasInteger (bytes "server_version") e.serverVersion
  original : ∃ op, value.Has (bytes "original_op") op ∧ DescribesOperation op e.original
  transformed : ∃ op, value.Has (bytes "transformed_op") op ∧ DescribesOperation op e.transformed

/-- The three texts that clients choose can stand between quotes. -/
structure LogEntry.AllPlain (e : LogEntry) : Prop where
  clientId : Plain e.clientId
  opId : Plain e.opId
  original : e.original.kind = .insert → Plain e.original.ch

theorem parse_of_allPlain {e : LogEntry} (h : e.AllPlain)
    (htransformed : e.transformed.kind = .insert → Plain e.transformed.ch) :
    Json.parse e.text = some (.object e.members) := by
  obtain ⟨fuel, hparse⟩ := parse_text e
  rw [hparse, parseMembers_fromClientId e h.clientId, parseMembers_fromOpId e h.opId,
    parseMembers_fromBase, parseMembers_fromOriginal e h.original,
    parseMembers_fromTransformed e htransformed]
  rfl

theorem readFrom_members (e : LogEntry) : e.ReadFrom (.object e.members) := by
  have hnodup : (e.members.map Prod.fst).Nodup := by
    have hkeys : [bytes "event", bytes "server_version", bytes "client_id", bytes "op_id",
        bytes "base_version", bytes "original_op", bytes "transformed_op",
        bytes "content_length"].Nodup := by decide
    exact hkeys
  have hhas : ∀ {key value}, (key, value) ∈ e.members →
      (Json.Value.object e.members).Has key value :=
    fun hmem => Json.Value.has_of_nodup hnodup hmem
  have hinteger : ∀ {key} (n : ℤ), (key, Json.Value.number (formatInt n)) ∈ e.members →
      (Json.Value.object e.members).HasInteger key n := by
    intro key n hmem
    refine ⟨_, hhas hmem, ?_⟩
    rw [formatInt_eq]
    exact integerOf_integerNumeral n
  exact
    { clientId := hhas (by simp [LogEntry.members])
      opId := hhas (by simp [LogEntry.members])
      baseVersion := hinteger _ (by simp [LogEntry.members])
      serverVersion := hinteger _ (by simp [LogEntry.members, LogEntry.head])
      original := ⟨_, hhas (by simp [LogEntry.members]), describes_operationMembers _⟩
      transformed := ⟨_, hhas (by simp [LogEntry.members]), describes_operationMembers _⟩ }

/-- A text between quotes that is followed by a further member is looked up as itself only if it is
plain. -/
theorem plain_of_member {key text sep tail rest : Bytes} {fuel : ℕ}
    {before members : List (Bytes × Json.Value)} (hkey : Plain key) (hsep : (34 : UInt8) ∉ sep)
    (hparse : parseMembers (fuel + 2)
      (34 :: (key ++ 34 :: 58 :: 34 :: (text ++ 34 :: (sep ++ 44 :: 34 :: tail)))) =
        some (members, rest))
    (hbefore : ∀ m ∈ before, m.1 ≠ key)
    (hhas : (Json.Value.object (before ++ members)).Has key (.string text)) : Plain text := by
  obtain ⟨value, rest', members', hvalue, rfl⟩ := parseMembers_first hkey hparse
  have hread := hhas.eq_of_split hbefore
  rw [hread, parseValue_string, Option.map_eq_some_iff] at hvalue
  obtain ⟨⟨text', rest''⟩, hstring, heq⟩ := hvalue
  have htext : text' = text := Json.Value.string.inj (Prod.mk.inj heq).1
  rw [htext] at hstring
  exact plain_of_parseString hsep hstring

/-- In front of a further member, an operation is read back as itself only if its character is
plain. -/
theorem plain_of_operation {op : TsOperation} (hinsert : op.kind = .insert) {fuel : ℕ}
    {rest rest' : Bytes} {value : Json.Value}
    (hparse : parseValue (fuel + 5) (skip (123 :: 34 :: operationText op (125 :: 44 :: 34 :: rest))) =
      some (value, rest'))
    (hdescribes : DescribesOperation value op) : Plain op.ch := by
  rw [parseValue_object, Option.map_eq_some_iff] at hparse
  obtain ⟨⟨members, rest₁⟩, hmembers, heq⟩ := hparse
  rw [parseMembers_operation op (fuel + 1) _ hinsert, Option.map_eq_some_iff] at hmembers
  obtain ⟨⟨last, rest₂⟩, hlast, heq'⟩ := hmembers
  cases heq'
  have hch := hdescribes.ch hinsert
  rw [← (Prod.mk.inj heq).1] at hch
  have hsep : (34 : UInt8) ∉ ([125] : Bytes) := by decide
  have hread : (Json.Value.object ([(bytes "kind", .string (tsOperationKindName op.kind)),
      (bytes "pos", .number (formatSize op.pos))] ++ last)).Has (bytes "char") (.string op.ch) := hch
  have hbefore : ∀ m ∈ [(bytes "kind", Json.Value.string (tsOperationKindName op.kind)),
      (bytes "pos", .number (formatSize op.pos))], m.1 ≠ bytes "char" := by
    simp only [List.forall_mem_cons]
    decide
  exact plain_of_member (plain_names _ (by simp [entryNames])) hsep hlast hbefore hread

/-- An entry whose fields can be looked up is made of plain texts. -/
theorem allPlain_of_readFrom {e : LogEntry} {value : Json.Value}
    (hparse : Json.parse e.text = some value) (h : e.ReadFrom value) : e.AllPlain := by
  obtain ⟨fuel, htext⟩ := parse_text e
  rw [htext] at hparse
  cases hmembers : parseMembers (fuel + 12) (34 :: e.fromClientId) with
  | none => rw [hmembers] at hparse; cases hparse
  | some r =>
    obtain ⟨members, rest⟩ := r
    rw [hmembers] at hparse
    simp only [Option.ite_none_right_eq_some, Option.some.injEq] at hparse
    obtain ⟨-, rfl⟩ := hparse
    -- member by member: what has been read so far is as it is meant, so the next text stands in place
    have hclient : Plain e.clientId := by
      have hsep : (34 : UInt8) ∉ ([] : Bytes) := List.not_mem_nil
      exact plain_of_member (plain_names _ (by simp [entryNames])) hsep hmembers
        (by simp [LogEntry.head]; decide) h.clientId
    rw [parseMembers_fromClientId e hclient, Option.map_eq_some_iff] at hmembers
    obtain ⟨⟨members, rest'⟩, hmembers, heq⟩ := hmembers
    cases heq
    have hop : Plain e.opId := by
      have hsep : (34 : UInt8) ∉ ([] : Bytes) := List.not_mem_nil
      have hopId := h.opId
      rw [List.append_cons] at hopId
      exact plain_of_member (plain_names _ (by simp [entryNames])) hsep hmembers
        (by simp [LogEntry.head]; decide) hopId
    rw [parseMembers_fromOpId e hop, parseMembers_fromBase, Option.map_map, Option.map_eq_some_iff]
      at hmembers
    obtain ⟨⟨members, rest'⟩, hmembers, heq⟩ := hmembers
    cases heq
    refine ⟨hclient, hop, fun hinsert => ?_⟩
    obtain ⟨op, hhas, hdescribes⟩ := h.original
    obtain ⟨value, rest'', members', hvalue, rfl⟩ :=
      parseMembers_first (plain_names (bytes "original_op") (by simp [entryNames])) hmembers
    have hvalueOp : value = op := by
      rw [List.append_cons, List.append_cons, List.append_cons] at hhas
      exact hhas.eq_of_split (by simp [LogEntry.head]; decide)
    exact plain_of_operation hinsert hvalue (hvalueOp ▸ hdescribes)

end TermSync
