import TermSync.WireOperations

/-!
# Proofs: the parts of the decoder

`ts_decode_message` reads the type, the other fields, the `op` and the `original_op`, one after the
other. A decoded message comes out of all four parts (`tsDecodeMessage_ok`).
-/

namespace TermSync

/-! ## Operation objects -/

/-- The error is left unset exactly for an accepted object. -/
theorem parseOperationObject_accepted (errorSize : ℕ) (json : Bytes) :
    (parseOperationObject errorSize json).2 = none ↔ OperationAccepted json := by
  rw [parseOperationObject, OperationAccepted, operationKind]
  cases jsonGetString json (bytes "kind") tsMaxType with
  | none => simp
  | some kind =>
    simp only [Option.map_some, Option.getD_some]
    by_cases hinvalid : tsOperationKindFromName kind = .invalid
    · simp [hinvalid]
    by_cases hinsert : tsOperationKindFromName kind = .insert
    · rw [if_neg hinvalid, if_pos hinsert]
      cases jsonGetString json (bytes "char") tsMaxUtf8Char with
      | none => simp [hinsert]
      | some ch =>
        by_cases hone : tsUtf8CharCount ch = 1 <;> simp [hinsert, hone]
    · rw [if_neg hinvalid, if_neg hinsert]
      simp [hinvalid, hinsert]

/-! ## Messages -/

/-- The fields of `ts_decode_message` behind the type. -/
def decodeFields (json type : Bytes) : TsMessage :=
  { tsMessageInit with
    type := type
    clientId := (jsonGetString json (bytes "client_id") tsMaxClientId).getD []
    opId := (jsonGetString json (bytes "op_id") tsMaxOpId).getD []
    message := (jsonGetString json (bytes "message") tsMaxStatus).getD []
    reason := (jsonGetString json (bytes "reason") tsMaxReason).getD []
    baseVersion := (jsonGetInt json (bytes "base_version")).getD (-1)
    serverVersion := (jsonGetInt json (bytes "server_version")).getD (-1)
    version := (jsonGetInt json (bytes "version")).getD (-1)
    historyStartVersion := (jsonGetInt json (bytes "history_start_version")).getD (-1)
    content := jsonGetContent json (bytes "content") }

/-- The `op` of `ts_decode_message`. -/
def decodeOp (errorSize : ℕ) (json : Bytes) (message : TsMessage) : Except Bytes TsMessage :=
  match jsonGetObject json (bytes "op") with
  | none => .ok message
  | some opJson => match parseOperationObject errorSize opJson with
    | (_, some error) => .error error
    | (op, none) => .ok { message with op := op, hasOp := true }

/-- The `original_op` of `ts_decode_message`. -/
def decodeOriginalOp (errorSize : ℕ) (json : Bytes) (message : TsMessage) :
    Except Bytes TsMessage :=
  match jsonGetObject json (bytes "original_op") with
  | none => .ok message
  | some originalJson =>
    let (originalOp, error) := parseOperationObject errorSize originalJson
    .ok { message with originalOp := originalOp, hasOriginalOp := error.isNone }

theorem tsDecodeMessage_eq (errorSize : ℕ) (line : Bytes) :
    tsDecodeMessage errorSize line =
      if (skipWs line).head? ≠ some 123 then
        .error (snprintf errorSize (bytes "protocol message must be a JSON object"))
      else match jsonGetString (skipWs line) (bytes "type") tsMaxType with
        | none => .error (snprintf errorSize (bytes "message type is required"))
        | some type =>
          match decodeOp errorSize (skipWs line) (decodeFields (skipWs line) type) with
          | .error error => .error error
          | .ok message => decodeOriginalOp errorSize (skipWs line) message := rfl

theorem decodeOp_cases (errorSize : ℕ) (json : Bytes) (message : TsMessage) :
    ((jsonGetObject json (bytes "op")).all OperationAccepted = true ∧
        ∃ message', decodeOp errorSize json message = .ok message') ∨
      ((jsonGetObject json (bytes "op")).all OperationAccepted = false ∧
        ∃ error, decodeOp errorSize json message = .error error) := by
  rw [decodeOp]
  cases jsonGetObject json (bytes "op") with
  | none => exact Or.inl ⟨rfl, message, rfl⟩
  | some opJson =>
    rw [Option.all_some, decide_eq_true_eq, decide_eq_false_iff_not,
      ← parseOperationObject_accepted errorSize]
    simp only
    rcases parseOperationObject errorSize opJson with ⟨op, error | error⟩
    · exact Or.inl ⟨rfl, _, rfl⟩
    · exact Or.inr ⟨(fun h => by cases h), error, rfl⟩

section Parts

variable {errorSize : ℕ} {json : Bytes} {message m : TsMessage}

/-- An accepted `op` is stored; without an `op` the message stays as it is. -/
theorem decodeOp_ok (h : decodeOp errorSize json message = .ok m) :
    jsonGetObject json (bytes "op") = none ∧ m = message ∨
      ∃ opJson op, jsonGetObject json (bytes "op") = some opJson ∧
        parseOperationObject errorSize opJson = (op, none) ∧
        m = { message with op := op, hasOp := true } := by
  rw [decodeOp] at h
  cases hobject : jsonGetObject json (bytes "op") with
  | none =>
    rw [hobject] at h
    exact Or.inl ⟨rfl, (Except.ok.inj h).symm⟩
  | some opJson =>
    rw [hobject] at h
    simp only at h
    rcases hparse : parseOperationObject errorSize opJson with ⟨op, error | error⟩
    · rw [hparse] at h
      exact Or.inr ⟨opJson, op, rfl, hparse, (Except.ok.inj h).symm⟩
    · rw [hparse] at h
      cases h

/-- An `original_op` is stored as far as it has been filled in. -/
theorem decodeOriginalOp_ok (h : decodeOriginalOp errorSize json message = .ok m) :
    jsonGetObject json (bytes "original_op") = none ∧ m = message ∨
      ∃ originalJson, jsonGetObject json (bytes "original_op") = some originalJson ∧
        m = { message with
          originalOp := (parseOperationObject errorSize originalJson).1
          hasOriginalOp := (parseOperationObject errorSize originalJson).2.isNone } := by
  rw [decodeOriginalOp] at h
  cases hobject : jsonGetObject json (bytes "original_op") with
  | none =>
    rw [hobject] at h
    exact Or.inl ⟨rfl, (Except.ok.inj h).symm⟩
  | some originalJson =>
    rw [hobject] at h
    exact Or.inr ⟨originalJson, rfl, (Except.ok.inj h).symm⟩

/-- A decoded message comes out of all parts of the decoder. -/
theorem tsDecodeMessage_ok {line : Bytes} (h : tsDecodeMessage errorSize line = .ok m) :
    ∃ type withOp, jsonGetString (skipWs line) (bytes "type") tsMaxType = some type ∧
      decodeOp errorSize (skipWs line) (decodeFields (skipWs line) type) = .ok withOp ∧
      decodeOriginalOp errorSize (skipWs line) withOp = .ok m := by
  rw [tsDecodeMessage_eq] at h
  split_ifs at h
  cases htype : jsonGetString (skipWs line) (bytes "type") tsMaxType with
  | none =>
    rw [htype] at h
    cases h
  | some type =>
    rw [htype] at h
    simp only at h
    cases hop : decodeOp errorSize (skipWs line) (decodeFields (skipWs line) type) with
    | error error =>
      rw [hop] at h
      cases h
    | ok withOp =>
      rw [hop] at h
      exact ⟨type, withOp, rfl, hop, h⟩

end Parts

end TermSync
