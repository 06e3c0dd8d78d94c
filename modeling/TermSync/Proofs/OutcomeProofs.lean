import TermSync.Proofs.HistoryProofs

/-!
# Proofs: one call, one consistent outcome

On a valid text a call has a defined outcome (`exists_processCall`), and it is one of two: the call is
refused and changes nothing, or it commits one operation and all its outputs agree on it.
-/

namespace TermSync

open Foundations

/-- On a valid text, every call has an outcome as long as the version can be incremented. -/
theorem exists_processCall {doc : TsDocument} (hvalid : ValidText doc.text)
    (hmax : doc.version < intMax) (call : DocCall) : ∃ out, processCall doc call = some out := by
  obtain ⟨ps, hps, htext⟩ := validText_iff_pieces.mp hvalid
  unfold processCall tsDocumentProcessOperation
  cases call.op with
  | none => exact ⟨_, rfl⟩
  | some op =>
    simp only
    split_ifs
    · exact ⟨_, rfl⟩
    · exact ⟨_, rfl⟩
    · exact ⟨_, rfl⟩
    · rw [htext, tsApplyOperationToText_flatten hps]
      exact ⟨_, rfl⟩

theorem refused_errorResult (doc : TsDocument) (opId text : Bytes) :
    Refused doc doc (errorResult opId text) where
  document := rfl
  status := Or.inl rfl
  resync h := by cases h
  types h := by cases h

theorem refused_resyncResult (doc : TsDocument) (opId : Bytes) (baseVersion : ℤ) :
    Refused doc doc (resyncResult doc opId baseVersion) where
  document := rfl
  status := Or.inr rfl
  resync _ m hm := by
    rcases List.mem_cons.mp hm with rfl | hm
    · exact ⟨rfl, Or.inl ⟨rfl, rfl⟩⟩
    · rw [List.mem_singleton.mp hm]
      exact ⟨rfl, Or.inr ⟨rfl, rfl, rfl⟩⟩
  types _ := rfl

/-- An operation that is in range changes the number of characters as its kind says. -/
theorem Normalized.length_apply {α : Type*} {op : TsOperation} {l : List α}
    (h : Normalized op l.length) (a : α) :
    (op.kind = .insert → ((opEdit op l.length a).apply l).length = l.length + 1) ∧
      (op.kind = .delete → ((opEdit op l.length a).apply l).length + 1 = l.length) ∧
      (op.kind = .noop → ((opEdit op l.length a).apply l).length = l.length) := by
  refine ⟨fun hk => ?_, fun hk => ?_, fun hk => ?_⟩
  · simp only [opEdit, hk, Edit.apply]
    exact List.length_insertIdx_of_le_length (min_le_right _ _) a
  · have hlt := h.delete hk
    simp only [opEdit, hk, if_pos hlt, Edit.apply, List.length_eraseIdx_of_lt hlt]
    omega
  · simp only [opEdit, hk, Edit.apply]

/-- The accepted operation and the documents around it. -/
theorem committed_okResult {doc : TsDocument} {updated clientId opId : Bytes} {baseVersion : ℤ}
    {op : TsOperation} (hvalid : ValidText doc.text)
    (hch : op.kind = .insert → WellFormedChar op.ch)
    (happly : tsApplyOperationToText doc.text (transformedOp doc baseVersion op) = some updated) :
    Committed doc
      (acceptedDocument doc (acceptedEntry doc clientId opId baseVersion op) updated)
      (okResult (acceptedDocument doc (acceptedEntry doc clientId opId baseVersion op) updated)
        clientId opId baseVersion op (transformedOp doc baseVersion op))
      (transformedOp doc baseVersion op) := by
  obtain ⟨cs, hcs⟩ := hvalid
  have hden : Denotes doc.text cs := hcs
  have hnorm : Normalized (transformedOp doc baseVersion op) (tsUtf8CharCount doc.text) :=
    normalized_normalizeForApply _ _
  obtain ⟨c, hc⟩ : ∃ c : Char, (transformedOp doc baseVersion op).kind = .insert →
      c ≠ '\x00' ∧ (transformedOp doc baseVersion op).ch = String.utf8EncodeChar c := by
    by_cases hk : (transformedOp doc baseVersion op).kind = .insert
    · obtain ⟨hkind, hch'⟩ := transformedOp_insert hk
      obtain ⟨c, hc, heq⟩ := hch hkind
      exact ⟨c, fun _ => ⟨hc, hch'.trans heq⟩⟩
    · exact ⟨'a', fun h => absurd h hk⟩
  obtain ⟨updated', happly', hden'⟩ := hden.apply hc
  obtain rfl : updated' = updated := Option.some.inj (happly'.symm.trans happly)
  have hlength := Normalized.length_apply (hden.charCount ▸ hnorm) c
  rw [← hden'.charCount, ← hden.charCount] at hlength
  exact
    { status := rfl
      version := rfl
      text := happly
      kind := hnorm.kind
      insert := fun hk => ⟨hnorm.insert hk, hlength.1 hk⟩
      delete := fun hk => ⟨hnorm.delete hk, hlength.2.1 hk⟩
      noop := hlength.2.2
      ack := ⟨_, rfl, rfl, rfl, rfl, rfl⟩
      remote := ⟨_, rfl, rfl, rfl, rfl, rfl⟩
      snapshot := ⟨rfl, rfl⟩
      newest := ⟨_, by rw [acceptedDocument_history]; exact List.getLast?_concat, rfl, rfl⟩ }

/-- A call either is refused and changes nothing, or commits exactly one operation on which the
document, the history, the ACK, the REMOTE_OP and the snapshot agree. -/
theorem one_outcome (doc : TsDocument) (hvalid : ValidText doc.text) (hmax : doc.version < intMax)
    (call : DocCall)
    (hch : ∀ op, call.op = some op → op.kind = .insert → tsUtf8CharCount op.ch = 1 →
      WellFormedChar op.ch) :
    ∃ doc' r, processCall doc call = some (doc', r) ∧
      (Refused doc doc' r ∨ ∃ op, Committed doc doc' r op) := by
  obtain ⟨⟨doc', r⟩, hcall⟩ := exists_processCall hvalid hmax call
  refine ⟨doc', r, hcall, ?_⟩
  cases processOutcome hcall with
  | error text => exact Or.inl (refused_errorResult _ _ _)
  | resync op => exact Or.inl (refused_resyncResult _ _ _)
  | ok op updated hop hacc _ _ _ happly =>
    exact Or.inr ⟨_, committed_okResult hvalid (fun hk => hch op hop hk (hacc.2 hk)) happly⟩

theorem one_outcome_wide :
    ∃ doc' r, processCall (tsDocumentInit (bytes "a界") 2)
        ⟨bytes "u1", bytes "u1-1", 0, some (tsOperationInit .insert 9 (bytes "é"))⟩ =
          some (doc', r) ∧
      (Refused (tsDocumentInit (bytes "a界") 2) doc' r ∨
        ∃ op, Committed (tsDocumentInit (bytes "a界") 2) doc' r op) := by
  refine one_outcome (tsDocumentInit (bytes "a界") 2) ⟨['a', '界'], by decide, by decide⟩ (by decide)
    ⟨bytes "u1", bytes "u1-1", 0, some (tsOperationInit .insert 9 (bytes "é"))⟩ ?_
  rintro op hop - -
  cases hop
  exact ⟨'é', by decide, by decide⟩

end TermSync
