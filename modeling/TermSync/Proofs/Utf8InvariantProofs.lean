import TermSync.WireOperations
import TermSync.Proofs.CStringProofs
import TermSync.Proofs.DocumentProofs

/-!
# Proofs: the text of the document is valid UTF-8

An operation reaches the document as the bytes of a JSON object. The decoder and the document accept
an insertion whose character field has one byte that is not a continuation byte, which is weaker
than being one well-formed character. The text stays valid UTF-8 exactly as long as every accepted
insertion carries one.
-/

namespace TermSync

open Foundations

theorem parseOperationObject_acceptable {errorSize : ℕ} {json : Bytes} {op : TsOperation}
    (h : parseOperationObject errorSize json = (op, none)) : Acceptable op := by
  unfold parseOperationObject at h
  cases hkind : jsonGetString json (bytes "kind") tsMaxType with
  | none => simp [hkind] at h
  | some kind =>
    simp only [hkind] at h
    split_ifs at h with hinv hins
    · simp at h
    · cases hch : jsonGetString json (bytes "char") tsMaxUtf8Char with
      | none => simp [hch] at h
      | some ch =>
        simp only [hch] at h
        split_ifs at h with hcount
        · simp at h
        · simp only [Prod.mk.injEq, and_true] at h
          obtain ⟨value, -, rfl⟩ := Option.map_eq_some_iff.mp hch
          subst h
          refine ⟨hinv, fun _ => ?_⟩
          simp only [snprintf_snprintf]
          exact not_not.mp hcount
    · simp only [Prod.mk.injEq, and_true] at h
      subst h
      exact ⟨hinv, fun hk => absurd hk hins⟩

/-- The checks of the decoder include those of the document. -/
theorem WireOperation.parsed_acceptable {w : WireOperation} {op : TsOperation}
    (h : w.parsed = some op) : Acceptable op := by
  unfold WireOperation.parsed at h
  split at h
  · next parsed heq =>
    rw [Option.some.injEq] at h
    subst h
    exact parseOperationObject_acceptable heq
  · cases h

/-! ## One step -/

theorem tsTransformAgainst_kind_insert {op : TsOperation} (h : op.kind = .insert)
    (previous : TsOperation) : (tsTransformAgainst op previous).kind = .insert := by
  unfold tsTransformAgainst
  split_ifs <;> simp_all

/-- An insertion is applied as an insertion. -/
theorem transformedOp_kind_insert {op : TsOperation} (h : op.kind = .insert) (doc : TsDocument)
    (b : ℤ) : (transformedOp doc b op).kind = .insert := by
  have hfold : ∀ entries : List TsHistoryEntry,
      (entries.foldl (fun t entry => tsTransformAgainst t entry.op) op).kind = .insert := by
    intro entries
    induction entries generalizing op with
    | nil => exact h
    | cons entry entries ih => exact ih (tsTransformAgainst_kind_insert h entry.op)
  rw [transformedOp, normalizeForApply, hfold]
  simp only
  split_ifs
  · rfl
  · exact hfold _

theorem ValidText.apply {text : Bytes} (h : ValidText text) {op : TsOperation}
    (hch : op.kind = .insert → WellFormedChar op.ch) :
    ∃ updated, tsApplyOperationToText text op = some updated ∧ ValidText updated := by
  obtain ⟨ps, hps, rfl⟩ := validText_iff_pieces.mp h
  refine ⟨_, tsApplyOperationToText_flatten hps op, validText_iff_pieces.mpr ⟨_, ?_, rfl⟩⟩
  intro p hp
  rcases Edit.mem_apply_of_mem hp with hp | hp
  · cases hk : op.kind <;> simp only [opEdit, hk] at hp
    · cases hp
    · rw [List.mem_singleton.mp hp]
      exact hch hk
    · split_ifs at hp <;> cases hp
    · cases hp
  · exact hps p hp

/-- Inserting one non-continuation byte into a valid text leaves it valid only if the inserted bytes
are one well-formed character. -/
theorem wellFormedChar_of_insert {text updated : Bytes} (h : ValidText text) {op : TsOperation}
    (hk : op.kind = .insert) (hcount : tsUtf8CharCount op.ch = 1)
    (happly : tsApplyOperationToText text op = some updated) (hvalid : ValidText updated) :
    WellFormedChar op.ch := by
  obtain ⟨cs, hcs, rfl⟩ := h
  have hps : ∀ p ∈ cs.map String.utf8EncodeChar, WellFormedChar p := by
    intro p hp
    obtain ⟨c, hc, rfl⟩ := List.mem_map.mp hp
    exact ⟨c, hcs c hc, rfl⟩
  have happ := tsApplyOperationToText_flatten hps op
  rw [← Utf8.encode_eq_flatten, happly, Option.some.injEq] at happ
  have hle : min op.pos cs.length ≤ (cs.map String.utf8EncodeChar).length := by simp
  simp only [opEdit, hk, List.length_map, Edit.apply] at happ
  rw [insertIdx_eq_take_append_drop hle, List.flatten_append, List.flatten_cons, ← List.map_take,
    ← List.map_drop, ← Utf8.encode_eq_flatten, ← Utf8.encode_eq_flatten, ← List.append_assoc] at happ
  obtain ⟨ds, hds, rfl⟩ := hvalid
  rw [tsUtf8CharCount_eq_countP] at hcount
  obtain ⟨c, hc, rfl⟩ := Utf8.exists_char_of_splice hcount happ
  exact ⟨c, hds c (by simp), hc⟩

/-- A step whose insertion carries a character keeps the text valid. -/
theorem validText_wireStep {doc doc' : TsDocument} {w : WireOperation} (h : ValidText doc.text)
    (hw : InsertsCharacter doc w) (hstep : wireStep doc w = some doc') : ValidText doc'.text := by
  unfold wireStep at hstep
  cases hparsed : w.parsed with
  | none =>
    rw [hparsed, Option.some.injEq] at hstep
    exact hstep ▸ h
  | some op =>
    rw [hparsed] at hstep
    obtain ⟨⟨d, r⟩, hcall, rfl⟩ := Option.map_eq_some_iff.mp hstep
    cases processOutcome hcall with
    | error => exact h
    | resync => exact h
    | ok op' updated hop hacc hstart hversion hmax happly =>
      obtain rfl : op = op' := Option.some.inj hop
      have hch : (transformedOp doc w.baseVersion op).kind = .insert →
          WellFormedChar (transformedOp doc w.baseVersion op).ch := by
        intro hk
        obtain ⟨hkind, hch⟩ := transformedOp_insert hk
        exact hch ▸ hw op hparsed hkind hstart hversion hmax
      obtain ⟨updated', happly', hvalid⟩ := h.apply hch
      rw [show updated = updated' from Option.some.inj (happly.symm.trans happly')]
      exact hvalid

/-- A step that leaves a valid text valid inserts a character if it inserts. -/
theorem insertsCharacter_of_validText {doc : TsDocument} {w : WireOperation}
    (h : ValidText doc.text)
    (hnext : ∀ doc', wireStep doc w = some doc' → ValidText doc'.text) :
    InsertsCharacter doc w := by
  intro op hparsed hk hstart hversion hmax
  have hacc := WireOperation.parsed_acceptable hparsed
  have hkind := transformedOp_kind_insert hk doc w.baseVersion
  obtain ⟨-, hch⟩ := transformedOp_insert hkind
  obtain ⟨ps, hps, htext⟩ := validText_iff_pieces.mp h
  have happly : ∃ updated, tsApplyOperationToText doc.text (transformedOp doc w.baseVersion op) =
      some updated := ⟨_, htext ▸ tsApplyOperationToText_flatten hps _⟩
  obtain ⟨updated, happly⟩ := happly
  have hproc := @processCall_ok doc ⟨w.clientId, w.opId, w.baseVersion, some op⟩ op updated rfl hacc
    hstart hversion hmax happly
  have hvalid := hnext _ (by
    rw [wireStep, hparsed]
    exact Option.map_eq_some_iff.mpr ⟨_, hproc, rfl⟩)
  have hcount := hacc.2 hk
  rw [← hch] at hcount ⊢
  exact wellFormedChar_of_insert h hkind hcount happly hvalid

/-! ## Whole runs -/

/-- The text is valid UTF-8 after every step of a run exactly when every insertion that the document
accepts in it carries one well-formed character. -/
theorem validText_run_iff (text : Bytes) (htext : ValidText text) (limit : ℕ)
    (ws : List WireOperation) :
    Guarded wireStep InsertsCharacter (tsDocumentInit text limit) ws ↔
      ∀ before after doc, ws = before ++ after →
        run wireStep (tsDocumentInit text limit) before = some doc → ValidText doc.text := by
  have hrun : ∀ {before : List WireOperation} {doc : TsDocument},
      Guarded wireStep InsertsCharacter (tsDocumentInit text limit) before →
      run wireStep (tsDocumentInit text limit) before = some doc → ValidText doc.text :=
    fun hguard => run_invariant_of_guarded (fun _ _ _ => validText_wireStep) htext hguard
  constructor
  · rintro hguard before after doc rfl
    exact hrun hguard.append_left
  · intro hvalid
    refine guarded_iff.mpr fun before w after doc hws hbefore => ?_
    have hdoc := hvalid before (w :: after) doc hws hbefore
    refine insertsCharacter_of_validText hdoc fun doc' hstep => ?_
    refine hvalid (before ++ [w]) after doc' ?_ (run_concat_some.mpr ⟨doc, hbefore, hstep⟩)
    rw [hws, List.append_assoc, List.singleton_append]

/-- An insertion of the given bytes at the start of the text. -/
def insertObject (ch : Bytes) : WireOperation where
  clientId := bytes "u1"
  opId := bytes "u1-1"
  baseVersion := 0
  object := bytes "\x7b\"kind\":\"insert\",\"pos\":0,\"char\":\"" ++ ch ++ bytes "\"\x7d"

theorem validText_run_wide :
    ∃ doc, run wireStep (tsDocumentInit [] 0) [insertObject (bytes "中")] = some doc ∧
      doc.text = bytes "中" ∧ ValidText doc.text := by
  have htext : (run wireStep (tsDocumentInit [] 0) [insertObject (bytes "中")]).map TsDocument.text =
      some (bytes "中") := by decide +kernel
  have hop : (insertObject (bytes "中")).parsed = some (tsOperationInit .insert 0 (bytes "中")) := by
    decide +kernel
  obtain ⟨doc, hrun, hdoc⟩ := Option.map_eq_some_iff.mp htext
  have hguard : Guarded wireStep InsertsCharacter (tsDocumentInit [] 0)
      [insertObject (bytes "中")] := by
    refine ⟨?_, fun _ _ => trivial⟩
    intro op hparsed _ _ _ _
    rw [hop, Option.some.injEq] at hparsed
    exact ⟨'中', by decide, by rw [← hparsed]; decide⟩
  exact ⟨doc, hrun, hdoc, (validText_run_iff [] ⟨[], by simp, rfl⟩ 0 _).mp hguard
    [insertObject (bytes "中")] [] doc (List.append_nil _).symm hrun⟩

/-- The lead byte of a longer character is accepted on its own. -/
theorem not_validText_leadByte :
    ValidText [] ∧ ∃ doc, run wireStep (tsDocumentInit [] 0) [insertObject [0xE4]] = some doc ∧
      ¬ ValidText doc.text := by
  have htext : (run wireStep (tsDocumentInit [] 0) [insertObject [0xE4]]).map TsDocument.text =
      some [0xE4] := by decide +kernel
  obtain ⟨doc, hrun, hdoc⟩ := Option.map_eq_some_iff.mp htext
  refine ⟨⟨[], by simp, rfl⟩, doc, hrun, ?_⟩
  rw [hdoc]
  rintro ⟨cs, -, hcs⟩
  have hlen := Utf8.countP_encode cs
  rw [← hcs] at hlen
  obtain ⟨c, rfl⟩ := List.length_eq_one_iff.mp (show cs.length = 1 from hlen.symm)
  -- the encoding of `c` would be one byte that announces three
  obtain ⟨b, t, hbt, -, hlead, -⟩ := Utf8.utf8EncodeChar_shape c
  rw [Utf8.encode, List.flatMap_singleton, hbt, List.cons.injEq] at hcs
  obtain ⟨rfl, rfl⟩ := hcs
  exact absurd hlead (by decide)

end TermSync
