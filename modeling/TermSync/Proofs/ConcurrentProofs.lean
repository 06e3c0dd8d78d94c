import TermSync.Proofs.OutcomeProofs

/-!
# Proofs: the order of two concurrent edits

Transforming an operation against a concurrent one makes the edit that `Edit.after` describes
(`opEdit_tsTransformAgainst`). Processing two concurrent operations in both orders therefore applies
the two sides of the square `Edit.after_apply_comm`, which commutes.
-/

namespace TermSync

open Foundations

/-- An operation in range makes the edit that it names. -/
theorem Normalized.opEdit_insert {α : Type*} {op : TsOperation} {len : ℕ} (h : Normalized op len)
    (hk : op.kind = .insert) (a : α) : opEdit op len a = .insert op.pos a := by
  simp only [opEdit, hk, min_eq_left (h.insert hk)]

theorem Normalized.opEdit_delete {α : Type*} {op : TsOperation} {len : ℕ} (h : Normalized op len)
    (hk : op.kind = .delete) (a : α) : opEdit op len a = .erase op.pos := by
  simp only [opEdit, hk, if_pos (h.delete hk)]

theorem opEdit_noop {α : Type*} {op : TsOperation} (hk : op.kind = .noop) (len : ℕ) (a : α) :
    opEdit op len a = .keep := by
  simp only [opEdit, hk]

/-- `ts_transform_against` makes the edit of an operation that comes after a concurrent one. -/
theorem opEdit_tsTransformAgainst {α : Type*} {a b : TsOperation} {l : List α}
    (ha : Normalized a l.length) (hb : Normalized b l.length) (hsize : l.length + 1 < sizeModulus)
    (x y : α) :
    opEdit (tsTransformAgainst b a) ((opEdit a l.length x).apply l).length y =
      (opEdit a l.length x).after (opEdit b l.length y) := by
  obtain ⟨hlenInsert, hlenDelete, hlenNoop⟩ := ha.length_apply x
  cases hka : a.kind with
  | invalid => exact absurd hka ha.kind
  | noop =>
    rw [hlenNoop hka, opEdit_noop hka, Edit.keep_after]
    simp only [tsTransformAgainst, hka, or_true, if_true]
  | insert =>
    rw [hlenInsert hka, ha.opEdit_insert hka]
    cases hkb : b.kind with
    | invalid => exact absurd hkb hb.kind
    | noop =>
      rw [opEdit_noop hkb]
      simp only [tsTransformAgainst, hkb, true_or, if_true, opEdit, Edit.after]
    | insert =>
      have hpos := hb.insert hkb
      have hsucc : sizeSucc b.pos = b.pos + 1 := Nat.mod_eq_of_lt (by omega)
      rw [hb.opEdit_insert hkb]
      simp only [tsTransformAgainst, hka, hkb, reduceCtorEq, or_self, if_false, if_true, true_or,
        true_and, Edit.after, Edit.carryGap, hsucc]
      split_ifs
      · simp only [opEdit]
        rw [min_eq_left (by omega)]
      · simp only [opEdit, hkb]
        rw [min_eq_left (by omega)]
    | delete =>
      have hpos := hb.delete hkb
      have hsucc : sizeSucc b.pos = b.pos + 1 := Nat.mod_eq_of_lt (by omega)
      rw [hb.opEdit_delete hkb]
      simp only [tsTransformAgainst, hka, hkb, reduceCtorEq, or_self, if_false, if_true, or_true,
        true_and, Edit.after, Edit.carryElem, hsucc]
      split_ifs
      · simp only [opEdit]
        rw [if_pos (by omega)]
      · simp only [opEdit, hkb]
        rw [if_pos (by omega)]
  | delete =>
    have hlen := hlenDelete hka
    rw [ha.opEdit_delete hka] at hlen ⊢
    cases hkb : b.kind with
    | invalid => exact absurd hkb hb.kind
    | noop =>
      rw [opEdit_noop hkb]
      simp only [tsTransformAgainst, hkb, true_or, if_true, opEdit, Edit.after]
    | insert =>
      have hpos := hb.insert hkb
      have hposa := ha.delete hka
      rw [hb.opEdit_insert hkb]
      simp only [tsTransformAgainst, hka, hkb, reduceCtorEq, or_self, if_false, if_true,
        true_and, Edit.after, Edit.carryGap]
      split_ifs
      · simp only [opEdit]
        rw [min_eq_left (by omega)]
      · simp only [opEdit, hkb]
        rw [min_eq_left (by omega)]
    | delete =>
      have hpos := hb.delete hkb
      have hposa := ha.delete hka
      rw [hb.opEdit_delete hkb]
      simp only [tsTransformAgainst, hka, hkb, reduceCtorEq, or_self, if_false, if_true,
        false_and, Edit.after, Edit.carryElem]
      by_cases heq : a.pos = b.pos
      · rw [if_neg (by omega), if_pos heq, if_pos heq]
        rfl
      · rw [if_neg heq]
        split_ifs
        · simp only [opEdit]
          rw [if_pos (by omega)]
        · simp only [opEdit, hkb]
          rw [if_pos (by omega)]

/-! ## Processing two operations -/

/-- An operation in range is applied as it is. -/
theorem Normalized.normalizeForApply_eq {doc : TsDocument} {op : TsOperation}
    (h : Normalized op (tsUtf8CharCount doc.text)) : normalizeForApply doc op = op := by
  cases hk : op.kind with
  | noop => simp only [normalizeForApply, hk]
  | invalid => exact absurd hk h.kind
  | insert =>
    have hpos := h.insert hk
    simp only [normalizeForApply, hk]
    rw [if_neg (by omega)]
  | delete => simp only [normalizeForApply, hk, if_pos (h.delete hk)]

/-- Normalizing an operation does not change what it does. -/
theorem opEdit_normalizeForApply {α : Type*} {doc : TsDocument} {op : TsOperation} {len : ℕ}
    (hlen : tsUtf8CharCount doc.text = len) (a : α) :
    opEdit (normalizeForApply doc op) len a = opEdit op len a := by
  cases hk : op.kind with
  | noop => simp only [normalizeForApply, hk]
  | invalid => simp only [normalizeForApply, hk, opEdit, tsOperationNoop, tsOperationInit]
  | insert =>
    simp only [normalizeForApply, hk, hlen]
    split_ifs with hlt
    · simp only [opEdit, hk]
      rw [min_self, min_eq_right (by omega)]
    · rfl
  | delete =>
    simp only [normalizeForApply, hk, hlen]
    split_ifs with hlt
    · rfl
    · simp only [opEdit, hk, if_neg hlt, tsOperationNoop, tsOperationInit]

/-- The character of an operation, as a character. -/
theorem WellFormedOp.exists_char {op : TsOperation} (h : WellFormedOp op) :
    ∃ c : Char, op.kind = .insert → c ≠ '\x00' ∧ op.ch = String.utf8EncodeChar c := by
  by_cases hk : op.kind = .insert
  · obtain ⟨c, hc, hch⟩ := h.2 hk
    exact ⟨c, fun _ => ⟨hc, hch⟩⟩
  · exact ⟨'a', fun hi => absurd hi hk⟩

theorem run_two {doc first second : TsDocument} {callA callB : DocCall}
    {ra rb : TsProcessResult} (ha : processCall doc callA = some (first, ra))
    (hb : processCall first callB = some (second, rb)) :
    run docStep doc [callA, callB] = some second := by
  have hfirst : docStep doc callA = some first := by rw [docStep, ha]; rfl
  have hsecond : docStep first callB = some second := by rw [docStep, hb]; rfl
  exact run_cons_some.mpr ⟨first, hfirst, run_cons_some.mpr ⟨second, hsecond, rfl⟩⟩

/-- Of two concurrent operations, the first makes its own edit and the second the edit that comes
after it. -/
theorem exists_run_two {doc : TsDocument} {cs : List Char} (hwin : HistoryWindow doc)
    (hden : Denotes doc.text cs) (hsize : doc.text.length + 1 < sizeModulus)
    (hmax : doc.version + 1 < intMax) {callA callB : DocCall} {a b : TsOperation} {x y : Char}
    (hopA : callA.op = some a) (hopB : callB.op = some b)
    (hbaseA : callA.baseVersion = doc.version) (hbaseB : callB.baseVersion = doc.version)
    (hwfA : WellFormedOp a) (hwfB : WellFormedOp b)
    (hinA : Normalized a cs.length) (hinB : Normalized b cs.length)
    (hx : a.kind = .insert → x ≠ '\x00' ∧ a.ch = String.utf8EncodeChar x)
    (hy : b.kind = .insert → y ≠ '\x00' ∧ b.ch = String.utf8EncodeChar y) :
    ∃ d, run docStep doc [callA, callB] = some d ∧
      Denotes d.text (((opEdit a cs.length x).after (opEdit b cs.length y)).apply
        ((opEdit a cs.length x).apply cs)) := by
  have hcount := hden.charCount
  have hlen : cs.length ≤ doc.text.length := by
    rw [← hcount, tsUtf8CharCount_eq_countP]
    exact List.countP_le_length
  have hstart := hwin.start
  have hopA' : transformedOp doc callA.baseVersion a = a := by
    rw [hbaseA, transformedOp, hwin.entriesSince_version]
    exact Normalized.normalizeForApply_eq (hcount ▸ hinA)
  obtain ⟨textA, happlyA, hdenA⟩ := hden.apply hx
  have hprocA := processCall_ok hopA hwfA.acceptable (by omega) (by omega) (by omega)
    (hopA'.symm ▸ happlyA)
  -- the entry of the first operation is the whole history since the common version
  have hwinA : HistoryWindow (acceptedDocument doc (acceptedEntry doc callA.clientId callA.opId
      callA.baseVersion a) textA) := hwin.accepted rfl textA
  have hlenA := hwinA.length
  have hposA := hwinA.limit_pos
  have hnonneg := hwin.version_nonneg
  have hstartA : (acceptedDocument doc (acceptedEntry doc callA.clientId callA.opId
      callA.baseVersion a) textA).historyStartVersion ≤ doc.version := by
    rw [hwinA.start, hlenA, acceptedDocument_version]
    omega
  have hopB' : transformedOp (acceptedDocument doc (acceptedEntry doc callA.clientId callA.opId
      callA.baseVersion a) textA) callB.baseVersion b =
        normalizeForApply (acceptedDocument doc (acceptedEntry doc callA.clientId callA.opId
          callA.baseVersion a) textA) (tsTransformAgainst b a) := by
    rw [transformedOp, hbaseB, hwin.entriesSince_accepted rfl textA hstartA le_rfl,
      hwin.entriesSince_version, List.nil_append, List.foldl_cons, List.foldl_nil]
    rw [show (acceptedEntry doc callA.clientId callA.opId callA.baseVersion a).op = a from hopA']
  have hcountA := hdenA.charCount
  have hyB : (transformedOp (acceptedDocument doc (acceptedEntry doc callA.clientId callA.opId
      callA.baseVersion a) textA) callB.baseVersion b).kind = .insert → y ≠ '\x00' ∧
        (transformedOp (acceptedDocument doc (acceptedEntry doc callA.clientId callA.opId
          callA.baseVersion a) textA) callB.baseVersion b).ch = String.utf8EncodeChar y := by
    intro hk
    obtain ⟨hkb, hch⟩ := transformedOp_insert hk
    exact ⟨(hy hkb).1, hch.trans (hy hkb).2⟩
  obtain ⟨textB, happlyB, hdenB⟩ := hdenA.apply hyB
  have hprocB := @processCall_ok (acceptedDocument doc (acceptedEntry doc callA.clientId
    callA.opId callA.baseVersion a) textA) callB b textB hopB hwfB.acceptable (by omega)
    (by rw [acceptedDocument_version]; omega) (by rw [acceptedDocument_version]; exact hmax)
    happlyB
  refine ⟨_, run_two hprocA hprocB, ?_⟩
  rw [acceptedDocument_text]
  rw [hopB', opEdit_normalizeForApply hcountA,
    opEdit_tsTransformAgainst hinA hinB (by omega)] at hdenB
  exact hdenB

/-- Two concurrent operations in range leave the same text in either order of processing, unless
both insert at one position. Then the character that is processed later ends directly to the right of
the one that is processed first. -/
theorem order_independent (text : Bytes) (limit : ℕ) (calls : List DocCall) (doc : TsDocument)
    (hrun : run docStep (tsDocumentInit text limit) calls = some doc) (cs : List Char)
    (hden : Denotes doc.text cs) (hsize : doc.text.length + 1 < sizeModulus)
    (hmax : doc.version + 1 < intMax) (callA callB : DocCall) (a b : TsOperation)
    (hopA : callA.op = some a) (hopB : callB.op = some b)
    (hbaseA : callA.baseVersion = doc.version) (hbaseB : callB.baseVersion = doc.version)
    (hwfA : WellFormedOp a) (hwfB : WellFormedOp b)
    (hinA : Normalized a cs.length) (hinB : Normalized b cs.length) :
    ∃ ab ba, run docStep doc [callA, callB] = some ab ∧
      run docStep doc [callB, callA] = some ba ∧
      (¬ (a.kind = .insert ∧ b.kind = .insert ∧ a.pos = b.pos) → ab.text = ba.text) ∧
      (a.kind = .insert → b.kind = .insert → a.pos = b.pos →
        ∀ x y, a.ch = String.utf8EncodeChar x → b.ch = String.utf8EncodeChar y →
          Denotes ab.text (cs.take a.pos ++ x :: y :: cs.drop a.pos)) := by
  have hwin : HistoryWindow doc := historyWindow_run (historyWindow_init text limit) hrun
  obtain ⟨x, hx⟩ := hwfA.exists_char
  obtain ⟨y, hy⟩ := hwfB.exists_char
  obtain ⟨ab, hab, hdenAB⟩ := exists_run_two hwin hden hsize hmax hopA hopB hbaseA hbaseB hwfA hwfB
    hinA hinB hx hy
  obtain ⟨ba, hba, hdenBA⟩ := exists_run_two hwin hden hsize hmax hopB hopA hbaseB hbaseA hwfB hwfA
    hinB hinA hy hx
  refine ⟨ab, ba, hab, hba, fun hne => ?_, fun hka hkb hpos x' y' hx' hy' => ?_⟩
  · rw [hdenAB.2, hdenBA.2, Edit.after_apply_comm (fits_opEdit a cs x) (fits_opEdit b cs y)]
    rintro i c d ⟨hda, hdb⟩
    refine hne ?_
    have hka : a.kind = .insert := by_contra fun hk => by
      have hins := inserted_opEdit a cs.length x
      rw [hda, if_neg hk] at hins
      cases hins
    have hkb : b.kind = .insert := by_contra fun hk => by
      have hins := inserted_opEdit b cs.length y
      rw [hdb, if_neg hk] at hins
      cases hins
    rw [hinA.opEdit_insert hka, Edit.insert.injEq] at hda
    rw [hinB.opEdit_insert hkb, Edit.insert.injEq] at hdb
    exact ⟨hka, hkb, hda.1.trans hdb.1.symm⟩
  · obtain rfl : x' = x := Utf8.utf8EncodeChar_injective (hx'.symm.trans (hx hka).2)
    obtain rfl : y' = y := Utf8.utf8EncodeChar_injective (hy'.symm.trans (hy hkb).2)
    rw [hinA.opEdit_insert hka, hinB.opEdit_insert hkb, ← hpos,
      Edit.after_apply_insert (hinA.insert hka)] at hdenAB
    exact hdenAB

/-- A deletion and an insertion behind it. -/
theorem order_independent_neighbours :
    ∃ ab ba, run docStep (tsDocumentInit (bytes "a界b") 1)
        [⟨bytes "u1", bytes "u1-1", 0, some (tsOperationInit .delete 1 [])⟩,
          ⟨bytes "u2", bytes "u2-1", 0, some (tsOperationInit .insert 2 (bytes "é"))⟩] = some ab ∧
      run docStep (tsDocumentInit (bytes "a界b") 1)
        [⟨bytes "u2", bytes "u2-1", 0, some (tsOperationInit .insert 2 (bytes "é"))⟩,
          ⟨bytes "u1", bytes "u1-1", 0, some (tsOperationInit .delete 1 [])⟩] = some ba ∧
      ab.text = ba.text := by
  obtain ⟨ab, ba, hab, hba, heq, -⟩ :=
    order_independent (bytes "a界b") 1 [] (tsDocumentInit (bytes "a界b") 1) rfl ['a', '界', 'b']
      ⟨by decide, by decide⟩ (by decide) (by decide)
      ⟨bytes "u1", bytes "u1-1", 0, some (tsOperationInit .delete 1 [])⟩
      ⟨bytes "u2", bytes "u2-1", 0, some (tsOperationInit .insert 2 (bytes "é"))⟩
      (tsOperationInit .delete 1 []) (tsOperationInit .insert 2 (bytes "é")) rfl rfl rfl rfl
      ⟨by decide, fun h => absurd h (by decide)⟩
      ⟨by decide, fun _ => ⟨'é', by decide, by decide⟩⟩
      ⟨by decide, by decide, by decide⟩ ⟨by decide, by decide, by decide⟩
  exact ⟨ab, ba, hab, hba, heq (by decide)⟩

end TermSync
