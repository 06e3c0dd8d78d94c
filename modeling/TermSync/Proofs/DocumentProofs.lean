import TermSync.DocumentRun
import TermSync.Proofs.UtilProofs

/-!
# Proofs: one call of `ts_document_process_operation`

`processOutcome` says once what a call can do. The history window (`HistoryWindow`) is what the
history holds in every reached document, and `entriesSince_accepted` is what makes the window useful:
as long as it covers a base version, an accepted operation only appends one entry to the entries
that are newer than that version.
-/

namespace TermSync

open Foundations

/-! ## What a call can do -/

/-- The three outcomes of a call. -/
inductive ProcessOutcome (doc : TsDocument) (call : DocCall) : TsDocument → TsProcessResult → Prop
  | error (text : Bytes) (hop : ∀ op, call.op = some op → ¬ Acceptable op) :
      ProcessOutcome doc call doc (errorResult call.opId text)
  | resync (op : TsOperation) (hcall : call.op = some op) (hop : Acceptable op)
      (hbase : call.baseVersion < doc.historyStartVersion ∨ doc.version < call.baseVersion) :
      ProcessOutcome doc call doc (resyncResult doc call.opId call.baseVersion)
  | ok (op : TsOperation) (updated : Bytes) (hcall : call.op = some op) (hop : Acceptable op)
      (hstart : doc.historyStartVersion ≤ call.baseVersion)
      (hversion : call.baseVersion ≤ doc.version) (hmax : doc.version < intMax)
      (happly : tsApplyOperationToText doc.text (transformedOp doc call.baseVersion op) =
        some updated) :
      ProcessOutcome doc call
        (acceptedDocument doc
          (acceptedEntry doc call.clientId call.opId call.baseVersion op) updated)
        (okResult
          (acceptedDocument doc
            (acceptedEntry doc call.clientId call.opId call.baseVersion op) updated)
          call.clientId call.opId call.baseVersion op (transformedOp doc call.baseVersion op))

theorem processOutcome {doc doc' : TsDocument} {call : DocCall} {r : TsProcessResult}
    (h : processCall doc call = some (doc', r)) : ProcessOutcome doc call doc' r := by
  unfold processCall tsDocumentProcessOperation at h
  cases hcall : call.op with
  | none =>
    rw [hcall] at h
    simp only [Option.some.injEq, Prod.mk.injEq] at h
    obtain ⟨rfl, rfl⟩ := h
    exact .error _ (by simp [hcall])
  | some op =>
    rw [hcall] at h
    simp only at h
    split_ifs at h with hinv hins hbase hmax
    · simp only [Option.some.injEq, Prod.mk.injEq] at h
      obtain ⟨rfl, rfl⟩ := h
      refine .error _ fun op' hop' hacc => ?_
      rw [hcall, Option.some.injEq] at hop'
      exact hacc.1 (hop' ▸ hinv)
    · simp only [Option.some.injEq, Prod.mk.injEq] at h
      obtain ⟨rfl, rfl⟩ := h
      refine .error _ fun op' hop' hacc => ?_
      rw [hcall, Option.some.injEq] at hop'
      subst hop'
      exact hins.2 (hacc.2 hins.1)
    · simp only [Option.some.injEq, Prod.mk.injEq] at h
      obtain ⟨rfl, rfl⟩ := h
      exact .resync op hcall ⟨hinv, fun hk => by_contra fun hc => hins ⟨hk, hc⟩⟩ hbase
    · obtain ⟨updated, happly, hout⟩ := Option.bind_eq_some_iff.mp h
      simp only [Option.some.injEq, Prod.mk.injEq] at hout
      obtain ⟨rfl, rfl⟩ := hout
      exact .ok op updated hcall ⟨hinv, fun hk => by_contra fun hc => hins ⟨hk, hc⟩⟩ (by omega)
        (by omega) hmax happly

/-- A call with a covered base version is accepted if the operation can be applied at all. -/
theorem processCall_ok {doc : TsDocument} {call : DocCall} {op : TsOperation} {updated : Bytes}
    (hcall : call.op = some op) (hop : Acceptable op)
    (hstart : doc.historyStartVersion ≤ call.baseVersion) (hversion : call.baseVersion ≤ doc.version)
    (hmax : doc.version < intMax)
    (happly : tsApplyOperationToText doc.text (transformedOp doc call.baseVersion op) =
      some updated) :
    processCall doc call =
      some (acceptedDocument doc
          (acceptedEntry doc call.clientId call.opId call.baseVersion op) updated,
        okResult (acceptedDocument doc
            (acceptedEntry doc call.clientId call.opId call.baseVersion op) updated)
          call.clientId call.opId call.baseVersion op (transformedOp doc call.baseVersion op)) := by
  have hins : ¬ (op.kind = .insert ∧ tsUtf8CharCount op.ch ≠ 1) := fun h => h.2 (hop.2 h.1)
  have hbase : ¬ (call.baseVersion < doc.historyStartVersion ∨ call.baseVersion > doc.version) := by
    omega
  simp only [processCall, tsDocumentProcessOperation, hcall, if_neg hop.1, if_neg hins,
    if_neg hbase, if_pos hmax, acceptedEntry, happly, Option.bind_eq_bind, Option.bind_some]

theorem WellFormedOp.acceptable {op : TsOperation} (h : WellFormedOp op) : Acceptable op :=
  ⟨h.1, fun hk => (h.2 hk).charCount⟩

@[simp] theorem acceptedDocument_text (doc : TsDocument) (entry : TsHistoryEntry) (updated : Bytes) :
    (acceptedDocument doc entry updated).text = updated := rfl

@[simp] theorem acceptedDocument_version (doc : TsDocument) (entry : TsHistoryEntry)
    (updated : Bytes) : (acceptedDocument doc entry updated).version = doc.version + 1 := rfl

@[simp] theorem acceptedDocument_historyLimit (doc : TsDocument) (entry : TsHistoryEntry)
    (updated : Bytes) : (acceptedDocument doc entry updated).historyLimit = doc.historyLimit := rfl

/-! ## The operation that is applied -/

theorem tsTransformAgainst_insert {op previous : TsOperation}
    (h : (tsTransformAgainst op previous).kind = .insert) :
    op.kind = .insert ∧ (tsTransformAgainst op previous).ch = op.ch := by
  unfold tsTransformAgainst at h ⊢
  split_ifs at h ⊢ <;> first | exact ⟨h, rfl⟩ | cases h

theorem foldl_tsTransformAgainst_insert {entries : List TsHistoryEntry} {op : TsOperation}
    (h : (entries.foldl (fun t entry => tsTransformAgainst t entry.op) op).kind = .insert) :
    op.kind = .insert ∧
      (entries.foldl (fun t entry => tsTransformAgainst t entry.op) op).ch = op.ch := by
  induction entries generalizing op with
  | nil => exact ⟨h, rfl⟩
  | cons entry entries ih =>
    obtain ⟨hkind, hch⟩ := ih h
    obtain ⟨hkind', hch'⟩ := tsTransformAgainst_insert hkind
    exact ⟨hkind', hch.trans hch'⟩

theorem normalizeForApply_insert {doc : TsDocument} {op : TsOperation}
    (h : (normalizeForApply doc op).kind = .insert) :
    op.kind = .insert ∧ (normalizeForApply doc op).ch = op.ch := by
  cases hk : op.kind with
  | insert =>
    refine ⟨rfl, ?_⟩
    simp only [normalizeForApply, hk]
    split_ifs <;> rfl
  | delete =>
    simp only [normalizeForApply, hk] at h
    split_ifs at h
    · exact absurd (hk.symm.trans h) (by decide)
    · cases h
  | noop =>
    simp only [normalizeForApply, hk] at h
    cases h
  | invalid =>
    simp only [normalizeForApply, hk] at h
    cases h

/-- An insertion stays the insertion of the same character. -/
theorem transformedOp_insert {doc : TsDocument} {b : ℤ} {op : TsOperation}
    (h : (transformedOp doc b op).kind = .insert) :
    op.kind = .insert ∧ (transformedOp doc b op).ch = op.ch := by
  obtain ⟨hkind, hch⟩ := normalizeForApply_insert h
  obtain ⟨hkind', hch'⟩ := foldl_tsTransformAgainst_insert hkind
  exact ⟨hkind', hch.trans hch'⟩

theorem normalized_of_noop {op : TsOperation} (h : op.kind = .noop) (len : ℕ) :
    Normalized op len where
  kind := by simp [h]
  insert := by simp [h]
  delete := by simp [h]

theorem normalized_normalizeForApply (doc : TsDocument) (op : TsOperation) :
    Normalized (normalizeForApply doc op) (tsUtf8CharCount doc.text) := by
  unfold normalizeForApply
  cases hk : op.kind with
  | noop => exact normalized_of_noop hk _
  | insert =>
    simp only
    split_ifs with hpos
    · exact ⟨by simp, fun _ => le_rfl, by simp⟩
    · exact ⟨by simp [hk], fun _ => by omega, by simp [hk]⟩
  | delete =>
    simp only
    split_ifs with hpos
    · exact ⟨by simp [hk], by simp [hk], fun _ => hpos⟩
    · exact normalized_of_noop rfl _
  | invalid => exact normalized_of_noop rfl _

/-! ## The history window -/

/-- The history holds the last operations, as many as the limit allows, in order. -/
structure HistoryWindow (doc : TsDocument) : Prop where
  limit_pos : 1 ≤ doc.historyLimit
  version_nonneg : 0 ≤ doc.version
  length : (doc.history.length : ℤ) = min doc.version doc.historyLimit
  versions : ∀ i (hi : i < doc.history.length),
    (doc.history[i]).serverVersion = doc.version - doc.history.length + 1 + i
  start : doc.historyStartVersion = doc.version - doc.history.length

theorem historyWindow_init (text : Bytes) (limit : ℕ) :
    HistoryWindow (tsDocumentInit text limit) where
  limit_pos := by
    simp only [tsDocumentInit]
    split_ifs <;> omega
  version_nonneg := le_rfl
  length := by
    simp only [tsDocumentInit, List.length_nil]
    split_ifs <;> omega
  versions := by simp [tsDocumentInit]
  start := rfl

/-- The entries that are kept when one more is appended. -/
def keptHistory (doc : TsDocument) : List TsHistoryEntry :=
  if doc.history.length = doc.historyLimit then doc.history.drop 1 else doc.history

theorem acceptedDocument_history (doc : TsDocument) (entry : TsHistoryEntry) (updated : Bytes) :
    (acceptedDocument doc entry updated).history = keptHistory doc ++ [entry] := rfl

/-- The new start is read from the oldest entry. -/
theorem acceptedDocument_start {doc : TsDocument} {entry oldest : TsHistoryEntry}
    {rest : List TsHistoryEntry} (updated : Bytes)
    (h : (acceptedDocument doc entry updated).history = oldest :: rest) :
    (acceptedDocument doc entry updated).historyStartVersion =
      if oldest.serverVersion - 1 < 0 then 0 else oldest.serverVersion - 1 := by
  have h' : (if doc.history.length = doc.historyLimit then doc.history.drop 1
      else doc.history) ++ [entry] = oldest :: rest := h
  simp only [acceptedDocument, appendHistory, h']

theorem HistoryWindow.length_keptHistory {doc : TsDocument} (h : HistoryWindow doc) :
    ((keptHistory doc).length : ℤ) = min doc.version (doc.historyLimit - 1) := by
  have hlen := h.length
  have hpos := h.limit_pos
  have hver := h.version_nonneg
  unfold keptHistory
  split_ifs with hfull
  · rw [List.length_drop]
    omega
  · omega

/-- The kept entries are the last ones, whether or not the oldest was dropped. -/
theorem HistoryWindow.keptHistory_versions {doc : TsDocument} (h : HistoryWindow doc) (i : ℕ)
    (hi : i < (keptHistory doc).length) :
    ((keptHistory doc)[i]).serverVersion = doc.version - (keptHistory doc).length + 1 + i := by
  by_cases hfull : doc.history.length = doc.historyLimit
  · have hpos := h.limit_pos
    have hkept : keptHistory doc = doc.history.drop 1 := if_pos hfull
    have hi' : 1 + i < doc.history.length := by
      rw [hkept, List.length_drop] at hi
      omega
    simp only [hkept, List.getElem_drop, List.length_drop, h.versions (1 + i) hi']
    omega
  · have hkept : keptHistory doc = doc.history := if_neg hfull
    simp only [hkept]
    exact h.versions i (by rwa [hkept] at hi)

/-- The window after an accepted operation. -/
theorem HistoryWindow.accepted {doc : TsDocument} (h : HistoryWindow doc) {entry : TsHistoryEntry}
    (hentry : entry.serverVersion = doc.version + 1) (updated : Bytes) :
    HistoryWindow (acceptedDocument doc entry updated) := by
  have hver := h.version_nonneg
  have hpos := h.limit_pos
  have hkept := h.length_keptHistory
  have hhist := acceptedDocument_history doc entry updated
  have hlen : ((acceptedDocument doc entry updated).history.length : ℤ) =
      (keptHistory doc).length + 1 := by
    rw [hhist]
    simp
  have hversions : ∀ i (hi : i < (acceptedDocument doc entry updated).history.length),
      ((acceptedDocument doc entry updated).history[i]).serverVersion =
        doc.version + 1 - (acceptedDocument doc entry updated).history.length + 1 + i := by
    intro i hi
    simp only [hhist, List.length_append, List.length_singleton] at hi ⊢
    rw [List.getElem_append]
    split_ifs with hlt
    · rw [h.keptHistory_versions i hlt]
      omega
    · rw [List.getElem_singleton, hentry]
      omega
  refine
    { limit_pos := hpos
      version_nonneg := by rw [acceptedDocument_version]; omega
      length := ?_
      versions := hversions
      start := ?_ }
  · rw [hlen, acceptedDocument_version, acceptedDocument_historyLimit, hkept]
    omega
  · have hne : 0 < (acceptedDocument doc entry updated).history.length := by omega
    have holdest := hversions 0 hne
    obtain ⟨oldest, rest, hcons⟩ := List.exists_cons_of_length_pos hne
    rw [acceptedDocument_start updated hcons, acceptedDocument_version]
    simp only [hcons, List.getElem_cons_zero] at holdest
    rw [hcons] at hlen ⊢
    rw [holdest]
    split_ifs <;> omega

/-- Every outcome of a call keeps the window. -/
theorem HistoryWindow.step {doc doc' : TsDocument} {call : DocCall} (h : HistoryWindow doc)
    (hstep : docStep doc call = some doc') : HistoryWindow doc' := by
  obtain ⟨⟨d, r⟩, hcall, rfl⟩ := Option.map_eq_some_iff.mp hstep
  cases processOutcome hcall with
  | error => exact h
  | resync => exact h
  | ok op updated => exact h.accepted rfl updated

/-- The window moves forward only. -/
theorem HistoryWindow.start_le_accepted {doc : TsDocument} (h : HistoryWindow doc)
    {entry : TsHistoryEntry} (hentry : entry.serverVersion = doc.version + 1) (updated : Bytes) :
    doc.historyStartVersion ≤ (acceptedDocument doc entry updated).historyStartVersion := by
  have h' := h.accepted hentry updated
  have hlen := h.length
  have hlen' := h'.length
  rw [h.start, h'.start, hlen, hlen', acceptedDocument_version, acceptedDocument_historyLimit]
  omega

/-- While the window covers a base version, an accepted operation appends one entry to the entries
newer than it. -/
theorem HistoryWindow.entriesSince_accepted {doc : TsDocument} (h : HistoryWindow doc)
    {entry : TsHistoryEntry} (hentry : entry.serverVersion = doc.version + 1) (updated : Bytes)
    {b : ℤ} (hb : (acceptedDocument doc entry updated).historyStartVersion ≤ b)
    (hb' : b ≤ doc.version) :
    entriesSince (acceptedDocument doc entry updated) b = entriesSince doc b ++ [entry] := by
  have hnew : decide (entry.serverVersion > b) = true := by
    rw [hentry]
    exact decide_eq_true (by omega)
  simp only [entriesSince, acceptedDocument_history, List.filter_append, List.filter_singleton, hnew,
    cond_true, List.append_cancel_right_eq]
  by_cases hfull : doc.history.length = doc.historyLimit
  · -- the dropped entry is not newer than `b`
    have hkept : keptHistory doc = doc.history.drop 1 := if_pos hfull
    have hpos := h.limit_pos
    have hlt : 0 < doc.history.length := by omega
    have hold := h.versions 0 hlt
    have h' := h.accepted hentry updated
    have hstart' := h'.start
    have hlen' := h'.length
    have hlen := h.length
    rw [acceptedDocument_version, acceptedDocument_historyLimit] at hlen'
    rw [acceptedDocument_version] at hstart'
    rw [hkept]
    cases hcons : doc.history with
    | nil => simp [hcons] at hlt
    | cons oldest rest =>
      simp only [hcons, List.getElem_cons_zero] at hold
      rw [hcons] at hlen hfull
      have hdrop : decide (oldest.serverVersion > b) = false := by
        rw [hold]
        exact decide_eq_false (by omega)
      rw [List.drop_one, List.tail_cons, List.filter_cons_of_neg (by simpa using hdrop)]
  · rw [show keptHistory doc = doc.history from if_neg hfull]

/-- No entry is newer than the current version. -/
theorem HistoryWindow.entriesSince_version {doc : TsDocument} (h : HistoryWindow doc) :
    entriesSince doc doc.version = [] := by
  rw [entriesSince, List.filter_eq_nil_iff]
  intro entry hentry
  obtain ⟨i, hi, rfl⟩ := List.getElem_of_mem hentry
  rw [h.versions i hi]
  simp only [gt_iff_lt, decide_eq_true_eq, not_lt]
  omega

end TermSync
