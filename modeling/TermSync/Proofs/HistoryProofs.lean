import TermSync.Proofs.DocumentProofs

/-!
# Proofs: the history window over whole runs

In every document reached from a new one, the history is the window of the last operations, the
entries newer than a covered version replay the text of that version to the current one, and a
well-formed operation is answered with a resynchronisation exactly when the retained entries cannot
replay its base version.
-/

namespace TermSync

open Foundations

/-! ## One step -/

theorem version_docStep {doc doc' : TsDocument} {call : DocCall}
    (h : docStep doc call = some doc') :
    doc'.version = doc.version ∨ doc'.version = doc.version + 1 := by
  obtain ⟨⟨d, r⟩, hcall, rfl⟩ := Option.map_eq_some_iff.mp h
  cases processOutcome hcall with
  | error => exact Or.inl rfl
  | resync => exact Or.inl rfl
  | ok op updated => exact Or.inr rfl

theorem historyLimit_docStep {doc doc' : TsDocument} {call : DocCall}
    (h : docStep doc call = some doc') : doc'.historyLimit = doc.historyLimit := by
  obtain ⟨⟨d, r⟩, hcall, rfl⟩ := Option.map_eq_some_iff.mp h
  cases processOutcome hcall with
  | error => rfl
  | resync => rfl
  | ok op updated => rfl

theorem replay_concat (text : Bytes) (entries : List TsHistoryEntry) (entry : TsHistoryEntry) :
    replay text (entries ++ [entry]) =
      (replay text entries).bind fun t => tsApplyOperationToText t entry.op := by
  simp [replay, List.foldlM_append]

/-- One step extends the replay of every base version that the new window still covers. -/
theorem replay_docStep {doc doc' : TsDocument} {call : DocCall} (hwin : HistoryWindow doc)
    (h : docStep doc call = some doc') {b : ℤ} {text : Bytes} (hb : b ≤ doc.version)
    (hstart : doc'.historyStartVersion ≤ b)
    (hreplay : doc.historyStartVersion ≤ b → replay text (entriesSince doc b) = some doc.text) :
    replay text (entriesSince doc' b) = some doc'.text := by
  obtain ⟨⟨d, r⟩, hcall, rfl⟩ := Option.map_eq_some_iff.mp h
  cases processOutcome hcall with
  | error => exact hreplay hstart
  | resync => exact hreplay hstart
  | ok op updated hop _ hbase hversion hmax happly =>
    have hcover := (hwin.start_le_accepted rfl updated).trans hstart
    rw [hwin.entriesSince_accepted rfl updated hstart hb, replay_concat, hreplay hcover]
    exact happly

/-! ## Whole runs -/

theorem historyWindow_run {doc doc' : TsDocument} {calls : List DocCall} (h : HistoryWindow doc)
    (hrun : run docStep doc calls = some doc') : HistoryWindow doc' :=
  run_invariant (fun _ _ _ hw hs => hw.step hs) h hrun

theorem version_le_run {doc doc' : TsDocument} {calls : List DocCall}
    (hrun : run docStep doc calls = some doc') : doc.version ≤ doc'.version :=
  run_rel (fun d d' : TsDocument => d.version ≤ d'.version) (fun _ => le_rfl) (fun _ _ _ => le_trans)
    (fun _ _ _ hs => by rcases version_docStep hs with h | h <;> omega) hrun

theorem historyLimit_run {doc doc' : TsDocument} {calls : List DocCall}
    (hrun : run docStep doc calls = some doc') : doc'.historyLimit = doc.historyLimit :=
  run_rel (fun d d' : TsDocument => d'.historyLimit = d.historyLimit) (fun _ => rfl)
    (fun _ _ _ hst htu => htu.trans hst) (fun _ _ _ hs => historyLimit_docStep hs) hrun

/-- The entries newer than a covered version replay its text to the current text. -/
theorem replay_run {doc doc' : TsDocument} {calls : List DocCall} (hwin : HistoryWindow doc)
    (hrun : run docStep doc calls = some doc') (hstart : doc'.historyStartVersion ≤ doc.version) :
    replay doc.text (entriesSince doc' doc.version) = some doc'.text := by
  induction calls using List.reverseRecOn generalizing doc' with
  | nil =>
    cases hrun
    rw [hwin.entriesSince_version]
    rfl
  | append_singleton calls call ih =>
    obtain ⟨d, hd, hstep⟩ := run_concat_some.mp hrun
    exact replay_docStep (historyWindow_run hwin hd) hstep (version_le_run hd) hstart (ih hd)

/-- The window covers a version exactly when all later entries are retained. -/
theorem HistoryWindow.replayable_iff {doc : TsDocument} (h : HistoryWindow doc) (b : ℤ) :
    Replayable doc b ↔ doc.historyStartVersion ≤ b := by
  have hlen := h.length
  rw [h.start]
  constructor
  · intro hcover
    by_contra hlt
    obtain ⟨entry, hmem, hver⟩ := hcover (doc.version - doc.history.length) (by omega) (by omega)
    obtain ⟨i, hi, rfl⟩ := List.getElem_of_mem hmem
    rw [h.versions i hi] at hver
    omega
  · intro hle v hbv hv
    have hi : (v - 1 - (doc.version - doc.history.length)).toNat < doc.history.length := by omega
    refine ⟨_, List.getElem_mem hi, ?_⟩
    rw [h.versions _ hi]
    omega

/-- A well-formed operation is answered with a resynchronisation exactly when its base version is
ahead of the document or behind the window. -/
theorem status_resync_iff {doc : TsDocument} {call : DocCall} {op : TsOperation}
    (hcall : call.op = some op) (hop : Acceptable op) :
    (∃ d r, processCall doc call = some (d, r) ∧ r.status = .resync) ↔
      call.baseVersion < doc.historyStartVersion ∨ doc.version < call.baseVersion := by
  constructor
  · rintro ⟨d, r, hproc, hstatus⟩
    cases processOutcome hproc with
    | error => cases hstatus
    | resync _ _ _ hbase => exact hbase
    | ok => cases hstatus
  · intro hbase
    refine ⟨doc, resyncResult doc call.opId call.baseVersion, ?_, rfl⟩
    have hins : ¬ (op.kind = .insert ∧ tsUtf8CharCount op.ch ≠ 1) := fun h => h.2 (hop.2 h.1)
    simp only [processCall, tsDocumentProcessOperation, hcall, if_neg hop.1, if_neg hins]
    exact if_pos hbase

/-- The history window of every reached document: its length, its versions and its start; the
retained entries newer than a version replay the text of that version to the current text; and
an operation is answered with a resynchronisation exactly when its base version is negative, ahead
of the document or not replayable from the retained entries. -/
theorem history_window (text : Bytes) (limit : ℕ) (calls : List DocCall) (doc : TsDocument)
    (hrun : run docStep (tsDocumentInit text limit) calls = some doc) :
    (doc.history.length : ℤ) = min doc.version (if limit = 0 then 1000 else limit : ℕ) ∧
    (∀ i (hi : i < doc.history.length),
      (doc.history[i]).serverVersion = doc.version - doc.history.length + 1 + i) ∧
    doc.historyStartVersion = doc.version - doc.history.length ∧
    (∀ b, doc.historyStartVersion ≤ b → b ≤ doc.version →
      (∃ before after mid, calls = before ++ after ∧
        run docStep (tsDocumentInit text limit) before = some mid ∧ mid.version = b) ∧
      ∀ before after mid, calls = before ++ after →
        run docStep (tsDocumentInit text limit) before = some mid → mid.version = b →
        replay mid.text (doc.history.filter fun entry => entry.serverVersion > b) =
          some doc.text) ∧
    ∀ call op, call.op = some op → Acceptable op →
      ((∃ d r, processCall doc call = some (d, r) ∧ r.status = .resync) ↔
        call.baseVersion < 0 ∨ doc.version < call.baseVersion ∨
          ¬ Replayable doc call.baseVersion) := by
  have hwin := historyWindow_run (historyWindow_init text limit) hrun
  have hlimit : doc.historyLimit = if limit = 0 then 1000 else limit := historyLimit_run hrun
  refine ⟨hlimit ▸ hwin.length, hwin.versions, hwin.start, fun b hb hb' => ⟨?_, ?_⟩, ?_⟩
  · have hlen := hwin.length
    have hver := hwin.version_nonneg
    have hstart := hwin.start
    exact exists_prefix_of_counter TsDocument.version
      (fun _ _ _ hs => by rcases version_docStep hs with h | h <;> omega) hrun
      (show (0 : ℤ) ≤ b by omega) hb'
  · rintro before after mid rfl hmid rfl
    obtain ⟨m, hm, hafter⟩ := run_append_some.mp hrun
    rw [hmid, Option.some.injEq] at hm
    subst hm
    exact replay_run (historyWindow_run (historyWindow_init text limit) hmid) hafter hb
  · intro call op hcall hop
    rw [status_resync_iff hcall hop, hwin.replayable_iff]
    have hlen := hwin.length
    have hver := hwin.version_nonneg
    have hstart := hwin.start
    omega

/-- Two clients edit a document whose history limit is 1, the second one against an old version. -/
def expiringCalls : List DocCall :=
  [⟨bytes "u1", bytes "u1-1", 0, some (tsOperationInit .insert 0 (bytes "x"))⟩,
    ⟨bytes "u2", bytes "u2-1", 0, some (tsOperationInit .delete 1 [])⟩,
    ⟨bytes "u1", bytes "u1-2", 0, some (tsOperationInit .insert 2 (bytes "y"))⟩]

theorem history_window_expiring :
    ∃ doc, run docStep (tsDocumentInit (bytes "ab") 1) expiringCalls = some doc ∧
      doc.historyStartVersion = doc.version - doc.history.length := by
  have hsome : (run docStep (tsDocumentInit (bytes "ab") 1) expiringCalls).isSome = true := by
    decide
  obtain ⟨doc, hrun⟩ := Option.isSome_iff_exists.mp hsome
  exact ⟨doc, hrun, (history_window (bytes "ab") 1 expiringCalls doc hrun).2.2.1⟩

end TermSync
