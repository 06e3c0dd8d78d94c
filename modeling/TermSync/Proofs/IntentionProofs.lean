import TermSync.Proofs.HistoryProofs

/-!
# Proofs: intention preservation

The history entries newer than a base version describe the edits that lead from the text of that
version to the current one (`EditsSince`). Folding `ts_transform_against` over them carries the
insertion point of an INSERT and the character of a DELETE along these edits, so an operation does to
the current text what its client meant at the base version.
-/

namespace TermSync

open Foundations

/-! ## The traced document -/

/-- The occurrences are the characters of the text, and their identities are unique and not newer
than the document. -/
structure Traced (t : TracedDocument) : Prop where
  window : HistoryWindow t.doc
  text : t.doc.text = occText t.occs
  wellFormed : ∀ o ∈ t.occs, WellFormedChar o.2
  nodup : (t.occs.map Prod.fst).Nodup
  old : ∀ o ∈ t.occs, ∀ v, o.1 = .inserted v → v ≤ t.doc.version

theorem initialOccs_snd (cs : List Char) :
    (initialOccs cs).map Prod.snd = cs.map String.utf8EncodeChar := by
  exact List.ext_getElem (by simp [initialOccs]) fun i h h' => by simp [initialOccs]

theorem mem_initialOccs {cs : List Char} {o : Occurrence} (h : o ∈ initialOccs cs) :
    ∃ i c, c ∈ cs ∧ o = (.initial i, String.utf8EncodeChar c) := by
  obtain ⟨i, hi, rfl⟩ := List.mem_mapIdx.mp h
  exact ⟨i, cs[i], List.getElem_mem hi, rfl⟩

theorem traced_init {cs : List Char} (hcs : ∀ c ∈ cs, c ≠ '\x00') (limit : ℕ) :
    Traced (TracedDocument.init cs limit) where
  window := historyWindow_init _ _
  text := by
    simp only [TracedDocument.init, tsDocumentInit, occText, initialOccs_snd]
    exact Utf8.encode_eq_flatten cs
  wellFormed o ho := by
    obtain ⟨i, c, hc, rfl⟩ := mem_initialOccs ho
    exact ⟨c, hcs c hc, rfl⟩
  nodup := by
    refine List.nodup_iff_getElem?_ne_getElem?.mpr fun i j hij hj => ?_
    simp only [TracedDocument.init, initialOccs, List.length_map, List.length_mapIdx] at hj
    simp [TracedDocument.init, initialOccs, hij.trans hj, hj, hij.ne]
  old o ho v hv := by
    obtain ⟨i, c, hc, rfl⟩ := mem_initialOccs ho
    cases hv

/-- The number of occurrences is the character count of the text. -/
theorem Traced.charCount {t : TracedDocument} (h : Traced t) :
    tsUtf8CharCount t.doc.text = t.occs.length := by
  have hps : ∀ p ∈ t.occs.map Prod.snd, WellFormedChar p := by
    intro p hp
    obtain ⟨o, ho, rfl⟩ := List.mem_map.mp hp
    exact h.wellFormed o ho
  rw [h.text, occText, tsUtf8CharCount_flatten hps, List.length_map]

/-! ## The edit of an operation -/

/-- Applying an operation to the bytes applies its edit to the occurrences. -/
theorem Traced.apply {t : TracedDocument} (h : Traced t) (op : TsOperation) (version : ℤ) :
    tsApplyOperationToText t.doc.text op = some (occText (applyOcc op version t.occs)) := by
  have hps : ∀ p ∈ t.occs.map Prod.snd, WellFormedChar p := by
    intro p hp
    obtain ⟨o, ho, rfl⟩ := List.mem_map.mp hp
    exact h.wellFormed o ho
  rw [h.text, occText, tsApplyOperationToText_flatten hps, occText, applyOcc, occEdit,
    map_opEdit_apply]

/-- What an operation leaves in the text was there before, or it is the inserted character. -/
theorem mem_applyOcc {op : TsOperation} {version : ℤ} {occs : List Occurrence} {o : Occurrence}
    (h : o ∈ applyOcc op version occs) :
    (op.kind = .insert ∧ o = (.inserted version, op.ch)) ∨ o ∈ occs := by
  rcases Edit.mem_apply_of_mem h with h | h
  · rw [occEdit, inserted_opEdit] at h
    split_ifs at h with hk
    · exact Or.inl ⟨hk, List.mem_singleton.mp h⟩
    · cases h
  · exact Or.inr h

/-- An accepted operation keeps the trace. -/
theorem Traced.accepted {t : TracedDocument} (h : Traced t) {entry : TsHistoryEntry}
    (hversion : entry.serverVersion = t.doc.version + 1)
    (hch : entry.op.kind = .insert → WellFormedChar entry.op.ch) :
    Traced
      { doc := acceptedDocument t.doc entry
          (occText (applyOcc entry.op (t.doc.version + 1) t.occs))
        occs := applyOcc entry.op (t.doc.version + 1) t.occs } where
  window := h.window.accepted hversion _
  text := rfl
  wellFormed o ho := by
    rcases mem_applyOcc ho with ⟨hk, rfl⟩ | ho
    · exact hch hk
    · exact h.wellFormed o ho
  nodup := by
    have hfit := fits_opEdit entry.op (t.occs.map Prod.fst) (.inserted (t.doc.version + 1))
    have hnew : OccId.inserted (t.doc.version + 1) ∉ t.occs.map Prod.fst := by
      intro hmem
      obtain ⟨o, ho, hid⟩ := List.mem_map.mp hmem
      have := h.old o ho _ hid
      omega
    have hnd := Edit.nodup_apply_append (m := []) hfit ?_
    · rw [List.append_nil] at hnd
      rwa [applyOcc, occEdit, map_opEdit_apply]
    · rw [List.append_nil, inserted_opEdit]
      split_ifs
      · exact List.nodup_append.mpr ⟨h.nodup, List.nodup_singleton _, fun a ha b hb hab =>
          hnew (by rwa [← List.mem_singleton.mp hb, ← hab])⟩
      · rw [List.append_nil]
        exact h.nodup
  old o ho v hv := by
    rw [acceptedDocument_version]
    rcases mem_applyOcc ho with ⟨-, rfl⟩ | ho
    · simp only [OccId.inserted.injEq] at hv
      omega
    · have := h.old o ho v hv
      omega

/-! ## Runs of traced documents -/

/-- What one call does to a traced document. -/
theorem Traced.process_cases {t t' : TracedDocument} {call : DocCall} {r : TsProcessResult}
    (h : Traced t) (hproc : t.process call = some (t', r)) :
    (r.status ≠ .ok ∧ t' = t) ∨
      ∃ op entry, call.op = some op ∧
        entry = acceptedEntry t.doc call.clientId call.opId call.baseVersion op ∧
        t.doc.historyStartVersion ≤ call.baseVersion ∧ call.baseVersion ≤ t.doc.version ∧
        r.status = .ok ∧ (∃ ack, r.ack = some ack ∧ ack.op = entry.op) ∧
        t' = { doc := acceptedDocument t.doc entry
                (occText (applyOcc entry.op (t.doc.version + 1) t.occs))
               occs := applyOcc entry.op (t.doc.version + 1) t.occs } := by
  obtain ⟨⟨d, r'⟩, hcall, hout⟩ := Option.map_eq_some_iff.mp hproc
  simp only [Prod.mk.injEq] at hout
  obtain ⟨rfl, rfl⟩ := hout
  cases processOutcome hcall with
  | error => exact Or.inl ⟨by simp [errorResult], rfl⟩
  | resync => exact Or.inl ⟨by simp [resyncResult], rfl⟩
  | ok op updated hop _ hstart hversion _ happly =>
    have htext : updated = occText (applyOcc (transformedOp t.doc call.baseVersion op)
        (t.doc.version + 1) t.occs) :=
      Option.some.inj (happly.symm.trans (h.apply _ _))
    subst htext
    exact Or.inr ⟨op, _, hop, rfl, hstart, hversion, rfl, ⟨_, rfl, rfl⟩, rfl⟩

theorem Traced.version_step {t t' : TracedDocument} {call : DocCall}
    (hstep : t.step call = some t') : t'.doc.version ≤ t.doc.version + 1 := by
  obtain ⟨⟨t'', r⟩, hproc, rfl⟩ := Option.map_eq_some_iff.mp hstep
  obtain ⟨⟨d, r'⟩, hdoc, hout⟩ := Option.map_eq_some_iff.mp hproc
  simp only [Prod.mk.injEq] at hout
  obtain ⟨rfl, rfl⟩ := hout
  rcases version_docStep (Option.map_eq_some_iff.mpr ⟨_, hdoc, rfl⟩) with h | h <;>
    simp only at h ⊢ <;> omega

/-- An acceptable operation whose base version is covered is accepted. -/
theorem Traced.process_ok {t : TracedDocument} {call : DocCall} {op : TsOperation} (h : Traced t)
    (hcall : call.op = some op) (hop : Acceptable op)
    (hstart : t.doc.historyStartVersion ≤ call.baseVersion)
    (hversion : call.baseVersion ≤ t.doc.version) (hmax : t.doc.version < intMax) :
    ∃ t' r ack, t.process call = some (t', r) ∧ r.status = .ok ∧ r.ack = some ack ∧
      ack.op = transformedOp t.doc call.baseVersion op ∧
      t' = { doc := acceptedDocument t.doc
              (acceptedEntry t.doc call.clientId call.opId call.baseVersion op)
              (occText (applyOcc (transformedOp t.doc call.baseVersion op) (t.doc.version + 1)
                t.occs))
             occs := applyOcc (transformedOp t.doc call.baseVersion op) (t.doc.version + 1)
              t.occs } := by
  have hproc := processCall_ok hcall hop hstart hversion hmax
    (h.apply (transformedOp t.doc call.baseVersion op) (t.doc.version + 1))
  exact ⟨_, _, _, by rw [TracedDocument.process, hproc]; rfl, rfl, rfl, rfl, rfl⟩

theorem Traced.step {t t' : TracedDocument} {call : DocCall} (h : Traced t)
    (hch : InsertsWellFormed [call]) (hstep : t.step call = some t') : Traced t' := by
  obtain ⟨⟨t'', r⟩, hproc, rfl⟩ := Option.map_eq_some_iff.mp hstep
  rcases h.process_cases hproc with ⟨-, rfl⟩ | ⟨op, entry, hop, rfl, -, -, -, -, rfl⟩
  · exact h
  · refine h.accepted rfl fun hk => ?_
    obtain ⟨hkind, hch'⟩ := transformedOp_insert hk
    rw [show (acceptedEntry t.doc call.clientId call.opId call.baseVersion op).op.ch = op.ch
      from hch']
    exact hch call (List.mem_singleton.mpr rfl) op hop hkind

theorem Traced.run {t t' : TracedDocument} {calls : List DocCall} (h : Traced t)
    (hch : InsertsWellFormed calls) (hrun : run TracedDocument.step t calls = some t') :
    Traced t' :=
  run_invariant_of_guarded (fun _ _ _ ht hcall hstep => ht.step hcall hstep) h
    (Guarded.of_forall fun call hcall => fun c hc => hch c (by rwa [List.mem_singleton.mp hc])) hrun

/-- `op` was applied as the edit `e`. -/
def Describes (op : TsOperation) (e : Edit Occurrence) : Prop :=
  match e with
  | .insert i _ => op.kind = .insert ∧ op.pos = i
  | .erase i => op.kind = .delete ∧ op.pos = i
  | .keep => op.kind = .noop

theorem describes_occEdit {op : TsOperation} {occs : List Occurrence}
    (h : Normalized op occs.length) (version : ℤ) : Describes op (occEdit op version occs) := by
  cases hk : op.kind with
  | insert =>
    simp only [occEdit, opEdit, hk, Describes, true_and]
    exact (min_eq_left (h.insert hk)).symm
  | delete => simp [occEdit, opEdit, hk, h.delete hk, Describes]
  | noop => simp [occEdit, opEdit, hk, Describes]
  | invalid => exact absurd hk h.kind

/-- `es` are the edits that lead from the document `tb` to the document `tc`, and the history of `tc`
describes them as long as it covers the version of `tb`. -/
structure EditsSince (tb tc : TracedDocument) (es : List (Edit Occurrence)) : Prop where
  inRange : InRange es tb.occs
  applied : applyEdits es tb.occs = tc.occs
  length : (es.length : ℤ) = tc.doc.version - tb.doc.version
  fresh : ((insertedBy es).map Prod.fst).Nodup
  new : ∀ o ∈ insertedBy es, ∃ v, o.1 = .inserted v ∧ tb.doc.version < v ∧ v ≤ tc.doc.version
  described : tc.doc.historyStartVersion ≤ tb.doc.version →
    List.Forall₂ (fun entry e => Describes entry.op e) (entriesSince tc.doc tb.doc.version) es

/-- The elements of the old list and the inserted elements are all different. -/
theorem EditsSince.nodup {tb tc : TracedDocument} {es : List (Edit Occurrence)}
    (h : EditsSince tb tc es) (hb : Traced tb) : (tb.occs ++ insertedBy es).Nodup := by
  refine List.nodup_append.mpr ⟨hb.nodup.of_map, h.fresh.of_map, ?_⟩
  rintro o ho o' ho' rfl
  obtain ⟨v, hid, hlt, -⟩ := h.new o ho'
  have := hb.old o ho v hid
  omega

theorem editsSince_self {t : TracedDocument} (h : Traced t) : EditsSince t t [] where
  inRange := trivial
  applied := rfl
  length := by simp
  fresh := List.nodup_nil
  new := by simp [insertedBy]
  described _ := by
    rw [h.window.entriesSince_version]
    exact .nil

theorem id_of_mem_inserted {op : TsOperation} {version : ℤ} {occs : List Occurrence}
    {o : Occurrence} (h : o ∈ (occEdit op version occs).inserted) : o.1 = .inserted version := by
  rw [occEdit, inserted_opEdit] at h
  split_ifs at h
  · rw [List.mem_singleton.mp h]
  · cases h

theorem nodup_inserted (e : Edit Occurrence) : (e.inserted.map Prod.fst).Nodup := by
  cases e <;> simp [Edit.inserted]

/-- One more accepted operation adds its edit. -/
theorem EditsSince.accepted {tb tc : TracedDocument} {es : List (Edit Occurrence)}
    (h : EditsSince tb tc es) (hc : Traced tc) (hle : tb.doc.version ≤ tc.doc.version)
    {entry : TsHistoryEntry} (hversion : entry.serverVersion = tc.doc.version + 1)
    (hnorm : Normalized entry.op tc.occs.length) (updated : Bytes) :
    EditsSince tb
      { doc := acceptedDocument tc.doc entry updated
        occs := applyOcc entry.op (tc.doc.version + 1) tc.occs }
      (es ++ [occEdit entry.op (tc.doc.version + 1) tc.occs]) where
  inRange := inRange_append.mpr ⟨h.inRange, by rw [h.applied]; exact fits_opEdit _ _ _, trivial⟩
  applied := by
    rw [applyEdits_append, h.applied]
    rfl
  length := by
    have := h.length
    simp only [List.length_append, List.length_singleton, acceptedDocument_version]
    omega
  fresh := by
    rw [insertedBy_concat, List.map_append]
    refine List.nodup_append.mpr ⟨h.fresh, nodup_inserted _, ?_⟩
    rintro i hi j hj rfl
    obtain ⟨o, ho, rfl⟩ := List.mem_map.mp hi
    obtain ⟨o', ho', hid'⟩ := List.mem_map.mp hj
    obtain ⟨v, hid, -, hv⟩ := h.new o ho
    rw [id_of_mem_inserted ho', hid, OccId.inserted.injEq] at hid'
    omega
  new o ho := by
    rw [insertedBy_concat, List.mem_append] at ho
    rw [acceptedDocument_version]
    rcases ho with ho | ho
    · obtain ⟨v, hid, hlt, hv⟩ := h.new o ho
      exact ⟨v, hid, hlt, by omega⟩
    · exact ⟨_, id_of_mem_inserted ho, by omega, le_rfl⟩
  described hstart := by
    have hstart' := (hc.window.start_le_accepted hversion updated).trans hstart
    rw [hc.window.entriesSince_accepted hversion updated hstart hle]
    exact List.rel_append (h.described hstart') (.cons (describes_occEdit hnorm _) .nil)

/-- A run of calls makes a sequence of edits. -/
theorem exists_editsSince {tb tc : TracedDocument} {calls : List DocCall} (hb : Traced tb)
    (hch : InsertsWellFormed calls) (hrun : run TracedDocument.step tb calls = some tc) :
    tb.doc.version ≤ tc.doc.version ∧ ∃ es, EditsSince tb tc es := by
  induction calls using List.reverseRecOn generalizing tc with
  | nil =>
    cases hrun
    exact ⟨le_rfl, [], editsSince_self hb⟩
  | append_singleton calls call ih =>
    obtain ⟨t, ht, hstep⟩ := run_concat_some.mp hrun
    have hch' : InsertsWellFormed calls := fun c hc => hch c (List.mem_append_left _ hc)
    obtain ⟨hle, es, hes⟩ := ih hch' ht
    have htr : Traced t := hb.run hch' ht
    obtain ⟨⟨t', r⟩, hproc, rfl⟩ := Option.map_eq_some_iff.mp hstep
    rcases htr.process_cases hproc with ⟨-, rfl⟩ | ⟨op, entry, hop, rfl, -, -, -, -, rfl⟩
    · exact ⟨hle, es, hes⟩
    · have hnorm : Normalized (transformedOp t.doc call.baseVersion op) t.occs.length :=
        htr.charCount ▸ normalized_normalizeForApply _ _
      refine ⟨?_, _, hes.accepted htr hle rfl hnorm _⟩
      simp only [acceptedDocument_version]
      omega

/-! ## Transformation carries positions -/

theorem tsTransformAgainst_of_insert {op previous : TsOperation} {e : Edit Occurrence}
    (hd : Describes previous e) (hk : op.kind = .insert) (hpos : op.pos + 1 < sizeModulus) :
    tsTransformAgainst op previous = { op with pos := e.carryGap op.pos } := by
  obtain ⟨kind, pos, ch, reason⟩ := op
  obtain rfl : kind = .insert := hk
  have hsucc : sizeSucc pos = pos + 1 := Nat.mod_eq_of_lt hpos
  cases e with
  | insert i a =>
    obtain ⟨hprev, rfl⟩ := hd
    simp only [tsTransformAgainst, hprev, Edit.carryGap, hsucc]
    split_ifs <;> simp_all
  | erase i =>
    obtain ⟨hprev, rfl⟩ := hd
    simp only [tsTransformAgainst, hprev, Edit.carryGap]
    split_ifs <;> simp_all
  | keep => simp [tsTransformAgainst, show previous.kind = .noop from hd, Edit.carryGap]

theorem tsTransformAgainst_of_delete {op previous : TsOperation} {e : Edit Occurrence}
    (hd : Describes previous e) (hk : op.kind = .delete) (hpos : op.pos + 1 < sizeModulus) :
    match e.carryElem op.pos with
    | some q => tsTransformAgainst op previous = { op with pos := q }
    | none => (tsTransformAgainst op previous).kind = .noop := by
  obtain ⟨kind, pos, ch, reason⟩ := op
  obtain rfl : kind = .delete := hk
  have hsucc : sizeSucc pos = pos + 1 := Nat.mod_eq_of_lt hpos
  cases e with
  | insert i a =>
    obtain ⟨hprev, rfl⟩ := hd
    simp only [tsTransformAgainst, hprev, Edit.carryElem, hsucc]
    split_ifs <;> simp_all
  | erase i =>
    obtain ⟨hprev, rfl⟩ := hd
    simp only [tsTransformAgainst, hprev, Edit.carryElem]
    split_ifs <;> simp_all [tsOperationNoop, tsOperationInit]
  | keep => simp [tsTransformAgainst, show previous.kind = .noop from hd, Edit.carryElem]

theorem tsTransformAgainst_of_noop {op : TsOperation} (hk : op.kind = .noop)
    (previous : TsOperation) : tsTransformAgainst op previous = op :=
  if_pos (Or.inl hk)

/-- Folding over the history carries the insertion point of an INSERT. -/
theorem foldl_tsTransformAgainst_of_insert {entries : List TsHistoryEntry}
    {es : List (Edit Occurrence)} {op : TsOperation}
    (hd : List.Forall₂ (fun entry e => Describes entry.op e) entries es) (hk : op.kind = .insert)
    (hpos : op.pos + es.length < sizeModulus) :
    entries.foldl (fun t entry => tsTransformAgainst t entry.op) op =
      { op with pos := carryGaps es op.pos } := by
  induction hd generalizing op with
  | nil => rfl
  | @cons entry e entries es hde hrest ih =>
    simp only [List.length_cons] at hpos
    have hle : e.carryGap op.pos ≤ op.pos + 1 := carryGaps_le [e] op.pos
    rw [List.foldl_cons, tsTransformAgainst_of_insert hde hk (by omega)]
    exact @ih { op with pos := e.carryGap op.pos } hk (by simp only; omega)

theorem foldl_tsTransformAgainst_of_noop {entries : List TsHistoryEntry} {op : TsOperation}
    (hk : op.kind = .noop) :
    entries.foldl (fun t entry => tsTransformAgainst t entry.op) op = op := by
  induction entries with
  | nil => rfl
  | cons entry entries ih => rw [List.foldl_cons, tsTransformAgainst_of_noop hk, ih]

/-- Folding over the history carries the character of a DELETE, which becomes a NOOP once its
character has been deleted. -/
theorem foldl_tsTransformAgainst_of_delete {entries : List TsHistoryEntry}
    {es : List (Edit Occurrence)} {op : TsOperation}
    (hd : List.Forall₂ (fun entry e => Describes entry.op e) entries es) (hk : op.kind = .delete)
    (hpos : op.pos + es.length < sizeModulus) :
    match carryElems es op.pos with
    | some q => entries.foldl (fun t entry => tsTransformAgainst t entry.op) op =
        { op with pos := q }
    | none => (entries.foldl (fun t entry => tsTransformAgainst t entry.op) op).kind = .noop := by
  induction hd generalizing op with
  | nil => rfl
  | @cons entry e entries es hde hrest ih =>
    simp only [List.length_cons] at hpos
    have hone := tsTransformAgainst_of_delete hde hk (by omega)
    cases hq : e.carryElem op.pos with
    | none =>
      rw [hq] at hone
      simp only [carryElems, hq, Option.bind_none, List.foldl_cons]
      rwa [foldl_tsTransformAgainst_of_noop hone]
    | some q =>
      rw [hq] at hone
      have hle : q ≤ op.pos + 1 := Edit.carryElem_le hq
      have hrec := @ih { op with pos := q } hk (by simp only; omega)
      simp only [carryElems, hq, Option.bind_some, List.foldl_cons]
      rw [show tsTransformAgainst op entry.op = { op with pos := q } from hone]
      exact hrec

theorem transformedOp_of_insert {tb tc : TracedDocument} {es : List (Edit Occurrence)}
    {op : TsOperation} (h : EditsSince tb tc es) (hc : Traced tc) (hk : op.kind = .insert)
    (hstart : tc.doc.historyStartVersion ≤ tb.doc.version)
    (hpos : op.pos + es.length < sizeModulus) :
    transformedOp tc.doc tb.doc.version op =
      { op with pos := min (carryGaps es op.pos) tc.occs.length } := by
  rw [transformedOp, foldl_tsTransformAgainst_of_insert (h.described hstart) hk hpos]
  simp only [normalizeForApply, hk, hc.charCount]
  split_ifs with hlt
  · rw [min_eq_right (by omega)]
  · rw [min_eq_left (by omega)]

theorem transformedOp_of_delete {tb tc : TracedDocument} {es : List (Edit Occurrence)}
    {op : TsOperation} {q : ℕ} (h : EditsSince tb tc es) (hc : Traced tc) (hk : op.kind = .delete)
    (hstart : tc.doc.historyStartVersion ≤ tb.doc.version)
    (hpos : op.pos + es.length < sizeModulus) (hq : carryElems es op.pos = some q)
    (hlt : q < tc.occs.length) :
    transformedOp tc.doc tb.doc.version op = { op with pos := q } := by
  have hfold := foldl_tsTransformAgainst_of_delete (h.described hstart) hk hpos
  rw [hq] at hfold
  rw [transformedOp, show _ = _ from hfold]
  simp only [normalizeForApply, hk, hc.charCount, if_pos hlt]

/-- A DELETE whose character is gone or never existed is applied as a NOOP. -/
theorem transformedOp_of_delete_gone {tb tc : TracedDocument} {es : List (Edit Occurrence)}
    {op : TsOperation} (h : EditsSince tb tc es) (hc : Traced tc) (hk : op.kind = .delete)
    (hstart : tc.doc.historyStartVersion ≤ tb.doc.version)
    (hpos : op.pos + es.length < sizeModulus)
    (hq : ∀ q, carryElems es op.pos = some q → tc.occs.length ≤ q) :
    (transformedOp tc.doc tb.doc.version op).kind = .noop := by
  have hfold := foldl_tsTransformAgainst_of_delete (h.described hstart) hk hpos
  rw [transformedOp]
  cases hcarry : carryElems es op.pos with
  | none =>
    rw [hcarry] at hfold
    simp only [normalizeForApply]
    rw [show _ = _ from hfold]
    exact hfold
  | some q =>
    rw [hcarry] at hfold
    rw [show _ = _ from hfold]
    have hout : ¬ q < tc.occs.length := Nat.not_lt.mpr (hq q hcarry)
    simp only [normalizeForApply, hk, hc.charCount, if_neg hout]
    rfl

/-! ## Intention preservation -/

theorem keepsOrder_of_editsSince {tb tc : TracedDocument} {es : List (Edit Occurrence)}
    (h : EditsSince tb tc es) (hb : Traced tb) : KeepsOrder tb.occs tc.occs := by
  intro o o' ho ho' hs hs'
  have happ := h.applied
  rw [← happ] at hs hs' ⊢
  exact idxOf_applyEdits_lt_idxOf h.inRange (h.nodup hb) ho ho' hs hs'

theorem deletesIntended {tb tc : TracedDocument} {es : List (Edit Occurrence)} {op : TsOperation}
    (h : EditsSince tb tc es) (hb : Traced tb) (hc : Traced tc) (hk : op.kind = .delete)
    (hstart : tc.doc.historyStartVersion ≤ tb.doc.version)
    (hpos : op.pos + es.length < sizeModulus) (version : ℤ) :
    DeletesIntended tb.occs tc.occs
      (applyOcc (transformedOp tc.doc tb.doc.version op) version tc.occs) op.pos
      (transformedOp tc.doc tb.doc.version op) := by
  have happ := h.applied
  have hgone : (∀ q, carryElems es op.pos = some q → tc.occs.length ≤ q) →
      (transformedOp tc.doc tb.doc.version op).kind = .noop ∧
        applyOcc (transformedOp tc.doc tb.doc.version op) version tc.occs = tc.occs := by
    intro hq
    have hnoop := transformedOp_of_delete_gone h hc hk hstart hpos hq
    exact ⟨hnoop, by simp only [applyOcc, occEdit, opEdit, hnoop, Edit.apply]⟩
  refine ⟨fun c hbase hcur => ?_, fun c hbase hcur => hgone fun q hq => ?_,
    fun hout => hgone fun q hq => ?_⟩
  · obtain ⟨q, hq⟩ : ∃ q, carryElems es op.pos = some q := by
      refine Option.ne_none_iff_exists'.mp fun hnone => ?_
      exact notMem_applyEdits h.inRange (h.nodup hb) hbase hnone (happ ▸ hcur)
    have hget := getElem?_applyEdits h.inRange hbase hq
    rw [happ] at hget
    obtain ⟨hlt, hqc⟩ := List.getElem?_eq_some_iff.mp hget
    rw [transformedOp_of_delete h hc hk hstart hpos hq hlt]
    refine ⟨hk, ?_⟩
    have hnd : tc.occs.Nodup := hc.nodup.of_map
    simp only [applyOcc, occEdit, opEdit, hk, if_pos hlt, Edit.apply]
    rw [← hqc, hnd.erase_getElem]
  · -- a position that carries to a remaining index would carry `c` there
    exfalso
    have hget := getElem?_applyEdits h.inRange hbase hq
    rw [happ] at hget
    exact hcur (List.mem_of_getElem? hget)
  · obtain ⟨q', hq', hle⟩ := length_applyEdits_le h.inRange hout
    rw [happ] at hle
    rw [hq', Option.some.injEq] at hq
    omega

/-- An INSERT puts its character where its position is carried. -/
theorem applyOcc_insert {tb tc : TracedDocument} {es : List (Edit Occurrence)} {op : TsOperation}
    (h : EditsSince tb tc es) (hc : Traced tc) (hk : op.kind = .insert)
    (hstart : tc.doc.historyStartVersion ≤ tb.doc.version)
    (hpos : op.pos + es.length < sizeModulus) (version : ℤ) :
    applyOcc (transformedOp tc.doc tb.doc.version op) version tc.occs =
      tc.occs.insertIdx (min (carryGaps es op.pos) tc.occs.length) (.inserted version, op.ch) := by
  have hi : min (carryGaps es op.pos) tc.occs.length ≤ tc.occs.length := min_le_right _ _
  rw [transformedOp_of_insert h hc hk hstart hpos]
  simp only [applyOcc, occEdit, opEdit, hk, Edit.apply, min_eq_left hi]

/-- The new character stands right of exactly the characters left of the carried position. -/
theorem idxOf_applyOcc_lt_iff {tb tc : TracedDocument} {es : List (Edit Occurrence)}
    {op : TsOperation} (h : EditsSince tb tc es) (hc : Traced tc) (hk : op.kind = .insert)
    (hstart : tc.doc.historyStartVersion ≤ tb.doc.version)
    (hpos : op.pos + es.length < sizeModulus) {version : ℤ} (hversion : tc.doc.version < version)
    {o : Occurrence} (ho : o ∈ tc.occs) :
    (applyOcc (transformedOp tc.doc tb.doc.version op) version tc.occs).idxOf o <
        (applyOcc (transformedOp tc.doc tb.doc.version op) version tc.occs).idxOf
          (.inserted version, op.ch) ↔
      tc.occs.idxOf o < carryGaps es op.pos := by
  have hnew : (OccId.inserted version, op.ch) ∉ tc.occs := by
    intro hmem
    have := hc.old _ hmem version rfl
    omega
  rw [applyOcc_insert h hc hk hstart hpos,
    idxOf_insertIdx_lt_iff (min_le_right _ _) hnew hc.nodup.of_map ho]
  have := List.idxOf_lt_length_iff.mpr ho
  omega

theorem insertsIntended {tb tc : TracedDocument} {es : List (Edit Occurrence)} {op : TsOperation}
    (h : EditsSince tb tc es) (hb : Traced tb) (hc : Traced tc) (hk : op.kind = .insert)
    (hstart : tc.doc.historyStartVersion ≤ tb.doc.version)
    (hpos : op.pos + es.length < sizeModulus) {version : ℤ} (hversion : tc.doc.version < version) :
    InsertsIntended tb.occs tc.occs
      (applyOcc (transformedOp tc.doc tb.doc.version op) version tc.occs) op.pos
      (.inserted version, op.ch) := by
  have happ := h.applied
  have hi : min (carryGaps es op.pos) tc.occs.length ≤ tc.occs.length := min_le_right _ _
  have hnew : (OccId.inserted version, op.ch) ∉ tc.occs := by
    intro hmem
    have := hc.old _ hmem version rfl
    omega
  refine ⟨?_, fun o ho hs => ?_⟩
  · rw [applyOcc_insert h hc hk hstart hpos]
    refine ⟨hnew, (List.mem_insertIdx hi).mpr (Or.inl rfl), ?_⟩
    rw [insertIdx_eq_take_append_drop hi, List.erase_append_right _ (fun hmem =>
      hnew (List.mem_of_mem_take hmem)), List.erase_cons_head, List.take_append_drop]
  · rw [idxOf_applyOcc_lt_iff h hc hk hstart hpos hversion hs]
    have := idxOf_applyEdits_lt_iff h.inRange (h.nodup hb) ho (happ ▸ hs) op.pos
    rwa [happ] at this

/-- Intention preservation. A new operation with an accepted base version does to the current text
what it meant at the text of its base version: a DELETE removes exactly the occurrence at its
position, or is a NOOP when there is none any more; an INSERT puts its character right of exactly the
surviving occurrences that stood left of its position. All other occurrences keep their order. -/
theorem intention_preserved (cs : List Char) (hcs : ∀ c ∈ cs, c ≠ '\x00') (limit : ℕ)
    (calls : List DocCall) (hch : InsertsWellFormed calls) (tc : TracedDocument)
    (hrun : run TracedDocument.step (TracedDocument.init cs limit) calls = some tc)
    (call : DocCall) (op : TsOperation) (hcall : call.op = some op) (hop : WellFormedOp op)
    (hpos : (op.pos : ℤ) ≤ intMax) (hstart : tc.doc.historyStartVersion ≤ call.baseVersion)
    (hversion : call.baseVersion ≤ tc.doc.version) (hmax : tc.doc.version < intMax) :
    ∃ tn r ack, tc.process call = some (tn, r) ∧ r.status = .ok ∧ r.ack = some ack ∧
      tc.doc.text = occText tc.occs ∧ tn.doc.text = occText tn.occs ∧
      (tn.occs.map Prod.fst).Nodup ∧ KeepsOrder tc.occs tn.occs ∧
      (∃ before after tb, calls = before ++ after ∧
        run TracedDocument.step (TracedDocument.init cs limit) before = some tb ∧
        tb.doc.version = call.baseVersion) ∧
      ∀ before after tb, calls = before ++ after →
        run TracedDocument.step (TracedDocument.init cs limit) before = some tb →
        tb.doc.version = call.baseVersion →
        tb.doc.text = occText tb.occs ∧ KeepsOrder tb.occs tn.occs ∧
        (op.kind = .delete → DeletesIntended tb.occs tc.occs tn.occs op.pos ack.op) ∧
        (op.kind = .insert →
          InsertsIntended tb.occs tc.occs tn.occs op.pos (.inserted tn.doc.version, op.ch)) := by
  have hinit := traced_init hcs limit
  have hc : Traced tc := hinit.run hch hrun
  obtain ⟨tn, r, ack, hproc, hok, hack, hop', htn⟩ :=
    hc.process_ok hcall hop.acceptable hstart hversion hmax
  subst htn
  have hentry : (acceptedEntry tc.doc call.clientId call.opId call.baseVersion op).op.kind =
      .insert → WellFormedChar
        (acceptedEntry tc.doc call.clientId call.opId call.baseVersion op).op.ch := by
    intro hk
    obtain ⟨hkind, hch'⟩ := transformedOp_insert hk
    exact (show _ = op.ch from hch') ▸ hop.2 hkind
  have hn := hc.accepted rfl hentry
  have hnorm : Normalized (transformedOp tc.doc call.baseVersion op) tc.occs.length :=
    hc.charCount ▸ normalized_normalizeForApply _ _
  refine ⟨_, r, ack, hproc, hok, hack, hc.text, hn.text, hn.nodup,
    keepsOrder_of_editsSince ((editsSince_self hc).accepted hc le_rfl rfl hnorm _) hc, ?_, ?_⟩
  · have hle := hc.window.start
    have hlen := hc.window.length
    exact exists_prefix_of_counter (fun t : TracedDocument => t.doc.version)
      (fun _ _ _ => Traced.version_step) hrun (show (0 : ℤ) ≤ call.baseVersion by omega) hversion
  · rintro before after tb rfl hbefore hbase
    have hb : Traced tb := hinit.run (fun c hc => hch c (List.mem_append_left _ hc)) hbefore
    obtain ⟨m, hm, hafter⟩ := run_append_some.mp hrun
    rw [hbefore, Option.some.injEq] at hm
    subst hm
    obtain ⟨hle, es, hes⟩ :=
      exists_editsSince hb (fun c hc => hch c (List.mem_append_right _ hc)) hafter
    have hfit : op.pos + es.length < sizeModulus := by
      have hlen := hes.length
      have hver := hb.window.version_nonneg
      simp only [intMax, sizeModulus] at *
      omega
    rw [← hbase] at hstart hnorm hop' ⊢
    rw [hop']
    refine ⟨hb.text, keepsOrder_of_editsSince (hes.accepted hc hle rfl hnorm _) hb,
      fun hk => deletesIntended hes hb hc hk hstart hfit _,
      fun hk => insertsIntended hes hb hc hk hstart hfit (by omega)⟩

/-- An insertion before the text, and a deletion of the second character that does not know it. -/
def concurrentInsert : DocCall :=
  ⟨bytes "u1", bytes "u1-1", 0, some (tsOperationInit .insert 0 (bytes "x"))⟩
def concurrentDelete : DocCall :=
  ⟨bytes "u2", bytes "u2-1", 0, some (tsOperationInit .delete 1 [])⟩

theorem intention_preserved_concurrent :
    ∃ tc tn r, run TracedDocument.step (TracedDocument.init ['a', 'b'] 10) [concurrentInsert] =
        some tc ∧
      tc.process concurrentDelete = some (tn, r) ∧ KeepsOrder tc.occs tn.occs := by
  have hany : (run TracedDocument.step (TracedDocument.init ['a', 'b'] 10)
      [concurrentInsert]).any (fun t => decide (t.doc.historyStartVersion ≤ 0 ∧
        0 ≤ t.doc.version ∧ t.doc.version < intMax)) = true := by decide
  obtain ⟨tc, hrun, hcond⟩ := (Option.any_eq_true _ _).mp hany
  obtain ⟨hstart, hversion, hmax⟩ := of_decide_eq_true hcond
  have hwf : InsertsWellFormed [concurrentInsert] := by
    intro call hcall op hop _
    rw [List.mem_singleton.mp hcall] at hop
    cases hop
    exact ⟨'x', by decide, by decide⟩
  obtain ⟨tn, r, ack, hproc, -, -, -, -, -, hkeep, -⟩ :=
    intention_preserved ['a', 'b'] (by decide) 10 [concurrentInsert] hwf tc hrun concurrentDelete
      (tsOperationInit .delete 1 []) rfl ⟨by decide, fun h => by cases h⟩ (by decide) hstart
      hversion hmax
  exact ⟨tc, tn, r, hrun, hproc, hkeep⟩

end TermSync
