import TermSync.Proofs.ConvergenceProofs
import TermSync.Proofs.IntentionProofs
import TermSync.Proofs.PipelineProofs

/-!
# Proofs: consecutive typing

The server's document is a traced document whose occurrences are those of the accepted operations
(`OccsFollow`). An operation of a queue keeps its position while remote operations are applied, so where
the second of two typed characters ends up depends on where the first one stood at its base version
(`FindsTyping`); once both are in the text, no later operation changes their order.
-/

namespace TermSync

open Foundations

theorem commitEdits_append (occs : List Occurrence) (acks later : List TsMessage) :
    commitEdits occs (acks ++ later) = commitEdits occs acks ++
      commitEdits (acks.foldl (fun occs ack => applyOcc ack.op ack.version occs) occs) later := by
  induction acks generalizing occs with
  | nil => rfl
  | cons ack acks ih => simp only [List.cons_append, commitEdits, ih, List.foldl_cons]

theorem drop_take_append {α : Type*} {l : List α} {b v w : ℕ} (hbv : b ≤ v) (hvw : v ≤ w)
    (hv : v ≤ l.length) : (l.take w).drop b = (l.take v).drop b ++ (l.take w).drop v := by
  have hsplit : l.take w = l.take v ++ (l.take w).drop v := by
    conv_lhs => rw [← List.take_append_drop v (l.take w), List.take_take, min_eq_left hvw]
  conv_lhs => rw [hsplit]
  rw [List.drop_append_of_le_length (by rw [List.length_take]; omega)]

theorem mem_zip_tail {α : Type*} {l : List α} {pair : α × α} :
    pair ∈ l.zip l.tail ↔ ∃ k : ℕ, l[k]? = some pair.1 ∧ l[k + 1]? = some pair.2 := by
  rw [List.mem_iff_getElem?]
  simp only [List.getElem?_zip_eq_some, List.getElem?_tail]

/-- Of two neighbours in a list without repetition, the second one is not left of the first one. -/
theorem notMem_of_follows {α : Type*} {before after : List α} {a b : α} {k : ℕ}
    (hnodup : (before ++ a :: after).Nodup) (ha : (before ++ a :: after)[k]? = some a)
    (hb : (before ++ a :: after)[k + 1]? = some b) : b ∉ before := by
  intro hmem
  obtain ⟨n, hn, rfl⟩ := List.getElem_of_mem hmem
  have hmid : before.length < (before ++ a :: after).length := by simp
  have hk : before.length = k := by
    refine (List.getElem?_inj hmid hnodup).mp ?_
    rw [ha, List.getElem?_append_right le_rfl, Nat.sub_self]
    rfl
  have hnext : n = k + 1 := by
    refine (List.getElem?_inj (hn.trans hmid) hnodup).mp ?_
    rw [hb, List.getElem?_append_left hn, List.getElem?_eq_getElem hn]
  omega

/-- The ids of the queued operations are those of the processed ones and of those that wait. -/
theorem Pipeline.queued_opIds {ps : List Processed} {c : Conn} (h : Pipeline ps c) :
    c.queued.map TsPendingOperation.opId = (ps.map fun p => p.message.opId) ++
      ((opsOf c.toServer).map TsMessage.opId ++ c.client.queue.map TsPendingOperation.opId) := by
  have hqueue := congrArg (List.map Prod.fst) h.queue
  rw [h.sent] at hqueue
  simpa only [List.map_append, List.map_map, Function.comp_def, List.append_assoc] using hqueue.symm

namespace Sys

/-! ## The occurrences of a text -/

theorem occsAt_eq_foldl (s : Sys) (cs : List Char) {b v : ℤ} (hbv : b ≤ v) :
    s.occsAt cs v = (((s.commits.take v.toNat).drop b.toNat).map Prod.snd).foldl
      (fun occs ack => applyOcc ack.op ack.version occs) (s.occsAt cs b) := by
  have htake : s.commits.take b.toNat = (s.commits.take v.toNat).take b.toNat := by
    rw [List.take_take, min_eq_left (Int.toNat_le_toNat hbv)]
  rw [occsAt, occsAt, ← List.foldl_append, ← List.map_append, htake, List.take_append_drop]

theorem editsBetween_append (s : Sys) (cs : List Char) {b v w : ℤ} (hbv : b ≤ v) (hvw : v ≤ w)
    (hv : v.toNat ≤ s.commits.length) :
    s.editsBetween cs b w = s.editsBetween cs b v ++ s.editsBetween cs v w := by
  rw [editsBetween, editsBetween, editsBetween, drop_take_append (Int.toNat_le_toNat hbv)
    (Int.toNat_le_toNat hvw) hv, List.map_append, commitEdits_append, ← occsAt_eq_foldl s cs hbv]

theorem editsBetween_self (s : Sys) (cs : List Char) (b : ℤ) : s.editsBetween cs b b = [] := by
  rw [editsBetween, List.drop_eq_nil_of_le (List.length_take_le _ _)]
  rfl

/-- The text at an old version keeps its occurrences. -/
theorem occsAt_of_extends {s s' : Sys} (cs : List Char) {v : ℤ} (h : s.commits <+: s'.commits)
    (hv : v.toNat ≤ s.commits.length) : s'.occsAt cs v = s.occsAt cs v := by
  obtain ⟨new, hnew⟩ := h
  rw [occsAt, occsAt, ← hnew, List.take_append_of_le_length hv]

theorem editsBetween_of_extends {s s' : Sys} (cs : List Char) {b v : ℤ} (hbv : b ≤ v)
    (h : s.commits <+: s'.commits) (hv : v.toNat ≤ s.commits.length) :
    s'.editsBetween cs b v = s.editsBetween cs b v := by
  have hb : b.toNat ≤ s.commits.length := (Int.toNat_le_toNat hbv).trans hv
  obtain ⟨new, hnew⟩ := h
  rw [editsBetween, editsBetween, occsAt_of_extends cs ⟨new, hnew⟩ hb, ← hnew,
    List.take_append_of_le_length hv]

/-- The traced document of the server. -/
def tracedDocument (s : Sys) (cs : List Char) : TracedDocument :=
  ⟨s.server.document, s.occsAt cs s.server.document.version⟩

/-- The occurrences follow the document: the edits since every version lead to its text. -/
structure OccsFollow (cs : List Char) (s : Sys) : Prop where
  traced : Traced (s.tracedDocument cs)
  since : ∀ b, 0 ≤ b → b ≤ s.server.document.version → ∃ old : TracedDocument, Traced old ∧
    old.doc.version = b ∧ old.occs = s.occsAt cs b ∧
      EditsSince old (s.tracedDocument cs) (s.editsBetween cs b s.server.document.version)

theorem occsFollow_init {cs : List Char} (hcs : ∀ c ∈ cs, c ≠ '\x00') (limit : ℕ) (path : Bytes) :
    OccsFollow cs (init (Utf8.encode cs) limit path) := by
  have htraced : Traced ((init (Utf8.encode cs) limit path).tracedDocument cs) := traced_init hcs limit
  refine ⟨htraced, fun b hb hb' => ⟨_, htraced, ?_, ?_, ?_⟩⟩
  all_goals
    obtain rfl : b = 0 := le_antisymm hb' hb
  · rfl
  · rfl
  · exact editsSince_self htraced

/-- The operation of a commit was queued. -/
theorem CommitStep.exists_queued {s s' : Sys} {i : ℕ} {message : TsMessage} {updated : Bytes}
    (hc : CommitStep s s' i message updated) (hp : Pipeline (s.processedBy i) (s.conns i)) :
    ∃ p ∈ (s.conns i).queued, p.opId = message.opId ∧ p.op = message.op := by
  exact hp.exists_queued_of_op (List.mem_of_head? hc.head) hc.type

/-- The newest commit. -/
theorem drop_commits {s s' : Sys} {commit : ℕ × TsMessage} (hl : Logged s)
    (hcommits : s'.commits = s.commits ++ [commit]) :
    (s'.commits.take (s.server.document.version + 1).toNat).drop s.server.document.version.toNat =
      [commit] := by
  have hlength := hl.length
  rw [hcommits, List.take_of_length_le (by rw [List.length_append, List.length_singleton]; omega),
    show s.server.document.version.toNat = s.commits.length by omega, List.drop_left]

/-- What a commit does to the occurrences. -/
theorem CommitStep.occsAt {s s' : Sys} {i : ℕ} {message : TsMessage} {updated : Bytes}
    (hc : CommitStep s s' i message updated) (hl : Logged s) (cs : List Char) :
    s'.occsAt cs (s.server.document.version + 1) =
      applyOcc (transformedOp s.server.document message.baseVersion message.op)
        (s.server.document.version + 1) (s.occsAt cs s.server.document.version) := by
  have hlength := hl.length
  have hversion : s'.server.document.version = s.server.document.version + 1 := by
    rw [hc.document, acceptedDocument_version]
  rw [occsAt_eq_foldl s' cs (show s.server.document.version ≤ s.server.document.version + 1 by omega),
    drop_commits hl hc.commits, occsAt_of_extends cs ⟨_, hc.commits.symm⟩ (by omega), ← hversion]
  rfl

theorem CommitStep.editsBetween {s s' : Sys} {i : ℕ} {message : TsMessage} {updated : Bytes}
    (hc : CommitStep s s' i message updated) (hl : Logged s) (cs : List Char) {b : ℤ}
    (hb : b ≤ s.server.document.version) :
    s'.editsBetween cs b (s.server.document.version + 1) =
      s.editsBetween cs b s.server.document.version ++
        [occEdit (transformedOp s.server.document message.baseVersion message.op)
          (s.server.document.version + 1) (s.occsAt cs s.server.document.version)] := by
  have hlength := hl.length
  have hpre : s.commits <+: s'.commits := ⟨_, hc.commits.symm⟩
  have hversion : s'.server.document.version = s.server.document.version + 1 := by
    rw [hc.document, acceptedDocument_version]
  have hle := hpre.length_le
  rw [editsBetween_append s' cs hb (show s.server.document.version ≤ s.server.document.version + 1
      by omega) (by omega), editsBetween_of_extends cs hb hpre (by omega)]
  congr 1
  rw [Sys.editsBetween, drop_commits hl hc.commits, occsAt_of_extends cs hpre (by omega), ← hversion]
  rfl

/-- The document after a commit, with its occurrences. -/
theorem CommitStep.tracedDocument {s s' : Sys} {i : ℕ} {message : TsMessage} {updated : Bytes}
    {cs : List Char} (hc : CommitStep s s' i message updated) (hl : Logged s)
    (htraced : Traced (s.tracedDocument cs)) :
    s'.tracedDocument cs =
      { doc := acceptedDocument s.server.document
          (acceptedEntry s.server.document (s.conns i).peer.clientId message.opId
            message.baseVersion message.op)
          (occText (applyOcc (transformedOp s.server.document message.baseVersion message.op)
            (s.server.document.version + 1) (s.occsAt cs s.server.document.version)))
        occs := applyOcc (transformedOp s.server.document message.baseVersion message.op)
          (s.server.document.version + 1) (s.occsAt cs s.server.document.version) } := by
  have hupdated := Option.some.inj
    (hc.apply.symm.trans (htraced.apply _ (s.server.document.version + 1)))
  rw [Sys.tracedDocument, hc.document, acceptedDocument_version, hc.occsAt hl, hupdated]
  rfl

theorem OccsFollow.step {s s' : Sys} {a : Action} {cs : List Char} (hs : OccsFollow cs s)
    (hl : Logged s) (hp : ∀ j, Pipeline (s.processedBy j) (s.conns j)) (hq : QueuesWellFormed s)
    (h : s.step a = some s') : OccsFollow cs s' := by
  rcases commit_cases h with ⟨hcommits, hdoc⟩ | ⟨i, message, updated, -, hc⟩
  · have hoccs (v : ℤ) : s'.occsAt cs v = s.occsAt cs v := by rw [occsAt, occsAt, hcommits]
    have hedits (b v : ℤ) : s'.editsBetween cs b v = s.editsBetween cs b v := by
      rw [editsBetween, editsBetween, hcommits, hoccs]
    have hsame : s'.tracedDocument cs = s.tracedDocument cs := by
      rw [Sys.tracedDocument, Sys.tracedDocument, hdoc, hoccs]
    refine ⟨hsame ▸ hs.traced, fun b hb hb' => ?_⟩
    rw [hsame, hoccs, hedits, hdoc]
    exact hs.since b hb (hdoc ▸ hb')
  · obtain ⟨p, hqueued, -, hop⟩ := hc.exists_queued (hp i)
    have hlength := hl.length
    have hversion : s'.server.document.version = s.server.document.version + 1 := by
      rw [hc.document, acceptedDocument_version]
    have hnorm : Normalized (transformedOp s.server.document message.baseVersion message.op)
        (s.occsAt cs s.server.document.version).length :=
      hs.traced.charCount ▸ normalized_normalizeForApply _ _
    have htraced : Traced (s'.tracedDocument cs) := by
      rw [hc.tracedDocument hl hs.traced]
      refine hs.traced.accepted rfl fun hk => ?_
      obtain ⟨hkind, hch⟩ := transformedOp_insert hk
      exact (show _ = message.op.ch from hch) ▸ (hop ▸ hq i p hqueued).2 hkind
    refine ⟨htraced, fun b hb hb' => ?_⟩
    rw [hversion] at hb' ⊢
    rcases (show b ≤ s.server.document.version ∨ b = s.server.document.version + 1 by omega) with
      hle | rfl
    · obtain ⟨old, hold, hbase, hoccs, hedits⟩ := hs.since b hb hle
      refine ⟨old, hold, hbase, ?_, ?_⟩
      · rw [occsAt_of_extends cs ⟨_, hc.commits.symm⟩ (by omega)]
        exact hoccs
      · rw [hc.tracedDocument hl hs.traced, hc.editsBetween hl cs hle]
        exact hedits.accepted hs.traced (by rw [hbase]; exact hle) rfl hnorm _
    · refine ⟨_, htraced, hversion, by rw [Sys.tracedDocument, hversion], ?_⟩
      rw [editsBetween_self]
      exact editsSince_self htraced

/-! ## The queue of a client -/

/-- Only operations with a position that can be sent are queued. -/
def QueuesSendable (s : Sys) : Prop := ∀ j, ∀ p ∈ (s.conns j).queued, (p.op.pos : ℤ) ≤ intMax

theorem QueuesSendable.step {s s' : Sys} {a : Action} (hs : QueuesSendable s) (hw : Wired s)
    (ha : a.Sendable) (h : s.step a = some s') : QueuesSendable s' :=
  forall_queued_step (P := fun op => (op.pos : ℤ) ≤ intMax) hw h hs fun _ _ hkey => by
    rw [hkey] at ha
    exact ha

/-- What was typed before the second operation was queued has not changed since. -/
theorem typedPairs_of_queued {s s' : Sys} {i : ℕ} {pair : TsPendingOperation × TsPendingOperation}
    (hpre : (s.conns i).queued <+: (s'.conns i).queued)
    (hdistinct : ((s'.conns i).queued.map TsPendingOperation.opId).Nodup)
    (hpair : pair ∈ s'.typedPairs i)
    (hold : pair.2.opId ∈ (s.conns i).queued.map TsPendingOperation.opId) :
    pair ∈ s.typedPairs i := by
  obtain ⟨hzip, htyped⟩ := List.mem_filter.mp hpair
  refine List.mem_filter.mpr ⟨?_, htyped⟩
  obtain ⟨k, hfirst, hsecond⟩ := mem_zip_tail.mp hzip
  obtain ⟨new, hnew⟩ := hpre
  obtain ⟨n, hn, hid⟩ := List.getElem_of_mem hold
  rw [List.length_map] at hn
  have hsame : k + 1 = n := by
    refine (List.getElem?_inj (l := (s'.conns i).queued.map TsPendingOperation.opId) ?_ hdistinct).mp
      ?_
    · rw [List.length_map]
      exact (List.getElem?_eq_some_iff.mp hsecond).1
    · rw [List.getElem?_map, hsecond, ← hnew, List.getElem?_map, List.getElem?_append_left hn,
        List.getElem?_eq_getElem hn]
      simpa using hid.symm
  rw [← hnew] at hfirst hsecond
  rw [List.getElem?_append_left (by omega)] at hfirst hsecond
  exact mem_zip_tail.mpr ⟨k, hfirst, hsecond⟩

/-- What has been committed has been processed. -/
theorem Reached.opId_of_commit {s : Sys} (hs : Reached s) {i : ℕ} {ack : TsMessage}
    (h : ack ∈ s.commitsOf i) : ack.opId ∈ (s.processedBy i).map fun p => p.message.opId := by
  rw [commitsOf_eq] at h
  obtain ⟨p, hp, hack⟩ := List.mem_filterMap.mp h
  have hok := hs.processed p (List.mem_filter.mp hp).1
  have hstatus : p.result.status = .ok := by
    by_contra hne
    rw [hok.other hne] at hack
    cases hack
  obtain ⟨ack', hack', hid, -⟩ := hok.ok hstatus
  obtain rfl := Option.some.inj (hack'.symm.trans hack)
  exact hid ▸ List.mem_map_of_mem (f := fun p : Processed => p.message.opId) hp

/-- The second of two typed characters is not processed before the first one. -/
theorem second_not_processed {s : Sys} {i : ℕ} (h : Pipeline (s.processedBy i) (s.conns i))
    {message : TsMessage} {pair : TsPendingOperation × TsPendingOperation}
    (hpair : pair ∈ s.typedPairs i) (hhead : (s.conns i).toServer.head? = some message)
    (htype : message.type = typeOp) (hid : pair.1.opId = message.opId) :
    pair.2.opId ∉ (s.processedBy i).map fun p => p.message.opId := by
  obtain ⟨k, hfirst, hsecond⟩ := mem_zip_tail.mp (List.mem_filter.mp hpair).1
  obtain ⟨rest, hin⟩ := List.head?_eq_some_iff.mp hhead
  have hids := h.queued_opIds
  rw [hin, opsOf_cons_of_type htype, List.map_cons, List.cons_append] at hids
  have hget (n : ℕ) {p : TsPendingOperation} (hp : (s.conns i).queued[n]? = some p) :
      ((s.conns i).queued.map TsPendingOperation.opId)[n]? = some p.opId := by
    rw [List.getElem?_map, hp, Option.map_some]
  exact notMem_of_follows (hids ▸ h.distinct) (by rw [← hids, hget k hfirst, hid])
    (by rw [← hids, hget (k + 1) hsecond])

/-- The ACKs of an operation after a commit. -/
theorem CommitStep.mem_acksOf {s s' : Sys} {i j : ℕ} {message ack : TsMessage} {updated opId : Bytes}
    (hc : CommitStep s s' i message updated) (h : ack ∈ s'.acksOf j opId) :
    ack ∈ s.acksOf j opId ∨ i = j ∧ ack.opId = opId ∧
      ack = okAck s'.server.document (s.conns i).peer.clientId message.opId message.baseVersion
        message.op (transformedOp s.server.document message.baseVersion message.op) := by
  obtain ⟨hmem, hid⟩ := List.mem_filter.mp h
  rw [commitsOf, hc.commits, List.filter_append, List.map_append] at hmem
  rcases List.mem_append.mp hmem with hmem | hmem
  · exact Or.inl (List.mem_filter.mpr ⟨hmem, hid⟩)
  · obtain ⟨commit, hcommit, rfl⟩ := List.mem_map.mp hmem
    obtain ⟨hsingle, hconn⟩ := List.mem_filter.mp hcommit
    obtain rfl := List.mem_singleton.mp hsingle
    exact Or.inr ⟨of_decide_eq_true hconn, of_decide_eq_true hid, rfl⟩

/-- The version of an ACK is one that the document has reached. -/
theorem Logged.version_of_commit {s : Sys} (hs : Logged s) {i : ℕ} {opId : Bytes} {ack : TsMessage}
    (h : ack ∈ s.acksOf i opId) : 1 ≤ ack.version ∧ ack.version ≤ s.server.document.version := by
  obtain ⟨commit, hcommit, rfl⟩ := List.mem_map.mp (List.mem_filter.mp h).1
  obtain ⟨hpos, hle, -⟩ := hs.textAt_commit (List.mem_filter.mp hcommit).1
  exact ⟨hpos, hle⟩

/-! ## Order -/

/-- An occurrence that is in the text has been in every text since its version. -/
theorem OccsFollow.mem_occsAt {s : Sys} {cs : List Char} (hs : OccsFollow cs s) {ack : TsMessage}
    (hmem : occurrenceOf ack ∈ s.occsAt cs s.server.document.version) {v : ℤ} (hv : 0 ≤ v)
    (hack : ack.version ≤ v) (hle : v ≤ s.server.document.version) :
    occurrenceOf ack ∈ s.occsAt cs v := by
  obtain ⟨old, -, hbase, hoccs, hedits⟩ := hs.since v hv hle
  have happlied : applyEdits _ old.occs = s.occsAt cs s.server.document.version := hedits.applied
  rw [← happlied] at hmem
  rcases mem_applyEdits hmem with hnew | hold
  · obtain ⟨w, hid, hlt, -⟩ := hedits.new _ hnew
    rw [occurrenceOf, OccId.inserted.injEq] at hid
    omega
  · exact hoccs ▸ hold

/-- Where an INSERT puts its character compared with one that has been inserted before. -/
theorem OccsFollow.order {s : Sys} {cs : List Char} (hs : OccsFollow cs s) (hl : Logged s)
    {message first : TsMessage} (haccepts : s.server.document.Accepts message)
    (hkind : message.op.kind = .insert) (hpos : (message.op.pos : ℤ) ≤ intMax)
    (hmax : s.server.document.version < intMax)
    (hfirst : first.version ≤ s.server.document.version)
    (hmem : occurrenceOf first ∈ s.occsAt cs s.server.document.version)
    (hfinds : (s.occsAt cs (max message.baseVersion first.version)).idxOf (occurrenceOf first) <
      carryGaps (s.editsBetween cs message.baseVersion (max message.baseVersion first.version))
        message.op.pos) :
    (applyOcc (transformedOp s.server.document message.baseVersion message.op)
        (s.server.document.version + 1) (s.occsAt cs s.server.document.version)).idxOf
          (occurrenceOf first) <
      (applyOcc (transformedOp s.server.document message.baseVersion message.op)
        (s.server.document.version + 1) (s.occsAt cs s.server.document.version)).idxOf
          (.inserted (s.server.document.version + 1), message.op.ch) := by
  obtain ⟨-, -, -, hstart, hbase⟩ := haccepts
  have hnonneg : 0 ≤ message.baseVersion := by
    have := hl.window.start
    have := hl.window.length
    omega
  have hlength := hl.length
  have hle : max message.baseVersion first.version ≤ s.server.document.version := max_le hbase hfirst
  have hleft : message.baseVersion ≤ max message.baseVersion first.version := le_max_left ..
  obtain ⟨old, -, hold, -, hedits⟩ := hs.since message.baseVersion hnonneg hbase
  obtain ⟨mid, hmid, -, hoccs, hlater⟩ := hs.since _ (hnonneg.trans hleft) hle
  -- the first occurrence is left of the position that all edits since the base version have moved
  have hcarried : (s.occsAt cs s.server.document.version).idxOf (occurrenceOf first) <
      carryGaps (s.editsBetween cs message.baseVersion s.server.document.version) message.op.pos := by
    have happlied : applyEdits _ mid.occs = s.occsAt cs s.server.document.version := hlater.applied
    have hthere := hs.mem_occsAt hmem (hnonneg.trans hleft) (le_max_right ..) hle
    rw [editsBetween_append s cs hleft hle (by omega), carryGaps_append]
    rw [← happlied] at hmem ⊢
    refine (idxOf_applyEdits_lt_iff hlater.inRange (hlater.nodup hmid) (hoccs ▸ hthere) hmem _).mpr ?_
    rw [hoccs]
    exact hfinds
  have hfit : message.op.pos +
      (s.editsBetween cs message.baseVersion s.server.document.version).length < sizeModulus := by
    have hcount : ((s.editsBetween cs message.baseVersion s.server.document.version).length : ℤ) =
        s.server.document.version - old.doc.version := hedits.length
    simp only [intMax, sizeModulus] at *
    omega
  have hiff := idxOf_applyOcc_lt_iff hedits hs.traced hkind (hold ▸ hstart) hfit
    (show s.server.document.version < s.server.document.version + 1 by omega) hmem
  rw [hold] at hiff
  exact hiff.mpr hcarried

/-- A commit brings in no occurrence of an older version. -/
theorem CommitStep.mem_occsAt {s s' : Sys} {cs : List Char} {i : ℕ} {message ack : TsMessage}
    {updated : Bytes} (hc : CommitStep s s' i message updated) (hl : Logged s)
    (hack : ack.version ≤ s.server.document.version)
    (hin : occurrenceOf ack ∈ s'.occsAt cs (s.server.document.version + 1)) :
    occurrenceOf ack ∈ s.occsAt cs s.server.document.version := by
  rw [hc.occsAt hl] at hin
  rcases mem_applyOcc hin with ⟨-, hnew⟩ | hin
  · have hid : ack.version = s.server.document.version + 1 := OccId.inserted.inj (Prod.mk.inj hnew).1
    omega
  · exact hin

/-- A commit keeps the order of the occurrences that are left. -/
theorem OccsFollow.keepsOrder {s s' : Sys} {cs : List Char} {i : ℕ} {message : TsMessage}
    {updated : Bytes} (hs : OccsFollow cs s) (hl : Logged s) (hc : CommitStep s s' i message updated)
    {first second : TsMessage} (hfirst : first.version ≤ s.server.document.version)
    (hsecond : second.version ≤ s.server.document.version)
    (hmem : occurrenceOf first ∈ s'.occsAt cs (s.server.document.version + 1))
    (hmem' : occurrenceOf second ∈ s'.occsAt cs (s.server.document.version + 1)) :
    (s'.occsAt cs (s.server.document.version + 1)).idxOf (occurrenceOf first) <
        (s'.occsAt cs (s.server.document.version + 1)).idxOf (occurrenceOf second) ↔
      (s.occsAt cs s.server.document.version).idxOf (occurrenceOf first) <
        (s.occsAt cs s.server.document.version).idxOf (occurrenceOf second) := by
  have hnorm : Normalized (transformedOp s.server.document message.baseVersion message.op)
      (s.occsAt cs s.server.document.version).length :=
    hs.traced.charCount ▸ normalized_normalizeForApply _ _
  have hnext : (acceptedEntry s.server.document (s.conns i).peer.clientId message.opId
      message.baseVersion message.op).serverVersion = s.server.document.version + 1 := rfl
  have hkeeps := keepsOrder_of_editsSince
    ((editsSince_self hs.traced).accepted hs.traced le_rfl hnext hnorm updated) hs.traced
  have hthere := hc.mem_occsAt hl hfirst hmem
  have hthere' := hc.mem_occsAt hl hsecond hmem'
  rw [hc.occsAt hl] at hmem hmem' ⊢
  exact hkeeps _ _ hthere hthere' hmem hmem'

/-- What holds of the typed characters in every reached state. -/
structure Typing (cs : List Char) (s : Sys) : Prop where
  reached : Reached s
  wellFormed : QueuesWellFormed s
  sendable : QueuesSendable s
  follows : OccsFollow cs s
  keeps : s.KeepsTyping cs

/-- The two operations of a pair have different ids. -/
theorem typedPairs_ne {ps : List Processed} {s : Sys} {i : ℕ} (h : Pipeline ps (s.conns i))
    {pair : TsPendingOperation × TsPendingOperation} (hpair : pair ∈ s.typedPairs i) :
    pair.1.opId ≠ pair.2.opId := by
  intro heq
  obtain ⟨k, hget, hget'⟩ := mem_zip_tail.mp (List.mem_filter.mp hpair).1
  have hlt := (List.getElem?_eq_some_iff.mp hget).1
  have hsame : k = k + 1 := (List.getElem?_inj (by rwa [List.length_map]) h.distinct).mp (by
    rw [List.getElem?_map, List.getElem?_map, hget, hget', Option.map_some, Option.map_some, heq])
  omega

/-- What is committed has been processed, and it was queued. -/
theorem Reached.processed_of_acksOf {s : Sys} (hs : Reached s) {i : ℕ} {opId : Bytes}
    {ack : TsMessage} (hack : ack ∈ s.acksOf i opId) :
    opId ∈ (s.processedBy i).map fun p => p.message.opId := by
  obtain ⟨hmem, hid⟩ := List.mem_filter.mp hack
  exact of_decide_eq_true hid ▸ hs.opId_of_commit hmem

theorem Reached.queued_of_acksOf {s : Sys} (hs : Reached s) {i : ℕ} {opId : Bytes}
    {ack : TsMessage} (hack : ack ∈ s.acksOf i opId) :
    opId ∈ (s.conns i).queued.map TsPendingOperation.opId := by
  rw [(hs.pipeline i).queued_opIds]
  exact List.mem_append_left _ (hs.processed_of_acksOf hack)

/-- The commit of the second of two typed characters puts it right of the first one. -/
theorem Typing.commit_second {s s' : Sys} {cs : List Char} {j : ℕ} {message first : TsMessage}
    {updated : Bytes} (hs : Typing cs s) (hc : CommitStep s s' j message updated)
    (hfinds : s.FindsTyping cs (.serve j))
    {pair : TsPendingOperation × TsPendingOperation} (hpair : pair ∈ s.typedPairs j)
    (hmessage : pair.2.opId = message.opId) (hfirst : first ∈ s.acksOf j pair.1.opId)
    (hin : occurrenceOf first ∈ s'.occsAt cs (s.server.document.version + 1))
    (hin' : (.inserted (s.server.document.version + 1), (transformedOp s.server.document
      message.baseVersion message.op).ch) ∈ s'.occsAt cs (s.server.document.version + 1)) :
    (s'.occsAt cs (s.server.document.version + 1)).idxOf (occurrenceOf first) <
      (s'.occsAt cs (s.server.document.version + 1)).idxOf
        (.inserted (s.server.document.version + 1), (transformedOp s.server.document
          message.baseVersion message.op).ch) := by
  have hl := hs.reached.logged
  have hp := hs.reached.pipeline j
  -- the message carries the second operation as it was queued
  obtain ⟨p, hqueued, hopId, hop⟩ := hc.exists_queued hp
  obtain ⟨hzip, htyped⟩ := List.mem_filter.mp hpair
  obtain ⟨-, hkind, -⟩ := of_decide_eq_true htyped
  obtain ⟨k, -, hget⟩ := mem_zip_tail.mp hzip
  obtain rfl : p = pair.2 := List.inj_on_of_nodup_map hp.distinct hqueued
    (List.mem_of_getElem? hget) (hopId.trans hmessage.symm)
  obtain ⟨-, hle⟩ := hl.version_of_commit hfirst
  have hthere := hc.mem_occsAt hl hle hin
  have haccepts : s.server.document.Accepts message :=
    ⟨hc.type, hc.hasOp, hc.acceptable, hc.start_le, hc.le_version⟩
  have horder := hs.follows.order hl haccepts (hop ▸ hkind) (hop ▸ hs.sendable j _ hqueued)
    hc.lt_max hle hthere
    (hfinds hc.thread hc.phase message hc.head haccepts pair hpair hmessage first hfirst hthere)
  have hch : (transformedOp s.server.document message.baseVersion message.op).ch =
      message.op.ch := by
    rw [hc.occsAt hl] at hin'
    rcases mem_applyOcc hin' with ⟨hk, -⟩ | hmem
    · exact (transformedOp_insert hk).2
    · have hlate : s.server.document.version + 1 ≤ s.server.document.version :=
        hs.follows.traced.old _ hmem _ rfl
      omega
  rw [hch, hc.occsAt hl]
  exact horder

theorem Typing.keeps_commit {s s' : Sys} {cs : List Char} {j : ℕ} {message : TsMessage}
    {updated : Bytes} (hs : Typing cs s) (hc : CommitStep s s' j message updated)
    (hfinds : s.FindsTyping cs (.serve j))
    (hpairs : ∀ i, ∀ pair ∈ s'.typedPairs i,
      pair.2.opId ∈ (s.conns i).queued.map TsPendingOperation.opId → pair ∈ s.typedPairs i) :
    s'.KeepsTyping cs := by
  intro i pair hpair first hfirst second hsecond
  have hl := hs.reached.logged
  have hversion : s'.server.document.version = s.server.document.version + 1 := by
    rw [hc.document, acceptedDocument_version]
  have hid : snprintf tsMaxOpId message.opId = message.opId := by
    obtain ⟨p, hp, hopId, -⟩ := hc.exists_queued (hs.reached.pipeline j)
    exact hopId ▸ (hs.reached.pipeline j).snprintf_opId hp
  rw [hversion]
  intro occs hin hin'
  rcases hc.mem_acksOf hsecond with hsecond | ⟨rfl, hsecondId, rfl⟩
  · have hpair' := hpairs i pair hpair (hs.reached.queued_of_acksOf hsecond)
    rcases hc.mem_acksOf hfirst with hfirst | ⟨rfl, hfirstId, rfl⟩
    · obtain ⟨-, hle⟩ := hl.version_of_commit hfirst
      obtain ⟨-, hle'⟩ := hl.version_of_commit hsecond
      exact (hs.follows.keepsOrder hl hc hle hle' hin hin').mpr
        (hs.keeps i pair hpair' first hfirst second hsecond (hc.mem_occsAt hl hle hin)
          (hc.mem_occsAt hl hle' hin'))
    · -- the first one cannot be committed after the second one
      exact absurd (hs.reached.processed_of_acksOf hsecond)
        (second_not_processed (hs.reached.pipeline j) hpair' hc.head hc.type
          (hfirstId.symm.trans hid))
  · have hmessage : pair.2.opId = message.opId := hsecondId.symm.trans hid
    obtain ⟨p, hp, hopId, -⟩ := hc.exists_queued (hs.reached.pipeline j)
    have hpair' := hpairs j pair hpair (hmessage ▸ hopId ▸ List.mem_map_of_mem hp)
    rcases hc.mem_acksOf hfirst with hfirst | ⟨-, hfirstId, rfl⟩
    · simp only [occurrenceOf, okAck, hversion] at hin' ⊢
      exact hs.commit_second hc hfinds hpair' hmessage hfirst hin hin'
    · exact absurd (hfirstId.symm.trans hsecondId) (typedPairs_ne (hs.reached.pipeline j) hpair')

theorem Typing.step {s s' : Sys} {a : Action} {cs : List Char} (hs : Typing cs s)
    (hwf : a.WellFormed) (hsend : a.Sendable) (hfinds : s.FindsTyping cs a)
    (h : s.step a = some s') : Typing cs s' := by
  have hreached := hs.reached.step h
  have hpairs (i : ℕ) (pair : TsPendingOperation × TsPendingOperation)
      (hpair : pair ∈ s'.typedPairs i)
      (hqueued : pair.2.opId ∈ (s.conns i).queued.map TsPendingOperation.opId) :
      pair ∈ s.typedPairs i := by
    have hpre : (s.conns i).queued <+: (s'.conns i).queued := by
      rcases queued_step hs.reached.wired h i with hsame | ⟨op, -, hnew⟩
      · rw [hsame]
      · rw [hnew]
        exact List.prefix_append ..
    exact typedPairs_of_queued hpre (hreached.pipeline i).distinct hpair hqueued
  refine
    { reached := hreached
      wellFormed := hs.wellFormed.step hs.reached.wired hwf h
      sendable := hs.sendable.step hs.reached.wired hsend h
      follows := hs.follows.step hs.reached.logged hs.reached.pipeline hs.wellFormed h
      keeps := ?_ }
  rcases commit_cases h with ⟨hcommits, hdoc⟩ | ⟨j, message, updated, rfl, hc⟩
  · intro i pair hpair first hfirst second hsecond
    have hacks (opId : Bytes) : s'.acksOf i opId = s.acksOf i opId := by
      rw [acksOf, acksOf, commitsOf, commitsOf, hcommits]
    have hoccs : s'.occsAt cs s.server.document.version = s.occsAt cs s.server.document.version := by
      rw [occsAt, occsAt, hcommits]
    rw [hacks] at hfirst hsecond
    rw [hdoc, hoccs]
    exact hs.keeps i pair (hpairs i pair hpair (hs.reached.queued_of_acksOf hsecond)) first hfirst
      second hsecond
  · exact hs.keeps_commit hc hfinds hpairs

/-! ## Runs -/

theorem typing_init {cs : List Char} (hcs : ∀ c ∈ cs, c ≠ '\x00') (limit : ℕ) (path : Bytes) :
    Typing cs (init (Utf8.encode cs) limit path) where
  reached := reached_init _ _ _
  wellFormed _ _ hp := absurd hp List.not_mem_nil
  sendable _ _ hp := absurd hp List.not_mem_nil
  follows := occsFollow_init hcs limit path
  keeps _ _ hpair := absurd hpair List.not_mem_nil

/-- As long as the server always finds the first of two characters typed one after the other left of the
position of the second one, or not at all, they stand in this order in every text that contains both. -/
theorem typing_in_order (cs : List Char) (hcs : ∀ c ∈ cs, c ≠ '\x00') (limit : ℕ) (path : Bytes)
    (actions : List Action) (s : Sys)
    (hrun : run Sys.step (init (Utf8.encode cs) limit path) actions = some s)
    (hwf : ∀ a ∈ actions, a.WellFormed) (hsend : ∀ a ∈ actions, a.Sendable)
    (hfinds : Guarded Sys.step (fun s a => s.FindsTyping cs a) (init (Utf8.encode cs) limit path)
      actions) :
    s.server.document.text = occText (s.occsAt cs s.server.document.version) ∧ s.KeepsTyping cs := by
  have hguard := (hfinds.and (Guarded.of_forall hwf)).and (Guarded.of_forall hsend)
  have htyping := run_invariant_of_guarded (P := Typing cs)
    (fun _ _ _ hs hg h => hs.step hg.1.2 hg.2 hg.1.1 h) (typing_init hcs limit path) hguard hrun
  exact ⟨htyping.follows.traced.text, htyping.keeps⟩

/-- The first client types `x` and `y`; the second client's `z` is committed between the two. -/
def typedAroundRemote : List Action :=
  List.flatten [
    [.key 0 (tsOperationInit .insert 0 (bytes "x")), .key 0 (tsOperationInit .insert 1 (bytes "y")),
      .key 1 (tsOperationInit .insert 0 (bytes "z"))],
    List.replicate 4 (.serve 0), [.deliver 0, .serve 1], List.replicate 4 (.serve 0)]

theorem typing_in_order_around :
    ∃ s, run Sys.step (init (Utf8.encode []) 10 (bytes "f")) (bothJoin ++ typedAroundRemote) = some s ∧
      s.server.document.text = bytes "xzy" ∧ s.KeepsTyping [] := by
  have hany : (run Sys.step (init (Utf8.encode []) 10 (bytes "f"))
      (bothJoin ++ typedAroundRemote)).any
      (fun s => decide (s.server.document.text = bytes "xzy")) = true := by
    decide +kernel
  have hfinds : Guarded Sys.step (fun s a => s.FindsTyping [] a)
      (init (Utf8.encode []) 10 (bytes "f")) (bothJoin ++ typedAroundRemote) := by
    decide +kernel
  have hx := wellFormed_insert (c := 'x') (by decide) 0
  have hy := wellFormed_insert (c := 'y') (by decide) 1
  have hz := wellFormed_insert (c := 'z') (by decide) 0
  obtain ⟨s, hrun, htext⟩ := (Option.any_eq_true _ _).mp hany
  refine ⟨s, hrun, of_decide_eq_true htext, (typing_in_order [] (by decide) 10 (bytes "f")
    (bothJoin ++ typedAroundRemote) s hrun ?_ (by decide +kernel) hfinds).2⟩
  simp only [bothJoin, typedAroundRemote, List.flatten_cons, List.flatten_nil, List.replicate,
    List.cons_append, List.nil_append, List.append_nil, List.forall_mem_cons, List.not_mem_nil,
    false_implies, implies_true, Action.WellFormed, and_true, true_and]
  exact ⟨hx, hy, hz⟩

/-- The remote operation is committed before both, and the client applies it while `y` waits in the
queue, where `y` keeps its position. -/
def typedOverRemote : List Action :=
  List.flatten [
    [.key 0 (tsOperationInit .insert 0 (bytes "x")), .key 0 (tsOperationInit .insert 1 (bytes "y")),
      .key 1 (tsOperationInit .insert 0 (bytes "z"))],
    List.replicate 7 (.serve 1), [.deliver 0], List.replicate 7 (.serve 0), [.deliver 0],
    List.replicate 7 (.serve 0), [.deliver 0]]

theorem not_keepsTyping_overRemote :
    ∃ s₀ s, run Sys.step (init (Utf8.encode []) 10 (bytes "f")) bothJoin = some s₀ ∧ s₀.Quiescent ∧
      s₀.Converged ∧ (∀ a ∈ typedOverRemote, a.WellFormed ∧ a.Sendable) ∧
      run Sys.step s₀ typedOverRemote = some s ∧ s.server.document.text = bytes "zyx" ∧
      ¬ s.KeepsTyping [] := by
  have hjoin : (run Sys.step (init (Utf8.encode []) 10 (bytes "f")) bothJoin).any
      (fun s₀ => decide (s₀.Quiescent ∧ s₀.Converged)) = true := by
    decide +kernel
  have hedits : (run Sys.step (init (Utf8.encode []) 10 (bytes "f"))
      (bothJoin ++ typedOverRemote)).any (fun s => decide (s.server.document.text = bytes "zyx" ∧
        ¬ ∀ pair ∈ s.typedPairs 0, ∀ first ∈ s.acksOf 0 pair.1.opId, ∀ second ∈ s.acksOf 0 pair.2.opId,
          occurrenceOf first ∈ s.occsAt [] s.server.document.version →
          occurrenceOf second ∈ s.occsAt [] s.server.document.version →
            (s.occsAt [] s.server.document.version).idxOf (occurrenceOf first) <
              (s.occsAt [] s.server.document.version).idxOf (occurrenceOf second))) = true := by
    decide +kernel
  obtain ⟨s₀, hrun₀, hs₀⟩ := (Option.any_eq_true _ _).mp hjoin
  obtain ⟨s, hrun, hs⟩ := (Option.any_eq_true _ _).mp hedits
  obtain ⟨hquiet, hconverged⟩ := of_decide_eq_true hs₀
  obtain ⟨htext, hreordered⟩ := of_decide_eq_true hs
  obtain ⟨t, ht, hrest⟩ := run_append_some.mp hrun
  obtain rfl := Option.some.inj (hrun₀.symm.trans ht)
  have hx := wellFormed_insert (c := 'x') (by decide) 0
  have hy := wellFormed_insert (c := 'y') (by decide) 1
  have hz := wellFormed_insert (c := 'z') (by decide) 0
  refine ⟨s₀, s, hrun₀, hquiet, hconverged, fun a ha => ⟨?_, ?_⟩, hrest, htext,
    fun hkeeps => hreordered (hkeeps 0)⟩
  · revert a
    simp only [typedOverRemote, List.flatten_cons, List.flatten_nil, List.replicate,
      List.cons_append, List.nil_append, List.append_nil, List.forall_mem_cons, List.not_mem_nil,
      false_implies, implies_true, Action.WellFormed, and_true]
    exact ⟨hx, hy, hz⟩
  · revert a
    decide +kernel

end Sys

end TermSync
