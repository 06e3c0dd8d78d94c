import TermSync.Proofs.HistoryProofs
import TermSync.Proofs.LineEndProofs
import TermSync.Proofs.ProtocolProofs
import TermSync.Proofs.TransportProofs

/-!
# Proofs: delivering the document

A DOC_STATE line is received if it fits the receiver's buffer, however the stream is split
(`tsTransportRecv_line`). Nothing bounds the document, so whether it can be delivered depends on the
length of its escaped text (`delivered_run_iff`).
-/

namespace TermSync

open Foundations

/-! ## Receiving one line -/

theorem tsDecodeMessage_lineOf {m : TsMessage} (hm : SentMessage m) (errorSize : ℕ) :
    tsDecodeMessage errorSize (lineOf m) =
      .ok { m with reason := foundReason m, content := printedContent m } := by
  rw [← tsDecodeMessage_encode hm, (tsEncodeMessage_eq_line m).1, tsDecodeMessage_newline]

/-- A line that fits the buffer is received, whatever is read at a time. Until it has been received,
every byte that was read belongs to it. -/
theorem tsTransportRecv_line {line : Bytes} (hline : OneLine line)
    (hfits : line.length < tsMaxLineBytes) (errorSize : ℕ) (reads : List ℕ)
    (buffer stream later : Bytes) (hstream : buffer ++ stream = line ++ 10 :: later) :
    (tsTransportRecv errorSize reads buffer stream = none ∧
        buffer.length + reads.countP (0 < ·) ≤ line.length) ∨
      ∃ rest stream', tsTransportRecv errorSize reads buffer stream =
        some (tsDecodeMessage errorSize line, rest, stream') ∧ rest ++ stream' = later := by
  induction reads generalizing buffer stream with
  | nil =>
    rcases recvRound_line hline hfits errorSize hstream with
      ⟨rest, -, hrest, hround⟩ | ⟨-, hlength, hround⟩
    · exact Or.inr ⟨rest, stream, by simp only [tsTransportRecv, hround], hrest⟩
    · exact Or.inl ⟨by simp only [tsTransportRecv, hround], hlength⟩
  | cons n reads ih =>
    rcases recvRound_line hline hfits errorSize hstream with
      ⟨rest, -, hrest, hround⟩ | ⟨-, hlength, hround⟩
    · exact Or.inr ⟨rest, stream, by simp only [tsTransportRecv, hround], hrest⟩
    · simp only [tsTransportRecv, hround]
      have hnext := ih (buffer ++ stream.take (min n (tsMaxLineBytes - buffer.length)))
        (stream.drop (min n (tsMaxLineBytes - buffer.length)))
        (by rw [List.append_assoc, List.take_append_drop, hstream])
      refine hnext.imp_left fun ⟨hnone, hcount⟩ => ⟨hnone, ?_⟩
      -- a read that returns something takes a byte of the line
      have htotal := congrArg List.length hstream
      simp only [List.length_append, List.length_take, List.length_cons, List.countP_cons,
        decide_eq_true_eq] at hcount htotal ⊢
      split_ifs <;> omega

/-! ## The line of a document -/

/-- A document whose snapshot fits the fields of a message. -/
structure Printable (doc : TsDocument) : Prop where
  start_nonneg : 0 ≤ doc.historyStartVersion
  start_le : doc.historyStartVersion ≤ doc.version
  version_le : doc.version ≤ intMax
  text : ∀ b ∈ doc.text, b ≠ 0

theorem Printable.sentMessage {doc : TsDocument} (h : Printable doc) :
    SentMessage (tsDocumentSnapshot doc) where
  type_ne := show typeDocState ≠ [] by decide
  type := show FitsBuffer tsMaxType typeDocState by decide
  clientId := show FitsBuffer tsMaxClientId [] by decide
  opId := show FitsBuffer tsMaxOpId [] by decide
  message := show FitsBuffer tsMaxStatus [] by decide
  reason := show FitsBuffer tsMaxReason [] by decide
  baseVersion := show VersionField (-1) by decide
  serverVersion := show VersionField (-1) by decide
  version := ⟨(by decide : (-1 : ℤ) ≤ 0).trans (h.start_nonneg.trans h.start_le), h.version_le⟩
  historyStartVersion :=
    ⟨(by decide : (-1 : ℤ) ≤ 0).trans h.start_nonneg, h.start_le.trans h.version_le⟩
  op := rfl
  originalOp := rfl
  content content hcontent := by
    obtain rfl : doc.text = content := Option.some.inj hcontent
    exact h.text

/-- The length of the line of a text that is not too long to be printed. -/
theorem Printable.length_docState {doc : TsDocument} (h : Printable doc)
    (hprinted : ((jsonEscape doc.text).length + 2 : ℤ) ≤ intMax) :
    (tsEncodeMessage (tsDocumentSnapshot doc)).length = docStateLength doc := by
  have hversion : 0 ≤ doc.version := h.start_nonneg.trans h.start_le
  have hnames : (bytes "type").length = 4 ∧ (bytes "version").length = 7 ∧
      (bytes "history_start_version").length = 21 ∧ (bytes "content").length = 7 ∧
      (jsonEscape typeDocState).length = 9 := by decide
  obtain ⟨htype, hname, hstart, hcontent, hdoc⟩ := hnames
  rw [tsEncodeMessage_eq h.sentMessage, docStateLength, formatInt_of_nonneg hversion,
    formatInt_of_nonneg h.start_nonneg]
  simp [render, messageTokens, headTokens, tailTokens, operationTokens, contentTokens, stringTokens,
    intTokens, tsDocumentSnapshot, tsMessageInit, hprinted, Token.bytes, Value.bytes, Key.name,
    htype, hname, hstart, hcontent, hdoc, not_lt.mpr hversion, not_lt.mpr h.start_nonneg]
  omega

/-- The fields of a line that is received. -/
theorem decoded_lineOf {m : TsMessage} (hm : SentMessage m) (errorSize : ℕ) : ∃ message,
    tsDecodeMessage errorSize (lineOf m) = .ok message ∧ message.version = m.version ∧
      message.historyStartVersion = m.historyStartVersion ∧ message.content = printedContent m :=
  ⟨_, tsDecodeMessage_lineOf hm errorSize, rfl, rfl, rfl⟩

/-- A line that is too long for the buffer is refused as soon as the buffer is full. -/
theorem tsTransportRecv_tooLong {line : Bytes} (hline : OneLine line)
    (hlong : tsMaxLineBytes ≤ line.length) (errorSize : ℕ) :
    ∃ rest stream, tsTransportRecv errorSize [tsMaxLineBytes] [] (line ++ [10]) = some
      (.error (snprintf errorSize (bytes "protocol message exceeds maximum line length")),
        rest, stream) := by
  have htake : (line ++ [10]).take tsMaxLineBytes = line.take tsMaxLineBytes :=
    List.take_append_of_le_length hlong
  have hcut : cutLine 10 (line.take tsMaxLineBytes) = none :=
    cutLine_eq_none.mpr fun hmem => hline.not_mem (List.mem_of_mem_take hmem)
  have hfirst : recvRound errorSize [] = .reads tsMaxLineBytes := rfl
  have hsecond : recvRound errorSize (line.take tsMaxLineBytes) = .returns
      (.error (snprintf errorSize (bytes "protocol message exceeds maximum line length")))
      (line.take tsMaxLineBytes) := by
    simp only [recvRound, hcut]
    rw [if_pos (by rw [List.length_take, min_eq_left hlong])]
  refine ⟨line.take tsMaxLineBytes, (line ++ [10]).drop tsMaxLineBytes, ?_⟩
  simp only [tsTransportRecv, hfirst, min_self, List.nil_append, htake, hsecond]

/-- A text that is too long to be printed is lost. -/
theorem Printable.not_delivered_of_lost {doc : TsDocument} (h : Printable doc) {errorSize : ℕ}
    (hlost : ¬ ((jsonEscape doc.text).length + 2 : ℤ) ≤ intMax)
    (hfits : (lineOf (tsDocumentSnapshot doc)).length < tsMaxLineBytes) :
    ¬ Delivered errorSize doc := by
  obtain ⟨hencoded, hline⟩ := tsEncodeMessage_eq_line (tsDocumentSnapshot doc)
  obtain ⟨message, hdecode, -, -, hcontent⟩ := decoded_lineOf h.sentMessage errorSize
  have hnone : message.content = none := by
    rw [hcontent, printedContent]
    exact (Option.filter_some ..).trans (if_neg (by simpa using hlost))
  unfold Delivered
  generalize lineOf (tsDocumentSnapshot doc) = line at hencoded hline hdecode hfits
  rw [hencoded]
  intro hdelivered
  have hlength : (line ++ [10]).length ≤ tsMaxLineBytes := by
    rw [List.length_append]
    exact hfits
  rcases tsTransportRecv_line hline hfits errorSize [] (line ++ [10]) [] []
    (List.append_nil _) with ⟨-, hle⟩ | ⟨rest, stream', hsome, -⟩
  · rw [List.countP_nil, List.length_append, List.length_singleton] at hle
    omega
  · rcases hdelivered [] (line ++ [10]) [] [] hlength rfl with
      ⟨hwaits, -⟩ | ⟨m, r, st, hm, -, -, -, hm'⟩
    · rw [hsome] at hwaits
      cases hwaits
    · rw [hsome, hdecode, Option.some.injEq, Prod.mk.injEq, Except.ok.injEq] at hm
      rw [← hm.1, hnone] at hm'
      cases hm'

theorem not_delivered_of_long {doc : TsDocument} {errorSize : ℕ}
    (hlong : tsMaxLineBytes ≤ (lineOf (tsDocumentSnapshot doc)).length) :
    ¬ Delivered errorSize doc := by
  obtain ⟨hencoded, hline⟩ := tsEncodeMessage_eq_line (tsDocumentSnapshot doc)
  obtain ⟨rest, stream', hrefused⟩ := tsTransportRecv_tooLong hline hlong errorSize
  intro hdelivered
  have hstream : [] ++ (lineOf (tsDocumentSnapshot doc) ++ [10]) =
      tsEncodeMessage (tsDocumentSnapshot doc) ++ [] := by
    rw [hencoded, List.append_nil, List.nil_append]
  rcases hdelivered [tsMaxLineBytes] [] _ [] (Nat.zero_le _) hstream with
    ⟨hwaits, -⟩ | ⟨m, r, st, hm, -⟩
  · rw [hrefused] at hwaits
    cases hwaits
  · rw [hrefused, Option.some.injEq, Prod.mk.injEq] at hm
    cases hm.1

theorem Printable.delivered_of_fits {doc : TsDocument} (h : Printable doc) (errorSize : ℕ)
    (hfits : docStateLength doc ≤ tsMaxLineBytes) : Delivered errorSize doc := by
  obtain ⟨hencoded, hline⟩ := tsEncodeMessage_eq_line (tsDocumentSnapshot doc)
  obtain ⟨message, hdecode, hversion, hstart, hcontent⟩ := decoded_lineOf h.sentMessage errorSize
  have hprinted : ((jsonEscape doc.text).length + 2 : ℤ) ≤ intMax := by
    have hmax : (tsMaxLineBytes : ℤ) ≤ intMax := by decide
    simp only [docStateLength] at hfits
    omega
  have hlength := h.length_docState hprinted
  intro reads buffer stream later hbuffer hstream
  rw [hencoded] at hlength hstream ⊢
  rw [List.length_append, List.length_singleton] at hlength ⊢
  rw [List.append_assoc] at hstream
  rcases tsTransportRecv_line hline (by omega) errorSize reads buffer stream later hstream with
    ⟨hnone, hcount⟩ | ⟨rest, stream', hsome, hrest⟩
  · exact Or.inl ⟨hnone, by omega⟩
  · refine Or.inr ⟨message, rest, stream', hsome.trans (by rw [hdecode]), hrest, hversion, hstart, ?_⟩
    rw [hcontent, (printedContent_eq_iff _).mpr]
    · rfl
    · rintro content hc
      obtain rfl : doc.text = content := Option.some.inj hc
      exact hprinted

/-- A printable document is delivered exactly when its line fits the buffer. -/
theorem Printable.delivered_iff {doc : TsDocument} (h : Printable doc) (errorSize : ℕ) :
    Delivered errorSize doc ↔ docStateLength doc ≤ tsMaxLineBytes := by
  refine ⟨fun hdelivered => ?_, h.delivered_of_fits errorSize⟩
  rcases lt_or_ge (lineOf (tsDocumentSnapshot doc)).length tsMaxLineBytes with hfits | hlong
  · have hprinted := by_contra fun hlost => h.not_delivered_of_lost hlost hfits hdelivered
    rw [← h.length_docState hprinted, (tsEncodeMessage_eq_line _).1, List.length_append]
    exact hfits
  · exact absurd hdelivered (not_delivered_of_long hlong)

/-! ## Reached documents -/

theorem mem_of_tsApplyOperationToText {text updated : Bytes} {op : TsOperation}
    (happly : tsApplyOperationToText text op = some updated) :
    ∀ b ∈ updated, b ∈ text ∨ op.kind = .insert ∧ b ∈ op.ch := by
  intro b hb
  unfold tsApplyOperationToText at happly
  cases hk : op.kind with
  | noop =>
    rw [hk, Option.some.injEq] at happly
    exact Or.inl (happly ▸ hb)
  | invalid =>
    rw [hk, Option.some.injEq] at happly
    exact Or.inl (happly ▸ hb)
  | insert =>
    rw [hk] at happly
    obtain ⟨bytePos, -, hupdated⟩ := Option.bind_eq_some_iff.mp happly
    rw [← Option.some.inj hupdated, List.append_assoc, List.mem_append, List.mem_append] at hb
    rcases hb with hb | hb | hb
    · exact Or.inl (List.mem_of_mem_take hb)
    · exact Or.inr ⟨rfl, hb⟩
    · exact Or.inl (List.mem_of_mem_drop hb)
  | delete =>
    rw [hk] at happly
    simp only at happly
    split_ifs at happly with hpos
    · exact Or.inl (Option.some.inj happly ▸ hb)
    · obtain ⟨bytePos, -, happly⟩ := Option.bind_eq_some_iff.mp happly
      obtain ⟨nextByte, -, hupdated⟩ := Option.bind_eq_some_iff.mp happly
      rw [← Option.some.inj hupdated, List.mem_append] at hb
      rcases hb with hb | hb
      · exact Or.inl (List.mem_of_mem_take hb)
      · exact Or.inl (List.mem_of_mem_drop hb)

theorem mem_tsReadFileText (file : Option Bytes) : ∀ b ∈ tsReadFileText file, b ≠ 0 := by
  cases file with
  | none => simp [tsReadFileText]
  | some file =>
    intro b hb
    have hne := List.mem_takeWhile_imp hb
    exact of_decide_eq_true hne

/-- What holds of the document in a run. -/
def DocInv (doc : TsDocument) : Prop :=
  HistoryWindow doc ∧ doc.version ≤ intMax ∧ ∀ b ∈ doc.text, b ≠ 0

theorem docInv_init {text : Bytes} (htext : ∀ b ∈ text, b ≠ 0) (limit : ℕ) :
    DocInv (tsDocumentInit text limit) :=
  ⟨historyWindow_init text limit, (by decide : (0 : ℤ) ≤ intMax), htext⟩

theorem docInv_step {doc doc' : TsDocument} {call : DocCall} (h : DocInv doc) (hcall : call.CString)
    (hstep : docStep doc call = some doc') : DocInv doc' := by
  obtain ⟨hwindow, hversion, htext⟩ := h
  refine ⟨hwindow.step hstep, ?_⟩
  obtain ⟨⟨d, r⟩, hprocess, rfl⟩ := Option.map_eq_some_iff.mp hstep
  cases processOutcome hprocess with
  | error => exact ⟨hversion, htext⟩
  | resync => exact ⟨hversion, htext⟩
  | ok op updated hop hacc hstart hbase hmax happly =>
    refine ⟨by rw [acceptedDocument_version]; omega, fun b hb => ?_⟩
    rcases mem_of_tsApplyOperationToText happly b hb with hb | ⟨hinsert, hb⟩
    · exact htext b hb
    · rw [(transformedOp_insert hinsert).2] at hb
      exact hcall op hop b hb

theorem DocInv.printable {doc : TsDocument} (h : DocInv doc) : Printable doc := by
  obtain ⟨hwindow, hversion, htext⟩ := h
  have hlength := hwindow.length
  have hnonneg := hwindow.version_nonneg
  have hstart := hwindow.start
  exact ⟨by omega, by omega, hversion, htext⟩

/-- A reached document can be delivered exactly when its DOC_STATE line, with the text escaped, fits
the buffer of the receiver. -/
theorem delivered_run_iff (errorSize limit : ℕ) (file : Option Bytes) (calls : List DocCall)
    (doc : TsDocument) (hcalls : ∀ call ∈ calls, call.CString)
    (hrun : run docStep (tsDocumentInit (tsReadFileText file) limit) calls = some doc) :
    Delivered errorSize doc ↔ docStateLength doc ≤ tsMaxLineBytes := by
  have hguard : Guarded docStep (fun _ call => call.CString)
      (tsDocumentInit (tsReadFileText file) limit) calls := Guarded.of_forall hcalls
  have hinv : DocInv doc := run_invariant_of_guarded
    (fun _ _ _ hinv hcall hstep => docInv_step hinv hcall hstep)
    (docInv_init (mem_tsReadFileText file) limit) hguard hrun
  exact hinv.printable.delivered_iff errorSize

/-- A short text with a quote, a newline and an inserted character that is not ASCII. -/
theorem delivered_run_iff_short : ∃ doc,
    run docStep (tsDocumentInit (tsReadFileText (some (bytes "a\"\n"))) 10)
      [⟨bytes "u1", bytes "u1-1", 0, some (tsOperationInit .insert 1 (bytes "é"))⟩] = some doc ∧
    doc.text = bytes "aé\"\n" ∧ Delivered 160 doc := by
  have hlength : ((run docStep (tsDocumentInit (tsReadFileText (some (bytes "a\"\n"))) 10)
      [⟨bytes "u1", bytes "u1-1", 0, some (tsOperationInit .insert 1 (bytes "é"))⟩]).map
        fun doc => (doc.text, docStateLength doc)) = some (bytes "aé\"\n", 79) := by
    decide +kernel
  obtain ⟨doc, hrun, hdoc⟩ := Option.map_eq_some_iff.mp hlength
  rw [Prod.mk.injEq] at hdoc
  refine ⟨doc, hrun, hdoc.1, (delivered_run_iff 160 10 _ _ doc ?_ hrun).mpr (by rw [hdoc.2]; decide)⟩
  rintro call hcall op hop
  rw [List.mem_singleton.mp hcall, Option.some.injEq] at hop
  rw [← hop]
  decide

theorem length_le_jsonEscape (value : Bytes) : value.length ≤ (jsonEscape value).length := by
  induction value with
  | nil => exact Nat.zero_le _
  | cons c value ih =>
    rw [jsonEscape_cons, List.length_append, List.length_cons]
    have hpos : 1 ≤ (escapeByte c).length := by
      rcases escapeByte_eq_cons c with ⟨t, h⟩ | ⟨h, -⟩
      · rw [h, List.length_cons]
        omega
      · rw [h, List.length_singleton]
    omega

/-- The file is loaded whatever its length is, and then nobody can join. -/
theorem not_delivered_of_length {file : Bytes} (hline : OneLine file)
    (hlong : tsMaxLineBytes ≤ file.length) (errorSize limit : ℕ) :
    ¬ Delivered errorSize (tsDocumentInit (tsReadFileText (some file)) limit) := by
  intro hdelivered
  have hinv := docInv_init (mem_tsReadFileText (some file)) limit
  have hfits := (hinv.printable.delivered_iff errorSize).mp hdelivered
  have hescaped := length_le_jsonEscape file
  simp only [docStateLength, tsDocumentInit, tsReadFileText, hline.cString] at hfits
  omega

theorem not_delivered_oneMebibyte : ¬ Delivered 160
    (tsDocumentInit (tsReadFileText (some (List.replicate tsMaxLineBytes 97))) 1000) := by
  refine not_delivered_of_length (fun b hb => ?_) List.length_replicate.ge 160 1000
  rw [List.eq_of_mem_replicate hb]
  decide

end TermSync
