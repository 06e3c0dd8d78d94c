import TermSync.Proofs.DeliveryProofs
import TermSync.Proofs.TruthProofs
import TermSync.Wire

/-!
# Proofs: every message of a run can be carried

A message without a document is always short enough for the receiver (`length_tsEncodeMessage_le`), and
the DOC_STATE of a document is as long as its text makes it. The fields of every message that a client or
a thread builds stay in the ranges that the decoder accepts, whatever is queued, transformed and served
in between (`AllCarried.step`).
-/

namespace TermSync

open Foundations

/-! ## Lines without a document -/

/-- Every token takes at most a kibibyte. -/
def ShortTokens (ts : List Token) : Prop := ∀ t ∈ ts, t.bytes.length ≤ 1024

theorem ShortTokens.append {ts us : List Token} (hts : ShortTokens ts) (hus : ShortTokens us) :
    ShortTokens (ts ++ us) := fun t ht => (List.mem_append.mp ht).elim (hts t) (hus t)

theorem ShortTokens.cons {t : Token} {ts : List Token} (ht : t.bytes.length ≤ 1024)
    (hts : ShortTokens ts) : ShortTokens (t :: ts) := List.forall_mem_cons.mpr ⟨ht, hts⟩

theorem shortTokens_nil : ShortTokens [] := fun _ h => absurd h List.not_mem_nil

theorem ShortTokens.length_render_le {ts : List Token} (h : ShortTokens ts) :
    (render ts).length ≤ 1024 * ts.length := by
  induction ts with
  | nil => exact Nat.zero_le _
  | cons t ts ih =>
    have hhead := h t List.mem_cons_self
    have htail := ih fun u hu => h u (List.mem_cons_of_mem t hu)
    rw [render, List.flatMap_cons, List.length_append, List.length_cons]
    rw [render] at htail
    omega

theorem length_punct_le (b : UInt8) : (Token.punct b).bytes.length ≤ 1024 := by
  rw [Token.bytes, List.length_singleton]
  omega

/-- A field whose value takes at most 962 bytes. -/
theorem length_field_le (key : Key) {value : Value} (h : value.bytes.length ≤ 962) :
    (Token.field key value).bytes.length ≤ 1024 := by
  have hname := key.length_name_le
  simp only [Token.bytes, List.length_cons, List.length_append]
  omega

/-- No buffer of a message has more than 160 bytes, and escaping makes at most six of each. -/
theorem length_str_le {size : ℕ} {text : Bytes} (h : FitsBuffer size text) (hsize : size ≤ 160) :
    (Value.str text).bytes.length ≤ 962 := by
  have hescaped := length_jsonEscape_le text
  have htext := h.1
  simp only [Value.bytes, List.length_cons, List.length_append, List.length_nil]
  omega

theorem length_num_le {n : ℕ} (h : (n : ℤ) ≤ intMax) : (Value.num n).bytes.length ≤ 962 := by
  have hdigits : (formatSize n).length ≤ 10 := Decimal.length_digits_le (by decide) (by
    simp only [intMax] at h
    omega)
  simp only [Value.bytes]
  omega

theorem shortTokens_string (key : Key) {size : ℕ} {text : Bytes} (h : FitsBuffer size text)
    (hsize : size ≤ 160) : ShortTokens (stringTokens key text) := by
  unfold stringTokens
  split_ifs
  · exact shortTokens_nil
  · exact .cons (length_punct_le _) (.cons (length_field_le key (length_str_le h hsize)) shortTokens_nil)

theorem shortTokens_int (key : Key) {value : ℤ} (h : VersionField value) :
    ShortTokens (intTokens key value) := by
  unfold intTokens
  split_ifs with hneg
  · exact shortTokens_nil
  · have hnat : (value.toNat : ℤ) ≤ intMax := by
      rw [Int.toNat_of_nonneg (not_lt.mp hneg)]
      exact h.2
    exact .cons (length_punct_le _) (.cons (length_field_le key (length_num_le hnat)) shortTokens_nil)

theorem shortTokens_operation (key : Key) {present : Bool} {op : TsOperation}
    (h : if present then SentOperation op else op = {}) :
    ShortTokens (operationTokens key present op) := by
  unfold operationTokens
  split_ifs at h ⊢ with hpresent
  · have hkind : FitsBuffer 8 (tsOperationKindName op.kind) := by cases op.kind <;> decide
    refine .cons (length_punct_le _) (.cons (length_field_le key (by decide)) ?_)
    refine .append ?_ (.cons (length_punct_le _) shortTokens_nil)
    refine .append (.append ?_ ?_) (shortTokens_string .reason h.reason (by decide))
    · refine .cons (length_field_le _ (length_str_le hkind (by decide))) ?_
      exact .cons (length_punct_le _) (.cons (length_field_le _ (length_num_le h.pos)) shortTokens_nil)
    · split_ifs
      · refine .cons (length_punct_le _) (.cons (length_field_le _ ?_) shortTokens_nil)
        exact length_str_le h.ch (by decide)
      · exact shortTokens_nil
  · exact shortTokens_nil

theorem length_stringTokens_le (key : Key) (text : Bytes) : (stringTokens key text).length ≤ 2 := by
  unfold stringTokens
  split_ifs <;> simp

theorem length_intTokens_le (key : Key) (value : ℤ) : (intTokens key value).length ≤ 2 := by
  unfold intTokens
  split_ifs <;> simp

theorem length_operationTokens_le (key : Key) (present : Bool) (op : TsOperation) :
    (operationTokens key present op).length ≤ 10 := by
  have hreason := length_stringTokens_le .reason op.reason
  unfold operationTokens operationBody
  split_ifs <;> simp <;> omega

/-- The line of a message without a document fits the buffer of the receiver. -/
theorem length_tsEncodeMessage_le {m : TsMessage} (hm : SentMessage m) (hcontent : m.content = none) :
    (tsEncodeMessage m).length ≤ tsMaxLineBytes := by
  have hshort : ShortTokens (messageTokens m) := by
    have hhead : ShortTokens (headTokens m) := by
      refine .append (.append (.append (.append (.append (.append ?_ ?_) ?_) ?_) ?_) ?_) ?_
      · refine .cons (length_punct_le _) (.cons (length_field_le _ ?_) shortTokens_nil)
        exact length_str_le hm.type (by decide)
      · exact shortTokens_string _ hm.clientId (by decide)
      · exact shortTokens_string _ hm.opId (by decide)
      · exact shortTokens_int _ hm.baseVersion
      · exact shortTokens_int _ hm.serverVersion
      · exact shortTokens_int _ hm.version
      · exact shortTokens_int _ hm.historyStartVersion
    have htail : ShortTokens (tailTokens m) := by
      refine .append (.append (.append ?_ ?_) ?_) ?_
      · exact shortTokens_string _ hm.message (by decide)
      · exact shortTokens_string _ hm.reason (by decide)
      · rw [hcontent]
        exact shortTokens_nil
      · exact .cons (length_punct_le _) (.cons (length_punct_le _) shortTokens_nil)
    exact .append (.append (.append hhead (shortTokens_operation _ hm.op))
      (shortTokens_operation _ hm.originalOp)) htail
  have hcount : (messageTokens m).length ≤ 40 := by
    have hclientId := length_stringTokens_le .clientId m.clientId
    have hopId := length_stringTokens_le .opId m.opId
    have hbase := length_intTokens_le .baseVersion m.baseVersion
    have hserver := length_intTokens_le .serverVersion m.serverVersion
    have hversion := length_intTokens_le .version m.version
    have hstart := length_intTokens_le .historyStartVersion m.historyStartVersion
    have hop := length_operationTokens_le .op m.hasOp m.op
    have horiginal := length_operationTokens_le .originalOp m.hasOriginalOp m.originalOp
    have hmessage := length_stringTokens_le .message m.message
    have hreason := length_stringTokens_le .reason m.reason
    simp only [messageTokens, headTokens, tailTokens, hcontent, contentTokens, List.length_append,
      List.length_cons, List.length_nil]
    omega
  have hrender := hshort.length_render_le
  rw [tsEncodeMessage_eq hm, tsMaxLineBytes]
  omega

/-! ## The messages that are sent -/

theorem SentMessage.carried {m : TsMessage} (hm : SentMessage m) (hcontent : m.content = none) :
    Carried m where
  sent := hm
  fits := length_tsEncodeMessage_le hm hcontent
  printed content h := by
    rw [hcontent] at h
    cases h

theorem fitsBuffer_nil {size : ℕ} (hsize : 0 < size) : FitsBuffer size [] :=
  ⟨hsize, fun _ hb => absurd hb List.not_mem_nil⟩

/-- What is printed into a buffer fits it. -/
theorem fitsBuffer_snprintf {size : ℕ} {text : Bytes} (hsize : 0 < size) (h : ∀ b ∈ text, b ≠ 0) :
    FitsBuffer size (snprintf size text) := by
  refine ⟨?_, fun b hb => h b (List.mem_of_mem_take hb)⟩
  rw [snprintf, List.length_take]
  omega

theorem FitsBuffer.snprintf {size : ℕ} {text : Bytes} (h : FitsBuffer size text) :
    FitsBuffer size (snprintf size text) := by
  rw [snprintf_of_fits h]
  exact h

/-- A message without operations and without a document. -/
theorem carried_fields {type clientId opId message reason : Bytes} {serverVersion version start : ℤ}
    (htype : type ≠ [] ∧ FitsBuffer tsMaxType type) (hclientId : FitsBuffer tsMaxClientId clientId)
    (hopId : FitsBuffer tsMaxOpId opId) (hmessage : FitsBuffer tsMaxStatus message)
    (hreason : FitsBuffer tsMaxReason reason) (hserver : VersionField serverVersion)
    (hversion : VersionField version) (hstart : VersionField start) :
    Carried { tsMessageInit with
      type := type
      clientId := clientId
      opId := opId
      message := message
      reason := reason
      serverVersion := serverVersion
      version := version
      historyStartVersion := start } := by
  refine SentMessage.carried ?_ rfl
  exact
    { type_ne := htype.1
      type := htype.2
      clientId := hclientId
      opId := hopId
      message := hmessage
      reason := hreason
      baseVersion := show VersionField (-1) by decide
      serverVersion := hserver
      version := hversion
      historyStartVersion := hstart
      op := rfl
      originalOp := rfl
      content := fun _ h => by cases h }

/-- A message that has a type and a client id only. -/
theorem carried_typed {type clientId : Bytes} (htype : type ≠ [] ∧ FitsBuffer tsMaxType type)
    (hclientId : FitsBuffer tsMaxClientId clientId) :
    Carried { tsMessageInit with type := type, clientId := clientId } :=
  carried_fields htype hclientId (fitsBuffer_nil (by decide)) (fitsBuffer_nil (by decide))
    (fitsBuffer_nil (by decide)) (show VersionField (-1) by decide) (show VersionField (-1) by decide)
    (show VersionField (-1) by decide)

/-- An ERROR. -/
theorem carried_error {opId text : Bytes} (hopId : FitsBuffer tsMaxOpId opId)
    (htext : ∀ b ∈ text, b ≠ 0) :
    Carried { tsMessageInit with
      type := typeError, opId := opId, message := snprintf tsMaxStatus text } :=
  carried_fields (by decide) (fitsBuffer_nil (by decide)) hopId
    (fitsBuffer_snprintf (by decide) htext) (fitsBuffer_nil (by decide))
    (show VersionField (-1) by decide) (show VersionField (-1) by decide)
    (show VersionField (-1) by decide)

theorem carried_joinMessage {clientId : Bytes} (h : ∀ b ∈ clientId, b ≠ 0) :
    Carried (joinMessage clientId) :=
  carried_typed (by decide) (fitsBuffer_snprintf (by decide) h)

theorem carried_saveMessage : Carried saveMessage :=
  carried_typed (by decide) (fitsBuffer_nil (by decide))

theorem carried_requestDoc : Carried requestDoc :=
  carried_typed (by decide) (fitsBuffer_nil (by decide))

theorem carried_pong : Carried pong := carried_typed (by decide) (fitsBuffer_nil (by decide))

theorem carried_welcomeMessage {clientId : Bytes} (h : FitsBuffer tsMaxClientId clientId) :
    Carried (welcomeMessage clientId) := carried_typed (by decide) h.snprintf

theorem carried_joinRequired : Carried joinRequired :=
  carried_error (fitsBuffer_nil (by decide)) (by decide)

theorem carried_unsupported {message : TsMessage} (h : FitsBuffer tsMaxType message.type) :
    Carried (unsupported message) := by
  refine carried_error (fitsBuffer_nil (by decide)) fun b hb => ?_
  rcases List.mem_append.mp hb with hb | hb
  · exact (by decide : ∀ b ∈ bytes "unsupported message type: ", b ≠ 0) b hb
  · exact h.2 b hb

theorem carried_saveQueued {version : ℤ} (h : VersionField version) : Carried (saveQueued version) :=
  carried_fields (by decide) (fitsBuffer_nil (by decide)) (fitsBuffer_nil (by decide))
    (fitsBuffer_nil (by decide)) (fitsBuffer_nil (by decide)) (show VersionField (-1) by decide) h
    (show VersionField (-1) by decide)

/-- The DOC_STATE of a document whose line fits. -/
theorem DocInv.carried_snapshot {doc : TsDocument} (h : DocInv doc)
    (hfits : docStateLength doc ≤ tsMaxLineBytes) : Carried (tsDocumentSnapshot doc) := by
  have hprinted : ((jsonEscape doc.text).length + 2 : ℤ) ≤ intMax := by
    have hmax : (tsMaxLineBytes : ℤ) ≤ intMax := by decide
    simp only [docStateLength] at hfits
    omega
  refine ⟨h.printable.sentMessage, ?_, fun content hcontent => ?_⟩
  · rw [h.printable.length_docState hprinted]
    exact hfits
  · obtain rfl : doc.text = content := Option.some.inj hcontent
    exact hprinted

/-! ## Operations -/

theorem Placed.mono {room room' : ℕ} {op : TsOperation} (h : Placed room op) (hle : room' ≤ room) :
    Placed room' op := ⟨h.sent, by
      have := h.room
      omega⟩

theorem sentOperation_move {op : TsOperation} (h : SentOperation op) {pos : ℕ}
    (hpos : (pos : ℤ) ≤ intMax) : SentOperation { op with pos := pos } :=
  { h with pos := hpos }

theorem sentOperation_noop {op : TsOperation} (h : SentOperation op) {reason : Bytes}
    (hreason : ∀ b ∈ reason, b ≠ 0) : SentOperation (tsOperationNoop op reason) where
  kind := by simp [tsOperationNoop, tsOperationInit]
  pos := h.pos
  reason := fitsBuffer_snprintf (by decide) hreason
  ch := fitsBuffer_nil (by decide)
  insert hkind := by simp [tsOperationNoop, tsOperationInit] at hkind
  empty _ := rfl

/-- An operation moves by one position at most. -/
theorem Placed.transform {room : ℕ} {op : TsOperation} (h : Placed (room + 1) op)
    (previous : TsOperation) : Placed room (tsTransformAgainst op previous) := by
  have hroom := h.room
  have hstay : Placed room op := h.mono (Nat.le_succ room)
  have hleft : Placed room { op with pos := op.pos - 1 } :=
    ⟨sentOperation_move h.sent (by omega), by simp only; omega⟩
  have hright : Placed room { op with pos := sizeSucc op.pos } := by
    have hsucc : sizeSucc op.pos = op.pos + 1 := by
      refine Nat.mod_eq_of_lt ?_
      simp only [intMax] at hroom
      simp only [sizeModulus]
      omega
    rw [hsucc]
    exact ⟨sentOperation_move h.sent (by push_cast at hroom ⊢; omega), by push_cast at hroom ⊢; omega⟩
  unfold tsTransformAgainst
  split_ifs
  any_goals assumption
  exact ⟨sentOperation_noop h.sent (by decide), hstay.room⟩

/-- An operation moves by one position at most for each history entry. -/
theorem Placed.fold {room : ℕ} {entries : List TsHistoryEntry} {op : TsOperation}
    (h : Placed (room + entries.length) op) :
    Placed room (entries.foldl (fun t entry => tsTransformAgainst t entry.op) op) := by
  induction entries generalizing op with
  | nil => exact h
  | cons entry entries ih =>
    rw [List.foldl_cons]
    rw [List.length_cons, ← Nat.add_assoc] at h
    exact ih (h.transform entry.op)

theorem SentOperation.normalize {doc : TsDocument} {op : TsOperation} (h : SentOperation op) :
    SentOperation (normalizeForApply doc op) := by
  unfold normalizeForApply
  split
  · exact h
  · split_ifs with hpos
    · exact sentOperation_move h (by have := h.pos; omega)
    · exact h
  · split_ifs
    · exact h
    · exact sentOperation_noop h (by decide)
  · exact sentOperation_noop h (by decide)

/-- The operation that is applied can be sent. -/
theorem HistoryWindow.sent_transformedOp {doc : TsDocument} (hdoc : HistoryWindow doc) {op : TsOperation}
    (h : Placed doc.historyLimit op) (baseVersion : ℤ) :
    SentOperation (transformedOp doc baseVersion op) := by
  have hlength := hdoc.length
  have hentries : (entriesSince doc baseVersion).length ≤ doc.history.length :=
    List.length_filter_le _ _
  have hplaced : Placed (0 + (entriesSince doc baseVersion).length) op := h.mono (by omega)
  exact hplaced.fold.sent.normalize

theorem ValidText.ne_zero {text : Bytes} (h : ValidText text) : ∀ b ∈ text, b ≠ 0 := by
  obtain ⟨cs, hcs, rfl⟩ := h
  intro b hb
  obtain ⟨c, hc, hb⟩ := List.mem_flatMap.mp hb
  obtain ⟨lead, rest, heq, -, -, hrest, hlead⟩ := Utf8.utf8EncodeChar_shape c
  rw [heq, List.mem_cons] at hb
  rcases hb with rfl | hb
  · exact hlead (hcs c hc)
  · rintro rfl
    exact absurd (hrest 0 hb) (by decide)

/-! ## What a client sends -/

/-- The state of a client and the messages that it sends can be carried. -/
structure SendsCarried (limit : ℕ) (out : TsClientState × List TsMessage) : Prop where
  clientId : FitsBuffer tsMaxClientId out.1.clientId
  queue : ∀ p ∈ out.1.queue, FitsBuffer tsMaxOpId p.opId ∧ Placed limit p.op
  messages : ∀ m ∈ out.2, Carried m ∧ (m.hasOp = true → Placed limit m.op)

theorem carried_opMessage {limit : ℕ} {clientId : Bytes} {next : TsPendingOperation}
    (hclientId : FitsBuffer tsMaxClientId clientId) (hopId : FitsBuffer tsMaxOpId next.opId)
    (hop : Placed limit next.op) (hbase : VersionField next.baseVersion) :
    Carried (opMessage clientId next) := by
  refine SentMessage.carried ?_ rfl
  exact
    { type_ne := show typeOp ≠ [] by decide
      type := show FitsBuffer tsMaxType typeOp by decide
      clientId := hclientId
      opId := hopId
      message := fitsBuffer_nil (by decide)
      reason := fitsBuffer_nil (by decide)
      baseVersion := hbase
      serverVersion := show VersionField (-1) by decide
      version := show VersionField (-1) by decide
      historyStartVersion := show VersionField (-1) by decide
      op := hop.sent
      originalOp := rfl
      content := fun _ h => by cases h }

theorem sendsCarried_nil {limit : ℕ} {state : TsClientState}
    (hclientId : FitsBuffer tsMaxClientId state.clientId)
    (hqueue : ∀ p ∈ state.queue, FitsBuffer tsMaxOpId p.opId ∧ Placed limit p.op) :
    SendsCarried limit (state, []) := ⟨hclientId, hqueue, fun _ h => absurd h List.not_mem_nil⟩

theorem sendsCarried_request {limit : ℕ} {state : TsClientState}
    (hclientId : FitsBuffer tsMaxClientId state.clientId)
    (hqueue : ∀ p ∈ state.queue, FitsBuffer tsMaxOpId p.opId ∧ Placed limit p.op) :
    SendsCarried limit (state, [requestDoc]) := by
  refine ⟨hclientId, hqueue, fun m hm => ?_⟩
  rw [List.mem_singleton.mp hm]
  exact ⟨carried_requestDoc, fun h => by cases h⟩

/-- The pump binds an operation to the local version. -/
theorem sendsCarried_pump {limit : ℕ} {state : TsClientState}
    (hclientId : FitsBuffer tsMaxClientId state.clientId)
    (hqueue : ∀ p ∈ state.queue, FitsBuffer tsMaxOpId p.opId ∧ Placed limit p.op)
    (hversion : VersionField state.version) : SendsCarried limit (statePump state) := by
  rcases pump_cases state with ⟨-, hpump⟩ | ⟨next, queue, -, hnext, hpump⟩
  · rw [hpump]
    exact sendsCarried_nil hclientId hqueue
  · rw [hpump]
    rw [hnext] at hqueue
    obtain ⟨⟨hopId, hop⟩, hrest⟩ := List.forall_mem_cons.mp hqueue
    refine ⟨hclientId, hrest, fun m hm => ?_⟩
    rw [List.mem_singleton.mp hm]
    exact ⟨carried_opMessage hclientId hopId hop hversion, fun _ => hop⟩

/-- The ids that a client prints fit their buffer. -/
theorem fitsBuffer_nextOpId {state : TsClientState} (h : FitsBuffer tsMaxClientId state.clientId) :
    FitsBuffer tsMaxOpId (nextOpId state) := by
  refine fitsBuffer_snprintf (by decide) fun b hb => ?_
  rcases List.mem_append.mp hb with hb | hb
  · rcases List.mem_append.mp hb with hb | hb
    · exact h.2 b (List.mem_of_mem_take hb)
    · exact (by decide : ∀ b ∈ bytes "-", b ≠ 0) b hb
  · exact (oneLine_formatInt _ b hb).2

theorem sendsCarried_handle {limit : ℕ} {state : TsClientState} {message : TsMessage}
    {out : TsClientState × List TsMessage} (hclientId : FitsBuffer tsMaxClientId state.clientId)
    (hqueue : ∀ p ∈ state.queue, FitsBuffer tsMaxOpId p.opId ∧ Placed limit p.op)
    (hm : Carried message) (hversion : VersionField out.1.version)
    (hhandle : tsClientStateHandleMessage state message = some out) : SendsCarried limit out := by
  by_cases hwelcome : message.type = typeWelcome
  · -- `HandleOutcome` does not say which id a WELCOME leaves
    have hdoc : message.type ≠ typeDocState := by
      rw [hwelcome]
      decide
    rw [tsClientStateHandleMessage, if_neg hdoc, if_pos hwelcome] at hhandle
    obtain rfl := Option.some.inj hhandle
    refine sendsCarried_nil ?_ hqueue
    simp only
    split_ifs
    · exact hm.sent.clientId.snprintf
    · exact hclientId
  · cases handleOutcome hhandle with
    | docState =>
      rw [tsClientStateSetDocument, statePump_version] at hversion
      exact sendsCarried_pump hclientId hqueue hversion
    | welcome htype => exact absurd htype hwelcome
    | ack htype applied status hmatch happly =>
      obtain ⟨content, version, rfl⟩ := applyAuthoritativeOp_frame happly
      rw [statePump_version] at hversion
      exact sendsCarried_pump hclientId hqueue hversion
    | staleAck => exact sendsCarried_nil hclientId hqueue
    | oldRemote => exact sendsCarried_nil hclientId hqueue
    | missedRemote => exact sendsCarried_request hclientId hqueue
    | remote htype applied status hversion happly =>
      obtain ⟨content, version, rfl⟩ := applyAuthoritativeOp_frame happly
      exact sendsCarried_nil hclientId hqueue
    | resync => exact sendsCarried_request hclientId hqueue
    | other => exact sendsCarried_nil hclientId hqueue

/-! ## What a thread of the server sends -/

theorem fitsBuffer_chooseClientId {server server' : TsServer} {requested clientId : Bytes}
    (hrequested : ∀ b ∈ requested, b ≠ 0)
    (h : chooseClientId server requested = some (server', clientId)) :
    FitsBuffer tsMaxClientId clientId := by
  have hnext (fuel : ℕ) : ∀ number out, nextFreeClientId server fuel number = some out →
      FitsBuffer tsMaxClientId out.1 := by
    induction fuel with
    | zero => intro number out h; cases h
    | succ fuel ih =>
      intro number out h
      simp only [nextFreeClientId] at h
      split_ifs at h
      · exact ih _ _ h
      · rw [← Option.some.inj h]
        refine fitsBuffer_snprintf (by decide) fun b hb => ?_
        rcases List.mem_append.mp hb with hb | hb
        · exact (by decide : ∀ b ∈ bytes "u", b ≠ 0) b hb
        · exact (oneLine_formatInt _ b hb).2
  simp only [chooseClientId] at h
  split_ifs at h with hfree
  · rw [← (Prod.mk.inj (Option.some.inj h)).2]
    exact fitsBuffer_snprintf (by decide) hrequested
  · obtain ⟨out, hout, heq⟩ := Option.map_eq_some_iff.mp h
    rw [← (Prod.mk.inj heq).2]
    exact hnext _ _ out hout

/-- Every message among some effects can be carried. -/
def EffectsCarried (effects : List Effect) : Prop :=
  ∀ effect ∈ effects, ∀ m ∈ effect.message?, Carried m

theorem effectsCarried_send {messages : List TsMessage} (h : ∀ m ∈ messages, Carried m) :
    EffectsCarried (messages.map Effect.send) := by
  intro effect he m hm
  obtain ⟨message, hmessage, rfl⟩ := List.mem_map.mp he
  rw [← Option.some.inj hm]
  exact h message hmessage

theorem effectsCarried_joinEffects {client : TsClientConnection}
    (h : FitsBuffer tsMaxClientId client.clientId) : EffectsCarried (joinEffects client) := by
  simp only [EffectsCarried, joinEffects, List.mem_cons, List.not_mem_nil, or_false,
    forall_eq_or_imp, forall_eq, Effect.message?, Option.not_mem_none, Option.mem_some,
    false_implies, implies_true, true_and, and_true, forall_eq']
  exact carried_welcomeMessage h

/-- What a thread does with an OP. -/
theorem effectsCarried_resultEffects {doc doc' : TsDocument} {call : DocCall} {r : TsProcessResult}
    (hdoc : DocInv doc) (hfits : docStateLength doc ≤ tsMaxLineBytes)
    (hclientId : FitsBuffer tsMaxClientId call.clientId) (hopId : FitsBuffer tsMaxOpId call.opId)
    {op : TsOperation} (hcall : call.op = some op) (hplaced : Placed doc.historyLimit op)
    (hacc : Acceptable op) (h : processCall doc call = some (doc', r)) :
    EffectsCarried (resultEffects call.clientId r) := by
  have hprintable := hdoc.printable
  have hstart0 := hprintable.start_nonneg
  have hstart := hprintable.start_le
  have hle := hprintable.version_le
  cases processOutcome h with
  | error text hnot => exact absurd hacc (hnot op hcall)
  | resync op' hcall' _ hbase =>
    refine effectsCarried_send fun m hm => ?_
    simp only [resyncResult, List.mem_cons, List.not_mem_nil, or_false] at hm
    rcases hm with rfl | rfl
    · refine carried_fields (by decide) (fitsBuffer_nil (by decide)) hopId.snprintf
        (fitsBuffer_nil (by decide)) (fitsBuffer_snprintf (by decide) ?_) ⟨by omega, by omega⟩
        (show VersionField (-1) by decide) ⟨by omega, by omega⟩
      split_ifs <;> decide
    · exact hdoc.carried_snapshot hfits
  | ok op' updated hcall' _ hbase hversion hmax happly =>
    obtain rfl : op = op' := Option.some.inj (hcall.symm.trans hcall')
    have hcallBase : VersionField call.baseVersion := ⟨by omega, by omega⟩
    have hsent := hdoc.1.sent_transformedOp hplaced call.baseVersion
    have hfield : VersionField (acceptedDocument doc
        (acceptedEntry doc call.clientId call.opId call.baseVersion op) updated).version := by
      rw [acceptedDocument_version]
      exact ⟨by omega, by omega⟩
    rw [resultEffects_okResult]
    generalize acceptedDocument doc _ updated = after at hfield
    simp only [EffectsCarried, List.mem_cons, List.not_mem_nil, or_false, forall_eq_or_imp, forall_eq,
      Effect.message?, Option.not_mem_none, Option.mem_some, false_implies, implies_true, true_and,
      forall_eq']
    constructor
    · refine SentMessage.carried ?_ rfl
      exact
        { type_ne := show typeAck ≠ [] by decide
          type := show FitsBuffer tsMaxType typeAck by decide
          clientId := hclientId.snprintf
          opId := hopId.snprintf
          message := fitsBuffer_nil (by decide)
          reason := fitsBuffer_nil (by decide)
          baseVersion := hcallBase
          serverVersion := hfield
          version := hfield
          historyStartVersion := show VersionField (-1) by decide
          op := hsent
          originalOp := hplaced.sent
          content := fun _ h => by cases h }
    · refine SentMessage.carried ?_ rfl
      exact
        { type_ne := show typeRemoteOp ≠ [] by decide
          type := show FitsBuffer tsMaxType typeRemoteOp by decide
          clientId := hclientId.snprintf
          opId := hopId.snprintf
          message := fitsBuffer_nil (by decide)
          reason := fitsBuffer_nil (by decide)
          baseVersion := show VersionField (-1) by decide
          serverVersion := hfield
          version := hfield
          historyStartVersion := show VersionField (-1) by decide
          op := hsent
          originalOp := rfl
          content := fun _ h => by cases h }

/-- What a thread answers to another message. -/
theorem effectsCarried_answer {server : TsServer} {client : TsClientConnection} {message : TsMessage}
    {out : TsServer × List Effect} (hdoc : DocInv server.document)
    (hfits : docStateLength server.document ≤ tsMaxLineBytes) (hm : Carried message)
    (hne : message.type ≠ typeOp) (h : dispatchMessage server client message = some out) :
    EffectsCarried out.2 := by
  have hprintable := hdoc.printable
  have hstart0 := hprintable.start_nonneg
  have hstart := hprintable.start_le
  rcases (dispatchMessage_of_ne hne h).2 with ⟨-, heq⟩ | ⟨-, heq⟩ | ⟨-, heq⟩ | ⟨-, -, -, heq⟩
  all_goals
    rw [heq]
    simp only [EffectsCarried, List.mem_cons, List.not_mem_nil, or_false, forall_eq_or_imp, forall_eq,
      Effect.message?, Option.not_mem_none, Option.mem_some, false_implies, implies_true, true_and,
      forall_eq']
  · exact carried_saveQueued ⟨by omega, hprintable.version_le⟩
  · exact hdoc.carried_snapshot hfits
  · exact carried_pong
  · exact carried_unsupported hm.sent.type

namespace Sys

/-! ## The invariant of a run -/

/-- Everything that is on its way between a client and the server can be carried. -/
structure ConnCarried (limit : ℕ) (c : Conn) : Prop where
  clientId : FitsBuffer tsMaxClientId c.client.clientId
  queue : ∀ p ∈ c.client.queue, FitsBuffer tsMaxOpId p.opId ∧ Placed limit p.op
  peer : FitsBuffer tsMaxClientId c.peer.clientId
  toServer : ∀ m ∈ c.toServer, Carried m ∧ (m.hasOp = true → Placed limit m.op)
  toClient : ∀ m ∈ c.toClient, Carried m
  thread : EffectsCarried c.thread

theorem ConnCarried.emit {limit : ℕ} {c : Conn} {out : TsClientState × List TsMessage}
    (hc : ConnCarried limit c) (hout : SendsCarried limit out) : ConnCarried limit (c.emit out) :=
  { hc with
    clientId := hout.clientId
    queue := hout.queue
    toServer := fun m hm => (List.mem_append.mp hm).elim (hc.toServer m) (hout.messages m) }

theorem ConnCarried.cons {limit : ℕ} {c : Conn} {effect : Effect} {rest : List Effect}
    (hc : ConnCarried limit c) (hthread : c.thread = effect :: rest) :
    (∀ m ∈ effect.message?, Carried m) ∧ ConnCarried limit { c with thread := rest } := by
  have h := hc.thread
  rw [hthread] at h
  constructor
  · exact h effect List.mem_cons_self
  · exact { hc with thread := fun e he => h e (List.mem_cons_of_mem _ he) }

theorem ConnCarried.push {limit : ℕ} {c : Conn} {message : TsMessage} (hc : ConnCarried limit c)
    (hm : Carried message) : ConnCarried limit (c.push message) :=
  { hc with
    toClient := fun m hmem => by
      rcases List.mem_append.mp hmem with hmem | hmem
      · exact hc.toClient m hmem
      · rw [List.mem_singleton.mp hmem]
        exact hm }

/-- The thread has taken a message. -/
theorem ConnCarried.take {limit : ℕ} {c : Conn} {message : TsMessage} {rest : List TsMessage}
    (hc : ConnCarried limit c) (hin : c.toServer = message :: rest) :
    (Carried message ∧ (message.hasOp = true → Placed limit message.op)) ∧
      ∀ m ∈ rest, Carried m ∧ (m.hasOp = true → Placed limit m.op) := by
  have h := hc.toServer
  rw [hin] at h
  exact List.forall_mem_cons.mp h

/-- What holds of every state of a run. -/
structure AllCarried (s : Sys) : Prop where
  truthful : AllTruthful s
  document : DocInv s.server.document
  conns : ∀ j, ConnCarried s.server.document.historyLimit (s.conns j)

theorem allCarried_init {text : Bytes} (htext : ValidText text) (limit : ℕ) (path : Bytes) :
    AllCarried (init text limit path) where
  truthful := allTruthful_init htext limit path
  document := docInv_init htext.ne_zero limit
  conns _ :=
    { clientId := fitsBuffer_nil (by decide)
      queue := fun _ h => absurd h List.not_mem_nil
      peer := fitsBuffer_nil (by decide)
      toServer := fun _ h => absurd h List.not_mem_nil
      toClient := fun _ h => absurd h List.not_mem_nil
      thread := fun _ h => absurd h List.not_mem_nil }

theorem wellFormed_of_carries {server : TsServer} {a : Action}
    (h : server.Carries a) : a.WellFormed := by
  cases a with
  | key i op => exact h.1
  | _ => trivial

/-- The version that a client has in a reached state is a version field. -/
theorem AllCarried.versionField {s : Sys} (hs : AllTruthful s) (hdoc : DocInv s.server.document)
    (j : ℕ) : VersionField (s.conns j).client.version := by
  have hversion := ((hs.conns j).told).version
  have hmax := hdoc.printable.version_le
  constructor <;> omega

theorem AllCarried.step {s s' : Sys} {a : Action} (hs : AllCarried s) (ha : s.server.Carries a)
    (h : s.step a = some s') : AllCarried s' := by
  have htruthful := hs.truthful.step (wellFormed_of_carries ha) h
  have hset {t : Sys} {i : ℕ} {c : Conn} (hconns : t.conns = s.conns)
      (hc : ConnCarried s.server.document.historyLimit c) (j : ℕ) :
      ConnCarried s.server.document.historyLimit ((t.setConn i c).conns j) :=
    forall_conns_set (P := fun _ c => ConnCarried s.server.document.historyLimit c) hs.conns hconns hc j
  have hdoc := hs.document
  cases stepOutcome h with
  | connect clientId address =>
    refine ⟨htruthful, hdoc, hset rfl ?_⟩
    have hid : FitsBuffer tsMaxClientId (snprintf tsMaxClientId (snprintf tsMaxClientId clientId)) :=
      (fitsBuffer_snprintf (by decide) ha).snprintf
    exact
      { clientId := hid
        queue := fun _ h => absurd h List.not_mem_nil
        peer := fitsBuffer_nil (by decide)
        toServer := fun m hm => by
          rw [List.mem_singleton.mp hm]
          exact ⟨carried_joinMessage ha, fun h => by cases h⟩
        toClient := fun _ h => absurd h List.not_mem_nil
        thread := fun _ h => absurd h List.not_mem_nil }
  | key i op out hi hqueue =>
    have hversion := AllCarried.versionField hs.truthful hdoc i
    obtain ⟨-, status, rfl⟩ := queueOperation_eq hqueue
    have hout : SendsCarried s.server.document.historyLimit (statePump { (s.conns i).client with
        nextOpNumber := (s.conns i).client.nextOpNumber + 1
        queue := (s.conns i).client.queue ++ [newPending (s.conns i).client op]
        status := status }) := by
      refine sendsCarried_pump (hs.conns i).clientId (fun p hp => ?_) hversion
      rcases List.mem_append.mp hp with hp | hp
      · exact (hs.conns i).queue p hp
      · rw [List.mem_singleton.mp hp]
        exact ⟨fitsBuffer_nextOpId (hs.conns i).clientId, ha.2⟩
    exact ⟨htruthful, hdoc, hset rfl { (hs.conns i).emit hout with }⟩
  | save i hi =>
    refine ⟨htruthful, hdoc, hset rfl ((hs.conns i).emit ⟨(hs.conns i).clientId, (hs.conns i).queue,
      fun m hm => ?_⟩)⟩
    rw [List.mem_singleton.mp hm]
    exact ⟨carried_saveMessage, fun h => by cases h⟩
  | deliver i message rest out hin hhandle =>
    have hversion := AllCarried.versionField htruthful hdoc i
    rw [setConn_conns_self] at hversion
    have hmessages := (hs.conns i).toClient
    rw [hin] at hmessages
    obtain ⟨hm, hrest⟩ := List.forall_mem_cons.mp hmessages
    have hout := sendsCarried_handle (hs.conns i).clientId (hs.conns i).queue hm hversion hhandle
    exact ⟨htruthful, hdoc, hset rfl { (hs.conns i).emit hout with toClient := hrest }⟩
  | join i message rest server clientId hthread hin hphase htype hlock hchoose =>
    obtain ⟨⟨hm, -⟩, hrest⟩ := (hs.conns i).take hin
    have hserver := (chooseClientId_server hchoose).2
    have hid := fitsBuffer_chooseClientId hm.sent.clientId.2 hchoose
    refine ⟨htruthful, hserver ▸ hdoc, ?_⟩
    rw [setConn_server]
    simp only [hserver]
    exact hset rfl { hs.conns i with
      peer := hid, toServer := hrest, thread := effectsCarried_joinEffects hid }
  | refuse i message rest hthread hin hphase htype =>
    obtain ⟨-, hrest⟩ := (hs.conns i).take hin
    exact ⟨htruthful, hdoc, hset rfl { hs.conns i with
      toServer := hrest
      thread := effectsCarried_send (List.forall_mem_singleton.mpr carried_joinRequired) }⟩
  | op i message rest document result hthread hin hphase htype hprocess =>
    obtain ⟨⟨hm, hplaced⟩, hrest⟩ := (hs.conns i).take hin
    have hmem : message ∈ (s.conns i).toServer := by
      rw [hin]
      exact List.mem_cons_self
    have hop := (hs.truthful.reached.pipeline i).incoming.hasOp hphase hmem htype
    obtain ⟨q, hq, -, hqop⟩ := (hs.truthful.reached.pipeline i).exists_queued_of_op hmem htype
    have hacc : Acceptable message.op := hqop ▸ (hs.truthful.queues i q hq).acceptable
    have hcall : (callOf (s.conns i).peer message).op = some message.op := by rw [callOf, if_pos hop]
    rw [processMessage_eq] at hprocess
    have hthread' := effectsCarried_resultEffects hdoc ha (hs.conns i).peer hm.sent.opId hcall
      (hplaced hop) hacc hprocess
    have hlimit : document.historyLimit = s.server.document.historyLimit := by
      cases processOutcome hprocess <;> rfl
    refine ⟨htruthful, ?_, ?_⟩
    · have hstring : (callOf (s.conns i).peer message).CString := by
        intro op hsome b hb
        obtain rfl := Option.some.inj (hcall.symm.trans hsome)
        exact (hplaced hop).sent.ch.2 b hb
      refine docInv_step hdoc hstring ?_
      rw [docStep, hprocess]
      rfl
    · rw [setConn_server]
      simp only [hlimit]
      exact hset rfl { hs.conns i with toServer := hrest, thread := hthread' }
  | answer i message rest effects hthread hin hphase htype hdispatch =>
    obtain ⟨⟨hm, -⟩, hrest⟩ := (hs.conns i).take hin
    exact ⟨htruthful, hdoc, hset rfl { hs.conns i with
      toServer := hrest, thread := effectsCarried_answer hdoc ha hm htype hdispatch }⟩
  | send i message rest hthread =>
    obtain ⟨hm, hrest⟩ := (hs.conns i).cons hthread
    exact ⟨htruthful, hdoc, hset rfl (hrest.push (hm message rfl))⟩
  | pipe i event rest hthread => exact ⟨htruthful, hdoc, hset rfl ((hs.conns i).cons hthread).2⟩
  | register i client rest hthread hlock =>
    exact ⟨htruthful, hdoc, hset rfl ((hs.conns i).cons hthread).2⟩
  | snapshot i rest hthread =>
    obtain ⟨-, hrest⟩ := (hs.conns i).cons hthread
    refine ⟨htruthful, hdoc, hset rfl { hrest with thread := fun e he m hm => ?_ }⟩
    rcases List.mem_cons.mp he with rfl | he
    · rw [← Option.some.inj hm]
      exact hdoc.carried_snapshot ha
    · exact hrest.thread e he m hm
  | broadcast i message exclude rest hthread hlock =>
    obtain ⟨hm, hrest⟩ := (hs.conns i).cons hthread
    refine ⟨htruthful, hdoc, hset rfl { hrest with thread := fun e he => ?_ }⟩
    rcases List.mem_append.mp he with he | he
    · obtain ⟨client, -, rfl⟩ := List.mem_map.mp he
      exact hm
    · rcases List.mem_cons.mp he with rfl | he
      · simp [Effect.message?]
      · exact hrest.thread e he
  | sendTo i fd message rest hthread =>
    obtain ⟨hm, hrest⟩ := (hs.conns i).cons hthread
    have hmid := hset (t := s) (i := i) rfl hrest
    exact ⟨htruthful, hdoc, forall_setConn (P := fun _ c => ConnCarried _ c)
      ((hmid fd).push (hm message rfl)) fun j _ => hmid j⟩
  | unlock i rest hthread => exact ⟨htruthful, hdoc, hset rfl ((hs.conns i).cons hthread).2⟩
  | saverTake written event rest hpipe => exact ⟨htruthful, hdoc, hs.conns⟩
  | saverTimer written => exact ⟨htruthful, hdoc, hs.conns⟩

end Sys

end TermSync
