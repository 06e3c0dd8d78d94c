import TermSync.Terminal
import TermSync.Proofs.ConvergenceProofs
import TermSync.Proofs.CursorProofs

/-!
# Proofs: one terminal edits like a local editor

The pending operations of the terminal (in flight, then queued) lead from its confirmed characters to
the characters of the local editor (`Projects`). A single client is never transformed against anything,
so what the server commits is what the terminal has sent, and an ACK moves the first pending operation
over to the confirmed text.
-/

namespace TermSync

open Foundations

/-! ## The local editor -/

theorem Editor.press_bound {e : Editor} (h : e.cursor ≤ e.chars.length) (key : TerminalKey) :
    (e.press key).cursor ≤ (e.press key).chars.length := by
  have hinsert (c : Char) : (e.insert c).cursor ≤ (e.insert c).chars.length := by
    simp only [Editor.insert, List.length_insertIdx_of_le_length h]
    omega
  have hbackspace : e.backspace.cursor ≤ e.backspace.chars.length := by
    unfold Editor.backspace
    split_ifs with hzero
    · exact h
    · simp only [List.length_eraseIdx_of_lt (show e.cursor - 1 < e.chars.length by omega)]
      omega
  cases key with
  | left => exact (Nat.sub_le _ _).trans h
  | right =>
    simp only [Editor.press]
    split_ifs with hlt
    · exact hlt
    · exact h
  | backspace => exact hbackspace
  | char c =>
    simp only [Editor.press]
    split_ifs
    · exact hinsert _
    · exact hbackspace
    · exact hinsert _

/-! ## Pending operations -/

/-- The operation of a key turns these characters into those. -/
inductive OpEdits : TsOperation → List Char → List Char → Prop
  | insert (pos : ℕ) (c : Char) (ds : List Char) (hpos : pos ≤ ds.length) (hc : c ≠ '\x00') :
      OpEdits (tsOperationInit .insert pos (String.utf8EncodeChar c)) ds (ds.insertIdx pos c)
  | delete (pos : ℕ) (ds : List Char) (hpos : pos < ds.length) :
      OpEdits (tsOperationInit .delete pos []) ds (ds.eraseIdx pos)

/-- The operations, one after the other, turn these characters into those. -/
def Projects : List Char → List TsOperation → List Char → Prop
  | ds, [], es => ds = es
  | ds, op :: ops, es => ∃ mid, OpEdits op ds mid ∧ Projects mid ops es

theorem Projects.concat {ds es es' : List Char} {ops : List TsOperation} {op : TsOperation}
    (h : Projects ds ops es) (hop : OpEdits op es es') : Projects ds (ops ++ [op]) es' := by
  induction ops generalizing ds with
  | nil =>
    obtain rfl : ds = es := h
    exact ⟨es', hop, rfl⟩
  | cons first ops ih =>
    obtain ⟨mid, hfirst, hrest⟩ := h
    exact ⟨mid, hfirst, ih hrest⟩

theorem OpEdits.length {op : TsOperation} {ds es : List Char} (h : OpEdits op ds es) :
    (es.length : ℤ) = ds.length + pendingOperationDelta op := by
  cases h with
  | insert pos c _ hpos hc =>
    rw [List.length_insertIdx_of_le_length hpos]
    simp [pendingOperationDelta, tsOperationInit]
  | delete pos _ hpos =>
    rw [List.length_eraseIdx_of_lt hpos]
    simp only [pendingOperationDelta, tsOperationInit]
    omega

/-- The operation has its effect on the text. -/
theorem OpEdits.apply {op : TsOperation} {ds es : List Char} {text : Bytes} (h : OpEdits op ds es)
    (htext : Denotes text ds) :
    ∃ updated, tsApplyOperationToText text op = some updated ∧ Denotes updated es := by
  cases h with
  | insert pos c _ hpos hc =>
    have hch : (tsOperationInit .insert pos (String.utf8EncodeChar c)).ch =
        String.utf8EncodeChar c := by
      have hlength : (String.utf8EncodeChar c).length ≤ 4 :=
        (show WellFormedChar (String.utf8EncodeChar c) from ⟨c, hc, rfl⟩).length_le_four
      exact List.take_of_length_le (hlength.trans (by decide))
    obtain ⟨updated, happly, hupdated⟩ := htext.apply (fun _ => ⟨hc, hch⟩)
    simp only [opEdit, tsOperationInit, Edit.apply, min_eq_left hpos] at hupdated
    exact ⟨updated, happly, hupdated⟩
  | delete pos _ hpos =>
    have hkind : (tsOperationInit .delete pos []).kind ≠ .insert := by simp [tsOperationInit]
    obtain ⟨updated, happly, hupdated⟩ := htext.apply (c := ' ') (fun hk => absurd hk hkind)
    simp only [opEdit, tsOperationInit, hpos, if_true, Edit.apply] at hupdated
    exact ⟨updated, happly, hupdated⟩

/-- The base of the operation is the current version, so nothing transforms it. -/
theorem OpEdits.transformedOp {op : TsOperation} {ds es : List Char} {doc : TsDocument}
    (h : OpEdits op ds es) (hwindow : HistoryWindow doc) (htext : Denotes doc.text ds) :
    transformedOp doc doc.version op = op := by
  rw [TermSync.transformedOp, hwindow.entriesSince_version, List.foldl_nil]
  cases h with
  | insert pos c _ hpos hc =>
    simp only [normalizeForApply, tsOperationInit, htext.charCount]
    rw [if_neg (by omega)]
  | delete pos _ hpos =>
    simp only [normalizeForApply, tsOperationInit, htext.charCount]
    rw [if_pos hpos]

theorem OpEdits.acceptable {op : TsOperation} {ds es : List Char} (h : OpEdits op ds es) :
    Acceptable op := by
  cases h with
  | insert pos c _ hpos hc => exact (wellFormed_insert hc pos).acceptable
  | delete pos _ hpos => exact ⟨by simp [tsOperationInit], by simp [tsOperationInit]⟩

theorem statePump_of_inflight {state : TsClientState} {p : TsPendingOperation}
    (h : state.inflight = some p) : statePump state = (state, []) := by
  rw [statePump, h]

theorem Projects.length {ds es : List Char} {ops : List TsOperation} (h : Projects ds ops es) :
    (es.length : ℤ) = ds.length + (ops.map pendingOperationDelta).sum := by
  induction ops generalizing ds with
  | nil =>
    obtain rfl : ds = es := h
    simp
  | cons op ops ih =>
    obtain ⟨mid, hop, hrest⟩ := h
    rw [ih hrest, hop.length, List.map_cons, List.sum_cons, add_assoc]

/-- The estimate of the length is exact. -/
theorem projectedContentLength_eq {client : TerminalClient} {ds es : List Char}
    (htext : Denotes client.state.content ds) (h : Projects ds (pendingOps client.state) es) :
    projectedContentLength client = es.length := by
  rw [projectedContentLength_eq_toNat, estimatedLength_eq, htext.charCount, ← h.length,
    Int.toNat_natCast]

/-! ## What is under way -/

/-- The message that an effect of a thread brings to its own client. -/
def Effect.brings (doc : TsDocument) : Effect → Option TsMessage
  | .send message => some message
  | .snapshot => some (tsDocumentSnapshot doc)
  | _ => none

/-- The messages that the client will get next. -/
def coming (doc : TsDocument) (c : Conn) : List TsMessage :=
  c.toClient ++ c.thread.filterMap (Effect.brings doc)

/-- The client has not handled a DOC_STATE and has nothing pending. -/
structure Fresh (c : Conn) : Prop where
  inflight : c.client.inflight = none
  queue : c.client.queue = []
  received : ∀ message ∈ c.received, message.type ≠ typeDocState

/-- The client has not got the document yet. -/
inductive Handshake (server : TsServer) (c : Conn) : Prop
  | joining (clientId : Bytes) (hphase : c.phase = .joining) (hclients : server.clients = [])
      (hthread : c.thread = []) (hin : c.toServer = [joinMessage clientId]) (hout : c.toClient = [])
      (hfresh : Fresh c)
  | opening (welcome : List TsMessage) (hphase : c.phase = .serving) (hin : c.toServer = [])
      (hout : coming server.document c = welcome ++ [tsDocumentSnapshot server.document])
      (hwelcome : ∀ message ∈ welcome, message.type = typeWelcome) (hfresh : Fresh c)

/-- The ACK of the operation in flight, which has been committed as it was sent. -/
structure Answers (doc : TsDocument) (p : TsPendingOperation) (ack : TsMessage) : Prop where
  type : ack.type = typeAck
  opId : ack.opId = p.opId
  hasOp : ack.hasOp = true
  op : ack.op = p.op
  version : ack.version = doc.version

/-- The client has the document up to the operation in flight. -/
inductive Session (doc : TsDocument) (c : Conn) : Prop
  | resting (hin : c.toServer = []) (hout : coming doc c = []) (hinflight : c.client.inflight = none)
      (hqueue : c.client.queue = []) (htext : c.client.content = doc.text)
      (hversion : c.client.version = doc.version)
  | asked (p : TsPendingOperation) (clientId : Bytes) (hin : c.toServer = [opMessage clientId p])
      (hout : coming doc c = []) (hinflight : c.client.inflight = some p)
      (hbase : p.baseVersion = doc.version) (htext : c.client.content = doc.text)
      (hversion : c.client.version = doc.version)
  | answered (p : TsPendingOperation) (ack : TsMessage) (hin : c.toServer = [])
      (hout : coming doc c = [ack]) (hinflight : c.client.inflight = some p)
      (hack : Answers doc p ack)
      (htext : tsApplyOperationToText c.client.content p.op = some doc.text)

/-- An effect that concerns nobody but the client with this id. -/
def Effect.Own (clientId : Bytes) : Effect → Prop
  | .register client => client.clientId = clientId
  | .broadcast _ excludeClientId => excludeClientId = clientId
  | .sendTo _ _ => False
  | _ => True

/-- The system mirrors the local editor: before the document has arrived, the editor has the text of
the server, and afterwards the pending operations lead from the client's text to the editor's. -/
structure Mirrors (sys : Sys) (e : Editor) : Prop where
  accepted : sys.accepted = 1
  window : HistoryWindow sys.server.document
  bound : e.cursor ≤ e.chars.length
  clients : ∀ client ∈ sys.server.clients, client.clientId = (sys.conns 0).peer.clientId
  thread : ∀ effect ∈ (sys.conns 0).thread, effect.Own (sys.conns 0).peer.clientId
  ids : ∀ p ∈ pending (sys.conns 0).client, snprintf tsMaxOpId p.1 = p.1
  stage : (Handshake sys.server (sys.conns 0) ∧ e.cursor = 0 ∧
      Denotes sys.server.document.text e.chars) ∨
    ((sys.conns 0).phase = .serving ∧ Session sys.server.document (sys.conns 0) ∧
      ∃ ds, Denotes (sys.conns 0).client.content ds ∧
        Projects ds (pendingOps (sys.conns 0).client) e.chars)

/-- A client with nothing in flight that has the text of the document rests, or it has sent its next
operation. -/
theorem session_pump {doc : TsDocument} {c : Conn} {state : TsClientState}
    (hclient : c.client = (statePump state).1) (hin : c.toServer = (statePump state).2)
    (hout : coming doc c = []) (hinflight : state.inflight = none)
    (htext : state.content = doc.text) (hversion : state.version = doc.version) : Session doc c := by
  rcases pump_cases state with ⟨hidle, hpump⟩ | ⟨next, queue, -, hqueue, hpump⟩
  · rw [hpump] at hclient hin
    refine .resting hin hout (by rw [hclient, hinflight]) ?_ (by rw [hclient, htext])
      (by rw [hclient, hversion])
    rw [hclient]
    exact hidle.resolve_left (not_not.mpr hinflight)
  · rw [hpump] at hclient hin
    refine .asked _ state.clientId hin hout (by rw [hclient]) hversion (by rw [hclient, htext])
      (by rw [hclient, hversion])

/-- Replacing the connection. -/
theorem Mirrors.set {t : Sys} {c : Conn} {e : Editor} (haccepted : t.accepted = 1)
    (hwindow : HistoryWindow t.server.document) (hbound : e.cursor ≤ e.chars.length)
    (hclients : ∀ client ∈ t.server.clients, client.clientId = c.peer.clientId)
    (hthread : ∀ effect ∈ c.thread, effect.Own c.peer.clientId)
    (hids : ∀ p ∈ pending c.client, snprintf tsMaxOpId p.1 = p.1)
    (hstage : (Handshake t.server c ∧ e.cursor = 0 ∧ Denotes t.server.document.text e.chars) ∨
      (c.phase = .serving ∧ Session t.server.document c ∧
        ∃ ds, Denotes c.client.content ds ∧ Projects ds (pendingOps c.client) e.chars)) :
    Mirrors (t.setConn 0 c) e := by
  refine ⟨haccepted, hwindow, hbound, ?_, ?_, ?_, ?_⟩ <;> rw [Sys.setConn_conns_self]
  · exact hclients
  · exact hthread
  · exact hids
  · exact hstage

/-- Once the client has handled a DOC_STATE, it has the document. -/
theorem Mirrors.session {sys : Sys} {e : Editor} (h : Mirrors sys e)
    (hdoc : ∃ message ∈ (sys.conns 0).received, message.type = typeDocState) :
    (sys.conns 0).phase = .serving ∧ Session sys.server.document (sys.conns 0) ∧
      ∃ ds, Denotes (sys.conns 0).client.content ds ∧
        Projects ds (pendingOps (sys.conns 0).client) e.chars := by
  obtain ⟨message, hmem, htype⟩ := hdoc
  rcases h.stage with ⟨hhandshake, -⟩ | hsession
  · cases hhandshake with
    | joining _ _ _ _ _ _ hfresh => exact absurd htype (hfresh.received message hmem)
    | opening _ _ _ _ _ hfresh => exact absurd htype (hfresh.received message hmem)
  · exact hsession

/-- A key queues an operation. -/
theorem Mirrors.key {sys sys' : Sys} {e e' : Editor} {op : TsOperation} (h : Mirrors sys e)
    (hdoc : ∃ message ∈ (sys.conns 0).received, message.type = typeDocState)
    (hop : OpEdits op e.chars e'.chars) (hbound : e'.cursor ≤ e'.chars.length)
    (hstep : sys.step (.key 0 op) = some sys') : Mirrors sys' e' := by
  obtain ⟨hphase, hsession, ds, htext, hprojects⟩ := h.session hdoc
  cases Sys.stepOutcome hstep with
  | key i op out hi hqueue =>
    obtain ⟨-, status, rfl⟩ := queueOperation_eq hqueue
    generalize hstate : ({ (sys.conns 0).client with
      nextOpNumber := (sys.conns 0).client.nextOpNumber + 1
      queue := (sys.conns 0).client.queue ++ [newPending (sys.conns 0).client op]
      status := status } : TsClientState) = state
    have hpending : pending state =
        pending (sys.conns 0).client ++ [(nextOpId (sys.conns 0).client, op)] := by
      rw [← hstate, pending, pending, ← List.append_assoc, List.map_append]
      rfl
    have hcontent : state.content = (sys.conns 0).client.content := by rw [← hstate]
    have hversion : state.version = (sys.conns 0).client.version := by rw [← hstate]
    have hinflight : state.inflight = (sys.conns 0).client.inflight := by rw [← hstate]
    refine .set h.accepted h.window hbound h.clients h.thread ?_ (Or.inr ?_)
    · simp only [Conn.emit, pending_statePump, hpending]
      refine List.forall_mem_append.mpr ⟨h.ids, ?_⟩
      simp [nextOpId, snprintf_snprintf]
    refine ⟨hphase, ?_, ds, ?_, ?_⟩
    · cases hsession with
      | resting hin hout hnone hqueue htext hversion' =>
        exact session_pump rfl (by simp only [Conn.emit, hin, List.nil_append]) hout
          (hinflight.trans hnone) (hcontent.trans htext) (hversion.trans hversion')
      | asked p clientId hin hout hsome hbase htext hversion' =>
        have hpump := statePump_of_inflight (hinflight.trans hsome)
        refine .asked p clientId ?_ hout ?_ hbase ?_ ?_ <;> simp only [Conn.emit, hpump]
        · rw [hin, List.append_nil]
        · exact hinflight.trans hsome
        · exact hcontent.trans htext
        · exact hversion.trans hversion'
      | answered p ack hin hout hsome hack htext =>
        have hpump := statePump_of_inflight (hinflight.trans hsome)
        refine .answered p ack ?_ hout ?_ hack ?_ <;> simp only [Conn.emit, hpump]
        · rw [hin, List.append_nil]
        · exact hinflight.trans hsome
        · rw [hcontent]
          exact htext
    · simp only [Conn.emit, statePump_content, hcontent]
      exact htext
    · simp only [Conn.emit, pendingOps, pending_statePump, hpending, List.map_append]
      exact hprojects.concat hop

/-! ## Messages of the server -/

theorem handleMessage_docState (state : TsClientState) {message : TsMessage}
    (htype : message.type = typeDocState) :
    tsClientStateHandleMessage state message =
      some (tsClientStateSetDocument state (message.content.getD [])
        (if message.version < 0 then 0 else message.version)
        (if message.historyStartVersion < 0 then 0 else message.historyStartVersion)) := by
  rw [tsClientStateHandleMessage, if_pos htype]

theorem handleMessage_welcome (state : TsClientState) {message : TsMessage}
    (htype : message.type = typeWelcome) :
    ∃ clientId status, tsClientStateHandleMessage state message =
      some ({ state with clientId := clientId, status := status }, []) := by
  rw [tsClientStateHandleMessage, if_neg (by rw [htype]; decide), if_pos htype]
  exact ⟨_, _, rfl⟩

/-- The ACK of the operation in flight. -/
theorem handleMessage_ack {state : TsClientState} {message : TsMessage} {p : TsPendingOperation}
    {text : Bytes} (htype : message.type = typeAck) (hinflight : state.inflight = some p)
    (hid : message.opId = p.opId) (hop : message.hasOp = true) (hversion : 0 ≤ message.version)
    (happly : tsApplyOperationToText state.content message.op = some text) :
    ∃ status, tsClientStateHandleMessage state message =
      some (statePump { state with
        content := text
        version := message.version
        inflight := none
        status := status }) := by
  rw [tsClientStateHandleMessage, if_neg (by rw [htype]; decide), if_neg (by rw [htype]; decide),
    if_pos htype, handleAck, if_pos (by rw [hinflight, hid]; rfl), applyAuthoritativeOp, if_pos hop,
    happly, if_pos hversion]
  exact ⟨_, rfl⟩

/-- A message makes nothing new pending. -/
theorem pending_handleMessage {state : TsClientState} {message : TsMessage}
    {out : TsClientState × List TsMessage}
    (h : tsClientStateHandleMessage state message = some out) :
    (pending out.1).Sublist (pending state) := by
  have hqueue {state' : TsClientState} (hinflight : state'.inflight = none)
      (heq : state'.queue = state.queue) : (pending state').Sublist (pending state) := by
    rw [pending, pending, hinflight, heq]
    exact (List.sublist_append_right ..).map _
  cases handleOutcome h with
  | docState =>
    rw [tsClientStateSetDocument, pending_statePump]
    exact hqueue rfl rfl
  | ack _ applied _ _ happly =>
    obtain ⟨content, version, rfl⟩ := applyAuthoritativeOp_frame happly
    rw [pending_statePump]
    exact hqueue rfl rfl
  | remote _ applied _ _ happly =>
    obtain ⟨content, version, rfl⟩ := applyAuthoritativeOp_frame happly
    exact List.Sublist.refl _
  | resync => exact hqueue rfl rfl
  | _ => exact List.Sublist.refl _

/-- What comes next is what the client handles. -/
theorem coming_deliver {doc : TsDocument} {c c' : Conn} {message : TsMessage} {rest : List TsMessage}
    (hin : c.toClient = message :: rest) (hrest : c'.toClient = rest)
    (hthread : c'.thread = c.thread) : coming doc c = message :: coming doc c' := by
  rw [coming, coming, hin, hrest, hthread, List.cons_append]

theorem Mirrors.deliver {sys sys' : Sys} {e : Editor} (h : Mirrors sys e)
    (hstep : sys.step (.deliver 0) = some sys') : Mirrors sys' e := by
  have hnonneg := h.window.version_nonneg
  cases Sys.stepOutcome hstep with
  | deliver i message rest out hin hhandle =>
    have hcoming : coming sys.server.document (sys.conns 0) =
        message :: coming sys.server.document { (sys.conns 0).emit out with
          toClient := rest, received := (sys.conns 0).received ++ [message] } :=
      coming_deliver hin rfl rfl
    refine .set h.accepted h.window h.bound h.clients h.thread
      (fun p hp => h.ids p ((pending_handleMessage hhandle).subset hp)) ?_
    rcases h.stage with ⟨hhandshake, hzero, htext⟩ | ⟨hphase, hsession, ds, htext, hprojects⟩
    · cases hhandshake with
      | joining _ _ _ _ _ hout => exact absurd (hin.symm.trans hout) (List.cons_ne_nil _ _)
      | opening welcome hphase hserver hout hwelcome hfresh =>
        rw [hcoming] at hout
        cases welcome with
        | nil =>
          obtain ⟨rfl, hrest⟩ := List.cons.inj hout
          rw [handleMessage_docState _ rfl, Option.some.injEq] at hhandle
          subst hhandle
          refine Or.inr ⟨hphase, ?_, e.chars, ?_, ?_⟩
          · refine session_pump rfl (by simp only [Conn.emit, hserver, List.nil_append]; rfl) hrest
              rfl rfl (if_neg (not_lt.mpr hnonneg))
          · simp only [Conn.emit, tsClientStateSetDocument, statePump_content]
            exact htext
          · simp only [Conn.emit, tsClientStateSetDocument, pendingOps, pending_statePump]
            simp only [pending, hfresh.queue]
            rfl
        | cons first welcome =>
          obtain ⟨rfl, hrest⟩ := List.cons.inj hout
          have htype := hwelcome message List.mem_cons_self
          obtain ⟨clientId, status, heq⟩ := handleMessage_welcome (sys.conns 0).client htype
          obtain rfl := Option.some.inj (heq.symm.trans hhandle)
          refine Or.inl ⟨.opening welcome hphase ?_ hrest
            (fun m hm => hwelcome m (List.mem_cons_of_mem _ hm)) ⟨hfresh.inflight, hfresh.queue, ?_⟩,
            hzero, htext⟩
          · simp only [Conn.emit, hserver, List.append_nil]
          · refine List.forall_mem_append.mpr ⟨hfresh.received, ?_⟩
            simp only [List.forall_mem_singleton, htype]
            decide
    · cases hsession with
      | resting _ hout => rw [hcoming] at hout; cases hout
      | asked _ _ _ hout => rw [hcoming] at hout; cases hout
      | answered p ack hserver hout hinflight hack happly =>
        obtain ⟨rfl, hrest⟩ := List.cons.inj (hcoming.symm.trans hout)
        obtain ⟨status, heq⟩ := handleMessage_ack hack.type hinflight hack.opId hack.hasOp
          (hack.version ▸ hnonneg) (by rw [hack.op]; exact happly)
        obtain rfl := Option.some.inj (heq.symm.trans hhandle)
        obtain ⟨mid, hedit, hqueue⟩ : ∃ mid, OpEdits p.op ds mid ∧
            Projects mid ((sys.conns 0).client.queue.map TsPendingOperation.op) e.chars := by
          rw [pendingOps_eq, hinflight] at hprojects
          exact hprojects
        obtain ⟨updated, hupdated, hmid⟩ := hedit.apply htext
        obtain rfl := Option.some.inj (happly.symm.trans hupdated)
        refine Or.inr ⟨hphase, ?_, mid, ?_, ?_⟩
        · exact session_pump rfl (by simp only [Conn.emit, hserver, List.nil_append]) hrest
            rfl rfl hack.version
        · simp only [Conn.emit, statePump_content]
          exact hmid
        · simp only [Conn.emit, pendingOps, pending_statePump]
          rw [← pendingOps, pendingOps_eq]
          exact hqueue

/-! ## The thread of the server -/

/-- The thread goes on to its next effect, which changes nothing about what comes to the client. -/
theorem Mirrors.goOn {sys t : Sys} {e : Editor} {thread : List Effect} {toClient : List TsMessage}
    (h : Mirrors sys e) (hne : (sys.conns 0).thread ≠ []) (haccepted : t.accepted = sys.accepted)
    (hdoc : t.server.document = sys.server.document)
    (hclients : ∀ client ∈ t.server.clients, client.clientId = (sys.conns 0).peer.clientId)
    (hthread : ∀ effect ∈ thread, effect.Own (sys.conns 0).peer.clientId)
    (hcoming : coming sys.server.document
      { sys.conns 0 with toClient := toClient, thread := thread } =
        coming sys.server.document (sys.conns 0)) :
    Mirrors (t.setConn 0 { sys.conns 0 with toClient := toClient, thread := thread }) e := by
  refine .set (haccepted.trans h.accepted) (hdoc ▸ h.window) h.bound hclients hthread h.ids ?_
  rw [hdoc]
  rcases h.stage with ⟨hhandshake, hzero, htext⟩ | ⟨hphase, hsession, hprojects⟩
  · refine Or.inl ⟨?_, hzero, htext⟩
    cases hhandshake with
    | joining _ _ _ hthread => exact absurd hthread hne
    | opening welcome hphase hin hout hwelcome hfresh =>
      refine .opening welcome hphase hin ?_ hwelcome ⟨hfresh.inflight, hfresh.queue, hfresh.received⟩
      rw [hdoc]
      exact hcoming.trans hout
  · refine Or.inr ⟨hphase, ?_, hprojects⟩
    cases hsession with
    | resting hin hout hinflight hqueue htext hversion =>
      exact .resting hin (hcoming.trans hout) hinflight hqueue htext hversion
    | asked p clientId hin hout hinflight hbase htext hversion =>
      exact .asked p clientId hin (hcoming.trans hout) hinflight hbase htext hversion
    | answered p ack hin hout hinflight hack happly =>
      exact .answered p ack hin (hcoming.trans hout) hinflight hack happly

/-- The server commits the operation in flight as it was sent. -/
theorem Mirrors.commit {sys : Sys} {e : Editor} {message : TsMessage} {rest : List TsMessage}
    {document : TsDocument} {result : TsProcessResult} (h : Mirrors sys e)
    (hin : (sys.conns 0).toServer = message :: rest) (hphase : (sys.conns 0).phase = .serving)
    (hprocess : processMessage sys.server (sys.conns 0).peer message = some (document, result)) :
    Mirrors
      ({ sys with
          server := { sys.server with document := document }
          processed := sys.processed ++ [Processed.mk 0 message result] }.setConn 0
        { sys.conns 0 with
          toServer := rest, thread := resultEffects (sys.conns 0).peer.clientId result }) e := by
  rcases h.stage with ⟨hhandshake, -⟩ | ⟨-, hsession, ds, htext, hprojects⟩
  · cases hhandshake with
    | joining _ hjoining => rw [hphase] at hjoining; cases hjoining
    | opening _ _ hnil => rw [hin] at hnil; cases hnil
  cases hsession with
  | resting hnil => rw [hin] at hnil; cases hnil
  | answered _ _ hnil => rw [hin] at hnil; cases hnil
  | asked p clientId hserver hout hinflight hbase hcontent hversion =>
    obtain ⟨rfl, rfl⟩ := List.cons.inj (hin.symm.trans hserver)
    obtain ⟨mid, hedit, -⟩ : ∃ mid, OpEdits p.op ds mid ∧
        Projects mid ((sys.conns 0).client.queue.map TsPendingOperation.op) e.chars := by
      rw [pendingOps_eq, hinflight] at hprojects
      exact hprojects
    have hbefore : Denotes sys.server.document.text ds := hcontent ▸ htext
    have hsame : transformedOp sys.server.document p.baseVersion p.op = p.op := by
      rw [hbase]
      exact hedit.transformedOp h.window hbefore
    have hid : snprintf tsMaxOpId p.opId = p.opId :=
      h.ids _ (by rw [pending, hinflight]; exact List.mem_cons_self)
    rw [processMessage_eq] at hprocess
    cases processOutcome hprocess with
    | error _ hop => exact absurd hedit.acceptable (hop p.op rfl)
    | resync op _ _ hbad =>
      have hbad : p.baseVersion < sys.server.document.historyStartVersion ∨
        sys.server.document.version < p.baseVersion := hbad
      have hstart := h.window.start
      omega
    | ok op updated hcall hop hstart hversion hmax happly =>
      obtain ⟨-, rfl⟩ := callOf_op hcall
      simp only [callOf, opMessage] at happly
      rw [hsame] at happly
      refine .set h.accepted (h.window.accepted rfl updated) h.bound h.clients ?_ h.ids
        (Or.inr ⟨hphase, ?_, ds, htext, hprojects⟩)
      · simp [resultEffects, okResult, Effect.Own, callOf]
      · have hnothing := List.append_eq_nil_iff.mp hout
        refine .answered p
          (okAck (acceptedDocument sys.server.document (acceptedEntry sys.server.document
            (sys.conns 0).peer.clientId p.opId p.baseVersion p.op) updated)
            (sys.conns 0).peer.clientId p.opId p.baseVersion p.op
            (transformedOp sys.server.document p.baseVersion p.op))
          rfl ?_ hinflight ⟨rfl, hid, rfl, hsame, rfl⟩ ?_
        · simp only [coming, hnothing.1]
          rfl
        · rw [hcontent]
          exact happly

/-- A step of the thread. -/
theorem Mirrors.serve {sys sys' : Sys} {e : Editor} (h : Mirrors sys e)
    (hstep : sys.step (.serve 0) = some sys') : Mirrors sys' e := by
  have hrest {effect : Effect} {rest : List Effect} (hthread : (sys.conns 0).thread = effect :: rest) :
      effect.Own (sys.conns 0).peer.clientId ∧
        ∀ later ∈ rest, later.Own (sys.conns 0).peer.clientId :=
    List.forall_mem_cons.mp (hthread ▸ h.thread)
  cases Sys.stepOutcome hstep with
  | join i message rest server clientId hthread hin hphase htype hlock hchoose =>
    rcases h.stage with ⟨hhandshake, hzero, htext⟩ | ⟨hserving, -⟩
    · cases hhandshake with
      | joining _ _ hclients hnil hjoin hout hfresh =>
        obtain ⟨hsame, hdoc⟩ := chooseClientId_server hchoose
        obtain ⟨-, rfl⟩ := List.cons.inj (hin.symm.trans hjoin)
        refine .set h.accepted (hdoc ▸ h.window) h.bound ?_ ?_ h.ids
          (Or.inl ⟨.opening [welcomeMessage clientId] rfl rfl ?_ ?_
            ⟨hfresh.inflight, hfresh.queue, hfresh.received⟩, hzero, hdoc ▸ htext⟩)
        · simp [hsame, hclients]
        · simp [joinEffects, Effect.Own]
        · simp [coming, hout, joinEffects, List.filterMap_cons, Effect.brings]
        · simp [welcomeMessage]
      | opening _ hserving => rw [hphase] at hserving; cases hserving
    · rw [hphase] at hserving
      cases hserving
  | refuse i message rest hthread hin hphase htype =>
    rcases h.stage with ⟨hhandshake, -⟩ | ⟨hserving, -⟩
    · cases hhandshake with
      | joining _ _ _ _ hjoin =>
        obtain ⟨rfl, -⟩ := List.cons.inj (hin.symm.trans hjoin)
        exact absurd rfl htype
      | opening _ hserving => rw [hphase] at hserving; cases hserving
    · rw [hphase] at hserving
      cases hserving
  | op i message rest document result hthread hin hphase htype hprocess =>
    exact h.commit hin hphase hprocess
  | answer i message rest effects hthread hin hphase htype hdispatch =>
    rcases h.stage with ⟨hhandshake, -⟩ | ⟨-, hsession, -⟩
    · cases hhandshake with
      | joining _ hjoining => rw [hphase] at hjoining; cases hjoining
      | opening _ _ hnil => rw [hin] at hnil; cases hnil
    · cases hsession with
      | resting hnil => rw [hin] at hnil; cases hnil
      | answered _ _ hnil => rw [hin] at hnil; cases hnil
      | asked p clientId hserver =>
        obtain ⟨rfl, -⟩ := List.cons.inj (hin.symm.trans hserver)
        exact absurd rfl htype
  | send i message rest hthread =>
    exact h.goOn (by simp [hthread]) rfl rfl h.clients (hrest hthread).2
      (by simp [coming, hthread, Effect.brings])
  | pipe i event rest hthread =>
    exact h.goOn (by simp [hthread]) rfl rfl h.clients (hrest hthread).2
      (by simp [coming, hthread, List.filterMap_cons, Effect.brings])
  | register i client rest hthread hlock =>
    exact h.goOn (by simp [hthread]) rfl rfl
      (List.forall_mem_cons.mpr ⟨(hrest hthread).1, h.clients⟩) (hrest hthread).2
      (by simp [coming, hthread, List.filterMap_cons, Effect.brings])
  | snapshot i rest hthread =>
    exact h.goOn (by simp [hthread]) rfl rfl h.clients
      (List.forall_mem_cons.mpr ⟨trivial, (hrest hthread).2⟩)
      (by simp [coming, hthread, Effect.brings])
  | broadcast i message exclude rest hthread hlock =>
    have hnone : Sys.broadcastSends sys message exclude = [] := by
      rw [Sys.broadcastSends, List.map_eq_nil_iff, List.filter_eq_nil_iff]
      intro client hclient
      have hown : exclude = (sys.conns 0).peer.clientId := (hrest hthread).1
      simp [h.clients client hclient, hown]
    rw [hnone, List.nil_append]
    exact h.goOn (by simp [hthread]) rfl rfl h.clients
      (List.forall_mem_cons.mpr ⟨trivial, (hrest hthread).2⟩)
      (by simp [coming, hthread, List.filterMap_cons, Effect.brings])
  | sendTo i fd message rest hthread => exact (hrest hthread).1.elim
  | unlock i rest hthread =>
    exact h.goOn (by simp [hthread]) rfl rfl h.clients (hrest hthread).2
      (by simp [coming, hthread, List.filterMap_cons, Effect.brings])

/-! ## Keys -/

/-- The cursor moves as in the editor `e'`, and an operation that leads there is queued if the text
changes. -/
def Follows (client : TerminalClient) (e e' : Editor) (out : TerminalClient × Option TerminalCall) :
    Prop :=
  out.1 = { client with cursorPos := e'.cursor } ∧
    (out.2 = none ∧ e'.chars = e.chars ∨
      ∃ op, out.2 = some (.queueOperation op) ∧ OpEdits op e.chars e'.chars)

theorem follows_queueInsert {client : TerminalClient} {e : Editor} {c : Char}
    (hcursor : client.cursorPos = e.cursor) (hbound : e.cursor ≤ e.chars.length)
    (hc : c ≠ '\x00') :
    Follows client e (e.insert c) (queueInsert client (String.utf8EncodeChar c)) := by
  refine ⟨by simp only [queueInsert, hcursor, Editor.insert], Or.inr ⟨_, rfl, ?_⟩⟩
  rw [hcursor]
  exact .insert e.cursor c e.chars hbound hc

theorem follows_deleteBeforeCursor {client : TerminalClient} {e : Editor}
    (hcursor : client.cursorPos = e.cursor) (hbound : e.cursor ≤ e.chars.length) :
    Follows client e e.backspace (deleteBeforeCursor client) := by
  unfold deleteBeforeCursor Editor.backspace
  rw [hcursor]
  split_ifs with hzero
  · exact ⟨by rw [← hcursor], Or.inl ⟨rfl, rfl⟩⟩
  · exact ⟨rfl, Or.inr ⟨_, rfl, .delete (e.cursor - 1) e.chars (by omega)⟩⟩

theorem follows_handleKey {iswprint : Char → Bool} (hnul : iswprint '\x00' = false)
    {client : TerminalClient} {e : Editor} {key : TerminalKey}
    (hcursor : client.cursorPos = e.cursor) (hbound : e.cursor ≤ e.chars.length)
    (hlength : projectedContentLength client = e.chars.length) (hkey : key.Edits iswprint) :
    Follows client e (e.press key) (handleKey iswprint client key) := by
  cases key with
  | left =>
    simp only [handleKey, Editor.press, hcursor]
    split_ifs with hpos
    · exact ⟨rfl, Or.inl ⟨rfl, rfl⟩⟩
    · have hzero : e.cursor - 1 = client.cursorPos := by omega
      exact ⟨by rw [hzero], Or.inl ⟨rfl, rfl⟩⟩
  | right =>
    simp only [handleKey, Editor.press, hcursor, hlength]
    split_ifs
    · exact ⟨rfl, Or.inl ⟨rfl, rfl⟩⟩
    · exact ⟨by rw [← hcursor], Or.inl ⟨rfl, rfl⟩⟩
  | backspace => exact follows_deleteBeforeCursor hcursor hbound
  | char c =>
    have hcontrol : c ≠ ctrlQ ∧ c ≠ ctrlS := by
      rcases hkey with rfl | rfl | rfl | rfl | ⟨hq, hs, -⟩
      · decide
      · decide
      · decide
      · decide
      · exact ⟨hq, hs⟩
    simp only [handleKey, Editor.press, if_neg hcontrol.1, if_neg hcontrol.2]
    split_ifs with hnewline hdelete hprint
    · exact follows_queueInsert hcursor hbound (by decide)
    · exact follows_deleteBeforeCursor hcursor hbound
    · refine follows_queueInsert hcursor hbound fun hc => ?_
      rw [hc, hnul] at hprint
      cases hprint
    · rcases hkey with hc | hc | hc | hc | ⟨-, -, hc⟩
      · exact absurd (Or.inl hc) hnewline
      · exact absurd (Or.inr hc) hnewline
      · exact absurd (Or.inl hc) hdelete
      · exact absurd (Or.inr hc) hdelete
      · exact absurd hc hprint

/-! ## Runs -/

/-- The cursor moves. -/
theorem Mirrors.move {sys : Sys} {e e' : Editor} (h : Mirrors sys e)
    (hdoc : ∃ message ∈ (sys.conns 0).received, message.type = typeDocState)
    (hchars : e'.chars = e.chars) (hbound : e'.cursor ≤ e'.chars.length) : Mirrors sys e' :=
  ⟨h.accepted, h.window, hbound, h.clients, h.thread, h.ids, Or.inr (hchars ▸ h.session hdoc)⟩

/-- Clamping the cursor never changes it. -/
theorem Mirrors.clamp {s : TerminalSys} {e : Editor} (h : Mirrors s.sys e)
    (hcursor : s.cursorPos = e.cursor) : clampCursorToProjectedContent s.client = s.client := by
  refine if_neg ?_
  rw [show s.client.cursorPos = e.cursor from hcursor]
  rcases h.stage with ⟨-, hzero, -⟩ | ⟨-, -, ds, htext, hprojects⟩
  · rw [hzero]
    exact Nat.not_lt_zero _
  · have hlength : projectedContentLength s.client = e.chars.length :=
      projectedContentLength_eq htext hprojects
    have hbound := h.bound
    omega

/-- The editor after an action of the run. -/
def Editor.after (e : Editor) (a : TerminalAction) : Editor := (keysOf [a]).foldl Editor.press e

namespace TerminalSys

theorem mirrors_init {cs : List Char} (hcs : ∀ c ∈ cs, c ≠ '\x00') (limit : ℕ)
    (path clientId address : Bytes) :
    Mirrors (init (Utf8.encode cs) limit path clientId address).sys ⟨cs, 0⟩ :=
  .set rfl (historyWindow_init _ _) (Nat.zero_le _) (fun _ h => by cases h) (fun _ h => by cases h)
    (fun _ h => by cases h)
    (Or.inl ⟨.joining clientId rfl rfl rfl rfl rfl ⟨rfl, rfl, fun _ h => by cases h⟩, rfl, hcs, rfl⟩)

theorem mirrors_step {iswprint : Char → Bool} (hnul : iswprint '\x00' = false) {s s' : TerminalSys}
    {e : Editor} {a : TerminalAction} (hcursor : s.cursorPos = e.cursor) (h : Mirrors s.sys e)
    (hgood : s.EditsDocument iswprint a) (hstep : s.step iswprint a = some s') :
    s'.cursorPos = (e.after a).cursor ∧ Mirrors s'.sys (e.after a) := by
  cases a with
  | press key =>
    obtain ⟨hkey, hdoc⟩ := hgood
    obtain ⟨-, -, ds, htext, hprojects⟩ := h.session hdoc
    have hbound := Editor.press_bound h.bound key
    have hcursor' : s.client.cursorPos = e.cursor := hcursor
    obtain ⟨hclient, hcall⟩ := follows_handleKey hnul hcursor' h.bound
      (projectedContentLength_eq htext hprojects) hkey
    simp only [step] at hstep
    split_ifs at hstep
    obtain ⟨sys, hperform, rfl⟩ := Option.map_eq_some_iff.mp hstep
    refine ⟨by simp only [hclient]; rfl, ?_⟩
    rcases hcall with ⟨hnone, hchars⟩ | ⟨op, hsome, hop⟩
    · rw [hnone] at hperform
      obtain rfl := Option.some.inj hperform
      exact h.move hdoc hchars hbound
    · rw [hsome] at hperform
      exact h.key hdoc hop hbound hperform
  | deliver =>
    obtain ⟨sys, hsys, rfl⟩ := Option.map_eq_some_iff.mp hstep
    have hsys' := h.deliver hsys
    have hclamp := Mirrors.clamp (s := ⟨sys, s.cursorPos, s.running⟩) hsys' hcursor
    exact ⟨(congrArg TerminalClient.cursorPos hclamp).trans hcursor, hsys'⟩
  | serve =>
    obtain ⟨sys, hsys, rfl⟩ := Option.map_eq_some_iff.mp hstep
    exact ⟨hcursor, h.serve hsys⟩
  | saverTake written =>
    obtain ⟨sys, hsys, rfl⟩ := Option.map_eq_some_iff.mp hstep
    cases Sys.stepOutcome hsys
    exact ⟨hcursor, h.accepted, h.window, h.bound, h.clients, h.thread, h.ids, h.stage⟩
  | saverTimer written =>
    obtain rfl := Option.some.inj hstep
    exact ⟨hcursor, h.accepted, h.window, h.bound, h.clients, h.thread, h.ids, h.stage⟩

theorem keysOf_concat (actions : List TerminalAction) (a : TerminalAction) (e : Editor) :
    (keysOf (actions ++ [a])).foldl Editor.press e =
      ((keysOf actions).foldl Editor.press e).after a := by
  rw [keysOf, List.filterMap_append, List.foldl_append]
  rfl

/-- In every run the system mirrors the local editor that is given the same keys. -/
theorem mirrors_run {iswprint : Char → Bool} (hnul : iswprint '\x00' = false) {s s' : TerminalSys}
    {e : Editor} {actions : List TerminalAction} (hcursor : s.cursorPos = e.cursor)
    (h : Mirrors s.sys e) (hgood : Guarded (step iswprint) (EditsDocument iswprint) s actions)
    (hrun : run (step iswprint) s actions = some s') :
    s'.cursorPos = ((keysOf actions).foldl Editor.press e).cursor ∧
      Mirrors s'.sys ((keysOf actions).foldl Editor.press e) := by
  induction actions using List.reverseRecOn generalizing s' with
  | nil =>
    obtain rfl := Option.some.inj hrun
    exact ⟨hcursor, h⟩
  | append_singleton actions a ih =>
    obtain ⟨t, ht, hstep⟩ := run_concat_some.mp hrun
    obtain ⟨hcursor', h'⟩ := ih hgood.append_left ht
    rw [keysOf_concat]
    exact mirrors_step hnul hcursor' h' (hgood.append_right ht).1 hstep

/-- When nothing is under way, client and server have the text of the editor. -/
theorem refines_of_mirrors {s : TerminalSys} {e : Editor} (hcursor : s.cursorPos = e.cursor)
    (h : Mirrors s.sys e) : s.Refines e := by
  refine ⟨hcursor, fun hquiescent => ?_⟩
  obtain ⟨hin, hout, hthread⟩ := hquiescent 0 (by rw [h.accepted]; exact Nat.one_pos)
  have hnothing : coming s.sys.server.document (s.sys.conns 0) = [] := by
    rw [coming, hout, hthread]
    rfl
  rcases h.stage with ⟨hhandshake, -⟩ | ⟨-, hsession, ds, htext, hprojects⟩
  · cases hhandshake with
    | joining _ _ _ _ hjoin => rw [hin] at hjoin; cases hjoin
    | opening welcome _ _ hopening => exact absurd (hnothing.symm.trans hopening) (by simp)
  · cases hsession with
    | resting _ _ hinflight hqueue hcontent hversion =>
      rw [pendingOps_eq, hinflight, hqueue] at hprojects
      obtain rfl : ds = e.chars := hprojects
      exact ⟨hcontent.symm.trans htext.2, htext.2, hversion⟩
    | asked _ _ hasked => rw [hin] at hasked; cases hasked
    | answered _ _ _ hanswer => rw [hnothing] at hanswer; cases hanswer

/-- One terminal edits like a local editor: in every run, with any lag between the keys and the
messages, the cursor is that of the editor, and when nothing is under way, the texts are the text of
the editor and the versions agree. -/
theorem terminal_refines_editor (iswprint : Char → Bool) (hnul : iswprint '\x00' = false)
    (cs : List Char) (hcs : ∀ c ∈ cs, c ≠ '\x00') (historyLimit : ℕ)
    (documentPath clientId address : Bytes) (actions : List TerminalAction) (s : TerminalSys)
    (hgood : Guarded (step iswprint) (EditsDocument iswprint)
      (init (Utf8.encode cs) historyLimit documentPath clientId address) actions)
    (hrun : run (step iswprint) (init (Utf8.encode cs) historyLimit documentPath clientId address)
      actions = some s) :
    s.Refines ((keysOf actions).foldl Editor.press ⟨cs, 0⟩) := by
  obtain ⟨hcursor, h⟩ := mirrors_run hnul (e := ⟨cs, 0⟩) rfl
    (mirrors_init hcs historyLimit documentPath clientId address) hgood hrun
  exact refines_of_mirrors hcursor h

/-- `iswprint` on ASCII. -/
def asciiPrintable (c : Char) : Bool := ' ' ≤ c ∧ c ≤ '~'

/-- A user types `x` and Enter, goes back and deletes the `x`, all before the first ACK arrives. -/
def typingRun : List TerminalAction :=
  List.flatten [
    List.replicate 6 .serve,
    [.deliver, .deliver, .press .right, .press (.char 'x'), .press (.char '\x0d'), .serve,
      .press .left, .press .backspace],
    List.replicate 5 .serve, [.deliver], List.replicate 6 .serve, [.deliver],
    List.replicate 6 .serve, [.deliver]]

theorem terminal_refines_editor_typing :
    ∃ s, run (step asciiPrintable)
        (init (Utf8.encode ['h', 'é']) 10 (bytes "doc.txt") (bytes "me") (bytes "local"))
        typingRun = some s ∧
      s.sys.Quiescent ∧ s.Refines ⟨['h', '\n', 'é'], 1⟩ := by
  have hsome : ((run (step asciiPrintable)
      (init (Utf8.encode ['h', 'é']) 10 (bytes "doc.txt") (bytes "me") (bytes "local"))
      typingRun).map fun s => decide s.sys.Quiescent) = some true := by
    decide +kernel
  have hgood : Guarded (step asciiPrintable) (EditsDocument asciiPrintable)
      (init (Utf8.encode ['h', 'é']) 10 (bytes "doc.txt") (bytes "me") (bytes "local"))
      typingRun := by
    decide +kernel
  have heditor : (keysOf typingRun).foldl Editor.press ⟨['h', 'é'], 0⟩ = ⟨['h', '\n', 'é'], 1⟩ := by
    decide +kernel
  obtain ⟨s, hrun, hquiescent⟩ := Option.map_eq_some_iff.mp hsome
  rw [← heditor]
  exact ⟨s, hrun, of_decide_eq_true hquiescent,
    terminal_refines_editor asciiPrintable (by decide) ['h', 'é'] (by decide) 10 (bytes "doc.txt")
      (bytes "me") (bytes "local") typingRun s hgood hrun⟩

end TerminalSys

end TermSync
