import TermSync.Proofs.ClientStateProofs
import TermSync.Proofs.SystemProofs
import TermSync.SystemProperties

/-!
# Proofs: the pipeline of one client

An operation moves from the queue to the channel, to the server and, as an answer, back to the
client. No step of the system loses, repeats or reorders an operation on the way (`Pipeline`), which
gives the first-in-first-out property of every client. The slot for the operation in flight bounds
the number of operations on the way only as long as no DOC_STATE empties it too early (`Slot`).
-/

namespace TermSync

open Foundations

/-! ## What the client sends -/

theorem opsOf_append (a b : List TsMessage) : opsOf (a ++ b) = opsOf a ++ opsOf b :=
  List.filter_append ..

theorem opsOf_cons_of_type {message : TsMessage} (h : message.type = typeOp) (rest : List TsMessage) :
    opsOf (message :: rest) = message :: opsOf rest :=
  List.filter_cons_of_pos (decide_eq_true h)

theorem opsOf_cons_of_ne {message : TsMessage} (h : message.type ≠ typeOp) (rest : List TsMessage) :
    opsOf (message :: rest) = opsOf rest :=
  List.filter_cons_of_neg (by simpa using h)

theorem answersOf_append (a b : List TsMessage) : answersOf (a ++ b) = answersOf a ++ answersOf b := by
  rw [answersOf, List.filter_append, List.map_append]
  rfl

theorem answersOf_cons_of_answer {message : TsMessage} (h : IsAnswer message)
    (rest : List TsMessage) : answersOf (message :: rest) = message.opId :: answersOf rest := by
  simp [answersOf, h]

theorem answersOf_cons_of_not {message : TsMessage} (h : ¬ IsAnswer message)
    (rest : List TsMessage) : answersOf (message :: rest) = answersOf rest := by
  simp [answersOf, h]

/-- A message that a client sends after its JOIN. -/
def ClientMessage (message : TsMessage) : Prop :=
  (message.type = typeOp ∧ message.hasOp = true) ∨ message.type = typeRequestDoc ∨
    message.type = typeSave

/-- The client has sent a part of what was queued, in order, and still has the rest. -/
structure Conserves (queue : List TsPendingOperation) (out : TsClientState × List TsMessage) :
    Prop where
  queue : ((opsOf out.2).map fun m => (m.opId, m.op)) ++
    (out.1.queue.map fun p => (p.opId, p.op)) = queue.map fun p => (p.opId, p.op)
  messages : ∀ m ∈ out.2, ClientMessage m

theorem conserves_nil {state : TsClientState} {queue : List TsPendingOperation}
    (h : state.queue = queue) : Conserves queue (state, []) where
  queue := by
    rw [← h]
    rfl
  messages m hm := absurd hm List.not_mem_nil

theorem conserves_request {state : TsClientState} {queue : List TsPendingOperation}
    (h : state.queue = queue) : Conserves queue (state, [requestDoc]) where
  queue := by
    rw [opsOf_cons_of_ne (by decide), ← h]
    rfl
  messages m hm := by
    rw [List.mem_singleton.mp hm]
    exact Or.inr (Or.inl rfl)

theorem conserves_pump {state : TsClientState} {queue : List TsPendingOperation}
    (h : state.queue = queue) : Conserves queue (statePump state) := by
  rcases pump_cases state with ⟨-, hpump⟩ | ⟨next, rest, -, hqueue, hpump⟩
  · rw [hpump]
    exact conserves_nil h
  · rw [hpump, ← h, hqueue]
    constructor
    · rw [opsOf_cons_of_type rfl]
      rfl
    · intro m hm
      rw [List.mem_singleton.mp hm]
      exact Or.inl ⟨rfl, rfl⟩

theorem conserves_handle {state : TsClientState} {message : TsMessage}
    {out : TsClientState × List TsMessage}
    (h : tsClientStateHandleMessage state message = some out) :
    Conserves state.queue out ∧ out.1.nextOpNumber = state.nextOpNumber := by
  cases handleOutcome h with
  | docState => exact ⟨conserves_pump rfl, statePump_nextOpNumber _⟩
  | welcome => exact ⟨conserves_nil rfl, rfl⟩
  | ack htype applied status hmatch happly =>
    obtain ⟨content, version, rfl⟩ := applyAuthoritativeOp_frame happly
    exact ⟨conserves_pump rfl, statePump_nextOpNumber _⟩
  | staleAck => exact ⟨conserves_nil rfl, rfl⟩
  | oldRemote => exact ⟨conserves_nil rfl, rfl⟩
  | missedRemote => exact ⟨conserves_request rfl, rfl⟩
  | remote htype applied status hversion happly =>
    obtain ⟨content, version, rfl⟩ := applyAuthoritativeOp_frame happly
    exact ⟨conserves_nil rfl, rfl⟩
  | resync => exact ⟨conserves_request rfl, rfl⟩
  | other => exact ⟨conserves_nil rfl, rfl⟩

/-! ## One connection -/

/-- The operation ids of the answers that a thread is going to send. -/
def answersIn (effects : List Effect) : List Bytes :=
  effects.flatMap fun effect =>
    match effect with
    | .send message => answersOf [message]
    | _ => []

/-- The operation ids of the OPs on their way to the server and of the answers on their way back, the
oldest first. -/
def onTheWay (c : Conn) : List Bytes :=
  answersOf c.toClient ++ answersIn c.thread ++ (opsOf c.toServer).map TsMessage.opId

/-- The server gets a JOIN first and then only messages that a client sends. -/
structure Incoming (c : Conn) : Prop where
  joining : c.phase = .joining → ∃ clientId rest, c.toServer = joinMessage clientId :: rest ∧
    ∀ m ∈ rest, ClientMessage m
  serving : c.phase ≠ .joining → ∀ m ∈ c.toServer, ClientMessage m

/-- What holds of a connection for which the server has made the calls `ps`. -/
structure Pipeline (ps : List Processed) (c : Conn) : Prop where
  queue : ((opsOf c.sent).map fun m => (m.opId, m.op)) ++
    (c.client.queue.map fun p => (p.opId, p.op)) = c.queued.map fun p => (p.opId, p.op)
  number : c.client.nextOpNumber = c.queued.length + 1
  small : (c.queued.length : ℤ) < intMax
  ids : ∀ k (hk : k < c.queued.length), ∃ clientId, (c.queued[k]).opId = printOpId clientId (k + 1)
  sent : opsOf c.sent = ps.map Processed.message ++ opsOf c.toServer
  incoming : Incoming c
  answered : (opsOf c.sent).map TsMessage.opId = answersOf c.received ++ onTheWay c

theorem Incoming.emit {c : Conn} {out : TsClientState × List TsMessage} (h : Incoming c)
    (hout : ∀ m ∈ out.2, ClientMessage m) : Incoming (c.emit out) where
  joining hphase := by
    obtain ⟨clientId, rest, hin, hrest⟩ := h.joining hphase
    refine ⟨clientId, rest ++ out.2, by simp [Conn.emit, hin], fun m hm => ?_⟩
    exact (List.mem_append.mp hm).elim (hrest m) (hout m)
  serving hphase m hm := (List.mem_append.mp hm).elim (h.serving hphase m) (hout m)

theorem pipeline_none : Pipeline [] Conn.none where
  queue := rfl
  number := rfl
  small := by decide
  ids k hk := absurd hk (Nat.not_lt_zero k)
  sent := rfl
  incoming := ⟨fun h => (by cases h), fun _ m hm => absurd hm List.not_mem_nil⟩
  answered := rfl

theorem pipeline_opened (fd : ℕ) (clientId address : Bytes) :
    Pipeline [] (Conn.opened fd clientId address) where
  queue := by
    simp only [Conn.opened]
    rw [opsOf_cons_of_ne (by simp only [joinMessage]; decide)]
    rfl
  number := rfl
  small := (by decide : (0 : ℤ) < intMax)
  ids k hk := absurd hk (Nat.not_lt_zero k)
  sent := rfl
  incoming := ⟨fun _ => ⟨clientId, [], rfl, fun m hm => absurd hm List.not_mem_nil⟩,
    fun h => absurd rfl h⟩
  answered := rfl

/-- A key queues one more operation. -/
theorem Pipeline.key {ps : List Processed} {c : Conn} {op : TsOperation}
    {out : TsClientState × List TsMessage} (h : Pipeline ps c)
    (hqueue : tsClientStateQueueOperation c.client op = some out) :
    Pipeline ps { c.emit out with queued := c.queued ++ [newPending c.client op] } := by
  obtain ⟨hlt, status, rfl⟩ := queueOperation_eq hqueue
  have hcons : Conserves (c.client.queue ++ [newPending c.client op]) (statePump { c.client with
      nextOpNumber := c.client.nextOpNumber + 1
      queue := c.client.queue ++ [newPending c.client op]
      status := status }) := conserves_pump rfl
  have hnumber := h.number
  refine
    { queue := ?_
      number := ?_
      small := ?_
      ids := fun k hk => ?_
      sent := ?_
      incoming := ⟨(h.incoming.emit hcons.messages).joining, (h.incoming.emit hcons.messages).serving⟩
      answered := ?_ }
  · simp only [Conn.emit, opsOf_append, List.map_append, List.append_assoc]
    rw [hcons.queue, List.map_append, ← List.append_assoc, h.queue]
  · simp only [Conn.emit, statePump_nextOpNumber, List.length_append, List.length_singleton]
    omega
  · simp only [List.length_append, List.length_singleton]
    omega
  · simp only [List.length_append, List.length_singleton] at hk ⊢
    rw [List.getElem_append]
    split_ifs with hlt'
    · exact h.ids k hlt'
    · obtain rfl : k = c.queued.length := by omega
      refine ⟨c.client.clientId, ?_⟩
      rw [List.getElem_singleton, ← hnumber]
      rfl
  · simp only [Conn.emit, opsOf_append]
    rw [h.sent, List.append_assoc]
  · simp only [Conn.emit, onTheWay, opsOf_append, List.map_append]
    rw [h.answered, onTheWay]
    simp only [List.append_assoc]

/-- The client sends something that is not an OP. -/
theorem Pipeline.save {ps : List Processed} {c : Conn} (h : Pipeline ps c) :
    Pipeline ps (c.emit (c.client, [saveMessage])) := by
  have hops (ms : List TsMessage) : opsOf (ms ++ [saveMessage]) = opsOf ms := by
    rw [opsOf_append, opsOf_cons_of_ne (by decide)]
    exact List.append_nil _
  have hout : ∀ m ∈ [saveMessage], ClientMessage m := fun m hm => by
    rw [List.mem_singleton.mp hm]
    exact Or.inr (Or.inr rfl)
  refine
    { queue := ?_
      number := h.number
      small := h.small
      ids := h.ids
      sent := ?_
      incoming := h.incoming.emit hout
      answered := ?_ }
  · simp only [Conn.emit, hops]
    exact h.queue
  · simp only [Conn.emit, hops]
    exact h.sent
  · simp only [Conn.emit, onTheWay, hops]
    exact h.answered

/-- The client handles a message. -/
theorem Pipeline.deliver {ps : List Processed} {c : Conn} {message : TsMessage}
    {rest : List TsMessage} {out : TsClientState × List TsMessage} (h : Pipeline ps c)
    (hin : c.toClient = message :: rest)
    (hhandle : tsClientStateHandleMessage c.client message = some out) :
    Pipeline ps
      { c.emit out with toClient := rest, received := c.received ++ [message] } := by
  obtain ⟨hcons, hnumber⟩ := conserves_handle hhandle
  refine
    { queue := ?_
      number := hnumber.trans h.number
      small := h.small
      ids := h.ids
      sent := ?_
      incoming := ⟨(h.incoming.emit hcons.messages).joining, (h.incoming.emit hcons.messages).serving⟩
      answered := ?_ }
  · simp only [Conn.emit, opsOf_append, List.map_append, List.append_assoc]
    rw [hcons.queue]
    exact h.queue
  · simp only [Conn.emit, opsOf_append]
    rw [h.sent, List.append_assoc]
  · have hcons' : answersOf c.toClient = answersOf [message] ++ answersOf rest := by
      rw [hin, ← answersOf_append]
      rfl
    simp only [Conn.emit, onTheWay, opsOf_append, answersOf_append, List.map_append]
    rw [h.answered, onTheWay, hcons']
    simp only [List.append_assoc]

/-- The thread goes on, and its answers are kept. -/
theorem Pipeline.serve {ps : List Processed} {c : Conn} {toClient : List TsMessage}
    {thread : List Effect} (h : Pipeline ps c)
    (hanswers : answersOf toClient ++ answersIn thread = answersOf c.toClient ++ answersIn c.thread) :
    Pipeline ps { c with toClient := toClient, thread := thread } :=
  { h with
    incoming := ⟨h.incoming.joining, h.incoming.serving⟩
    answered := by
      rw [h.answered, onTheWay, onTheWay, hanswers] }

/-- What the client has sent was queued. -/
theorem Pipeline.exists_queued {ps : List Processed} {c : Conn} {m : TsMessage} (h : Pipeline ps c)
    (hm : m ∈ opsOf c.sent) : ∃ p ∈ c.queued, p.opId = m.opId ∧ p.op = m.op := by
  have hmem : (m.opId, m.op) ∈ c.queued.map fun p => (p.opId, p.op) := by
    rw [← h.queue]
    exact List.mem_append_left _ (List.mem_map_of_mem hm)
  obtain ⟨p, hp, heq⟩ := List.mem_map.mp hmem
  exact ⟨p, hp, (Prod.mk.inj heq).1, (Prod.mk.inj heq).2⟩

/-- An OP that waits for the server was queued. -/
theorem Pipeline.exists_queued_of_op {ps : List Processed} {c : Conn} {m : TsMessage}
    (h : Pipeline ps c) (hm : m ∈ c.toServer) (htype : m.type = typeOp) :
    ∃ p ∈ c.queued, p.opId = m.opId ∧ p.op = m.op := by
  refine h.exists_queued ?_
  rw [h.sent]
  exact List.mem_append_right _ (List.mem_filter.mpr ⟨hm, decide_eq_true htype⟩)

/-- An OP that the thread may take carries an operation. -/
theorem Incoming.hasOp {c : Conn} {m : TsMessage} (h : Incoming c) (hphase : c.phase = .serving)
    (hm : m ∈ c.toServer) (htype : m.type = typeOp) : m.hasOp = true := by
  rcases h.serving (by rw [hphase]; decide) m hm with ⟨-, hop⟩ | hrequest | hsave
  · exact hop
  · exact absurd (htype.symm.trans hrequest) (by decide)
  · exact absurd (htype.symm.trans hsave) (by decide)

/-- The ids of queued operations fit the buffers of all messages. -/
theorem Pipeline.snprintf_opId {ps : List Processed} {c : Conn} {p : TsPendingOperation}
    (h : Pipeline ps c) (hp : p ∈ c.queued) : snprintf tsMaxOpId p.opId = p.opId := by
  obtain ⟨k, hk, rfl⟩ := List.getElem_of_mem hp
  obtain ⟨clientId, hid⟩ := h.ids k hk
  rw [hid, printOpId, snprintf_snprintf]

/-- The ids of the queued operations are distinct, since they end in distinct numbers. -/
theorem Pipeline.distinct {ps : List Processed} {c : Conn} (h : Pipeline ps c) :
    (c.queued.map TsPendingOperation.opId).Nodup := by
  refine List.Nodup.of_map numberOf (List.nodup_iff_getElem?_ne_getElem?.mpr fun i j hij hj => ?_)
  simp only [List.length_map] at hj
  have hsmall := h.small
  obtain ⟨ci, hi'⟩ := h.ids i (by omega)
  obtain ⟨cj, hj'⟩ := h.ids j hj
  simp only [List.map_map, List.getElem?_map, List.getElem?_eq_getElem hj,
    List.getElem?_eq_getElem (hij.trans hj), Option.map_some, Function.comp_apply, ne_eq,
    Option.some.injEq, hi', hj']
  rw [numberOf_printOpId _ (by omega) (by omega), numberOf_printOpId _ (by omega) (by omega),
    formatInt_of_nonneg (by omega), formatInt_of_nonneg (by omega)]
  intro heq
  have := Decimal.digits_injective heq
  omega

/-- The server takes a message that is not an OP and has nothing to answer. -/
theorem Pipeline.take_other {ps : List Processed} {c : Conn} {message : TsMessage}
    {rest : List TsMessage} (h : Pipeline ps c) (hthread : c.thread = [])
    (hin : c.toServer = message :: rest) (hne : message.type ≠ typeOp) {peer : TsClientConnection}
    {phase : Phase} {thread : List Effect} (hanswers : answersIn thread = [])
    (hincoming : phase ≠ .joining ∧ ∀ m ∈ rest, ClientMessage m) :
    Pipeline ps { c with toServer := rest, peer := peer, phase := phase, thread := thread } :=
  { h with
    sent := by rw [h.sent, hin, opsOf_cons_of_ne hne]
    incoming := ⟨fun hphase => absurd hphase hincoming.1, fun _ => hincoming.2⟩
    answered := by
      rw [h.answered, onTheWay, onTheWay, hthread, hin, opsOf_cons_of_ne hne, hanswers]
      rfl }

/-- An OP has exactly one answer. -/
theorem answersIn_resultEffects {doc doc' : TsDocument} {call : DocCall} {r : TsProcessResult}
    (h : processCall doc call = some (doc', r)) (hid : snprintf tsMaxOpId call.opId = call.opId)
    (clientId : Bytes) : answersIn (resultEffects clientId r) = [call.opId] := by
  cases processOutcome h with
  | error text =>
    have hanswer : IsAnswer (setMessageError call.opId text) := Or.inr (Or.inl rfl)
    simp only [resultEffects, errorResult, reduceCtorEq, if_false, List.map_cons, List.map_nil,
      answersIn, List.flatMap_cons, List.flatMap_nil, List.append_nil,
      answersOf_cons_of_answer hanswer]
    rw [setMessageError, hid]
    rfl
  | resync =>
    simp only [resultEffects, resyncResult, reduceCtorEq, if_false, List.map_cons, List.map_nil,
      answersIn, List.flatMap_cons, List.flatMap_nil, List.append_nil]
    rw [answersOf_cons_of_answer (Or.inr (Or.inr rfl)),
      answersOf_cons_of_not (by simp only [IsAnswer]; decide), hid]
    rfl
  | ok op updated =>
    simp only [resultEffects, okResult, if_true, Option.toList_some, List.map_cons, List.map_nil,
      List.cons_append, List.nil_append, answersIn, List.flatMap_cons, List.flatMap_nil,
      List.append_nil]
    rw [answersOf_cons_of_answer (Or.inl rfl), hid]
    rfl

/-- The other messages of a client need no answer that is counted. -/
theorem answersIn_dispatchMessage {server : TsServer} {client : TsClientConnection}
    {message : TsMessage} {out : TsServer × List Effect} (hne : message.type ≠ typeOp)
    (hclient : ClientMessage message) (h : dispatchMessage server client message = some out) :
    answersIn out.2 = [] := by
  have hnot {m : TsMessage} (htype : m.type = typeSaveQueued ∨ m.type = typeDocState) :
      answersOf [m] = [] := by
    refine answersOf_cons_of_not ?_ []
    rw [IsAnswer]
    rcases htype with htype | htype <;> rw [htype] <;> decide
  rcases (dispatchMessage_of_ne hne h).2 with
    ⟨-, heq⟩ | ⟨-, heq⟩ | ⟨htype, -⟩ | ⟨hsave, hrequest, -, -⟩
  · rw [heq]
    simp [answersIn, hnot (m := saveQueued _) (Or.inl rfl)]
  · rw [heq]
    simp [answersIn, hnot (m := tsDocumentSnapshot _) (Or.inr rfl)]
  · rcases hclient with ⟨hclient, -⟩ | hclient | hclient <;> rw [htype] at hclient <;>
      exact absurd hclient (by decide)
  · rcases hclient with ⟨hop, -⟩ | hclient | hclient
    · exact absurd hop hne
    · exact absurd hclient hrequest
    · exact absurd hclient hsave

/-- The server takes an OP. -/
theorem Pipeline.take_op {ps : List Processed} {c : Conn} {message : TsMessage}
    {rest : List TsMessage} {doc doc' : TsDocument} {i : ℕ} {r : TsProcessResult}
    (h : Pipeline ps c) (hthread : c.thread = []) (hin : c.toServer = message :: rest)
    (hphase : c.phase = .serving) (htype : message.type = typeOp)
    (hprocess : processCall doc (callOf c.peer message) = some (doc', r)) (clientId : Bytes) :
    Pipeline (ps ++ [⟨i, message, r⟩])
      { c with toServer := rest, thread := resultEffects clientId r } := by
  obtain ⟨p, hp, hpid, -⟩ :=
    h.exists_queued_of_op (by rw [hin]; exact List.mem_cons_self) htype
  have hid : snprintf tsMaxOpId message.opId = message.opId := hpid ▸ h.snprintf_opId hp
  have hanswers := answersIn_resultEffects hprocess hid clientId
  have hserving : ∀ m ∈ c.toServer, ClientMessage m := h.incoming.serving (by rw [hphase]; decide)
  rw [hin] at hserving
  refine
    { h with
      sent := ?_
      incoming := ⟨fun h => absurd (hphase.symm.trans h) (by decide),
        fun _ m hm => hserving m (List.mem_cons_of_mem _ hm)⟩
      answered := ?_ }
  · rw [h.sent, hin, opsOf_cons_of_type htype, List.map_append, List.append_assoc]
    rfl
  · rw [h.answered, onTheWay, onTheWay, hthread, hin, opsOf_cons_of_type htype, hanswers]
    simp [answersIn, callOf]

/-! ## The slot for the operation in flight -/

/-- The operation in flight is the only one on the way. -/
def Slot (c : Conn) : Prop :=
  onTheWay c = [] ∨ ∃ p, c.client.inflight = some p ∧ onTheWay c = [p.opId]

theorem slot_of_none {c : Conn} (h : Slot c) (hinflight : c.client.inflight = none) :
    onTheWay c = [] := by
  rcases h with h | ⟨p, hp, -⟩
  · exact h
  · rw [hinflight] at hp
    cases hp

/-- What is on the way changes by what is sent and by the answers that are handled. -/
theorem onTheWay_conserved {ps ps' : List Processed} {c c' : Conn} (h : Pipeline ps c)
    (h' : Pipeline ps' c') {sent received : List TsMessage} (hsent : c'.sent = c.sent ++ sent)
    (hreceived : c'.received = c.received ++ received) :
    answersOf received ++ onTheWay c' = onTheWay c ++ (opsOf sent).map TsMessage.opId := by
  have hanswered := h'.answered
  rw [hsent, hreceived, opsOf_append, answersOf_append, List.map_append, h.answered,
    List.append_assoc, List.append_assoc] at hanswered
  exact (List.append_cancel_left hanswered).symm

/-- The slot holds what the pump has sent. -/
theorem pump_slot (state : TsClientState) :
    (opsOf (statePump state).2).map TsMessage.opId = [] ∨ ∃ p,
      (statePump state).1.inflight = some p ∧
        (opsOf (statePump state).2).map TsMessage.opId = [p.opId] := by
  rcases pump_cases state with ⟨-, hpump⟩ | ⟨next, queue, -, -, hpump⟩
  · rw [hpump]
    exact Or.inl rfl
  · rw [hpump]
    refine Or.inr ⟨_, rfl, ?_⟩
    rw [opsOf_cons_of_type rfl]
    rfl

/-- All sent operations have distinct ids. -/
theorem Pipeline.sent_distinct {ps : List Processed} {c : Conn} (h : Pipeline ps c) :
    ((opsOf c.sent).map TsMessage.opId).Nodup := by
  have hqueue := congrArg (List.map Prod.fst) h.queue
  simp only [List.map_append, List.map_map, Function.comp_def] at hqueue
  have hdistinct := h.distinct
  rw [← hqueue] at hdistinct
  exact (List.nodup_append.mp hdistinct).1

/-- A key sends only into an empty slot. -/
theorem Slot.key {ps ps' : List Processed} {c c' : Conn} {op : TsOperation}
    {out : TsClientState × List TsMessage} (hs : Slot c) (h : Pipeline ps c) (h' : Pipeline ps' c')
    (hqueue : tsClientStateQueueOperation c.client op = some out)
    (hsent : c'.sent = c.sent ++ out.2) (hreceived : c'.received = c.received)
    (hclient : c'.client = out.1) : Slot c' := by
  have hreceived' : c'.received = c.received ++ [] := by rw [hreceived, List.append_nil]
  have hway := onTheWay_conserved h h' hsent hreceived'
  change onTheWay c' = _ at hway
  obtain ⟨-, status, rfl⟩ := queueOperation_eq hqueue
  rw [Slot, hclient, hway]
  rcases pump_cases { c.client with
      nextOpNumber := c.client.nextOpNumber + 1
      queue := c.client.queue ++ [newPending c.client op]
      status := status } with ⟨-, hpump⟩ | ⟨next, queue, hnone, -, hpump⟩
  · rw [hpump]
    simpa [opsOf, Slot] using hs
  · have hempty := slot_of_none hs hnone
    rw [hempty, List.nil_append]
    exact pump_slot _

/-- Handling a message keeps the slot, as long as a DOC_STATE finds the operation in flight
answered. -/
theorem Slot.deliver {ps ps' : List Processed} {c c' : Conn} {message : TsMessage}
    {out : TsClientState × List TsMessage} (hs : Slot c) (h : Pipeline ps c) (h' : Pipeline ps' c')
    (hhandle : tsClientStateHandleMessage c.client message = some out)
    (hdoc : message.type = typeDocState →
      ∀ p ∈ c.client.inflight, p.opId ∈ answersOf c.received)
    (hsent : c'.sent = c.sent ++ out.2) (hreceived : c'.received = c.received ++ [message])
    (hclient : c'.client = out.1) : Slot c' := by
  have hway := onTheWay_conserved h h' hsent hreceived
  -- the slot stays, or what was on the way has been answered
  have hkept (hinflight : out.1.inflight = c.client.inflight)
      (hnothing : (opsOf out.2).map TsMessage.opId = []) : Slot c' := by
    rw [hnothing, List.append_nil] at hway
    by_cases hanswer : IsAnswer message
    · rw [answersOf_cons_of_answer hanswer] at hway
      refine Or.inl ?_
      rcases hs with hs | ⟨p, -, hs⟩ <;> rw [hs] at hway
      · cases hway
      · exact (List.cons.inj hway).2
    · rw [answersOf_cons_of_not hanswer] at hway
      change onTheWay c' = _ at hway
      rw [Slot, hway, hclient, hinflight]
      exact hs
  -- the slot is emptied before the pump runs
  have hpumped {state : TsClientState} (hout : out = statePump state)
      (hempty : onTheWay c' = (opsOf out.2).map TsMessage.opId ∨ onTheWay c' = []) : Slot c' := by
    rcases hempty with hempty | hempty
    · rw [Slot, hempty, hclient, hout]
      exact pump_slot state
    · exact Or.inl hempty
  cases handleOutcome hhandle with
  | docState htype =>
    refine hpumped rfl (Or.inl ?_)
    rw [answersOf_cons_of_not (by rw [IsAnswer, htype]; decide)] at hway
    rcases hs with hs | ⟨p, hp, hs⟩
    · rw [hs] at hway
      exact hway
    · -- an operation in flight would be answered and on the way at the same time
      have hdistinct := h.sent_distinct
      rw [h.answered, hs] at hdistinct
      exact absurd rfl ((List.nodup_append.mp hdistinct).2.2 _ (hdoc htype p hp) _
        (List.mem_singleton.mpr rfl))
  | ack htype applied status hmatch happly =>
    refine hpumped rfl ?_
    rw [answersOf_cons_of_answer (Or.inl htype)] at hway
    rcases hs with hs | ⟨p, -, hs⟩ <;> rw [hs] at hway
    · rcases pump_slot { applied with inflight := none, status := status } with hpump | ⟨q, -, hpump⟩
      · rw [hpump] at hway
        cases hway
      · rw [hpump] at hway
        exact Or.inr (List.cons.inj hway).2
    · exact Or.inl (List.cons.inj hway).2
  | resync htype =>
    refine Or.inl ?_
    rw [answersOf_cons_of_answer (Or.inr (Or.inr htype))] at hway
    rcases hs with hs | ⟨p, -, hs⟩ <;> rw [hs] at hway
    · cases hway
    · exact (List.cons.inj hway).2
  | missedRemote => exact hkept rfl (by rw [opsOf_cons_of_ne (by decide)]; rfl)
  | remote htype applied status hversion happly =>
    obtain ⟨content, version, rfl⟩ := applyAuthoritativeOp_frame happly
    exact hkept rfl rfl
  | welcome | staleAck | oldRemote | other => exact hkept rfl rfl

/-- Where no OP is sent and no message is handled, operations only move on their way. -/
theorem Slot.frame {ps ps' : List Processed} {c c' : Conn} {sent : List TsMessage} (hs : Slot c)
    (h : Pipeline ps c) (h' : Pipeline ps' c') (hsent : c'.sent = c.sent ++ sent)
    (hops : opsOf sent = []) (hreceived : c'.received = c.received)
    (hclient : c'.client = c.client) : Slot c' := by
  have hreceived' : c'.received = c.received ++ [] := by rw [hreceived, List.append_nil]
  have hway := onTheWay_conserved h h' hsent hreceived'
  rw [hops] at hway
  change onTheWay c' = onTheWay c ++ [] at hway
  rw [Slot, hway, List.append_nil, hclient]
  exact hs

namespace Sys

/-! ## All connections -/

theorem processedBy_concat (s : Sys) (p : Processed) (j : ℕ) :
    { s with processed := s.processed ++ [p] }.processedBy j =
      s.processedBy j ++ if p.conn = j then [p] else [] := by
  simp only [processedBy, List.filter_append, List.filter_cons, List.filter_nil, decide_eq_true_eq]

/-- What the server sends to other clients is no answer. -/
theorem answersOf_push {m : TsMessage} (h : ¬ IsAnswer m) (messages : List TsMessage) :
    answersOf (messages ++ [m]) = answersOf messages := by
  rw [answersOf_append, answersOf_cons_of_not h]
  exact List.append_nil _

theorem answersIn_cons (effect : Effect) (rest : List Effect) :
    answersIn (effect :: rest) = answersIn [effect] ++ answersIn rest := by
  simp [answersIn]

theorem answersIn_broadcastSends (s : Sys) (message : TsMessage) (exclude : Bytes)
    (rest : List Effect) :
    answersIn (broadcastSends s message exclude ++ .unlock :: rest) = answersIn rest := by
  simp [answersIn, broadcastSends, List.flatMap_map]

theorem pipeline_step {s s' : Sys} {a : Action} (hw : Wired s) (h : s.step a = some s')
    (hpipe : ∀ j, Pipeline (s.processedBy j) (s.conns j)) :
    ∀ j, Pipeline (s'.processedBy j) (s'.conns j) := by
  have hset {t : Sys} {i : ℕ} {c : Conn} (hconns : t.conns = s.conns)
      (hprocessed : t.processed = s.processed) (hc : Pipeline (s.processedBy i) c) (j : ℕ) :
      Pipeline ((t.setConn i c).processedBy j) ((t.setConn i c).conns j) := by
    rw [show (t.setConn i c).processedBy j = s.processedBy j by
      rw [processedBy, setConn_processed, hprocessed]; rfl]
    exact forall_conns_set (P := fun j c => Pipeline (s.processedBy j) c) hpipe hconns hc j
  have hquiet {i : ℕ} {effect : Effect} {rest : List Effect}
      (hthread : (s.conns i).thread = effect :: rest) (hnil : answersIn [effect] = []) :
      answersIn rest = answersIn (s.conns i).thread := by
    rw [hthread, answersIn_cons, hnil, List.nil_append]
  cases stepOutcome h with
  | connect clientId address =>
    have hnil : s.processedBy s.accepted = [] := by
      have hsent := (hpipe s.accepted).sent
      rw [hw.absent s.accepted le_rfl] at hsent
      simpa [Conn.none, opsOf] using hsent
    exact hset rfl rfl (by rw [hnil]; exact pipeline_opened ..)
  | key i op out hi hqueue => exact hset rfl rfl ((hpipe i).key hqueue)
  | save i hi => exact hset rfl rfl (hpipe i).save
  | deliver i message rest out hin hhandle => exact hset rfl rfl ((hpipe i).deliver hin hhandle)
  | join i message rest server clientId hthread hin hphase htype hlock hchoose =>
    obtain ⟨_, rest', hin', hrest⟩ := (hpipe i).incoming.joining hphase
    obtain ⟨-, rfl⟩ := List.cons.inj (hin.symm.trans hin')
    refine hset rfl rfl ((hpipe i).take_other hthread hin (by rw [htype]; decide) ?_
      ⟨by decide, hrest⟩)
    have hwelcome (id : Bytes) : answersOf [welcomeMessage id] = [] :=
      answersOf_cons_of_not (by simp only [IsAnswer, welcomeMessage]; decide) []
    simp [answersIn, joinEffects, hwelcome]
  | refuse i message rest hthread hin hphase htype =>
    obtain ⟨_, rest', hin', -⟩ := (hpipe i).incoming.joining hphase
    obtain ⟨rfl, -⟩ := List.cons.inj (hin.symm.trans hin')
    exact absurd rfl htype
  | op i message rest document result hthread hin hphase htype hprocess =>
    intro j
    rw [processMessage_eq] at hprocess
    have hps := processedBy_concat s ⟨i, message, result⟩ j
    by_cases hj : j = i
    · subst hj
      rw [if_pos rfl] at hps
      rw [setConn_conns_self]
      exact hps ▸ (hpipe j).take_op hthread hin hphase htype hprocess _
    · rw [if_neg (Ne.symm hj), List.append_nil] at hps
      rw [setConn_conns_of_ne _ hj]
      exact hps ▸ hpipe j
  | answer i message rest effects hthread hin hphase htype hdispatch =>
    have hserving := (hpipe i).incoming.serving (by rw [hphase]; decide)
    rw [hin] at hserving
    refine hset rfl rfl ((hpipe i).take_other hthread hin htype ?_
      ⟨by rw [hphase]; decide, fun m hm => hserving m (List.mem_cons_of_mem _ hm)⟩)
    exact answersIn_dispatchMessage htype (hserving message List.mem_cons_self) hdispatch
  | send i message rest hthread =>
    refine hset rfl rfl ((hpipe i).serve ?_)
    rw [hthread, answersIn_cons, answersOf_append, List.append_assoc]
    simp [answersIn]
  | pipe i event rest hthread =>
    exact hset rfl rfl ((hpipe i).serve (by rw [hquiet hthread rfl]))
  | register i client rest hthread hlock =>
    exact hset rfl rfl ((hpipe i).serve (by rw [hquiet hthread rfl]))
  | snapshot i rest hthread =>
    refine hset rfl rfl ((hpipe i).serve ?_)
    have hdoc : answersOf [tsDocumentSnapshot s.server.document] = [] :=
      answersOf_cons_of_not (by simp only [IsAnswer, tsDocumentSnapshot]; decide) []
    rw [← hquiet hthread rfl, answersIn_cons]
    simp [answersIn, hdoc]
  | broadcast i message exclude rest hthread hlock =>
    refine hset rfl rfl ((hpipe i).serve ?_)
    rw [answersIn_broadcastSends, hquiet hthread rfl]
  | sendTo i fd message rest hthread =>
    have hrest : Pipeline (s.processedBy i) { s.conns i with thread := rest } :=
      (hpipe i).serve (by rw [hquiet hthread rfl])
    have hmid := hset (t := s) (i := i) rfl rfl hrest
    refine forall_setConn (P := fun j c => Pipeline (s.processedBy j) c) ?_ fun j _ => hmid j
    have htype := (hw.threads i (.sendTo fd message) (by rw [hthread]; exact List.mem_cons_self)).1
    exact (hmid fd).serve (by
      rw [answersOf_push (by rw [IsAnswer, htype]; decide)])
  | unlock i rest hthread =>
    exact hset rfl rfl ((hpipe i).serve (by rw [hquiet hthread rfl]))
  | saverTake written event rest hpipe' => exact hpipe
  | saverTimer written => exact hpipe

/-! ## First in, first out -/

/-- What the server has answered to one OP. -/
structure ProcessedOk (p : Processed) : Prop where
  ok : p.result.status = .ok → ∃ ack, p.result.ack = some ack ∧ ack.opId = p.message.opId ∧
    ack.originalOp = p.message.op
  other : p.result.status ≠ .ok → p.result.ack = none
  refused : Acceptable p.message.op → p.result.status ≠ .ok →
    ∃ m ∈ p.result.messages, m.type = typeResyncRequired ∧ m.opId = p.message.opId

theorem processedOk {doc doc' : TsDocument} {client : TsClientConnection} {message : TsMessage}
    {r : TsProcessResult} {i : ℕ} (hop : message.hasOp = true)
    (hid : snprintf tsMaxOpId message.opId = message.opId)
    (h : processCall doc (callOf client message) = some (doc', r)) : ProcessedOk ⟨i, message, r⟩ := by
  have hcall : (callOf client message).op = some message.op := if_pos hop
  cases processOutcome h with
  | error text hnot =>
    exact ⟨fun h => (by cases h), fun _ => rfl, fun hacc => absurd hacc (hnot _ hcall)⟩
  | resync =>
    exact ⟨fun h => (by cases h), fun _ => rfl, fun _ _ => ⟨_, List.mem_cons_self, rfl, hid⟩⟩
  | ok op updated hcall' =>
    obtain rfl := Option.some.inj (hcall.symm.trans hcall')
    exact ⟨fun _ => ⟨_, rfl, hid, rfl⟩, fun h => absurd rfl h, fun _ h => absurd rfl h⟩

theorem processed_step {s s' : Sys} {a : Action}
    (hpipe : ∀ j, Pipeline (s.processedBy j) (s.conns j)) (h : s.step a = some s')
    (hs : ∀ p ∈ s.processed, ProcessedOk p) : ∀ p ∈ s'.processed, ProcessedOk p := by
  cases stepOutcome h with
  | op i message rest document result hthread hin hphase htype hprocess =>
    intro p hp
    rcases List.mem_append.mp hp with hp | hp
    · exact hs p hp
    rw [List.mem_singleton.mp hp]
    have hmem : message ∈ (s.conns i).toServer := by
      rw [hin]
      exact List.mem_cons_self
    have hop := (hpipe i).incoming.hasOp hphase hmem htype
    obtain ⟨q, hq, hid, -⟩ := (hpipe i).exists_queued_of_op hmem htype
    exact processedOk hop (hid ▸ (hpipe i).snprintf_opId hq) hprocess
  | _ => exact hs

/-- A step appends to the queued operations at most the operation of a key. -/
theorem queued_step {s s' : Sys} {a : Action} (hw : Wired s) (h : s.step a = some s') (j : ℕ) :
    (s'.conns j).queued = (s.conns j).queued ∨
      ∃ op, a = .key j op ∧
        (s'.conns j).queued = (s.conns j).queued ++ [newPending (s.conns j).client op] := by
  have hset {t : Sys} {i : ℕ} {c : Conn} (hconns : t.conns = s.conns)
      (hc : c.queued = (s.conns i).queued) (j : ℕ) :
      ((t.setConn i c).conns j).queued = (s.conns j).queued :=
    forall_conns_set (P := fun j c => c.queued = (s.conns j).queued) (fun _ => rfl) hconns hc j
  cases stepOutcome h with
  | connect clientId address =>
    refine Or.inl (hset rfl ?_ j)
    rw [hw.absent s.accepted le_rfl]
    rfl
  | key i op out hi hqueue =>
    by_cases hj : j = i
    · subst hj
      exact Or.inr ⟨op, rfl, by rw [setConn_conns_self]⟩
    · exact Or.inl (by rw [setConn_conns_of_ne s hj])
  | sendTo i fd message rest hthread =>
    have hmid := hset (t := s) (i := i) (c := { s.conns i with thread := rest }) rfl rfl
    exact Or.inl (forall_setConn (P := fun j c => c.queued = (s.conns j).queued)
      (by exact hmid fd) (fun k _ => hmid k) j)
  | saverTake => exact Or.inl rfl
  | saverTimer => exact Or.inl rfl
  | save i | deliver i | join i | refuse i | op i | answer i | send i | pipe i | register i
  | snapshot i | broadcast i | unlock i => exact Or.inl (hset rfl (by rfl) j)

/-- What holds of every operation that a key queues holds of all queued operations. -/
theorem forall_queued_step {P : TsOperation → Prop} {s s' : Sys} {a : Action} (hw : Wired s)
    (h : s.step a = some s') (hs : ∀ j, ∀ p ∈ (s.conns j).queued, P p.op)
    (ha : ∀ j op, a = .key j op → P op) (j : ℕ) : ∀ p ∈ (s'.conns j).queued, P p.op := by
  intro p hp
  rcases queued_step hw h j with hsame | ⟨op, hkey, hnew⟩
  · exact hs j p (hsame ▸ hp)
  · rw [hnew] at hp
    rcases List.mem_append.mp hp with hp | hp
    · exact hs j p hp
    · rw [List.mem_singleton.mp hp]
      exact ha j op hkey

/-- Only well-formed operations are queued. -/
def QueuesWellFormed (s : Sys) : Prop := ∀ j, ∀ p ∈ (s.conns j).queued, WellFormedOp p.op

theorem QueuesWellFormed.step {s s' : Sys} {a : Action} (hs : QueuesWellFormed s) (hw : Wired s)
    (ha : a.WellFormed) (h : s.step a = some s') : QueuesWellFormed s' :=
  forall_queued_step hw h hs fun _ _ hkey => by
    rw [hkey] at ha
    exact ha

theorem queuesWellFormed_run {text : Bytes} {limit : ℕ} {path : Bytes} {actions : List Action}
    {s : Sys} (hrun : run Sys.step (Sys.init text limit path) actions = some s)
    (hwf : ∀ a ∈ actions, a.WellFormed) : QueuesWellFormed s := by
  have hguard : Guarded Sys.step (fun _ a => a.WellFormed) (Sys.init text limit path) actions :=
    Guarded.of_forall hwf
  exact (run_invariant_of_guarded (P := fun s => Wired s ∧ QueuesWellFormed s)
    (fun _ _ _ hs ha h => ⟨hs.1.step h, hs.2.step hs.1 ha h⟩)
    ⟨wired_init text limit path, fun _ _ hp => absurd hp List.not_mem_nil⟩ hguard hrun).2

/-- What holds of the operations in every reached state. -/
structure Reached (s : Sys) : Prop where
  wired : Wired s
  logged : Logged s
  pipeline : ∀ j, Pipeline (s.processedBy j) (s.conns j)
  processed : ∀ p ∈ s.processed, ProcessedOk p

theorem reached_init (text : Bytes) (limit : ℕ) (path : Bytes) : Reached (init text limit path) where
  wired := wired_init text limit path
  logged := logged_init text limit path
  pipeline _ := pipeline_none
  processed _ hp := absurd hp List.not_mem_nil

theorem Reached.step {s s' : Sys} {a : Action} (hs : Reached s) (h : s.step a = some s') :
    Reached s' where
  wired := hs.wired.step h
  logged := hs.logged.step h
  pipeline := pipeline_step hs.wired h hs.pipeline
  processed := processed_step hs.pipeline h hs.processed

/-- The commits of a connection come from its calls. -/
theorem commitsOf_eq (s : Sys) (i : ℕ) :
    s.commitsOf i = (s.processedBy i).filterMap fun p => p.result.ack := by
  have hlist (ps : List Processed) :
      ((ps.filterMap fun p => p.result.ack.map fun ack => (p.conn, ack)).filter
        fun commit => commit.1 = i).map Prod.snd =
      (ps.filter fun p => p.conn = i).filterMap fun p => p.result.ack := by
    induction ps with
    | nil => rfl
    | cons p ps ih =>
      cases hack : p.result.ack <;> by_cases hi : p.conn = i <;> simp [hack, hi, ih]
  exact hlist s.processed

/-- The accepted calls are committed, in order. -/
theorem map_filterMap_ack {ps : List Processed} (h : ∀ p ∈ ps, ProcessedOk p) :
    ((ps.filterMap fun p => p.result.ack).map fun ack => (ack.opId, ack.originalOp)) =
      (ps.filter fun p => p.result.status = .ok).map fun p => (p.message.opId, p.message.op) := by
  induction ps with
  | nil => rfl
  | cons p ps ih =>
    have hp := h p List.mem_cons_self
    have ih := ih fun q hq => h q (List.mem_cons_of_mem _ hq)
    by_cases hok : p.result.status = .ok
    · obtain ⟨ack, hack, hid, hop⟩ := hp.ok hok
      simp [hack, hok, hid, hop, ih]
    · simp [hp.other hok, hok, ih]

/-- The versions of the commits of a connection are increasing. -/
theorem Logged.ordered {s : Sys} (hs : Logged s) (i : ℕ) :
    ((s.commitsOf i).map TsMessage.version).Pairwise (· < ·) := by
  have hall : s.commits.Pairwise fun a b => a.2.version < b.2.version := by
    refine List.pairwise_iff_getElem.mpr fun j k hj hk hjk => ?_
    rw [hs.versions j hj, hs.versions k hk]
    omega
  rw [commitsOf, List.map_map, List.pairwise_map]
  exact hall.sublist List.filter_sublist

/-- First in, first out: whatever is queued, delivered and served in between, no operation of a
client is lost, repeated or overtaken by a later one on its way from the queue to its commit. -/
theorem client_fifo (text : Bytes) (limit : ℕ) (path : Bytes) (actions : List Action) (s : Sys)
    (hrun : run Sys.step (Sys.init text limit path) actions = some s)
    (hwf : ∀ a ∈ actions, a.WellFormed) (i : ℕ) : s.ClientFifo i := by
  have hreached := run_invariant (fun _ _ _ hs h => hs.step h) (reached_init text limit path) hrun
  have hqueued : QueuesWellFormed s := queuesWellFormed_run hrun hwf
  have hpipe := hreached.pipeline i
  have hprocessed : ∀ p ∈ s.processedBy i, ProcessedOk p := fun p hp =>
    hreached.processed p (List.mem_filter.mp hp).1
  refine
    { queued := hpipe.queue
      distinct := hpipe.distinct
      sent := hpipe.sent
      committed := ?_
      ordered := hreached.logged.ordered i
      refused := fun p hp hstatus => ?_ }
  · rw [commitsOf_eq]
    exact map_filterMap_ack hprocessed
  · refine (hprocessed p hp).refused ?_ hstatus
    obtain ⟨q, hq, -, hop⟩ := hpipe.exists_queued (m := p.message) (by
      rw [hpipe.sent]
      exact List.mem_append_left _ (List.mem_map_of_mem hp))
    exact hop ▸ (hqueued i q hq).acceptable

/-- One client joins, types two characters and gets the answer to the first one. -/
def typing : List Action :=
  [Action.connect (bytes "a") []] ++ List.replicate 6 (Action.serve 0) ++
    [Action.deliver 0, Action.deliver 0,
    Action.key 0 (tsOperationInit .insert 0 (String.utf8EncodeChar 'x')),
    Action.key 0 (tsOperationInit .insert 1 (String.utf8EncodeChar 'y'))] ++
    List.replicate 4 (Action.serve 0) ++ [Action.deliver 0]

theorem client_fifo_typing :
    ∃ s, run Sys.step (Sys.init [] 10 (bytes "f")) typing = some s ∧ s.ClientFifo 0 := by
  have hsome : (run Sys.step (Sys.init [] 10 (bytes "f")) typing).isSome = true := by decide +kernel
  obtain ⟨s, hrun⟩ := Option.isSome_iff_exists.mp hsome
  refine ⟨s, hrun, client_fifo [] 10 (bytes "f") typing s hrun ?_ 0⟩
  have hx := wellFormed_insert (c := 'x') (by decide) 0
  have hy := wellFormed_insert (c := 'y') (by decide) 1
  simp only [typing, List.replicate, List.cons_append, List.nil_append, List.forall_mem_cons,
    List.not_mem_nil, false_implies, implies_true, Action.WellFormed, and_true, true_and]
  exact ⟨hx, hy⟩

/-! ## At most one outstanding operation -/

/-- Nothing has happened on the side of the client. -/
def SameClient (c c' : Conn) : Prop :=
  c'.sent = c.sent ∧ c'.received = c.received ∧ c'.client = c.client

theorem slot_step {s s' : Sys} {a : Action} (hs : Reached s) (hslot : ∀ j, Slot (s.conns j))
    (hguard : s.DocAfterAnswer a) (h : s.step a = some s') : ∀ j, Slot (s'.conns j) := by
  have hold := hs.pipeline
  have hnew := (hs.step h).pipeline
  intro j
  have hset {t : Sys} {i : ℕ} {c : Conn} (heq : s' = t.setConn i c) (hconns : t.conns = s.conns)
      (hc : Slot (s'.conns i)) : Slot (s'.conns j) := by
    by_cases hj : j = i
    · rw [hj]
      exact hc
    · rw [heq, setConn_conns_of_ne t hj, hconns]
      exact hslot j
  have hserve {t : Sys} {i : ℕ} {c : Conn} (heq : s' = t.setConn i c) (hconns : t.conns = s.conns)
      (hsent : c.sent = (s.conns i).sent) (hreceived : c.received = (s.conns i).received)
      (hclient : c.client = (s.conns i).client) : Slot (s'.conns j) := by
    have hself : s'.conns i = c := by rw [heq, setConn_conns_self]
    have hsent' : (s'.conns i).sent = (s.conns i).sent ++ [] := by
      rw [hself, hsent, List.append_nil]
    exact hset heq hconns ((hslot i).frame (hold i) (hnew i) hsent' rfl (hself ▸ hreceived)
      (hself ▸ hclient))
  cases stepOutcome h with
  | connect clientId address =>
    refine hset rfl rfl (Or.inl ?_)
    rw [setConn_conns_self]
    simp [onTheWay, Conn.opened, answersIn, answersOf, opsOf, joinMessage]
    decide
  | key i op out hi hqueue =>
    refine hset rfl rfl ((hslot i).key (hold i) (hnew i) hqueue ?_ ?_ ?_) <;>
      rw [setConn_conns_self] <;> rfl
  | save i hi =>
    refine hset rfl rfl ((hslot i).frame (hold i) (hnew i) (by rw [setConn_conns_self]; rfl)
      (opsOf_cons_of_ne (by decide) []) ?_ ?_) <;> rw [setConn_conns_self] <;> rfl
  | deliver i message rest out hin hhandle =>
    refine hset rfl rfl ((hslot i).deliver (hold i) (hnew i) hhandle
      (hguard message (by rw [hin]; rfl)) ?_ ?_ ?_) <;>
      rw [setConn_conns_self] <;> rfl
  | sendTo i fd message rest hthread =>
    have hmid := forall_setConn (s := s) (i := i) (c := { s.conns i with thread := rest })
      (P := fun j c => SameClient (s.conns j) c) ⟨rfl, rfl, rfl⟩ fun j _ => ⟨rfl, rfl, rfl⟩
    obtain ⟨hsent, hreceived, hclient⟩ := forall_setConn (P := fun j c => SameClient (s.conns j) c)
      (show SameClient _ (Conn.push _ message) from hmid fd) (fun j _ => hmid j) j
    rw [← List.append_nil (s.conns j).sent] at hsent
    exact (hslot j).frame (hold j) (hnew j) hsent rfl hreceived hclient
  | saverTake => exact hslot j
  | saverTimer => exact hslot j
  | join i | refuse i | op i | answer i | send i | pipe i | register i | snapshot i | broadcast i
  | unlock i => exact hserve rfl rfl rfl rfl rfl

/-- What holds of the slots as long as no DOC_STATE empties one too early. -/
structure Serial (s : Sys) : Prop where
  reached : Reached s
  slot : ∀ j, Slot (s.conns j)

/-- What is outstanding is on the way. -/
theorem length_outstanding_le {ps : List Processed} {c : Conn} (h : Pipeline ps c) :
    c.outstanding.length ≤ (onTheWay c).length := by
  have hids : c.outstanding.map TsMessage.opId =
      ((opsOf c.sent).map TsMessage.opId).filter fun id => id ∉ answersOf c.received := by
    rw [List.filter_map]
    rfl
  have hanswered : (answersOf c.received).filter (fun id => id ∉ answersOf c.received) = [] := by
    rw [List.filter_eq_nil_iff]
    exact fun id hid => by simp [hid]
  have hlen := congrArg List.length hids
  rw [List.length_map, h.answered, List.filter_append, hanswered, List.nil_append] at hlen
  rw [hlen]
  exact List.length_filter_le ..

/-- At most one operation of a client is outstanding, as long as a DOC_STATE never finds an
unanswered operation in flight. -/
theorem one_outstanding (text : Bytes) (limit : ℕ) (path : Bytes) (actions : List Action) (s : Sys)
    (hrun : run Sys.step (Sys.init text limit path) actions = some s)
    (hguard : Guarded Sys.step Sys.DocAfterAnswer (Sys.init text limit path) actions) :
    s.OneOutstanding := by
  obtain ⟨hreached, hslot⟩ : Serial s := run_invariant_of_guarded
    (fun _ _ _ hs hg h => ⟨hs.reached.step h, slot_step hs.reached hs.slot hg h⟩)
    ⟨reached_init text limit path, fun _ => Or.inl rfl⟩ hguard hrun
  intro i _
  refine (length_outstanding_le (hreached.pipeline i)).trans ?_
  rcases hslot i with hway | ⟨p, -, hway⟩ <;> rw [hway]
  · exact Nat.zero_le 1
  · exact le_rfl

/-- Two clients join, and the second one commits two operations that the first one does not take. -/
def overtaken : List Action :=
  [Action.connect (bytes "a") [], Action.connect (bytes "b") []] ++
    List.replicate 6 (Action.serve 0) ++ List.replicate 6 (Action.serve 1) ++
    [Action.deliver 0, Action.deliver 0, Action.deliver 1, Action.deliver 1] ++
    [Action.key 1 (tsOperationInit .insert 0 (bytes "x"))] ++ List.replicate 7 (Action.serve 1) ++
    [Action.deliver 1, Action.key 1 (tsOperationInit .insert 1 (bytes "y"))] ++
    List.replicate 7 (Action.serve 1)

/-- With a history of one entry: the first client types one character against the old version. The
DOC_STATE behind RESYNC_REQUIRED finds it in the slot; the client types on after the DOC_STATE that
answers its REQUEST_DOC. -/
def resyncing : List Action :=
  overtaken ++
    [Action.key 0 (tsOperationInit .insert 0 (bytes "a")), Action.serve 0, Action.serve 0,
      Action.serve 0, Action.deliver 0, Action.deliver 0, Action.deliver 0, Action.deliver 0,
      Action.serve 0, Action.serve 0, Action.deliver 0,
      Action.key 0 (tsOperationInit .insert 0 (bytes "b"))] ++
    List.replicate 4 (Action.serve 0) ++ [Action.deliver 0]

theorem one_outstanding_resyncing :
    ∃ s, run Sys.step (Sys.init [] 1 (bytes "f")) resyncing = some s ∧
      (s.conns 0).received.map TsMessage.type = [typeWelcome, typeDocState, typeRemoteOp,
        typeRemoteOp, typeResyncRequired, typeDocState, typeDocState, typeAck] ∧
      s.OneOutstanding := by
  have hany : (run Sys.step (Sys.init [] 1 (bytes "f")) resyncing).any
      (fun s => decide ((s.conns 0).received.map TsMessage.type = [typeWelcome, typeDocState,
        typeRemoteOp, typeRemoteOp, typeResyncRequired, typeDocState, typeDocState, typeAck])) =
      true := by decide +kernel
  obtain ⟨s, hrun, hs⟩ := (Option.any_eq_true _ _).mp hany
  exact ⟨s, hrun, of_decide_eq_true hs,
    one_outstanding [] 1 (bytes "f") resyncing s hrun (by decide +kernel)⟩

/-- With a history of one entry: the first client types three characters against the old version. Its
first OP is answered with RESYNC_REQUIRED and a DOC_STATE, and its REQUEST_DOC with another
DOC_STATE. -/
def expiring : List Action :=
  overtaken ++
    [Action.key 0 (tsOperationInit .insert 0 (bytes "a")),
      Action.key 0 (tsOperationInit .insert 1 (bytes "b")),
      Action.key 0 (tsOperationInit .insert 2 (bytes "c")), Action.serve 0, Action.serve 0,
      Action.serve 0, Action.deliver 0, Action.deliver 0, Action.deliver 0, Action.deliver 0,
      Action.serve 0, Action.serve 0, Action.deliver 0]

theorem not_one_outstanding_expiring :
    ∃ s, run Sys.step (Sys.init [] 1 (bytes "f")) expiring = some s ∧ ¬ s.OneOutstanding := by
  have hany : (run Sys.step (Sys.init [] 1 (bytes "f")) expiring).any
      (fun s => decide (¬ s.OneOutstanding)) = true := by decide +kernel
  obtain ⟨s, hrun, hs⟩ := (Option.any_eq_true _ _).mp hany
  exact ⟨s, hrun, of_decide_eq_true hs⟩

end Sys

end TermSync
