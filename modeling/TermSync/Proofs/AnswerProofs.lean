import TermSync.Answers
import TermSync.Proofs.ClientStateProofs
import TermSync.Proofs.DocumentProofs

/-!
# Proofs: an answer releases its operation

The operation ids of a client end in different numbers (`FreshIds`), so an operation that has left the
slot is not mistaken for a later one. An ACK and a RESYNC empty the slot and run the pump, at once or
with the DOC_STATE that follows; an ERROR does neither (`answer_releases_iff`).
-/

namespace TermSync

open Foundations

/-! ## The ids of a client -/

/-- The ids of the operation in flight and of the queued operations. -/
def TsClientState.ids (state : TsClientState) : List Bytes :=
  (state.inflight.toList ++ state.queue).map TsPendingOperation.opId

theorem ids_eq (state : TsClientState) : state.ids = (pending state).map Prod.fst := by
  rw [TsClientState.ids, pending, List.map_map]
  rfl

theorem ids_statePump (state : TsClientState) : (statePump state).1.ids = state.ids := by
  rw [ids_eq, pending_statePump, ids_eq]

/-- An input queues an operation with the next id, or it adds no operation. -/
theorem ids_clientInput {state : TsClientState} {input : ClientInput}
    {out : TsClientState × List TsMessage} (h : clientInput state input = some out) :
    (out.1.ids.Sublist state.ids ∧ out.1.nextOpNumber = state.nextOpNumber) ∨
      (state.nextOpNumber < intMax ∧ out.1.nextOpNumber = state.nextOpNumber + 1 ∧
        out.1.ids = state.ids ++ [nextOpId state]) := by
  cases input with
  | queue op =>
    obtain ⟨hlt, status, rfl⟩ := queueOperation_eq h
    refine Or.inr ⟨hlt, statePump_nextOpNumber _, ?_⟩
    rw [ids_statePump]
    simp [TsClientState.ids, newPending]
  | receive message =>
    have hdrop : (state.queue.map TsPendingOperation.opId).Sublist state.ids := by
      simp [TsClientState.ids]
    refine Or.inl ?_
    cases handleOutcome h with
    | docState =>
      unfold tsClientStateSetDocument
      exact ⟨by rw [ids_statePump]; exact hdrop, statePump_nextOpNumber _⟩
    | ack _ applied status _ happly =>
      obtain ⟨content, version, rfl⟩ := applyAuthoritativeOp_frame happly
      exact ⟨by rw [ids_statePump]; exact hdrop, statePump_nextOpNumber _⟩
    | remote _ applied status _ happly =>
      obtain ⟨content, version, rfl⟩ := applyAuthoritativeOp_frame happly
      exact ⟨List.Sublist.refl _, rfl⟩
    | resync => exact ⟨hdrop, rfl⟩
    | _ => exact ⟨List.Sublist.refl _, rfl⟩

/-- The ids are printed from different numbers that have been used up. -/
structure FreshIds (state : TsClientState) : Prop where
  number : 1 ≤ state.nextOpNumber ∧ state.nextOpNumber ≤ intMax
  printed : ∀ id ∈ state.ids, ∃ clientId n, 1 ≤ n ∧ n < state.nextOpNumber ∧
    id = printOpId clientId n
  distinct : (state.ids.map numberOf).Nodup

theorem freshIds_init (clientId : Bytes) : FreshIds (tsClientStateInit clientId) where
  number := by simp [tsClientStateInit, intMax]
  printed := by simp [TsClientState.ids, tsClientStateInit]
  distinct := by simp [TsClientState.ids, tsClientStateInit]

/-- The number of an id that a client holds has been used up. -/
theorem FreshIds.numberOf_mem {state : TsClientState} (h : FreshIds state) {id : Bytes}
    (hid : id ∈ state.ids) :
    ∃ n, 1 ≤ n ∧ n < state.nextOpNumber ∧ numberOf id = formatInt n := by
  obtain ⟨clientId, n, h1, hlt, rfl⟩ := h.printed id hid
  have hmax := h.number.2
  exact ⟨n, h1, hlt, numberOf_printOpId clientId (by omega) (by omega)⟩

theorem FreshIds.numberOf_nextOpId {state : TsClientState} (h : FreshIds state) :
    numberOf (nextOpId state) = formatInt state.nextOpNumber :=
  numberOf_printOpId state.clientId (by have := h.number.1; omega) h.number.2

theorem FreshIds.step {state : TsClientState} {input : ClientInput}
    {out : TsClientState × List TsMessage} (h : FreshIds state)
    (hout : clientInput state input = some out) : FreshIds out.1 := by
  obtain ⟨h1, hmax⟩ := h.number
  rcases ids_clientInput hout with ⟨hsub, hnumber⟩ | ⟨hlt, hnumber, hids⟩
  · refine ⟨by rw [hnumber]; exact h.number, fun id hid => ?_, ?_⟩
    · rw [hnumber]
      exact h.printed id (hsub.subset hid)
    · exact h.distinct.sublist (hsub.map numberOf)
  · refine ⟨by omega, fun id hid => ?_, ?_⟩
    · rw [hids] at hid
      rcases List.mem_append.mp hid with hid | hid
      · obtain ⟨clientId, n, hn1, hn, rfl⟩ := h.printed id hid
        exact ⟨clientId, n, hn1, by omega, rfl⟩
      · rw [List.mem_singleton.mp hid]
        exact ⟨state.clientId, state.nextOpNumber, h1, by omega, rfl⟩
    · rw [hids, List.map_append, List.map_singleton, h.numberOf_nextOpId]
      refine List.Nodup.append h.distinct (List.nodup_singleton _) ?_
      rw [List.disjoint_singleton]
      intro hmem
      obtain ⟨id, hid, hnum⟩ := List.mem_map.mp hmem
      obtain ⟨n, hn1, hn, hnumId⟩ := h.numberOf_mem hid
      have heq := formatInt_injective (hnumId.symm.trans hnum)
      omega

/-- Dropping the operation in flight, whatever else changes but the queue. -/
theorem FreshIds.emptied {state emptied : TsClientState} (h : FreshIds state)
    (hslot : emptied.inflight = none) (hqueue : emptied.queue = state.queue)
    (hnumber : emptied.nextOpNumber = state.nextOpNumber) : FreshIds emptied := by
  have hsub : emptied.ids.Sublist state.ids := by simp [TsClientState.ids, hslot, hqueue]
  refine ⟨by rw [hnumber]; exact h.number, fun id hid => ?_, h.distinct.sublist (hsub.map numberOf)⟩
  rw [hnumber]
  exact h.printed id (hsub.subset hid)

/-! ## An operation that has left the client -/

/-- The number of the id has been used up, and no operation of the client has it. -/
structure Gone (id : Bytes) (state : TsClientState) : Prop where
  used : ∃ n, 1 ≤ n ∧ n < state.nextOpNumber ∧ numberOf id = formatInt n
  absent : numberOf id ∉ state.ids.map numberOf

theorem Gone.step {state : TsClientState} {input : ClientInput} {id : Bytes}
    {out : TsClientState × List TsMessage} (h : Gone id state) (hfresh : FreshIds state)
    (hout : clientInput state input = some out) : Gone id out.1 := by
  obtain ⟨n, hn1, hn, hnum⟩ := h.used
  obtain ⟨h1, -⟩ := hfresh.number
  rcases ids_clientInput hout with ⟨hsub, hnumber⟩ | ⟨hlt, hnumber, hids⟩
  · exact ⟨⟨n, hn1, by omega, hnum⟩, fun hmem => h.absent ((hsub.map numberOf).subset hmem)⟩
  · refine ⟨⟨n, hn1, by omega, hnum⟩, fun hmem => ?_⟩
    rw [hids, List.map_append, List.map_singleton, hfresh.numberOf_nextOpId] at hmem
    rcases List.mem_append.mp hmem with hmem | hmem
    · exact h.absent hmem
    · rw [hnum] at hmem
      have heq := formatInt_injective (List.mem_singleton.mp hmem)
      omega

theorem Gone.inflight_ne {state : TsClientState} {id : Bytes} (h : Gone id state)
    {p : TsPendingOperation} (hp : state.inflight = some p) : p.opId ≠ id := by
  rintro rfl
  exact h.absent (List.mem_map_of_mem (List.mem_map_of_mem (by simp [hp])))

/-- Without the operation in flight, the client holds no operation with its number. -/
theorem FreshIds.gone {state after : TsClientState} {x : TsPendingOperation} (h : FreshIds state)
    (hx : state.inflight = some x) (hids : after.ids = state.queue.map TsPendingOperation.opId)
    (hnumber : after.nextOpNumber = state.nextOpNumber) : Gone x.opId after := by
  refine ⟨?_, ?_⟩
  · rw [hnumber]
    exact h.numberOf_mem (by simp [TsClientState.ids, hx])
  · have hdistinct := h.distinct
    simp only [TsClientState.ids, hx, Option.toList_some, List.singleton_append, List.map_cons,
      List.nodup_cons] at hdistinct
    rw [hids]
    exact hdistinct.1

/-! ## The first queued operation -/

/-- The operation has been sent, or it is the first one queued behind an empty slot. -/
def SentOrFirst (next : TsPendingOperation) (s : TsClientState × List TsMessage) : Prop :=
  (∃ clientId baseVersion, opMessage clientId { next with baseVersion := baseVersion } ∈ s.2) ∨
    (s.1.inflight = none ∧ s.1.queue.head? = some next)

/-- The pump sends the first operation queued behind an empty slot. -/
theorem statePump_sends {state : TsClientState} {next : TsPendingOperation}
    (hinflight : state.inflight = none) (hqueue : state.queue.head? = some next) :
    ∃ clientId baseVersion,
      opMessage clientId { next with baseVersion := baseVersion } ∈ (statePump state).2 := by
  obtain ⟨queue, hqueue⟩ := List.head?_eq_some_iff.mp hqueue
  rcases pump_cases state with ⟨h | h, -⟩ | ⟨next', queue', -, hqueue', h⟩
  · exact absurd hinflight h
  · simp [hqueue] at h
  · obtain ⟨rfl, rfl⟩ := List.cons.inj (hqueue.symm.trans hqueue')
    exact ⟨state.clientId, state.version, by rw [h]; exact List.mem_singleton.mpr rfl⟩

theorem SentOrFirst.input {state : TsClientState} {next : TsPendingOperation} {input : ClientInput}
    {out : TsClientState × List TsMessage} (hinflight : state.inflight = none)
    (hqueue : state.queue.head? = some next) (h : clientInput state input = some out) :
    SentOrFirst next out := by
  obtain ⟨queue, hcons⟩ := List.head?_eq_some_iff.mp hqueue
  cases input with
  | queue op =>
    obtain ⟨-, status, rfl⟩ := queueOperation_eq h
    exact Or.inl (statePump_sends hinflight (by simp [hcons]))
  | receive message =>
    cases handleOutcome h with
    | docState => exact Or.inl (statePump_sends rfl hqueue)
    | ack _ applied status hmatch _ => simp [hinflight] at hmatch
    | remote _ applied status _ happly =>
      obtain ⟨content, version, rfl⟩ := applyAuthoritativeOp_frame happly
      exact Or.inr ⟨hinflight, hqueue⟩
    | resync => exact Or.inr ⟨rfl, hqueue⟩
    | _ => exact Or.inr ⟨hinflight, hqueue⟩

theorem SentOrFirst.step {s s' : TsClientState × List TsMessage} {next : TsPendingOperation}
    {input : ClientInput} (h : SentOrFirst next s) (hs : sendingStep s input = some s') :
    SentOrFirst next s' := by
  obtain ⟨out, hout, rfl⟩ := Option.map_eq_some_iff.mp hs
  rcases h with ⟨clientId, baseVersion, hsent⟩ | ⟨hinflight, hqueue⟩
  · exact Or.inl ⟨clientId, baseVersion, List.mem_append_left _ hsent⟩
  · rcases SentOrFirst.input hinflight hqueue hout with ⟨clientId, baseVersion, hsent⟩ | hfirst
    · exact Or.inl ⟨clientId, baseVersion, List.mem_append_right _ hsent⟩
    · exact Or.inr hfirst

/-! ## Handling an answer -/

theorem handles_singleton {message : TsMessage} {inputs : List ClientInput}
    (h : Handles [message] inputs) : inputs = [.receive message] := by
  cases h with
  | last => rfl
  | more _ _ hrest => cases hrest

theorem handles_pair {first second : TsMessage} {inputs : List ClientInput}
    (h : Handles [first, second] inputs) :
    ∃ others, inputs = .receive first :: (others ++ [.receive second]) := by
  cases h with
  | more _ others hrest => exact ⟨others, by rw [handles_singleton hrest]⟩

/-- What holds of the client between the emptying of the slot and the end of the answer. -/
structure Releasing (x : TsPendingOperation) (queue : List TsPendingOperation)
    (s : TsClientState × List TsMessage) : Prop where
  fresh : FreshIds s.1
  gone : Gone x.opId s.1
  next : ∀ p, queue.head? = some p → SentOrFirst p s

theorem Releasing.step {x : TsPendingOperation} {queue : List TsPendingOperation}
    {s s' : TsClientState × List TsMessage} {input : ClientInput} (h : Releasing x queue s)
    (hs : sendingStep s input = some s') : Releasing x queue s' := by
  obtain ⟨out, hout, rfl⟩ := Option.map_eq_some_iff.mp hs
  have hfresh : FreshIds out.1 := h.fresh.step hout
  have hgone : Gone x.opId out.1 := h.gone.step h.fresh hout
  exact ⟨hfresh, hgone, fun p hp => (h.next p hp).step hs⟩

/-- Once the slot has been filled again or the queue is empty, the operation is released. -/
theorem Releasing.released {x : TsPendingOperation} {queue : List TsPendingOperation}
    {s : TsClientState × List TsMessage} (h : Releasing x queue s)
    (hpump : s.1.inflight = none → s.1.queue = []) : Released x queue s.1 s.2 where
  slot p hp := h.gone.inflight_ne hp
  next p hp := by
    rcases h.next p hp with hsent | ⟨hinflight, hqueue⟩
    · exact hsent
    · simp [hpump hinflight] at hqueue

theorem statePump_idle (state : TsClientState) :
    (statePump state).1.inflight = none → (statePump state).1.queue = [] := by
  rcases pump_cases state with ⟨hidle, h⟩ | ⟨next, queue, -, -, h⟩
  · rw [h]
    exact fun hinflight => hidle.resolve_left (fun hne => hne hinflight)
  · rw [h]
    exact fun hinflight => absurd hinflight (by simp)

/-- Once the slot is empty, the operation is gone and the next one waits for the pump. -/
theorem releasing_of_emptied {state emptied : TsClientState} {x : TsPendingOperation}
    {sent : List TsMessage} (hfresh : FreshIds state) (hx : state.inflight = some x)
    (hslot : emptied.inflight = none)
    (hqueue : emptied.queue = state.queue) (hnumber : emptied.nextOpNumber = state.nextOpNumber) :
    Releasing x state.queue (emptied, sent) where
  fresh := hfresh.emptied hslot hqueue hnumber
  gone := hfresh.gone hx (by simp [TsClientState.ids, hslot, hqueue]) hnumber
  next p hp := Or.inr ⟨hslot, by rw [hqueue, hp]⟩

theorem Releasing.pump {state : TsClientState} {x : TsPendingOperation}
    {queue : List TsPendingOperation} (h : Releasing x queue (state, [])) :
    Releasing x queue (statePump state) where
  fresh := ⟨by simpa using h.fresh.number, by simpa [ids_statePump] using h.fresh.printed,
    by simpa [ids_statePump] using h.fresh.distinct⟩
  gone := ⟨by simpa using h.gone.used, by simpa [ids_statePump] using h.gone.absent⟩
  next p hp := by
    rcases h.next p hp with ⟨_, _, hsent⟩ | ⟨hslot, hqueue⟩
    · cases hsent
    · exact Or.inl (statePump_sends hslot hqueue)

/-- The ACK of the operation in flight. -/
theorem released_ack {state after : TsClientState} {x : TsPendingOperation} {ack : TsMessage}
    {sent : List TsMessage} (hfresh : FreshIds state) (hx : state.inflight = some x)
    (htype : ack.type = typeAck) (hid : ack.opId = x.opId)
    (hrun : run sendingStep (state, []) [.receive ack] = some (after, sent)) :
    Released x state.queue after sent := by
  obtain ⟨s, hs, hnil⟩ := run_cons_some.mp hrun
  obtain ⟨out, hout, rfl⟩ := Option.map_eq_some_iff.mp hs
  simp only [run_nil, Option.some.injEq, Prod.mk.injEq] at hnil
  obtain ⟨rfl, rfl⟩ := hnil
  rw [List.nil_append]
  cases handleOutcome hout with
  | ack _ applied status _ happly =>
    obtain ⟨content, version, rfl⟩ := applyAuthoritativeOp_frame happly
    have hempty : Releasing x state.queue
        ({ state with
            content := content
            version := version
            inflight := none
            status := status }, []) :=
      releasing_of_emptied hfresh hx rfl rfl rfl
    exact hempty.pump.released (statePump_idle _)
  | staleAck _ _ hmatch => exact absurd (by simp [hx, hid]) hmatch
  | other _ hack => exact absurd htype hack
  | docState h | welcome h | oldRemote h | missedRemote h | remote h | resync h =>
    exact absurd (htype.symm.trans h) (by decide)

/-- A RESYNC_REQUIRED and a DOC_STATE, with any other inputs between them. -/
theorem released_resync {state after : TsClientState} {x : TsPendingOperation}
    {required document : TsMessage} {others : List ClientInput} {sent : List TsMessage}
    (hfresh : FreshIds state) (hx : state.inflight = some x)
    (hrequired : required.type = typeResyncRequired) (hdocument : document.type = typeDocState)
    (hrun : run sendingStep (state, [])
      (.receive required :: (others ++ [.receive document])) = some (after, sent)) :
    Released x state.queue after sent := by
  obtain ⟨first, hfirst, hrest⟩ := run_cons_some.mp hrun
  obtain ⟨middle, hmiddle, hlast⟩ := run_append_some.mp hrest
  have hreleasing : Releasing x state.queue first := by
    obtain ⟨out, hout, rfl⟩ := Option.map_eq_some_iff.mp hfirst
    cases handleOutcome hout with
    | resync => exact releasing_of_emptied hfresh hx rfl rfl rfl
    | other _ _ _ hresync => exact absurd hrequired hresync
    | docState h | welcome h | ack h | staleAck h | oldRemote h | missedRemote h | remote h =>
      exact absurd (hrequired.symm.trans h) (by decide)
  have hmiddle : Releasing x state.queue middle :=
    run_invariant (fun _ _ _ h hs => h.step hs) hreleasing hmiddle
  obtain ⟨s, hs, hnil⟩ := run_cons_some.mp hlast
  obtain rfl := Option.some.inj hnil
  have hend := hmiddle.step hs
  refine hend.released ?_
  obtain ⟨out, hout, heq⟩ := Option.map_eq_some_iff.mp hs
  rw [← heq]
  cases handleOutcome hout with
  | docState => exact statePump_idle _
  | other hdoc => exact absurd hdocument hdoc
  | resync h | welcome h | ack h | staleAck h | oldRemote h | missedRemote h | remote h =>
    exact absurd (hdocument.symm.trans h) (by decide)

/-- An ERROR leaves the operation in flight. -/
theorem run_error (state : TsClientState) (opId text : Bytes) :
    ∃ status, run sendingStep (state, []) [.receive (setMessageError opId text)] =
      some ({ state with status := status }, []) :=
  ⟨_, rfl⟩

theorem freshIds_run {clientId : Bytes} {inputs : List ClientInput} {state : TsClientState}
    (hrun : run clientStep (tsClientStateInit clientId) inputs = some state) : FreshIds state := by
  refine run_invariant (fun s input s' h hs => ?_) (freshIds_init clientId) hrun
  cases input with
  | queue op =>
    obtain ⟨out, hout, rfl⟩ := Option.map_eq_some_iff.mp hs
    have hinput : clientInput s (.queue op) = some out := hout
    exact h.step hinput
  | receive message =>
    obtain ⟨out, hout, rfl⟩ := Option.map_eq_some_iff.mp hs
    have hinput : clientInput s (.receive message) = some out := hout
    exact h.step hinput

/-- The answer of the server releases the operation in flight, in every handling of it, exactly when
the document-level check lets the operation through. -/
theorem answer_releases_iff (clientId submitter : Bytes) (before : List ClientInput)
    (state : TsClientState) (x : TsPendingOperation) (doc doc' : TsDocument) (r : TsProcessResult)
    (hrun : run clientStep (tsClientStateInit clientId) before = some state)
    (hx : state.inflight = some x)
    (hr : tsDocumentProcessOperation doc submitter x.opId x.baseVersion (some x.op) =
      some (doc', r)) :
    (∀ inputs after sent, Handles r.answer inputs →
      run sendingStep (state, []) inputs = some (after, sent) →
        Released x state.queue after sent) ↔ Acceptable x.op := by
  have hfresh := freshIds_run hrun
  have hcall : processCall doc ⟨submitter, x.opId, x.baseVersion, some x.op⟩ = some (doc', r) := hr
  have hid : snprintf tsMaxOpId x.opId = x.opId := by
    obtain ⟨printer, n, -, -, hprinted⟩ := hfresh.printed x.opId (by simp [TsClientState.ids, hx])
    rw [hprinted, printOpId, snprintf_snprintf]
  cases processOutcome hcall with
  | error text hop =>
    refine iff_of_false (fun hreleased => ?_) (hop x.op rfl)
    obtain ⟨status, herror⟩ := run_error state x.opId text
    exact (hreleased _ _ _ (Handles.last _) herror).slot x hx rfl
  | resync op hop hacc =>
    obtain rfl := Option.some.inj hop
    refine iff_of_true (fun inputs after sent hhandles hinputs => ?_) hacc
    obtain ⟨others, rfl⟩ := handles_pair hhandles
    exact released_resync hfresh hx rfl rfl hinputs
  | ok op updated hop hacc =>
    obtain rfl := Option.some.inj hop
    refine iff_of_true (fun inputs after sent hhandles hinputs => ?_) hacc
    obtain rfl := handles_singleton hhandles
    exact released_ack hfresh hx rfl hid hinputs

/-- A client that has queued an operation and, behind it, the deletion of the first character. -/
def twoQueued (op : TsOperation) : TsClientState :=
  { tsClientStateInit (bytes "u1") with
    queue := [⟨bytes "u1-2", tsOperationInit .delete 0 [], -1⟩]
    inflight := some ⟨bytes "u1-1", op, 0⟩
    nextOpNumber := 3
    status := bytes "queued 1 operation(s)" }

theorem answer_releases_iff_insert :
    ∃ doc' r, tsDocumentProcessOperation (tsDocumentInit [] 0) (bytes "u1") (bytes "u1-1") 0
        (some (tsOperationInit .insert 0 (bytes "x"))) = some (doc', r) ∧
      ((∀ inputs after sent, Handles r.answer inputs →
        run sendingStep (twoQueued (tsOperationInit .insert 0 (bytes "x")), []) inputs =
            some (after, sent) →
          Released ⟨bytes "u1-1", tsOperationInit .insert 0 (bytes "x"), 0⟩
            (twoQueued (tsOperationInit .insert 0 (bytes "x"))).queue after sent) ↔
        Acceptable (tsOperationInit .insert 0 (bytes "x"))) := by
  have hsome : (tsDocumentProcessOperation (tsDocumentInit [] 0) (bytes "u1") (bytes "u1-1") 0
      (some (tsOperationInit .insert 0 (bytes "x")))).isSome = true := by decide
  obtain ⟨⟨doc', r⟩, hr⟩ := Option.isSome_iff_exists.mp hsome
  have hrun : run clientStep (tsClientStateInit (bytes "u1"))
      [.queue (tsOperationInit .insert 0 (bytes "x")), .queue (tsOperationInit .delete 0 [])] =
        some (twoQueued (tsOperationInit .insert 0 (bytes "x"))) := by decide
  exact ⟨doc', r, hr, answer_releases_iff (bytes "u1") (bytes "u1") _ _ _ _ doc' r hrun rfl hr⟩

/-- An insertion of two characters is refused, and the client waits for it for ever. -/
theorem not_released_refused :
    ¬ ∀ (clientId submitter : Bytes) (before : List ClientInput) (state : TsClientState)
      (x : TsPendingOperation) (doc doc' : TsDocument) (r : TsProcessResult)
      (inputs : List ClientInput) (after : TsClientState) (sent : List TsMessage),
      run clientStep (tsClientStateInit clientId) before = some state → state.inflight = some x →
      tsDocumentProcessOperation doc submitter x.opId x.baseVersion (some x.op) = some (doc', r) →
      Handles r.answer inputs → run sendingStep (state, []) inputs = some (after, sent) →
        Released x state.queue after sent := by
  intro h
  have hrun : run clientStep (tsClientStateInit (bytes "u1"))
      [.queue (tsOperationInit .insert 0 (bytes "ab")), .queue (tsOperationInit .delete 0 [])] =
        some (twoQueued (tsOperationInit .insert 0 (bytes "ab"))) := by decide
  have hreleased := h (bytes "u1") (bytes "u1") _ _ _ (tsDocumentInit [] 0) _ _ _ _ _
    hrun rfl rfl (Handles.last _) rfl
  exact hreleased.slot _ rfl rfl

end TermSync
