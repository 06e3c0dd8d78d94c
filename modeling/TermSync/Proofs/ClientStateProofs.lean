import TermSync.ClientState
import TermSync.Proofs.CStringProofs

/-!
# Proofs: what the client does with a message

`handleOutcome` says once what `ts_client_state_handle_message` can do. The pump is described by
`pump_cases`; it never touches the local copy of the document.
-/

namespace TermSync

open Foundations

/-! ## Operation ids -/

/-- The digits behind the last dash. -/
def numberOf (opId : Bytes) : Bytes := (opId.reverse.takeWhile fun b => b ≠ 45).reverse

/-- The id that a client with this id prints for its operation with this number. -/
def printOpId (clientId : Bytes) (number : ℤ) : Bytes :=
  snprintf tsMaxOpId (clientId.take 48 ++ bytes "-" ++ formatInt number)

theorem numberOf_append (a ds : Bytes) (hds : ∀ b ∈ ds, b ≠ 45) : numberOf (a ++ 45 :: ds) = ds := by
  have hall : ∀ b ∈ ds.reverse, decide (b ≠ 45) = true := fun b hb =>
    decide_eq_true (hds b (List.mem_reverse.mp hb))
  rw [numberOf, List.reverse_append, List.reverse_cons, List.append_assoc,
    List.takeWhile_append_of_pos hall]
  simp

/-- The ids fit their buffer, so that they end in their numbers. -/
theorem printOpId_eq (clientId : Bytes) {number : ℤ} (h0 : 0 ≤ number) (hmax : number ≤ intMax) :
    printOpId clientId number = clientId.take 48 ++ 45 :: formatInt number := by
  have hlen := length_formatInt_le (n := number) (by simp only [intMin]; omega) hmax
  rw [printOpId, snprintf, List.take_of_length_le, bytes_minus, List.append_assoc,
    List.singleton_append]
  simp only [List.length_append, List.length_take, bytes_minus, List.length_singleton, tsMaxOpId]
  omega

theorem numberOf_printOpId (clientId : Bytes) {number : ℤ} (h0 : 0 ≤ number)
    (hmax : number ≤ intMax) : numberOf (printOpId clientId number) = formatInt number := by
  rw [printOpId_eq clientId h0 hmax]
  refine numberOf_append _ _ fun b hb => ?_
  rw [formatInt_of_nonneg h0] at hb
  exact (isDigit_ne (Decimal.isDigit_of_mem_digits _ b hb)).2.1

/-! ## The pump -/

/-- The pump sends nothing, or it binds the oldest queued operation to the local version and sends
it. -/
theorem pump_cases (state : TsClientState) :
    ((state.inflight ≠ none ∨ state.queue = []) ∧ statePump state = (state, [])) ∨
      ∃ next queue, state.inflight = none ∧ state.queue = next :: queue ∧
        statePump state =
          ({ state with
              queue := queue
              inflight := some { next with baseVersion := state.version } },
            [opMessage state.clientId { next with baseVersion := state.version }]) := by
  unfold statePump
  split
  · rename_i next queue hinflight hqueue
    exact Or.inr ⟨next, queue, hinflight, hqueue, rfl⟩
  · rename_i hne
    refine Or.inl ⟨?_, rfl⟩
    cases hinflight : state.inflight with
    | some p => exact Or.inl (by simp)
    | none =>
      cases hqueue : state.queue with
      | nil => exact Or.inr rfl
      | cons next queue => exact absurd hqueue (hne next queue hinflight)

@[simp] theorem statePump_content (state : TsClientState) :
    (statePump state).1.content = state.content := by
  rcases pump_cases state with ⟨-, h⟩ | ⟨_, _, -, -, h⟩ <;> rw [h]

@[simp] theorem statePump_version (state : TsClientState) :
    (statePump state).1.version = state.version := by
  rcases pump_cases state with ⟨-, h⟩ | ⟨_, _, -, -, h⟩ <;> rw [h]

@[simp] theorem statePump_nextOpNumber (state : TsClientState) :
    (statePump state).1.nextOpNumber = state.nextOpNumber := by
  rcases pump_cases state with ⟨-, h⟩ | ⟨_, _, -, -, h⟩ <;> rw [h]

/-- What a client has not seen acknowledged: the ids and the operations. -/
def pending (state : TsClientState) : List (Bytes × TsOperation) :=
  (state.inflight.toList ++ state.queue).map fun p => (p.opId, p.op)

def pendingOps (state : TsClientState) : List TsOperation := (pending state).map Prod.snd

theorem pendingOps_eq (state : TsClientState) :
    pendingOps state = state.inflight.toList.map TsPendingOperation.op ++
      state.queue.map TsPendingOperation.op := by
  rw [pendingOps, pending, List.map_map, List.map_append]
  rfl

/-- The pump moves an operation on, but it stays pending. -/
theorem pending_statePump (state : TsClientState) :
    pending (statePump state).1 = pending state := by
  rcases pump_cases state with ⟨-, hpump⟩ | ⟨next, queue, hinflight, hqueue, hpump⟩
  · rw [hpump]
  · rw [hpump, pending, pending, hinflight, hqueue]
    rfl

/-! ## Keys -/

/-- Queueing an operation appends it to the queue and runs the pump. -/
theorem queueOperation_eq {state : TsClientState} {op : TsOperation}
    {out : TsClientState × List TsMessage} (h : tsClientStateQueueOperation state op = some out) :
    state.nextOpNumber < intMax ∧ ∃ status, out = statePump { state with
      nextOpNumber := state.nextOpNumber + 1
      queue := state.queue ++ [newPending state op]
      status := status } := by
  unfold tsClientStateQueueOperation at h
  split_ifs at h with hlt
  exact ⟨hlt, _, (Option.some.inj h).symm⟩

/-! ## Messages -/

/-- The outcomes of `ts_client_state_handle_message`. -/
inductive HandleOutcome (state : TsClientState) (message : TsMessage) :
    TsClientState × List TsMessage → Prop
  | docState (htype : message.type = typeDocState) :
      HandleOutcome state message
        (tsClientStateSetDocument state (message.content.getD [])
          (if message.version < 0 then 0 else message.version)
          (if message.historyStartVersion < 0 then 0 else message.historyStartVersion))
  | welcome (htype : message.type = typeWelcome) (clientId status : Bytes) :
      HandleOutcome state message ({ state with clientId := clientId, status := status }, [])
  | ack (htype : message.type = typeAck) (applied : TsClientState) (status : Bytes)
      (hmatch : state.inflight.map TsPendingOperation.opId = some message.opId)
      (happly : applyAuthoritativeOp state message = some applied) :
      HandleOutcome state message (statePump { applied with inflight := none, status := status })
  | staleAck (htype : message.type = typeAck) (status : Bytes)
      (hmatch : state.inflight.map TsPendingOperation.opId ≠ some message.opId) :
      HandleOutcome state message ({ state with status := status }, [])
  | oldRemote (htype : message.type = typeRemoteOp) (hversion : message.version ≤ state.version) :
      HandleOutcome state message (state, [])
  | missedRemote (htype : message.type = typeRemoteOp) (status : Bytes)
      (hversion : state.version + 1 < message.version) :
      HandleOutcome state message ({ state with status := status }, [requestDoc])
  | remote (htype : message.type = typeRemoteOp) (applied : TsClientState) (status : Bytes)
      (hversion : message.version = state.version + 1)
      (happly : applyAuthoritativeOp state message = some applied) :
      HandleOutcome state message ({ applied with status := status }, [])
  | resync (htype : message.type = typeResyncRequired) (status : Bytes) :
      HandleOutcome state message ({ state with inflight := none, status := status }, [requestDoc])
  | other (hdoc : message.type ≠ typeDocState) (hack : message.type ≠ typeAck)
      (hremote : message.type ≠ typeRemoteOp) (hresync : message.type ≠ typeResyncRequired)
      (status : Bytes) :
      HandleOutcome state message ({ state with status := status }, [])

theorem handleOutcome {state : TsClientState} {message : TsMessage}
    {out : TsClientState × List TsMessage}
    (h : tsClientStateHandleMessage state message = some out) : HandleOutcome state message out := by
  unfold tsClientStateHandleMessage at h
  by_cases hdoc : message.type = typeDocState
  · rw [if_pos hdoc] at h
    obtain rfl := Option.some.inj h
    exact .docState hdoc
  rw [if_neg hdoc] at h
  by_cases hwelcome : message.type = typeWelcome
  · rw [if_pos hwelcome] at h
    obtain rfl := Option.some.inj h
    exact .welcome hwelcome _ _
  rw [if_neg hwelcome] at h
  by_cases hack : message.type = typeAck
  · rw [if_pos hack, handleAck] at h
    split_ifs at h with hmatch
    · obtain ⟨applied, happly, hout⟩ := Option.bind_eq_some_iff.mp h
      obtain rfl := Option.some.inj hout
      exact .ack hack applied _ hmatch happly
    · obtain rfl := Option.some.inj h
      exact .staleAck hack _ hmatch
  rw [if_neg hack] at h
  by_cases hremote : message.type = typeRemoteOp
  · rw [if_pos hremote, handleRemote] at h
    split_ifs at h with hold hnext
    · obtain rfl := Option.some.inj h
      exact .oldRemote hremote hold
    · obtain rfl := Option.some.inj h
      exact .missedRemote hremote _ (by omega)
    · obtain ⟨applied, happly, hout⟩ := Option.bind_eq_some_iff.mp h
      obtain rfl := Option.some.inj hout
      exact .remote hremote applied _ (not_not.mp hnext) happly
  rw [if_neg hremote] at h
  by_cases hresync : message.type = typeResyncRequired
  · rw [if_pos hresync] at h
    obtain rfl := Option.some.inj h
    exact .resync hresync _
  rw [if_neg hresync] at h
  split_ifs at h
  all_goals
    obtain rfl := Option.some.inj h
    exact .other hdoc hack hremote hresync _

/-- An authoritative operation is applied to the local copy only. -/
theorem applyAuthoritativeOp_eq {state applied : TsClientState} {message : TsMessage}
    (h : applyAuthoritativeOp state message = some applied) (hop : message.hasOp = true)
    (hversion : 0 ≤ message.version) :
    ∃ content, tsApplyOperationToText state.content message.op = some content ∧
      applied = { state with content := content, version := message.version } := by
  rw [applyAuthoritativeOp, if_pos hop] at h
  obtain ⟨content, hcontent, happlied⟩ := Option.bind_eq_some_iff.mp h
  obtain rfl := Option.some.inj happlied
  exact ⟨content, hcontent, by rw [if_pos hversion]⟩

/-- Whatever an authoritative operation changes, it is the local copy. -/
theorem applyAuthoritativeOp_frame {state applied : TsClientState} {message : TsMessage}
    (h : applyAuthoritativeOp state message = some applied) :
    ∃ content version, applied = { state with content := content, version := version } := by
  by_cases hop : message.hasOp = true
  · rw [applyAuthoritativeOp, if_pos hop] at h
    obtain ⟨content, -, happlied⟩ := Option.bind_eq_some_iff.mp h
    exact ⟨content, _, (Option.some.inj happlied).symm⟩
  · rw [applyAuthoritativeOp, if_neg hop] at h
    exact ⟨state.content, state.version, (Option.some.inj h).symm⟩

end TermSync
