import TermSync.Proofs.PipelineProofs

/-!
# Proofs: no client is left waiting

A client with an operation in flight or in its queue waits for a message that restarts it: the ACK of
the operation in flight or a DOC_STATE. Such a message, or a request for one, is always in one of the
channels or in the hands of the server's thread (`Coming`), so in a quiescent state nothing waits.
-/

namespace TermSync

open Foundations

/-! ## Messages that restart a client -/

/-- The id of the operation in flight. -/
def slotId (client : TsClientState) : Option Bytes := client.inflight.map TsPendingOperation.opId

/-- Handling the message empties the slot and runs the pump. -/
def Restarts (slot : Option Bytes) (message : TsMessage) : Prop :=
  message.type = typeDocState ∨ message.type = typeAck ∧ slot = some message.opId

/-- The server answers the message with one that restarts the client. -/
def AsksRestart (slot : Option Bytes) (message : TsMessage) : Prop :=
  message.type = typeJoin ∨ message.type = typeRequestDoc ∨
    message.type = typeOp ∧ slot = some message.opId

/-- The effect sends a message that restarts the client. -/
def RestartsEffect (slot : Option Bytes) : Effect → Prop
  | .send message => Restarts slot message
  | .snapshot => True
  | _ => False

/-- A message that restarts the client is on its way. -/
inductive Coming (c : Conn) : Prop
  | asked (message : TsMessage) (hin : message ∈ c.toServer)
      (hasks : AsksRestart (slotId c.client) message)
  | thread (effect : Effect) (hin : effect ∈ c.thread)
      (hrestarts : RestartsEffect (slotId c.client) effect)
  | sent (message : TsMessage) (hin : message ∈ c.toClient)
      (hrestarts : Restarts (slotId c.client) message)

/-- Nothing waits in the client. -/
def AtRest (client : TsClientState) : Prop := client.inflight = none ∧ client.queue = []

/-- The client waits for nothing, or what it waits for is on its way. -/
def Live (c : Conn) : Prop := AtRest c.client ∨ Coming c

/-- What the pump sends asks for its own ACK. -/
theorem pump_live (state : TsClientState) (c : Conn) (hclient : c.client = (statePump state).1)
    (hsent : ∀ m ∈ (statePump state).2, m ∈ c.toServer) (hslot : state.inflight = none) :
    Live c := by
  rcases pump_cases state with ⟨hidle, hpump⟩ | ⟨next, queue, -, -, hpump⟩
  · rw [hpump] at hclient
    rcases hidle with hidle | hidle
    · exact absurd hslot hidle
    · exact Or.inl ⟨hclient ▸ hslot, hclient ▸ hidle⟩
  · rw [hpump] at hclient hsent
    refine Or.inr (.asked _ (hsent _ (List.mem_singleton.mpr rfl)) (Or.inr (Or.inr ⟨rfl, ?_⟩)))
    rw [hclient]
    rfl

/-- What is on its way stays on its way while the slot is kept. -/
theorem Coming.mono {c c' : Conn} (h : Coming c) (hslot : slotId c'.client = slotId c.client)
    (hserver : ∀ m ∈ c.toServer, AsksRestart (slotId c.client) m → Coming c')
    (hthread : ∀ e ∈ c.thread, RestartsEffect (slotId c.client) e → Coming c')
    (hclient : c.toClient ⊆ c'.toClient) : Coming c' := by
  cases h with
  | asked message hin hasks => exact hserver message hin hasks
  | thread effect hin hrestarts => exact hthread effect hin hrestarts
  | sent message hin hrestarts => exact .sent message (hclient hin) (hslot.symm ▸ hrestarts)

/-- A client that only sends something. -/
theorem Live.emit {c c' : Conn} (h : Live c) (hinflight : c'.client.inflight = c.client.inflight)
    (hqueue : c'.client.queue = c.client.queue) (hserver : c.toServer ⊆ c'.toServer)
    (hthread : c.thread ⊆ c'.thread) (hclient : c.toClient ⊆ c'.toClient) : Live c' := by
  have hslot : slotId c'.client = slotId c.client := by rw [slotId, hinflight, slotId]
  rcases h with ⟨hnone, hnil⟩ | h
  · exact Or.inl ⟨hinflight.trans hnone, hqueue.trans hnil⟩
  · exact Or.inr (h.mono hslot (fun m hm hasks => .asked m (hserver hm) (hslot.symm ▸ hasks))
      (fun e he hrestarts => .thread e (hthread he) (hslot.symm ▸ hrestarts)) hclient)

/-- A key sends its operation or leaves it behind one that waits already. -/
theorem Live.key {c c' : Conn} {op : TsOperation} {out : TsClientState × List TsMessage}
    (h : Live c) (hqueue : tsClientStateQueueOperation c.client op = some out)
    (hc' : c'.client = out.1) (hserver : c'.toServer = c.toServer ++ out.2)
    (hthread : c'.thread = c.thread) (htoClient : c'.toClient = c.toClient) : Live c' := by
  obtain ⟨-, status, rfl⟩ := queueOperation_eq hqueue
  cases hinflight : c.client.inflight with
  | none =>
    refine pump_live _ c' hc' (fun m hm => ?_) hinflight
    rw [hserver]
    exact List.mem_append_right _ hm
  | some p =>
    rcases pump_cases { c.client with
        nextOpNumber := c.client.nextOpNumber + 1
        queue := c.client.queue ++ [newPending c.client op]
        status := status } with ⟨-, hpump⟩ | ⟨next, queue, hnone, -, -⟩
    · rw [hpump] at hc' hserver
      have hslot : slotId c'.client = slotId c.client := by rw [hc']; rfl
      rcases h with ⟨hnone, -⟩ | h
      · rw [hinflight] at hnone
        cases hnone
      · refine Or.inr (h.mono hslot (fun m hm hasks => ?_) (fun e he hrestarts => ?_) ?_)
        · exact .asked m (hserver ▸ List.mem_append_left _ hm) (hslot.symm ▸ hasks)
        · exact .thread e (hthread ▸ he) (hslot.symm ▸ hrestarts)
        · rw [htoClient]
          exact List.Subset.refl _
    · rw [show c.client.inflight = none from hnone] at hinflight
      cases hinflight

/-- A handled message either restarts the client, or was not what it waits for. -/
theorem Live.deliver {c c' : Conn} {message : TsMessage} {rest : List TsMessage}
    {out : TsClientState × List TsMessage} (h : Live c) (hin : c.toClient = message :: rest)
    (hhandle : tsClientStateHandleMessage c.client message = some out) (hc' : c'.client = out.1)
    (hserver : c'.toServer = c.toServer ++ out.2) (hthread : c'.thread = c.thread)
    (htoClient : c'.toClient = rest) : Live c' := by
  have hsent : ∀ m ∈ out.2, m ∈ c'.toServer := fun m hm => hserver ▸ List.mem_append_right _ hm
  have hkept (hinflight : out.1.inflight = c.client.inflight)
      (hqueue : out.1.queue = c.client.queue) (hnot : ¬ Restarts (slotId c.client) message) :
      Live c' := by
    have hslot : slotId c'.client = slotId c.client := by rw [hc', slotId, hinflight, slotId]
    rcases h with ⟨hnone, hnil⟩ | h
    · rw [← hc'] at hinflight hqueue
      exact Or.inl ⟨hinflight.trans hnone, hqueue.trans hnil⟩
    cases h with
    | asked m hm hasks =>
      exact Or.inr (.asked m (hserver ▸ List.mem_append_left _ hm) (hslot.symm ▸ hasks))
    | thread effect he hrestarts =>
      exact Or.inr (.thread effect (hthread ▸ he) (hslot.symm ▸ hrestarts))
    | sent m hm hrestarts =>
      rw [hin] at hm
      rcases List.mem_cons.mp hm with rfl | hm
      · exact absurd hrestarts hnot
      · exact Or.inr (.sent m (htoClient ▸ hm) (hslot.symm ▸ hrestarts))
  cases handleOutcome hhandle with
  | docState => exact pump_live _ c' hc' hsent rfl
  | ack htype applied status hmatch happly =>
    exact pump_live _ c' hc' hsent rfl
  | resync htype status =>
    exact Or.inr (.asked requestDoc (hsent _ (List.mem_singleton.mpr rfl)) (Or.inr (Or.inl rfl)))
  | welcome htype =>
    refine hkept rfl rfl ?_
    rw [Restarts, htype]
    exact fun h => h.elim (fun h => absurd h (by decide)) fun h => absurd h.1 (by decide)
  | staleAck htype status hmatch =>
    refine hkept rfl rfl ?_
    rw [Restarts, htype]
    exact fun h => h.elim (fun h => absurd h (by decide)) fun h => hmatch h.2
  | oldRemote htype | missedRemote htype =>
    refine hkept rfl rfl ?_
    rw [Restarts, htype]
    exact fun h => h.elim (fun h => absurd h (by decide)) fun h => absurd h.1 (by decide)
  | remote htype applied status hversion happly =>
    obtain ⟨content, version, rfl⟩ := applyAuthoritativeOp_frame happly
    refine hkept rfl rfl ?_
    rw [Restarts, htype]
    exact fun h => h.elim (fun h => absurd h (by decide)) fun h => absurd h.1 (by decide)
  | other hdoc hack hremote hresync status =>
    exact hkept rfl rfl fun h => h.elim hdoc fun h => hack h.1

/-- The server's side of a connection goes on: what is asked for is kept or answered, and what is to
be sent is kept or sent. -/
theorem Live.serve {c c' : Conn} (h : Live c) (hclient : c'.client = c.client)
    (hserver : ∀ m ∈ c.toServer, AsksRestart (slotId c.client) m →
      m ∈ c'.toServer ∨ ∃ e ∈ c'.thread, RestartsEffect (slotId c.client) e)
    (hthread : ∀ e ∈ c.thread, RestartsEffect (slotId c.client) e →
      (∃ e' ∈ c'.thread, RestartsEffect (slotId c.client) e') ∨
        ∃ m ∈ c'.toClient, Restarts (slotId c.client) m)
    (htoClient : c.toClient ⊆ c'.toClient) : Live c' := by
  have hslot : slotId c'.client = slotId c.client := by rw [hclient]
  rcases h with hrest | h
  · exact Or.inl (hclient.symm ▸ hrest)
  refine Or.inr (h.mono hslot (fun m hm hasks => ?_) (fun e he hrestarts => ?_) htoClient)
  · rcases hserver m hm hasks with hm | ⟨e, he, hrestarts⟩
    · exact .asked m hm (hslot.symm ▸ hasks)
    · exact .thread e he (hslot.symm ▸ hrestarts)
  · rcases hthread e he hrestarts with ⟨e', he', hrestarts⟩ | ⟨m, hm, hrestarts⟩
    · exact .thread e' he' (hslot.symm ▸ hrestarts)
    · exact .sent m hm (hslot.symm ▸ hrestarts)

/-- A thread without effects takes the next message and answers it. -/
theorem Live.take {c c' : Conn} {message : TsMessage} {rest : List TsMessage} (h : Live c)
    (hthread : c.thread = []) (hin : c.toServer = message :: rest) (hclient : c'.client = c.client)
    (hserver : c'.toServer = rest) (htoClient : c'.toClient = c.toClient)
    (hanswer : AsksRestart (slotId c.client) message →
      ∃ e ∈ c'.thread, RestartsEffect (slotId c.client) e) : Live c' := by
  refine h.serve hclient (fun m hm hasks => ?_) (fun e he => ?_) ?_
  · rw [hin] at hm
    rcases List.mem_cons.mp hm with rfl | hm
    · exact Or.inr (hanswer hasks)
    · exact Or.inl (hserver ▸ hm)
  · rw [hthread] at he
    exact absurd he List.not_mem_nil
  · rw [htoClient]
    exact List.Subset.refl _

/-- A thread drops an effect that restarts nobody. -/
theorem Live.drop {c c' : Conn} {effect : Effect} {rest : List Effect} (h : Live c)
    (hthread : c.thread = effect :: rest) (hnot : ¬ RestartsEffect (slotId c.client) effect)
    (hclient : c'.client = c.client) (hserver : c'.toServer = c.toServer)
    (hrest : rest ⊆ c'.thread) (htoClient : c'.toClient = c.toClient) : Live c' := by
  refine h.serve hclient (fun m hm _ => Or.inl (hserver ▸ hm)) (fun e he hrestarts => ?_) ?_
  · rw [hthread] at he
    rcases List.mem_cons.mp he with rfl | he
    · exact absurd hrestarts hnot
    · exact Or.inl ⟨e, hrest he, hrestarts⟩
  · rw [htoClient]
    exact List.Subset.refl _

/-- An OP with a well-formed operation is answered with its ACK or with a DOC_STATE. -/
theorem exists_restartsEffect {doc doc' : TsDocument} {call : DocCall} {op : TsOperation}
    {r : TsProcessResult} (hcall : call.op = some op) (hop : Acceptable op)
    (hid : snprintf tsMaxOpId call.opId = call.opId)
    (h : processCall doc call = some (doc', r)) (clientId : Bytes) :
    ∃ e ∈ resultEffects clientId r, RestartsEffect (some call.opId) e := by
  cases processOutcome h with
  | error text hnot => exact absurd hop (hnot op hcall)
  | resync =>
    refine ⟨_, List.mem_cons_of_mem _ (List.mem_singleton.mpr rfl), ?_⟩
    exact Or.inl rfl
  | ok op updated =>
    refine ⟨_, List.mem_append_left _ (List.mem_append_right _ (List.mem_singleton.mpr rfl)), ?_⟩
    exact Or.inr ⟨rfl, congrArg some hid.symm⟩

namespace Sys

theorem live_step {s s' : Sys} {a : Action} (hs : Reached s) (hqueues : QueuesWellFormed s)
    (hlive : ∀ j, Live (s.conns j)) (h : s.step a = some s') : ∀ j, Live (s'.conns j) := by
  have hset {t : Sys} {i : ℕ} {c : Conn} (hconns : t.conns = s.conns) (hc : Live c) (j : ℕ) :
      Live ((t.setConn i c).conns j) :=
    forall_conns_set (P := fun _ c => Live c) hlive hconns hc j
  cases stepOutcome h with
  | connect clientId address => exact hset rfl (Or.inl ⟨rfl, rfl⟩)
  | key i op out hi hqueue => exact hset rfl ((hlive i).key hqueue rfl rfl rfl rfl)
  | save i hi =>
    exact hset rfl ((hlive i).emit rfl rfl (List.subset_append_left _ _) (List.Subset.refl _)
      (List.Subset.refl _))
  | deliver i message rest out hin hhandle =>
    exact hset rfl ((hlive i).deliver hin hhandle rfl rfl rfl rfl)
  | join i message rest server clientId hthread hin hphase htype hlock hchoose =>
    refine hset rfl ((hlive i).take hthread hin rfl rfl rfl fun _ => ⟨.snapshot, ?_, trivial⟩)
    simp [joinEffects]
  | refuse i message rest hthread hin hphase htype =>
    obtain ⟨_, rest', hin', -⟩ := (hs.pipeline i).incoming.joining hphase
    obtain ⟨rfl, -⟩ := List.cons.inj (hin.symm.trans hin')
    exact absurd rfl htype
  | op i message rest document result hthread hin hphase htype hprocess =>
    refine hset rfl ((hlive i).take hthread hin rfl rfl rfl ?_)
    rintro (hjoin | hrequest | ⟨-, hslot⟩)
    · exact absurd (htype.symm.trans hjoin) (by decide)
    · exact absurd (htype.symm.trans hrequest) (by decide)
    rw [processMessage_eq] at hprocess
    have hmem : message ∈ (s.conns i).toServer := by
      rw [hin]
      exact List.mem_cons_self
    have hop := (hs.pipeline i).incoming.hasOp hphase hmem htype
    obtain ⟨q, hq, hid, hqop⟩ := (hs.pipeline i).exists_queued_of_op hmem htype
    have hbuffer : snprintf tsMaxOpId message.opId = message.opId :=
      hid ▸ (hs.pipeline i).snprintf_opId hq
    have hcall : (callOf (s.conns i).peer message).op = some message.op := if_pos hop
    rw [hslot]
    exact exists_restartsEffect hcall (hqop ▸ (hqueues i q hq).acceptable) hbuffer hprocess _
  | answer i message rest effects hthread hin hphase htype hdispatch =>
    have hserving := (hs.pipeline i).incoming.serving (by rw [hphase]; decide) message
      (by rw [hin]; exact List.mem_cons_self)
    refine hset rfl ((hlive i).take hthread hin rfl rfl rfl ?_)
    rintro (hjoin | hrequest | ⟨hop, -⟩)
    · rcases hserving with ⟨hop, -⟩ | hrequest | hsave
      · exact absurd hop htype
      · exact absurd (hjoin.symm.trans hrequest) (by decide)
      · exact absurd (hjoin.symm.trans hsave) (by decide)
    · rcases (dispatchMessage_of_ne htype hdispatch).2 with
        ⟨hsave, -⟩ | ⟨-, heffects⟩ | ⟨hping, -⟩ | ⟨-, hne, -, -⟩
      · exact absurd (hrequest.symm.trans hsave) (by decide)
      · obtain rfl : effects = [.send (tsDocumentSnapshot s.server.document)] := heffects
        have hrestarts : RestartsEffect (slotId (s.conns i).client)
            (.send (tsDocumentSnapshot s.server.document)) := Or.inl rfl
        exact ⟨_, List.mem_singleton.mpr rfl, hrestarts⟩
      · exact absurd (hrequest.symm.trans hping) (by decide)
      · exact absurd hrequest hne
    · exact absurd hop htype
  | send i message rest hthread =>
    refine hset rfl ((hlive i).serve rfl (fun m hm _ => Or.inl hm) (fun e he hrestarts => ?_) ?_)
    · rw [hthread] at he
      rcases List.mem_cons.mp he with rfl | he
      · exact Or.inr ⟨message, List.mem_append_right _ (List.mem_singleton.mpr rfl), hrestarts⟩
      · exact Or.inl ⟨e, he, hrestarts⟩
    · exact List.subset_append_left _ _
  | snapshot i rest hthread =>
    refine hset rfl ((hlive i).serve rfl (fun m hm _ => Or.inl hm) (fun e he hrestarts => ?_)
      (List.Subset.refl _))
    exact Or.inl ⟨_, List.mem_cons_self, Or.inl rfl⟩
  | broadcast i message exclude rest hthread hlock =>
    exact hset rfl ((hlive i).drop hthread id rfl rfl
      (List.Subset.trans (List.subset_cons_self ..) (List.subset_append_right _ _)) rfl)
  | sendTo i fd message rest hthread =>
    have hrest : Live { s.conns i with thread := rest } :=
      (hlive i).drop hthread id rfl rfl (List.Subset.refl _) rfl
    have hmid := hset (t := s) (i := i) rfl hrest
    refine forall_setConn (P := fun _ c => Live c) ?_ fun j _ => hmid j
    exact (hmid fd).emit rfl rfl (List.Subset.refl _) (List.Subset.refl _)
      (List.subset_append_left _ _)
  | pipe i event rest hthread | register i event rest hthread | unlock i rest hthread =>
    exact hset rfl ((hlive i).drop hthread id rfl rfl (List.Subset.refl _) rfl)
  | saverTake => exact hlive
  | saverTimer => exact hlive

/-- No wedged client: in a quiescent state no client has an operation in flight or in its queue. -/
theorem no_wedged_client (text : Bytes) (limit : ℕ) (path : Bytes) (actions : List Action) (s : Sys)
    (hrun : run Sys.step (Sys.init text limit path) actions = some s)
    (hwf : ∀ a ∈ actions, a.WellFormed) (hquiet : s.Quiescent) (i : ℕ) (hi : i < s.accepted) :
    (s.conns i).client.inflight = none ∧ (s.conns i).client.queue = [] := by
  have hguard : Guarded Sys.step (fun _ a => a.WellFormed) (Sys.init text limit path) actions :=
    Guarded.of_forall hwf
  have hinit : Reached (Sys.init text limit path) ∧ QueuesWellFormed (Sys.init text limit path) ∧
      ∀ j, Live ((Sys.init text limit path).conns j) :=
    ⟨reached_init text limit path, fun _ _ hp => absurd hp List.not_mem_nil,
      fun _ => Or.inl ⟨rfl, rfl⟩⟩
  obtain ⟨-, -, hlive⟩ := run_invariant_of_guarded
    (P := fun s => Reached s ∧ QueuesWellFormed s ∧ ∀ j, Live (s.conns j))
    (fun _ _ _ ⟨hs, hq, hl⟩ ha h => ⟨hs.step h, hq.step hs.wired ha h, live_step hs hq hl h⟩) hinit
    hguard hrun
  obtain ⟨hserver, hclient, hthread⟩ := hquiet i hi
  rcases hlive i with hrest | hcoming
  · exact hrest
  · cases hcoming with
    | asked message hin => rw [hserver] at hin; exact absurd hin List.not_mem_nil
    | thread effect hin => rw [hthread] at hin; exact absurd hin List.not_mem_nil
    | sent message hin => rw [hclient] at hin; exact absurd hin List.not_mem_nil

/-- The second character of `typing` is answered as well. -/
def typingDone : List Action := typing ++ List.replicate 8 (Action.serve 0) ++ [Action.deliver 0]

theorem no_wedged_client_typing :
    ∃ s, run Sys.step (Sys.init [] 10 (bytes "f")) typingDone = some s ∧
      (s.conns 0).client.inflight = none ∧ (s.conns 0).client.queue = [] := by
  have hany : (run Sys.step (Sys.init [] 10 (bytes "f")) typingDone).any
      (fun s => decide (s.Quiescent ∧ 0 < s.accepted)) = true := by decide +kernel
  obtain ⟨s, hrun, hcond⟩ := (Option.any_eq_true _ _).mp hany
  obtain ⟨hquiet, haccepted⟩ := of_decide_eq_true hcond
  refine ⟨s, hrun, no_wedged_client [] 10 (bytes "f") typingDone s hrun ?_ hquiet 0 haccepted⟩
  have hx := wellFormed_insert (c := 'x') (by decide) 0
  have hy := wellFormed_insert (c := 'y') (by decide) 1
  simp only [typingDone, typing, List.replicate, List.cons_append, List.nil_append,
    List.forall_mem_cons, List.not_mem_nil, false_implies, implies_true, Action.WellFormed, and_true,
    true_and]
  exact ⟨hx, hy⟩

end Sys

end TermSync
