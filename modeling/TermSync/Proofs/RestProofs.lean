import TermSync.Rest
import TermSync.Proofs.FreshIdProofs
import TermSync.Proofs.LockProofs
import TermSync.Proofs.OutcomeProofs
import TermSync.Proofs.RestartProofs
import TermSync.Proofs.TruthProofs

/-!
# Proofs: the system comes to rest

Every step without a user lowers the work that is left (`Spends`), although a message can cause several
others. A state in which something is on its way has a next step: the thread that holds the lock of the
clients can always go on, and everything else waits for that lock at most. So the system comes to rest,
and by then every operation has been answered.
-/

namespace TermSync

open Foundations

/-! ## The work of a client -/

/-- The pump trades a queued operation for an OP. -/
theorem work_statePump (n : ℕ) (state : TsClientState) :
    ((statePump state).2.map (requestWork n)).sum + (statePump state).1.queue.length * opWork n =
      state.queue.length * opWork n := by
  rcases pump_cases state with ⟨-, h⟩ | ⟨next, queue, -, hqueue, h⟩
  · rw [h]
    simp
  · rw [h, hqueue, List.length_cons, Nat.succ_mul, Nat.add_comm]
    rfl

/-- A client that handles a message causes less than the message could. -/
theorem work_handle (n : ℕ) {state : TsClientState} {message : TsMessage}
    {out : TsClientState × List TsMessage}
    (h : tsClientStateHandleMessage state message = some out) :
    (out.2.map (requestWork n)).sum + out.1.queue.length * opWork n <
      answerWork message + state.queue.length * opWork n := by
  have hpos : 0 < answerWork message := by
    rw [answerWork]
    split_ifs <;> decide
  have hrequest : ([requestDoc].map (requestWork n)).sum = 3 := by
    rw [List.map_singleton, List.sum_singleton, requestWork, if_neg (by decide), if_neg (by decide),
      if_pos (by rfl)]
  cases handleOutcome h with
  | docState =>
    rw [tsClientStateSetDocument, work_statePump n]
    exact Nat.lt_add_of_pos_left hpos
  | ack htype applied status hmatch happly =>
    obtain ⟨content, version, rfl⟩ := applyAuthoritativeOp_frame happly
    rw [work_statePump n]
    exact Nat.lt_add_of_pos_left hpos
  | remote htype applied status hnext happly =>
    obtain ⟨content, version, rfl⟩ := applyAuthoritativeOp_frame happly
    simp only [List.map_nil, List.sum_nil, Nat.zero_add]
    exact Nat.lt_add_of_pos_left hpos
  | missedRemote htype =>
    rw [hrequest, answerWork, if_pos (Or.inl htype)]
    simp only
    omega
  | resync htype =>
    rw [hrequest, answerWork, if_pos (Or.inr htype)]
    simp only
    omega
  | welcome | staleAck | oldRemote | other =>
    simp only [List.map_nil, List.sum_nil, Nat.zero_add]
    exact Nat.lt_add_of_pos_left hpos

/-! ## The work of the server -/

/-- A message that is no request for more. -/
theorem answerWork_eq_one {message : TsMessage} (hremote : message.type ≠ typeRemoteOp)
    (hresync : message.type ≠ typeResyncRequired) : answerWork message = 1 :=
  if_neg (not_or.mpr ⟨hremote, hresync⟩)

theorem answerWork_le (message : TsMessage) : answerWork message ≤ 4 := by
  rw [answerWork]
  split_ifs <;> decide

/-- The effects of an OP are less than what the OP could cause, also when the version that it may take is
counted. -/
theorem work_resultEffects (n : ℕ) {doc doc' : TsDocument} {call : DocCall} {r : TsProcessResult}
    (h : processCall doc call = some (doc', r)) :
    ((resultEffects call.clientId r).map (Effect.work n)).sum < opWork n ∧
      doc'.version + ((resultEffects call.clientId r).map (Effect.work n)).sum ≤
        doc.version + opWork n := by
  cases processOutcome h with
  | error text =>
    have hwork : answerWork (setMessageError call.opId text) = 1 :=
      answerWork_eq_one (show typeError ≠ typeRemoteOp by decide)
        (show typeError ≠ typeResyncRequired by decide)
    have heffects : resultEffects call.clientId (errorResult call.opId text) =
        [.send (setMessageError call.opId text)] := rfl
    rw [heffects, List.map_singleton, List.sum_singleton, Effect.work, hwork, opWork]
    constructor <;> omega
  | resync =>
    obtain ⟨expired, doc, heffects, hdoc⟩ : ∃ expired snapshot, resultEffects
        call.clientId (resyncResult doc call.opId call.baseVersion) = [.send expired, .send snapshot] ∧
        snapshot.type = typeDocState := ⟨_, _, rfl, rfl⟩
    have hwork : answerWork doc = 1 :=
      answerWork_eq_one (by rw [hdoc]; decide) (by rw [hdoc]; decide)
    have hle := answerWork_le expired
    simp only [heffects, List.map_cons, List.map_nil, List.sum_cons, List.sum_nil, Effect.work, hwork,
      opWork]
    constructor <;> omega
  | ok op updated =>
    have hwork : ∀ doc clientId opId baseVersion op transformed,
        answerWork (okAck doc clientId opId baseVersion op transformed) = 1 := by
      intro doc clientId opId baseVersion op transformed
      exact answerWork_eq_one (show typeAck ≠ typeRemoteOp by decide)
        (show typeAck ≠ typeResyncRequired by decide)
    simp only [resultEffects_okResult, List.map_cons, List.map_nil, List.sum_cons, List.sum_nil,
      Effect.work, hwork, opWork, acceptedDocument_version]
    constructor <;> omega

/-- The effects of another message are less than what the message could cause. -/
theorem work_answer (n : ℕ) {server : TsServer} {client : TsClientConnection} {message : TsMessage}
    {out : TsServer × List Effect} (hne : message.type ≠ typeOp)
    (h : dispatchMessage server client message = some out) :
    (out.2.map (Effect.work n)).sum < requestWork n message := by
  have hone {m : TsMessage} (htype : m.type = typeSaveQueued ∨ m.type = typeDocState ∨
      m.type = typePong ∨ m.type = typeError) : answerWork m = 1 := by
    rcases htype with htype | htype | htype | htype <;>
      exact answerWork_eq_one (by rw [htype]; decide) (by rw [htype]; decide)
  have hsave (version : ℤ) : answerWork (saveQueued version) = 1 := hone (Or.inl rfl)
  have hsnapshot (doc : TsDocument) : answerWork (tsDocumentSnapshot doc) = 1 :=
    hone (Or.inr (Or.inl rfl))
  have hpong : answerWork pong = 1 := hone (Or.inr (Or.inr (Or.inl rfl)))
  have hunsupported : answerWork (unsupported message) = 1 := hone (Or.inr (Or.inr (Or.inr rfl)))
  rw [requestWork, if_neg hne]
  rcases (dispatchMessage_of_ne hne h).2 with ⟨htype, heq⟩ | ⟨htype, heq⟩ | ⟨htype, heq⟩ |
    ⟨-, -, -, heq⟩
  · rw [heq, htype, if_neg (by decide), if_neg (by decide)]
    simp only [List.map_cons, List.map_nil, List.sum_cons, List.sum_nil, Effect.work, hsave]
    omega
  · rw [heq, htype, if_neg (by decide), if_pos rfl]
    simp only [List.map_cons, List.map_nil, List.sum_cons, List.sum_nil, Effect.work, hsnapshot]
    omega
  · rw [heq, htype, if_neg (by decide), if_neg (by decide)]
    simp only [List.map_cons, List.map_nil, List.sum_cons, List.sum_nil, Effect.work, hpong]
    omega
  · rw [heq]
    simp only [List.map_cons, List.map_nil, List.sum_cons, List.sum_nil, Effect.work, hunsupported]
    split_ifs <;> omega

namespace Sys

/-! ## The work of the system -/

/-- Replacing one connection changes the work by the difference of its own. -/
theorem work_setConn {s t : Sys} {i : ℕ} {c : Conn} (hi : i < s.accepted)
    (hconns : t.conns = s.conns) (haccepted : t.accepted = s.accepted) :
    (t.setConn i c).work + (s.conns i).work s.accepted + s.pipe.length =
      s.work + c.work s.accepted + t.pipe.length := by
  have hsum := sum_setConn (fun _ => Conn.work s.accepted) (c := c) hi hconns
  rw [work, work, setConn_accepted, haccepted, setConn_pipe]
  omega

/-- What a step without a user leaves of the work and of the counters. -/
structure Spends (s s' : Sys) : Prop where
  work : s'.work < s.work
  version : s'.server.document.version + s'.work ≤ s.server.document.version + s.work
  number : s'.server.nextClientNumber + s'.work ≤ s.server.nextClientNumber + s.work

/-- A step that leaves the counters. -/
theorem Spends.of_lt {s s' : Sys} (hwork : s'.work < s.work)
    (hdocument : s'.server.document = s.server.document)
    (hnumber : s'.server.nextClientNumber = s.server.nextClientNumber) : Spends s s' := by
  refine ⟨hwork, ?_, ?_⟩
  · rw [hdocument]
    omega
  · rw [hnumber]
    omega

/-- A step that replaces one connection. -/
theorem Spends.of_set (spent : ℕ) {s t : Sys} {i : ℕ} {c : Conn} (hi : i < s.accepted)
    (hconns : t.conns = s.conns) (haccepted : t.accepted = s.accepted)
    (hwork : c.work s.accepted + t.pipe.length + spent = (s.conns i).work s.accepted + s.pipe.length)
    (hspent : 0 < spent)
    (hversion : t.server.document.version ≤ s.server.document.version + spent)
    (hnumber : t.server.nextClientNumber ≤ s.server.nextClientNumber + spent) :
    Spends s (t.setConn i c) := by
  have hset := work_setConn (c := c) hi hconns haccepted
  have hlt : (t.setConn i c).work + spent = s.work := by omega
  refine ⟨by omega, ?_, ?_⟩
  · rw [setConn_server]
    omega
  · rw [setConn_server]
    omega

/-- A step that replaces one connection and leaves the counters. -/
theorem Spends.of_set_same {s t : Sys} {i : ℕ} {c : Conn} (hi : i < s.accepted)
    (hconns : t.conns = s.conns) (haccepted : t.accepted = s.accepted)
    (hdocument : t.server.document = s.server.document)
    (hnumber : t.server.nextClientNumber = s.server.nextClientNumber)
    (hwork : c.work s.accepted + t.pipe.length < (s.conns i).work s.accepted + s.pipe.length) :
    Spends s (t.setConn i c) := by
  have hset := work_setConn (c := c) hi hconns haccepted
  exact Spends.of_lt (by omega) hdocument hnumber

/-- Choosing an id takes at most one number for each client, and one more. -/
theorem nextFreeClientId_le {server : TsServer} {trials : ℕ} {number : ℤ} {result : Bytes × ℤ}
    (h : nextFreeClientId server trials number = some result) :
    number ≤ result.2 ∧ result.2 ≤ number + trials := by
  induction trials generalizing number with
  | zero => cases h
  | succ trials ih =>
    unfold nextFreeClientId at h
    dsimp only at h
    rw [Nat.cast_add, Nat.cast_one]
    split_ifs at h
    · have := ih h
      constructor <;> omega
    · obtain rfl := Option.some.inj h
      constructor <;> simp only <;> omega

theorem chooseClientId_number {server server' : TsServer} {requested clientId : Bytes}
    (h : chooseClientId server requested = some (server', clientId)) :
    server.nextClientNumber ≤ server'.nextClientNumber ∧
      server'.nextClientNumber ≤ server.nextClientNumber + server.clients.length + 1 := by
  unfold chooseClientId at h
  split_ifs at h
  · obtain ⟨rfl, -⟩ := Prod.mk.inj (Option.some.inj h)
    constructor <;> omega
  · obtain ⟨out, hnext, hout⟩ := Option.map_eq_some_iff.mp h
    obtain ⟨rfl, -⟩ := Prod.mk.inj hout
    obtain ⟨hle, hle'⟩ := nextFreeClientId_le hnext
    rw [Nat.cast_add, Nat.cast_one] at hle'
    constructor <;> simp only <;> omega

@[simp] theorem work_push (n : ℕ) (c : Conn) (message : TsMessage) :
    (c.push message).work n = c.work n + answerWork message := by
  simp only [Conn.work, Conn.push, List.map_append, List.sum_append, List.map_singleton,
    List.sum_singleton]
  omega

/-- A message that is put into the channel to a client. -/
theorem work_setConn_push {t : Sys} {i : ℕ} (hi : i < t.accepted) (message : TsMessage) :
    (t.setConn i ((t.conns i).push message)).work = t.work + answerWork message := by
  have hset := work_setConn (c := (t.conns i).push message) hi (rfl : t.conns = t.conns) rfl
  rw [work_push] at hset
  omega

/-- The sends of a broadcast. -/
theorem work_broadcastSends (s : Sys) (n : ℕ) (message : TsMessage) (exclude : Bytes) :
    ((broadcastSends s message exclude).map (Effect.work n)).sum ≤ 5 * s.server.clients.length := by
  have hle : ∀ work ∈ (broadcastSends s message exclude).map (Effect.work n), work ≤ 5 := by
    intro work hwork
    obtain ⟨effect, heffect, rfl⟩ := List.mem_map.mp hwork
    obtain ⟨client, -, rfl⟩ := List.mem_map.mp heffect
    have := answerWork_le message
    rw [Effect.work]
    omega
  have hsum := List.sum_le_card_nsmul _ 5 hle
  rw [List.length_map, broadcastSends, List.length_map, smul_eq_mul] at hsum
  have hlen := List.length_filter_le (fun client => decide (client.clientId ≠ exclude))
    s.server.clients
  rw [broadcastSends]
  omega

/-- The event that the autosave process takes. -/
theorem work_saverTake {s : Sys} {event : SaverEvent} {rest : List SaverEvent}
    (hpipe : s.pipe = event :: rest) (saver : SaverState) :
    s.work = { s with pipe := rest, saver := saver }.work + 1 := by
  unfold work
  dsimp only
  rw [hpipe, List.length_cons]
  omega

/-- Every step without a user lowers the work that is left. -/
theorem spends_step {s s' : Sys} {a : Action} (hw : Wired s)
    (hclients : s.server.clients.length ≤ s.accepted) (ha : a.Internal) (h : s.step a = some s') :
    Spends s s' := by
  have hlt {i : ℕ} (hne : (s.conns i).thread ≠ [] ∨ (s.conns i).toServer ≠ [] ∨
      (s.conns i).toClient ≠ []) : i < s.accepted := hw.lt_of_ne hne
  cases stepOutcome h with
  | connect | key | save | saverTimer => exact ha.elim
  | deliver i message rest out hin hhandle =>
    have hhandled := work_handle s.accepted hhandle
    refine Spends.of_set_same (hlt (by simp [hin])) rfl rfl rfl rfl ?_
    simp only [Conn.work, Conn.emit, hin, List.map_append, List.sum_append, List.map_cons,
      List.sum_cons]
    omega
  | join i message rest server clientId hthread hin hphase htype hlock hchoose =>
    obtain ⟨hnumber, hnumber'⟩ := chooseClientId_number hchoose
    obtain ⟨-, hdocument⟩ := chooseClientId_server hchoose
    have hwelcome : answerWork (welcomeMessage clientId) = 1 :=
      answerWork_eq_one (show typeWelcome ≠ typeRemoteOp by decide)
        (show typeWelcome ≠ typeResyncRequired by decide)
    refine Spends.of_set (s.accepted + 1) (hlt (by simp [hin])) rfl rfl ?_ (by omega) ?_ ?_
    · simp only [Conn.work, hin, hthread, joinEffects, List.map_cons, List.sum_cons, List.map_nil,
        List.sum_nil, Effect.work, hwelcome, requestWork, if_pos htype]
      omega
    · dsimp only
      rw [hdocument]
      omega
    · dsimp only
      omega
  | refuse i message rest hthread hin hphase htype =>
    rcases hw.phase i (hlt (by simp [hin])) with ⟨-, -, clientId, rest', hin'⟩ | hserving
    · obtain ⟨rfl, -⟩ := List.cons.inj (hin.symm.trans hin')
      exact absurd rfl htype
    · rw [hphase] at hserving
      cases hserving
  | op i message rest document result hthread hin hphase htype hprocess =>
    rw [processMessage_eq] at hprocess
    obtain ⟨heffects, hversion⟩ := work_resultEffects s.accepted hprocess
    have hrequest : requestWork s.accepted message = opWork s.accepted := by
      rw [requestWork, htype, if_neg (by decide), if_pos rfl]
    obtain ⟨spent, hspent⟩ := Nat.exists_eq_add_of_lt heffects
    refine Spends.of_set (spent + 1) (hlt (by simp [hin])) rfl rfl ?_ (by omega) ?_ ?_
    · simp only [callOf] at hspent
      simp only [Conn.work, hin, hthread, List.map_cons, List.sum_cons, List.map_nil, List.sum_nil,
        hrequest]
      omega
    · dsimp only
      omega
    · dsimp only
      omega
  | answer i message rest effects hthread hin hphase htype hdispatch =>
    have hanswer : (effects.map (Effect.work s.accepted)).sum < _ :=
      work_answer s.accepted htype hdispatch
    refine Spends.of_set_same (hlt (by simp [hin])) rfl rfl rfl rfl ?_
    simp only [Conn.work, hin, hthread, List.map_cons, List.sum_cons, List.map_nil, List.sum_nil]
    omega
  | send i message rest hthread =>
    refine Spends.of_set_same (hlt (by simp [hthread])) rfl rfl rfl rfl ?_
    simp only [Conn.work, Conn.push, hthread, List.map_append, List.sum_append, List.map_cons,
      List.sum_cons, List.map_nil, List.sum_nil, Effect.work]
    omega
  | pipe i event rest hthread =>
    refine Spends.of_set_same (hlt (by simp [hthread])) rfl rfl rfl rfl ?_
    simp only [Conn.work, hthread, List.map_cons, List.sum_cons, Effect.work, List.length_append,
      List.length_singleton]
    omega
  | register i client rest hthread hlock =>
    refine Spends.of_set_same (hlt (by simp [hthread])) rfl rfl rfl rfl ?_
    simp only [Conn.work, hthread, List.map_cons, List.sum_cons, Effect.work]
    omega
  | snapshot i rest hthread =>
    refine Spends.of_set_same (hlt (by simp [hthread])) rfl rfl rfl rfl ?_
    have hwork : answerWork (tsDocumentSnapshot s.server.document) = 1 :=
      answerWork_eq_one (show typeDocState ≠ typeRemoteOp by decide)
        (show typeDocState ≠ typeResyncRequired by decide)
    simp only [Conn.work, hthread, List.map_cons, List.sum_cons, Effect.work, hwork]
    omega
  | broadcast i message exclude rest hthread hlock =>
    have hsends := work_broadcastSends s s.accepted message exclude
    refine Spends.of_set_same (hlt (by simp [hthread])) rfl rfl rfl rfl ?_
    simp only [Conn.work, hthread, List.map_append, List.sum_append, List.map_cons, List.sum_cons,
      Effect.work]
    omega
  | sendTo i fd message rest hthread =>
    obtain ⟨-, client, hclient, rfl⟩ : EffectWired s.server.clients i (.sendTo fd message) :=
      hw.threads i _ (by rw [hthread]; exact List.mem_cons_self)
    have hrest : (s.conns i).work s.accepted =
        Conn.work s.accepted { s.conns i with thread := rest } + (1 + answerWork message) := by
      simp only [Conn.work, hthread, List.map_cons, List.sum_cons, Effect.work]
      omega
    have hmid := work_setConn (c := { s.conns i with thread := rest })
      (hlt (i := i) (by simp [hthread])) (rfl : s.conns = s.conns) rfl
    have hpush := work_setConn_push (t := s.setConn i { s.conns i with thread := rest })
      (hw.clients client hclient) message
    rw [hrest] at hmid
    exact Spends.of_lt (by omega) rfl rfl
  | unlock i rest hthread =>
    refine Spends.of_set_same (hlt (by simp [hthread])) rfl rfl rfl rfl ?_
    simp only [Conn.work, hthread, List.map_cons, List.sum_cons, Effect.work]
    omega
  | saverTake written event rest hpipe =>
    have hwork : s.work = Sys.work _ + 1 := work_saverTake hpipe (s.saver.handle event written)
    exact Spends.of_lt (by omega) rfl rfl

/-! ## There is always a next step -/

/-- What every reached state has, so that it can go on. -/
structure Going (s : Sys) : Prop where
  truthful : AllTruthful s
  live : ∀ j, Live (s.conns j)
  once : RegistersOnce s
  lock : LockHeld s
  number : 1 ≤ s.server.nextClientNumber

theorem going_init {text : Bytes} (htext : ValidText text) (limit : ℕ) (path : Bytes) :
    Going (init text limit path) where
  truthful := allTruthful_init htext limit path
  live _ := Or.inl ⟨rfl, rfl⟩
  once := registersOnce_init text limit path
  lock := lockHeld_init text limit path
  number := le_rfl

theorem number_step {s s' : Sys} {a : Action} (h : s.step a = some s') :
    s.server.nextClientNumber ≤ s'.server.nextClientNumber := by
  cases stepOutcome h with
  | join i message rest server clientId _ _ _ _ _ hchoose => exact (chooseClientId_number hchoose).1
  | _ => exact le_rfl

theorem Going.step {s s' : Sys} {a : Action} (hs : Going s) (ha : a.WellFormed)
    (h : s.step a = some s') : Going s' where
  truthful := hs.truthful.step ha h
  live := live_step hs.truthful.reached hs.truthful.queues hs.live h
  once := hs.once.step hs.truthful.reached.wired h
  lock := hs.lock.step hs.truthful.reached.wired h
  number := hs.number.trans (number_step h)

theorem going_run {text : Bytes} {limit : ℕ} {path : Bytes} {actions : List Action} {s : Sys}
    (htext : ValidText text) (hwf : ∀ a ∈ actions, a.WellFormed)
    (hrun : run Sys.step (Sys.init text limit path) actions = some s) : Going s := by
  have hguard : Guarded Sys.step (fun _ a => a.WellFormed) (init text limit path) actions :=
    Guarded.of_forall hwf
  exact run_invariant_of_guarded (fun _ _ _ hs ha h => hs.step ha h) (going_init htext limit path)
    hguard hrun

/-- A client handles a message if it can apply its operation. -/
theorem exists_handle {state : TsClientState} {message : TsMessage}
    (happly : message.type = typeAck ∨ message.type = typeRemoteOp →
      ∃ applied, applyAuthoritativeOp state message = some applied) :
    ∃ out, tsClientStateHandleMessage state message = some out := by
  unfold tsClientStateHandleMessage
  by_cases hdoc : message.type = typeDocState
  · rw [if_pos hdoc]
    exact ⟨_, rfl⟩
  rw [if_neg hdoc]
  by_cases hwelcome : message.type = typeWelcome
  · rw [if_pos hwelcome]
    exact ⟨_, rfl⟩
  rw [if_neg hwelcome]
  by_cases hack : message.type = typeAck
  · obtain ⟨applied, happlied⟩ := happly (Or.inl hack)
    rw [if_pos hack, handleAck, happlied]
    split_ifs <;> exact ⟨_, rfl⟩
  rw [if_neg hack]
  by_cases hremote : message.type = typeRemoteOp
  · obtain ⟨applied, happlied⟩ := happly (Or.inr hremote)
    rw [if_pos hremote, handleRemote, happlied]
    split_ifs <;> exact ⟨_, rfl⟩
  rw [if_neg hremote]
  split_ifs <;> exact ⟨_, rfl⟩

/-- A client can handle whatever the server says. -/
theorem exists_deliver {s : Sys} (hs : Going s) {i : ℕ} {message : TsMessage} {rest : List TsMessage}
    (hin : (s.conns i).toClient = message :: rest) : ∃ s', s.step (.deliver i) = some s' := by
  have hm : s.Truthful message := (hs.truthful.conns i).told.said message
    (List.mem_append_right _ (by rw [hin]; exact List.mem_cons_self))
  have happly (htype : message.type = typeAck ∨ message.type = typeRemoteOp) :
      ∃ applied, applyAuthoritativeOp (s.conns i).client message = some applied := by
    obtain ⟨hop, commit, hmem, -, hcop, -⟩ := hm.operation htype
    obtain ⟨updated, hupdated, -⟩ :=
      (hs.truthful.conns i).told.content.apply (hcop ▸ hs.truthful.valid.ops commit hmem)
    rw [applyAuthoritativeOp, if_pos hop, hupdated]
    exact ⟨_, rfl⟩
  obtain ⟨out, hout⟩ := exists_handle happly
  simp only [Sys.step, hin, hout]
  exact ⟨_, rfl⟩

/-- The thread that holds the lock can go on. -/
theorem exists_serve_of_lock {s : Sys} (hs : Going s) {j : ℕ} (hlock : s.clientsLock = some j) :
    ∃ s', s.step (.serve j) = some s' := by
  obtain ⟨sends, rest, hthread, hsends⟩ := hs.lock j hlock
  cases sends with
  | nil =>
    rw [List.nil_append] at hthread
    simp only [Sys.step, hthread, perform]
    exact ⟨_, rfl⟩
  | cons effect sends =>
    obtain ⟨fd, message, rfl⟩ := hsends effect List.mem_cons_self
    rw [List.cons_append] at hthread
    simp only [Sys.step, hthread, perform]
    exact ⟨_, rfl⟩

/-- A thread with something to do can do it, or it waits for the thread that holds the lock. -/
theorem exists_perform {s : Sys} (hs : Going s) {i : ℕ} {effect : Effect} {rest : List Effect}
    (hthread : (s.conns i).thread = effect :: rest) : ∃ j s', s.step (.serve j) = some s' := by
  cases hlock : s.clientsLock with
  | some j =>
    obtain ⟨s', h⟩ := exists_serve_of_lock hs hlock
    exact ⟨j, s', h⟩
  | none =>
    refine ⟨i, ?_⟩
    cases effect <;> simp only [Sys.step, hthread, perform, hlock, if_true] <;> exact ⟨_, rfl⟩

/-- Some client number is left. -/
theorem exists_chooseClientId (server : TsServer) (requested : Bytes)
    (hnumber : 1 ≤ server.nextClientNumber)
    (hroom : server.nextClientNumber + server.clients.length < intMax) :
    ∃ out, chooseClientId server requested = some out := by
  unfold chooseClientId
  split_ifs
  · exact ⟨_, rfl⟩
  · have hmin : intMin ≤ server.nextClientNumber := by
      simp only [intMin]
      omega
    obtain ⟨k, hk, -, hnext⟩ := nextFreeClientId_ends hmin hroom
    rw [hnext (server.clients.length + 1) (by omega)]
    exact ⟨_, rfl⟩

/-- A thread takes a message that waits for the server, if nobody holds the lock. -/
theorem exists_take_of_unlocked {s : Sys} (hs : Going s) (hroom : s.HasRoom) {i : ℕ} {message : TsMessage}
    {rest : List TsMessage} (hin : (s.conns i).toServer = message :: rest)
    (hlock : s.clientsLock = none) : ∃ s', s.take i message rest = some s' := by
  have hw := hs.truthful.reached.wired
  have hi := hw.lt_of_ne (i := i) (by simp [hin])
  -- the message itself is some of the work that is left
  have hwork : requestWork s.accepted message ≤ s.work := by
    have hconn : requestWork s.accepted message ≤ (s.conns i).work s.accepted := by
      simp only [Conn.work, hin, List.map_cons, List.sum_cons]
      omega
    have hsum := Finset.single_le_sum (f := fun j => (s.conns j).work s.accepted)
      (fun _ _ => Nat.zero_le _) (Finset.mem_range.mpr hi)
    unfold work
    omega
  rcases hw.phase i hi with ⟨hphase, -, clientId, rest', hin'⟩ | hphase
  · obtain ⟨rfl, -⟩ := List.cons.inj (hin.symm.trans hin')
    have hclients := hs.once.length_le hw
    have hnumber := hroom.2
    rw [requestWork, if_pos (by rfl)] at hwork
    obtain ⟨out, hout⟩ := exists_chooseClientId s.server (joinMessage clientId).clientId hs.number
      (by omega)
    simp only [take, hphase, hlock, if_true, hout,
      if_pos (show (joinMessage clientId).type = typeJoin from rfl)]
    exact ⟨_, rfl⟩
  · have hdispatch : ∃ out, dispatchMessage s.server (s.conns i).peer message = some out := by
      unfold dispatchMessage
      split_ifs with htype
      · rw [requestWork, htype, if_neg (by decide), if_pos rfl, opWork] at hwork
        have hversion := hroom.1
        obtain ⟨out, hout⟩ := exists_processCall
          (hs.truthful.valid.document hs.truthful.reached.logged) (by omega)
          (callOf (s.conns i).peer message)
        rw [processMessage_eq, hout]
        exact ⟨_, rfl⟩
      · exact ⟨_, rfl⟩
      · exact ⟨_, rfl⟩
      · exact ⟨_, rfl⟩
      · exact ⟨_, rfl⟩
    obtain ⟨out, hout⟩ := hdispatch
    simp only [take, hphase, hout]
    exact ⟨_, rfl⟩

/-- A message that waits for the server is taken, or its thread waits for the lock. -/
theorem exists_take {s : Sys} (hs : Going s) (hroom : s.HasRoom) {i : ℕ} {message : TsMessage}
    {rest : List TsMessage} (hthread : (s.conns i).thread = [])
    (hin : (s.conns i).toServer = message :: rest) : ∃ j s', s.step (.serve j) = some s' := by
  cases hlock : s.clientsLock with
  | some j =>
    obtain ⟨s', h⟩ := exists_serve_of_lock hs hlock
    exact ⟨j, s', h⟩
  | none =>
    obtain ⟨s', h⟩ := exists_take_of_unlocked hs hroom hin hlock
    refine ⟨i, s', ?_⟩
    simp only [Sys.step, hthread, hin]
    exact h

/-- Nothing is left for a client to wait for when nothing is on its way. -/
theorem atRest_of_idle {c : Conn} (hlive : Live c) (hidle : c.Idle) : AtRest c.client := by
  obtain ⟨hserver, hclient, hthread⟩ := hidle
  rcases hlive with hrest | hcoming
  · exact hrest
  · cases hcoming with
    | asked message hin =>
      rw [hserver] at hin
      exact absurd hin List.not_mem_nil
    | thread effect hin =>
      rw [hthread] at hin
      exact absurd hin List.not_mem_nil
    | sent message hin =>
      rw [hclient] at hin
      exact absurd hin List.not_mem_nil

/-- In a quiescent state, everything has been answered and processed. -/
theorem settled_of_quiescent {s : Sys} (hs : Going s) (hquiescent : s.Quiescent)
    (hpipe : s.pipe = []) : s.Settled := by
  have hidle (i : ℕ) : (s.conns i).Idle := by
    by_cases hi : i < s.accepted
    · exact hquiescent i hi
    · rw [hs.truthful.reached.wired.absent i (by omega)]
      exact ⟨rfl, rfl, rfl⟩
  have hrest (i : ℕ) : AtRest (s.conns i).client := atRest_of_idle (hs.live i) (hidle i)
  refine ⟨hquiescent, hpipe, fun i _ => hrest i, fun i => ?_⟩
  have hpipeline := hs.truthful.reached.pipeline i
  have hqueue := hpipeline.queue
  rw [(hrest i).2, hpipeline.sent, (hidle i).1, opsOf, List.filter_nil, List.append_nil,
    List.map_nil, List.append_nil, List.map_map] at hqueue
  exact hqueue

/-- A state with room is settled, or something can be done in it. -/
theorem settled_or_exists_step {s : Sys} (hs : Going s) (hroom : s.HasRoom) :
    s.Settled ∨ ∃ a s', a.Internal ∧ s.step a = some s' := by
  by_cases hquiescent : s.Quiescent
  · cases hpipe : s.pipe with
    | nil => exact Or.inl (settled_of_quiescent hs hquiescent hpipe)
    | cons event rest =>
      refine Or.inr ⟨.saverTake true, ?_⟩
      simp only [Sys.step, hpipe]
      exact ⟨_, trivial, rfl⟩
  · refine Or.inr ?_
    have hserve (h : ∃ j s', s.step (.serve j) = some s') :
        ∃ a s', a.Internal ∧ s.step a = some s' := by
      obtain ⟨j, s', h⟩ := h
      exact ⟨.serve j, s', trivial, h⟩
    obtain ⟨i, hi⟩ := not_forall.mp hquiescent
    obtain ⟨-, hbusy⟩ := Classical.not_imp.mp hi
    cases hthread : (s.conns i).thread with
    | cons effect rest => exact hserve (exists_perform hs hthread)
    | nil =>
      cases hserver : (s.conns i).toServer with
      | cons message rest => exact hserve (exists_take hs hroom hthread hserver)
      | nil =>
        cases hclient : (s.conns i).toClient with
        | cons message rest =>
          obtain ⟨s', h⟩ := exists_deliver hs hclient
          exact ⟨.deliver i, s', trivial, h⟩
        | nil => exact absurd ⟨hserver, hclient, hthread⟩ hbusy

/-! ## Coming to rest -/

/-- What an internal step needs and keeps. -/
theorem going_internal {s : Sys} {a : Action} {s' : Sys} (hs : Going s ∧ s.HasRoom)
    (ha : a.Internal) (h : s.step a = some s') : (Going s' ∧ s'.HasRoom) ∧ s'.work < s.work := by
  have hwf : a.WellFormed := by
    cases a <;> first | exact trivial | exact ha.elim
  have hw := hs.1.truthful.reached.wired
  have hspends := spends_step hw (hs.1.once.length_le hw) ha h
  refine ⟨⟨hs.1.step hwf h, ?_⟩, hspends.work⟩
  exact ⟨hspends.version.trans hs.2.1, hspends.number.trans hs.2.2⟩

/-- From every state that a run has reached, whatever is still on its way is dealt with in the end: the
parties take at most as many steps as there is work left, whichever of them goes first, they never get
stuck before everything is settled, and so they get there. -/
theorem comes_to_rest (text : Bytes) (limit : ℕ) (path : Bytes) (actions : List Action) (s : Sys)
    (htext : ValidText text) (hwf : ∀ a ∈ actions, a.WellFormed)
    (hrun : run Sys.step (Sys.init text limit path) actions = some s) (hroom : s.HasRoom) :
    (∀ rounds s', (∀ a ∈ rounds, a.Internal) → run Sys.step s rounds = some s' →
      rounds.length ≤ s.work ∧ (s'.Settled ∨ ∃ a s'', a.Internal ∧ s'.step a = some s'')) ∧
    ∃ rounds s', (∀ a ∈ rounds, a.Internal) ∧ run Sys.step s rounds = some s' ∧ s'.Settled := by
  have hs := going_run htext hwf hrun
  constructor
  · intro rounds s' hrounds hrun'
    obtain ⟨⟨hgoing, hroom'⟩, hlength⟩ := length_add_rank_le
      (fun (s : Sys) _ _ (hs : Going s ∧ s.HasRoom) ha h => going_internal hs ha h) ⟨hs, hroom⟩ hrounds
      hrun'
    exact ⟨by omega, settled_or_exists_step hgoing hroom'⟩
  · obtain ⟨rounds, s', hrounds, hrun', -, hsettled⟩ := exists_run_to_final
      (fun (s : Sys) _ _ (hs : Going s ∧ s.HasRoom) ha h => going_internal hs ha h)
      (fun _ hs => settled_or_exists_step hs.1 hs.2) ⟨hs, hroom⟩
    exact ⟨rounds, s', hrounds, hrun', hsettled⟩

/-- Two characters have been typed, and the second one still waits behind the first. -/
theorem comes_to_rest_typing :
    ∃ s, run Sys.step (Sys.init [] 10 (bytes "f")) typing = some s ∧
      ∃ rounds s', (∀ a ∈ rounds, a.Internal) ∧ run Sys.step s rounds = some s' ∧ s'.Settled := by
  have hany : (run Sys.step (Sys.init [] 10 (bytes "f")) typing).any
      (fun s => decide s.HasRoom) = true := by decide +kernel
  obtain ⟨s, hrun, hroom⟩ := (Option.any_eq_true _ _).mp hany
  refine ⟨s, hrun, (comes_to_rest [] 10 (bytes "f") typing s ⟨[], by simp, rfl⟩ ?_ hrun
    (of_decide_eq_true hroom)).2⟩
  have hx := wellFormed_insert (c := 'x') (by decide) 0
  have hy := wellFormed_insert (c := 'y') (by decide) 1
  simp only [typing, List.replicate, List.cons_append, List.nil_append, List.forall_mem_cons,
    List.not_mem_nil, false_implies, implies_true, Action.WellFormed, and_true, true_and]
  exact ⟨hx, hy⟩

end Sys

end TermSync
