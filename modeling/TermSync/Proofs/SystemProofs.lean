import TermSync.Proofs.HistoryProofs
import TermSync.System

/-!
# Proofs: one step of the system

`stepOutcome` says once what a step can do. The first invariants hold of every run: connections that
do not exist yet are untouched (`Absent`), and the accepted operations are the versions of the
document one after the other and replay the initial text to its text (`Logged`).
-/

namespace TermSync

open Foundations

/-! ## The functions of the server -/

/-- Only an OP changes the server. -/
theorem dispatchMessage_of_ne {server : TsServer} {client : TsClientConnection}
    {message : TsMessage} {out : TsServer × List Effect} (hne : message.type ≠ typeOp)
    (h : dispatchMessage server client message = some out) :
    out.1 = server ∧
      ((message.type = typeSave ∧ out.2 =
        [.pipe (.saveNow server.document.text server.document.version),
          .send (saveQueued server.document.version)]) ∨
      (message.type = typeRequestDoc ∧ out.2 = [.send (tsDocumentSnapshot server.document)]) ∨
      (message.type = typePing ∧ out.2 = [.send pong]) ∨
      (message.type ≠ typeSave ∧ message.type ≠ typeRequestDoc ∧ message.type ≠ typePing ∧
        out.2 = [.send (unsupported message)])) := by
  simp only [dispatchMessage, if_neg hne] at h
  split_ifs at h with hsave hrequest hping
  all_goals
    obtain rfl := Option.some.inj h
    simp_all [tsDocumentSnapshot]

/-- Choosing an id only takes numbers. -/
theorem chooseClientId_server {server server' : TsServer} {requested clientId : Bytes}
    (h : chooseClientId server requested = some (server', clientId)) :
    server'.clients = server.clients ∧ server'.document = server.document := by
  simp only [chooseClientId] at h
  split_ifs at h
  · obtain ⟨rfl, -⟩ := Prod.mk.inj (Option.some.inj h)
    exact ⟨rfl, rfl⟩
  · obtain ⟨out, -, hout⟩ := Option.map_eq_some_iff.mp h
    obtain ⟨rfl, -⟩ := Prod.mk.inj hout
    exact ⟨rfl, rfl⟩

/-- The arguments of the call of `ts_document_process_operation` for a message. -/
def callOf (client : TsClientConnection) (message : TsMessage) : DocCall where
  clientId := client.clientId
  opId := message.opId
  baseVersion := message.baseVersion
  op := if message.hasOp then some message.op else none

theorem processMessage_eq (server : TsServer) (client : TsClientConnection) (message : TsMessage) :
    processMessage server client message = processCall server.document (callOf client message) := rfl

/-- The ACK of an accepted operation; `doc` is the document after it. -/
def okAck (doc : TsDocument) (clientId opId : Bytes) (baseVersion : ℤ)
    (op transformed : TsOperation) : TsMessage :=
  { tsMessageInit with
    type := typeAck
    clientId := snprintf tsMaxClientId clientId
    opId := snprintf tsMaxOpId opId
    baseVersion := baseVersion
    serverVersion := doc.version
    version := doc.version
    op := transformed
    hasOp := true
    originalOp := op
    hasOriginalOp := true }

/-- The REMOTE_OP of an accepted operation. -/
def okRemote (doc : TsDocument) (clientId opId : Bytes) (transformed : TsOperation) : TsMessage :=
  { tsMessageInit with
    type := typeRemoteOp
    clientId := snprintf tsMaxClientId clientId
    opId := snprintf tsMaxOpId opId
    serverVersion := doc.version
    version := doc.version
    op := transformed
    hasOp := true }

/-- What the thread that accepts an operation has to do. -/
theorem resultEffects_okResult (doc : TsDocument) (clientId opId : Bytes) (baseVersion : ℤ)
    (op transformed : TsOperation) :
    resultEffects clientId (okResult doc clientId opId baseVersion op transformed) =
      [.pipe (.snapshot doc.text doc.version),
        .pipe (.log (okResult doc clientId opId baseVersion op transformed).logJson),
        .send (okAck doc clientId opId baseVersion op transformed),
        .broadcast (okRemote doc clientId opId transformed) clientId] := rfl

/-- The operation of an OP that passes the check of the document. -/
theorem callOf_op {client : TsClientConnection} {message : TsMessage} {op : TsOperation}
    (h : (callOf client message).op = some op) : message.hasOp = true ∧ op = message.op := by
  simp only [callOf] at h
  split_ifs at h with hhas
  exact ⟨hhas, (Option.some.inj h).symm⟩

/-- Keys queue well-formed insertions. -/
theorem wellFormed_insert {c : Char} (hc : c ≠ '\x00') (pos : ℕ) :
    WellFormedOp (tsOperationInit .insert pos (String.utf8EncodeChar c)) := by
  have hch : WellFormedChar (String.utf8EncodeChar c) := ⟨c, hc, rfl⟩
  refine ⟨by simp [tsOperationInit], fun _ => ?_⟩
  rwa [tsOperationInit, snprintf, List.take_of_length_le]
  exact hch.length_le_four.trans (by decide)

namespace Sys

/-! ## What a step can do -/

/-- The sends of a broadcast. -/
def broadcastSends (s : Sys) (message : TsMessage) (exclude : Bytes) : List Effect :=
  (s.server.clients.filter fun client => client.clientId ≠ exclude).map
    fun client => Effect.sendTo client.fd message

/-- The outcomes of a step. -/
inductive StepOutcome (s : Sys) : Action → Sys → Prop
  | connect (clientId address : Bytes) :
      StepOutcome s (.connect clientId address)
        ({ s with accepted := s.accepted + 1 }.setConn s.accepted
          (Conn.opened s.accepted clientId address))
  | key (i : ℕ) (op : TsOperation) (out : TsClientState × List TsMessage) (hi : i < s.accepted)
      (hqueue : tsClientStateQueueOperation (s.conns i).client op = some out) :
      StepOutcome s (.key i op)
        (s.setConn i { (s.conns i).emit out with
          queued := (s.conns i).queued ++ [newPending (s.conns i).client op] })
  | save (i : ℕ) (hi : i < s.accepted) :
      StepOutcome s (.save i)
        (s.setConn i ((s.conns i).emit ((s.conns i).client, [saveMessage])))
  | deliver (i : ℕ) (message : TsMessage) (rest : List TsMessage)
      (out : TsClientState × List TsMessage) (hin : (s.conns i).toClient = message :: rest)
      (hhandle : tsClientStateHandleMessage (s.conns i).client message = some out) :
      StepOutcome s (.deliver i)
        (s.setConn i { (s.conns i).emit out with
          toClient := rest, received := (s.conns i).received ++ [message] })
  | join (i : ℕ) (message : TsMessage) (rest : List TsMessage) (server : TsServer)
      (clientId : Bytes) (hthread : (s.conns i).thread = [])
      (hin : (s.conns i).toServer = message :: rest) (hphase : (s.conns i).phase = .joining)
      (htype : message.type = typeJoin) (hlock : s.clientsLock = none)
      (hchoose : chooseClientId s.server message.clientId = some (server, clientId)) :
      StepOutcome s (.serve i)
        ({ s with server := server }.setConn i { s.conns i with
          toServer := rest
          peer := { (s.conns i).peer with clientId := clientId }
          phase := .serving
          thread := joinEffects { (s.conns i).peer with clientId := clientId } })
  | refuse (i : ℕ) (message : TsMessage) (rest : List TsMessage)
      (hthread : (s.conns i).thread = []) (hin : (s.conns i).toServer = message :: rest)
      (hphase : (s.conns i).phase = .joining) (htype : message.type ≠ typeJoin) :
      StepOutcome s (.serve i)
        (s.setConn i { s.conns i with
          toServer := rest, phase := .closed, thread := [.send joinRequired] })
  | op (i : ℕ) (message : TsMessage) (rest : List TsMessage) (document : TsDocument)
      (result : TsProcessResult) (hthread : (s.conns i).thread = [])
      (hin : (s.conns i).toServer = message :: rest) (hphase : (s.conns i).phase = .serving)
      (htype : message.type = typeOp)
      (hprocess : processMessage s.server (s.conns i).peer message = some (document, result)) :
      StepOutcome s (.serve i)
        ({ s with
            server := { s.server with document := document }
            processed := s.processed ++ [Processed.mk i message result] }.setConn i { s.conns i with
          toServer := rest, thread := resultEffects (s.conns i).peer.clientId result })
  | answer (i : ℕ) (message : TsMessage) (rest : List TsMessage) (effects : List Effect)
      (hthread : (s.conns i).thread = []) (hin : (s.conns i).toServer = message :: rest)
      (hphase : (s.conns i).phase = .serving) (htype : message.type ≠ typeOp)
      (hdispatch : dispatchMessage s.server (s.conns i).peer message = some (s.server, effects)) :
      StepOutcome s (.serve i)
        (s.setConn i { s.conns i with toServer := rest, thread := effects })
  | send (i : ℕ) (message : TsMessage) (rest : List Effect)
      (hthread : (s.conns i).thread = .send message :: rest) :
      StepOutcome s (.serve i) (s.setConn i ({ s.conns i with thread := rest }.push message))
  | pipe (i : ℕ) (event : SaverEvent) (rest : List Effect)
      (hthread : (s.conns i).thread = .pipe event :: rest) :
      StepOutcome s (.serve i)
        ({ s with pipe := s.pipe ++ [event], piped := s.piped ++ [event] }.setConn i
          { s.conns i with thread := rest })
  | register (i : ℕ) (client : TsClientConnection) (rest : List Effect)
      (hthread : (s.conns i).thread = .register client :: rest) (hlock : s.clientsLock = none) :
      StepOutcome s (.serve i)
        ({ s with server := registerClient s.server client }.setConn i
          { s.conns i with thread := rest })
  | snapshot (i : ℕ) (rest : List Effect) (hthread : (s.conns i).thread = .snapshot :: rest) :
      StepOutcome s (.serve i)
        (s.setConn i { s.conns i with
          thread := .send (tsDocumentSnapshot s.server.document) :: rest })
  | broadcast (i : ℕ) (message : TsMessage) (exclude : Bytes) (rest : List Effect)
      (hthread : (s.conns i).thread = .broadcast message exclude :: rest)
      (hlock : s.clientsLock = none) :
      StepOutcome s (.serve i)
        ({ s with clientsLock := some i }.setConn i { s.conns i with
          thread := broadcastSends s message exclude ++ Effect.unlock :: rest })
  | sendTo (i fd : ℕ) (message : TsMessage) (rest : List Effect)
      (hthread : (s.conns i).thread = .sendTo fd message :: rest) :
      StepOutcome s (.serve i)
        ((s.setConn i { s.conns i with thread := rest }).setConn fd
          (((s.setConn i { s.conns i with thread := rest }).conns fd).push message))
  | unlock (i : ℕ) (rest : List Effect) (hthread : (s.conns i).thread = .unlock :: rest) :
      StepOutcome s (.serve i)
        ({ s with clientsLock := none }.setConn i { s.conns i with thread := rest })
  | saverTake (written : Bool) (event : SaverEvent) (rest : List SaverEvent)
      (hpipe : s.pipe = event :: rest) :
      StepOutcome s (.saverTake written)
        { s with pipe := rest, saver := s.saver.handle event written }
  | saverTimer (written : Bool) :
      StepOutcome s (.saverTimer written) { s with saver := s.saver.timer written }

theorem take_outcome {s s' : Sys} {i : ℕ} {message : TsMessage} {rest : List TsMessage}
    (hthread : (s.conns i).thread = []) (hin : (s.conns i).toServer = message :: rest)
    (h : s.take i message rest = some s') : StepOutcome s (.serve i) s' := by
  simp only [take] at h
  split at h
  · cases h
  · rename_i hphase
    split_ifs at h with htype hlock
    · obtain ⟨⟨server, clientId⟩, hchoose, hs'⟩ := Option.bind_eq_some_iff.mp h
      obtain rfl := Option.some.inj hs'
      exact .join i message rest server clientId hthread hin hphase htype hlock hchoose
    · obtain rfl := Option.some.inj h
      exact .refuse i message rest hthread hin hphase htype
  · rename_i hphase
    obtain ⟨⟨server, effects⟩, hdispatch, hs'⟩ := Option.bind_eq_some_iff.mp h
    obtain rfl := Option.some.inj hs'
    by_cases htype : message.type = typeOp
    · rw [dispatchMessage, if_pos htype] at hdispatch
      obtain ⟨⟨document, result⟩, hprocess, hout⟩ := Option.bind_eq_some_iff.mp hdispatch
      obtain ⟨rfl, rfl⟩ := Prod.mk.inj (Option.some.inj hout)
      simp only [if_pos htype, hprocess, Option.map_some, Option.toList_some]
      exact .op i message rest document result hthread hin hphase htype hprocess
    · obtain rfl := (dispatchMessage_of_ne htype hdispatch).1
      simp only [if_neg htype, List.append_nil]
      exact .answer i message rest effects hthread hin hphase htype hdispatch

theorem perform_outcome {s s' : Sys} {i : ℕ} {effect : Effect} {rest : List Effect}
    (hthread : (s.conns i).thread = effect :: rest) (h : s.perform i effect rest = some s') :
    StepOutcome s (.serve i) s' := by
  cases effect with
  | send message =>
    obtain rfl := Option.some.inj h
    exact .send i message rest hthread
  | pipe event =>
    obtain rfl := Option.some.inj h
    exact .pipe i event rest hthread
  | register client =>
    simp only [perform] at h
    split_ifs at h with hlock
    obtain rfl := Option.some.inj h
    exact .register i client rest hthread hlock
  | snapshot =>
    obtain rfl := Option.some.inj h
    exact .snapshot i rest hthread
  | broadcast message exclude =>
    simp only [perform] at h
    split_ifs at h with hlock
    obtain rfl := Option.some.inj h
    exact .broadcast i message exclude rest hthread hlock
  | sendTo fd message =>
    obtain rfl := Option.some.inj h
    exact .sendTo i fd message rest hthread
  | unlock =>
    obtain rfl := Option.some.inj h
    exact .unlock i rest hthread

theorem stepOutcome {s s' : Sys} {a : Action} (h : s.step a = some s') : StepOutcome s a s' := by
  cases a with
  | connect clientId address =>
    obtain rfl := Option.some.inj h
    exact .connect clientId address
  | key i op =>
    simp only [step] at h
    split_ifs at h with hi
    obtain ⟨out, hqueue, hs'⟩ := Option.bind_eq_some_iff.mp h
    obtain rfl := Option.some.inj hs'
    exact .key i op out hi hqueue
  | save i =>
    simp only [step] at h
    split_ifs at h with hi
    obtain rfl := Option.some.inj h
    exact .save i hi
  | deliver i =>
    simp only [step] at h
    split at h
    · cases h
    · rename_i message rest hin
      obtain ⟨out, hhandle, hs'⟩ := Option.bind_eq_some_iff.mp h
      obtain rfl := Option.some.inj hs'
      exact .deliver i message rest out hin hhandle
  | serve i =>
    simp only [step] at h
    split at h
    · rename_i effect rest hthread
      exact perform_outcome hthread h
    · rename_i message rest hthread hin
      exact take_outcome hthread hin h
    · cases h
  | saverTake written =>
    simp only [step] at h
    split at h
    · cases h
    · rename_i event rest hpipe
      obtain rfl := Option.some.inj h
      exact .saverTake written event rest hpipe
  | saverTimer written =>
    obtain rfl := Option.some.inj h
    exact .saverTimer written

/-! ## Connections -/

@[simp] theorem setConn_server (s : Sys) (i : ℕ) (c : Conn) : (s.setConn i c).server = s.server := rfl

@[simp] theorem setConn_clientsLock (s : Sys) (i : ℕ) (c : Conn) :
    (s.setConn i c).clientsLock = s.clientsLock := rfl

@[simp] theorem setConn_accepted (s : Sys) (i : ℕ) (c : Conn) :
    (s.setConn i c).accepted = s.accepted := rfl

@[simp] theorem setConn_pipe (s : Sys) (i : ℕ) (c : Conn) : (s.setConn i c).pipe = s.pipe := rfl

@[simp] theorem setConn_saver (s : Sys) (i : ℕ) (c : Conn) : (s.setConn i c).saver = s.saver := rfl

@[simp] theorem setConn_initialText (s : Sys) (i : ℕ) (c : Conn) :
    (s.setConn i c).initialText = s.initialText := rfl

@[simp] theorem setConn_processed (s : Sys) (i : ℕ) (c : Conn) :
    (s.setConn i c).processed = s.processed := rfl

@[simp] theorem setConn_piped (s : Sys) (i : ℕ) (c : Conn) : (s.setConn i c).piped = s.piped := rfl

@[simp] theorem setConn_conns_self (s : Sys) (i : ℕ) (c : Conn) : (s.setConn i c).conns i = c :=
  Function.update_self ..

theorem setConn_conns_of_ne (s : Sys) {i j : ℕ} (h : j ≠ i) (c : Conn) :
    (s.setConn i c).conns j = s.conns j :=
  Function.update_of_ne h ..

/-- What holds of the new connection and of all old ones holds of all connections. -/
theorem forall_setConn {P : ℕ → Conn → Prop} {s : Sys} {i : ℕ} {c : Conn} (hc : P i c)
    (h : ∀ j, j ≠ i → P j (s.conns j)) (j : ℕ) : P j ((s.setConn i c).conns j) := by
  by_cases hj : j = i
  · rw [hj, setConn_conns_self]
    exact hc
  · rw [setConn_conns_of_ne s hj]
    exact h j hj

/-- A step that replaces one connection keeps what holds of all connections. -/
theorem forall_conns_set {P : ℕ → Conn → Prop} {s t : Sys} {i : ℕ} {c : Conn}
    (h : ∀ j, P j (s.conns j)) (hconns : t.conns = s.conns) (hc : P i c) (j : ℕ) :
    P j ((t.setConn i c).conns j) :=
  forall_setConn hc (fun j _ => hconns ▸ h j) j

theorem setConn_phase (s : Sys) {i : ℕ} {c : Conn} (h : c.phase = (s.conns i).phase) (j : ℕ) :
    ((s.setConn i c).conns j).phase = (s.conns j).phase :=
  forall_setConn (P := fun j c => c.phase = (s.conns j).phase) h (fun _ _ => rfl) j

/-! ## Commits -/

theorem commits_concat (s : Sys) (p : Processed) :
    { s with processed := s.processed ++ [p] }.commits =
      s.commits ++ (p.result.ack.map fun ack => (p.conn, ack)).toList := by
  simp only [commits, List.filterMap_append, List.filterMap_cons, List.filterMap_nil]
  cases p.result.ack <;> rfl

/-- A step in which the thread of connection `i` commits the operation of `message`. -/
structure CommitStep (s s' : Sys) (i : ℕ) (message : TsMessage) (updated : Bytes) : Prop where
  thread : (s.conns i).thread = []
  phase : (s.conns i).phase = .serving
  head : (s.conns i).toServer.head? = some message
  type : message.type = typeOp
  hasOp : message.hasOp = true
  acceptable : Acceptable message.op
  start_le : s.server.document.historyStartVersion ≤ message.baseVersion
  le_version : message.baseVersion ≤ s.server.document.version
  lt_max : s.server.document.version < intMax
  apply : tsApplyOperationToText s.server.document.text
    (transformedOp s.server.document message.baseVersion message.op) = some updated
  document : s'.server.document = acceptedDocument s.server.document
    (acceptedEntry s.server.document (s.conns i).peer.clientId message.opId message.baseVersion
      message.op) updated
  commits : s'.commits = s.commits ++ [(i, okAck s'.server.document (s.conns i).peer.clientId
    message.opId message.baseVersion message.op
    (transformedOp s.server.document message.baseVersion message.op))]

/-- The accepted operations and the document change only together. -/
theorem commit_cases {s s' : Sys} {a : Action} (h : s.step a = some s') :
    (s'.commits = s.commits ∧ s'.server.document = s.server.document) ∨
      ∃ i message updated, a = .serve i ∧ CommitStep s s' i message updated := by
  cases stepOutcome h with
  | join i message rest server clientId _ _ _ _ _ hchoose =>
    exact Or.inl ⟨rfl, (chooseClientId_server hchoose).2⟩
  | op i message rest document result hthread hin hphase htype hprocess =>
    rw [processMessage_eq] at hprocess
    have hcommits := commits_concat s ⟨i, message, result⟩
    cases processOutcome hprocess with
    | error => exact Or.inl ⟨hcommits.trans (List.append_nil _), rfl⟩
    | resync => exact Or.inl ⟨hcommits.trans (List.append_nil _), rfl⟩
    | ok op updated hcall hop hstart hversion hmax happly =>
      obtain ⟨hhas, rfl⟩ := callOf_op hcall
      exact Or.inr ⟨i, message, updated, rfl,
        { thread := hthread
          phase := hphase
          head := by rw [hin]; rfl
          type := htype
          hasOp := hhas
          acceptable := hop
          start_le := hstart
          le_version := hversion
          lt_max := hmax
          apply := happly
          document := rfl
          commits := hcommits }⟩
  | _ => exact Or.inl ⟨rfl, rfl⟩

theorem initialText_step {s s' : Sys} {a : Action} (h : s.step a = some s') :
    s'.initialText = s.initialText := by
  cases stepOutcome h <;> rfl

/-! ## The log of the accepted operations -/

/-- The accepted operations are the versions of the document one after the other, and they lead from
the initial text to its text. -/
structure Logged (s : Sys) : Prop where
  window : HistoryWindow s.server.document
  length : (s.commits.length : ℤ) = s.server.document.version
  versions : ∀ k (hk : k < s.commits.length), (s.commits[k]).2.version = k + 1
  text : replayOps s.initialText (s.commits.map fun commit => commit.2.op) =
    some s.server.document.text

theorem logged_init (text : Bytes) (limit : ℕ) (path : Bytes) : Logged (init text limit path) where
  window := historyWindow_init text limit
  length := rfl
  versions k hk := absurd hk (Nat.not_lt_zero k)
  text := rfl

theorem replayOps_concat (text : Bytes) (ops : List TsOperation) (op : TsOperation) :
    replayOps text (ops ++ [op]) = (replayOps text ops).bind fun t => tsApplyOperationToText t op := by
  simp [replayOps, List.foldlM_append]

theorem Logged.step {s s' : Sys} {a : Action} (hs : Logged s) (h : s.step a = some s') :
    Logged s' := by
  have htext := initialText_step h
  rcases commit_cases h with ⟨hcommits, hdoc⟩ | ⟨i, message, updated, -, hc⟩
  · exact
      { window := hdoc ▸ hs.window
        length := by rw [hcommits, hdoc]; exact hs.length
        versions := by
          simp only [hcommits]
          exact hs.versions
        text := by rw [hcommits, htext, hdoc]; exact hs.text }
  · have hversion : s'.server.document.version = s.server.document.version + 1 := by
      rw [hc.document, acceptedDocument_version]
    have hlen := hs.length
    refine
      { window := by rw [hc.document]; exact hs.window.accepted rfl updated
        length := by
          rw [hc.commits, hversion, List.length_append, List.length_singleton]
          omega
        versions := fun k hk => ?_
        text := ?_ }
    · simp only [hc.commits, List.length_append, List.length_singleton] at hk ⊢
      rw [List.getElem_append]
      split_ifs with hlt
      · exact hs.versions k hlt
      · obtain rfl : k = s.commits.length := by omega
        simp only [List.getElem_singleton, okAck, hversion]
        omega
    · rw [hc.commits, htext, List.map_append, List.map_singleton, replayOps_concat, hs.text,
        hc.document, acceptedDocument_text]
      exact hc.apply

/-- The text of a document is the text at its version. -/
theorem Logged.textAt_version {s : Sys} (hs : Logged s) :
    s.textAt s.server.document.version = some s.server.document.text := by
  rw [textAt, ← hs.length, Int.toNat_natCast, List.take_length]
  exact hs.text

/-- The accepted operations are never changed. -/
theorem commits_prefix_step {s s' : Sys} {a : Action} (h : s.step a = some s') :
    s.commits <+: s'.commits := by
  rcases commit_cases h with ⟨hcommits, -⟩ | ⟨i, message, updated, -, hc⟩
  · rw [hcommits]
  · rw [hc.commits]
    exact List.prefix_append ..

/-- The text at an old version is never changed. -/
theorem Logged.textAt_step {s s' : Sys} {a : Action} (hs : Logged s) (h : s.step a = some s')
    {version : ℤ} (hv : version ≤ s.server.document.version) :
    s'.textAt version = s.textAt version := by
  obtain ⟨new, hnew⟩ := commits_prefix_step h
  have hlen := hs.length
  rw [textAt, textAt, initialText_step h, ← hnew, List.take_append_of_le_length (by omega)]

theorem Logged.version_step {s s' : Sys} {a : Action} (hs : Logged s) (h : s.step a = some s') :
    s.server.document.version ≤ s'.server.document.version := by
  have hle := (commits_prefix_step h).length_le
  have hlen := hs.length
  have hlen' := (hs.step h).length
  omega

/-- A commit leads from the text before its version to the text at its version. -/
theorem Logged.textAt_commit {s : Sys} (hs : Logged s) {commit : ℕ × TsMessage}
    (hmem : commit ∈ s.commits) :
    1 ≤ commit.2.version ∧ commit.2.version ≤ s.server.document.version ∧
      s.textAt commit.2.version =
        (s.textAt (commit.2.version - 1)).bind fun t => tsApplyOperationToText t commit.2.op := by
  obtain ⟨k, hk, rfl⟩ := List.getElem_of_mem hmem
  have hver := hs.versions k hk
  have hlen := hs.length
  refine ⟨by omega, by omega, ?_⟩
  rw [textAt, textAt, hver, show ((k : ℤ) + 1).toNat = k + 1 by omega,
    show ((k : ℤ) + 1 - 1).toNat = k by omega, List.take_add_one, List.getElem?_eq_getElem hk,
    Option.toList_some, List.map_append, List.map_singleton, replayOps_concat]

/-! ## Wiring -/

/-- What the effects of the thread of connection `i` refer to. -/
def EffectWired (clients : List TsClientConnection) (i : ℕ) : Effect → Prop
  | .register client => client.fd = i
  | .broadcast message _ => message.type = typeRemoteOp
  | .sendTo fd message => message.type = typeRemoteOp ∧ ∃ client ∈ clients, client.fd = fd
  | _ => True

/-- A connection waits for its JOIN, which is the next message, or it is being served. -/
def PhaseWired (c : Conn) : Prop :=
  (c.phase = .joining ∧ c.thread = [] ∧ ∃ clientId rest, c.toServer = joinMessage clientId :: rest) ∨
    c.phase = .serving

/-- Connections and registered clients belong together, and only REMOTE_OPs are sent to other
clients. -/
structure Wired (s : Sys) : Prop where
  absent : ∀ j, s.accepted ≤ j → s.conns j = Conn.none
  peer : ∀ j, j < s.accepted → (s.conns j).peer.fd = j
  phase : ∀ j, j < s.accepted → PhaseWired (s.conns j)
  clients : ∀ client ∈ s.server.clients, client.fd < s.accepted
  threads : ∀ j, ∀ effect ∈ (s.conns j).thread, EffectWired s.server.clients j effect

theorem wired_init (text : Bytes) (limit : ℕ) (path : Bytes) : Wired (init text limit path) where
  absent _ _ := rfl
  peer j hj := absurd hj (Nat.not_lt_zero j)
  phase j hj := absurd hj (Nat.not_lt_zero j)
  clients := by simp [init]
  threads := by simp [init, Conn.none]

theorem EffectWired.mono {clients clients' : List TsClientConnection} {i : ℕ} {effect : Effect}
    (h : EffectWired clients i effect) (hsub : clients ⊆ clients') :
    EffectWired clients' i effect := by
  cases effect with
  | sendTo fd message =>
    obtain ⟨htype, client, hmem, hfd⟩ := h
    exact ⟨htype, client, hsub hmem, hfd⟩
  | _ => exact h

/-- Only an existing connection has anything in its channels or something to do. -/
theorem Wired.lt_of_ne {s : Sys} (hs : Wired s) {i : ℕ}
    (h : (s.conns i).thread ≠ [] ∨ (s.conns i).toServer ≠ [] ∨ (s.conns i).toClient ≠ []) :
    i < s.accepted := by
  by_contra hi
  rw [hs.absent i (by omega)] at h
  rcases h with h | h | h <;> exact h rfl

/-- Replacing an existing connection. -/
theorem Wired.set {s t : Sys} (hs : Wired s) {i : ℕ} {c : Conn} (hi : i < s.accepted)
    (hconns : t.conns = s.conns) (haccepted : t.accepted = s.accepted)
    (hclients : s.server.clients ⊆ t.server.clients)
    (hclients' : ∀ client ∈ t.server.clients, client.fd < s.accepted) (hpeer : c.peer.fd = i)
    (hphase : PhaseWired c) (hthread : ∀ effect ∈ c.thread, EffectWired t.server.clients i effect) :
    Wired (t.setConn i c) where
  absent := by
    rw [setConn_accepted, haccepted]
    refine forall_setConn (P := fun j c => s.accepted ≤ j → c = Conn.none) (fun h => ?_) fun j _ => ?_
    · omega
    · rw [hconns]
      exact hs.absent j
  peer := by
    rw [setConn_accepted, haccepted]
    refine forall_setConn (P := fun j c => j < s.accepted → c.peer.fd = j) (fun _ => hpeer)
      fun j _ => ?_
    rw [hconns]
    exact hs.peer j
  phase := by
    rw [setConn_accepted, haccepted]
    refine forall_setConn (P := fun j c => j < s.accepted → PhaseWired c) (fun _ => hphase)
      fun j _ => ?_
    rw [hconns]
    exact hs.phase j
  clients := by
    rw [setConn_accepted, haccepted]
    exact hclients'
  threads := by
    refine forall_setConn
      (P := fun j c => ∀ effect ∈ c.thread, EffectWired t.server.clients j effect) hthread
      fun j _ => ?_
    rw [hconns]
    exact fun effect heffect => (hs.threads j effect heffect).mono hclients

/-- A connection whose thread only loses effects, or gains harmless ones. -/
theorem Wired.set_thread {s t : Sys} (hs : Wired s) {i : ℕ} {c : Conn} (hi : i < s.accepted)
    (hconns : t.conns = s.conns) (haccepted : t.accepted = s.accepted)
    (hserver : t.server.clients = s.server.clients) (hpeer : c.peer = (s.conns i).peer)
    (hphase : PhaseWired c) (hthread : ∀ effect ∈ c.thread, EffectWired s.server.clients i effect) :
    Wired (t.setConn i c) :=
  hs.set hi hconns haccepted (by rw [hserver]; exact List.Subset.refl _)
    (by rw [hserver]; exact hs.clients) (by rw [hpeer]; exact hs.peer i hi) hphase
    (by rw [hserver]; exact hthread)

theorem PhaseWired.emit {c : Conn} (h : PhaseWired c) (out : TsClientState × List TsMessage) :
    PhaseWired (c.emit out) := by
  rcases h with ⟨hphase, hthread, clientId, rest, hin⟩ | hphase
  · exact Or.inl ⟨hphase, hthread, clientId, rest ++ out.2, by simp [Conn.emit, hin]⟩
  · exact Or.inr hphase

/-- Only a connection that is being served has something to do. -/
theorem Wired.serving {s : Sys} (hs : Wired s) {i : ℕ} (h : (s.conns i).thread ≠ []) :
    i < s.accepted ∧ (s.conns i).phase = .serving := by
  have hi := hs.lt_of_ne (Or.inl h)
  rcases hs.phase i hi with ⟨-, hnil, -⟩ | hphase
  · exact absurd hnil h
  · exact ⟨hi, hphase⟩

theorem effectWired_resultEffects {doc doc' : TsDocument} {call : DocCall} {r : TsProcessResult}
    (h : processCall doc call = some (doc', r)) (clientId : Bytes)
    (clients : List TsClientConnection) (i : ℕ) :
    ∀ effect ∈ resultEffects clientId r, EffectWired clients i effect := by
  cases processOutcome h with
  | error => simp [resultEffects, errorResult, EffectWired]
  | resync => simp [resultEffects, resyncResult, EffectWired]
  | ok => simp [resultEffects, okResult, EffectWired]

/-- A new connection. -/
theorem Wired.connect {s : Sys} (hs : Wired s) (clientId address : Bytes) :
    Wired ({ s with accepted := s.accepted + 1 }.setConn s.accepted
      (Conn.opened s.accepted clientId address)) where
  absent := by
    refine forall_setConn (P := fun j c => s.accepted + 1 ≤ j → c = Conn.none) (fun h => ?_)
      fun j _ hj => hs.absent j (by omega)
    omega
  peer := forall_setConn (P := fun j c => j < s.accepted + 1 → c.peer.fd = j) (fun _ => rfl)
    fun j hne hj => hs.peer j (by omega)
  phase := forall_setConn (P := fun j c => j < s.accepted + 1 → PhaseWired c)
    (fun _ => Or.inl ⟨rfl, rfl, clientId, [], rfl⟩) fun j hne hj => hs.phase j (by omega)
  clients client hclient := Nat.lt_succ_of_lt (hs.clients client hclient)
  threads := forall_setConn
    (P := fun j c => ∀ effect ∈ c.thread, EffectWired s.server.clients j effect)
    (by simp [Conn.opened]) fun j _ => hs.threads j

theorem Wired.step {s s' : Sys} {a : Action} (hs : Wired s) (h : s.step a = some s') :
    Wired s' := by
  have hhead {i : ℕ} {effect : Effect} {rest : List Effect}
      (hthread : (s.conns i).thread = effect :: rest) :
      i < s.accepted ∧ (s.conns i).phase = .serving ∧ EffectWired s.server.clients i effect ∧
        ∀ e ∈ rest, EffectWired s.server.clients i e := by
    obtain ⟨hi, hphase⟩ := hs.serving (i := i) (by simp [hthread])
    have hall := hs.threads i
    rw [hthread] at hall
    exact ⟨hi, hphase, hall _ List.mem_cons_self, fun e he => hall e (List.mem_cons_of_mem _ he)⟩
  cases stepOutcome h with
  | connect clientId address => exact hs.connect clientId address
  | key i op out hi =>
    exact hs.set_thread hi rfl rfl rfl rfl ((hs.phase i hi).emit out) (hs.threads i)
  | save i hi => exact hs.set_thread hi rfl rfl rfl rfl ((hs.phase i hi).emit _) (hs.threads i)
  | deliver i message rest out hin =>
    have hi := hs.lt_of_ne (i := i) (by simp [hin])
    exact hs.set_thread hi rfl rfl rfl rfl ((hs.phase i hi).emit out) (hs.threads i)
  | join i message rest server clientId hthread hin hphase htype hlock hchoose =>
    obtain ⟨hclients, -⟩ := chooseClientId_server hchoose
    have hi := hs.lt_of_ne (i := i) (by simp [hin])
    refine hs.set hi rfl rfl (by rw [hclients]; exact List.Subset.refl _)
      (by rw [hclients]; exact hs.clients) (hs.peer i hi) (Or.inr rfl) ?_
    simp [joinEffects, EffectWired, hs.peer i hi]
  | refuse i message rest hthread hin hphase htype =>
    have hi := hs.lt_of_ne (i := i) (by simp [hin])
    rcases hs.phase i hi with ⟨-, -, clientId, rest', hin'⟩ | hserving
    · obtain ⟨rfl, -⟩ := List.cons.inj (hin.symm.trans hin')
      exact absurd rfl htype
    · rw [hphase] at hserving
      cases hserving
  | op i message rest document result hthread hin hphase htype hprocess =>
    have hi := hs.lt_of_ne (i := i) (by simp [hin])
    exact hs.set_thread hi rfl rfl rfl rfl (Or.inr hphase)
      (effectWired_resultEffects ((processMessage_eq ..).symm.trans hprocess) _ _ i)
  | answer i message rest effects hthread hin hphase htype hdispatch =>
    have hi := hs.lt_of_ne (i := i) (by simp [hin])
    refine hs.set_thread hi rfl rfl rfl rfl (Or.inr hphase) ?_
    rcases (dispatchMessage_of_ne htype hdispatch).2 with
      ⟨-, heq⟩ | ⟨-, heq⟩ | ⟨-, heq⟩ | ⟨-, -, -, heq⟩ <;>
    · simp only at heq
      simp [heq, EffectWired]
  | send i message rest hthread =>
    obtain ⟨hi, hphase, -, hrest⟩ := hhead hthread
    exact hs.set_thread hi rfl rfl rfl rfl (Or.inr hphase) hrest
  | pipe i event rest hthread =>
    obtain ⟨hi, hphase, -, hrest⟩ := hhead hthread
    exact hs.set_thread hi rfl rfl rfl rfl (Or.inr hphase) hrest
  | register i client rest hthread hlock =>
    obtain ⟨hi, hphase, hfd, hrest⟩ := hhead hthread
    refine hs.set hi rfl rfl (List.subset_cons_self ..) ?_ (hs.peer i hi) (Or.inr hphase)
      fun e he => (hrest e he).mono (List.subset_cons_self ..)
    intro c hc
    rcases List.mem_cons.mp hc with rfl | hc
    · exact (show c.fd = i from hfd) ▸ hi
    · exact hs.clients c hc
  | snapshot i rest hthread =>
    obtain ⟨hi, hphase, -, hrest⟩ := hhead hthread
    refine hs.set_thread hi rfl rfl rfl rfl (Or.inr hphase) fun e he => ?_
    rcases List.mem_cons.mp he with rfl | he
    · trivial
    · exact hrest e he
  | broadcast i message exclude rest hthread hlock =>
    obtain ⟨hi, hphase, htype, hrest⟩ := hhead hthread
    refine hs.set_thread hi rfl rfl rfl rfl (Or.inr hphase) fun e he => ?_
    rcases List.mem_append.mp he with he | he
    · obtain ⟨client, hclient, rfl⟩ := List.mem_map.mp he
      exact ⟨htype, client, (List.mem_filter.mp hclient).1, rfl⟩
    · rcases List.mem_cons.mp he with rfl | he
      · trivial
      · exact hrest e he
  | sendTo i fd message rest hthread =>
    obtain ⟨hi, hphase, ⟨-, client, hclient, rfl⟩, hrest⟩ := hhead hthread
    have hmid := hs.set_thread (t := s) (c := { s.conns i with thread := rest }) hi rfl rfl rfl rfl
      (Or.inr hphase) hrest
    have hfd : client.fd < s.accepted := hs.clients client hclient
    exact hmid.set_thread hfd rfl rfl rfl rfl (hmid.phase _ hfd) (hmid.threads _)
  | unlock i rest hthread =>
    obtain ⟨hi, hphase, -, hrest⟩ := hhead hthread
    exact hs.set_thread hi rfl rfl rfl rfl (Or.inr hphase) hrest
  | saverTake written event rest hpipe =>
    exact ⟨hs.absent, hs.peer, hs.phase, hs.clients, hs.threads⟩
  | saverTimer written => exact ⟨hs.absent, hs.peer, hs.phase, hs.clients, hs.threads⟩

end Sys

end TermSync
