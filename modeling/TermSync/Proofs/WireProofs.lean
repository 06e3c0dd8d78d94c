import TermSync.Proofs.CarriedProofs

/-!
# Proofs: the wire refines the system

A stream that holds the lines of some messages still does so after every `write(2)` and `read(2)`, and
what is cut off it is the line of the first message (`Stream.Holds.returns`). So every step on the wire is
a step of the system with whole messages, or none of it (`Wire.Shows.step`).
-/

namespace TermSync

open Foundations

/-! ## Streams -/

theorem holds_empty : Stream.empty.Holds [] := rfl

theorem Stream.Holds.send {stream : Stream} {messages : List TsMessage} (h : stream.Holds messages)
    (m : TsMessage) : (stream.send m).Holds (messages ++ [m]) := by
  unfold Stream.Holds at h ⊢
  rw [List.map_append, framed_append, ← h, List.map_singleton, framed_cons]
  simp only [Stream.send, (tsEncodeMessage_eq_line m).1, List.append_assoc]
  rfl

theorem Stream.Holds.sendAll {stream : Stream} {messages : List TsMessage} (h : stream.Holds messages)
    (out : List TsMessage) : (out.foldl Stream.send stream).Holds (messages ++ out) := by
  induction out generalizing stream messages with
  | nil =>
    rw [List.append_nil]
    exact h
  | cons m out ih =>
    rw [List.foldl_cons, List.append_cons]
    exact ih (h.send m)

theorem Stream.Holds.write {stream : Stream} {messages : List TsMessage} (h : stream.Holds messages)
    (n : ℕ) : (stream.write n).Holds messages := by
  unfold Stream.Holds at h ⊢
  simp only [Stream.write, List.append_assoc, List.take_append_drop]
  rw [← List.append_assoc]
  exact h

theorem Stream.Holds.read {stream : Stream} {messages : List TsMessage} (h : stream.Holds messages)
    (n : ℕ) : (stream.read n).Holds messages := by
  unfold Stream.Holds at h ⊢
  simp only [Stream.read]
  rw [List.append_assoc stream.buffer, List.take_append_drop]
  exact h

theorem Carried.decode {m : TsMessage} (h : Carried m) (errorSize : ℕ) :
    tsDecodeMessage errorSize (lineOf m) = .ok m.asReceived := by
  rw [tsDecodeMessage_lineOf h.sent, (printedContent_eq_iff m).mpr h.printed]
  rfl

/-- What is cut off the stream is the line of the first message. -/
theorem Stream.Holds.returns {stream : Stream} {messages : List TsMessage} {errorSize : ℕ}
    {result : Except Bytes TsMessage} {rest : Bytes} (h : stream.Holds messages)
    (hcarried : ∀ m ∈ messages, Carried m)
    (hround : recvRound errorSize stream.buffer = .returns result rest) :
    ∃ m messages', messages = m :: messages' ∧ result = .ok m.asReceived ∧
      Stream.Holds { stream with buffer := rest } messages' := by
  unfold Stream.Holds at h ⊢
  rw [List.append_assoc] at h
  cases messages with
  | nil =>
    rw [(List.append_eq_nil_iff.mp h).1] at hround
    cases hround
  | cons m messages =>
    rw [List.map_cons, framed_cons] at h
    have hm := hcarried m List.mem_cons_self
    rcases recvRound_line (tsEncodeMessage_eq_line m).2 (length_lineOf hm.fits) errorSize h with
      ⟨rest', -, hrest, hreturns⟩ | ⟨-, -, hreads⟩
    · obtain ⟨rfl, rfl⟩ := RecvRound.returns.inj (hreturns.symm.trans hround)
      exact ⟨m, messages, rfl, hm.decode errorSize, by rw [List.append_assoc]; exact hrest⟩
    · exact absurd (hreads.symm.trans hround) (by simp)

/-! ## The handlers -/

/-- No handler of the client reads the reason. -/
theorem handle_asReceived (state : TsClientState) (m : TsMessage) :
    tsClientStateHandleMessage state m.asReceived = tsClientStateHandleMessage state m := rfl

/-- No handler of the server reads the reason. -/
theorem dispatch_asReceived (server : TsServer) (client : TsClientConnection) (m : TsMessage) :
    dispatchMessage server client m.asReceived = dispatchMessage server client m := rfl

/-! ## One connection -/

namespace WireConn

theorem shows_none : WireConn.none.Shows Conn.none where
  client := rfl
  peer := rfl
  phase := rfl
  thread := rfl
  reading := rfl
  toServer := holds_empty
  toClient := ⟨[], [], rfl, rfl, holds_empty⟩

theorem shows_opened (fd : ℕ) (clientId address : Bytes) :
    (WireConn.opened fd clientId address).Shows (Conn.opened fd clientId address) where
  client := rfl
  peer := rfl
  phase := rfl
  thread := rfl
  reading := rfl
  toServer := holds_empty.send (joinMessage clientId)
  toClient := ⟨[], [], rfl, rfl, holds_empty⟩

variable {w : WireConn} {c : Conn}

theorem Shows.emit (h : w.Shows c) (out : TsClientState × List TsMessage) :
    (w.emit out).Shows (c.emit out) :=
  { h with
    client := rfl
    toServer := h.toServer.sendAll out.2 }

theorem Shows.push (h : w.Shows c) (m : TsMessage) (sendLock : Option ℕ) :
    WireConn.Shows { w with toClient := w.toClient.send m, sendLock := sendLock } (c.push m) :=
  { h with
    toClient := by
      obtain ⟨read, due, hmessages, hincoming, hholds⟩ := h.toClient
      refine ⟨read, due ++ [m], ?_, hincoming, hholds.send m⟩
      rw [Conn.push, hmessages, List.append_assoc] }

/-- A stream to the client that holds the same messages. -/
theorem Shows.withToClient (h : w.Shows c) {stream : Stream}
    (hstream : ∀ messages, w.toClient.Holds messages → stream.Holds messages) :
    WireConn.Shows { w with toClient := stream } c :=
  { h with
    toClient := by
      obtain ⟨read, due, hmessages, hincoming, hholds⟩ := h.toClient
      exact ⟨read, due, hmessages, hincoming, hstream due hholds⟩ }

/-- The client takes the next message. -/
theorem Shows.pop (h : w.Shows c) {message : TsMessage} {rest : List TsMessage}
    (hincoming : w.incoming = message :: rest) :
    ∃ m messages, c.toClient = m :: messages ∧ message = m.asReceived ∧
      WireConn.Shows { w with incoming := rest } { c with toClient := messages } := by
  obtain ⟨read, due, hmessages, hread, hholds⟩ := h.toClient
  rw [hincoming] at hread
  cases read with
  | nil => cases hread
  | cons m read =>
    obtain ⟨rfl, rfl⟩ := List.cons.inj hread
    exact ⟨m, read ++ due, hmessages, rfl, { h with toClient := ⟨read, due, rfl, rfl, hholds⟩ }⟩

/-- The reader takes the next line off the stream. -/
theorem Shows.readerRound (h : w.Shows c) (hcarried : ∀ m ∈ c.toClient, Carried m) {w' : WireConn}
    (hround : w.readerRound = some w') : w'.Shows c := by
  obtain ⟨read, due, hmessages, hincoming, hholds⟩ := h.toClient
  have hdue : ∀ m ∈ due, Carried m := by
    intro m hm
    refine hcarried m ?_
    rw [hmessages]
    exact List.mem_append_right _ hm
  unfold WireConn.readerRound at hround
  rw [if_pos h.reading] at hround
  split at hround
  · rename_i message rest hreturns
    obtain rfl := Option.some.inj hround
    obtain ⟨m, due', rfl, hresult, hrest⟩ := hholds.returns hdue hreturns
    obtain rfl := Except.ok.inj hresult
    refine { h with toClient := ⟨read ++ [m], due', ?_, ?_, hrest⟩ }
    · rw [hmessages, List.append_cons]
    · rw [hincoming, List.map_append, List.map_singleton]
  · rename_i error rest hreturns
    obtain ⟨m, due', -, hresult, -⟩ := hholds.returns hdue hreturns
    cases hresult
  · cases hround

end WireConn

/-! ## One step -/

namespace Wire

variable {w w' : Wire} {s : Sys} {i : ℕ}

theorem shows_setConn {w₀ : Wire} {s₀ : Sys} {wc : WireConn} {c : Conn}
    (h : ∀ j, (w.conns j).Shows (s.conns j)) (hw : w₀.conns = w.conns) (hs : s₀.conns = s.conns)
    (hc : wc.Shows c) (j : ℕ) : ((w₀.setConn i wc).conns j).Shows ((s₀.setConn i c).conns j) := by
  simp only [setConn, Sys.setConn, hw, hs]
  by_cases hj : j = i
  · rw [hj, Function.update_self, Function.update_self]
    exact hc
  · rw [Function.update_of_ne hj, Function.update_of_ne hj]
    exact h j

/-- Both sides replace a connection. -/
theorem Shows.setConn (h : w.Shows s) {wc : WireConn} {c : Conn} (hc : wc.Shows c) :
    (w.setConn i wc).Shows (s.setConn i c) :=
  ⟨h.server, h.clientsLock, h.accepted, h.pipe, h.saver, shows_setConn h.conns rfl rfl hc⟩

/-- The system does not see what the wire does. -/
theorem Shows.stay (h : w.Shows s) {wc : WireConn} (hc : wc.Shows (s.conns i)) :
    (w.setConn i wc).Shows s := by
  have hset := h.setConn (i := i) hc
  rwa [Sys.setConn, Function.update_eq_self] at hset

/-- A thread begins to send. -/
theorem Shows.sendTo (h : w.Shows s) {fd : ℕ} {message : TsMessage}
    (hsend : w.sendTo i fd message = some w') : w'.Shows (s.setConn fd ((s.conns fd).push message)) := by
  unfold Wire.sendTo at hsend
  split_ifs at hsend with hlock
  obtain rfl := Option.some.inj hsend
  have hmid : (w.setConn i { w.conns i with sending := some fd }).Shows s :=
    h.stay { h.conns i with }
  exact hmid.setConn ((hmid.conns fd).push message (some i))

/-- A thread begins an effect. -/
theorem Shows.perform (h : w.Shows s) {effect : Effect} {rest : List Effect}
    (hperform : w.perform i effect rest = some w') :
    ∃ s', s.perform i effect rest = some s' ∧ w'.Shows s' := by
  have hrest : WireConn.Shows { w.conns i with thread := rest } { s.conns i with thread := rest } :=
    { h.conns i with thread := rfl }
  cases effect with
  | send message =>
    have hsent := (h.setConn (i := i) hrest).sendTo hperform
    refine ⟨_, rfl, ?_⟩
    rw [Sys.setConn_conns_self] at hsent
    simpa only [Sys.setConn, Function.update_idem] using hsent
  | sendTo fd message => exact ⟨_, rfl, (h.setConn (i := i) hrest).sendTo hperform⟩
  | pipe event =>
    obtain rfl := Option.some.inj hperform
    refine ⟨_, rfl, h.server, h.clientsLock, h.accepted, ?_, h.saver,
      shows_setConn h.conns rfl rfl hrest⟩
    exact congrArg (· ++ [event]) h.pipe
  | register client =>
    simp only [Wire.perform] at hperform
    split_ifs at hperform with hlock
    obtain rfl := Option.some.inj hperform
    refine ⟨_, if_pos (h.clientsLock ▸ hlock), ?_, h.clientsLock, h.accepted, h.pipe, h.saver,
      shows_setConn h.conns rfl rfl hrest⟩
    exact congrArg (registerClient · client) h.server
  | snapshot =>
    obtain rfl := Option.some.inj hperform
    refine ⟨_, rfl, h.setConn { h.conns i with thread := ?_ }⟩
    rw [h.server]
  | broadcast message exclude =>
    simp only [Wire.perform] at hperform
    split_ifs at hperform with hlock
    obtain rfl := Option.some.inj hperform
    have hconn : WireConn.Shows
        { w.conns i with
          thread := (w.server.clients.filter fun client => client.clientId ≠ exclude).map
            (fun client => Effect.sendTo client.fd message) ++ Effect.unlock :: rest }
        { s.conns i with thread := Sys.broadcastSends s message exclude ++ Effect.unlock :: rest } :=
      { h.conns i with thread := by rw [h.server]; rfl }
    exact ⟨_, if_pos (h.clientsLock ▸ hlock), h.server, rfl, h.accepted, h.pipe, h.saver,
      shows_setConn h.conns rfl rfl hconn⟩
  | unlock =>
    obtain rfl := Option.some.inj hperform
    exact ⟨_, rfl, h.server, rfl, h.accepted, h.pipe, h.saver, shows_setConn h.conns rfl rfl hrest⟩

/-- A thread takes a message that has been cut off its buffer. -/
theorem Shows.take (h : w.Shows s) {c : WireConn} {m : TsMessage} {rest : List TsMessage}
    (hc : c.Shows { s.conns i with toServer := rest }) (htake : w.take i c m.asReceived = some w') :
    ∃ s', s.take i m rest = some s' ∧ w'.Shows s' := by
  have htype : m.asReceived.type = m.type := rfl
  have hid : m.asReceived.clientId = m.clientId := rfl
  have hpeer : c.peer = (s.conns i).peer := hc.peer
  have hphase : c.phase = (s.conns i).phase := hc.phase
  unfold Wire.take at htake
  unfold Sys.take
  rw [hphase] at htake
  cases hp : (s.conns i).phase with
  | closed =>
    rw [hp] at htake
    cases htake
  | joining =>
    simp only [hp, htype, hid, hpeer, h.clientsLock, h.server] at htake ⊢
    split_ifs at htake ⊢ with hjoin hlock
    · obtain ⟨⟨server, clientId⟩, hchoose, hw'⟩ := Option.bind_eq_some_iff.mp htake
      obtain rfl := Option.some.inj hw'
      refine ⟨_, Option.bind_eq_some_iff.mpr ⟨(server, clientId), hchoose, rfl⟩, rfl, rfl, h.accepted,
        h.pipe, h.saver, shows_setConn h.conns rfl rfl { hc with peer := rfl, phase := rfl, thread := rfl }⟩
    · obtain rfl := Option.some.inj htake
      exact ⟨_, rfl, h.setConn { hc with peer := rfl, phase := rfl, thread := rfl }⟩
  | serving =>
    simp only [hp, dispatch_asReceived, hpeer, h.server] at htake ⊢
    obtain ⟨⟨server, effects⟩, hdispatch, hw'⟩ := Option.bind_eq_some_iff.mp htake
    obtain rfl := Option.some.inj hw'
    exact ⟨_, Option.bind_eq_some_iff.mpr ⟨(server, effects), hdispatch, rfl⟩, rfl, h.clientsLock,
      h.accepted, h.pipe, h.saver, shows_setConn h.conns rfl rfl
        { hc with peer := rfl, phase := rfl, thread := rfl }⟩

/-- A thread that is not sending goes on. -/
theorem Shows.serve (h : w.Shows s) (hcarried : ∀ m ∈ (s.conns i).toServer, Carried m)
    (hserve : w.serve i = some w') : ∃ s', s.step (.serve i) = some s' ∧ w'.Shows s' := by
  have hi := h.conns i
  unfold Wire.serve at hserve
  simp only [hi.thread] at hserve
  simp only [Sys.step]
  cases hthread : (s.conns i).thread with
  | cons effect rest =>
    rw [hthread] at hserve
    exact h.perform hserve
  | nil =>
    simp only [hthread] at hserve
    split at hserve
    · rename_i message rest hround
      obtain ⟨m, messages, hmessages, hresult, hrest⟩ := hi.toServer.returns hcarried hround
      obtain rfl := Except.ok.inj hresult
      rw [hmessages]
      have hcut : WireConn.Shows
          { w.conns i with toServer := { (w.conns i).toServer with buffer := rest } }
          { s.conns i with toServer := messages } := { hi with toServer := hrest }
      exact h.take hcut hserve
    · rename_i error rest hround
      obtain ⟨m, messages, -, hresult, -⟩ := hi.toServer.returns hcarried hround
      cases hresult
    · cases hserve

/-- An action of the system is the same action with whole messages. -/
theorem Shows.act (h : w.Shows s) (hcarried : ∀ i, ∀ m ∈ (s.conns i).toServer, Carried m) {a : Action}
    (hact : w.act a = some w') : ∃ s', s.step a = some s' ∧ w'.Shows s' := by
  cases a with
  | connect clientId address =>
    obtain rfl := Option.some.inj hact
    refine ⟨_, rfl, h.server, h.clientsLock, congrArg (· + 1) h.accepted, h.pipe, h.saver, ?_⟩
    rw [h.accepted]
    exact shows_setConn h.conns rfl rfl (WireConn.shows_opened _ _ _)
  | key i op =>
    have hi := h.conns i
    simp only [Wire.act, h.accepted, hi.client] at hact
    split_ifs at hact with haccepted
    obtain ⟨out, hqueue, hw'⟩ := Option.bind_eq_some_iff.mp hact
    obtain rfl := Option.some.inj hw'
    refine ⟨_, ?_, h.setConn (c := { (s.conns i).emit out with
      queued := (s.conns i).queued ++ [newPending (s.conns i).client op] }) { hi.emit out with }⟩
    simp only [Sys.step, if_pos haccepted.1, hqueue]
    rfl
  | save i =>
    have hi := h.conns i
    simp only [Wire.act, h.accepted, hi.client] at hact
    split_ifs at hact with haccepted
    obtain rfl := Option.some.inj hact
    exact ⟨_, if_pos haccepted.1, h.setConn (hi.emit _)⟩
  | deliver i =>
    simp only [Wire.act] at hact
    split at hact
    · cases hact
    · rename_i message rest hincoming
      split_ifs at hact with hwritten
      obtain ⟨out, hhandle, hw'⟩ := Option.bind_eq_some_iff.mp hact
      obtain rfl := Option.some.inj hw'
      obtain ⟨m, messages, hmessages, rfl, hpop⟩ := (h.conns i).pop hincoming
      rw [handle_asReceived, (h.conns i).client] at hhandle
      refine ⟨_, ?_, h.setConn (c := { (s.conns i).emit out with
        toClient := messages, received := (s.conns i).received ++ [m] }) { hpop.emit out with }⟩
      simp only [Sys.step, hmessages, hhandle]
      rfl
  | serve i =>
    simp only [Wire.act] at hact
    split_ifs at hact
    exact h.serve (hcarried i) hact
  | saverTake written =>
    simp only [Wire.act, h.pipe] at hact
    simp only [Sys.step]
    cases hpipe : s.pipe with
    | nil =>
      rw [hpipe] at hact
      cases hact
    | cons event rest =>
      rw [hpipe] at hact
      obtain rfl := Option.some.inj hact
      exact ⟨_, rfl, h.server, h.clientsLock, h.accepted, rfl,
        congrArg (SaverState.handle · event written) h.saver, h.conns⟩
  | saverTimer written =>
    obtain rfl := Option.some.inj hact
    exact ⟨_, rfl, h.server, h.clientsLock, h.accepted, h.pipe,
      congrArg (SaverState.timer · written) h.saver, h.conns⟩

/-- What the transports do is not seen by the system. -/
theorem Shows.transport (h : w.Shows s) (hcarried : ∀ i, ∀ m ∈ (s.conns i).toClient, Carried m)
    {capacity : ℕ} {a : WireAction} (ha : a.action? = none) (hstep : w.step capacity a = some w') :
    w'.Shows s := by
  cases a with
  | act action => cases ha
  | clientWrite i n =>
    simp only [step] at hstep
    split_ifs at hstep
    obtain rfl := Option.some.inj hstep
    exact h.stay { h.conns i with toServer := (h.conns i).toServer.write n }
  | serverRead i n =>
    simp only [step] at hstep
    split_ifs at hstep
    obtain rfl := Option.some.inj hstep
    exact h.stay { h.conns i with toServer := (h.conns i).toServer.read n }
  | serverWrite i n =>
    simp only [step] at hstep
    split at hstep
    · cases hstep
    · rename_i fd hsending
      split_ifs at hstep
      obtain rfl := Option.some.inj hstep
      exact h.stay ((h.conns fd).withToClient fun _ hholds => hholds.write n)
  | serverSent i =>
    simp only [step] at hstep
    split at hstep
    · cases hstep
    · rename_i fd hsending
      split_ifs at hstep
      obtain rfl := Option.some.inj hstep
      have hmid : (w.setConn fd { w.conns fd with sendLock := none }).Shows s :=
        h.stay { h.conns fd with }
      exact hmid.stay { hmid.conns i with }
  | clientRead i n =>
    simp only [step] at hstep
    split_ifs at hstep
    obtain rfl := Option.some.inj hstep
    exact h.stay ((h.conns i).withToClient fun _ hholds => hholds.read n)
  | clientReceive i =>
    obtain ⟨c, hround, rfl⟩ := Option.map_eq_some_iff.mp hstep
    exact h.stay ((h.conns i).readerRound (hcarried i) hround)

/-- A step on the wire is the step of the system that it names, or none. -/
theorem Shows.step (h : w.Shows s) (hs : Sys.AllCarried s) {capacity : ℕ} {a : WireAction}
    (hstep : w.step capacity a = some w') :
    ∃ s', run Sys.step s a.action?.toList = some s' ∧ w'.Shows s' := by
  cases haction : a.action? with
  | none => exact ⟨s, rfl, h.transport (fun i => (hs.conns i).toClient) haction hstep⟩
  | some action =>
    cases a with
    | act action' =>
      obtain rfl := Option.some.inj haction
      obtain ⟨s', hs', hshows⟩ := h.act (fun i m hm => ((hs.conns i).toServer m hm).1) hstep
      exact ⟨s', run_cons_some.mpr ⟨s', hs', rfl⟩, hshows⟩
    | _ => cases haction

theorem shows_init (text : Bytes) (limit : ℕ) (path : Bytes) :
    (init text limit path).Shows (Sys.init text limit path) :=
  ⟨rfl, rfl, rfl, rfl, rfl, fun _ => WireConn.shows_none⟩

/-- The system takes the step that an action on the wire names, or it stays. -/
theorem action_cases {a : WireAction} {s' : Sys} (h : run Sys.step s a.action?.toList = some s') :
    (a.action? = none ∧ s' = s) ∨ ∃ action, a = .act action ∧ s.step action = some s' := by
  cases a with
  | act action =>
    obtain ⟨t, ht, hnil⟩ := run_cons_some.mp h
    obtain rfl := Option.some.inj hnil
    exact Or.inr ⟨action, rfl, ht⟩
  | _ => exact Or.inl ⟨rfl, (Option.some.inj h).symm⟩

/-- The state with whole messages in every state on the wire. -/
theorem exists_shows {text : Bytes} {limit capacity : ℕ} {path : Bytes} {actions : List WireAction}
    {w : Wire} (htext : ValidText text)
    (hguard : Guarded (step capacity) Wire.Carries (init text limit path) actions)
    (hrun : run (step capacity) (init text limit path) actions = some w) :
    ∃ s, run Sys.step (Sys.init text limit path) (actions.filterMap WireAction.action?) = some s ∧
      w.Shows s ∧ Sys.AllCarried s := by
  refine exists_run_filterMap (R := fun w s => w.Shows s ∧ Sys.AllCarried s)
    (fun w a w' s hR ha hstep => ?_) ⟨shows_init text limit path, Sys.allCarried_init htext limit path⟩
    hguard hrun
  obtain ⟨hshows, hs⟩ := hR
  obtain ⟨s', hs', hshows'⟩ := hshows.step hs hstep
  refine ⟨s', hs', hshows', ?_⟩
  rcases action_cases hs' with ⟨-, rfl⟩ | ⟨action, rfl, haction⟩
  · exact hs
  · have hcarries : s.server.Carries action := hshows.server ▸ ha
    exact hs.step hcarries haction

/-- However the bytes are written and read, the system on the wire is in a state that the system with whole
messages reaches by the same actions in the same order. In particular nobody is refused: every line is
received as the message that was sent. -/
theorem wire_refines_sys (text : Bytes) (limit : ℕ) (path : Bytes) (capacity : ℕ)
    (actions : List WireAction) (w : Wire) (htext : ValidText text)
    (hguard : Guarded (step capacity) Wire.Carries (init text limit path) actions)
    (hrun : run (step capacity) (init text limit path) actions = some w) :
    ∃ s, run Sys.step (Sys.init text limit path) (actions.filterMap WireAction.action?) = some s ∧
      w.Shows s := by
  obtain ⟨s, hs, hshows, -⟩ := exists_shows htext hguard hrun
  exact ⟨s, hs, hshows⟩

/-! ## A run -/

/-- What the condition on a run asks of the action alone. -/
def Clean : WireAction → Prop
  | .act (.connect clientId _) => ∀ b ∈ clientId, b ≠ 0
  | .act (.key _ op) => WellFormedOp op ∧ SentOperation op
  | _ => True

/-- What the condition on a run asks of the state. -/
def roomFor (w : Wire) : WireAction → Bool
  | .act (.key _ op) => (op.pos + w.server.document.historyLimit : ℤ) ≤ intMax
  | .act (.serve _) => docStateLength w.server.document ≤ tsMaxLineBytes
  | _ => true

theorem carries_of_roomFor (w : Wire) (a : WireAction) (h : Clean a ∧ w.roomFor a = true) :
    w.Carries a := by
  obtain ⟨hclean, hroom⟩ := h
  cases a with
  | act action =>
    cases action with
    | connect clientId address => exact hclean
    | key i op => exact ⟨hclean.1, hclean.2, of_decide_eq_true hroom⟩
    | serve i =>
      have hfits : docStateLength w.server.document ≤ tsMaxLineBytes := of_decide_eq_true hroom
      exact hfits
    | save i => trivial
    | deliver i => trivial
    | saverTake written => trivial
    | saverTimer written => trivial
  | _ => trivial

/-- A client joins over sockets that hold 64 bytes and types a character. -/
def annTypes : List WireAction :=
  [.act (.connect (bytes "ann") (bytes "a")), .clientWrite 0 9, .serverRead 0 5, .clientWrite 0 25,
    .serverRead 0 29, .act (.serve 0), .act (.serve 0), .act (.serve 0), .serverWrite 0 20,
    .clientRead 0 1, .serverWrite 0 17, .serverSent 0, .act (.serve 0), .act (.serve 0),
    .serverWrite 0 24, .clientRead 0 50, .serverWrite 0 50, .serverSent 0, .clientReceive 0,
    .clientRead 0 60, .clientReceive 0, .act (.serve 0), .act (.deliver 0), .act (.deliver 0),
    .act (.key 0 (tsOperationInit .insert 1 (bytes "x"))), .clientWrite 0 50]

theorem clean_annTypes : ∀ a ∈ annTypes, Clean a := by
  have hx := wellFormed_insert (c := 'x') (by decide) 1
  have hsent : SentOperation (tsOperationInit .insert 1 (bytes "x")) := by
    constructor <;> decide
  have hann : ∀ b ∈ bytes "ann", b ≠ 0 := by decide
  simp only [annTypes, List.forall_mem_cons, List.not_mem_nil, false_implies, implies_true, Clean,
    and_true, true_and]
  exact ⟨hann, hx, hsent⟩

theorem guarded_annTypes : Guarded (step 64) Wire.Carries (init (bytes "ab") 10 (bytes "f")) annTypes := by
  have hroom : Guarded (step 64) (fun w a => w.roomFor a = true) (init (bytes "ab") 10 (bytes "f"))
      annTypes := by decide +kernel
  exact ((Guarded.of_forall clean_annTypes).and hroom).imp carries_of_roomFor

/-- Some bytes of the OP have been written and others have not. -/
theorem wire_refines_sys_annTypes : ∃ w s,
    run (step 64) (init (bytes "ab") 10 (bytes "f")) annTypes = some w ∧
      run Sys.step (Sys.init (bytes "ab") 10 (bytes "f")) (annTypes.filterMap WireAction.action?) =
        some s ∧ w.Shows s ∧ (w.conns 0).toServer.socket.length = 50 ∧
      (w.conns 0).toServer.unwritten ≠ [] := by
  have hany : (run (step 64) (init (bytes "ab") 10 (bytes "f")) annTypes).any (fun w => decide
      ((w.conns 0).toServer.socket.length = 50 ∧ (w.conns 0).toServer.unwritten ≠ [])) = true := by
    decide +kernel
  obtain ⟨w, hrun, hw⟩ := (Option.any_eq_true _ _).mp hany
  have htext : ValidText (bytes "ab") := ⟨['a', 'b'], by decide, by decide⟩
  obtain ⟨s, hs, hshows⟩ :=
    wire_refines_sys (bytes "ab") 10 (bytes "f") 64 annTypes w htext guarded_annTypes hrun
  exact ⟨w, s, hrun, hs, hshows, of_decide_eq_true hw⟩

end Wire

end TermSync
