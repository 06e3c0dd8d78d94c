import TermSync.Proofs.ByteOffsetProofs
import TermSync.Proofs.RestProofs
import TermSync.Proofs.WireProofs

/-!
# Proofs: the wire left alone

Every step on the wire either does some of the work that the system has left or moves bytes that are on
their way (`Running.work_step`). The sockets may be as small as one byte: a thread that waits for room in a
socket waits for a reader, which never waits for a lock, and whoever holds a lock is such a thread or can go
on (`Running.atRest_or_exists_step`).
-/

namespace TermSync

open Foundations

/-! ## Streams -/

theorem Stream.Holds.eq_nil {messages : List TsMessage} (h : Stream.empty.Holds messages) :
    messages = [] := by
  cases messages with
  | nil => rfl
  | cons m messages =>
    unfold Stream.Holds at h
    rw [List.map_cons, framed_cons] at h
    exact absurd h (by simp [Stream.empty])

theorem Stream.Holds.eq_empty {stream : Stream} (h : stream.Holds []) : stream = .empty := by
  obtain ⟨unwritten, socket, buffer⟩ := stream
  unfold Stream.Holds at h
  obtain ⟨hleft, hunwritten⟩ := List.append_eq_nil_iff.mp h
  obtain ⟨hbuffer, hsocket⟩ := List.append_eq_nil_iff.mp hleft
  simp only at hunwritten hbuffer hsocket
  rw [hunwritten, hsocket, hbuffer]
  rfl

/-- A round that returns has cut a line off the buffer. -/
theorem length_rest_lt {errorSize : ℕ} {buffer rest : Bytes} {m : TsMessage}
    (h : recvRound errorSize buffer = .returns (.ok m) rest) : rest.length < buffer.length := by
  unfold recvRound at h
  split at h
  · rename_i line rest' hcut
    obtain ⟨-, rfl⟩ := RecvRound.returns.inj h
    rw [(cutLine_eq_some hcut).1, List.length_append, List.length_cons]
    omega
  · split_ifs at h
    have := (RecvRound.returns.inj h).1
    cases this

/-- While a line is not complete in the buffer, there is room to read on, and something to read. -/
theorem Stream.Holds.reads {stream : Stream} {messages : List TsMessage} {errorSize room : ℕ}
    (h : stream.Holds messages) (hcarried : ∀ m ∈ messages, Carried m)
    (hround : recvRound errorSize stream.buffer = .reads room) :
    0 < room ∧ (messages ≠ [] → stream.socket ++ stream.unwritten ≠ []) := by
  unfold Stream.Holds at h
  rw [List.append_assoc] at h
  cases messages with
  | nil =>
    rw [(List.append_eq_nil_iff.mp h).1] at hround
    cases hround
    exact ⟨by decide, fun hne => absurd rfl hne⟩
  | cons m messages =>
    rw [List.map_cons, framed_cons] at h
    have hm := length_lineOf (hcarried m List.mem_cons_self).fits
    rcases recvRound_line (tsEncodeMessage_eq_line m).2 hm errorSize h with
      ⟨rest, -, -, hreturns⟩ | ⟨hcut, hle, hreads⟩
    · exact absurd (hreturns.symm.trans hround) (by simp)
    · obtain rfl := RecvRound.reads.inj (hreads.symm.trans hround)
      refine ⟨by omega, fun _ hnil => ?_⟩
      rw [hnil, List.append_nil] at h
      rw [h, cutLine_append (tsEncodeMessage_eq_line m).2.not_mem] at hcut
      cases hcut

theorem Stream.work_send (stream : Stream) (m : TsMessage) :
    (stream.send m).work = stream.work + 3 * (tsEncodeMessage m).length := by
  simp only [Stream.work, Stream.send, List.length_append]
  omega

theorem Stream.work_write {stream : Stream} {n : ℕ} (hpos : 0 < n) (hn : n ≤ stream.unwritten.length) :
    (stream.write n).work < stream.work := by
  simp only [Stream.work, Stream.write, List.length_append, List.length_take, List.length_drop]
  omega

theorem Stream.work_read {stream : Stream} {n : ℕ} (hpos : 0 < n) (hn : n ≤ stream.socket.length) :
    (stream.read n).work < stream.work := by
  simp only [Stream.work, Stream.read, List.length_append, List.length_take, List.length_drop]
  omega

/-- At most one message is sent. -/
theorem Stream.work_sendAll (stream : Stream) {out : List TsMessage} (hone : out.length ≤ 1)
    (hcarried : ∀ m ∈ out, Carried m) :
    (out.foldl Stream.send stream).work ≤ stream.work + 3 * tsMaxLineBytes := by
  cases out with
  | nil => exact Nat.le_add_right _ _
  | cons m out =>
    obtain rfl : out = [] := List.eq_nil_of_length_eq_zero (by rw [List.length_cons] at hone; omega)
    have hfits := (hcarried m List.mem_cons_self).fits
    rw [List.foldl_cons, List.foldl_nil, Stream.work_send]
    omega

/-! ## What the client and the server add -/

/-- A client answers a message with one message at most. -/
theorem length_handle_le {state : TsClientState} {message : TsMessage}
    {out : TsClientState × List TsMessage}
    (h : tsClientStateHandleMessage state message = some out) : out.2.length ≤ 1 := by
  have hpump (state : TsClientState) : (statePump state).2.length ≤ 1 := by
    rcases pump_cases state with ⟨-, hpump⟩ | ⟨next, queue, -, -, hpump⟩ <;> rw [hpump] <;> simp
  cases handleOutcome h with
  | docState => exact hpump _
  | ack => exact hpump _
  | missedRemote => exact le_rfl
  | resync => exact le_rfl
  | _ => exact Nat.zero_le _

/-- Escaping works on each part of a text. -/
theorem length_jsonEscape_append (a b : Bytes) :
    (jsonEscape (a ++ b)).length = (jsonEscape a).length + (jsonEscape b).length := by
  simp only [jsonEscape, List.flatMap_append, List.length_append]

theorem length_jsonEscape_split (n : ℕ) (text : Bytes) :
    (jsonEscape (text.take n)).length + (jsonEscape (text.drop n)).length =
      (jsonEscape text).length := by
  rw [← length_jsonEscape_append, List.take_append_drop]

/-- Applying an operation lengthens the escaped text by the escaped character at most. -/
theorem length_jsonEscape_apply {text updated : Bytes} {op : TsOperation} (htext : ∀ b ∈ text, b ≠ 0)
    (h : tsApplyOperationToText text op = some updated) :
    (jsonEscape updated).length ≤ (jsonEscape text).length + (jsonEscape op.ch).length := by
  unfold tsApplyOperationToText at h
  cases hkind : op.kind with
  | noop =>
    rw [hkind, Option.some.injEq] at h
    rw [← h]
    omega
  | invalid =>
    rw [hkind, Option.some.injEq] at h
    rw [← h]
    omega
  | insert =>
    rw [hkind] at h
    obtain ⟨bytePos, -, hupdated⟩ := Option.bind_eq_some_iff.mp h
    have := length_jsonEscape_split bytePos text
    rw [← Option.some.inj hupdated, length_jsonEscape_append, length_jsonEscape_append]
    omega
  | delete =>
    rw [hkind] at h
    simp only at h
    split_ifs at h with hpos
    · rw [← Option.some.inj h]
      omega
    · obtain ⟨bytePos, hbyte, h⟩ := Option.bind_eq_some_iff.mp h
      obtain ⟨nextByte, hnext, hupdated⟩ := Option.bind_eq_some_iff.mp h
      -- the rest of the text is a part of what stood behind the position
      have hle := tsUtf8ByteOffset_mono htext (Nat.le_succ op.pos) hbyte hnext
      have hrest : text.drop nextByte = (text.drop bytePos).drop (nextByte - bytePos) := by
        rw [List.drop_drop]
        congr 1
        omega
      have hfirst := length_jsonEscape_split bytePos text
      have hsecond := length_jsonEscape_split (nextByte - bytePos) (text.drop bytePos)
      rw [← Option.some.inj hupdated, length_jsonEscape_append, hrest]
      omega

namespace Sys

/-- A step lengthens the escaped text by a character at most. -/
theorem length_jsonEscape_step {s s' : Sys} {a : Action} (hs : AllCarried s) (h : s.step a = some s') :
    (jsonEscape s'.server.document.text).length ≤ (jsonEscape s.server.document.text).length + 42 := by
  cases stepOutcome h with
  | join i message rest server clientId hthread hin hphase htype hlock hchoose =>
    rw [setConn_server]
    dsimp only
    rw [(chooseClientId_server hchoose).2]
    omega
  | op i message rest document result hthread hin hphase htype hprocess =>
    rw [setConn_server]
    rw [processMessage_eq] at hprocess
    have hmem : message ∈ (s.conns i).toServer := by
      rw [hin]
      exact List.mem_cons_self
    have hop := (hs.truthful.reached.pipeline i).incoming.hasOp hphase hmem htype
    have hplaced := ((hs.conns i).toServer message hmem).2 hop
    have hcall : (callOf (s.conns i).peer message).op = some message.op := by rw [callOf, if_pos hop]
    cases processOutcome hprocess with
    | error => exact Nat.le_add_right _ _
    | resync => exact Nat.le_add_right _ _
    | ok op updated hsome _ _ _ _ happly =>
      obtain rfl := Option.some.inj (hcall.symm.trans hsome)
      have hch := (hs.document.1.sent_transformedOp hplaced message.baseVersion).ch.1
      have hescaped := length_jsonEscape_le
        (transformedOp s.server.document message.baseVersion message.op).ch
      have happlied := length_jsonEscape_apply hs.document.2.2 happly
      simp only [tsMaxUtf8Char] at hch
      simp only [callOf] at happlied
      change (jsonEscape updated).length ≤ _
      omega
  | _ => exact Nat.le_add_right _ _

/-- Room in the line covers every state that can still follow. -/
theorem LineRoom.fits {s : Sys} (hs : s.LineRoom) (hdoc : DocInv s.server.document) :
    docStateLength s.server.document ≤ tsMaxLineBytes := by
  have hprintable := hdoc.printable
  have hversion : (formatInt s.server.document.version).length ≤ 11 :=
    length_formatInt_le (by
      have := hprintable.start_nonneg
      have := hprintable.start_le
      simp only [intMin]
      omega) hprintable.version_le
  have hstart : (formatInt s.server.document.historyStartVersion).length ≤ 11 :=
    length_formatInt_le (by
      have := hprintable.start_nonneg
      simp only [intMin]
      omega) (hprintable.start_le.trans hprintable.version_le)
  unfold LineRoom at hs
  unfold docStateLength
  omega

end Sys

namespace Wire

variable {w w' w₀ : Wire} {s : Sys} {i : ℕ}

/-! ## The locks of the transports -/

/-- Whoever holds `send_lock` of a transport is sending on it, and a transport that nobody holds has nothing
left to write. -/
structure Locked (w : Wire) : Prop where
  holder : ∀ fd i, (w.conns fd).sendLock = some i →
    (w.conns i).sending = some fd ∧ i < w.accepted ∧ fd < w.accepted
  sender : ∀ i fd, (w.conns i).sending = some fd → (w.conns fd).sendLock = some i
  written : ∀ fd, (w.conns fd).sendLock = none → (w.conns fd).toClient.unwritten = []

theorem locked_init (text : Bytes) (limit : ℕ) (path : Bytes) : Locked (init text limit path) where
  holder fd i h := by cases h
  sender i fd h := by cases h
  written fd _ := rfl

theorem setConn_conns_self (w : Wire) (i : ℕ) (c : WireConn) : (w.setConn i c).conns i = c :=
  Function.update_self ..

theorem setConn_conns_of_ne (w : Wire) {i j : ℕ} (h : j ≠ i) (c : WireConn) :
    (w.setConn i c).conns j = w.conns j := Function.update_of_ne h ..

/-- Replacing a connection without its locks. -/
theorem Locked.set (h : Locked w) (hconns : w₀.conns = w.conns) (haccepted : w₀.accepted = w.accepted)
    {c : WireConn} (hlock : c.sendLock = (w.conns i).sendLock)
    (hsending : c.sending = (w.conns i).sending)
    (hwritten : c.sendLock = none → c.toClient.unwritten = []) : Locked (w₀.setConn i c) := by
  have hlocks (j : ℕ) : ((w₀.setConn i c).conns j).sendLock = (w.conns j).sendLock := by
    by_cases hj : j = i
    · rw [hj, setConn_conns_self, hlock]
    · rw [setConn_conns_of_ne w₀ hj, hconns]
  have hsendings (j : ℕ) : ((w₀.setConn i c).conns j).sending = (w.conns j).sending := by
    by_cases hj : j = i
    · rw [hj, setConn_conns_self, hsending]
    · rw [setConn_conns_of_ne w₀ hj, hconns]
  constructor
  · intro fd j hj
    rw [hlocks] at hj
    rw [hsendings]
    exact haccepted ▸ h.holder fd j hj
  · intro j fd hj
    rw [hsendings] at hj
    rw [hlocks]
    exact h.sender j fd hj
  · intro fd hfd
    by_cases hj : fd = i
    · subst hj
      rw [setConn_conns_self] at hfd ⊢
      exact hwritten hfd
    · rw [setConn_conns_of_ne w₀ hj, hconns] at hfd ⊢
      exact h.written fd hfd

/-- Replacing a connection without its locks and what is left to write to the client. -/
theorem Locked.set_same (h : Locked w) (hconns : w₀.conns = w.conns)
    (haccepted : w₀.accepted = w.accepted) {c : WireConn} (hlock : c.sendLock = (w.conns i).sendLock)
    (hsending : c.sending = (w.conns i).sending)
    (hunwritten : c.toClient.unwritten = (w.conns i).toClient.unwritten) : Locked (w₀.setConn i c) := by
  refine h.set hconns haccepted hlock hsending fun hnone => ?_
  rw [hunwritten]
  exact h.written i (hlock ▸ hnone)

/-- A new connection is not locked. -/
theorem Locked.connect (h : Locked w) (clientId address : Bytes) :
    Locked ({ w with accepted := w.accepted + 1 }.setConn w.accepted
      (WireConn.opened w.accepted clientId address)) := by
  have hlock : (w.conns w.accepted).sendLock = none := by
    cases hnone : (w.conns w.accepted).sendLock with
    | none => rfl
    | some i =>
      have := (h.holder _ i hnone).2.2
      omega
  have hsending : (w.conns w.accepted).sending = none := by
    cases hnone : (w.conns w.accepted).sending with
    | none => rfl
    | some fd =>
      have := (h.holder fd _ (h.sender _ fd hnone)).2.1
      omega
  have hset : Locked (w.setConn w.accepted (WireConn.opened w.accepted clientId address)) :=
    h.set rfl rfl (by rw [hlock]; rfl) (by rw [hsending]; rfl) fun _ => rfl
  exact
    { holder := fun fd i hi => by
        obtain ⟨hsend, hlt, hlt'⟩ := hset.holder fd i hi
        exact ⟨hsend, Nat.lt_succ_of_lt hlt, Nat.lt_succ_of_lt hlt'⟩
      sender := hset.sender
      written := hset.written }

/-- A thread begins to send. -/
theorem Locked.sendTo (h : Locked w) {fd : ℕ} {message : TsMessage} (hi : i < w.accepted)
    (hfd : fd < w.accepted) (hsending : (w.conns i).sending = none)
    (hsend : w.sendTo i fd message = some w') : Locked w' := by
  unfold Wire.sendTo at hsend
  split_ifs at hsend with hlock
  obtain rfl := Option.some.inj hsend
  dsimp only
  generalize hw₀ : w.setConn i { w.conns i with sending := some fd } = w₀
  have hconn (j : ℕ) : (w₀.conns j).sendLock = (w.conns j).sendLock ∧
      (w₀.conns j).toClient = (w.conns j).toClient ∧
      (w₀.conns j).sending = if j = i then some fd else (w.conns j).sending := by
    rw [← hw₀]
    by_cases hj : j = i
    · rw [hj, setConn_conns_self, if_pos rfl]
      exact ⟨rfl, rfl, rfl⟩
    · rw [setConn_conns_of_ne w hj, if_neg hj]
      exact ⟨rfl, rfl, rfl⟩
  have haccepted : w₀.accepted = w.accepted := by
    rw [← hw₀]
    rfl
  generalize hc : ({ w₀.conns fd with
    toClient := (w₀.conns fd).toClient.send message, sendLock := some i } : WireConn) = c
  have hsendings (j : ℕ) : ((w₀.setConn fd c).conns j).sending =
      if j = i then some fd else (w.conns j).sending := by
    by_cases hj : j = fd
    · rw [hj, setConn_conns_self, ← hc]
      exact (hconn fd).2.2
    · rw [setConn_conns_of_ne w₀ hj]
      exact (hconn j).2.2
  constructor
  · intro fd' j hj
    rw [hsendings]
    by_cases hfd' : fd' = fd
    · rw [hfd', setConn_conns_self, ← hc] at hj
      obtain rfl := Option.some.inj hj
      rw [if_pos rfl, hfd']
      exact ⟨rfl, haccepted.symm ▸ hi, haccepted.symm ▸ hfd⟩
    · rw [setConn_conns_of_ne w₀ hfd', (hconn fd').1] at hj
      obtain ⟨hsend', hj', hfd''⟩ := h.holder fd' j hj
      have hne : j ≠ i := by
        rintro rfl
        rw [hsending] at hsend'
        cases hsend'
      rw [if_neg hne]
      exact ⟨hsend', haccepted.symm ▸ hj', haccepted.symm ▸ hfd''⟩
  · intro j fd' hj
    rw [hsendings] at hj
    split_ifs at hj with hji
    · obtain rfl := Option.some.inj hj
      rw [setConn_conns_self, ← hc, hji]
    · have hlock' := h.sender j fd' hj
      have hne : fd' ≠ fd := by
        rintro rfl
        rw [hlock] at hlock'
        cases hlock'
      rw [setConn_conns_of_ne w₀ hne, (hconn fd').1]
      exact hlock'
  · intro fd' hnone
    by_cases hfd' : fd' = fd
    · rw [hfd', setConn_conns_self, ← hc] at hnone
      cases hnone
    · rw [setConn_conns_of_ne w₀ hfd'] at hnone ⊢
      rw [(hconn fd').1] at hnone
      rw [(hconn fd').2.1]
      exact h.written fd' hnone

/-- A thread has sent a line. -/
theorem Locked.sent (h : Locked w) {fd : ℕ} (hlock : (w.conns fd).sendLock = some i)
    (hunwritten : (w.conns fd).toClient.unwritten = []) :
    let w₀ := w.setConn fd { w.conns fd with sendLock := none }
    Locked (w₀.setConn i { w₀.conns i with sending := none }) := by
  intro w₀
  have hlocks (j : ℕ) : (w₀.conns j).sendLock = (if j = fd then none else (w.conns j).sendLock) ∧
      (w₀.conns j).toClient = (w.conns j).toClient ∧ (w₀.conns j).sending = (w.conns j).sending := by
    by_cases hj : j = fd
    · rw [hj, if_pos rfl]
      simp only [w₀, setConn_conns_self, and_self]
    · rw [if_neg hj]
      simp only [w₀]
      rw [setConn_conns_of_ne w hj]
      exact ⟨rfl, rfl, rfl⟩
  have hconn (j : ℕ) : ((w₀.setConn i { w₀.conns i with sending := none }).conns j).sendLock =
        (w₀.conns j).sendLock ∧
      ((w₀.setConn i { w₀.conns i with sending := none }).conns j).toClient = (w₀.conns j).toClient ∧
      ((w₀.setConn i { w₀.conns i with sending := none }).conns j).sending =
        if j = i then none else (w₀.conns j).sending := by
    by_cases hj : j = i
    · rw [hj, setConn_conns_self, if_pos rfl]
      exact ⟨rfl, rfl, rfl⟩
    · rw [setConn_conns_of_ne w₀ hj, if_neg hj]
      exact ⟨rfl, rfl, rfl⟩
  constructor
  · intro fd' j hj
    rw [(hconn fd').1, (hlocks fd').1] at hj
    split_ifs at hj with hfd'
    obtain ⟨hsend, hlt⟩ := h.holder fd' j hj
    have hne : j ≠ i := by
      rintro rfl
      exact hfd' (Option.some.inj (hsend.symm.trans (h.holder fd j hlock).1))
    rw [(hconn j).2.2, if_neg hne, (hlocks j).2.2]
    exact ⟨hsend, hlt⟩
  · intro j fd' hj
    rw [(hconn j).2.2] at hj
    split_ifs at hj with hji
    rw [(hlocks j).2.2] at hj
    have hlock' := h.sender j fd' hj
    have hne : fd' ≠ fd := by
      rintro rfl
      exact hji (Option.some.inj (hlock'.symm.trans hlock))
    rw [(hconn fd').1, (hlocks fd').1, if_neg hne]
    exact hlock'
  · intro fd' hnone
    rw [(hconn fd').1, (hlocks fd').1] at hnone
    rw [(hconn fd').2.1, (hlocks fd').2.1]
    split_ifs at hnone with hfd'
    · rw [hfd']
      exact hunwritten
    · exact h.written fd' hnone

/-! ## What an effect does on the wire -/

/-- The outcomes of an effect: a thread begins to send, or the transports stay as they are. -/
inductive PerformOutcome (w : Wire) (i : ℕ) (rest : List Effect) : Effect → Wire → Prop
  | send (fd : ℕ) (message : TsMessage) (effect : Effect) (w' : Wire)
      (heffect : effect = .send message ∧ fd = i ∨ effect = .sendTo fd message)
      (hsend : (w.setConn i { w.conns i with thread := rest }).sendTo i fd message = some w') :
      PerformOutcome w i rest effect w'
  | other (effect : Effect) (w₀ : Wire) (thread : List Effect) (hconns : w₀.conns = w.conns)
      (haccepted : w₀.accepted = w.accepted) :
      PerformOutcome w i rest effect (w₀.setConn i { w.conns i with thread := thread })

theorem performOutcome {effect : Effect} {rest : List Effect}
    (h : w.perform i effect rest = some w') : PerformOutcome w i rest effect w' := by
  cases effect with
  | send message => exact .send i message _ w' (Or.inl ⟨rfl, rfl⟩) h
  | sendTo fd message => exact .send fd message _ w' (Or.inr rfl) h
  | pipe event =>
    obtain rfl := Option.some.inj h
    exact .other _ _ rest rfl rfl
  | register client =>
    simp only [perform] at h
    split_ifs at h
    obtain rfl := Option.some.inj h
    exact .other _ _ rest rfl rfl
  | snapshot =>
    obtain rfl := Option.some.inj h
    exact .other _ _ _ rfl rfl
  | broadcast message exclude =>
    simp only [perform] at h
    split_ifs at h
    obtain rfl := Option.some.inj h
    exact .other _ _ _ rfl rfl
  | unlock =>
    obtain rfl := Option.some.inj h
    exact .other _ _ rest rfl rfl

/-- Taking a message leaves the transports of the connection as they are. -/
theorem take_outcome {c : WireConn} {message : TsMessage} (h : w.take i c message = some w') :
    ∃ (w₀ : Wire) (peer : TsClientConnection) (phase : Phase) (thread : List Effect),
      w₀.conns = w.conns ∧ w₀.accepted = w.accepted ∧
      w' = w₀.setConn i { c with peer := peer, phase := phase, thread := thread } := by
  unfold take at h
  split at h
  · cases h
  · split_ifs at h
    · obtain ⟨⟨server, clientId⟩, -, hw'⟩ := Option.bind_eq_some_iff.mp h
      obtain rfl := Option.some.inj hw'
      exact ⟨{ w with server := server }, _, _, _, rfl, rfl, rfl⟩
    · obtain rfl := Option.some.inj h
      exact ⟨w, c.peer, _, _, rfl, rfl, rfl⟩
  · obtain ⟨⟨server, effects⟩, -, hw'⟩ := Option.bind_eq_some_iff.mp h
    obtain rfl := Option.some.inj hw'
    exact ⟨{ w with server := server }, c.peer, c.phase, _, rfl, rfl, rfl⟩

/-! ## What holds of every state -/

/-- What every state on the wire has, beside the state with whole messages. -/
structure Sound (w : Wire) (s : Sys) : Prop where
  shows : w.Shows s
  carried : Sys.AllCarried s
  going : Sys.Going s
  locked : Locked w

theorem Sound.wired (h : Sound w s) : Sys.Wired s := h.going.truthful.reached.wired

/-- A connection with something on its way exists. -/
theorem Sound.lt_of_toServer (h : Sound w s) (hne : (w.conns i).toServer ≠ .empty) : i < w.accepted := by
  rw [h.shows.accepted]
  refine h.wired.lt_of_ne (Or.inr (Or.inl fun hnil => hne ?_))
  have hholds := (h.shows.conns i).toServer
  rw [hnil] at hholds
  exact hholds.eq_empty

theorem Sound.lt_of_toClient (h : Sound w s)
    (hne : (w.conns i).toClient ≠ .empty ∨ (w.conns i).incoming ≠ []) : i < w.accepted := by
  rw [h.shows.accepted]
  refine h.wired.lt_of_ne (Or.inr (Or.inr fun hnil => ?_))
  obtain ⟨read, due, hmessages, hincoming, hholds⟩ := (h.shows.conns i).toClient
  rw [hnil] at hmessages
  obtain ⟨rfl, rfl⟩ := List.append_eq_nil_iff.mp hmessages.symm
  rcases hne with hne | hne
  · exact hne hholds.eq_empty
  · exact hne hincoming

theorem Sound.lt_of_thread (h : Sound w s) (hne : (w.conns i).thread ≠ []) : i < w.accepted := by
  rw [h.shows.accepted]
  rw [(h.shows.conns i).thread] at hne
  exact h.wired.lt_of_ne (Or.inl hne)

/-- An effect sends to a connection that exists. -/
theorem Sound.lt_of_effect (h : Sound w s) {effect : Effect} {rest : List Effect} {fd : ℕ}
    {message : TsMessage} (hthread : (w.conns i).thread = effect :: rest)
    (heffect : effect = .send message ∧ fd = i ∨ effect = .sendTo fd message) :
    fd < w.accepted ∧ Carried message := by
  have hi := h.lt_of_thread (i := i) (by simp [hthread])
  rw [(h.shows.conns i).thread] at hthread
  have hmem : effect ∈ (s.conns i).thread := by
    rw [hthread]
    exact List.mem_cons_self
  have hcarried := (h.carried.conns i).thread effect hmem
  rcases heffect with ⟨rfl, rfl⟩ | rfl
  · exact ⟨hi, hcarried message rfl⟩
  · obtain ⟨-, client, hclient, rfl⟩ : Sys.EffectWired s.server.clients i (.sendTo fd message) :=
      h.wired.threads i _ hmem
    exact ⟨h.shows.accepted.symm ▸ h.wired.clients client hclient, hcarried message rfl⟩

/-- What is cut off the buffer of the server is a message of the client. -/
theorem Sound.serve_outcome (h : Sound w s) (hserve : w.serve i = some w') :
    (∃ effect rest, (w.conns i).thread = effect :: rest ∧ PerformOutcome w i rest effect w') ∨
      ∃ (rest : Bytes) (w₀ : Wire) (peer : TsClientConnection) (phase : Phase) (thread : List Effect),
        rest.length < (w.conns i).toServer.buffer.length ∧ w₀.conns = w.conns ∧
          w₀.accepted = w.accepted ∧ w' = w₀.setConn i
            { w.conns i with
              toServer := { (w.conns i).toServer with buffer := rest }
              peer := peer
              phase := phase
              thread := thread } := by
  unfold serve at hserve
  dsimp only at hserve
  split at hserve
  · rename_i effect rest hthread
    exact Or.inl ⟨effect, rest, hthread, performOutcome hserve⟩
  · split at hserve
    · rename_i message rest hround
      obtain ⟨w₀, peer, phase, thread, hconns, haccepted, hw'⟩ := take_outcome hserve
      exact Or.inr ⟨rest, w₀, peer, phase, thread, length_rest_lt hround, hconns, haccepted, hw'⟩
    · rename_i error rest hround
      obtain ⟨m, messages, -, hresult, -⟩ := (h.shows.conns i).toServer.returns
        (fun m hm => ((h.carried.conns i).toServer m hm).1) hround
      cases hresult
    · cases hserve

theorem Sound.locked_serve (h : Sound w s) (hsending : (w.conns i).sending = none)
    (hserve : w.serve i = some w') : Locked w' := by
  rcases h.serve_outcome hserve with ⟨effect, rest, hthread, houtcome⟩ |
    ⟨rest, w₀, peer, phase, thread, -, hconns, haccepted, rfl⟩
  · cases houtcome with
    | send fd message _ _ heffect hsend =>
      obtain ⟨hfd, -⟩ := h.lt_of_effect hthread heffect
      have hmid : Locked (w.setConn i { w.conns i with thread := rest }) :=
        h.locked.set_same rfl rfl rfl rfl rfl
      refine hmid.sendTo (h.lt_of_thread (by simp [hthread])) hfd ?_ hsend
      rw [setConn_conns_self]
      exact hsending
    | other _ w₀ thread hconns haccepted => exact h.locked.set_same hconns haccepted rfl rfl rfl
  · exact h.locked.set_same hconns haccepted rfl rfl rfl

theorem Sound.locked_step (h : Sound w s) {capacity : ℕ} {a : WireAction}
    (hstep : w.step capacity a = some w') : Locked w' := by
  cases a with
  | act action =>
    cases action with
    | connect clientId address =>
      obtain rfl := Option.some.inj hstep
      exact h.locked.connect clientId address
    | key i op =>
      simp only [step, act] at hstep
      split_ifs at hstep
      obtain ⟨out, -, hw'⟩ := Option.bind_eq_some_iff.mp hstep
      obtain rfl := Option.some.inj hw'
      exact h.locked.set_same rfl rfl rfl rfl rfl
    | save i =>
      simp only [step, act] at hstep
      split_ifs at hstep
      obtain rfl := Option.some.inj hstep
      exact h.locked.set_same rfl rfl rfl rfl rfl
    | deliver i =>
      simp only [step, act] at hstep
      split at hstep
      · cases hstep
      · split_ifs at hstep
        obtain ⟨out, -, hw'⟩ := Option.bind_eq_some_iff.mp hstep
        obtain rfl := Option.some.inj hw'
        exact h.locked.set_same rfl rfl rfl rfl rfl
    | serve i =>
      simp only [step, act] at hstep
      split_ifs at hstep with hsending
      exact h.locked_serve hsending hstep
    | saverTake written =>
      simp only [step, act] at hstep
      split at hstep
      · cases hstep
      · obtain rfl := Option.some.inj hstep
        exact ⟨h.locked.holder, h.locked.sender, h.locked.written⟩
    | saverTimer written =>
      obtain rfl := Option.some.inj hstep
      exact ⟨h.locked.holder, h.locked.sender, h.locked.written⟩
  | clientWrite i n =>
    simp only [step] at hstep
    split_ifs at hstep
    obtain rfl := Option.some.inj hstep
    exact h.locked.set_same rfl rfl rfl rfl rfl
  | serverRead i n =>
    simp only [step] at hstep
    split_ifs at hstep
    obtain rfl := Option.some.inj hstep
    exact h.locked.set_same rfl rfl rfl rfl rfl
  | serverWrite i n =>
    simp only [step] at hstep
    split at hstep
    · cases hstep
    · rename_i fd hsending
      split_ifs at hstep with hwrite
      obtain rfl := Option.some.inj hstep
      refine h.locked.set rfl rfl rfl rfl fun hnone => ?_
      simp only [hwrite.1] at hnone
      cases hnone
  | serverSent i =>
    simp only [step] at hstep
    split at hstep
    · cases hstep
    · rename_i fd hsending
      split_ifs at hstep with hsent
      obtain rfl := Option.some.inj hstep
      exact h.locked.sent hsent.1 hsent.2
  | clientRead i n =>
    simp only [step] at hstep
    split_ifs at hstep
    obtain rfl := Option.some.inj hstep
    exact h.locked.set_same rfl rfl rfl rfl rfl
  | clientReceive i =>
    obtain ⟨c, hround, rfl⟩ := Option.map_eq_some_iff.mp hstep
    unfold WireConn.readerRound at hround
    split_ifs at hround
    split at hround
    · obtain rfl := Option.some.inj hround
      exact h.locked.set_same rfl rfl rfl rfl rfl
    · obtain rfl := Option.some.inj hround
      exact h.locked.set_same rfl rfl rfl rfl rfl
    · cases hround

/-- A step on the wire keeps all of it. -/
theorem Sound.step (h : Sound w s) {capacity : ℕ} {a : WireAction} (ha : w.Carries a)
    (hstep : w.step capacity a = some w') :
    ∃ s', run Sys.step s a.action?.toList = some s' ∧ Sound w' s' := by
  obtain ⟨s', hs', hshows⟩ := h.shows.step h.carried hstep
  refine ⟨s', hs', ?_⟩
  rcases action_cases hs' with ⟨-, rfl⟩ | ⟨action, rfl, haction⟩
  · exact ⟨hshows, h.carried, h.going, h.locked_step hstep⟩
  · have hcarries : s.server.Carries action := h.shows.server ▸ ha
    exact ⟨hshows, h.carried.step hcarries haction,
      h.going.step (Sys.wellFormed_of_carries hcarries) haction, h.locked_step hstep⟩

/-! ## The work that is left -/

/-- Replacing a connection changes the work by the difference of its own part. -/
theorem work_setConn {c : WireConn} (hconns : w₀.conns = w.conns) (haccepted : w₀.accepted = w.accepted)
    (hi : i < w.accepted) (left : ℕ) :
    (w₀.setConn i c).work left + (w.conns i).work = w.work left + c.work := by
  have hsum := sum_range_update (fun _ => WireConn.work) w.conns hi c
  simp only [work, setConn, hconns, haccepted]
  omega

/-- Replacing a connection by one with `k` more work. -/
theorem work_set_le {c : WireConn} {k : ℕ} (hconns : w₀.conns = w.conns)
    (haccepted : w₀.accepted = w.accepted) (hi : i < w.accepted) (hc : c.work ≤ (w.conns i).work + k)
    (left : ℕ) : (w₀.setConn i c).work left ≤ w.work left + k := by
  have hset := work_setConn (c := c) hconns haccepted hi left
  omega

/-- Replacing a connection by one with less work. -/
theorem work_lt {c : WireConn} (hi : i < w.accepted) (hc : c.work < (w.conns i).work) (left : ℕ) :
    (w.setConn i c).work left < w.work left := by
  have hset := work_setConn (c := c) (rfl : w.conns = w.conns) rfl hi left
  omega

/-- Beginning to send adds the bytes of a line. -/
theorem work_sendTo {fd : ℕ} {message : TsMessage} (hi : i < w.accepted) (hfd : fd < w.accepted)
    (hm : Carried message) (hsend : w.sendTo i fd message = some w') (left : ℕ) :
    w'.work left ≤ w.work left + 3 * tsMaxLineBytes + 1 := by
  unfold Wire.sendTo at hsend
  split_ifs at hsend with hlock
  obtain rfl := Option.some.inj hsend
  have hmid : (w.setConn i { w.conns i with sending := some fd }).work left ≤ w.work left + 0 :=
    work_set_le rfl rfl hi le_rfl left
  have haccepted : (w.setConn i { w.conns i with sending := some fd }).accepted = w.accepted := rfl
  dsimp only at hmid haccepted ⊢
  generalize w.setConn i _ = mid at hmid haccepted ⊢
  have hfits := hm.fits
  refine (work_set_le (k := 3 * tsMaxLineBytes + 1) rfl rfl (haccepted.symm ▸ hfd) ?_ left).trans
    (by omega)
  simp only [WireConn.work, Stream.work_send, reduceCtorEq, if_false]
  omega

/-- Some work of the system less is worth a line and more. -/
theorem work_le_of_lt (w : Wire) {left left' : ℕ} (hlt : left' < left) :
    w.work left' + 4 * tsMaxLineBytes ≤ w.work left := by
  have hmul := Nat.mul_le_mul_right (4 * tsMaxLineBytes) (Nat.succ_le_of_lt hlt)
  rw [Nat.succ_mul] at hmul
  unfold work
  omega

/-- What a client answers can be carried. -/
theorem carried_handle {m : TsMessage} {messages : List TsMessage} {out : TsClientState × List TsMessage}
    (hs : Sys.AllCarried s) (hin : (s.conns i).toClient = m :: messages)
    (hhandle : tsClientStateHandleMessage (s.conns i).client m = some out) :
    ∀ x ∈ out.2, Carried x := by
  have hstep : s.step (.deliver i) = some (s.setConn i { (s.conns i).emit out with
      toClient := messages, received := (s.conns i).received ++ [m] }) := by
    simp only [Sys.step, hin, hhandle]
    rfl
  have hcarries : s.server.Carries (.deliver i) := trivial
  have hafter := ((hs.step hcarries hstep).conns i).toServer
  rw [Sys.setConn_conns_self] at hafter
  intro x hx
  exact (hafter x (List.mem_append_right _ hx)).1

/-- Some work of the system adds one line to the streams at most. -/
theorem Sound.work_act (h : Sound w s) {action : Action} (ha : action.Internal)
    (hact : w.act action = some w') (left : ℕ) :
    w'.work left ≤ w.work left + 3 * tsMaxLineBytes + 1 := by
  cases action with
  | connect | key | save | saverTimer => exact ha.elim
  | deliver i =>
    simp only [act] at hact
    split at hact
    · cases hact
    · rename_i message rest hincoming
      split_ifs at hact
      obtain ⟨out, hhandle, hw'⟩ := Option.bind_eq_some_iff.mp hact
      obtain rfl := Option.some.inj hw'
      obtain ⟨m, messages, hmessages, rfl, -⟩ := (h.shows.conns i).pop hincoming
      rw [handle_asReceived, (h.shows.conns i).client] at hhandle
      have hi := h.lt_of_toClient (i := i) (Or.inr (by simp [hincoming]))
      have hsent := Stream.work_sendAll (w.conns i).toServer (length_handle_le hhandle)
        (carried_handle h.carried hmessages hhandle)
      refine (work_set_le (k := 3 * tsMaxLineBytes) rfl rfl hi ?_ left).trans (Nat.le_add_right _ _)
      change (out.2.foldl Stream.send (w.conns i).toServer).work + (w.conns i).toClient.work +
        (if (w.conns i).sendLock = none then 0 else 1) ≤ _
      unfold WireConn.work
      omega
  | serve i =>
    simp only [act] at hact
    split_ifs at hact
    rcases h.serve_outcome hact with ⟨effect, rest, hthread, houtcome⟩ |
      ⟨rest, w₀, peer, phase, thread, hlt, hconns, haccepted, rfl⟩
    · have hi := h.lt_of_thread (i := i) (by simp [hthread])
      cases houtcome with
      | send fd message _ _ heffect hsend =>
        obtain ⟨hfd, hm⟩ := h.lt_of_effect hthread heffect
        have hmid : (w.setConn i { w.conns i with thread := rest }).work left ≤ w.work left + 0 :=
          work_set_le rfl rfl hi le_rfl left
        have haccepted : (w.setConn i { w.conns i with thread := rest }).accepted = w.accepted := rfl
        have hsent := work_sendTo (haccepted ▸ hi) (haccepted ▸ hfd) hm hsend left
        omega
      | other _ w₀ thread hconns haccepted =>
        refine le_trans (work_set_le (k := 0) hconns haccepted hi ?_ left) ?_
        · exact le_rfl
        · omega
    · have hi := h.lt_of_toServer (i := i) (fun hempty => by
        rw [hempty] at hlt
        exact absurd hlt (Nat.not_lt_zero _))
      refine (work_set_le (k := 0) hconns haccepted hi ?_ left).trans (by omega)
      simp only [WireConn.work, Stream.work]
      omega
  | saverTake written =>
    simp only [act] at hact
    split at hact
    · cases hact
    · obtain rfl := Option.some.inj hact
      exact (Nat.le_add_right _ _).trans (Nat.le_add_right _ _)

/-- What the transports do takes bytes further. -/
theorem Sound.work_transport (h : Sound w s) {capacity : ℕ} {a : WireAction} (ha : a.Internal)
    (hname : a.action? = none) (hstep : w.step capacity a = some w') (left : ℕ) :
    w'.work left < w.work left := by
  have hempty {stream : Stream} (hne : stream.work ≠ 0) : stream ≠ .empty := fun heq => by
    rw [heq] at hne
    exact hne rfl
  cases a with
  | act action => cases hname
  | clientWrite i n =>
    simp only [Wire.step] at hstep
    split_ifs at hstep with hn
    obtain rfl := Option.some.inj hstep
    have hwork := Stream.work_write ha hn.1
    refine work_lt (h.lt_of_toServer (hempty (by omega))) ?_ left
    simp only [WireConn.work]
    omega
  | serverRead i n =>
    simp only [Wire.step] at hstep
    split_ifs at hstep with hn
    obtain rfl := Option.some.inj hstep
    have hwork := Stream.work_read ha hn.2.2.2.2
    refine work_lt (h.lt_of_toServer (hempty (by omega))) ?_ left
    simp only [WireConn.work]
    omega
  | serverWrite i n =>
    simp only [Wire.step] at hstep
    split at hstep
    · cases hstep
    · rename_i fd hsending
      split_ifs at hstep with hn
      obtain rfl := Option.some.inj hstep
      have hwork := Stream.work_write ha hn.2.1
      refine work_lt (h.locked.holder fd i hn.1).2.2 ?_ left
      simp only [WireConn.work]
      omega
  | serverSent i =>
    simp only [Wire.step] at hstep
    split at hstep
    · cases hstep
    · rename_i fd hsending
      split_ifs at hstep with hsent
      obtain rfl := Option.some.inj hstep
      obtain ⟨-, hi, hfd⟩ := h.locked.holder fd i hsent.1
      have hfirst : (w.setConn fd { w.conns fd with sendLock := none }).work left < w.work left := by
        refine work_lt hfd ?_ left
        simp only [WireConn.work, hsent.1, reduceCtorEq, if_true, if_false]
        omega
      have haccepted : (w.setConn fd { w.conns fd with sendLock := none }).accepted = w.accepted := rfl
      generalize w.setConn fd _ = mid at hfirst haccepted ⊢
      have hi' : i < mid.accepted := by omega
      refine lt_of_le_of_lt (work_set_le (k := 0) rfl rfl hi' ?_ left) (by omega)
      exact le_rfl
  | clientRead i n =>
    simp only [Wire.step] at hstep
    split_ifs at hstep with hn
    obtain rfl := Option.some.inj hstep
    have hwork := Stream.work_read ha hn.2.2
    refine work_lt (h.lt_of_toClient (Or.inl (hempty (by omega)))) ?_ left
    simp only [WireConn.work]
    omega
  | clientReceive i =>
    obtain ⟨c, hround, rfl⟩ := Option.map_eq_some_iff.mp hstep
    unfold WireConn.readerRound at hround
    split_ifs at hround
    split at hround
    · rename_i message rest hreturns
      obtain rfl := Option.some.inj hround
      have hlt := length_rest_lt hreturns
      refine work_lt (h.lt_of_toClient (Or.inl (hempty ?_))) ?_ left
      · simp only [Stream.work]
        omega
      · simp only [WireConn.work, Stream.work]
        omega
    · rename_i error rest hreturns
      obtain ⟨read, due, hmessages, -, hholds⟩ := (h.shows.conns i).toClient
      obtain ⟨m, messages, -, hresult, -⟩ := hholds.returns (fun m hm => (h.carried.conns i).toClient m
        (hmessages ▸ List.mem_append_right _ hm)) hreturns
      cases hresult
    · cases hround

/-- What holds while the wire is left alone. -/
structure Running (w : Wire) (s : Sys) : Prop extends Sound w s where
  room : s.HasRoom
  line : s.LineRoom

theorem Running.carries (h : Running w s) {a : WireAction} (ha : a.Internal) : w.Carries a := by
  cases a with
  | act action =>
    cases action with
    | connect | key | save | saverTimer => exact ha.elim
    | deliver i => trivial
    | serve i =>
      have hfits := h.line.fits h.carried.document
      rw [← h.shows.server] at hfits
      exact hfits
    | saverTake written => trivial
  | _ => trivial

/-- Every step on the wire lowers the work that is left. -/
theorem Running.work_step (h : Running w s) {capacity : ℕ} {a : WireAction} (ha : a.Internal)
    (hstep : w.step capacity a = some w') :
    ∃ s', run Sys.step s a.action?.toList = some s' ∧ Running w' s' ∧ w'.work s'.work < w.work s.work := by
  obtain ⟨s', hs', hsound⟩ := h.toSound.step (h.carries ha) hstep
  refine ⟨s', hs', ?_⟩
  rcases action_cases hs' with ⟨hname, rfl⟩ | ⟨action, rfl, haction⟩
  · exact ⟨⟨hsound, h.room, h.line⟩, h.toSound.work_transport ha hname hstep _⟩
  · obtain ⟨⟨-, hroom⟩, hlt⟩ := Sys.going_internal ⟨h.going, h.room⟩ ha haction
    have hescaped := Sys.length_jsonEscape_step h.carried haction
    have hline := h.line
    have hadded := h.toSound.work_act ha hstep s'.work
    have hleft := w.work_le_of_lt hlt
    have hmax : 1 ≤ tsMaxLineBytes := by decide
    unfold Sys.LineRoom at hline
    exact ⟨⟨hsound, hroom, by unfold Sys.LineRoom; omega⟩, by omega⟩

/-! ## There is always a next step -/

/-- Something on its way to a client that is in the socket, or all written, is read on. -/
theorem Sound.exists_clientRead (h : Sound w s) {capacity : ℕ}
    (hne : (w.conns i).toClient ≠ .empty)
    (hsocket : (w.conns i).toClient.socket ≠ [] ∨ (w.conns i).toClient.unwritten = []) :
    ∃ a w', a.Internal ∧ w.step capacity a = some w' := by
  have hreading := (h.shows.conns i).reading
  obtain ⟨read, due, hmessages, -, hholds⟩ := (h.shows.conns i).toClient
  have hdue : ∀ m ∈ due, Carried m := fun m hm =>
    (h.carried.conns i).toClient m (hmessages ▸ List.mem_append_right _ hm)
  cases hround : recvRound recvErrorSize (w.conns i).toClient.buffer with
  | returns result rest =>
    obtain ⟨m, messages, -, hresult, -⟩ := hholds.returns hdue hround
    rw [hresult] at hround
    refine ⟨.clientReceive i, ?_⟩
    simp only [Wire.step, WireConn.readerRound, hreading, if_true, hround]
    exact ⟨_, trivial, rfl⟩
  | reads room =>
    obtain ⟨hroom, hsome⟩ := hholds.reads hdue hround
    have hsocket' : (w.conns i).toClient.socket ≠ [] := by
      rcases hsocket with hsocket | hunwritten
      · exact hsocket
      · have hdue' : due ≠ [] := by
          rintro rfl
          exact hne hholds.eq_empty
        rw [hunwritten, List.append_nil] at hsome
        exact hsome hdue'
    have hlength := List.length_pos_of_ne_nil hsocket'
    refine ⟨.clientRead i 1, ?_⟩
    simp only [Wire.step, readable, hround]
    exact ⟨_, Nat.one_pos, if_pos ⟨hreading, hroom, hlength⟩⟩

/-- A thread that is sending can go on. -/
theorem Sound.exists_step_of_sending (h : Sound w s) {capacity fd : ℕ} (hcapacity : 0 < capacity)
    (hsending : (w.conns i).sending = some fd) : ∃ a w', a.Internal ∧ w.step capacity a = some w' := by
  have hlock := h.locked.sender i fd hsending
  by_cases hunwritten : (w.conns fd).toClient.unwritten = []
  · refine ⟨.serverSent i, ?_⟩
    simp only [Wire.step, hsending]
    exact ⟨_, trivial, if_pos ⟨hlock, hunwritten⟩⟩
  · by_cases hfull : (w.conns fd).toClient.socket.length + 1 ≤ capacity
    · refine ⟨.serverWrite i 1, ?_⟩
      simp only [Wire.step, hsending]
      exact ⟨_, Nat.one_pos, if_pos ⟨hlock, List.length_pos_of_ne_nil hunwritten, hfull⟩⟩
    · -- the socket is full, and the reader of the client waits for nothing else
      have hsocket : (w.conns fd).toClient.socket ≠ [] := fun hnil => by
        rw [hnil, List.length_nil] at hfull
        omega
      refine h.exists_clientRead (fun hempty => ?_) (Or.inl hsocket)
      rw [hempty] at hsocket
      exact hsocket rfl

/-- When no thread is sending, an effect can begin that does not wait for the list of clients. -/
theorem exists_perform (hlocks : ∀ fd, (w.conns fd).sendLock = none) {effect : Effect}
    (rest : List Effect) (hfree : w.clientsLock = none ∨ effect.IsSendTo ∨ effect = .unlock) :
    ∃ w', w.perform i effect rest = some w' := by
  have hsend (fd : ℕ) (message : TsMessage) :
      ∃ w', (w.setConn i { w.conns i with thread := rest }).sendTo i fd message = some w' := by
    have hlock : ((w.setConn i { w.conns i with thread := rest }).conns fd).sendLock = none := by
      by_cases hfd : fd = i
      · rw [hfd, setConn_conns_self]
        exact hlocks i
      · rw [setConn_conns_of_ne w hfd]
        exact hlocks fd
    exact ⟨_, if_pos hlock⟩
  cases effect with
  | send message => exact hsend i message
  | sendTo fd message => exact hsend fd message
  | pipe event => exact ⟨_, rfl⟩
  | snapshot => exact ⟨_, rfl⟩
  | unlock => exact ⟨_, rfl⟩
  | register client =>
    rcases hfree with hfree | ⟨fd, message, heq⟩ | heq
    · exact ⟨_, if_pos hfree⟩
    · cases heq
    · cases heq
  | broadcast message exclude =>
    rcases hfree with hfree | ⟨fd, message, heq⟩ | heq
    · exact ⟨_, if_pos hfree⟩
    · cases heq
    · cases heq

/-- When no thread is sending, a thread with something to do can do it, or the one that holds the list of
clients can. -/
theorem Sound.exists_step_of_thread (h : Sound w s) {capacity : ℕ}
    (hsending : ∀ j, (w.conns j).sending = none) (hthread : (w.conns i).thread ≠ []) :
    ∃ a w', a.Internal ∧ w.step capacity a = some w' := by
  have hlocks (fd : ℕ) : (w.conns fd).sendLock = none := by
    cases hlock : (w.conns fd).sendLock with
    | none => rfl
    | some j =>
      have := (h.locked.holder fd j hlock).1
      rw [hsending j] at this
      cases this
  have hserve {j : ℕ} {effect : Effect} {rest : List Effect}
      (hthread : (w.conns j).thread = effect :: rest)
      (hfree : w.clientsLock = none ∨ effect.IsSendTo ∨ effect = .unlock) :
      ∃ a w', a.Internal ∧ w.step capacity a = some w' := by
    obtain ⟨w', hw'⟩ := exists_perform (i := j) hlocks rest hfree
    refine ⟨.act (.serve j), w', trivial, ?_⟩
    simp only [Wire.step, act, if_pos (hsending j), serve, hthread]
    exact hw'
  cases hlock : s.clientsLock with
  | none =>
    obtain ⟨effect, rest, heq⟩ := List.exists_cons_of_ne_nil hthread
    exact hserve heq (Or.inl (h.shows.clientsLock.trans hlock))
  | some j =>
    obtain ⟨sends, rest, hheld, hsends⟩ := h.going.lock j hlock
    rw [← (h.shows.conns j).thread] at hheld
    cases sends with
    | nil => exact hserve hheld (Or.inr (Or.inr rfl))
    | cons effect sends => exact hserve hheld (Or.inr (Or.inl (hsends effect List.mem_cons_self)))

/-- A message that the system takes is taken on the wire. -/
theorem Shows.exists_take (h : w.Shows s) {c : WireConn} {m : TsMessage} {rest : List TsMessage} {s' : Sys}
    (hphase : c.phase = (s.conns i).phase) (hpeer : c.peer = (s.conns i).peer)
    (htake : s.take i m rest = some s') : ∃ w', w.take i c m.asReceived = some w' := by
  have htype : m.asReceived.type = m.type := rfl
  have hid : m.asReceived.clientId = m.clientId := rfl
  unfold Sys.take at htake
  unfold Wire.take
  cases hp : (s.conns i).phase with
  | closed =>
    simp only [hp] at htake
    cases htake
  | joining =>
    simp only [hp, hphase, htype, hid, hpeer, h.clientsLock, h.server] at htake ⊢
    split_ifs at htake ⊢
    · obtain ⟨⟨server, clientId⟩, hchoose, -⟩ := Option.bind_eq_some_iff.mp htake
      exact ⟨_, Option.bind_eq_some_iff.mpr ⟨(server, clientId), hchoose, rfl⟩⟩
    · exact ⟨_, rfl⟩
  | serving =>
    simp only [hp, hphase, dispatch_asReceived, hpeer, h.server] at htake ⊢
    obtain ⟨⟨server, effects⟩, hdispatch, -⟩ := Option.bind_eq_some_iff.mp htake
    exact ⟨_, Option.bind_eq_some_iff.mpr ⟨(server, effects), hdispatch, rfl⟩⟩

/-- When every thread waits for a message, what a client has sent is read on or taken. -/
theorem Running.exists_step_of_toServer (h : Running w s) {capacity : ℕ}
    (hsending : ∀ j, (w.conns j).sending = none) (hthread : ∀ j, (w.conns j).thread = [])
    (hne : (w.conns i).toServer ≠ .empty)
    (hsocket : (w.conns i).toServer.socket ≠ [] ∨ (w.conns i).toServer.unwritten = []) :
    ∃ a w', a.Internal ∧ w.step capacity a = some w' := by
  have hi := h.lt_of_toServer hne
  have hholds := (h.shows.conns i).toServer
  have hcarried : ∀ m ∈ (s.conns i).toServer, Carried m := fun m hm => ((h.carried.conns i).toServer m hm).1
  cases hround : recvRound recvErrorSize (w.conns i).toServer.buffer with
  | returns result rest =>
    obtain ⟨m, messages, hmessages, hresult, -⟩ := hholds.returns hcarried hround
    rw [hresult] at hround
    have hlock : s.clientsLock = none := by
      cases hlock : s.clientsLock with
      | none => rfl
      | some j =>
        obtain ⟨sends, rest', hheld, -⟩ := h.going.lock j hlock
        rw [← (h.shows.conns j).thread, hthread j] at hheld
        exact absurd hheld.symm (by simp)
    obtain ⟨s', htake⟩ := Sys.exists_take_of_unlocked h.going h.room hmessages hlock
    obtain ⟨w', hw'⟩ := h.shows.exists_take (i := i)
      (c := { w.conns i with toServer := { (w.conns i).toServer with buffer := rest } })
      (h.shows.conns i).phase (h.shows.conns i).peer htake
    refine ⟨.act (.serve i), w', trivial, ?_⟩
    simp only [Wire.step, act, if_pos (hsending i), serve, hthread i, hround]
    exact hw'
  | reads room =>
    obtain ⟨hroom, hsome⟩ := hholds.reads hcarried hround
    have hsocket' : (w.conns i).toServer.socket ≠ [] := by
      rcases hsocket with hsocket | hunwritten
      · exact hsocket
      · have hmessages : (s.conns i).toServer ≠ [] := by
          intro hnil
          rw [hnil] at hholds
          exact hne hholds.eq_empty
        rw [hunwritten, List.append_nil] at hsome
        exact hsome hmessages
    have hphase : (w.conns i).phase ≠ .closed := by
      rw [(h.shows.conns i).phase]
      rcases h.wired.phase i (h.shows.accepted ▸ hi) with ⟨hphase, -⟩ | hphase
      · rw [hphase]
        exact Phase.noConfusion
      · rw [hphase]
        exact Phase.noConfusion
    have hlength := List.length_pos_of_ne_nil hsocket'
    refine ⟨.serverRead i 1, ?_⟩
    simp only [Wire.step, readable, hround]
    exact ⟨_, Nat.one_pos, if_pos ⟨hthread i, hsending i, hphase, hroom, hlength⟩⟩

/-- A client that is writing can go on, or the thread of the server reads what fills the socket. -/
theorem Running.exists_step_of_writing (h : Running w s) {capacity : ℕ} (hcapacity : 0 < capacity)
    (hsending : ∀ j, (w.conns j).sending = none) (hthread : ∀ j, (w.conns j).thread = [])
    (hne : (w.conns i).toServer ≠ .empty) : ∃ a w', a.Internal ∧ w.step capacity a = some w' := by
  by_cases hunwritten : (w.conns i).toServer.unwritten = []
  · exact h.exists_step_of_toServer hsending hthread hne (Or.inr hunwritten)
  · by_cases hfull : (w.conns i).toServer.socket.length + 1 ≤ capacity
    · refine ⟨.clientWrite i 1, ?_⟩
      simp only [Wire.step]
      exact ⟨_, Nat.one_pos, if_pos ⟨List.length_pos_of_ne_nil hunwritten, hfull⟩⟩
    · have hsocket : (w.conns i).toServer.socket ≠ [] := fun hnil => by
        rw [hnil, List.length_nil] at hfull
        omega
      exact h.exists_step_of_toServer hsending hthread hne (Or.inl hsocket)

/-- A client that is not writing handles what waits in its queue. -/
theorem Sound.exists_step_of_incoming (h : Sound w s) {capacity : ℕ}
    (hunwritten : (w.conns i).toServer.unwritten = []) (hne : (w.conns i).incoming ≠ []) :
    ∃ a w', a.Internal ∧ w.step capacity a = some w' := by
  obtain ⟨message, rest, hincoming⟩ := List.exists_cons_of_ne_nil hne
  obtain ⟨m, messages, hmessages, rfl, -⟩ := (h.shows.conns i).pop hincoming
  obtain ⟨s', hs'⟩ := Sys.exists_deliver h.going hmessages
  simp only [Sys.step, hmessages] at hs'
  obtain ⟨out, hout, -⟩ := Option.bind_eq_some_iff.mp hs'
  rw [← (h.shows.conns i).client, ← handle_asReceived] at hout
  refine ⟨.act (.deliver i), ?_⟩
  simp only [Wire.step, act, hincoming, if_pos hunwritten, hout]
  exact ⟨_, trivial, rfl⟩

/-- A thread that holds the lock has something to do. -/
theorem Running.clientsLock_of_threads (h : Running w s) (hthread : ∀ j, (w.conns j).thread = []) :
    w.clientsLock = none := by
  cases hlock : w.clientsLock with
  | none => rfl
  | some j =>
    obtain ⟨sends, rest, hheld, -⟩ := h.going.lock j (h.shows.clientsLock.symm.trans hlock)
    rw [← (h.shows.conns j).thread, hthread j] at hheld
    exact absurd hheld (by simp)

/-- Nothing is on its way on the wire, or something can be done. -/
theorem Running.atRest_or_exists_step (h : Running w s) {capacity : ℕ} (hcapacity : 0 < capacity) :
    w.AtRest ∨ ∃ a w', a.Internal ∧ w.step capacity a = some w' := by
  by_cases hsending : ∀ j, (w.conns j).sending = none
  · by_cases hthread : ∀ j, (w.conns j).thread = []
    · by_cases hidle : ∀ i < w.accepted, (w.conns i).Idle
      · cases hpipe : w.pipe with
        | nil => exact Or.inl ⟨hpipe, h.clientsLock_of_threads hthread, hidle⟩
        | cons event rest =>
          refine Or.inr ⟨.act (.saverTake true), ?_⟩
          simp only [Wire.step, act, hpipe]
          exact ⟨_, trivial, rfl⟩
      · refine Or.inr ?_
        obtain ⟨i, hi⟩ := not_forall.mp hidle
        obtain ⟨-, hbusy⟩ := Classical.not_imp.mp hi
        by_cases hserver : (w.conns i).toServer = .empty
        · by_cases hincoming : (w.conns i).incoming = []
          · have hlock : (w.conns i).sendLock = none := by
              cases hlock : (w.conns i).sendLock with
              | none => rfl
              | some j =>
                have := (h.locked.holder i j hlock).1
                rw [hsending j] at this
                cases this
            have hclient : (w.conns i).toClient ≠ .empty := fun hclient =>
              hbusy ⟨hserver, hclient, hlock, hincoming, hthread i, hsending i⟩
            exact h.exists_clientRead hclient (Or.inr (h.locked.written i hlock))
          · refine h.exists_step_of_incoming ?_ hincoming
            rw [hserver]
            rfl
        · exact h.exists_step_of_writing hcapacity hsending hthread hserver
    · obtain ⟨i, hi⟩ := not_forall.mp hthread
      exact Or.inr (h.exists_step_of_thread hsending hi)
  · obtain ⟨i, hi⟩ := not_forall.mp hsending
    obtain ⟨fd, hfd⟩ := Option.ne_none_iff_exists'.mp hi
    exact Or.inr (h.exists_step_of_sending hcapacity hfd)

/-! ## Coming to rest -/

/-- A run on the wire keeps what every state has. -/
theorem exists_sound {text : Bytes} {limit capacity : ℕ} {path : Bytes} {actions : List WireAction}
    (htext : ValidText text)
    (hguard : Guarded (step capacity) Wire.Carries (init text limit path) actions)
    (hrun : run (step capacity) (init text limit path) actions = some w) :
    ∃ s, run Sys.step (Sys.init text limit path) (actions.filterMap WireAction.action?) = some s ∧
      Sound w s := by
  refine exists_run_filterMap (R := Sound) (fun w a w' s hR ha hstep => hR.step ha hstep) ?_ hguard hrun
  exact ⟨shows_init text limit path, Sys.allCarried_init htext limit path,
    Sys.going_init htext limit path, locked_init text limit path⟩

/-- When nothing is on its way on the wire, everything has been answered and processed. -/
theorem Sound.settled_of_atRest (h : Sound w s) (hrest : w.AtRest) : s.Settled := by
  refine Sys.settled_of_quiescent h.going (fun i hi => ?_) (h.shows.pipe ▸ hrest.pipe)
  have hshows := h.shows.conns i
  have hidle := hrest.idle i (h.shows.accepted.symm ▸ hi)
  have hserver := hshows.toServer
  rw [hidle.toServer] at hserver
  obtain ⟨read, due, hmessages, hincoming, hclient⟩ := hshows.toClient
  rw [hidle.toClient] at hclient
  rw [hidle.incoming] at hincoming
  refine ⟨hserver.eq_nil, ?_, hshows.thread ▸ hidle.thread⟩
  rw [hmessages, hclient.eq_nil, List.map_eq_nil_iff.mp hincoming.symm, List.append_nil]

/-- From every state that a run on the wire has reached, whatever is still on its way is dealt with in the
end, however the bytes are cut into pieces and however small the sockets are: the parties take at most as
many steps as there is work left, whichever of them goes first, they never get stuck before nothing is on
its way, and then everything has been answered and processed. -/
theorem transports_come_to_rest (text : Bytes) (limit : ℕ) (path : Bytes) (capacity : ℕ)
    (actions : List WireAction) (w : Wire) (s : Sys) (htext : ValidText text) (hcapacity : 0 < capacity)
    (hguard : Guarded (step capacity) Wire.Carries (init text limit path) actions)
    (hrun : run (step capacity) (init text limit path) actions = some w)
    (hshown : run Sys.step (Sys.init text limit path) (actions.filterMap WireAction.action?) = some s)
    (hroom : s.HasRoom) (hline : s.LineRoom) :
    (∀ rounds w', (∀ a ∈ rounds, a.Internal) → run (step capacity) w rounds = some w' →
      rounds.length ≤ w.work s.work ∧
        (w'.AtRest ∨ ∃ a w'', a.Internal ∧ w'.step capacity a = some w'')) ∧
    ∃ rounds w' s', (∀ a ∈ rounds, a.Internal) ∧ run (step capacity) w rounds = some w' ∧ w'.AtRest ∧
      run Sys.step s (rounds.filterMap WireAction.action?) = some s' ∧ w'.Shows s' ∧ s'.Settled := by
  obtain ⟨s₀, hs₀, hsound⟩ := exists_sound htext hguard hrun
  obtain rfl := Option.some.inj (hs₀.symm.trans hshown)
  have hrunning : Running w s₀ := ⟨hsound, hroom, hline⟩
  constructor
  · intro rounds w' hrounds hrun'
    obtain ⟨s', -, hrunning', hlength⟩ := exists_run_filterMap_of_rank (R := Running)
      WireAction.action? (fun w s => w.work s.work) (fun w a w' s hR ha hstep => hR.work_step ha hstep)
      hrunning hrounds hrun'
    exact ⟨by omega, hrunning'.atRest_or_exists_step hcapacity⟩
  · obtain ⟨rounds, w', s', hrounds, hrun', hshown', hrunning', hrest⟩ :=
      exists_matched_run_to_final (R := Running) 
        WireAction.action? (fun w s => w.work s.work) (fun w a w' s hR ha hstep => hR.work_step ha hstep)
        (fun w s hR => hR.atRest_or_exists_step hcapacity) hrunning
    exact ⟨rounds, w', s', hrounds, hrun', hrest, hshown', hrunning'.shows,
      hrunning'.settled_of_atRest hrest⟩

/-- The OP of a character that has been typed is still being written. -/
theorem transports_come_to_rest_annTypes : ∃ w s,
    run (step 64) (init (bytes "ab") 10 (bytes "f")) annTypes = some w ∧
      (w.conns 0).toServer.unwritten ≠ [] ∧
      ∃ rounds w' s', (∀ a ∈ rounds, a.Internal) ∧ run (step 64) w rounds = some w' ∧ w'.AtRest ∧
        run Sys.step s (rounds.filterMap WireAction.action?) = some s' ∧ w'.Shows s' ∧ s'.Settled := by
  have hwire : (run (step 64) (init (bytes "ab") 10 (bytes "f")) annTypes).any
      (fun w => decide ((w.conns 0).toServer.unwritten ≠ [])) = true := by decide +kernel
  have hsys : (run Sys.step (Sys.init (bytes "ab") 10 (bytes "f"))
      (annTypes.filterMap WireAction.action?)).any (fun s => decide (s.HasRoom ∧ s.LineRoom)) = true := by
    decide +kernel
  obtain ⟨w, hrun, hw⟩ := (Option.any_eq_true _ _).mp hwire
  obtain ⟨s, hshown, hs⟩ := (Option.any_eq_true _ _).mp hsys
  obtain ⟨hroom, hline⟩ : s.HasRoom ∧ s.LineRoom := of_decide_eq_true hs
  have htext : ValidText (bytes "ab") := ⟨['a', 'b'], by decide, by decide⟩
  have hrest := transports_come_to_rest (bytes "ab") 10 (bytes "f") 64 annTypes w s htext (by decide)
    guarded_annTypes hrun hshown hroom hline
  exact ⟨w, s, hrun, of_decide_eq_true hw, hrest.2⟩

end Wire

end TermSync
