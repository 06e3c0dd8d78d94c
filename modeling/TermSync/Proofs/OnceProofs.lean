import TermSync.Proofs.ConvergenceProofs
import TermSync.Proofs.LockProofs
import TermSync.Proofs.PipelineProofs

/-!
# Proofs: each operation reaches a client once

A thread that accepts an operation owes it to every client: the ACK to its own one, and the broadcast to
the others. `copies` counts what has been sent of a version and what is still owed. Only a commit adds
to it, and what a broadcast sends is what it owed, since it leaves out its own connection and no
connection is on the list twice. On the other hand a client that was on the list before the commit is
still owed its copy until it has it.
-/

namespace TermSync

open Foundations

namespace Sys

/-! ## The names of the clients -/

/-- The thread of a client with this id registers it under this id, and leaves it out of a
broadcast. -/
def EffectNamed (clientId : Bytes) : Effect → Prop
  | .register client => client.clientId = clientId
  | .broadcast _ exclude => exclude = clientId
  | _ => True

/-- Each connection is registered under the id that its thread has chosen, which fits its buffer. -/
structure Named (s : Sys) : Prop where
  fits : ∀ j, snprintf tsMaxClientId (s.conns j).peer.clientId = (s.conns j).peer.clientId
  registered : ∀ j, ∀ client ∈ s.server.clients, client.fd = j →
    client.clientId = (s.conns j).peer.clientId
  threads : ∀ j, ∀ effect ∈ (s.conns j).thread, EffectNamed (s.conns j).peer.clientId effect

theorem named_init (text : Bytes) (limit : ℕ) (path : Bytes) : Named (init text limit path) where
  fits _ := rfl
  registered _ _ h := absurd h List.not_mem_nil
  threads _ _ h := absurd h List.not_mem_nil

/-- Replacing a connection that keeps its name. -/
theorem Named.set {s t : Sys} {i : ℕ} {c : Conn} (h : Named s) (hconns : t.conns = s.conns)
    (hclients : t.server.clients = s.server.clients)
    (hpeer : c.peer.clientId = (s.conns i).peer.clientId)
    (hthread : ∀ effect ∈ c.thread, EffectNamed (s.conns i).peer.clientId effect) :
    Named (t.setConn i c) := by
  constructor
  · refine forall_setConn
      (P := fun _ c => snprintf tsMaxClientId c.peer.clientId = c.peer.clientId) ?_ fun j _ => ?_
    · rw [hpeer]
      exact h.fits i
    · rw [hconns]
      exact h.fits j
  · refine forall_setConn (P := fun j c => ∀ client ∈ t.server.clients, client.fd = j →
      client.clientId = c.peer.clientId) ?_ fun j _ => ?_
    · rw [hclients, hpeer]
      exact h.registered i
    · rw [hclients, hconns]
      exact h.registered j
  · refine forall_setConn (P := fun _ c => ∀ effect ∈ c.thread, EffectNamed c.peer.clientId effect) ?_
      fun j _ => ?_
    · rw [hpeer]
      exact hthread
    · rw [hconns]
      exact h.threads j

/-- A chosen id fits its buffer. -/
theorem nextFreeClientId_fits {server : TsServer} {trials : ℕ} {number : ℤ} {result : Bytes × ℤ}
    (h : nextFreeClientId server trials number = some result) :
    snprintf tsMaxClientId result.1 = result.1 := by
  induction trials generalizing number with
  | zero => cases h
  | succ trials ih =>
    unfold nextFreeClientId at h
    dsimp only at h
    split_ifs at h
    · exact ih h
    · obtain rfl := Option.some.inj h
      exact snprintf_snprintf _ _

theorem chooseClientId_fits {server server' : TsServer} {requested clientId : Bytes}
    (h : chooseClientId server requested = some (server', clientId)) :
    snprintf tsMaxClientId clientId = clientId := by
  unfold chooseClientId at h
  split_ifs at h
  · obtain ⟨-, rfl⟩ := Prod.mk.inj (Option.some.inj h)
    exact snprintf_snprintf _ _
  · obtain ⟨out, hnext, hout⟩ := Option.map_eq_some_iff.mp h
    obtain ⟨-, rfl⟩ := Prod.mk.inj hout
    exact nextFreeClientId_fits hnext

theorem effectNamed_resultEffects (clientId : Bytes) (result : TsProcessResult) :
    ∀ effect ∈ resultEffects clientId result, EffectNamed clientId effect := by
  intro effect heffect
  unfold resultEffects at heffect
  split_ifs at heffect
  · simp only [List.mem_append, List.mem_cons, List.not_mem_nil, or_false, List.mem_map] at heffect
    rcases heffect with ((rfl | rfl) | ⟨m, -, rfl⟩) | ⟨m, -, rfl⟩
    · trivial
    · trivial
    · trivial
    · exact rfl
  · obtain ⟨m, -, rfl⟩ := List.mem_map.mp heffect
    trivial

theorem Named.step {s s' : Sys} {a : Action} (hs : Named s) (hw : Wired s) (honce : RegistersOnce s)
    (h : s.step a = some s') : Named s' := by
  have hrest {i : ℕ} {effect : Effect} {rest : List Effect}
      (hthread : (s.conns i).thread = effect :: rest) :
      ∀ e ∈ rest, EffectNamed (s.conns i).peer.clientId e := fun e he =>
    hs.threads i e (by rw [hthread]; exact List.mem_cons_of_mem _ he)
  cases stepOutcome h with
  | connect clientId address =>
    constructor
    · exact forall_setConn
        (P := fun _ c => snprintf tsMaxClientId c.peer.clientId = c.peer.clientId) rfl
        fun j _ => hs.fits j
    · refine forall_setConn (P := fun j c => ∀ client ∈ s.server.clients, client.fd = j →
        client.clientId = c.peer.clientId) (fun client hclient hfd => ?_) fun j _ => hs.registered j
      have := hw.clients client hclient
      omega
    · exact forall_setConn (P := fun _ c => ∀ effect ∈ c.thread, EffectNamed c.peer.clientId effect)
        (fun _ h => absurd h List.not_mem_nil) fun j _ => hs.threads j
  | key i op out hi hqueue => exact hs.set rfl rfl rfl (hs.threads i)
  | save i hi => exact hs.set rfl rfl rfl (hs.threads i)
  | deliver i message rest out hin hhandle => exact hs.set rfl rfl rfl (hs.threads i)
  | join i message rest server clientId hthread hin hphase htype hlock hchoose =>
    have hclients := (chooseClientId_server hchoose).1
    -- a connection that is joining is not on the list yet
    have hnone : ∀ client ∈ s.server.clients, client.fd ≠ i := by
      have hone := honce i
      rw [registrations, if_pos hphase] at hone
      have hzero : s.server.clients.countP (fun client => client.fd = i) = 0 := by omega
      exact fun client hclient => by simpa using List.countP_eq_zero.mp hzero client hclient
    constructor
    · exact forall_setConn
        (P := fun _ c => snprintf tsMaxClientId c.peer.clientId = c.peer.clientId)
        (chooseClientId_fits hchoose) fun j _ => hs.fits j
    · refine forall_setConn (P := fun j c => ∀ client ∈ server.clients, client.fd = j →
        client.clientId = c.peer.clientId) (fun client hclient hfd => ?_) fun j _ => ?_
      · rw [hclients] at hclient
        exact absurd hfd (hnone client hclient)
      · rw [hclients]
        exact hs.registered j
    · refine forall_setConn (P := fun _ c => ∀ effect ∈ c.thread, EffectNamed c.peer.clientId effect)
        ?_ fun j _ => hs.threads j
      simp [joinEffects, EffectNamed]
  | refuse i message rest hthread hin hphase htype =>
    exact hs.set rfl rfl rfl (by simp [EffectNamed])
  | op i message rest document result hthread hin hphase htype hprocess =>
    exact hs.set rfl rfl rfl (effectNamed_resultEffects _ _)
  | answer i message rest effects hthread hin hphase htype hdispatch =>
    refine hs.set rfl rfl rfl ?_
    rcases (dispatchMessage_of_ne htype hdispatch).2 with
      ⟨-, heq⟩ | ⟨-, heq⟩ | ⟨-, heq⟩ | ⟨-, -, -, heq⟩ <;>
    · simp only at heq
      simp [heq, EffectNamed]
  | send i message rest hthread => exact hs.set rfl rfl rfl (hrest hthread)
  | pipe i event rest hthread => exact hs.set rfl rfl rfl (hrest hthread)
  | register i client rest hthread hlock =>
    have hname : client.clientId = (s.conns i).peer.clientId :=
      hs.threads i (.register client) (by rw [hthread]; exact List.mem_cons_self)
    have hfd : client.fd = i :=
      hw.threads i (.register client) (by rw [hthread]; exact List.mem_cons_self)
    have hlist : ∀ j, ∀ other ∈ client :: s.server.clients, other.fd = j →
        other.clientId = (s.conns j).peer.clientId := by
      intro j other hother hj
      rcases List.mem_cons.mp hother with rfl | hother
      · rw [← hj, hfd]
        exact hname
      · exact hs.registered j other hother hj
    constructor
    · exact forall_setConn
        (P := fun _ c => snprintf tsMaxClientId c.peer.clientId = c.peer.clientId) (hs.fits i)
        fun j _ => hs.fits j
    · exact forall_setConn (P := fun j c => ∀ other ∈ client :: s.server.clients, other.fd = j →
        other.clientId = c.peer.clientId) (hlist i) fun j _ => hlist j
    · exact forall_setConn
        (P := fun _ c => ∀ effect ∈ c.thread, EffectNamed c.peer.clientId effect) (hrest hthread)
        fun j _ => hs.threads j
  | snapshot i rest hthread =>
    exact hs.set rfl rfl rfl (List.forall_mem_cons.mpr ⟨trivial, hrest hthread⟩)
  | broadcast i message exclude rest hthread hlock =>
    refine hs.set rfl rfl rfl fun e he => ?_
    rcases List.mem_append.mp he with he | he
    · obtain ⟨client, -, rfl⟩ := List.mem_map.mp he
      trivial
    · exact List.forall_mem_cons.mpr ⟨trivial, hrest hthread⟩ e he
  | sendTo i fd message rest hthread =>
    have hmid : Named (s.setConn i { s.conns i with thread := rest }) :=
      hs.set rfl rfl rfl (hrest hthread)
    exact hmid.set rfl rfl rfl (hmid.threads fd)
  | unlock i rest hthread => exact hs.set rfl rfl rfl (hrest hthread)
  | saverTake written event rest hpipe => exact ⟨hs.fits, hs.registered, hs.threads⟩
  | saverTimer written => exact ⟨hs.fits, hs.registered, hs.threads⟩

/-! ## Who gets what -/

/-- The message is right for connection `i`: an ACK is about an operation of its own, a REMOTE_OP about
one of another connection. -/
structure Addressed (s : Sys) (i : ℕ) (message : TsMessage) : Prop where
  own : message.type = typeAck →
    ∃ commit ∈ s.commits, commit.2.version = message.version ∧ commit.1 = i
  other : message.type = typeRemoteOp →
    ∃ commit ∈ s.commits, commit.2.version = message.version ∧ commit.1 ≠ i

/-- The effects of the thread of connection `k` send only what is right. -/
def EffectAddressed (s : Sys) (k : ℕ) : Effect → Prop
  | .send message => Addressed s k message
  | .sendTo fd message => Addressed s fd message
  | .broadcast message _ => message.type = typeRemoteOp ∧
    ∃ commit ∈ s.commits, commit.2.version = message.version ∧ commit.1 = k
  | _ => True

/-- Connection `k` and its thread. -/
structure ConnAddressed (s : Sys) (k : ℕ) (c : Conn) : Prop where
  heard : ∀ message ∈ c.heard, Addressed s k message
  thread : ∀ effect ∈ c.thread, EffectAddressed s k effect

theorem Addressed.mono {s t : Sys} {i : ℕ} {message : TsMessage} (h : Addressed s i message)
    (hcommits : s.commits <+: t.commits) : Addressed t i message where
  own htype := by
    obtain ⟨commit, hmem, hcommit⟩ := h.own htype
    exact ⟨commit, hcommits.subset hmem, hcommit⟩
  other htype := by
    obtain ⟨commit, hmem, hcommit⟩ := h.other htype
    exact ⟨commit, hcommits.subset hmem, hcommit⟩

theorem EffectAddressed.mono {s t : Sys} {k : ℕ} {effect : Effect} (h : EffectAddressed s k effect)
    (hcommits : s.commits <+: t.commits) : EffectAddressed t k effect := by
  cases effect with
  | send message => exact Addressed.mono h hcommits
  | sendTo fd message => exact Addressed.mono h hcommits
  | broadcast message exclude =>
    obtain ⟨htype, commit, hmem, hcommit⟩ := h
    exact ⟨htype, commit, hcommits.subset hmem, hcommit⟩
  | _ => exact h

/-- A message that brings no operation is right for everybody. -/
theorem addressed_of_type {s : Sys} {i : ℕ} {message : TsMessage} (hack : message.type ≠ typeAck)
    (hremote : message.type ≠ typeRemoteOp) : Addressed s i message :=
  ⟨fun h => absurd h hack, fun h => absurd h hremote⟩

/-- Messages that bring no operation. -/
def Plain (message : TsMessage) : Prop :=
  message.type = typeWelcome ∨ message.type = typeError ∨ message.type = typeResyncRequired ∨
    message.type = typeDocState ∨ message.type = typeSaveQueued ∨ message.type = typePong

theorem Plain.ne {message : TsMessage} (h : Plain message) :
    message.type ≠ typeAck ∧ message.type ≠ typeRemoteOp := by
  rcases h with h | h | h | h | h | h <;> rw [h] <;> decide

/-- The effect brings no operation to a client. -/
def PlainEffect : Effect → Prop
  | .send message => Plain message
  | .sendTo _ _ | .broadcast _ _ => False
  | _ => True

theorem PlainEffect.addressed {s : Sys} {k : ℕ} {effect : Effect} (h : PlainEffect effect) :
    EffectAddressed s k effect := by
  cases effect with
  | send message => exact addressed_of_type h.ne.1 h.ne.2
  | sendTo fd message => exact h.elim
  | broadcast message exclude => exact h.elim
  | pipe event => trivial
  | register client => trivial
  | snapshot => trivial
  | unlock => trivial

/-- The effects of an OP: either nothing that brings an operation, or the ACK and the broadcast of an
accepted one. -/
theorem plain_or_commit {doc doc' : TsDocument} {call : DocCall} {r : TsProcessResult}
    (h : processCall doc call = some (doc', r)) :
    (r.ack = none ∧ doc'.version = doc.version ∧
      ∀ effect ∈ resultEffects call.clientId r, PlainEffect effect) ∨
    ∃ snapshot entry ack remote, r.ack = some ack ∧ doc'.version = doc.version + 1 ∧
      resultEffects call.clientId r =
        [.pipe snapshot, .pipe entry, .send ack, .broadcast remote call.clientId] ∧
      ack.type = typeAck ∧ ack.version = doc'.version ∧
      ack.clientId = snprintf tsMaxClientId call.clientId ∧
      remote.type = typeRemoteOp ∧ remote.version = doc'.version := by
  cases processOutcome h with
  | error text =>
    refine Or.inl ⟨rfl, rfl, ?_⟩
    simp only [resultEffects, errorResult, List.map_cons, List.map_nil, List.mem_singleton,
      reduceCtorEq, if_false, forall_eq]
    exact Or.inr (Or.inl rfl)
  | resync =>
    refine Or.inl ⟨rfl, rfl, ?_⟩
    simp only [resultEffects, resyncResult, List.map_cons, List.map_nil, List.mem_cons,
      List.not_mem_nil, or_false, reduceCtorEq, if_false, forall_eq_or_imp, forall_eq]
    exact ⟨Or.inr (Or.inr (Or.inl rfl)), Or.inr (Or.inr (Or.inr (Or.inl rfl)))⟩
  | ok op updated =>
    exact Or.inr ⟨_, _, _, _, rfl, acceptedDocument_version .., rfl, rfl, rfl, rfl, rfl, rfl⟩

/-- The other answers bring no operation. -/
theorem plainEffect_answer {server : TsServer} {client : TsClientConnection} {message : TsMessage}
    {out : TsServer × List Effect} (hne : message.type ≠ typeOp)
    (h : dispatchMessage server client message = some out) : ∀ e ∈ out.2, PlainEffect e := by
  rcases (dispatchMessage_of_ne hne h).2 with ⟨-, heq⟩ | ⟨-, heq⟩ | ⟨-, heq⟩ | ⟨-, -, -, heq⟩
  · rw [heq]
    exact List.forall_mem_cons.mpr ⟨trivial, List.forall_mem_singleton.mpr
      (Or.inr (Or.inr (Or.inr (Or.inr (Or.inl rfl)))))⟩
  · rw [heq]
    exact List.forall_mem_singleton.mpr (Or.inr (Or.inr (Or.inr (Or.inl rfl))))
  · rw [heq]
    exact List.forall_mem_singleton.mpr (Or.inr (Or.inr (Or.inr (Or.inr (Or.inr rfl)))))
  · rw [heq]
    exact List.forall_mem_singleton.mpr (Or.inr (Or.inl rfl))

theorem plainEffect_joinEffects (client : TsClientConnection) :
    ∀ e ∈ joinEffects client, PlainEffect e := by
  intro e he
  simp only [joinEffects, List.mem_cons, List.not_mem_nil, or_false] at he
  rcases he with rfl | rfl | rfl | rfl
  · trivial
  · exact Or.inl rfl
  · trivial
  · trivial

theorem addressed_step {s s' : Sys} {a : Action} (hnamed : Named s) (h : s.step a = some s')
    (hs : ∀ j, ConnAddressed s j (s.conns j)) : ∀ j, ConnAddressed s' j (s'.conns j) := by
  have hcommits := commits_prefix_step h
  have hold (j : ℕ) : ConnAddressed s' j (s.conns j) :=
    ⟨fun m hm => ((hs j).heard m hm).mono hcommits, fun e he => ((hs j).thread e he).mono hcommits⟩
  have hset {t : Sys} {i : ℕ} {c : Conn} (hconns : t.conns = s.conns) (hc : ConnAddressed s' i c)
      (j : ℕ) : ConnAddressed s' j ((t.setConn i c).conns j) :=
    forall_conns_set (P := fun j c => ConnAddressed s' j c) hold hconns hc j
  have hcons {i : ℕ} {effect : Effect} {rest : List Effect}
      (hthread : (s.conns i).thread = effect :: rest) :
      EffectAddressed s' i effect ∧ ∀ e ∈ rest, EffectAddressed s' i e := by
    have hall := (hold i).thread
    rw [hthread] at hall
    exact List.forall_mem_cons.mp hall
  have hpush {i : ℕ} {c : Conn} {message : TsMessage} (hc : ConnAddressed s' i c)
      (hm : Addressed s' i message) : ConnAddressed s' i (c.push message) := by
    refine ⟨fun m hmem => ?_, hc.thread⟩
    rw [Conn.heard, Conn.push, ← List.append_assoc] at hmem
    rcases List.mem_append.mp hmem with hmem | hmem
    · exact hc.heard m hmem
    · rw [List.mem_singleton.mp hmem]
      exact hm
  cases stepOutcome h with
  | connect clientId address =>
    exact hset rfl ⟨fun _ h => absurd h List.not_mem_nil, fun _ h => absurd h List.not_mem_nil⟩
  | key i op out hi hqueue => exact hset rfl ⟨(hold i).heard, (hold i).thread⟩
  | save i hi => exact hset rfl ⟨(hold i).heard, (hold i).thread⟩
  | deliver i message rest out hin hhandle =>
    refine hset rfl ⟨fun m hm => (hold i).heard m ?_, (hold i).thread⟩
    rw [Conn.heard, hin]
    simpa [Conn.heard] using hm
  | join i message rest server clientId hthread hin hphase htype hlock hchoose =>
    exact hset rfl ⟨(hold i).heard, fun e he => (plainEffect_joinEffects _ e he).addressed⟩
  | refuse i message rest hthread hin hphase htype =>
    have hplain : PlainEffect (.send joinRequired) := Or.inr (Or.inl rfl)
    exact hset rfl ⟨(hold i).heard, List.forall_mem_singleton.mpr hplain.addressed⟩
  | op i message rest document result hthread hin hphase htype hprocess =>
    refine hset rfl ⟨(hold i).heard, ?_⟩
    have hnew := commits_concat s ⟨i, message, result⟩
    rw [processMessage_eq] at hprocess
    rcases plain_or_commit hprocess with ⟨-, -, hplain⟩ |
      ⟨snapshot, entry, ack, remote, hack, -, heffects, hacktype, hackversion, -, hremote,
        hversion⟩
    · exact fun e he => (hplain e he).addressed
    · have hmem : (i, ack) ∈
          { s with processed := s.processed ++ [Processed.mk i message result] }.commits := by
        rw [hnew]
        exact List.mem_append_right _ (by rw [hack]; exact List.mem_singleton.mpr rfl)
      rw [show (s.conns i).peer.clientId = (callOf (s.conns i).peer message).clientId from rfl,
        heffects]
      refine List.forall_mem_cons.mpr ⟨trivial, List.forall_mem_cons.mpr ⟨trivial,
        List.forall_mem_cons.mpr ⟨⟨fun _ => ⟨(i, ack), hmem, rfl, rfl⟩, fun h => ?_⟩,
          List.forall_mem_singleton.mpr ⟨hremote, (i, ack), hmem, ?_, rfl⟩⟩⟩⟩
      · rw [hacktype] at h
        exact absurd h (by decide)
      · rw [hackversion, hversion]
  | answer i message rest effects hthread hin hphase htype hdispatch =>
    exact hset rfl ⟨(hold i).heard, fun e he => (plainEffect_answer htype hdispatch e he).addressed⟩
  | send i message rest hthread =>
    obtain ⟨hm, hrest⟩ := hcons hthread
    exact hset rfl (hpush ⟨(hold i).heard, hrest⟩ hm)
  | pipe i event rest hthread => exact hset rfl ⟨(hold i).heard, (hcons hthread).2⟩
  | register i client rest hthread hlock => exact hset rfl ⟨(hold i).heard, (hcons hthread).2⟩
  | snapshot i rest hthread =>
    refine hset rfl ⟨(hold i).heard, List.forall_mem_cons.mpr ⟨?_, (hcons hthread).2⟩⟩
    have hplain : PlainEffect (.send (tsDocumentSnapshot s.server.document)) :=
      Or.inr (Or.inr (Or.inr (Or.inl rfl)))
    exact hplain.addressed
  | broadcast i message exclude rest hthread hlock =>
    obtain ⟨⟨htype, commit, hmem, hversion, hauthor⟩, hrest⟩ := hcons hthread
    have hname : exclude = (s.conns i).peer.clientId :=
      hnamed.threads i (.broadcast message exclude) (by rw [hthread]; exact List.mem_cons_self)
    refine hset rfl ⟨(hold i).heard, fun e he => ?_⟩
    rcases List.mem_append.mp he with he | he
    · obtain ⟨client, hclient, rfl⟩ := List.mem_map.mp he
      obtain ⟨hclient, hne⟩ := List.mem_filter.mp hclient
      refine ⟨fun h => ?_, fun _ => ⟨commit, hmem, hversion, fun hfd => ?_⟩⟩
      · rw [htype] at h
        exact absurd h (by decide)
      · -- the author is left out
        have hid := hnamed.registered i client hclient (hfd.symm.trans hauthor)
        exact of_decide_eq_true hne (hid.trans hname.symm)
    · exact List.forall_mem_cons.mpr ⟨trivial, hrest⟩ e he
  | sendTo i fd message rest hthread =>
    obtain ⟨hm, hrest⟩ := hcons hthread
    have hmid := hset (t := s) (i := i) (c := { s.conns i with thread := rest }) rfl
      ⟨(hold i).heard, hrest⟩
    exact forall_setConn (P := fun j c => ConnAddressed _ j c) (hpush (hmid fd) hm) fun j _ => hmid j
  | unlock i rest hthread => exact hset rfl ⟨(hold i).heard, (hcons hthread).2⟩
  | saverTake written event rest hpipe => exact hold
  | saverTimer written => exact hold

/-! ## What has been sent and what is owed -/

/-- The copies of a version that an effect of the thread of connection `k` owes to client `i`. -/
def share (i : ℕ) (version : ℤ) (k : ℕ) : Effect → ℕ
  | .send message => (decide (k = i) && message.operationAt version).toNat
  | .sendTo fd message => (decide (fd = i) && message.operationAt version).toNat
  | .broadcast message _ => (decide (k ≠ i) && message.operationAt version).toNat
  | _ => 0

/-- The copies for client `i` at connection `k`: those that it has been sent, and those that the thread
owes. -/
def connCopies (i : ℕ) (version : ℤ) (k : ℕ) (c : Conn) : ℕ :=
  (if k = i then c.heard.countP (TsMessage.operationAt version) else 0) +
    (c.thread.map (share i version k)).sum

/-- All copies of a version for client `i`. -/
def copies (i : ℕ) (version : ℤ) (s : Sys) : ℕ :=
  ∑ k ∈ Finset.range s.accepted, connCopies i version k (s.conns k)

variable {i k : ℕ} {version : ℤ}

/-- A copy goes to the own client or to another one. -/
theorem toNat_and_add (j i : ℕ) (b : Bool) :
    (decide (j = i) && b).toNat + (decide (j ≠ i) && b).toNat = b.toNat := by
  by_cases hj : j = i
  · simp [hj]
  · simp [hj]

theorem Plain.operationAt {message : TsMessage} (h : Plain message) :
    message.operationAt version = false := by
  rw [TsMessage.operationAt, decide_eq_false_iff_not]
  rintro ⟨htype | htype, -⟩
  · exact h.ne.1 htype
  · exact h.ne.2 htype

theorem share_plain {effect : Effect} (h : PlainEffect effect) : share i version k effect = 0 := by
  cases effect with
  | send message =>
    rw [share, Plain.operationAt h, Bool.and_false]
    rfl
  | sendTo fd message => exact h.elim
  | broadcast message exclude => exact h.elim
  | _ => rfl

theorem sum_share_plain {effects : List Effect} (h : ∀ e ∈ effects, PlainEffect e) :
    (effects.map (share i version k)).sum = 0 := by
  refine List.sum_eq_zero fun n hn => ?_
  obtain ⟨e, he, rfl⟩ := List.mem_map.mp hn
  exact share_plain (h e he)

/-- A message that is put into the channel of connection `k`. -/
theorem connCopies_push (c : Conn) (message : TsMessage) :
    connCopies i version k (c.push message) =
      connCopies i version k c + (decide (k = i) && message.operationAt version).toNat := by
  unfold connCopies Conn.heard Conn.push
  dsimp only
  by_cases hk : k = i
  · have hlast : ((c.received ++ c.toClient) ++ [message]).countP (TsMessage.operationAt version) =
        (c.received ++ c.toClient).countP (TsMessage.operationAt version) +
          [message].countP (TsMessage.operationAt version) := List.countP_append
    rw [if_pos hk, if_pos hk, ← List.append_assoc, hlast, List.countP_singleton, decide_eq_true hk,
      Bool.true_and]
    cases message.operationAt version
    · simp
    · simp only [if_true, Bool.toNat_true]
      omega
  · rw [if_neg hk, if_neg hk, decide_eq_false hk, Bool.false_and]
    simp

/-- The sends of a broadcast. -/
theorem sum_share_sends (message : TsMessage) (clients : List TsClientConnection) :
    ((clients.map fun client => Effect.sendTo client.fd message).map (share i version k)).sum =
      if message.operationAt version then clients.countP fun client => client.fd = i else 0 := by
  induction clients with
  | nil => simp
  | cons client clients ih =>
    rw [List.map_cons, List.map_cons, List.sum_cons, ih, share, List.countP_cons]
    by_cases hfd : client.fd = i
    · cases message.operationAt version
      · simp
      · simp [hfd]
        omega
    · cases message.operationAt version
      · simp
      · simp [hfd]

/-- A broadcast sends what it owes. -/
theorem sum_share_broadcastSends {s : Sys} (honce : RegistersOnce s) (hnamed : Named s)
    {message : TsMessage} {exclude : Bytes} (hname : exclude = (s.conns k).peer.clientId) :
    ((broadcastSends s message exclude).map (share i version k)).sum ≤
      share i version k (.broadcast message exclude) := by
  rw [broadcastSends, sum_share_sends, share]
  split_ifs with hop
  · rw [hop, Bool.and_true]
    by_cases hk : k = i
    · have hnone : (s.server.clients.filter fun client => client.clientId ≠ exclude).countP
          (fun client => client.fd = i) = 0 := by
        refine List.countP_eq_zero.mpr fun client hclient hfd => ?_
        obtain ⟨hclient, hne⟩ := List.mem_filter.mp hclient
        have hid := hnamed.registered k client hclient ((of_decide_eq_true hfd).trans hk.symm)
        exact of_decide_eq_true hne (hid.trans hname.symm)
      rw [hnone]
      exact Nat.zero_le _
    · rw [decide_eq_true hk, Bool.toNat_true]
      have hone := honce i
      rw [registrations] at hone
      refine le_trans (List.Sublist.countP_le List.filter_sublist) ?_
      omega
  · exact Nat.zero_le _

/-- A step that replaces one connection by one that accounts for no more. -/
theorem copies_set_le {s t : Sys} {j : ℕ} {c : Conn} {n : ℕ} (hj : j < s.accepted)
    (hconns : t.conns = s.conns) (haccepted : t.accepted = s.accepted)
    (hc : connCopies i version j c ≤ connCopies i version j (s.conns j) + n) :
    copies i version (t.setConn j c) ≤ copies i version s + n := by
  have hsum := sum_setConn (connCopies i version) (c := c) hj hconns
  rw [copies, copies, setConn_accepted, haccepted]
  omega

/-- The copies of a version that are new between two versions of the document. -/
def committed (old new version : ℤ) : ℕ := (decide (old < version ∧ version ≤ new)).toNat

/-- Only a commit adds to the copies of a version, and only one copy for each client. -/
theorem copies_step (i : ℕ) (version : ℤ) {s s' : Sys} {a : Action} (hw : Wired s) (honce : RegistersOnce s)
    (hnamed : Named s) (h : s.step a = some s') :
    copies i version s' ≤ copies i version s +
      committed s.server.document.version s'.server.document.version version := by
  have hcons {j : ℕ} {effect : Effect} {rest : List Effect}
      (hthread : (s.conns j).thread = effect :: rest) :
      connCopies i version j (s.conns j) =
        connCopies i version j { s.conns j with thread := rest } + share i version j effect := by
    rw [connCopies, connCopies, hthread, List.map_cons, List.sum_cons]
    dsimp only [Conn.heard]
    omega
  have hlt {j : ℕ} (hne : (s.conns j).thread ≠ [] ∨ (s.conns j).toServer ≠ [] ∨
      (s.conns j).toClient ≠ []) : j < s.accepted := hw.lt_of_ne hne
  cases stepOutcome h with
  | connect clientId address =>
    refine le_trans (le_of_eq ?_) (Nat.le_add_right _ _)
    have hopened : connCopies i version s.accepted (Conn.opened s.accepted clientId address) = 0 := by
      simp [connCopies, Conn.opened, Conn.heard]
    rw [copies, copies, setConn_accepted, Finset.sum_range_succ, setConn_conns_self, hopened,
      Nat.add_zero]
    refine Finset.sum_congr rfl fun j hj => ?_
    rw [setConn_conns_of_ne _ (Finset.mem_range.mp hj).ne]
  | key j op out hj hqueue => exact copies_set_le hj rfl rfl (Nat.le_add_right _ _)
  | save j hj => exact copies_set_le hj rfl rfl (Nat.le_add_right _ _)
  | deliver j message rest out hin hhandle =>
    refine copies_set_le (hlt (by simp [hin])) rfl rfl (le_trans (le_of_eq ?_) (Nat.le_add_right _ _))
    simp [connCopies, Conn.heard, Conn.emit, hin]
  | join j message rest server clientId hthread hin hphase htype hlock hchoose =>
    refine copies_set_le (hlt (by simp [hin])) rfl rfl (le_trans (le_of_eq ?_) (Nat.le_add_right _ _))
    rw [connCopies, connCopies, hthread, sum_share_plain (plainEffect_joinEffects _)]
    rfl
  | refuse j message rest hthread hin hphase htype =>
    refine copies_set_le (hlt (by simp [hin])) rfl rfl (le_trans (le_of_eq ?_) (Nat.le_add_right _ _))
    have hplain : ∀ e ∈ [Effect.send joinRequired], PlainEffect e :=
      List.forall_mem_singleton.mpr (Or.inr (Or.inl rfl))
    rw [connCopies, connCopies, hthread, sum_share_plain hplain]
    rfl
  | op j message rest document result hthread hin hphase htype hprocess =>
    refine copies_set_le (hlt (by simp [hin])) rfl rfl ?_
    rw [connCopies, connCopies, hthread, List.map_nil, List.sum_nil]
    dsimp only [Conn.heard]
    rw [processMessage_eq] at hprocess
    rw [show (s.conns j).peer.clientId = (callOf (s.conns j).peer message).clientId from rfl]
    rcases plain_or_commit hprocess with ⟨-, -, hplain⟩ |
      ⟨snapshot, entry, ack, remote, -, hversion, heffects, hack, hackversion, -, hremote,
        hremoteversion⟩
    · rw [sum_share_plain hplain]
      omega
    · rw [heffects]
      have hackat : ack.operationAt version = decide (document.version = version) := by
        simp [TsMessage.operationAt, hack, hackversion]
      have hremoteat : remote.operationAt version = decide (document.version = version) := by
        simp [TsMessage.operationAt, hremote, hremoteversion]
      have hone := toNat_and_add j i (decide (document.version = version))
      have hcommitted : (decide (document.version = version)).toNat ≤
          committed s.server.document.version document.version version := by
        unfold committed
        by_cases hv : document.version = version
        · rw [decide_eq_true hv, decide_eq_true (by omega)]
        · rw [decide_eq_false hv]
          exact Nat.zero_le _
      refine le_trans ?_ (Nat.add_le_add_left hcommitted _)
      simp only [List.map_cons, List.map_nil, List.sum_cons, List.sum_nil, share, hackat, hremoteat]
      omega
  | answer j message rest effects hthread hin hphase htype hdispatch =>
    refine copies_set_le (hlt (by simp [hin])) rfl rfl (le_trans (le_of_eq ?_) (Nat.le_add_right _ _))
    have hplain : ∀ e ∈ effects, PlainEffect e := plainEffect_answer htype hdispatch
    rw [connCopies, connCopies, hthread, sum_share_plain hplain]
    rfl
  | send j message rest hthread =>
    refine copies_set_le (hlt (by simp [hthread])) rfl rfl
      (le_trans (le_of_eq ?_) (Nat.le_add_right _ _))
    rw [connCopies_push, hcons hthread]
    rfl
  | pipe j event rest hthread | register j client rest hthread | unlock j rest hthread =>
    refine copies_set_le (hlt (by simp [hthread])) rfl rfl ?_
    rw [hcons hthread]
    omega
  | snapshot j rest hthread =>
    refine copies_set_le (hlt (by simp [hthread])) rfl rfl (le_trans (le_of_eq ?_) (Nat.le_add_right _ _))
    have hplain : PlainEffect (.send (tsDocumentSnapshot s.server.document)) :=
      Or.inr (Or.inr (Or.inr (Or.inl rfl)))
    have hsnapshot : share i version j (.send (tsDocumentSnapshot s.server.document)) = 0 :=
      share_plain hplain
    rw [connCopies, connCopies, hthread, List.map_cons, List.map_cons, List.sum_cons, List.sum_cons,
      hsnapshot]
    rfl
  | broadcast j message exclude rest hthread hlock =>
    refine copies_set_le (hlt (by simp [hthread])) rfl rfl ?_
    have hname : exclude = (s.conns j).peer.clientId :=
      hnamed.threads j (.broadcast message exclude) (by rw [hthread]; exact List.mem_cons_self)
    have hsends : ((broadcastSends s message exclude).map (share i version j)).sum ≤
        share i version j (.broadcast message exclude) := sum_share_broadcastSends honce hnamed hname
    rw [hcons hthread]
    simp only [connCopies, Conn.heard, List.map_append, List.sum_append, List.map_cons, List.sum_cons]
    rw [show share i version j Effect.unlock = 0 from rfl]
    omega
  | sendTo j fd message rest hthread =>
    obtain ⟨-, client, hclient, rfl⟩ : EffectWired s.server.clients j (.sendTo fd message) :=
      hw.threads j _ (by rw [hthread]; exact List.mem_cons_self)
    refine le_trans (le_of_eq ?_) (Nat.le_add_right _ _)
    have hmid := sum_setConn (connCopies i version) (t := s) (c := { s.conns j with thread := rest })
      (hlt (j := j) (by simp [hthread])) rfl
    have hpush := sum_setConn (connCopies i version)
      (s := s.setConn j { s.conns j with thread := rest })
      (t := s.setConn j { s.conns j with thread := rest })
      (c := ((s.setConn j { s.conns j with thread := rest }).conns client.fd).push message)
      (hw.clients client hclient) rfl
    rw [connCopies_push] at hpush
    rw [hcons hthread] at hmid
    unfold copies
    simp only [share] at hmid
    simp only [setConn_accepted] at hpush ⊢
    omega
  | saverTake written event rest hpipe => exact Nat.le_add_right _ _
  | saverTimer written => exact Nat.le_add_right _ _

/-! ## Nothing that is owed is lost -/

/-- The effect of the thread of connection `k` owes a copy to client `i`. -/
def OwedBy (s : Sys) (i : ℕ) (version : ℤ) (k : ℕ) : Effect → Prop
  | .send message => k = i ∧ message.operationAt version = true
  | .sendTo fd message => fd = i ∧ message.operationAt version = true
  | .broadcast message exclude => message.operationAt version = true ∧
    ∃ client ∈ s.server.clients, client.fd = i ∧ client.clientId ≠ exclude
  | _ => False

/-- Client `i` has been sent a copy, or it is owed one. -/
inductive Owed (s : Sys) (i : ℕ) (version : ℤ) : Prop
  | heard (message : TsMessage) (hin : message ∈ (s.conns i).heard)
      (hop : message.operationAt version = true)
  | owed (k : ℕ) (effect : Effect) (hin : effect ∈ (s.conns k).thread)
      (howed : OwedBy s i version k effect)

theorem OwedBy.mono {s t : Sys} {effect : Effect} (h : OwedBy s i version k effect)
    (hclients : s.server.clients ⊆ t.server.clients) : OwedBy t i version k effect := by
  cases effect with
  | broadcast message exclude =>
    obtain ⟨hop, client, hclient, hfd⟩ := h
    exact ⟨hop, client, hclients hclient, hfd⟩
  | _ => exact h

/-- Replacing a connection loses nothing that is owed, up to what its thread loses. -/
theorem Owed.set_or {s t : Sys} {j : ℕ} {c : Conn} {p : Prop} (h : Owed s i version)
    (hconns : t.conns = s.conns) (hclients : s.server.clients ⊆ t.server.clients)
    (hheard : (s.conns j).heard ⊆ c.heard)
    (hthread : ∀ effect ∈ (s.conns j).thread, OwedBy s i version j effect → effect ∈ c.thread ∨ p) :
    Owed (t.setConn j c) i version ∨ p := by
  cases h with
  | heard message hin hop =>
    refine Or.inl (.heard message ?_ hop)
    refine forall_setConn (P := fun k c => message ∈ (s.conns k).heard → message ∈ c.heard)
      (fun h => hheard h) (fun k _ => ?_) i hin
    rw [hconns]
    exact id
  | owed k effect hin howed =>
    by_cases hk : k = j
    · subst hk
      rcases hthread effect hin howed with hin' | hdone
      · exact Or.inl (.owed k effect (by rw [setConn_conns_self]; exact hin') (howed.mono hclients))
      · exact Or.inr hdone
    · exact Or.inl (.owed k effect (by rw [setConn_conns_of_ne t hk, hconns]; exact hin)
        (howed.mono hclients))

/-- Replacing a connection loses nothing that is owed if its thread does not. -/
theorem Owed.set {s t : Sys} {j : ℕ} {c : Conn} (h : Owed s i version) (hconns : t.conns = s.conns)
    (hclients : s.server.clients ⊆ t.server.clients) (hheard : (s.conns j).heard ⊆ c.heard)
    (hthread : ∀ effect ∈ (s.conns j).thread, OwedBy s i version j effect →
      effect ∈ c.thread ∨ Owed (t.setConn j c) i version) : Owed (t.setConn j c) i version :=
  (h.set_or hconns hclients hheard hthread).elim id id

/-- Only the connections and the list of clients matter. -/
theorem Owed.congr {s t : Sys} (h : Owed s i version) (hconns : t.conns = s.conns)
    (hclients : s.server.clients ⊆ t.server.clients) : Owed t i version := by
  cases h with
  | heard message hin hop => exact .heard message (by rw [hconns]; exact hin) hop
  | owed k effect hin howed =>
    exact .owed k effect (by rw [hconns]; exact hin) (howed.mono hclients)

theorem owed_step {s s' : Sys} {a : Action} (hw : Wired s) (h : s.step a = some s')
    (howed : Owed s i version) : Owed s' i version := by
  -- the first effect is done, and what it owed has been sent
  have hdone {j : ℕ} {effect : Effect} {rest : List Effect} {p : Prop}
      (hthread : (s.conns j).thread = effect :: rest)
      (hhead : OwedBy s i version j effect → p) :
      ∀ e ∈ (s.conns j).thread, OwedBy s i version j e → e ∈ rest ∨ p := by
    rw [hthread]
    intro e he howed
    rcases List.mem_cons.mp he with rfl | he
    · exact Or.inr (hhead howed)
    · exact Or.inl he
  have hidle {j : ℕ} {effects : List Effect} {p : Prop} (hthread : (s.conns j).thread = []) :
      ∀ e ∈ (s.conns j).thread, OwedBy s i version j e → e ∈ effects ∨ p := by
    rw [hthread]
    exact fun e he => absurd he List.not_mem_nil
  have hsame (j : ℕ) : (s.conns j).heard ⊆ (s.conns j).heard := List.Subset.refl _
  have hclients : s.server.clients ⊆ s.server.clients := List.Subset.refl _
  cases stepOutcome h with
  | connect clientId address =>
    have habsent := hw.absent s.accepted le_rfl
    refine howed.set rfl hclients ?_ ?_
    · rw [habsent]
      exact List.nil_subset _
    · rw [habsent]
      exact fun e he => absurd he List.not_mem_nil
  | key j op out hj hqueue => exact howed.set rfl hclients (hsame j) fun e he _ => Or.inl he
  | save j hj => exact howed.set rfl hclients (hsame j) fun e he _ => Or.inl he
  | deliver j message rest out hin hhandle =>
    refine howed.set rfl hclients ?_ fun e he _ => Or.inl he
    simp [Conn.heard, hin]
  | join j message rest server clientId hthread hin hphase htype hlock hchoose =>
    exact howed.set rfl (by rw [(chooseClientId_server hchoose).1]; exact hclients) (hsame j)
      (hidle hthread)
  | refuse j message rest hthread => exact howed.set rfl hclients (hsame j) (hidle hthread)
  | op j message rest document result hthread =>
    exact howed.set rfl hclients (hsame j) (hidle hthread)
  | answer j message rest effects hthread => exact howed.set rfl hclients (hsame j) (hidle hthread)
  | send j message rest hthread =>
    refine howed.set rfl hclients ?_ (hdone hthread fun ⟨hj, hop⟩ => ?_)
    · rw [Conn.heard, Conn.push, Conn.heard, ← List.append_assoc]
      exact List.subset_append_left _ _
    · subst hj
      refine .heard message ?_ hop
      rw [setConn_conns_self, Conn.heard, Conn.push, ← List.append_assoc]
      exact List.mem_append_right _ (List.mem_singleton.mpr rfl)
  | pipe j event rest hthread => exact howed.set rfl hclients (hsame j) (hdone hthread False.elim)
  | register j client rest hthread =>
    exact howed.set rfl (List.subset_cons_self ..) (hsame j) (hdone hthread False.elim)
  | snapshot j rest hthread =>
    refine howed.set rfl hclients (hsame j) fun e he hby => ?_
    rcases hdone (p := False) hthread id e he hby with he | hfalse
    · exact Or.inl (List.mem_cons_of_mem _ he)
    · exact hfalse.elim
  | broadcast j message exclude rest hthread =>
    refine howed.set rfl hclients (hsame j) fun e he hby => ?_
    rw [hthread] at he
    rcases List.mem_cons.mp he with rfl | he
    · obtain ⟨hop, client, hclient, hfd, hne⟩ := hby
      refine Or.inr (.owed j (.sendTo client.fd message) ?_ ⟨hfd, hop⟩)
      rw [setConn_conns_self]
      exact List.mem_append_left _ (List.mem_map.mpr
        ⟨client, List.mem_filter.mpr ⟨hclient, decide_eq_true hne⟩, rfl⟩)
    · exact Or.inl (List.mem_append_right _ (List.mem_cons_of_mem _ he))
  | sendTo j fd message rest hthread =>
    have hpush (c : Conn) : c.heard ⊆ (c.push message).heard := by
      rw [Conn.heard, Conn.heard, Conn.push, ← List.append_assoc]
      exact List.subset_append_left _ _
    rcases howed.set_or (t := s) (c := { s.conns j with thread := rest }) rfl hclients (hsame j)
      (hdone hthread id) with hmid | ⟨hfd, hop⟩
    · exact hmid.set rfl hclients (hpush _) fun e he _ => Or.inl he
    · subst hfd
      refine .heard message ?_ hop
      rw [setConn_conns_self, Conn.heard, Conn.push, ← List.append_assoc]
      exact List.mem_append_right _ (List.mem_singleton.mpr rfl)
  | unlock j rest hthread => exact howed.set rfl hclients (hsame j) (hdone hthread False.elim)
  | saverTake written event rest hpipe => exact howed.congr rfl hclients
  | saverTimer written => exact howed.congr rfl hclients

/-- An accepted operation is owed to its author and to every client on the list with another id. -/
theorem owed_commit {s s' : Sys} {a : Action} (hnamed : Named s) (h : s.step a = some s')
    {commit : ℕ × TsMessage} (hcommit : commit ∈ s'.commits) (hnew : commit ∉ s.commits)
    {client : TsClientConnection} (hclient : client ∈ s.server.clients)
    (hid : commit.1 = client.fd ∨ client.clientId ≠ commit.2.clientId) :
    Owed s' client.fd commit.2.version := by
  rcases commit_cases h with ⟨hcommits, -⟩ | ⟨-⟩
  · rw [hcommits] at hcommit
    exact absurd hcommit hnew
  cases stepOutcome h with
  | op i message rest document result hthread hin hphase htype hprocess =>
    rw [processMessage_eq] at hprocess
    have hcommit' : commit ∈ s.commits ++ (result.ack.map fun ack => (i, ack)).toList :=
      commits_concat s ⟨i, message, result⟩ ▸ hcommit
    have hlast := (List.mem_append.mp hcommit').resolve_left hnew
    rcases plain_or_commit hprocess with ⟨hack, -⟩ |
      ⟨snapshot, entry, ack, remote, hack, -, heffects, hacktype, hversion, hname, hremote,
        hremoteversion⟩
    · rw [hack] at hlast
      exact absurd hlast List.not_mem_nil
    rw [hack] at hlast
    obtain rfl := List.mem_singleton.mp hlast
    have hthread' : resultEffects (s.conns i).peer.clientId result =
        [.pipe snapshot, .pipe entry, .send ack, .broadcast remote (s.conns i).peer.clientId] :=
      heffects
    have hackat : ack.operationAt ack.version = true := by
      simp [TsMessage.operationAt, hacktype]
    have hremoteat : remote.operationAt ack.version = true := by
      simp [TsMessage.operationAt, hremote, hremoteversion, hversion]
    by_cases hown : i = client.fd
    · refine .owed i (.send ack) ?_ ⟨hown, hackat⟩
      rw [setConn_conns_self, hthread']
      simp
    · refine .owed i (.broadcast remote (s.conns i).peer.clientId) ?_
        ⟨hremoteat, client, hclient, rfl, fun hsame => ?_⟩
      · rw [setConn_conns_self, hthread']
        simp
      · refine (hid.resolve_left hown) ?_
        rw [hname, hsame]
        exact (hnamed.fits i).symm
  | join i message rest server clientId hthread hin hphase htype hlock hchoose =>
    exact absurd hcommit hnew
  | _ => exact absurd hcommit hnew

/-! ## Runs -/

/-- What the counting of copies rests on. -/
structure Counted (s : Sys) : Prop where
  reached : Reached s
  once : RegistersOnce s
  named : Named s
  addressed : ∀ j, ConnAddressed s j (s.conns j)
  copies : ∀ i version, copies i version s ≤ 1
  future : ∀ i version, s.server.document.version < version → Sys.copies i version s = 0

theorem counted_init (text : Bytes) (limit : ℕ) (path : Bytes) : Counted (init text limit path) where
  reached := reached_init text limit path
  once := registersOnce_init text limit path
  named := named_init text limit path
  addressed _ := ⟨fun _ h => absurd h List.not_mem_nil, fun _ h => absurd h List.not_mem_nil⟩
  copies _ _ := Nat.zero_le 1
  future _ _ _ := rfl

theorem Counted.step {s s' : Sys} {a : Action} (hs : Counted s) (h : s.step a = some s') :
    Counted s' := by
  have hversion := hs.reached.logged.version_step h
  refine
    { reached := hs.reached.step h
      once := hs.once.step hs.reached.wired h
      named := hs.named.step hs.reached.wired hs.once h
      addressed := addressed_step hs.named h hs.addressed
      copies := fun i version => ?_
      future := fun i version hlt => ?_ }
  · have hstep := copies_step i version hs.reached.wired hs.once hs.named h
    have hle := hs.copies i version
    by_cases hnew : s.server.document.version < version ∧ version ≤ s'.server.document.version
    · rw [hs.future i version hnew.1, committed, decide_eq_true hnew, Bool.toNat_true] at hstep
      exact hstep
    · rw [committed, decide_eq_false hnew, Bool.toNat_false] at hstep
      omega
  · have hstep := copies_step i version hs.reached.wired hs.once hs.named h
    rw [hs.future i version (by omega), committed, decide_eq_false (by omega), Bool.toNat_false]
      at hstep
    omega

theorem counted_run {text : Bytes} {limit : ℕ} {path : Bytes} {actions : List Action} {s : Sys}
    (hrun : run Sys.step (Sys.init text limit path) actions = some s) : Counted s :=
  run_invariant (fun _ _ _ hs h => hs.step h) (counted_init text limit path) hrun

/-- The copies that have been sent are among all copies. -/
theorem Counted.heard_le {s : Sys} (hs : Counted s) (i : ℕ) (version : ℤ) :
    (s.conns i).heard.countP (TsMessage.operationAt version) ≤ 1 := by
  by_cases hi : i < s.accepted
  · have hsingle := Finset.single_le_sum (f := fun k => connCopies i version k (s.conns k))
      (fun _ _ => Nat.zero_le _) (Finset.mem_range.mpr hi)
    have hle := hs.copies i version
    unfold Sys.copies at hle
    rw [connCopies, if_pos rfl] at hsingle
    omega
  · rw [hs.reached.wired.absent i (by omega)]
    exact Nat.zero_le 1

/-- In every run, every client is sent the operation of each version at most once: its own operations as
ACKs, those of the other clients as REMOTE_OPs. -/
theorem sent_once (text : Bytes) (limit : ℕ) (path : Bytes) (actions : List Action) (s : Sys)
    (hrun : run Sys.step (Sys.init text limit path) actions = some s) (i : ℕ) : s.SentOnce i where
  once := (counted_run hrun).heard_le i
  own message hm := (((counted_run hrun).addressed i).heard message hm).own
  other message hm := (((counted_run hrun).addressed i).heard message hm).other

/-- The second client types a character, and both clients get it. -/
def oneTypes : List Action :=
  [Action.key 1 (tsOperationInit .insert 0 (bytes "x"))] ++ List.replicate 7 (Action.serve 1) ++
    [Action.deliver 0, Action.deliver 1]

theorem sent_once_oneTypes :
    ∃ s, run Sys.step (Sys.init [] 10 (bytes "f")) (bothJoin ++ oneTypes) = some s ∧
      (∃ message ∈ (s.conns 1).heard, message.type = typeAck) ∧
      (∃ message ∈ (s.conns 0).heard, message.type = typeRemoteOp) ∧
      s.SentOnce 0 ∧ s.SentOnce 1 := by
  have hany : (run Sys.step (Sys.init [] 10 (bytes "f")) (bothJoin ++ oneTypes)).any
      (fun s => decide ((∃ message ∈ (s.conns 1).heard, message.type = typeAck) ∧
        ∃ message ∈ (s.conns 0).heard, message.type = typeRemoteOp)) = true := by decide +kernel
  obtain ⟨s, hrun, hs⟩ := (Option.any_eq_true _ _).mp hany
  obtain ⟨hack, hremote⟩ := of_decide_eq_true hs
  exact ⟨s, hrun, hack, hremote, sent_once [] 10 (bytes "f") _ s hrun 0,
    sent_once [] 10 (bytes "f") _ s hrun 1⟩

/-- A client that is on the list when an operation is accepted gets it exactly once, whatever else
happens until nothing is on its way any more, unless another client with its id has sent it. -/
theorem received_once (text : Bytes) (limit : ℕ) (path : Bytes) (before after : List Action)
    (mid s : Sys) (hbefore : run Sys.step (Sys.init text limit path) before = some mid)
    (hafter : run Sys.step mid after = some s) (hquiescent : s.Quiescent)
    (client : TsClientConnection) (hclient : client ∈ mid.server.clients)
    (commit : ℕ × TsMessage) (hcommit : commit ∈ s.commits) (hnew : commit ∉ mid.commits)
    (hid : commit.1 = client.fd ∨ client.clientId ≠ commit.2.clientId) :
    (s.conns client.fd).received.countP (TsMessage.operationAt commit.2.version) = 1 := by
  have hmid := counted_run hbefore
  have hlater : Counted s ∧ client ∈ s.server.clients ∧ ∀ commit ∈ s.commits, commit ∉ mid.commits →
      (commit.1 = client.fd ∨ client.clientId ≠ commit.2.clientId) →
        Owed s client.fd commit.2.version := by
    refine run_invariant (P := fun t => Counted t ∧ client ∈ t.server.clients ∧
      ∀ commit ∈ t.commits, commit ∉ mid.commits →
        (commit.1 = client.fd ∨ client.clientId ≠ commit.2.clientId) →
          Owed t client.fd commit.2.version) ?_
      ⟨hmid, hclient, fun commit hmem hnot => absurd hmem hnot⟩ hafter
    rintro t a t' ⟨hcounted, hlisted, howed⟩ h
    refine ⟨hcounted.step h, clients_step h hlisted, fun commit hmem hnot hid => ?_⟩
    by_cases hold : commit ∈ t.commits
    · exact owed_step hcounted.reached.wired h (howed commit hold hnot hid)
    · exact owed_commit hcounted.named h hmem hold hlisted hid
  obtain ⟨hcounted, hlisted, howed⟩ := hlater
  have hw := hcounted.reached.wired
  have hidle := hquiescent client.fd (hw.clients client hlisted)
  have hheard : (s.conns client.fd).heard = (s.conns client.fd).received := by
    rw [Conn.heard, hidle.2.1, List.append_nil]
  have hle := hcounted.heard_le client.fd commit.2.version
  rw [hheard] at hle
  refine le_antisymm hle ?_
  rw [Nat.succ_le_iff, List.countP_pos_iff]
  cases howed commit hcommit hnew hid with
  | heard message hin hop => exact ⟨message, hheard ▸ hin, hop⟩
  | owed k effect hin howed =>
    have hk := hw.lt_of_ne (i := k) (Or.inl (List.ne_nil_of_mem hin))
    rw [(hquiescent k hk).2.2] at hin
    exact absurd hin List.not_mem_nil

theorem received_once_bothJoin :
    ∃ mid s commit, run Sys.step (Sys.init [] 10 (bytes "f")) bothJoin = some mid ∧
      run Sys.step mid oneTypes = some s ∧ commit ∈ s.commits ∧ commit.1 = 1 ∧
      (s.conns 0).received.countP (TsMessage.operationAt commit.2.version) = 1 := by
  have hany : (run Sys.step (Sys.init [] 10 (bytes "f")) bothJoin).any (fun mid =>
      (run Sys.step mid oneTypes).any fun s => decide (s.Quiescent ∧
        ∃ client ∈ mid.server.clients, ∃ commit ∈ s.commits, commit ∉ mid.commits ∧
          client.clientId ≠ commit.2.clientId ∧ client.fd = 0 ∧ commit.1 = 1)) = true := by
    decide +kernel
  obtain ⟨mid, hmid, hany⟩ := (Option.any_eq_true _ _).mp hany
  obtain ⟨s, hs, hany⟩ := (Option.any_eq_true _ _).mp hany
  obtain ⟨hquiescent, client, hclient, commit, hcommit, hnew, hid, hfd, hauthor⟩ :=
    of_decide_eq_true hany
  have honce := received_once [] 10 (bytes "f") bothJoin oneTypes mid s hmid hs hquiescent client
    hclient commit hcommit hnew (Or.inr hid)
  rw [hfd] at honce
  exact ⟨mid, s, commit, hmid, hs, hcommit, hauthor, honce⟩

end Sys

end TermSync
