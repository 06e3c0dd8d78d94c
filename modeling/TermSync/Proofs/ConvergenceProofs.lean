import TermSync.Proofs.ClientStateProofs
import TermSync.Proofs.SystemProofs
import TermSync.SystemProperties

/-!
# Proofs: convergence

Every message carries what the server has committed (`Sourced`). A client's copy is the text of its
version or a whole document is still on its way (`Synced`), and as long as a client does not have the
newest version, something that brings it is on its way as well (`Informed`). In a quiescent state
nothing is on its way, so the copies are the server's document.
-/

namespace TermSync

open Foundations

/-- The message that an effect sends. -/
def Effect.message? : Effect → Option TsMessage
  | .send message | .broadcast message _ | .sendTo _ message => some message
  | _ => none

/-- Neither a message nor a snapshot for the own client. -/
def Effect.Other : Effect → Prop
  | .send _ | .snapshot => False
  | _ => True

namespace Sys

/-! ## Where messages come from -/

/-- The operations and documents in a message are the server's. -/
structure MessageSourced (s : Sys) (message : TsMessage) : Prop where
  op : message.type = typeAck ∨ message.type = typeRemoteOp → message.hasOp = true ∧
    ∃ commit ∈ s.commits, commit.2.version = message.version ∧ commit.2.op = message.op
  doc : message.type = typeDocState → 0 ≤ message.version ∧
    message.version ≤ s.server.document.version ∧
    ∃ content, message.content = some content ∧ s.textAt message.version = some content

/-- All messages for a client are the server's, and the client is not ahead of the server. -/
structure ConnSourced (s : Sys) (c : Conn) : Prop where
  channel : ∀ message ∈ c.toClient, MessageSourced s message
  thread : ∀ effect ∈ c.thread, ∀ message ∈ effect.message?, MessageSourced s message
  version : 0 ≤ c.client.version ∧ c.client.version ≤ s.server.document.version

/-- All messages under way are the server's, and no client is ahead of the server. -/
structure Sourced (s : Sys) : Prop where
  logged : Logged s
  conns : ∀ j, ConnSourced s (s.conns j)

theorem MessageSourced.step {s s' : Sys} {a : Action} {message : TsMessage} (hs : Logged s)
    (h : s.step a = some s') (hm : MessageSourced s message) : MessageSourced s' message where
  op htype := by
    obtain ⟨hop, commit, hmem, hcommit⟩ := hm.op htype
    exact ⟨hop, commit, (commits_prefix_step h).subset hmem, hcommit⟩
  doc htype := by
    obtain ⟨h0, hle, content, hcontent, htext⟩ := hm.doc htype
    exact ⟨h0, hle.trans (hs.version_step h), content, hcontent,
      (hs.textAt_step h hle).trans htext⟩

/-- A message that carries neither an operation nor a document. -/
theorem messageSourced_of_type {s : Sys} {message : TsMessage}
    (h : message.type ≠ typeAck ∧ message.type ≠ typeRemoteOp ∧ message.type ≠ typeDocState) :
    MessageSourced s message where
  op htype := by
    rcases htype with htype | htype
    · exact absurd htype h.1
    · exact absurd htype h.2.1
  doc htype := absurd htype h.2.2

/-- A snapshot of the document. -/
theorem Logged.snapshot_sourced {s : Sys} (hs : Logged s) {message : TsMessage}
    (hversion : message.version = s.server.document.version)
    (hcontent : message.content = some s.server.document.text)
    (htype : message.type = typeDocState) : MessageSourced s message where
  op h := by
    rw [htype] at h
    exact absurd h (by decide)
  doc _ := by
    have hver := hs.window.version_nonneg
    exact ⟨by omega, by omega, _, hcontent, by rw [hversion]; exact hs.textAt_version⟩

/-! ## The local copy -/

/-- The message is about a version of the document. -/
def Carries (message : TsMessage) : Prop :=
  message.type = typeAck ∨ message.type = typeRemoteOp ∨ message.type = typeDocState

/-- What a message that finds the client in order does to the local copy. -/
inductive CopyOutcome (state : TsClientState) (message : TsMessage)
    (out : TsClientState × List TsMessage) : Prop
  | kept (htype : message.type ≠ typeDocState) (hcontent : out.1.content = state.content)
      (hversion : out.1.version = state.version)
      (hold : Carries message → message.version ≤ state.version ∨ requestDoc ∈ out.2)
  | applied (htype : message.type = typeAck ∨ message.type = typeRemoteOp)
      (hnext : message.version = state.version + 1)
      (happly : tsApplyOperationToText state.content message.op = some out.1.content)
      (hversion : out.1.version = message.version)
  | replaced (htype : message.type = typeDocState) (hold : state.version ≤ message.version)
      (hcontent : message.content = some out.1.content) (hversion : out.1.version = message.version)

theorem copyOutcome {s : Sys} {c : Conn} {message : TsMessage}
    {out : TsClientState × List TsMessage} (hm : MessageSourced s message)
    (hlogged : Logged s) (horder : c.InOrder message)
    (hhandle : tsClientStateHandleMessage c.client message = some out) :
    CopyOutcome c.client message out := by
  have happlied {applied : TsClientState}
      (htype : message.type = typeAck ∨ message.type = typeRemoteOp)
      (happly : applyAuthoritativeOp c.client message = some applied) :
      tsApplyOperationToText c.client.content message.op = some applied.content ∧
        applied.version = message.version := by
    obtain ⟨hop, commit, hmem, hversion, -⟩ := hm.op htype
    have hpos := (hlogged.textAt_commit hmem).1
    obtain ⟨content, hcontent, rfl⟩ := applyAuthoritativeOp_eq happly hop (by omega)
    exact ⟨hcontent, rfl⟩
  cases handleOutcome hhandle with
  | docState htype =>
    obtain ⟨h0, -, content, hcontent, -⟩ := hm.doc htype
    refine .replaced htype (horder.2 htype) ?_ ?_
    · simp [tsClientStateSetDocument, hcontent]
    · simp [tsClientStateSetDocument, if_neg (show ¬ message.version < 0 by omega)]
  | welcome htype =>
    refine .kept (by rw [htype]; decide) rfl rfl fun h => ?_
    rw [Carries, htype] at h
    exact absurd h (by decide)
  | ack htype applied status hmatch happly =>
    obtain ⟨hcontent, hversion⟩ := happlied (Or.inl htype) happly
    have hnext := horder.1 htype
    rw [if_pos hmatch] at hnext
    exact .applied (Or.inl htype) hnext (by simpa using hcontent) (by simpa using hversion)
  | staleAck htype status hmatch =>
    have hold := horder.1 htype
    rw [if_neg hmatch] at hold
    exact .kept (by rw [htype]; decide) rfl rfl fun _ => Or.inl hold
  | oldRemote htype hversion =>
    exact .kept (by rw [htype]; decide) rfl rfl fun _ => Or.inl hversion
  | missedRemote htype status hversion =>
    exact .kept (by rw [htype]; decide) rfl rfl fun _ => Or.inr (List.mem_singleton.mpr rfl)
  | remote htype applied status hnext happly =>
    obtain ⟨hcontent, hversion⟩ := happlied (Or.inr htype) happly
    exact .applied (Or.inr htype) hnext hcontent hversion
  | resync htype =>
    refine .kept (by rw [htype]; decide) rfl rfl fun h => ?_
    rw [Carries, htype] at h
    exact absurd h (by decide)
  | other hdoc hack hremote hresync status =>
    refine .kept hdoc rfl rfl fun h => ?_
    rcases h with h | h | h
    · exact absurd h hack
    · exact absurd h hremote
    · exact absurd h hdoc

/-- A message leads from the text of a version to the text of another version. -/
theorem CopyOutcome.synced {s : Sys} {state : TsClientState} {message : TsMessage}
    {out : TsClientState × List TsMessage} (h : CopyOutcome state message out)
    (hm : MessageSourced s message) (hlogged : Logged s)
    (hs : message.type = typeDocState ∨ s.textAt state.version = some state.content) :
    s.textAt out.1.version = some out.1.content := by
  cases h with
  | kept htype hcontent hversion =>
    rw [hcontent, hversion]
    exact hs.resolve_left htype
  | applied htype hnext happly hversion =>
    rcases hs with htype' | hs
    · rw [htype'] at htype
      exact absurd htype (by decide)
    · obtain ⟨-, commit, hmem, hcv, hco⟩ := hm.op htype
      obtain ⟨-, -, htext⟩ := hlogged.textAt_commit hmem
      rw [hversion, ← hcv, htext, hcv, hnext, add_sub_cancel_right, hs, hco]
      exact happly
  | replaced htype hold hcontent hversion =>
    obtain ⟨-, -, content, hcontent', htext⟩ := hm.doc htype
    rw [hversion, htext, ← hcontent', hcontent]

/-- No message leads a client ahead of the server. -/
theorem CopyOutcome.version {s : Sys} {state : TsClientState} {message : TsMessage}
    {out : TsClientState × List TsMessage} (h : CopyOutcome state message out)
    (hm : MessageSourced s message) (hlogged : Logged s)
    (hs : 0 ≤ state.version ∧ state.version ≤ s.server.document.version) :
    state.version ≤ out.1.version ∧ out.1.version ≤ s.server.document.version := by
  cases h with
  | kept htype hcontent hversion => omega
  | applied htype hnext happly hversion =>
    obtain ⟨-, commit, hmem, hcv, -⟩ := hm.op htype
    obtain ⟨-, hle, -⟩ := hlogged.textAt_commit hmem
    omega
  | replaced htype hold hcontent hversion =>
    obtain ⟨-, hle, -⟩ := hm.doc htype
    omega

theorem keyOutcome {state : TsClientState} {op : TsOperation}
    {out : TsClientState × List TsMessage} (h : tsClientStateQueueOperation state op = some out) :
    out.1.content = state.content ∧ out.1.version = state.version := by
  obtain ⟨-, status, rfl⟩ := queueOperation_eq h
  simp

/-! ## Every message is the server's -/

theorem sourced_init (text : Bytes) (limit : ℕ) (path : Bytes) : Sourced (init text limit path) where
  logged := logged_init text limit path
  conns _ := ⟨by simp [init, Conn.none], by simp [init, Conn.none], le_rfl, le_rfl⟩

theorem ConnSourced.step {s s' : Sys} {a : Action} {c : Conn} (hs : Logged s)
    (h : s.step a = some s') (hc : ConnSourced s c) : ConnSourced s' c where
  channel message hm := (hc.channel message hm).step hs h
  thread effect he message hm := (hc.thread effect he message hm).step hs h
  version := ⟨hc.version.1, hc.version.2.trans (hs.version_step h)⟩

/-- The head effect of a thread and the rest. -/
theorem ConnSourced.cons {s : Sys} {c : Conn} {effect : Effect} {rest : List Effect}
    (hc : ConnSourced s c) (hthread : c.thread = effect :: rest) :
    (∀ m ∈ effect.message?, MessageSourced s m) ∧ ConnSourced s { c with thread := rest } := by
  have h := hc.thread
  rw [hthread] at h
  exact ⟨h effect List.mem_cons_self, hc.channel,
    fun e he => h e (List.mem_cons_of_mem _ he), hc.version⟩

theorem ConnSourced.push {s : Sys} {c : Conn} {message : TsMessage} (hc : ConnSourced s c)
    (hm : MessageSourced s message) : ConnSourced s (c.push message) where
  channel m hmem := by
    rcases List.mem_append.mp hmem with hmem | hmem
    · exact hc.channel m hmem
    · rw [List.mem_singleton.mp hmem]
      exact hm
  thread := hc.thread
  version := hc.version

/-- What a thread sends for an OP is the server's. -/
theorem resultEffects_sourced {s s' : Sys} {client : TsClientConnection} {message : TsMessage}
    {result : TsProcessResult} {i : ℕ} (hlogged : Logged s')
    (hprocess : processMessage s.server client message = some (s'.server.document, result))
    (hcommits : s'.commits = s.commits ++ (result.ack.map fun ack => (i, ack)).toList) :
    ∀ effect ∈ resultEffects client.clientId result, ∀ m ∈ effect.message?,
      MessageSourced s' m := by
  rw [processMessage_eq] at hprocess
  generalize hdoc : s'.server.document = doc at hprocess
  cases processOutcome hprocess with
  | error text =>
    simp only [resultEffects, errorResult, List.map_cons, List.map_nil, List.mem_singleton,
      reduceCtorEq, if_false, forall_eq, Effect.message?, Option.mem_some]
    rintro m rfl
    exact messageSourced_of_type (by simp only [setMessageError]; decide)
  | resync =>
    simp only [resultEffects, resyncResult, List.map_cons, List.map_nil, List.mem_cons,
      List.not_mem_nil, or_false, reduceCtorEq, if_false, forall_eq_or_imp, forall_eq,
      Effect.message?, Option.mem_some]
    constructor
    · rintro m rfl
      exact messageSourced_of_type (by simp only; decide)
    · rintro m rfl
      exact hlogged.snapshot_sourced (by rw [hdoc]) (by rw [hdoc]) rfl
  | ok op updated =>
    obtain ⟨ack, hack⟩ : ∃ ack, ack ∈ s'.commits ∧ ack.2.version = s.server.document.version + 1 ∧
        ack.2.op = transformedOp s.server.document message.baseVersion op := by
      rw [hcommits]
      exact ⟨_, List.mem_append_right _ (List.mem_singleton.mpr rfl), rfl, rfl⟩
    simp only [resultEffects, okResult, if_true, Option.toList_some, List.map_cons, List.map_nil,
      List.cons_append, List.nil_append, List.mem_cons, List.not_mem_nil, or_false,
      forall_eq_or_imp, forall_eq, Effect.message?, Option.mem_some, Option.not_mem_none,
      false_implies, implies_true, true_and]
    constructor
    · rintro m rfl
      exact ⟨fun _ => ⟨rfl, ack, hack⟩, fun h => absurd h (by simp only; decide)⟩
    · rintro m rfl
      exact ⟨fun _ => ⟨rfl, ack, hack⟩, fun h => absurd h (by simp only; decide)⟩

/-- What a thread sends for another message is the server's. -/
theorem answer_sourced {s : Sys} {client : TsClientConnection} {message : TsMessage}
    {out : TsServer × List Effect} (hlogged : Logged s) (hne : message.type ≠ typeOp)
    (h : dispatchMessage s.server client message = some out) :
    ∀ effect ∈ out.2, ∀ m ∈ effect.message?, MessageSourced s m := by
  have hother (m : TsMessage)
      (htype : m.type = typeSaveQueued ∨ m.type = typePong ∨ m.type = typeError) :
      MessageSourced s m := by
    refine messageSourced_of_type ?_
    rcases htype with htype | htype | htype <;> rw [htype] <;> decide
  rcases (dispatchMessage_of_ne hne h).2 with ⟨-, heq⟩ | ⟨-, heq⟩ | ⟨-, heq⟩ | ⟨-, -, -, heq⟩ <;>
    rw [heq] <;> simp only [List.mem_cons, List.not_mem_nil, or_false, forall_eq_or_imp, forall_eq,
      Effect.message?, Option.mem_some, Option.not_mem_none, false_implies, implies_true, true_and,
      forall_eq']
  · exact hother _ (Or.inl rfl)
  · exact hlogged.snapshot_sourced rfl rfl rfl
  · exact hother _ (Or.inr (Or.inl rfl))
  · exact hother _ (Or.inr (Or.inr rfl))

theorem Sourced.step {s s' : Sys} {a : Action} (hs : Sourced s) (horder : s.InOrder a)
    (h : s.step a = some s') : Sourced s' := by
  have hlogged := hs.logged.step h
  have hold (j : ℕ) : ConnSourced s' (s.conns j) := (hs.conns j).step hs.logged h
  refine ⟨hlogged, ?_⟩
  have hset {t : Sys} {i : ℕ} {c : Conn} (hconns : t.conns = s.conns) (hc : ConnSourced s' c)
      (j : ℕ) : ConnSourced s' ((t.setConn i c).conns j) :=
    forall_conns_set (P := fun _ c => ConnSourced s' c) hold hconns hc j
  cases stepOutcome h with
  | connect clientId address =>
    exact hset rfl ⟨by simp [Conn.opened], by simp [Conn.opened], le_rfl,
      hlogged.window.version_nonneg⟩
  | key i op out hi hqueue =>
    refine hset rfl ⟨(hold i).channel, (hold i).thread, ?_⟩
    rw [show ((s.conns i).emit out).client.version = (s.conns i).client.version from
      (keyOutcome hqueue).2]
    exact (hold i).version
  | save i hi => exact hset rfl ⟨(hold i).channel, (hold i).thread, (hold i).version⟩
  | deliver i message rest out hin hhandle =>
    have hm := (hs.conns i).channel message (by rw [hin]; exact List.mem_cons_self)
    have hcopy := copyOutcome hm hs.logged (horder message (by rw [hin]; rfl)) hhandle
    have hle := hcopy.version hm hs.logged (hs.conns i).version
    refine hset rfl ⟨fun m hmem => (hold i).channel m ?_, (hold i).thread,
      (hold i).version.1.trans hle.1, hle.2⟩
    rw [hin]
    exact List.mem_cons_of_mem _ hmem
  | join i message rest server clientId hthread hin hphase htype hlock hchoose =>
    refine hset rfl ⟨(hold i).channel, ?_, (hold i).version⟩
    simp only [joinEffects, List.mem_cons, List.not_mem_nil, or_false, forall_eq_or_imp, forall_eq,
      Effect.message?, Option.not_mem_none, Option.mem_some, false_implies, implies_true, true_and,
      and_true, forall_eq']
    exact messageSourced_of_type (by simp only [welcomeMessage]; decide)
  | refuse i message rest hthread hin hphase htype =>
    refine hset rfl ⟨(hold i).channel, ?_, (hold i).version⟩
    simp only [List.mem_singleton, forall_eq, Effect.message?, Option.mem_some, forall_eq']
    exact messageSourced_of_type (by simp only [joinRequired]; decide)
  | op i message rest document result hthread hin hphase htype hprocess =>
    exact hset rfl ⟨(hold i).channel, resultEffects_sourced hlogged hprocess
      (commits_concat s ⟨i, message, result⟩), (hold i).version⟩
  | answer i message rest effects hthread hin hphase htype hdispatch =>
    exact hset rfl ⟨(hold i).channel, answer_sourced hlogged htype hdispatch, (hold i).version⟩
  | send i message rest hthread =>
    obtain ⟨hm, hrest⟩ := (hold i).cons hthread
    exact hset rfl (hrest.push (hm message rfl))
  | pipe i event rest hthread => exact hset rfl ((hold i).cons hthread).2
  | register i client rest hthread hlock => exact hset rfl ((hold i).cons hthread).2
  | snapshot i rest hthread =>
    obtain ⟨-, hrest⟩ := (hold i).cons hthread
    refine hset rfl ⟨hrest.channel, ?_, hrest.version⟩
    simp only [List.mem_cons, forall_eq_or_imp, Effect.message?, Option.mem_some, forall_eq']
    exact ⟨hlogged.snapshot_sourced rfl rfl rfl, hrest.thread⟩
  | broadcast i message exclude rest hthread hlock =>
    obtain ⟨hm, hrest⟩ := (hold i).cons hthread
    refine hset rfl ⟨hrest.channel, fun e he => ?_, hrest.version⟩
    rcases List.mem_append.mp he with he | he
    · obtain ⟨client, -, rfl⟩ := List.mem_map.mp he
      exact hm
    · rcases List.mem_cons.mp he with rfl | he
      · simp [Effect.message?]
      · exact hrest.thread e he
  | sendTo i fd message rest hthread =>
    obtain ⟨hm, hrest⟩ := (hold i).cons hthread
    have hmid := hset (t := s) (i := i) rfl hrest
    exact forall_setConn (P := fun _ c => ConnSourced _ c) ((hmid fd).push (hm message rfl))
      fun j _ => hmid j
  | unlock i rest hthread => exact hset rfl ((hold i).cons hthread).2
  | saverTake written event rest hpipe => exact hold
  | saverTimer written => exact hold

/-! ## The copies are texts of the document -/

/-- A whole document is on its way to the client. -/
inductive DocComing (c : Conn) : Prop
  | snapshot (h : .snapshot ∈ c.thread)
  | thread (message : TsMessage) (h : .send message ∈ c.thread)
      (htype : message.type = typeDocState)
  | channel (message : TsMessage) (h : message ∈ c.toClient) (htype : message.type = typeDocState)

/-- The copy of a client that is being served is the text of its version, or it will be replaced. -/
def ConnSynced (s : Sys) (c : Conn) : Prop :=
  c.phase = .serving → DocComing c ∨ s.textAt c.client.version = some c.client.content

theorem DocComing.mono {c c' : Conn} (h : DocComing c) (hchannel : c.toClient ⊆ c'.toClient)
    (hthread : ∀ effect ∈ c.thread, effect ∈ c'.thread ∨ (effect ≠ .snapshot ∧
      ∀ message, effect = .send message → message ∈ c'.toClient)) : DocComing c' := by
  cases h with
  | snapshot h =>
    rcases hthread _ h with h | ⟨hne, -⟩
    · exact .snapshot h
    · exact absurd rfl hne
  | thread message h htype =>
    rcases hthread _ h with h | ⟨-, hsent⟩
    · exact .thread message h htype
    · exact .channel message (hsent message rfl) htype
  | channel message h htype => exact .channel message (hchannel h) htype

/-- The copy stays as it is and no document on its way is lost. -/
theorem ConnSynced.mono {s : Sys} {c c' : Conn} (h : ConnSynced s c)
    (hphase : c'.phase = .serving → c.phase = .serving)
    (hcopy : c'.client.version = c.client.version ∧ c'.client.content = c.client.content)
    (hchannel : c.toClient ⊆ c'.toClient)
    (hthread : ∀ effect ∈ c.thread, effect ∈ c'.thread ∨ (effect ≠ .snapshot ∧
      ∀ message, effect = .send message → message ∈ c'.toClient)) : ConnSynced s c' := by
  intro hserving
  rcases h (hphase hserving) with hdoc | hsynced
  · exact Or.inl (hdoc.mono hchannel hthread)
  · exact Or.inr (by rw [hcopy.1, hcopy.2]; exact hsynced)

/-- Delivering a message keeps the copy a text of the document. -/
theorem ConnSynced.deliver {s : Sys} {c : Conn} {message : TsMessage} {rest : List TsMessage}
    {out : TsClientState × List TsMessage} (h : ConnSynced s c) (hlogged : Logged s)
    (hm : MessageSourced s message) (hin : c.toClient = message :: rest)
    (hcopy : CopyOutcome c.client message out) :
    ConnSynced s { c.emit out with toClient := rest, received := c.received ++ [message] } := by
  intro hserving
  have hsynced := hcopy.synced hm hlogged
  by_cases htype : message.type = typeDocState
  · exact Or.inr (hsynced (Or.inl htype))
  rcases h hserving with hdoc | htext
  · refine Or.inl ?_
    cases hdoc with
    | snapshot h => exact .snapshot h
    | thread m h htype => exact .thread m h htype
    | channel m h htype' =>
      rw [hin] at h
      rcases List.mem_cons.mp h with rfl | h
      · exact absurd htype' htype
      · exact .channel m h htype'
  · exact Or.inr (hsynced (Or.inr htext))

/-- An effect that neither sends something to the own client nor takes a snapshot is taken from a
thread. -/
theorem mem_thread_or {c : Conn} {effect : Effect} {rest : List Effect}
    (hthread : c.thread = effect :: rest) (hother : effect.Other) (toClient : List TsMessage) :
    ∀ e ∈ c.thread, e ∈ rest ∨ (e ≠ .snapshot ∧ ∀ m, e = .send m → m ∈ toClient) := by
  rw [hthread]
  intro e he
  rcases List.mem_cons.mp he with rfl | he
  · refine Or.inr ⟨fun h => ?_, fun m h => ?_⟩ <;> subst h <;> exact hother.elim
  · exact Or.inl he

theorem synced_step {s s' : Sys} {a : Action} (hs : Sourced s) (horder : s.InOrder a)
    (h : s.step a = some s') (hsync : ∀ j, ConnSynced s (s.conns j)) :
    ∀ j, ConnSynced s' (s'.conns j) := by
  have hold (j : ℕ) : ConnSynced s' (s.conns j) := by
    intro hserving
    rw [hs.logged.textAt_step h (hs.conns j).version.2]
    exact hsync j hserving
  have hset {t : Sys} {i : ℕ} {c : Conn} (hconns : t.conns = s.conns) (hc : ConnSynced s' c)
      (j : ℕ) : ConnSynced s' ((t.setConn i c).conns j) :=
    forall_conns_set (P := fun _ c => ConnSynced s' c) hold hconns hc j
  cases stepOutcome h with
  | connect clientId address =>
    refine hset rfl fun hserving => ?_
    cases hserving
  | key i op out hi hqueue =>
    exact hset rfl ((hold i).mono id (keyOutcome hqueue).symm (List.Subset.refl _)
      fun e he => Or.inl he)
  | save i hi =>
    exact hset rfl ((hold i).mono id ⟨rfl, rfl⟩ (List.Subset.refl _) fun e he => Or.inl he)
  | deliver i message rest out hin hhandle =>
    have hm := (hs.conns i).channel message (by rw [hin]; exact List.mem_cons_self)
    exact hset rfl ((hold i).deliver (hs.logged.step h) (hm.step hs.logged h) hin
      (copyOutcome hm hs.logged (horder message (by rw [hin]; rfl)) hhandle))
  | join i message rest server clientId hthread hin hphase htype hlock hchoose =>
    exact hset rfl fun _ => Or.inl (.snapshot (by simp [joinEffects]))
  | refuse i message rest hthread hin hphase htype =>
    refine hset rfl fun hserving => ?_
    cases hserving
  | op i message rest document result hthread hin hphase htype hprocess =>
    exact hset rfl ((hold i).mono id ⟨rfl, rfl⟩ (List.Subset.refl _) (by simp [hthread]))
  | answer i message rest effects hthread hin hphase htype hdispatch =>
    exact hset rfl ((hold i).mono id ⟨rfl, rfl⟩ (List.Subset.refl _) (by simp [hthread]))
  | send i message rest hthread =>
    refine hset rfl ((hold i).mono id ⟨rfl, rfl⟩ (List.subset_append_left ..) fun e he => ?_)
    rw [hthread] at he
    rcases List.mem_cons.mp he with rfl | he
    · refine Or.inr ⟨by simp, fun m hm => ?_⟩
      rw [Effect.send.inj hm]
      exact List.mem_append_right _ (List.mem_singleton.mpr rfl)
    · exact Or.inl he
  | pipe i event rest hthread =>
    exact hset rfl ((hold i).mono id ⟨rfl, rfl⟩ (List.Subset.refl _)
      (mem_thread_or hthread trivial _))
  | register i client rest hthread hlock =>
    exact hset rfl ((hold i).mono id ⟨rfl, rfl⟩ (List.Subset.refl _)
      (mem_thread_or hthread trivial _))
  | snapshot i rest hthread =>
    exact hset rfl fun _ => Or.inl (.thread _ List.mem_cons_self rfl)
  | broadcast i message exclude rest hthread hlock =>
    refine hset rfl ((hold i).mono id ⟨rfl, rfl⟩ (List.Subset.refl _) fun e he => ?_)
    rcases mem_thread_or hthread trivial (s.conns i).toClient e he with he | he
    · exact Or.inl (List.mem_append_right _ (List.mem_cons_of_mem _ he))
    · exact Or.inr he
  | sendTo i fd message rest hthread =>
    have hrest : ConnSynced _ { s.conns i with thread := rest } :=
      (hold i).mono id ⟨rfl, rfl⟩ (List.Subset.refl _) (mem_thread_or hthread trivial _)
    have hmid := hset (t := s) (i := i) rfl hrest
    refine forall_setConn (P := fun _ c => ConnSynced _ c) ?_ fun j _ => hmid j
    exact (hmid fd).mono id ⟨rfl, rfl⟩ (List.subset_append_left ..) fun e he => Or.inl he
  | unlock i rest hthread =>
    exact hset rfl ((hold i).mono id ⟨rfl, rfl⟩ (List.Subset.refl _)
      (mem_thread_or hthread trivial _))
  | saverTake written event rest hpipe => exact hold
  | saverTimer written => exact hold

/-! ## Registered clients -/

/-- The connection is on the list of clients. -/
def Registered (s : Sys) (j : ℕ) : Prop := ∃ client ∈ s.server.clients, client.fd = j

/-- A connection that is being served is registered, or that is what its thread does next. -/
def Joined (s : Sys) (j : ℕ) (c : Conn) : Prop :=
  c.phase = .serving → Registered s j ∨ c.thread = joinEffects c.peer

/-- No client leaves the list. -/
theorem clients_step {s s' : Sys} {a : Action} (h : s.step a = some s') :
    s.server.clients ⊆ s'.server.clients := by
  cases stepOutcome h with
  | join i message rest server clientId _ _ _ _ _ hchoose =>
    exact fun client hclient => by
      rw [setConn_server, (chooseClientId_server hchoose).1]
      exact hclient
  | register i client rest => exact List.subset_cons_self ..
  | _ => exact List.Subset.refl _

theorem Registered.mono {s s' : Sys} {j : ℕ} (h : Registered s j)
    (hclients : s.server.clients ⊆ s'.server.clients) : Registered s' j := by
  obtain ⟨client, hmem, hfd⟩ := h
  exact ⟨client, hclients hmem, hfd⟩

/-- A thread that has begun with anything else has registered its client before. -/
theorem Joined.of_thread {s : Sys} {j : ℕ} {c : Conn} (h : Joined s j c)
    (hserving : c.phase = .serving) (hthread : c.thread ≠ joinEffects c.peer) : Registered s j :=
  (h hserving).resolve_right hthread

theorem joined_step {s s' : Sys} {a : Action} (hw : Wired s) (h : s.step a = some s')
    (hjoined : ∀ j, Joined s j (s.conns j)) : ∀ j, Joined s' j (s'.conns j) := by
  have hclients := clients_step h
  have hold (j : ℕ) : Joined s' j (s.conns j) := fun hserving =>
    (hjoined j hserving).imp_left fun hreg => hreg.mono hclients
  have hset {t : Sys} {i : ℕ} {c : Conn} (hconns : t.conns = s.conns) (hc : Joined s' i c)
      (j : ℕ) : Joined s' j ((t.setConn i c).conns j) :=
    forall_conns_set (P := fun j c => Joined s' j c) hold hconns hc j
  have hpast {i : ℕ} {c : Conn} (hphase : c.phase = .serving → (s.conns i).phase = .serving)
      (hthread : (s.conns i).thread ≠ joinEffects (s.conns i).peer) : Joined s' i c :=
    fun hserving => Or.inl ((hold i).of_thread (hphase hserving) hthread)
  cases stepOutcome h with
  | connect clientId address =>
    refine hset rfl fun hserving => ?_
    cases hserving
  | key i op out hi hqueue => exact hset rfl (hold i)
  | save i hi => exact hset rfl (hold i)
  | deliver i message rest out hin hhandle => exact hset rfl (hold i)
  | join i message rest server clientId hthread hin hphase htype hlock hchoose =>
    exact hset rfl fun _ => Or.inr rfl
  | refuse i message rest hthread hin hphase htype =>
    refine hset rfl fun hserving => ?_
    cases hserving
  | op i message rest document result hthread hin hphase htype hprocess =>
    exact hset rfl (hpast id (by simp [hthread, joinEffects]))
  | answer i message rest effects hthread hin hphase htype hdispatch =>
    exact hset rfl (hpast id (by simp [hthread, joinEffects]))
  | send i message rest hthread => exact hset rfl (hpast id (by simp [hthread, joinEffects]))
  | pipe i event rest hthread => exact hset rfl (hpast id (by simp [hthread, joinEffects]))
  | register i client rest hthread hlock =>
    refine hset rfl fun _ => Or.inl ⟨client, List.mem_cons_self, ?_⟩
    exact hw.threads i (.register client) (by rw [hthread]; exact List.mem_cons_self)
  | snapshot i rest hthread => exact hset rfl (hpast id (by simp [hthread, joinEffects]))
  | broadcast i message exclude rest hthread hlock =>
    exact hset rfl (hpast id (by simp [hthread, joinEffects]))
  | sendTo i fd message rest hthread =>
    have hmid := hset (t := s) (i := i) (c := { s.conns i with thread := rest }) rfl
      (hpast id (by simp [hthread, joinEffects]))
    exact forall_setConn (P := fun j c => Joined _ j c) (hmid fd) fun j _ => hmid j
  | unlock i rest hthread => exact hset rfl (hpast id (by simp [hthread, joinEffects]))
  | saverTake written event rest hpipe => exact hold
  | saverTimer written => exact hold

/-! ## The newest version is on its way -/

/-- An effect of the thread of connection `i` will bring the newest version to client `j`. -/
def Brings (s : Sys) (j i : ℕ) : Effect → Prop
  | .send message => i = j ∧ Carries message ∧ message.version = s.server.document.version
  | .snapshot => i = j
  | .broadcast message _ => i ≠ j ∧ message.version = s.server.document.version ∧ Registered s j
  | .sendTo fd message => fd = j ∧ message.version = s.server.document.version
  | _ => False

/-- The client has the newest version, or it will get it, or it will ask for it. -/
inductive Informed (s : Sys) (j : ℕ) : Prop
  | current (h : (s.conns j).client.version = s.server.document.version)
  | channel (message : TsMessage) (h : message ∈ (s.conns j).toClient) (hcarries : Carries message)
      (hversion : message.version = s.server.document.version)
  | thread (i : ℕ) (effect : Effect) (h : effect ∈ (s.conns i).thread)
      (hbrings : Brings s j i effect)
  | requested (message : TsMessage) (h : message ∈ (s.conns j).toServer)
      (htype : message.type = typeRequestDoc)

theorem Brings.mono {s t : Sys} {j i : ℕ} {effect : Effect} (h : Brings s j i effect)
    (hversion : t.server.document.version = s.server.document.version)
    (hclients : s.server.clients ⊆ t.server.clients) : Brings t j i effect := by
  cases effect with
  | send message => exact ⟨h.1, h.2.1, by rw [hversion]; exact h.2.2⟩
  | snapshot => exact h
  | broadcast message exclude =>
    exact ⟨h.1, by rw [hversion]; exact h.2.1, h.2.2.mono hclients⟩
  | sendTo fd message => exact ⟨h.1, by rw [hversion]; exact h.2⟩
  | pipe event => exact h.elim
  | register client => exact h.elim
  | unlock => exact h.elim

/-- Replacing connection `i` keeps client `j` informed if nothing is lost that informs it. -/
theorem Informed.set {s t : Sys} {i j : ℕ} {c : Conn} (h : Informed s j)
    (hconns : t.conns = s.conns)
    (hversion : t.server.document.version = s.server.document.version)
    (hclients : s.server.clients ⊆ t.server.clients)
    (hcopy : i = j → c.client.version = (s.conns i).client.version)
    (hchannel : i = j → (s.conns i).toClient ⊆ c.toClient)
    (hthread : ∀ e ∈ (s.conns i).thread, Brings s j i e →
      e ∈ c.thread ∨ Informed (t.setConn i c) j)
    (hrequest : i = j → ∀ m ∈ (s.conns i).toServer, m.type = typeRequestDoc →
      m ∈ c.toServer ∨ Informed (t.setConn i c) j) : Informed (t.setConn i c) j := by
  have hne (k : ℕ) (hk : k ≠ i) : (t.setConn i c).conns k = s.conns k := by
    rw [setConn_conns_of_ne t hk, hconns]
  cases h with
  | current h =>
    refine .current ?_
    rw [setConn_server, hversion, ← h]
    by_cases hj : j = i
    · rw [hj, setConn_conns_self]
      exact hcopy hj.symm
    · rw [hne j hj]
  | channel message h hcarries hmv =>
    refine .channel message ?_ hcarries (by rw [setConn_server, hversion]; exact hmv)
    by_cases hj : j = i
    · subst hj
      rw [setConn_conns_self]
      exact hchannel rfl h
    · rw [hne j hj]
      exact h
  | thread k effect h hbrings =>
    have hbrings' : Brings (t.setConn i c) j k effect := hbrings.mono hversion hclients
    by_cases hk : k = i
    · subst hk
      rcases hthread effect h hbrings with h' | h'
      · exact .thread k effect (by rw [setConn_conns_self]; exact h') hbrings'
      · exact h'
    · exact .thread k effect (by rw [hne k hk]; exact h) hbrings'
  | requested message h htype =>
    by_cases hj : j = i
    · subst hj
      rcases hrequest rfl message h htype with h' | h'
      · exact .requested message (by rw [setConn_conns_self]; exact h') htype
      · exact h'
    · exact .requested message (by rw [hne j hj]; exact h) htype

/-- Only the connections and the server matter. -/
theorem Informed.congr {s t : Sys} {j : ℕ} (h : Informed s j) (hconns : t.conns = s.conns)
    (hserver : t.server = s.server) : Informed t j := by
  have hversion : t.server.document.version = s.server.document.version := by rw [hserver]
  cases h with
  | current h => exact .current (by rw [hconns, hserver]; exact h)
  | channel m h hcarries hmv =>
    exact .channel m (by rw [hconns]; exact h) hcarries (by rw [hserver]; exact hmv)
  | thread k effect h hbrings =>
    exact .thread k effect (by rw [hconns]; exact h)
      (hbrings.mono hversion (by rw [hserver]; exact List.Subset.refl _))
  | requested m h htype => exact .requested m (by rw [hconns]; exact h) htype

/-- Replacing a connection keeps every client informed. -/
theorem informed_set {s t : Sys} {i : ℕ} {c : Conn}
    (hinf : ∀ j, (s.conns j).phase = .serving → Informed s j) (hconns : t.conns = s.conns)
    (hversion : t.server.document.version = s.server.document.version)
    (hclients : s.server.clients ⊆ t.server.clients)
    (hphase : c.phase = .serving → (s.conns i).phase = .serving)
    (hcopy : c.client.version = (s.conns i).client.version)
    (hchannel : (s.conns i).toClient ⊆ c.toClient)
    (hthread : ∀ j, ∀ e ∈ (s.conns i).thread, Brings s j i e →
      e ∈ c.thread ∨ Informed (t.setConn i c) j)
    (hrequest : ∀ m ∈ (s.conns i).toServer, m.type = typeRequestDoc →
      m ∈ c.toServer ∨ Informed (t.setConn i c) i) (j : ℕ)
    (hserving : ((t.setConn i c).conns j).phase = .serving) : Informed (t.setConn i c) j := by
  have hold : (s.conns j).phase = .serving := by
    by_cases hj : j = i
    · subst hj
      rw [setConn_conns_self] at hserving
      exact hphase hserving
    · rwa [setConn_conns_of_ne t hj, hconns] at hserving
  exact (hinf j hold).set hconns hversion hclients (fun _ => hcopy) (fun _ => hchannel) (hthread j)
    fun hij => hij ▸ hrequest

/-- A client that handles a message stays informed. -/
theorem Informed.deliver {s : Sys} {i : ℕ} {message : TsMessage} {rest : List TsMessage}
    {out : TsClientState × List TsMessage} (h : Informed s i) (hs : Sourced s)
    (hin : (s.conns i).toClient = message :: rest)
    (hcopy : CopyOutcome (s.conns i).client message out) :
    Informed (s.setConn i { (s.conns i).emit out with
      toClient := rest, received := (s.conns i).received ++ [message] }) i := by
  have hm := (hs.conns i).channel message (by rw [hin]; exact List.mem_cons_self)
  have hbound := hcopy.version hm hs.logged (hs.conns i).version
  have hcurrent (hv : out.1.version = s.server.document.version) : Informed
      (s.setConn i { (s.conns i).emit out with
        toClient := rest, received := (s.conns i).received ++ [message] }) i :=
    .current (by rw [setConn_conns_self]; exact hv)
  cases h with
  | current h => exact hcurrent (by omega)
  | channel m h hcarries hversion =>
    rw [hin] at h
    rcases List.mem_cons.mp h with rfl | h
    · cases hcopy with
      | kept htype hcontent hv hold =>
        rcases hold hcarries with hle | hrequest
        · exact hcurrent (by omega)
        · refine .requested requestDoc ?_ rfl
          rw [setConn_conns_self]
          exact List.mem_append_right _ hrequest
      | applied htype hnext happly hv => exact hcurrent (by omega)
      | replaced htype hold hcontent hv => exact hcurrent (by omega)
    · exact .channel m (by rw [setConn_conns_self]; exact h) hcarries hversion
  | thread k effect h hbrings =>
    refine .thread k effect ?_ (hbrings.mono rfl (List.Subset.refl _))
    by_cases hk : k = i
    · subst hk
      rw [setConn_conns_self]
      exact h
    · rw [setConn_conns_of_ne s hk]
      exact h
  | requested m h htype =>
    refine .requested m ?_ htype
    rw [setConn_conns_self]
    exact List.mem_append_left _ h

/-- An accepted operation is on its way to every client. -/
theorem informed_commit {s : Sys} {i : ℕ} {clientId opId : Bytes} {baseVersion : ℤ}
    {op transformed : TsOperation} (hjoined : ∀ j, Joined s j (s.conns j))
    (hthread : (s.conns i).thread = resultEffects clientId
      (okResult s.server.document clientId opId baseVersion op transformed)) (j : ℕ)
    (hserving : (s.conns j).phase = .serving) : Informed s j := by
  rw [resultEffects_okResult] at hthread
  by_cases hij : i = j
  · exact .thread i (.send (okAck s.server.document clientId opId baseVersion op transformed))
      (by rw [hthread]; simp) ⟨hij, Or.inl rfl, rfl⟩
  rcases hjoined j hserving with hreg | hjoin
  · exact .thread i (.broadcast (okRemote s.server.document clientId opId transformed) clientId)
      (by rw [hthread]; simp) ⟨hij, rfl, hreg⟩
  · exact .thread j .snapshot (by rw [hjoin]; simp [joinEffects]) rfl

/-- The first effect is done, and what it brought has arrived by `p`; the others still wait. -/
theorem brings_rest {s : Sys} {i j : ℕ} {effect : Effect} {rest : List Effect} {p : Prop}
    (hthread : (s.conns i).thread = effect :: rest) (hhead : Brings s j i effect → p) :
    ∀ e ∈ (s.conns i).thread, Brings s j i e → e ∈ rest ∨ p := by
  rw [hthread]
  intro e he hbrings
  rcases List.mem_cons.mp he with rfl | he
  · exact Or.inr (hhead hbrings)
  · exact Or.inl he

/-- What happens at connection `i` leaves the client of another connection informed if no effect of
the thread is lost. -/
theorem Informed.set_other {s t : Sys} {i j : ℕ} {c : Conn} (h : Informed s j) (hj : j ≠ i)
    (hconns : t.conns = s.conns)
    (hversion : t.server.document.version = s.server.document.version)
    (hclients : s.server.clients ⊆ t.server.clients) (hthread : (s.conns i).thread ⊆ c.thread) :
    Informed (t.setConn i c) j :=
  h.set hconns hversion hclients (fun hij => absurd hij.symm hj) (fun hij => absurd hij.symm hj)
    (fun _ he _ => Or.inl (hthread he)) fun hij => absurd hij.symm hj

/-- A thread that takes a message other than an OP answers a request for the document. -/
theorem informed_answer {s : Sys} {i : ℕ} {message : TsMessage} {rest : List TsMessage}
    {effects : List Effect} (hinf : ∀ j, (s.conns j).phase = .serving → Informed s j)
    (hthread : (s.conns i).thread = []) (hin : (s.conns i).toServer = message :: rest)
    (htype : message.type ≠ typeOp)
    (hdispatch : dispatchMessage s.server (s.conns i).peer message = some (s.server, effects)) :
    ∀ j, ((s.setConn i { s.conns i with toServer := rest, thread := effects }).conns j).phase =
      .serving → Informed (s.setConn i { s.conns i with toServer := rest, thread := effects }) j := by
  refine informed_set hinf rfl rfl (List.Subset.refl _) id rfl (List.Subset.refl _)
    (by simp [hthread]) fun m hm hrequest => ?_
  rw [hin] at hm
  rcases List.mem_cons.mp hm with rfl | hm
  · refine Or.inr (.thread i (.send (tsDocumentSnapshot s.server.document)) ?_
      ⟨rfl, Or.inr (Or.inr rfl), rfl⟩)
    rcases (dispatchMessage_of_ne htype hdispatch).2 with
      ⟨hsave, -⟩ | ⟨-, heq⟩ | ⟨hping, -⟩ | ⟨-, hne, -⟩
    · rw [hsave] at hrequest
      exact absurd hrequest (by decide)
    · rw [setConn_conns_self]
      simp only at heq
      rw [heq]
      exact List.mem_singleton.mpr rfl
    · rw [hping] at hrequest
      exact absurd hrequest (by decide)
    · exact absurd hrequest hne
  · exact Or.inl hm

/-- A broadcast that leaves out only its own client plans a send to every client it is to inform. -/
theorem informed_broadcast {s : Sys} {i : ℕ} {message : TsMessage} {exclude : Bytes}
    {rest : List Effect} (hinf : ∀ j, (s.conns j).phase = .serving → Informed s j)
    (hthread : (s.conns i).thread = .broadcast message exclude :: rest)
    (horder : ∀ client ∈ s.server.clients, client.clientId = exclude → client.fd = i) :
    ∀ j, (({ s with clientsLock := some i }.setConn i { s.conns i with
        thread := broadcastSends s message exclude ++ Effect.unlock :: rest }).conns j).phase =
      .serving → Informed ({ s with clientsLock := some i }.setConn i { s.conns i with
        thread := broadcastSends s message exclude ++ Effect.unlock :: rest }) j := by
  refine informed_set hinf rfl rfl (List.Subset.refl _) id rfl (List.Subset.refl _)
    (fun j e he hbrings => ?_) fun m hm _ => Or.inl hm
  refine (brings_rest hthread ?_ e he hbrings).imp_left fun he =>
    List.mem_append_right _ (List.mem_cons_of_mem _ he)
  rintro ⟨hij, hversion, client, hmem, hfd⟩
  have hid : client.clientId ≠ exclude := fun hid =>
    hij ((horder client hmem hid).symm.trans hfd)
  refine .thread i (.sendTo client.fd message) ?_ ⟨hfd, hversion⟩
  rw [setConn_conns_self]
  exact List.mem_append_left _
    (List.mem_map_of_mem (List.mem_filter.mpr ⟨hmem, by simpa using hid⟩))

/-- One send of a broadcast moves the message from the thread to the channel of its client. -/
theorem informed_sendTo {s : Sys} {i fd : ℕ} {message : TsMessage} {rest : List Effect}
    (hinf : ∀ j, (s.conns j).phase = .serving → Informed s j)
    (hthread : (s.conns i).thread = .sendTo fd message :: rest)
    (hremote : message.type = typeRemoteOp) (j : ℕ) {t : Sys}
    (ht : t = s.setConn i { s.conns i with thread := rest })
    (hserving : ((t.setConn fd ((t.conns fd).push message)).conns j).phase = .serving) :
    Informed (t.setConn fd ((t.conns fd).push message)) j := by
  have hphase : (s.conns j).phase = .serving := by
    have hmid : (t.conns j).phase = (s.conns j).phase := ht ▸
      setConn_phase s (i := i) (c := { s.conns i with thread := rest }) rfl j
    rw [← hmid, ← setConn_phase t (i := fd) (c := (t.conns fd).push message) rfl j]
    exact hserving
  by_cases hbrings : Brings s j i (.sendTo fd message)
  · obtain ⟨rfl, hversion⟩ := hbrings
    refine .channel message ?_ (Or.inr (Or.inl hremote)) (by rw [ht]; exact hversion)
    rw [setConn_conns_self]
    exact List.mem_append_right _ (List.mem_singleton.mpr rfl)
  · have hinf' : Informed t j := ht ▸ (hinf j hphase).set rfl rfl (List.Subset.refl _)
      (fun _ => rfl) (fun _ => List.Subset.refl _)
      (brings_rest hthread fun h => absurd h hbrings) fun _ m hm _ => Or.inl hm
    exact hinf'.set rfl rfl (List.Subset.refl _) (fun _ => rfl)
      (fun _ => List.subset_append_left ..) (fun e he _ => Or.inl he) fun _ m hm _ => Or.inl hm

theorem informed_step {s s' : Sys} {a : Action} (hw : Wired s) (hs : Sourced s)
    (hjoined : ∀ j, Joined s j (s.conns j)) (horder : s.InOrder a) (h : s.step a = some s')
    (hinf : ∀ j, (s.conns j).phase = .serving → Informed s j) :
    ∀ j, (s'.conns j).phase = .serving → Informed s' j := by
  have hjoined' := joined_step hw h hjoined
  cases stepOutcome h with
  | connect clientId address =>
    have habsent : s.conns s.accepted = Conn.none := hw.absent s.accepted le_rfl
    refine informed_set hinf rfl rfl (List.Subset.refl _) (fun h => by cases h) ?_ ?_ ?_ ?_ <;>
      rw [habsent] <;> simp [Conn.none, Conn.opened, tsClientStateInit]
  | key i op out hi hqueue =>
    exact informed_set hinf rfl rfl (List.Subset.refl _) id (keyOutcome hqueue).2
      (List.Subset.refl _) (fun j e he _ => Or.inl he)
      fun m hm _ => Or.inl (List.mem_append_left _ hm)
  | save i hi =>
    exact informed_set hinf rfl rfl (List.Subset.refl _) id rfl
      (List.Subset.refl _) (fun j e he _ => Or.inl he)
      fun m hm _ => Or.inl (List.mem_append_left _ hm)
  | deliver i message rest out hin hhandle =>
    intro j hserving
    have hm := (hs.conns i).channel message (by rw [hin]; exact List.mem_cons_self)
    have hcopy := copyOutcome hm hs.logged (horder message (by rw [hin]; rfl)) hhandle
    by_cases hj : j = i
    · subst hj
      rw [setConn_conns_self] at hserving
      exact (hinf j hserving).deliver hs hin hcopy
    · rw [setConn_conns_of_ne s hj] at hserving
      exact (hinf j hserving).set_other hj rfl rfl (List.Subset.refl _) (List.Subset.refl _)
  | join i message rest server clientId hthread hin hphase htype hlock hchoose =>
    intro j hserving
    obtain ⟨hclients, hdoc⟩ := chooseClientId_server hchoose
    by_cases hj : j = i
    · subst hj
      exact .thread j .snapshot (by rw [setConn_conns_self]; simp [joinEffects]) rfl
    · rw [setConn_conns_of_ne _ hj] at hserving
      exact (hinf j hserving).set_other hj rfl (congrArg TsDocument.version hdoc)
        (by rw [hclients]; exact List.Subset.refl _) (by simp [hthread])
  | refuse i message rest hthread hin hphase htype =>
    intro j hserving
    by_cases hj : j = i
    · subst hj
      rw [setConn_conns_self] at hserving
      cases hserving
    · rw [setConn_conns_of_ne _ hj] at hserving
      exact (hinf j hserving).set_other hj rfl rfl (List.Subset.refl _) (by simp [hthread])
  | op i message rest document result hthread hin hphase htype hprocess =>
    rw [processMessage_eq] at hprocess
    -- the message that is taken is an OP, so no request for the document is lost
    have hrequest : ∀ m ∈ (s.conns i).toServer, m.type = typeRequestDoc → m ∈ rest := by
      rw [hin]
      intro m hm hrequest
      refine (List.mem_cons.mp hm).resolve_left ?_
      rintro rfl
      rw [htype] at hrequest
      exact absurd hrequest (by decide)
    cases processOutcome hprocess with
    | error =>
      exact informed_set hinf rfl rfl (List.Subset.refl _) id rfl (List.Subset.refl _)
        (by simp [hthread]) fun m hm hm' => Or.inl (hrequest m hm hm')
    | resync =>
      exact informed_set hinf rfl rfl (List.Subset.refl _) id rfl (List.Subset.refl _)
        (by simp [hthread]) fun m hm hm' => Or.inl (hrequest m hm hm')
    | ok op updated =>
      exact informed_commit hjoined' (by rw [setConn_conns_self]; rfl)
  | answer i message rest effects hthread hin hphase htype hdispatch =>
    exact informed_answer hinf hthread hin htype hdispatch
  | send i message rest hthread =>
    refine informed_set hinf rfl rfl (List.Subset.refl _) id rfl (List.subset_append_left ..)
      (fun j => brings_rest hthread ?_) fun m hm _ => Or.inl hm
    rintro ⟨rfl, hcarries, hversion⟩
    refine .channel message ?_ hcarries hversion
    rw [setConn_conns_self]
    exact List.mem_append_right _ (List.mem_singleton.mpr rfl)
  | pipe i event rest hthread =>
    exact informed_set hinf rfl rfl (List.Subset.refl _) id rfl (List.Subset.refl _)
      (fun j => brings_rest hthread False.elim) fun m hm _ => Or.inl hm
  | register i client rest hthread hlock =>
    exact informed_set hinf rfl rfl (List.subset_cons_self ..) id rfl (List.Subset.refl _)
      (fun j => brings_rest hthread False.elim) fun m hm _ => Or.inl hm
  | snapshot i rest hthread =>
    refine informed_set hinf rfl rfl (List.Subset.refl _) id rfl (List.Subset.refl _)
      (fun j e he hbrings => ?_) fun m hm _ => Or.inl hm
    refine (brings_rest hthread (fun hij => ?_) e he hbrings).imp_left (List.mem_cons_of_mem _)
    exact .thread i (.send (tsDocumentSnapshot s.server.document))
      (by rw [setConn_conns_self]; exact List.mem_cons_self) ⟨hij, Or.inr (Or.inr rfl), rfl⟩
  | broadcast i message exclude rest hthread hlock =>
    exact informed_broadcast hinf hthread
      (horder (.broadcast message exclude) (by rw [hthread]; rfl))
  | sendTo i fd message rest hthread =>
    have hwired := hw.threads i (.sendTo fd message) (by rw [hthread]; exact List.mem_cons_self)
    exact fun j => informed_sendTo hinf hthread hwired.1 j rfl
  | unlock i rest hthread =>
    exact informed_set hinf rfl rfl (List.Subset.refl _) id rfl (List.Subset.refl _)
      (fun j => brings_rest hthread False.elim) fun m hm _ => Or.inl hm
  | saverTake written event rest hpipe => exact fun j hserving => (hinf j hserving).congr rfl rfl
  | saverTimer written => exact fun j hserving => (hinf j hserving).congr rfl rfl

/-! ## Convergence -/

/-- Everything that holds while messages find the clients in order. -/
structure Convergent (s : Sys) : Prop where
  wired : Wired s
  sourced : Sourced s
  synced : ∀ j, ConnSynced s (s.conns j)
  joined : ∀ j, Joined s j (s.conns j)
  informed : ∀ j, (s.conns j).phase = .serving → Informed s j

theorem convergent_init (text : Bytes) (limit : ℕ) (path : Bytes) :
    Convergent (init text limit path) where
  wired := wired_init text limit path
  sourced := sourced_init text limit path
  synced _ hserving := by cases hserving
  joined _ hserving := by cases hserving
  informed _ hserving := by cases hserving

theorem Convergent.step {s s' : Sys} {a : Action} (hs : Convergent s) (horder : s.InOrder a)
    (h : s.step a = some s') : Convergent s' where
  wired := hs.wired.step h
  sourced := hs.sourced.step horder h
  synced := synced_step hs.sourced horder h hs.synced
  joined := joined_step hs.wired h hs.joined
  informed := informed_step hs.wired hs.sourced hs.joined horder h hs.informed

/-- Where nothing is on its way, every client has the newest version. -/
theorem Convergent.converged {s : Sys} (hs : Convergent s) (hquiet : s.Quiescent) :
    s.Converged := by
  intro i hi
  obtain ⟨htoServer, htoClient, hthread⟩ := hquiet i hi
  have hserving : (s.conns i).phase = .serving := by
    rcases hs.wired.phase i hi with ⟨-, -, clientId, rest, hin⟩ | hserving
    · rw [htoServer] at hin
      cases hin
    · exact hserving
  have hversion : (s.conns i).client.version = s.server.document.version := by
    cases hs.informed i hserving with
    | current h => exact h
    | channel m h => rw [htoClient] at h; cases h
    | thread k effect h =>
      have hk := hs.wired.lt_of_ne (i := k) (Or.inl (List.ne_nil_of_mem h))
      rw [(hquiet k hk).2.2] at h
      cases h
    | requested m h => rw [htoServer] at h; cases h
  refine ⟨?_, hversion⟩
  rcases hs.synced i hserving with hdoc | htext
  · cases hdoc with
    | snapshot h => rw [hthread] at h; cases h
    | thread m h => rw [hthread] at h; cases h
    | channel m h => rw [htoClient] at h; cases h
  · rw [hversion, hs.sourced.logged.textAt_version] at htext
    exact (Option.some.inj htext).symm

/-- Convergence: if the clients handle only messages that find them at the right version, and no
broadcast leaves out a client, then in every quiescent state every client has the text and the
version of the document. -/
theorem converged_of_inOrder (text : Bytes) (limit : ℕ) (path : Bytes) (actions : List Action)
    (s : Sys) (hrun : run Sys.step (Sys.init text limit path) actions = some s)
    (horder : Guarded Sys.step Sys.InOrder (Sys.init text limit path) actions)
    (hquiet : s.Quiescent) : s.Converged :=
  (run_invariant_of_guarded (fun _ _ _ hs hg h => hs.step hg h) (convergent_init text limit path)
    horder hrun).converged hquiet

/-- Two clients join and get the document. -/
def bothJoin : List Action :=
  [Action.connect (bytes "a") [], Action.connect (bytes "b") []] ++
    List.replicate 6 (Action.serve 0) ++ List.replicate 6 (Action.serve 1) ++
    [Action.deliver 0, Action.deliver 0, Action.deliver 1, Action.deliver 1]

/-- Each client types one character; the thread of the second client broadcasts its operation before
the first client hears of its own. -/
def orderlyEdits : List Action :=
  [Action.key 0 (tsOperationInit .insert 0 (bytes "x")),
    Action.key 1 (tsOperationInit .insert 0 (bytes "y"))] ++
    List.replicate 7 (Action.serve 1) ++ List.replicate 7 (Action.serve 0) ++
    [Action.deliver 0, Action.deliver 0, Action.deliver 1, Action.deliver 1]

theorem converged_orderlyEdits :
    ∃ s, run Sys.step (Sys.init [] 10 (bytes "f")) (bothJoin ++ orderlyEdits) = some s ∧
      s.Converged := by
  have hany : (run Sys.step (Sys.init [] 10 (bytes "f")) (bothJoin ++ orderlyEdits)).any
      (fun s => decide s.Quiescent) = true := by decide +kernel
  obtain ⟨s, hrun, hquiet⟩ := (Option.any_eq_true _ _).mp hany
  exact ⟨s, hrun, converged_of_inOrder [] 10 (bytes "f") _ s hrun (by decide +kernel)
    (of_decide_eq_true hquiet)⟩

/-- As before, but the ACK of the first client overtakes the REMOTE_OP of the second one, whose
operation was committed first. -/
def crossedEdits : List Action :=
  [Action.key 0 (tsOperationInit .insert 0 (bytes "x")),
    Action.key 1 (tsOperationInit .insert 0 (bytes "y")), Action.serve 1] ++
    List.replicate 4 (Action.serve 0) ++ [Action.deliver 0] ++ List.replicate 6 (Action.serve 1) ++
    List.replicate 3 (Action.serve 0) ++ [Action.deliver 0, Action.deliver 1, Action.deliver 1]

theorem not_converged_crossedEdits :
    ∃ s₀ s, run Sys.step (Sys.init [] 10 (bytes "f")) bothJoin = some s₀ ∧ s₀.Quiescent ∧
      (∀ i < s₀.accepted, (s₀.conns i).phase = .serving ∧ (s₀.conns i).client.inflight = none ∧
        (s₀.conns i).received.map TsMessage.type = [typeWelcome, typeDocState]) ∧
      (∀ a ∈ crossedEdits, a.WellFormed) ∧ run Sys.step s₀ crossedEdits = some s ∧ s.Quiescent ∧
      ¬ s.Converged := by
  have hjoin : (run Sys.step (Sys.init [] 10 (bytes "f")) bothJoin).any (fun s₀ =>
      decide (s₀.Quiescent ∧ ∀ i < s₀.accepted, (s₀.conns i).phase = .serving ∧
        (s₀.conns i).client.inflight = none ∧
        (s₀.conns i).received.map TsMessage.type = [typeWelcome, typeDocState])) = true := by
    decide +kernel
  have hedits : (run Sys.step (Sys.init [] 10 (bytes "f")) (bothJoin ++ crossedEdits)).any
      (fun s => decide (s.Quiescent ∧ ¬ s.Converged)) = true := by
    decide +kernel
  obtain ⟨s₀, hrun₀, hs₀⟩ := (Option.any_eq_true _ _).mp hjoin
  obtain ⟨s, hrun, hs⟩ := (Option.any_eq_true _ _).mp hedits
  obtain ⟨hquiet₀, hready⟩ := of_decide_eq_true hs₀
  obtain ⟨hquiet, hdiverged⟩ := of_decide_eq_true hs
  obtain ⟨t, ht, hrest⟩ := run_append_some.mp hrun
  obtain rfl := Option.some.inj (hrun₀.symm.trans ht)
  have hwf : ∀ a ∈ crossedEdits, a.WellFormed := by
    have hx := wellFormed_insert (c := 'x') (by decide) 0
    have hy := wellFormed_insert (c := 'y') (by decide) 0
    simp only [crossedEdits, List.replicate, List.cons_append, List.nil_append, List.forall_mem_cons,
      List.not_mem_nil, false_implies, implies_true, Action.WellFormed, and_true]
    exact ⟨hx, hy⟩
  exact ⟨s₀, s, hrun₀, hquiet₀, hready, hwf, hrest, hquiet, hdiverged⟩

end Sys

end TermSync
