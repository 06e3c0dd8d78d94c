import TermSync.Proofs.ConvergenceProofs
import TermSync.Proofs.PipelineProofs
import TermSync.Proofs.Utf8InvariantProofs

/-!
# Proofs: the server says what is so

Messages can find a client at a wrong version, and then its copy is not a text of the document any
more. But each message by itself is right in every run: it carries an accepted operation or the text at
its version. So no client gets ahead of the server, which in turn keeps the base versions in range, and
the only answers to an OP are its ACK and an expired history.
-/

namespace TermSync

open Foundations

/-! ## Replaying keeps a text valid -/

/-- An operation that inserts one well-formed character if it inserts. -/
def InsertsChar (op : TsOperation) : Prop := op.kind = .insert → WellFormedChar op.ch

theorem validText_replayOps {ops : List TsOperation} (hops : ∀ op ∈ ops, InsertsChar op) :
    ∀ {text : Bytes}, ValidText text → ∃ updated, replayOps text ops = some updated ∧
      ValidText updated := by
  induction ops with
  | nil =>
    intro text htext
    exact ⟨text, rfl, htext⟩
  | cons op ops ih =>
    intro text htext
    obtain ⟨mid, hmid, hvalid⟩ := htext.apply (hops op List.mem_cons_self)
    obtain ⟨updated, hupdated, hvalid'⟩ := ih (fun op' h => hops op' (List.mem_cons_of_mem _ h)) hvalid
    refine ⟨updated, ?_, hvalid'⟩
    rw [replayOps, List.foldlM_cons, hmid]
    exact hupdated

namespace Sys

/-- All accepted operations insert characters, into a text that was valid at the start. -/
structure TextsValid (s : Sys) : Prop where
  initial : ValidText s.initialText
  ops : ∀ commit ∈ s.commits, InsertsChar commit.2.op

/-- The document has a valid text at every version. -/
theorem TextsValid.textAt {s : Sys} (hs : TextsValid s) (version : ℤ) :
    ∃ text, s.textAt version = some text ∧ ValidText text := by
  refine validText_replayOps (fun op hop => ?_) hs.initial
  obtain ⟨commit, hmem, rfl⟩ := List.mem_map.mp hop
  exact hs.ops commit (List.mem_of_mem_take hmem)

theorem TextsValid.document {s : Sys} (hs : TextsValid s) (hlogged : Logged s) :
    ValidText s.server.document.text := by
  obtain ⟨text, htext, hvalid⟩ := hs.textAt s.server.document.version
  rw [hlogged.textAt_version] at htext
  rw [Option.some.inj htext]
  exact hvalid

theorem TextsValid.step {s s' : Sys} {a : Action} (hs : TextsValid s) (hr : Reached s)
    (hqueues : QueuesWellFormed s) (h : s.step a = some s') : TextsValid s' := by
  refine ⟨by rw [initialText_step h]; exact hs.initial, ?_⟩
  rcases commit_cases h with ⟨hcommits, -⟩ | ⟨i, message, updated, -, hc⟩
  · rw [hcommits]
    exact hs.ops
  · rw [hc.commits]
    intro commit hmem
    rcases List.mem_append.mp hmem with hmem | hmem
    · exact hs.ops commit hmem
    rw [List.mem_singleton.mp hmem]
    intro hkind
    obtain ⟨hkind', hch⟩ := transformedOp_insert hkind
    have hin : message ∈ (s.conns i).toServer := List.mem_of_mem_head? hc.head
    obtain ⟨p, hp, -, hop⟩ := (hr.pipeline i).exists_queued_of_op hin hc.type
    have hwf := hqueues i p hp
    rw [hop] at hwf
    change WellFormedChar (transformedOp _ _ _).ch
    rw [hch]
    exact hwf.2 hkind'

/-! ## Messages that say what is so -/

theorem Truthful.step {s s' : Sys} {a : Action} {message : TsMessage} (hs : Logged s)
    (h : s.step a = some s') (hm : s.Truthful message) : s'.Truthful message where
  operation htype := by
    obtain ⟨hop, commit, hmem, hcommit⟩ := hm.operation htype
    exact ⟨hop, commit, (commits_prefix_step h).subset hmem, hcommit⟩
  document htype := by
    obtain ⟨h0, hle, content, hcontent, htext⟩ := hm.document htype
    exact ⟨h0, hle.trans (hs.version_step h), content, hcontent, (hs.textAt_step h hle).trans htext⟩
  resync := hm.resync
  accepted := hm.accepted

/-- A message that says nothing about the document. -/
theorem truthful_of_type {s : Sys} {message : TsMessage}
    (h : message.type = typeWelcome ∨ message.type = typeSaveQueued ∨ message.type = typePong) :
    s.Truthful message := by
  have hne : message.type ≠ typeAck ∧ message.type ≠ typeRemoteOp ∧ message.type ≠ typeDocState ∧
      message.type ≠ typeResyncRequired ∧ message.type ≠ typeError := by
    rcases h with h | h | h <;> rw [h] <;> decide
  obtain ⟨hack, hremote, hdoc, hresync, herror⟩ := hne
  exact ⟨fun h => absurd h (not_or.mpr ⟨hack, hremote⟩), fun h => absurd h hdoc,
    fun h => absurd h hresync, herror⟩

/-- A snapshot of the document. -/
theorem Logged.truthful_snapshot {s : Sys} (hs : Logged s) {message : TsMessage}
    (htype : message.type = typeDocState) (hversion : message.version = s.server.document.version)
    (hcontent : message.content = some s.server.document.text) : s.Truthful message where
  operation h := by
    rw [htype] at h
    exact absurd h (by decide)
  document _ := by
    have hver := hs.window.version_nonneg
    exact ⟨by omega, by omega, _, hcontent, by rw [hversion]; exact hs.textAt_version⟩
  resync h := by
    rw [htype] at h
    exact absurd h (by decide)
  accepted := by
    rw [htype]
    decide

/-! ## One connection -/

/-- What a connection keeps: what its thread is going to send is so as well, and the base versions of
its operations are versions of the document. -/
structure ConnTruthful (s : Sys) (c : Conn) : Prop where
  told : s.ToldTruth c
  thread : ∀ effect ∈ c.thread, ∀ message ∈ effect.message?, s.Truthful message
  base : ∀ message ∈ c.toServer, message.type = typeOp →
    message.baseVersion ≤ s.server.document.version

theorem ConnTruthful.step {s s' : Sys} {a : Action} {c : Conn} (hs : Logged s)
    (h : s.step a = some s') (hc : ConnTruthful s c) : ConnTruthful s' c where
  told :=
    { said := fun m hm => (hc.told.said m hm).step hs h
      version := ⟨hc.told.version.1, hc.told.version.2.trans (hs.version_step h)⟩
      content := hc.told.content }
  thread effect he m hm := (hc.thread effect he m hm).step hs h
  base m hm htype := (hc.base m hm htype).trans (hs.version_step h)

/-- The head effect of a thread and the rest. -/
theorem ConnTruthful.cons {s : Sys} {c : Conn} {effect : Effect} {rest : List Effect}
    (hc : ConnTruthful s c) (hthread : c.thread = effect :: rest) :
    (∀ m ∈ effect.message?, s.Truthful m) ∧ ConnTruthful s { c with thread := rest } := by
  have h := hc.thread
  rw [hthread] at h
  constructor
  · exact h effect List.mem_cons_self
  · exact ⟨⟨hc.told.said, hc.told.version, hc.told.content⟩,
      fun e he => h e (List.mem_cons_of_mem _ he), hc.base⟩

theorem ConnTruthful.push {s : Sys} {c : Conn} {message : TsMessage} (hc : ConnTruthful s c)
    (hm : s.Truthful message) : ConnTruthful s (c.push message) where
  told :=
    { said := by
        intro m hmem
        rw [Conn.push, ← List.append_assoc] at hmem
        rcases List.mem_append.mp hmem with hmem | hmem
        · exact hc.told.said m hmem
        · rw [List.mem_singleton.mp hmem]
          exact hm
      version := hc.told.version
      content := hc.told.content }
  thread := hc.thread
  base := hc.base

/-- The pump sends an operation at the version of the local copy. -/
theorem baseVersion_statePump {state : TsClientState} :
    ∀ m ∈ (statePump state).2, m.baseVersion = state.version := by
  rcases pump_cases state with ⟨-, h⟩ | ⟨next, queue, -, -, h⟩
  · rw [h]
    exact fun m hm => absurd hm List.not_mem_nil
  · rw [h]
    intro m hm
    rw [List.mem_singleton.mp hm]
    rfl

/-- What a client sends and what is left of its copy when it has handled what is so. -/
theorem handle_truthful {s : Sys} {c : Conn} {message : TsMessage}
    {out : TsClientState × List TsMessage} (hs : Logged s) (hvalid : TextsValid s)
    (hc : s.ToldTruth c) (hm : s.Truthful message)
    (hhandle : tsClientStateHandleMessage c.client message = some out) :
    (0 ≤ out.1.version ∧ out.1.version ≤ s.server.document.version) ∧ ValidText out.1.content ∧
      ∀ m ∈ out.2, m.type = typeOp → m.baseVersion ≤ s.server.document.version := by
  have hnone {m : TsMessage} {P : Prop} (h : m ∈ ([] : List TsMessage)) : P := absurd h List.not_mem_nil
  have hrequest {m : TsMessage} {P : Prop} (h : m ∈ [requestDoc]) (htype : m.type = typeOp) : P := by
    rw [List.mem_singleton.mp h] at htype
    exact absurd htype (by decide)
  have happlied {applied : TsClientState}
      (htype : message.type = typeAck ∨ message.type = typeRemoteOp)
      (happly : applyAuthoritativeOp c.client message = some applied) :
      (0 ≤ applied.version ∧ applied.version ≤ s.server.document.version) ∧
        ValidText applied.content := by
    obtain ⟨hop, commit, hmem, hversion, hcop, -⟩ := hm.operation htype
    obtain ⟨hpos, hle, -⟩ := hs.textAt_commit hmem
    obtain ⟨content, hcontent, rfl⟩ := applyAuthoritativeOp_eq happly hop (by omega)
    obtain ⟨updated, hupdated, hupdated'⟩ := hc.content.apply (hcop ▸ hvalid.ops commit hmem)
    obtain rfl := Option.some.inj (hcontent.symm.trans hupdated)
    exact ⟨⟨by simp only; omega, by simp only; omega⟩, hupdated'⟩
  cases handleOutcome hhandle with
  | docState htype =>
    obtain ⟨h0, hle, content, hcontent, htext⟩ := hm.document htype
    obtain ⟨text, htext', hvalid'⟩ := hvalid.textAt message.version
    obtain rfl := Option.some.inj (htext.symm.trans htext')
    rw [tsClientStateSetDocument, statePump_content, statePump_version]
    simp only [if_neg (show ¬ message.version < 0 by omega), hcontent, Option.getD_some]
    refine ⟨⟨h0, hle⟩, hvalid', fun m hmem _ => ?_⟩
    rw [baseVersion_statePump m hmem]
    exact hle
  | ack htype applied status hmatch happly =>
    obtain ⟨hversion, hcontent⟩ := happlied (Or.inl htype) happly
    rw [statePump_content, statePump_version]
    refine ⟨hversion, hcontent, fun m hmem _ => ?_⟩
    rw [baseVersion_statePump m hmem]
    exact hversion.2
  | remote htype applied status hnext happly =>
    obtain ⟨hversion, hcontent⟩ := happlied (Or.inr htype) happly
    exact ⟨hversion, hcontent, fun m => hnone⟩
  | missedRemote | resync => exact ⟨hc.version, hc.content, fun m => hrequest⟩
  | welcome | staleAck | oldRemote | other => exact ⟨hc.version, hc.content, fun m => hnone⟩

/-! ## The server -/

/-- What a thread sends for an OP is so. -/
theorem truthful_resultEffects {s s' : Sys} {i : ℕ} {message : TsMessage} {result : TsProcessResult}
    {client : TsClientConnection} (hlogged : Logged s')
    (hprocess : processMessage s.server client message = some (s'.server.document, result))
    (hcommits : s'.commits = s.commits ++ (result.ack.map fun ack => (i, ack)).toList)
    (hop : message.hasOp = true) (hacc : Acceptable message.op)
    (hbase : message.baseVersion ≤ s.server.document.version) :
    ∀ effect ∈ resultEffects client.clientId result, ∀ m ∈ effect.message?, s'.Truthful m := by
  rw [processMessage_eq] at hprocess
  have hcall : (callOf client message).op = some message.op := if_pos hop
  generalize hdoc : s'.server.document = doc at hprocess
  cases processOutcome hprocess with
  | error text hnot => exact absurd hacc (hnot _ hcall)
  | resync op hop' hacc' hexpired =>
    have hstart : message.baseVersion < s.server.document.historyStartVersion :=
      hexpired.resolve_right (by simp only [callOf]; omega)
    simp only [resultEffects, resyncResult, List.map_cons, List.map_nil, List.mem_cons,
      List.not_mem_nil, or_false, reduceCtorEq, if_false, forall_eq_or_imp, forall_eq,
      Effect.message?, Option.mem_some]
    constructor
    · rintro m rfl
      refine ⟨fun h => absurd h (by simp only; decide), fun h => absurd h (by simp only; decide),
        fun _ => ?_, by simp only; decide⟩
      have hreason : (callOf client message).baseVersion < s.server.document.historyStartVersion :=
        hstart
      simp only [if_pos hreason]
      decide
    · rintro m rfl
      exact hlogged.truthful_snapshot rfl (by rw [hdoc]) (by rw [hdoc])
  | ok op updated =>
    obtain ⟨ack, hack⟩ : ∃ ack, ack ∈ s'.commits ∧ ack.2.version = s.server.document.version + 1 ∧
        ack.2.op = transformedOp s.server.document message.baseVersion op ∧
        ack.2.opId = snprintf tsMaxOpId message.opId := by
      rw [hcommits]
      exact ⟨_, List.mem_append_right _ (List.mem_singleton.mpr rfl), rfl, rfl, rfl⟩
    simp only [resultEffects, okResult, if_true, Option.toList_some, List.map_cons, List.map_nil,
      List.cons_append, List.nil_append, List.mem_cons, List.not_mem_nil, or_false,
      forall_eq_or_imp, forall_eq, Effect.message?, Option.mem_some, Option.not_mem_none,
      false_implies, implies_true, true_and]
    constructor
    · rintro m rfl
      exact ⟨fun _ => ⟨rfl, ack, hack⟩, fun h => absurd h (by simp only; decide),
        fun h => absurd h (by simp only; decide), by simp only; decide⟩
    · rintro m rfl
      exact ⟨fun _ => ⟨rfl, ack, hack⟩, fun h => absurd h (by simp only; decide),
        fun h => absurd h (by simp only; decide), by simp only; decide⟩

/-- What a thread sends for another message of a client is so. -/
theorem truthful_answer {s : Sys} {client : TsClientConnection} {message : TsMessage}
    {out : TsServer × List Effect} (hlogged : Logged s) (hclient : ClientMessage message)
    (hne : message.type ≠ typeOp) (h : dispatchMessage s.server client message = some out) :
    ∀ effect ∈ out.2, ∀ m ∈ effect.message?, s.Truthful m := by
  rcases (dispatchMessage_of_ne hne h).2 with ⟨-, heq⟩ | ⟨-, heq⟩ | ⟨-, heq⟩ |
      ⟨hsave, hrequest, -⟩
  · rw [heq]
    simp only [List.mem_cons, List.not_mem_nil, or_false, forall_eq_or_imp, forall_eq,
      Effect.message?, Option.mem_some, Option.not_mem_none, false_implies, implies_true, true_and]
    rintro m rfl
    exact truthful_of_type (Or.inr (Or.inl rfl))
  · rw [heq]
    simp only [List.mem_singleton, forall_eq, Effect.message?, Option.mem_some]
    rintro m rfl
    exact hlogged.truthful_snapshot rfl rfl rfl
  · rw [heq]
    simp only [List.mem_singleton, forall_eq, Effect.message?, Option.mem_some]
    rintro m rfl
    exact truthful_of_type (Or.inr (Or.inr rfl))
  · rcases hclient with ⟨hop, -⟩ | hclient | hclient
    · exact absurd hop hne
    · exact absurd hclient hrequest
    · exact absurd hclient hsave

/-! ## Runs -/

/-- Everything that is said in a reached state is so. -/
structure AllTruthful (s : Sys) : Prop where
  reached : Reached s
  queues : QueuesWellFormed s
  valid : TextsValid s
  conns : ∀ j, ConnTruthful s (s.conns j)

theorem allTruthful_init {text : Bytes} (htext : ValidText text) (limit : ℕ) (path : Bytes) :
    AllTruthful (init text limit path) where
  reached := reached_init text limit path
  queues _ _ hp := absurd hp List.not_mem_nil
  valid := ⟨htext, fun _ h => absurd h List.not_mem_nil⟩
  conns _ :=
    { told := ⟨by simp [init, Conn.none], ⟨le_rfl, le_rfl⟩, ⟨[], by simp, rfl⟩⟩
      thread := by simp [init, Conn.none]
      base := by simp [init, Conn.none] }

theorem AllTruthful.step {s s' : Sys} {a : Action} (hs : AllTruthful s) (ha : a.WellFormed)
    (h : s.step a = some s') : AllTruthful s' := by
  have hreached := hs.reached.step h
  have hlogged := hreached.logged
  have hvalid := hs.valid.step hs.reached hs.queues h
  refine ⟨hreached, hs.queues.step hs.reached.wired ha h, hvalid, ?_⟩
  have hold (j : ℕ) : ConnTruthful s' (s.conns j) := (hs.conns j).step hs.reached.logged h
  have hset {t : Sys} {i : ℕ} {c : Conn} (hconns : t.conns = s.conns) (hc : ConnTruthful s' c)
      (j : ℕ) : ConnTruthful s' ((t.setConn i c).conns j) :=
    forall_conns_set (P := fun _ c => ConnTruthful s' c) hold hconns hc j
  -- the thread has taken the first message and has these effects now
  have htake {i : ℕ} {message : TsMessage} {rest : List TsMessage} {c : Conn}
      (hin : (s.conns i).toServer = message :: rest) (hclient : c.client = (s.conns i).client)
      (hsaid : c.received ++ c.toClient = (s.conns i).received ++ (s.conns i).toClient)
      (hserver : c.toServer = rest)
      (hthread : ∀ effect ∈ c.thread, ∀ m ∈ effect.message?, s'.Truthful m) : ConnTruthful s' c := by
    refine ⟨⟨?_, ?_, ?_⟩, hthread, fun m hm => (hold i).base m ?_⟩
    · rw [hsaid]
      exact (hold i).told.said
    · rw [hclient]
      exact (hold i).told.version
    · rw [hclient]
      exact (hold i).told.content
    · rw [hin]
      exact List.mem_cons_of_mem _ (hserver ▸ hm)
  cases stepOutcome h with
  | connect clientId address =>
    refine hset rfl ⟨⟨by simp [Conn.opened], ⟨le_rfl, hlogged.window.version_nonneg⟩,
      ⟨[], by simp, rfl⟩⟩, by simp [Conn.opened], fun m hm htype => ?_⟩
    rw [List.mem_singleton.mp hm] at htype
    exact absurd htype (by simp only [joinMessage]; decide)
  | key i op out hi hqueue =>
    obtain ⟨hcontent, hversion⟩ := keyOutcome hqueue
    obtain ⟨-, status, rfl⟩ := queueOperation_eq hqueue
    refine hset rfl ⟨⟨(hold i).told.said, ?_, ?_⟩, (hold i).thread, fun m hm htype => ?_⟩
    · change 0 ≤ (statePump _).1.version ∧ (statePump _).1.version ≤ _
      rw [hversion]
      exact (hold i).told.version
    · change ValidText (statePump _).1.content
      rw [hcontent]
      exact (hold i).told.content
    · rcases List.mem_append.mp hm with hm | hm
      · exact (hold i).base m hm htype
      · rw [baseVersion_statePump m hm]
        exact (hold i).told.version.2
  | save i hi =>
    refine hset rfl ⟨⟨(hold i).told.said, (hold i).told.version, (hold i).told.content⟩,
      (hold i).thread, fun m hm htype => ?_⟩
    rcases List.mem_append.mp hm with hm | hm
    · exact (hold i).base m hm htype
    · rw [List.mem_singleton.mp hm] at htype
      exact absurd htype (by decide)
  | deliver i message rest out hin hhandle =>
    have hm : Truthful _ message :=
      (hold i).told.said message (List.mem_append_right _ (by rw [hin]; exact List.mem_cons_self))
    obtain ⟨hversion, hcontent, hbase⟩ := handle_truthful hlogged hvalid (hold i).told hm hhandle
    refine hset rfl ⟨⟨fun m hmem => (hold i).told.said m ?_, hversion, hcontent⟩, (hold i).thread,
      fun m hmem htype => ?_⟩
    · rw [hin]
      simpa using hmem
    · rcases List.mem_append.mp hmem with hmem | hmem
      · exact (hold i).base m hmem htype
      · exact hbase m hmem htype
  | join i message rest server clientId hthread hin hphase htype hlock hchoose =>
    refine hset rfl (htake hin rfl rfl rfl ?_)
    simp only [joinEffects, List.mem_cons, List.not_mem_nil, or_false, forall_eq_or_imp, forall_eq,
      Effect.message?, Option.not_mem_none, Option.mem_some, false_implies, implies_true, true_and,
      and_true, forall_eq']
    exact truthful_of_type (Or.inl rfl)
  | refuse i message rest hthread hin hphase htype =>
    obtain ⟨_, rest', hin', -⟩ := (hs.reached.pipeline i).incoming.joining hphase
    obtain ⟨rfl, -⟩ := List.cons.inj (hin.symm.trans hin')
    exact absurd rfl htype
  | op i message rest document result hthread hin hphase htype hprocess =>
    have hmem : message ∈ (s.conns i).toServer := by
      rw [hin]
      exact List.mem_cons_self
    have hop := (hs.reached.pipeline i).incoming.hasOp hphase hmem htype
    obtain ⟨q, hq, -, hqop⟩ := (hs.reached.pipeline i).exists_queued_of_op hmem htype
    exact hset rfl (htake hin rfl rfl rfl (truthful_resultEffects hlogged hprocess
      (commits_concat s ⟨i, message, result⟩) hop (hqop ▸ (hs.queues i q hq).acceptable)
      ((hs.conns i).base message hmem htype)))
  | answer i message rest effects hthread hin hphase htype hdispatch =>
    have hclient := (hs.reached.pipeline i).incoming.serving (by rw [hphase]; decide) message
      (by rw [hin]; exact List.mem_cons_self)
    exact hset rfl (htake hin rfl rfl rfl (truthful_answer hlogged hclient htype hdispatch))
  | send i message rest hthread =>
    obtain ⟨hm, hrest⟩ := (hold i).cons hthread
    exact hset rfl (hrest.push (hm message rfl))
  | pipe i event rest hthread => exact hset rfl ((hold i).cons hthread).2
  | register i client rest hthread hlock => exact hset rfl ((hold i).cons hthread).2
  | snapshot i rest hthread =>
    obtain ⟨-, hrest⟩ := (hold i).cons hthread
    refine hset rfl ⟨⟨hrest.told.said, hrest.told.version, hrest.told.content⟩, ?_, hrest.base⟩
    simp only [List.mem_cons, forall_eq_or_imp, Effect.message?, Option.mem_some, forall_eq']
    exact ⟨hlogged.truthful_snapshot rfl rfl rfl, hrest.thread⟩
  | broadcast i message exclude rest hthread hlock =>
    obtain ⟨hm, hrest⟩ := (hold i).cons hthread
    refine hset rfl ⟨⟨hrest.told.said, hrest.told.version, hrest.told.content⟩, fun e he => ?_,
      hrest.base⟩
    rcases List.mem_append.mp he with he | he
    · obtain ⟨client, -, rfl⟩ := List.mem_map.mp he
      exact hm
    · rcases List.mem_cons.mp he with rfl | he
      · simp [Effect.message?]
      · exact hrest.thread e he
  | sendTo i fd message rest hthread =>
    obtain ⟨hm, hrest⟩ := (hold i).cons hthread
    have hmid := hset (t := s) (i := i) rfl hrest
    exact forall_setConn (P := fun _ c => ConnTruthful _ c) ((hmid fd).push (hm message rfl))
      fun j _ => hmid j
  | unlock i rest hthread => exact hset rfl ((hold i).cons hthread).2
  | saverTake written event rest hpipe => exact hold
  | saverTimer written => exact hold

theorem allTruthful_run {text : Bytes} {limit : ℕ} {path : Bytes} {actions : List Action} {s : Sys}
    (htext : ValidText text) (hwf : ∀ a ∈ actions, a.WellFormed)
    (hrun : run Sys.step (Sys.init text limit path) actions = some s) : AllTruthful s := by
  have hguard : Guarded Sys.step (fun _ a => a.WellFormed) (init text limit path) actions :=
    Guarded.of_forall hwf
  exact run_invariant_of_guarded (fun _ _ _ hs ha h => hs.step ha h)
    (allTruthful_init htext limit path) hguard hrun

/-- Whatever is queued, delivered and served in between, every message to a client says what is so: no
operation is refused, a resync is only required because the history has expired, and no client gets
ahead of the server or holds a text that is not valid. -/
theorem server_truthful (text : Bytes) (limit : ℕ) (path : Bytes) (actions : List Action) (s : Sys)
    (htext : ValidText text) (hwf : ∀ a ∈ actions, a.WellFormed)
    (hrun : run Sys.step (Sys.init text limit path) actions = some s) (i : ℕ) :
    s.ToldTruth (s.conns i) :=
  ((allTruthful_run htext hwf hrun).conns i).told

/-- A client whose operation comes too late for the history is told so. -/
theorem server_truthful_expiring :
    ∃ s, run Sys.step (Sys.init [] 1 (bytes "f")) expiring = some s ∧ s.ToldTruth (s.conns 0) ∧
      ∃ m ∈ (s.conns 0).received, m.type = typeResyncRequired ∧
        m.reason = bytes "operation history expired" := by
  have hany : (run Sys.step (Sys.init [] 1 (bytes "f")) expiring).any
      (fun s => (s.conns 0).received.any fun m => m.type = typeResyncRequired) = true := by
    decide +kernel
  obtain ⟨s, hrun, hs⟩ := (Option.any_eq_true _ _).mp hany
  have hchar {c : Char} (hc : c ≠ '\x00') (pos : ℕ) {ch : Bytes} (hch : ch = String.utf8EncodeChar c) :
      WellFormedOp (tsOperationInit .insert pos ch) := hch ▸ wellFormed_insert hc pos
  have htold : s.ToldTruth (s.conns 0) := by
    refine server_truthful [] 1 (bytes "f") expiring s ⟨[], by simp, rfl⟩ ?_ hrun 0
    simp only [expiring, overtaken, List.replicate, List.cons_append, List.nil_append, List.forall_mem_cons,
      List.not_mem_nil, false_implies, implies_true, Action.WellFormed, and_true, true_and]
    exact ⟨hchar (c := 'x') (by decide) 0 (by decide), hchar (c := 'y') (by decide) 1 (by decide),
      hchar (c := 'a') (by decide) 0 (by decide), hchar (c := 'b') (by decide) 1 (by decide),
      hchar (c := 'c') (by decide) 2 (by decide)⟩
  obtain ⟨m, hm, htype⟩ := List.any_eq_true.mp hs
  exact ⟨s, hrun, htold, m, hm, of_decide_eq_true htype,
    (htold.said m (List.mem_append_left _ hm)).resync (of_decide_eq_true htype)⟩

end Sys

end TermSync
