import TermSync.Shutdown
import TermSync.Proofs.ConvergenceProofs

/-!
# Proofs: shutting down

An ACK is sent only for an operation that its author's thread has committed (`AcksCommitted`). As long
as nothing is committed between the copy of the content and the return of `server_shutdown`, the last
SAVE_NOW is the current document and therefore holds every acknowledged operation (`saves_final`).
-/

namespace TermSync

open Foundations

namespace Sys

/-! ## Acknowledged operations are committed -/

/-- The ACKs that a client has been sent, or will be sent by its thread, are for commits of its
connection. -/
structure ConnAcks (commits : List (ℕ × TsMessage)) (i : ℕ) (c : Conn) : Prop where
  sent : ∀ m ∈ c.received ++ c.toClient, m.type = typeAck → (i, m) ∈ commits
  thread : ∀ effect ∈ c.thread, ∀ m ∈ effect.message?, m.type = typeAck → (i, m) ∈ commits

/-- No client hears of an operation that has not been committed. -/
def AcksCommitted (s : Sys) : Prop := ∀ i, ConnAcks s.commits i (s.conns i)

theorem acksCommitted_init (text : Bytes) (limit : ℕ) (path : Bytes) :
    AcksCommitted (init text limit path) :=
  fun _ => ⟨by simp [init, Conn.none], by simp [init, Conn.none]⟩

theorem ConnAcks.mono {commits commits' : List (ℕ × TsMessage)} {i : ℕ} {c : Conn}
    (h : ConnAcks commits i c) (hsub : commits ⊆ commits') : ConnAcks commits' i c where
  sent m hm htype := hsub (h.sent m hm htype)
  thread effect he m hm htype := hsub (h.thread effect he m hm htype)

/-- The first effect of a thread and the rest. -/
theorem ConnAcks.cons {commits : List (ℕ × TsMessage)} {i : ℕ} {c : Conn} {effect : Effect}
    {rest : List Effect} (h : ConnAcks commits i c) (hthread : c.thread = effect :: rest) :
    (∀ m ∈ effect.message?, m.type = typeAck → (i, m) ∈ commits) ∧
      ConnAcks commits i { c with thread := rest } := by
  have hall := h.thread
  rw [hthread] at hall
  exact ⟨hall effect List.mem_cons_self, h.sent, fun e he => hall e (List.mem_cons_of_mem _ he)⟩

theorem ConnAcks.push {commits : List (ℕ × TsMessage)} {i : ℕ} {c : Conn} {message : TsMessage}
    (h : ConnAcks commits i c) (hm : message.type = typeAck → (i, message) ∈ commits) :
    ConnAcks commits i (c.push message) where
  sent m hmem := by
    simp only [Conn.push, ← List.append_assoc] at hmem
    rcases List.mem_append.mp hmem with hmem | hmem
    · exact h.sent m hmem
    · rw [List.mem_singleton.mp hmem]
      exact hm
  thread := h.thread

/-- A thread whose effects send no ACK. -/
theorem ConnAcks.thread_of_ne {commits : List (ℕ × TsMessage)} {i : ℕ} {c c' : Conn}
    (h : ConnAcks commits i c) (hreceived : c'.received = c.received)
    (htoClient : c'.toClient = c.toClient)
    (hthread : ∀ effect ∈ c'.thread, ∀ m ∈ effect.message?, m.type ≠ typeAck) :
    ConnAcks commits i c' where
  sent := by
    rw [hreceived, htoClient]
    exact h.sent
  thread effect he m hm htype := absurd htype (hthread effect he m hm)

/-- The ACK that a thread sends for an OP is the commit. -/
theorem resultEffects_acks {doc doc' : TsDocument} {call : DocCall} {r : TsProcessResult}
    (h : processCall doc call = some (doc', r)) (clientId : Bytes) :
    ∀ effect ∈ resultEffects clientId r, ∀ m ∈ effect.message?, m.type = typeAck →
      r.ack = some m := by
  cases processOutcome h with
  | error text =>
    simp only [resultEffects, errorResult, List.map_cons, List.map_nil, List.mem_singleton,
      reduceCtorEq, if_false, forall_eq, Effect.message?, Option.mem_some]
    rintro m rfl htype
    exact absurd htype (by simp only [setMessageError]; decide)
  | resync =>
    simp only [resultEffects, resyncResult, List.map_cons, List.map_nil, List.mem_cons,
      List.not_mem_nil, or_false, reduceCtorEq, if_false, forall_eq_or_imp, forall_eq,
      Effect.message?, Option.mem_some]
    constructor
    · rintro m rfl htype
      exact absurd htype (by simp only; decide)
    · rintro m rfl htype
      exact absurd htype (by simp only; decide)
  | ok op updated =>
    simp only [resultEffects, okResult, if_true, Option.toList_some, List.map_cons, List.map_nil,
      List.cons_append, List.nil_append, List.mem_cons, List.not_mem_nil, or_false,
      forall_eq_or_imp, forall_eq, Effect.message?, Option.mem_some, Option.not_mem_none,
      false_implies, implies_true, true_and]
    constructor
    · rintro m rfl -
      rfl
    · rintro m rfl htype
      exact absurd htype (by simp only; decide)

theorem answer_acks {server : TsServer} {client : TsClientConnection} {message : TsMessage}
    {out : TsServer × List Effect} (hne : message.type ≠ typeOp)
    (h : dispatchMessage server client message = some out) :
    ∀ effect ∈ out.2, ∀ m ∈ effect.message?, m.type ≠ typeAck := by
  have htypes : typeSaveQueued ≠ typeAck ∧ typeDocState ≠ typeAck ∧ typePong ≠ typeAck ∧
      typeError ≠ typeAck := by decide
  obtain ⟨hqueued, hdoc, hpong, herror⟩ := htypes
  rcases (dispatchMessage_of_ne hne h).2 with ⟨-, heq⟩ | ⟨-, heq⟩ | ⟨-, heq⟩ | ⟨-, -, -, heq⟩ <;>
    rw [heq] <;> simp only [List.mem_cons, List.not_mem_nil, or_false, forall_eq_or_imp, forall_eq,
      Effect.message?, Option.mem_some, Option.not_mem_none, false_implies, implies_true, true_and,
      forall_eq']
  · exact hqueued
  · exact hdoc
  · exact hpong
  · exact herror

theorem AcksCommitted.step {s s' : Sys} {a : Action} (hw : Wired s) (hs : AcksCommitted s)
    (h : s.step a = some s') : AcksCommitted s' := by
  have hold (j : ℕ) : ConnAcks s'.commits j (s.conns j) :=
    (hs j).mono (commits_prefix_step h).subset
  have hset {t : Sys} {i : ℕ} {c : Conn} (hconns : t.conns = s.conns)
      (hc : ConnAcks s'.commits i c) (j : ℕ) : ConnAcks s'.commits j ((t.setConn i c).conns j) :=
    forall_conns_set (P := fun j c => ConnAcks s'.commits j c) hold hconns hc j
  have htypes : typeWelcome ≠ typeAck ∧ typeError ≠ typeAck ∧ typeDocState ≠ typeAck ∧
      typeRemoteOp ≠ typeAck := by decide
  obtain ⟨hwelcome, herror, hdoc, hremote⟩ := htypes
  cases stepOutcome h with
  | connect clientId address =>
    exact hset rfl ⟨by simp [Conn.opened], by simp [Conn.opened]⟩
  | key i op out hi hqueue => exact hset rfl ⟨(hold i).sent, (hold i).thread⟩
  | save i hi => exact hset rfl ⟨(hold i).sent, (hold i).thread⟩
  | deliver i message rest out hin hhandle =>
    refine hset rfl ⟨fun m hm => (hold i).sent m ?_, (hold i).thread⟩
    rw [hin]
    simpa using hm
  | join i message rest server clientId hthread hin hphase htype hlock hchoose =>
    refine hset rfl ((hold i).thread_of_ne rfl rfl ?_)
    simp only [joinEffects, List.mem_cons, List.not_mem_nil, or_false, forall_eq_or_imp, forall_eq,
      Effect.message?, Option.not_mem_none, Option.mem_some, false_implies, implies_true, true_and,
      and_true, forall_eq']
    exact hwelcome
  | refuse i message rest hthread hin hphase htype =>
    refine hset rfl ((hold i).thread_of_ne rfl rfl ?_)
    simp only [List.mem_singleton, forall_eq, Effect.message?, Option.mem_some, forall_eq']
    exact herror
  | op i message rest document result hthread hin hphase htype hprocess =>
    refine hset rfl ⟨(hold i).sent, fun effect he m hm hack => ?_⟩
    rw [processMessage_eq] at hprocess
    have hresult := resultEffects_acks hprocess _ effect he m hm hack
    have hcommits := commits_concat s ⟨i, message, result⟩
    simp only [hresult, Option.map_some, Option.toList_some] at hcommits
    exact hcommits ▸ List.mem_append_right _ (List.mem_singleton.mpr rfl)
  | answer i message rest effects hthread hin hphase htype hdispatch =>
    exact hset rfl ((hold i).thread_of_ne rfl rfl (answer_acks htype hdispatch))
  | send i message rest hthread =>
    obtain ⟨hm, hrest⟩ := (hold i).cons hthread
    exact hset rfl (hrest.push (hm message rfl))
  | pipe i event rest hthread => exact hset rfl ((hold i).cons hthread).2
  | register i client rest hthread hlock => exact hset rfl ((hold i).cons hthread).2
  | snapshot i rest hthread =>
    obtain ⟨-, hrest⟩ := (hold i).cons hthread
    refine hset rfl ⟨hrest.sent, fun effect he m hm hack => ?_⟩
    rcases List.mem_cons.mp he with rfl | he
    · rw [← Option.some.inj hm] at hack
      exact absurd hack hdoc
    · exact hrest.thread effect he m hm hack
  | broadcast i message exclude rest hthread hlock =>
    obtain ⟨hm, hrest⟩ := (hold i).cons hthread
    refine hset rfl ⟨hrest.sent, fun effect he => ?_⟩
    rcases List.mem_append.mp he with he | he
    · obtain ⟨client, -, rfl⟩ := List.mem_map.mp he
      exact hm
    · rcases List.mem_cons.mp he with rfl | he
      · simp [Effect.message?]
      · exact hrest.thread effect he
  | sendTo i fd message rest hthread =>
    obtain ⟨-, hrest⟩ := (hold i).cons hthread
    have hwired := hw.threads i
    rw [hthread] at hwired
    obtain ⟨htype, -⟩ := hwired _ List.mem_cons_self
    have hmid := hset (t := s) (i := i) rfl hrest
    refine forall_setConn (P := fun j c => ConnAcks s.commits j c) ((hmid fd).push fun hack => ?_)
      fun j _ => hmid j
    rw [htype] at hack
    exact absurd hack hremote
  | unlock i rest hthread => exact hset rfl ((hold i).cons hthread).2
  | saverTake written event rest hpipe => exact hold
  | saverTimer written => exact hold

/-- Events stay in the record of the pipe. -/
theorem piped_step {s s' : Sys} {a : Action} (h : s.step a = some s') : s.piped ⊆ s'.piped := by
  cases stepOutcome h with
  | pipe i event rest hthread => exact List.subset_append_left _ _
  | _ => exact List.Subset.refl _

end Sys

namespace ShutdownSys

/-! ## Steps -/

/-- A step of the system, or an event that is lost because the pipe has been closed. -/
theorem systemStep_cases {s : ShutdownSys} {a : Action} {sys : Sys}
    (h : s.systemStep a = some sys) :
    s.sys.step a = some sys ∨
      ∃ i event rest, (s.sys.conns i).thread = .pipe event :: rest ∧
        sys = s.sys.setConn i { s.sys.conns i with thread := rest } := by
  cases a with
  | serve i =>
    simp only [systemStep] at h
    split_ifs at h with hclosed
    · rcases Option.or_eq_some_iff.mp h with hdrop | ⟨-, hstep⟩
      · simp only [Sys.dropEvent] at hdrop
        split at hdrop
        · rename_i event rest hthread
          obtain rfl := Option.some.inj hdrop
          exact Or.inr ⟨i, event, rest, hthread, rfl⟩
        · cases hdrop
      · exact Or.inl hstep
    · exact Or.inl h
  | _ => exact Or.inl h

/-- What `server_shutdown` holds belongs to the document as it is. -/
def Saved (sys : Sys) : ShutdownPhase → Prop
  | .running | .stopping | .returned _ _ => True
  | .copied content => content = sys.server.document.text
  | .versionRead content version =>
    content = sys.server.document.text ∧ version = sys.server.document.version
  | .saveSent content version | .stopSent content version _ =>
    content = sys.server.document.text ∧ version = sys.server.document.version ∧
      SaverEvent.saveNow content version ∈ sys.piped

structure Inv (s : ShutdownSys) : Prop where
  logged : s.sys.Logged
  wired : s.sys.Wired
  acks : s.sys.AcksCommitted
  saved : Saved s.sys s.phase

theorem inv_init (text : Bytes) (limit : ℕ) (path : Bytes) : Inv (init text limit path) where
  logged := Sys.logged_init text limit path
  wired := Sys.wired_init text limit path
  acks := Sys.acksCommitted_init text limit path
  saved := trivial

/-- What is held stays current while the document does. -/
theorem Saved.mono {sys sys' : Sys} {phase : ShutdownPhase} (h : Saved sys phase)
    (hdoc : phase.Saving → sys'.server.document = sys.server.document)
    (hpiped : sys.piped ⊆ sys'.piped) : Saved sys' phase := by
  cases phase with
  | running => trivial
  | stopping => trivial
  | copied content =>
    rw [Saved, hdoc trivial]
    exact h
  | versionRead content version =>
    rw [Saved, hdoc trivial]
    exact h
  | saveSent content version =>
    rw [Saved, hdoc trivial]
    exact ⟨h.1, h.2.1, hpiped h.2.2⟩
  | stopSent content version ahead =>
    rw [Saved, hdoc trivial]
    exact ⟨h.1, h.2.1, hpiped h.2.2⟩
  | returned content version => trivial

/-- Coming closer to STOP changes nothing that is held. -/
theorem Saved.after {sys : Sys} {phase : ShutdownPhase} (h : Saved sys phase) (a : Action) :
    Saved sys (phase.after a) := by
  unfold ShutdownPhase.after
  split
  · split
    · exact h
    · exact h
  · exact h

theorem Inv.system {s s' : ShutdownSys} {a : Action} (h : Inv s)
    (hgood : s.NoLateCommit (.system a)) (hstep : s.step (.system a) = some s') : Inv s' := by
  simp only [step] at hstep
  split_ifs at hstep with hallows
  obtain ⟨sys, hsys, rfl⟩ := Option.map_eq_some_iff.mp hstep
  rcases systemStep_cases hsys with hsys | ⟨i, event, rest, hthread, rfl⟩
  · refine ⟨h.logged.step hsys, h.wired.step hsys, h.acks.step h.wired hsys, ?_⟩
    refine (h.saved.mono (fun hsaving => ?_) (Sys.piped_step hsys)).after a
    rcases Sys.commit_cases hsys with ⟨-, hdoc⟩ | ⟨i, message, updated, rfl, hc⟩
    · exact hdoc
    · refine absurd ?_ (hgood hsaving ⟨hc.thread, hc.phase⟩ message hc.head)
      exact ⟨hc.type, hc.hasOp, hc.acceptable, hc.start_le, hc.le_version⟩
  · obtain ⟨hi, hphase⟩ := h.wired.serving (i := i) (by rw [hthread]; simp)
    have hrest : ∀ e ∈ rest, e ∈ (s.sys.conns i).thread := fun e he => by
      rw [hthread]
      exact List.mem_cons_of_mem _ he
    exact
      { logged := ⟨h.logged.window, h.logged.length, h.logged.versions, h.logged.text⟩
        wired := h.wired.set_thread hi rfl rfl rfl rfl (Or.inr hphase) fun e he =>
          h.wired.threads i e (hrest e he)
        acks := Sys.forall_setConn (P := fun j c => Sys.ConnAcks s.sys.commits j c)
          ((h.acks i).cons hthread).2 fun j _ => h.acks j
        saved := (h.saved.mono (fun _ => rfl) (List.Subset.refl _)).after a }

theorem Inv.step {s s' : ShutdownSys} {a : ShutdownAction} (h : Inv s) (hgood : s.NoLateCommit a)
    (hstep : s.step a = some s') : Inv s' := by
  cases a with
  | system a => exact h.system hgood hstep
  | test i =>
    simp only [ShutdownSys.step] at hstep
    split_ifs at hstep with htest hrunning <;> obtain rfl := Option.some.inj hstep
    · exact ⟨h.logged, h.wired, h.acks, h.saved⟩
    · exact ⟨h.logged, h.wired, h.acks, h.saved⟩
  | shutdown =>
    have hsaved := h.saved
    simp only [ShutdownSys.step] at hstep
    split at hstep <;> rename_i hphase
    · obtain rfl := Option.some.inj hstep
      exact ⟨h.logged, h.wired, h.acks, trivial⟩
    · obtain rfl := Option.some.inj hstep
      exact ⟨h.logged, h.wired, h.acks, rfl⟩
    · obtain rfl := Option.some.inj hstep
      rw [hphase] at hsaved
      exact ⟨h.logged, h.wired, h.acks, hsaved, rfl⟩
    · obtain rfl := Option.some.inj hstep
      rw [hphase] at hsaved
      exact
        { logged := ⟨h.logged.window, h.logged.length, h.logged.versions, h.logged.text⟩
          wired := ⟨h.wired.absent, h.wired.peer, h.wired.phase, h.wired.clients, h.wired.threads⟩
          acks := h.acks
          saved := ⟨hsaved.1, hsaved.2, List.mem_append_right _ (List.mem_singleton.mpr rfl)⟩ }
    · obtain rfl := Option.some.inj hstep
      rw [hphase] at hsaved
      exact ⟨h.logged, h.wired, h.acks, hsaved⟩
    · obtain rfl := Option.some.inj hstep
      exact ⟨h.logged, h.wired, h.acks, trivial⟩
    · cases hstep
    · cases hstep

/-- The document that is held when `server_shutdown` is about to return. -/
theorem Inv.savesFinal {s s' : ShutdownSys} {content : Bytes} {version : ℤ} (h : Inv s)
    (hstep : s.step .shutdown = some s') (hphase : s'.phase = .returned content version) :
    s'.SavesFinal content version := by
  have hsaved := h.saved
  simp only [ShutdownSys.step] at hstep
  split at hstep <;> rename_i hold
  case h_6 =>
    obtain rfl := Option.some.inj hstep
    obtain ⟨rfl, rfl⟩ := ShutdownPhase.returned.inj hphase
    rw [hold] at hsaved
    obtain ⟨rfl, rfl, hevent⟩ := hsaved
    refine ⟨hevent, h.logged.textAt_version, fun i m hm htype => ?_⟩
    rw [← h.logged.length, Int.toNat_natCast, List.take_length]
    exact (h.acks i).sent m hm htype
  case h_7 => cases hstep
  case h_8 => cases hstep
  all_goals
    obtain rfl := Option.some.inj hstep
    cases hphase

/-- If no operation is accepted between the copy of the content and the return of `server_shutdown`,
the last SAVE_NOW is a version of the document that holds every acknowledged operation. -/
theorem saves_final (text : Bytes) (limit : ℕ) (path : Bytes) (actions : List ShutdownAction)
    (s s' : ShutdownSys) (content : Bytes) (version : ℤ)
    (hgood : Guarded step NoLateCommit (init text limit path) actions)
    (hrun : run step (init text limit path) actions = some s)
    (hreturn : s.step .shutdown = some s') (hphase : s'.phase = .returned content version) :
    s'.SavesFinal content version :=
  (run_invariant_of_guarded (fun _ _ _ hinv hgood hstep => hinv.step hgood hstep)
    (inv_init text limit path) hgood hrun).savesFinal hreturn hphase

/-- A client joins a server with the text `ab` and types `c`. -/
def editing : List ShutdownAction :=
  [.system (.connect (bytes "a") [])] ++ List.replicate 6 (.system (Action.serve 0)) ++
    [.system (Action.deliver 0), .system (Action.deliver 0), .test 0,
      .system (Action.key 0 (tsOperationInit .insert 2 (bytes "c")))]

/-- The operation is acknowledged before the server is shut down. -/
def earlyCommit : List ShutdownAction :=
  editing ++ List.replicate 4 (.system (Action.serve 0)) ++ List.replicate 5 .shutdown ++
    List.replicate 5 (.system (Action.saverTake true))

theorem saves_final_earlyCommit :
    ∃ s s', run step (init (bytes "ab") 10 (bytes "f")) earlyCommit = some s ∧
      s.step .shutdown = some s' ∧ s'.SavesFinal (bytes "abc") 1 := by
  have hany : (run step (init (bytes "ab") 10 (bytes "f")) earlyCommit).any (fun s =>
      (s.step .shutdown).any fun s' => decide (s'.phase = .returned (bytes "abc") 1)) = true := by
    decide +kernel
  obtain ⟨s, hrun, hs⟩ := (Option.any_eq_true _ _).mp hany
  obtain ⟨s', hstep, hphase⟩ := (Option.any_eq_true _ _).mp hs
  exact ⟨s, s', hrun, hstep, saves_final (bytes "ab") 10 (bytes "f") earlyCommit s s' _ _
    (by decide +kernel) hrun hstep (of_decide_eq_true hphase)⟩

/-- The thread that waits for the operation handles it between the copy of the content and the reading
of the version. -/
def lateCommit : List ShutdownAction :=
  editing ++ [.shutdown, .shutdown, .system (Action.serve 0), .shutdown, .shutdown] ++
    List.replicate 3 (.system (Action.serve 0)) ++ [.shutdown] ++
    List.replicate 5 (.system (Action.saverTake true))

theorem not_savesFinal_lateCommit :
    ∃ s s', run step (init (bytes "ab") 10 (bytes "f")) lateCommit = some s ∧
      s.step .shutdown = some s' ∧ s'.phase = .returned (bytes "ab") 1 ∧
      s'.sys.textAt 1 = some (bytes "abc") ∧
      (∃ message ∈ (s'.sys.conns 0).toClient, message.type = typeAck ∧ message.version = 1) ∧
      ¬ s'.SavesFinal (bytes "ab") 1 := by
  have hany : (run step (init (bytes "ab") 10 (bytes "f")) lateCommit).any (fun s =>
      (s.step .shutdown).any fun s' => decide (s'.phase = .returned (bytes "ab") 1 ∧
        s'.sys.textAt 1 = some (bytes "abc") ∧ ∃ message ∈ (s'.sys.conns 0).toClient,
          message.type = typeAck ∧ message.version = 1)) = true := by
    decide +kernel
  obtain ⟨s, hrun, hs⟩ := (Option.any_eq_true _ _).mp hany
  obtain ⟨s', hstep, hs'⟩ := (Option.any_eq_true _ _).mp hs
  obtain ⟨hphase, htext, hack⟩ := of_decide_eq_true hs'
  refine ⟨s, s', hrun, hstep, hphase, htext, hack, fun hfinal => ?_⟩
  exact absurd (hfinal.text.symm.trans htext) (by decide)

end ShutdownSys

end TermSync
