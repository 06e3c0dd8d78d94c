import TermSync.Proofs.ConvergenceProofs

/-!
# Proofs: what is saved does not go back

An event that a thread sends to the autosave process is a snapshot of the document at some version
(`EventsTrue`). If no thread sends an older version than another one before it, the versions in the
pipe are ordered, and the autosave process, which keeps the last event it has read, keeps the newest.
-/

namespace TermSync

open Foundations

namespace Sys

/-! ## The events are snapshots of the document -/

/-- The event asks to save the text at its version, which the document has reached. -/
def EventTrue (s : Sys) (event : SaverEvent) : Prop :=
  ∀ x ∈ event.saved?, 0 ≤ x.2 ∧ x.2 ≤ s.server.document.version ∧ s.textAt x.2 = some x.1

/-- The events of a thread have been there before, or they are for the document `doc`. -/
def EventsFrom (s : Sys) (doc : TsDocument) (i : ℕ) (c : Conn) : Prop :=
  ∀ event, Effect.pipe event ∈ c.thread →
    Effect.pipe event ∈ (s.conns i).thread ∨ ∀ x ∈ event.saved?, x = (doc.text, doc.version)

theorem eventsFrom_of_subset {s : Sys} {doc : TsDocument} {i : ℕ} {c : Conn}
    (h : ∀ event, Effect.pipe event ∈ c.thread → Effect.pipe event ∈ (s.conns i).thread) :
    EventsFrom s doc i c :=
  fun event he => Or.inl (h event he)

theorem eventsFrom_resultEffects {doc doc' : TsDocument} {call : DocCall} {r : TsProcessResult}
    (h : processCall doc call = some (doc', r)) (clientId : Bytes) (event : SaverEvent)
    (he : Effect.pipe event ∈ resultEffects clientId r) :
    ∀ x ∈ event.saved?, x = (doc'.text, doc'.version) := by
  cases processOutcome h with
  | error => simp [resultEffects, errorResult] at he
  | resync => simp [resultEffects, resyncResult] at he
  | ok op updated =>
    simp only [resultEffects, okResult, if_true, List.mem_append, List.mem_cons, List.not_mem_nil,
      or_false, Effect.pipe.injEq, Option.toList_some, List.map_cons, List.map_nil,
      reduceCtorEq] at he
    rcases he with rfl | rfl <;> simp [SaverEvent.saved?]

/-- A step gives a thread only events for the document as it is then. -/
theorem eventsFrom_step {s s' : Sys} {a : Action} (h : s.step a = some s') (j : ℕ) :
    EventsFrom s s'.server.document j (s'.conns j) := by
  have hset {t : Sys} {i : ℕ} {c : Conn} {doc : TsDocument} (hconns : t.conns = s.conns)
      (hc : EventsFrom s doc i c) : EventsFrom s doc j ((t.setConn i c).conns j) :=
    forall_setConn (P := EventsFrom s doc) hc
      (fun j _ => eventsFrom_of_subset fun event he => hconns ▸ he) j
  have hpop {i : ℕ} {effect : Effect} {rest : List Effect}
      (hthread : (s.conns i).thread = effect :: rest) (event : SaverEvent)
      (he : Effect.pipe event ∈ rest) : Effect.pipe event ∈ (s.conns i).thread :=
    hthread ▸ List.mem_cons_of_mem _ he
  cases stepOutcome h with
  | connect clientId address =>
    refine hset rfl ?_
    simp [EventsFrom, Conn.opened]
  | key i op out hi hqueue =>
    refine hset rfl ?_
    exact eventsFrom_of_subset fun _ he => he
  | save i hi =>
    refine hset rfl ?_
    exact eventsFrom_of_subset fun _ he => he
  | deliver i message rest out hin hhandle =>
    refine hset rfl ?_
    exact eventsFrom_of_subset fun _ he => he
  | join i message rest server clientId hthread hin hphase htype hlock hchoose =>
    refine hset rfl ?_
    simp [EventsFrom, joinEffects, SaverEvent.saved?]
  | refuse i message rest hthread hin hphase htype =>
    refine hset rfl ?_
    simp [EventsFrom]
  | op i message rest document result hthread hin hphase htype hprocess =>
    rw [processMessage_eq] at hprocess
    exact hset rfl fun event he => Or.inr (eventsFrom_resultEffects hprocess _ event he)
  | answer i message rest effects hthread hin hphase htype hdispatch =>
    refine hset rfl ?_
    rcases (dispatchMessage_of_ne htype hdispatch).2 with
      ⟨-, heq⟩ | ⟨-, heq⟩ | ⟨-, heq⟩ | ⟨-, -, -, heq⟩ <;>
    · simp only at heq
      simp [EventsFrom, heq, SaverEvent.saved?]
  | send i message rest hthread =>
    refine hset rfl ?_
    exact eventsFrom_of_subset (hpop hthread)
  | pipe i event rest hthread =>
    refine hset rfl ?_
    exact eventsFrom_of_subset (hpop hthread)
  | register i client rest hthread hlock =>
    refine hset rfl ?_
    exact eventsFrom_of_subset (hpop hthread)
  | snapshot i rest hthread =>
    refine hset rfl ?_
    exact eventsFrom_of_subset fun event he => hpop hthread event (by simpa using he)
  | broadcast i message exclude rest hthread hlock =>
    refine hset rfl ?_
    exact eventsFrom_of_subset fun event he =>
      hpop hthread event (by simpa [broadcastSends] using he)
  | sendTo i fd message rest hthread =>
    have hmid (k : ℕ) : EventsFrom s s.server.document k
        ((s.setConn i { s.conns i with thread := rest }).conns k) :=
      forall_setConn (P := EventsFrom s s.server.document)
        (eventsFrom_of_subset (hpop hthread)) (fun k _ => eventsFrom_of_subset fun _ he => he) k
    refine forall_setConn (P := EventsFrom s s.server.document) ?_ (fun k _ => hmid k) j
    exact hmid fd
  | unlock i rest hthread =>
    refine hset rfl ?_
    exact eventsFrom_of_subset (hpop hthread)
  | saverTake written event rest hpipe => exact eventsFrom_of_subset fun _ he => he
  | saverTimer written => exact eventsFrom_of_subset fun _ he => he

/-- Everything that has been sent or will be sent to the autosave process is a text of the
document. -/
structure EventsTrue (s : Sys) : Prop where
  piped : ∀ event ∈ s.piped, s.EventTrue event
  threads : ∀ i event, Effect.pipe event ∈ (s.conns i).thread → s.EventTrue event

theorem eventsTrue_init (text : Bytes) (limit : ℕ) (path : Bytes) :
    EventsTrue (init text limit path) where
  piped event he := by
    rw [List.mem_singleton.mp he]
    rintro x ⟨⟩
    exact ⟨le_rfl, le_rfl, rfl⟩
  threads i event he := by simp [init, Conn.none] at he

theorem Logged.eventTrue_step {s s' : Sys} {a : Action} (hs : Logged s) (h : s.step a = some s')
    {event : SaverEvent} (he : s.EventTrue event) : s'.EventTrue event := by
  intro x hx
  obtain ⟨hnonneg, hle, htext⟩ := he x hx
  exact ⟨hnonneg, hle.trans (hs.version_step h), (hs.textAt_step h hle).trans htext⟩

/-- What a step does with the pipe and the autosave process. -/
inductive PipeOutcome (s : Sys) : Action → Sys → Prop
  | piped (i : ℕ) (event : SaverEvent) (rest : List Effect) (s' : Sys)
      (hthread : (s.conns i).thread = .pipe event :: rest) (hpiped : s'.piped = s.piped ++ [event])
      (hpipe : s'.pipe = s.pipe ++ [event]) (hsaver : s'.saver = s.saver) :
      PipeOutcome s (.serve i) s'
  | taken (written : Bool) (event : SaverEvent) (s' : Sys) (hpipe : s.pipe = event :: s'.pipe)
      (hpiped : s'.piped = s.piped) (hsaver : s'.saver = s.saver.handle event written) :
      PipeOutcome s (.saverTake written) s'
  | timer (written : Bool) (s' : Sys) (hpipe : s'.pipe = s.pipe) (hpiped : s'.piped = s.piped)
      (hsaver : s'.saver = s.saver.timer written) : PipeOutcome s (.saverTimer written) s'
  | frame (a : Action) (s' : Sys) (hpipe : s'.pipe = s.pipe) (hpiped : s'.piped = s.piped)
      (hsaver : s'.saver = s.saver) : PipeOutcome s a s'

theorem pipeOutcome {s s' : Sys} {a : Action} (h : s.step a = some s') : PipeOutcome s a s' := by
  cases stepOutcome h with
  | pipe i event rest hthread => exact .piped i event rest _ hthread rfl rfl rfl
  | saverTake written event rest hpipe => exact .taken written event _ hpipe rfl rfl
  | saverTimer written => exact .timer written _ rfl rfl rfl
  | _ => exact .frame _ _ rfl rfl rfl

theorem EventsTrue.step {s s' : Sys} {a : Action} (hs : EventsTrue s) (hl : Logged s)
    (h : s.step a = some s') : EventsTrue s' where
  piped event he := by
    refine hl.eventTrue_step h ?_
    cases pipeOutcome h with
    | piped i new rest _ hthread hpiped =>
      rw [hpiped] at he
      rcases List.mem_append.mp he with he | he
      · exact hs.piped event he
      · rw [List.mem_singleton.mp he]
        exact hs.threads i new (by rw [hthread]; exact List.mem_cons_self)
    | taken _ _ _ _ hpiped => exact hs.piped event (hpiped ▸ he)
    | timer _ _ _ hpiped => exact hs.piped event (hpiped ▸ he)
    | frame _ _ _ hpiped => exact hs.piped event (hpiped ▸ he)
  threads i event he := by
    rcases eventsFrom_step h i event he with he | hnew
    · exact hl.eventTrue_step h (hs.threads i event he)
    · intro x hx
      have hl' := hl.step h
      rw [hnew x hx]
      exact ⟨hl'.window.version_nonneg, le_rfl, hl'.textAt_version⟩

/-! ## The autosave process holds the newest version -/

/-- The autosave process holds the newest version that it has taken from the pipe, and has written
no newer one. -/
structure Holds (s : Sys) (taken : List SaverEvent) : Prop where
  split : s.piped = taken ++ s.pipe
  newest : ∀ event ∈ taken, ∀ x ∈ event.saved?, x.2 ≤ s.saver.latestVersion
  latest : (∃ event ∈ taken, ∃ content, event.saved? = some (content, s.saver.latestVersion) ∧
      s.saver.latestContent = some content) ∨
    (∀ event ∈ taken, event.saved? = none) ∧ s.saver.latestVersion = 0
  autosaveFile : ∀ x ∈ s.saver.autosaveFile, x.2 ≤ s.saver.latestVersion
  documentFile : ∀ x ∈ s.saver.documentFile, x.2 ≤ s.saver.latestVersion

/-- The events are in the order of their versions. -/
structure SavesInOrder (s : Sys) : Prop where
  logged : Logged s
  events : EventsTrue s
  ordered : s.piped.Pairwise SaverEvent.NotNewer
  sent : ∃ event ∈ s.piped, event.saved? ≠ none
  holds : ∃ taken, Holds s taken

theorem savesInOrder_init (text : Bytes) (limit : ℕ) (path : Bytes) :
    SavesInOrder (init text limit path) where
  logged := logged_init text limit path
  events := eventsTrue_init text limit path
  ordered := List.pairwise_singleton ..
  sent := ⟨_, List.mem_cons_self, by simp [SaverEvent.saved?]⟩
  holds := ⟨[], rfl, by simp, Or.inr ⟨by simp, rfl⟩, by simp [init, SaverState.init],
    by simp [init, SaverState.init]⟩

/-- The next event is not older than what the autosave process holds. -/
theorem SavesInOrder.latest_le {s : Sys} (hs : SavesInOrder s) {taken rest : List SaverEvent}
    {event : SaverEvent} (hholds : Holds s taken) (hpipe : s.pipe = event :: rest) :
    ∀ x ∈ event.saved?, s.saver.latestVersion ≤ x.2 := by
  intro x hx
  have hmem : event ∈ s.pipe := by rw [hpipe]; exact List.mem_cons_self
  rcases hholds.latest with ⟨held, hheld, content, hsaved, -⟩ | ⟨-, hzero⟩
  · have hordered := hs.ordered
    rw [hholds.split, List.pairwise_append] at hordered
    exact hordered.2.2 held hheld event hmem _ hsaved x hx
  · rw [hzero]
    exact (hs.events.piped event (by rw [hholds.split]; exact List.mem_append_right _ hmem) x hx).1

end Sys

/-! ## One event -/

namespace SaverState

theorem notOlder_refl (a : SaverState) : a.NotOlder a where
  latest := le_rfl
  autosaveFile x hx := ⟨x, hx, le_rfl⟩
  documentFile x hx := ⟨x, hx, le_rfl⟩

theorem NotOlder.trans {a b c : SaverState} (hab : a.NotOlder b) (hbc : b.NotOlder c) :
    a.NotOlder c where
  latest := hab.latest.trans hbc.latest
  autosaveFile x hx := by
    obtain ⟨y, hy, hxy⟩ := hab.autosaveFile x hx
    obtain ⟨z, hz, hyz⟩ := hbc.autosaveFile y hy
    exact ⟨z, hz, hxy.trans hyz⟩
  documentFile x hx := by
    obtain ⟨y, hy, hxy⟩ := hab.documentFile x hx
    obtain ⟨z, hz, hyz⟩ := hbc.documentFile y hy
    exact ⟨z, hz, hxy.trans hyz⟩

/-- An event that is not older than the latest version does not take the process back. -/
theorem notOlder_handle {a : SaverState} {event : SaverEvent} (written : Bool)
    (hlatest : ∀ x ∈ event.saved?, a.latestVersion ≤ x.2)
    (hdocument : ∀ x ∈ a.documentFile, x.2 ≤ a.latestVersion) :
    a.NotOlder (a.handle event written) := by
  cases event with
  | snapshot content version =>
    exact ⟨hlatest _ rfl, (notOlder_refl a).autosaveFile, (notOlder_refl a).documentFile⟩
  | saveNow content version =>
    refine ⟨hlatest _ rfl, (notOlder_refl a).autosaveFile, fun x hx => ?_⟩
    cases written with
    | false => exact ⟨x, hx, le_rfl⟩
    | true => exact ⟨_, rfl, (hdocument x hx).trans (hlatest _ rfl)⟩
  | log entryJson => exact ⟨le_rfl, (notOlder_refl a).autosaveFile, (notOlder_refl a).documentFile⟩

theorem notOlder_timer {a : SaverState} (written : Bool)
    (hautosave : ∀ x ∈ a.autosaveFile, x.2 ≤ a.latestVersion) : a.NotOlder (a.timer written) := by
  unfold timer
  cases a.latestContent with
  | none => exact notOlder_refl a
  | some content =>
    refine ⟨le_rfl, fun x hx => ?_, (notOlder_refl a).documentFile⟩
    cases written with
    | false => exact ⟨x, hx, le_rfl⟩
    | true => exact ⟨_, rfl, hautosave x hx⟩

end SaverState

/-! ## One step -/

namespace Sys

/-- What the autosave process holds after an event. -/
theorem Holds.taken {s s' : Sys} {taken : List SaverEvent} {event : SaverEvent} {written : Bool}
    (h : Holds s taken) (hlatest : ∀ x ∈ event.saved?, s.saver.latestVersion ≤ x.2)
    (hpipe : s.pipe = event :: s'.pipe) (hpiped : s'.piped = s.piped)
    (hsaver : s'.saver = s.saver.handle event written) : Holds s' (taken ++ [event]) := by
  have hsplit : s'.piped = (taken ++ [event]) ++ s'.pipe := by
    rw [hpiped, h.split, hpipe, List.append_assoc, List.singleton_append]
  have hsaved (content : Bytes) (version : ℤ) (he : event.saved? = some (content, version))
      (hcontent : s'.saver.latestContent = some content) (hversion : s'.saver.latestVersion = version)
      (hautosave : s'.saver.autosaveFile = s.saver.autosaveFile)
      (hdocument : ∀ x ∈ s'.saver.documentFile, x ∈ s.saver.documentFile ∨ x.2 = version) :
      Holds s' (taken ++ [event]) := by
    have hle : s.saver.latestVersion ≤ version := hlatest _ he
    refine ⟨hsplit, ?_,
      Or.inl ⟨event, List.mem_append_right _ List.mem_cons_self, content, ?_, hcontent⟩,
      ?_, ?_⟩
    · intro e hmem x hx
      rcases List.mem_append.mp hmem with hmem | hmem
      · exact hversion ▸ (h.newest e hmem x hx).trans hle
      · obtain rfl := List.mem_singleton.mp hmem
        obtain rfl := Option.some.inj (he.symm.trans hx)
        exact hversion.ge
    · rw [hversion]
      exact he
    · rw [hautosave, hversion]
      exact fun x hx => (h.autosaveFile x hx).trans hle
    · intro x hx
      rw [hversion]
      rcases hdocument x hx with hx | hx
      · exact (h.documentFile x hx).trans hle
      · exact hx.le
  cases event with
  | snapshot content version =>
    exact hsaved content version rfl (by rw [hsaver]; rfl) (by rw [hsaver]; rfl) (by rw [hsaver]; rfl)
      (by rw [hsaver]; exact fun x hx => Or.inl hx)
  | saveNow content version =>
    refine hsaved content version rfl (by rw [hsaver]; rfl) (by rw [hsaver]; rfl)
      (by rw [hsaver]; rfl) ?_
    rw [hsaver]
    intro x hx
    cases written with
    | false => exact Or.inl hx
    | true =>
      obtain rfl := Option.some.inj hx
      exact Or.inr rfl
  | log entryJson =>
    have hnone {e : SaverEvent} (hmem : e ∈ taken ++ [SaverEvent.log entryJson]) :
        e ∈ taken ∨ e.saved? = none := by
      rcases List.mem_append.mp hmem with hmem | hmem
      · exact Or.inl hmem
      · rw [List.mem_singleton.mp hmem]
        exact Or.inr rfl
    refine ⟨hsplit, ?_, ?_, ?_, ?_⟩ <;> rw [hsaver]
    · intro e hmem x hx
      rcases hnone hmem with hmem | hnone
      · exact h.newest e hmem x hx
      · rw [hnone] at hx
        cases hx
    · rcases h.latest with ⟨e, hmem, hheld⟩ | ⟨hall, hzero⟩
      · exact Or.inl ⟨e, List.mem_append_left _ hmem, hheld⟩
      · refine Or.inr ⟨fun e hmem => ?_, hzero⟩
        rcases hnone hmem with hmem | hnone
        · exact hall e hmem
        · exact hnone
    · exact h.autosaveFile
    · exact h.documentFile

/-- What the autosave process holds as long as it takes nothing from the pipe. -/
theorem Holds.frame {s s' : Sys} {taken : List SaverEvent} (h : Holds s taken)
    (hsplit : s'.piped = taken ++ s'.pipe)
    (hversion : s'.saver.latestVersion = s.saver.latestVersion)
    (hcontent : s'.saver.latestContent = s.saver.latestContent)
    (hautosave : ∀ x ∈ s'.saver.autosaveFile, x ∈ s.saver.autosaveFile ∨ x.2 = s.saver.latestVersion)
    (hdocument : s'.saver.documentFile = s.saver.documentFile) : Holds s' taken where
  split := hsplit
  newest := by
    rw [hversion]
    exact h.newest
  latest := by
    rw [hversion, hcontent]
    exact h.latest
  autosaveFile x hx := by
    rw [hversion]
    rcases hautosave x hx with hx | hx
    · exact h.autosaveFile x hx
    · exact hx.le
  documentFile := by
    rw [hversion, hdocument]
    exact h.documentFile

theorem Holds.timer {s s' : Sys} {taken : List SaverEvent} {written : Bool} (h : Holds s taken)
    (hpipe : s'.pipe = s.pipe) (hpiped : s'.piped = s.piped)
    (hsaver : s'.saver = s.saver.timer written) : Holds s' taken := by
  have hsplit : s'.piped = taken ++ s'.pipe := by rw [hpiped, h.split, hpipe]
  unfold SaverState.timer at hsaver
  cases hcontent : s.saver.latestContent with
  | none =>
    simp only [hcontent] at hsaver
    exact h.frame hsplit (by rw [hsaver]) (by rw [hsaver])
      (by rw [hsaver]; exact fun x hx => Or.inl hx) (by rw [hsaver])
  | some content =>
    simp only [hcontent] at hsaver
    refine h.frame hsplit (by rw [hsaver]) (by rw [hsaver]; exact hcontent.symm) ?_ (by rw [hsaver])
    rw [hsaver]
    intro x hx
    cases written with
    | false => exact Or.inl hx
    | true =>
      obtain rfl := Option.some.inj hx
      exact Or.inr rfl

theorem SavesInOrder.step {s s' : Sys} {a : Action} (hs : SavesInOrder s) (hgood : s.SendsInOrder a)
    (h : s.step a = some s') : SavesInOrder s' ∧ s.saver.NotOlder s'.saver := by
  obtain ⟨taken, hholds⟩ := hs.holds
  have hlogged := hs.logged.step h
  have hevents := hs.events.step hs.logged h
  obtain ⟨first, hfirst, hsaved⟩ := hs.sent
  cases pipeOutcome h with
  | piped i event rest _ hthread hpiped hpipe hsaver =>
    have hnewest : ∀ sent ∈ s.piped, sent.NotNewer event :=
      hgood (.pipe event) (by rw [hthread]; rfl) event rfl
    refine ⟨⟨hlogged, hevents, ?_, ⟨first, ?_, hsaved⟩, taken, hholds.frame ?_ ?_ ?_ ?_ ?_⟩, ?_⟩
    · rw [hpiped, List.pairwise_append]
      refine ⟨hs.ordered, List.pairwise_singleton .., fun sent hsent new hnew => ?_⟩
      rw [List.mem_singleton.mp hnew]
      exact hnewest sent hsent
    · rw [hpiped]
      exact List.mem_append_left _ hfirst
    · rw [hpiped, hholds.split, hpipe, List.append_assoc]
    · rw [hsaver]
    · rw [hsaver]
    · rw [hsaver]
      exact fun x hx => Or.inl hx
    · rw [hsaver]
    · rw [hsaver]
      exact SaverState.notOlder_refl _
  | taken written event _ hpipe hpiped hsaver =>
    have hlatest := hs.latest_le hholds hpipe
    refine ⟨⟨hlogged, hevents, hpiped ▸ hs.ordered, hpiped ▸ hs.sent, _,
      hholds.taken hlatest hpipe hpiped hsaver⟩, ?_⟩
    rw [hsaver]
    exact SaverState.notOlder_handle written hlatest hholds.documentFile
  | timer written _ hpipe hpiped hsaver =>
    refine ⟨⟨hlogged, hevents, hpiped ▸ hs.ordered, hpiped ▸ hs.sent, taken,
      hholds.timer hpipe hpiped hsaver⟩, ?_⟩
    rw [hsaver]
    exact SaverState.notOlder_timer written hholds.autosaveFile
  | frame a _ hpipe hpiped hsaver =>
    refine ⟨⟨hlogged, hevents, hpiped ▸ hs.ordered, hpiped ▸ hs.sent, taken,
      hholds.frame ?_ ?_ ?_ ?_ ?_⟩, ?_⟩
    · rw [hpiped, hholds.split, hpipe]
    · rw [hsaver]
    · rw [hsaver]
    · rw [hsaver]
      exact fun x hx => Or.inl hx
    · rw [hsaver]
    · rw [hsaver]
      exact SaverState.notOlder_refl _

/-! ## Runs -/

/-- A guarded run does not take the autosave process back. -/
theorem savesInOrder_run {s s' : Sys} {actions : List Action} (hs : SavesInOrder s)
    (hgood : Guarded Sys.step SendsInOrder s actions) (hrun : run Sys.step s actions = some s') :
    SavesInOrder s' ∧ s.saver.NotOlder s'.saver := by
  refine run_invariant_of_guarded (P := fun t => SavesInOrder t ∧ s.saver.NotOlder t.saver)
    (fun t a t' ht hga hstep => ?_) ⟨hs, SaverState.notOlder_refl _⟩ hgood hrun
  obtain ⟨ht', hle⟩ := ht.1.step hga hstep
  exact ⟨ht', ht.2.trans hle⟩

/-- When everything has been taken from the pipe, the newest version is held. -/
theorem SavesInOrder.holdsNewest {s : Sys} (hs : SavesInOrder s) (hpipe : s.pipe = []) :
    s.HoldsNewest := by
  obtain ⟨taken, hholds⟩ := hs.holds
  have hsplit := hholds.split
  rw [hpipe, List.append_nil] at hsplit
  rcases hholds.latest with ⟨event, hmem, content, hsaved, hcontent⟩ | ⟨hnone, -⟩
  · refine ⟨⟨event, hsplit ▸ hmem, _, hsaved, rfl⟩, hsplit ▸ hholds.newest, ?_⟩
    rw [hcontent, ← (hs.events.piped event (hsplit ▸ hmem) _ hsaved).2.2]
  · obtain ⟨event, hmem, hne⟩ := hs.sent
    exact absurd (hnone event (hsplit ▸ hmem)) hne

/-- As long as no thread sends an older version to the autosave process than has been sent before,
what is held and what is saved never goes back; and when all events have been taken, the newest version
is held. -/
theorem saved_never_older (text : Bytes) (limit : ℕ) (path : Bytes) (before after : List Action)
    (mid s : Sys) (hmid : run Sys.step (init text limit path) before = some mid)
    (hrun : run Sys.step mid after = some s)
    (hgood : Guarded Sys.step SendsInOrder (init text limit path) (before ++ after)) :
    mid.saver.NotOlder s.saver ∧ (s.pipe = [] → s.HoldsNewest) := by
  obtain ⟨hs, -⟩ := savesInOrder_run (savesInOrder_init text limit path) hgood.append_left hmid
  obtain ⟨hs', hle⟩ := savesInOrder_run hs (hgood.append_right hmid) hrun
  exact ⟨hle, hs'.holdsNewest⟩

/-- Each client types one character, and the threads commit both before they send their snapshots. -/
def bothType : List Action :=
  [.key 0 (tsOperationInit .insert 0 (bytes "x")), .key 1 (tsOperationInit .insert 0 (bytes "y")),
    .serve 0, .serve 1]

/-- The thread that has committed first sends first. -/
def snapshotsInOrder : List Action :=
  bothType ++ List.flatten [List.replicate 6 (.serve 0), List.replicate 6 (.serve 1),
    List.replicate 7 (.saverTake true), [.saverTimer true]]

theorem saved_never_older_inOrder :
    ∃ mid s, run Sys.step (init [] 10 (bytes "f")) bothJoin = some mid ∧
      run Sys.step mid snapshotsInOrder = some s ∧ mid.saver.NotOlder s.saver := by
  have hsome : (run Sys.step (init [] 10 (bytes "f")) (bothJoin ++ snapshotsInOrder)).isSome =
      true := by
    decide +kernel
  have hgood : Guarded Sys.step SendsInOrder (init [] 10 (bytes "f"))
      (bothJoin ++ snapshotsInOrder) := by
    decide +kernel
  obtain ⟨s, hrun⟩ := Option.isSome_iff_exists.mp hsome
  obtain ⟨mid, hmid, hafter⟩ := run_append_some.mp hrun
  exact ⟨mid, s, hmid, hafter,
    (saved_never_older [] 10 (bytes "f") bothJoin snapshotsInOrder mid s hmid hafter hgood).1⟩

/-- The thread that has committed first sends last: the autosave process has taken the snapshot of
version 2 when it takes that of version 1. -/
def overtakenSnapshot : List Action :=
  bothType ++ List.flatten [List.replicate 6 (.serve 1), List.replicate 6 (.serve 0),
    List.replicate 4 (.saverTake true)]

theorem not_notOlder_overtakenSnapshot :
    ∃ mid s, run Sys.step (init [] 10 (bytes "f")) (bothJoin ++ overtakenSnapshot) =
        some mid ∧
      run Sys.step mid (List.replicate 3 (.saverTake true)) = some s ∧
      ¬ mid.saver.NotOlder s.saver ∧ (∀ i < s.accepted, (s.conns i).thread = []) ∧ s.pipe = [] ∧
      ¬ s.HoldsNewest := by
  have hbefore : (run Sys.step (init [] 10 (bytes "f")) (bothJoin ++ overtakenSnapshot)).any
      (fun mid => decide (mid.saver.latestVersion = 2)) = true := by
    decide +kernel
  have hafter : (run Sys.step (init [] 10 (bytes "f"))
      ((bothJoin ++ overtakenSnapshot) ++ List.replicate 3 (.saverTake true))).any
      (fun s => decide (s.saver.latestVersion = 1 ∧ (∀ i < s.accepted, (s.conns i).thread = []) ∧
        s.pipe = [] ∧ ∃ event ∈ s.piped, ∃ x ∈ event.saved?, x.2 = 2)) = true := by
    decide +kernel
  obtain ⟨mid, hmid, htwo⟩ := (Option.any_eq_true _ _).mp hbefore
  obtain ⟨s, hrun, hs⟩ := (Option.any_eq_true _ _).mp hafter
  have htwo := of_decide_eq_true htwo
  obtain ⟨hone, hidle, hpipe, event, hmem, x, hx, hnewer⟩ := of_decide_eq_true hs
  obtain ⟨t, ht, hrest⟩ := run_append_some.mp hrun
  obtain rfl := Option.some.inj (hmid.symm.trans ht)
  refine ⟨mid, s, hmid, hrest, fun hle => ?_, hidle, hpipe, fun hnewest => ?_⟩
  · have := hle.latest
    omega
  · have := hnewest.highest event hmem x hx
    omega

end Sys

end TermSync
