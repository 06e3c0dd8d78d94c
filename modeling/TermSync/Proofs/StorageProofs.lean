import TermSync.Proofs.ReloadProofs
import TermSync.Proofs.SavedStateProofs
import TermSync.Storage

/-!
# Proofs: whole files

The autosave process takes only contents of whole events from the pipe, whatever is written and read in
which pieces and wherever the server dies (`Expects`). A file that is replaced gets such a content at once or
not at all, so it always holds a text of the document.
-/

namespace TermSync

open Foundations Scripted

/-! ## Files that may fail -/

/-- A save replaces its file or leaves it, and it changes no other file but its own ones. -/
structure Replaced (path content : Bytes) (own : List Bytes) (d d' : Disk) : Prop where
  file : d'.file path = d.file path ∨ d'.file path = some content
  others : ∀ q, q ≠ path → q ∉ own → d'.file q = d.file q

variable {path content : Bytes} {d : Disk}

theorem tsWriteWithBackup_replaced (hlen : path.length + 4 < pathMax) (script : List CallOutcome) :
    Replaced path content [tmpOf path, bakOf path] d (tsWriteWithBackup path content d script).1 := by
  have hkept : ∀ d', Unsaved d.file path d.replacements d' →
      Replaced path content [tmpOf path, bakOf path] d d' := by
    intro d' h
    refine ⟨Or.inl (h.others path (tmpOf_ne path) (bakOf_ne path)), fun q _ hown => ?_⟩
    simp only [List.mem_cons, List.not_mem_nil, or_false, not_or] at hown
    exact h.others q hown.1 hown.2
  refine always (P := Replaced path content _ d) (Triple.weaken
    (tsWriteWithBackup_spec hlen hkept) (fun d' h => h) fun rc d' h => ?_) (idle_self d _) script
  by_cases hrc : rc = 0
  · have hsaved := h.done hrc
    refine ⟨Or.inr hsaved.file, fun q hq hown => ?_⟩
    simp only [List.mem_cons, List.not_mem_nil, or_false, not_or] at hown
    exact hsaved.others q hown.1 hown.2 hq
  · exact hkept d' (h.failed hrc)

theorem tsAtomicWriteText_replaced (hlen : path.length + 4 < pathMax) (script : List CallOutcome) :
    Replaced path content [tmpOf path] d (tsAtomicWriteText path content d script).1 := by
  have hkept : ∀ d', Apart d.file (tmpOf path) d.replacements d' →
      Replaced path content [tmpOf path] d d' :=
    fun d' h => ⟨Or.inl (h.file path (tmpOf_ne path)),
      fun q _ hown => h.file q fun htmp => hown (List.mem_singleton.mpr htmp)⟩
  refine always (P := Replaced path content _ d) (Triple.weaken
    (tsAtomicWriteText_spec hlen hkept) (fun d' h => h) fun rc d' h => ?_) (idle_self d _) script
  obtain ⟨hfailed, hdone, -⟩ := h
  by_cases hrc : rc = 0
  · have hsaved := (hdone hrc).1
    exact ⟨Or.inr hsaved.file,
      fun q hq hown => hsaved.others q (fun htmp => hown (List.mem_singleton.mpr htmp)) hq⟩
  · exact hkept d' (hfailed hrc)

/-! ### The log -/

/-- No other file changes, and what stood in this one still stands at its beginning. -/
structure Grown (path : Bytes) (d d' : Disk) : Prop where
  file : (d.file path).getD [] <+: (d'.file path).getD []
  others : ∀ q, q ≠ path → d'.file q = d.file q

theorem Grown.flush {d' : Disk} (h : Grown path d d') (k : ℕ) : Grown path d (d'.flush path k) where
  file := by
    rw [Disk.flush]
    simp only [Disk.set, Function.update_self, Option.getD_some]
    exact h.file.trans (List.prefix_append _ _)
  others q hq := (file_flush k hq).trans (h.others q hq)

theorem Grown.congr {d' d'' : Disk} (h : Grown path d d') (hfile : d''.file = d'.file) :
    Grown path d d'' where
  file := hfile ▸ h.file
  others := hfile ▸ h.others

theorem fopenAppend_grown {good : CallOutcome → Prop} :
    Triple good (Grown path d) (Grown path d) (fopenAppend path) fun _ => Grown path d := by
  refine wholeCall_triple (fun _ h => h) (fun _ _ => rfl) (fun d' k h => h.congr rfl) ?_ ?_
  · intro d' h _
    refine ⟨_, true, rfl, ?_, ?_⟩
    · simpa [Disk.set] using h.file
    · intro q hq
      simpa [Disk.set, hq] using h.others q hq
  · intro d' k h _
    exact ⟨d', false, rfl, h.congr rfl⟩

theorem fwrite_grown {good : CallOutcome → Prop} (data : Bytes) :
    Triple good (Grown path d) (Grown path d) (fwrite path data) fun _ => Grown path d := by
  unfold fwrite
  have haccept : Triple good (Grown path d) (Grown path d)
      (Scripted.modify fun d => { d with pending := d.pending ++ data }) fun _ => Grown path d :=
    Triple.modify fun d' h => h.congr rfl
  refine haccept.bind fun _ => fileCall_triple (fun _ h => h) ?_ ?_
  · rintro d' (_ | k | k) h - hnone
    · cases hnone
    · exact (h.flush k).congr rfl
    · cases hnone
  · rintro d' (_ | k | k) n h - hsome
    · exact h.congr rfl
    · cases hsome
    · exact h.congr rfl

theorem fclose_grown {good : CallOutcome → Prop} :
    Triple good (Grown path d) (Grown path d) (fclose path) fun _ => Grown path d := by
  refine fileCall_triple (fun _ h => h) ?_ ?_
  · rintro d' (_ | k | k) h - hnone
    · cases hnone
    · exact (h.flush k).congr rfl
    · cases hnone
  · rintro d' (_ | k | k) rc h - hsome
    · exact (h.flush _).congr rfl
    · cases hsome
    · exact (h.flush k).congr rfl

theorem tsAppendJsonLog_grown (entryJson : Bytes) (script : List CallOutcome) :
    Grown path d (tsAppendJsonLog path entryJson d script).1 := by
  refine always (I := Grown path d) ?_ ⟨List.prefix_rfl, fun _ _ => rfl⟩ script
  unfold tsAppendJsonLog
  have hmkdir : Triple (fun _ => True) (Grown path d) (Grown path d) (mkdirParentRecursive path)
      fun _ => Grown path d :=
    (mkdirParentRecursive_keeps path (fun _ h => h) fun _ _ _ h => h.congr rfl).weaken (fun _ h => h)
      fun _ _ h => h.1
  refine hmkdir.bind fun rc => Triple.ite (fun _ => Triple.pure fun _ h => h) fun _ => ?_
  refine fopenAppend_grown.bind fun opened => Triple.ite (fun _ => Triple.pure fun _ h => h) fun _ => ?_
  exact (fwrite_grown _).bind fun _ => fclose_grown

/-! ## The autosave process -/

/-- The bytes of whole events. -/
def eventStream (events : List SaverEvent) : Bytes := events.flatMap SaverEvent.stream

/-- What a process in this phase has still to read: the rest of these events. -/
def Expects (todo : List SaverEvent) (rest : Bytes) : SaverPhase → Prop
  | .header line => (10 : UInt8) ∉ line ∧ line ++ rest = eventStream todo
  | .payload event version len data => ∃ e todo', todo = e :: todo' ∧ event = e.name ∧
      version = e.version ∧ len = e.payload.length ∧ data.length < len ∧
      data ++ rest = e.payload ++ eventStream todo'
  | .stopping _ | .ended | .killed => True
  | _ => rest = eventStream todo

/-- The content that is written came with an event. -/
def PhaseSound (events : List SaverEvent) : SaverPhase → Prop
  | .saving payload _ => payload ∈ events.filterMap SaverEvent.text?
  | .autosaving content | .stopping content => content ∈ events.filterMap SaverEvent.text?
  | _ => True

/-- A file is as it was, or its content came with an event. -/
def Holds (events : List SaverEvent) (old file : Option Bytes) : Prop :=
  file = old ∨ ∃ content ∈ events.filterMap SaverEvent.text?, file = some content

/-- The content that the process holds and the files came with events or were there before. -/
structure Kept (paths : SaverPaths) (before : Disk) (events : List SaverEvent) (s : Saver) : Prop where
  latest : ∀ content ∈ s.latestContent, content ∈ events.filterMap SaverEvent.text?
  document : Holds events (before.file paths.document) (s.disk.file paths.document)
  autosave : Holds events (before.file paths.autosave) (s.disk.file paths.autosave)
  log : (before.file paths.log).getD [] <+: (s.disk.file paths.log).getD []

/-- Moreover, the process has still to read whole events, of which `ahead` has not been written yet. -/
structure TakesWhole (paths : SaverPaths) (before : Disk) (events : List SaverEvent) (ahead : Bytes)
    (s : Saver) : Prop extends Kept paths before events s where
  reads : ∃ todo, todo ⊆ events ∧ Expects todo (s.pipe ++ s.toSend ++ ahead) s.phase
  phase : PhaseSound events s.phase

section Process

variable {paths : SaverPaths} {before : Disk} {events todo : List SaverEvent} {ahead : Bytes} {s : Saver}

theorem SaverEvent.stream_eq {e : SaverEvent} (he : e.Fits) :
    e.stream = e.headerLine ++ 10 :: e.payload := by
  simp [SaverEvent.stream, e.chunks_eq he]

theorem eventStream_cons {e : SaverEvent} (he : e.Fits) (todo : List SaverEvent) :
    eventStream (e :: todo) = e.headerLine ++ 10 :: (e.payload ++ eventStream todo) := by
  rw [eventStream, List.flatMap_cons, e.stream_eq he]
  simp [eventStream]

/-- Neither the content that the process holds nor the disk changes. -/
theorem Kept.goTo (h : Kept paths before events s) {t : Saver}
    (hcontent : t.latestContent = s.latestContent) (hdisk : t.disk = s.disk) :
    Kept paths before events t where
  latest := hcontent ▸ h.latest
  document := hdisk ▸ h.document
  autosave := hdisk ▸ h.autosave
  log := hdisk ▸ h.log

/-- An event has been read. -/
theorem Kept.receive (h : Kept paths before events s) {e : SaverEvent} (he : e ∈ events)
    (hsub : todo ⊆ events) (hrest : s.pipe ++ s.toSend ++ ahead = eventStream todo) :
    TakesWhole paths before events ahead (s.receive (.event e)) := by
  have htext : ∀ content ∈ e.text?, content ∈ events.filterMap SaverEvent.text? :=
    fun content hcontent => List.mem_filterMap.mpr ⟨e, he, hcontent⟩
  cases e with
  | snapshot content version =>
    refine ⟨⟨fun c hc => ?_, h.document, h.autosave, h.log⟩, ⟨todo, hsub, hrest⟩, trivial⟩
    obtain rfl := Option.some.inj hc
    exact htext _ rfl
  | saveNow content version =>
    refine ⟨⟨fun c hc => ?_, h.document, h.autosave, h.log⟩, ⟨todo, hsub, hrest⟩, htext _ rfl⟩
    obtain rfl := Option.some.inj hc
    exact htext _ rfl
  | log entryJson => exact ⟨h.goTo rfl rfl, ⟨todo, hsub, hrest⟩, trivial⟩

/-- The line that is complete is the header of the next event. -/
theorem Kept.takeHeader (h : Kept paths before events s) {line : Bytes} (hsub : todo ⊆ events)
    (hsend : ∀ e ∈ events, e.Sendable) (hline : (10 : UInt8) ∉ line)
    (hrest : line ++ 10 :: (s.pipe ++ s.toSend ++ ahead) = eventStream todo) :
    TakesWhole paths before events ahead (s.takeHeader line) := by
  cases todo with
  | nil => simp [eventStream] at hrest
  | cons e todo =>
    have hmem : e ∈ events := hsub List.mem_cons_self
    have hsub' : todo ⊆ events := fun x hx => hsub (List.mem_cons_of_mem e hx)
    have he := (hsend e hmem).1
    rw [eventStream_cons he] at hrest
    obtain ⟨rfl, htail⟩ := line_inj hline (fun h => e.notMem_headerLine 10 h rfl) hrest
    obtain ⟨-, hstop, hscan⟩ := e.read_header he []
    unfold Saver.takeHeader
    rw [e.cString_headerLine, if_neg hstop, hscan]
    by_cases hlen : e.payload.length = 0
    · have hpayload := List.length_eq_zero_iff.mp hlen
      have hinput := e.namedInput_eq
      rw [hpayload] at hinput htail
      simp only [hlen, if_true, hinput]
      exact h.receive hmem hsub' htail
    · simp only [hlen, if_false]
      exact ⟨h.goTo rfl rfl,
        ⟨e :: todo, hsub, e, todo, rfl, rfl, rfl, rfl, Nat.pos_of_ne_zero hlen, htail⟩, trivial⟩

/-- The first line of the events is short. -/
theorem length_lt_of_expected {line rest : Bytes} {b : UInt8} (hfits : ∀ e ∈ todo, e.Fits)
    (hline : (10 : UInt8) ∉ line ++ [b]) (hrest : line ++ [b] ++ rest = eventStream todo) :
    line.length + 1 < 127 := by
  cases todo with
  | nil => simp [eventStream] at hrest
  | cons e todo =>
    have he := hfits e List.mem_cons_self
    rw [eventStream_cons he] at hrest
    have hprefix : line ++ [b] <+: e.headerLine := by
      rcases cutLine_line (fun h => e.notMem_headerLine 10 h rfl) hrest with
        ⟨r, hcut, -⟩ | ⟨-, hprefix⟩
      · rw [cutLine_eq_none.mpr hline] at hcut
        cases hcut
      · exact hprefix
    have hle := hprefix.length_le
    have hshort := e.length_headerLine he
    rw [List.length_append, List.length_singleton] at hle
    omega

/-- A byte of a header has been read. -/
theorem Kept.takeByte (h : Kept paths before events s) (hsub : todo ⊆ events)
    (hsend : ∀ e ∈ events, e.Sendable) {line : Bytes} {b : UInt8} (hline : (10 : UInt8) ∉ line)
    (hrest : line ++ b :: (s.pipe ++ s.toSend ++ ahead) = eventStream todo) :
    TakesWhole paths before events ahead (s.takeByte line b) := by
  unfold Saver.takeByte
  by_cases hb : b = 10
  · subst hb
    rw [if_pos rfl]
    exact h.takeHeader hsub hsend hline hrest
  · have hlonger : (10 : UInt8) ∉ line ++ [b] := by
      simpa [hline] using Ne.symm hb
    have hstream : line ++ [b] ++ (s.pipe ++ s.toSend ++ ahead) = eventStream todo := by
      rw [← hrest, List.append_assoc, List.singleton_append]
    have hroom := length_lt_of_expected (fun e he => (hsend e (hsub he)).1) hlonger hstream
    rw [if_neg hb, if_pos hroom]
    exact ⟨h.goTo rfl rfl, ⟨todo, hsub, hlonger, hstream⟩, trivial⟩

/-- A part of a payload has been read. -/
theorem Kept.takeData (h : Kept paths before events s) {e : SaverEvent} (hsub : e :: todo ⊆ events)
    (hsend : ∀ e ∈ events, e.Sendable) {data : Bytes} (hlength : data.length ≤ e.payload.length)
    (hrest : data ++ (s.pipe ++ s.toSend ++ ahead) = e.payload ++ eventStream todo) :
    TakesWhole paths before events ahead (s.takeData e.name e.version e.payload.length data) := by
  have hmem : e ∈ events := hsub List.mem_cons_self
  unfold Saver.takeData
  by_cases hmore : data.length < e.payload.length
  · rw [if_pos hmore]
    exact ⟨h.goTo rfl rfl, ⟨e :: todo, hsub, e, todo, rfl, rfl, rfl, rfl, hmore, hrest⟩, trivial⟩
  · -- the payload is complete
    obtain ⟨rfl, htail⟩ := List.append_inj hrest (by omega)
    rw [if_neg hmore, cString_eq_self (hsend e hmem).2, e.namedInput_eq]
    exact h.receive hmem (fun x hx => hsub (List.mem_cons_of_mem e hx)) htail

/-- A step of reading. At the end of the pipe nothing is taken. -/
theorem TakesWhole.read (h : TakesWhole paths before events ahead s)
    (hsend : ∀ e ∈ events, e.Sendable) {k : ℕ} {t : Saver} (hread : s.read k = some t) :
    TakesWhole paths before events ahead t := by
  obtain ⟨todo, hsub, hreads⟩ := h.reads
  have hend : ∀ {t}, (if s.closed then some { s with phase := .ended } else none) = some t →
      TakesWhole paths before events ahead t := by
    intro t ht
    split_ifs at ht
    cases ht
    exact ⟨h.toKept.goTo rfl rfl, ⟨todo, hsub, trivial⟩, trivial⟩
  unfold Saver.read at hread
  split at hread
  · exact hend hread
  · exact hend hread
  · next line b pipe hphase hpipe =>
    cases hread
    rw [hphase, hpipe] at hreads
    obtain ⟨hline, hrest⟩ := hreads
    exact Kept.takeByte (s := { s with pipe := pipe }) (h.toKept.goTo rfl rfl) hsub hsend hline hrest
  · next event version len data hphase hpipe =>
    split_ifs at hread with hk
    cases hread
    rw [hphase] at hreads
    obtain ⟨e, todo', rfl, rfl, rfl, rfl, hshort, hrest⟩ := hreads
    obtain ⟨-, hkpipe, hkdata⟩ := hk
    have hlength : (data ++ s.pipe.take k).length ≤ e.payload.length := by
      rw [List.length_append, List.length_take, Nat.min_eq_left hkpipe]
      exact hkdata
    have hstream : data ++ s.pipe.take k ++ (s.pipe.drop k ++ s.toSend ++ ahead) =
        e.payload ++ eventStream todo' := by
      rw [← hrest, List.append_assoc data, ← List.append_assoc (s.pipe.take k), ← List.append_assoc
        (s.pipe.take k), List.take_append_drop]
    exact Kept.takeData (s := { s with pipe := s.pipe.drop k }) (h.toKept.goTo rfl rfl) hsub hsend
      hlength hstream
  · cases hread

/-! ### Writing files -/

/-- The document is saved, or the save fails or is cut off. -/
theorem Kept.saved (h : Kept paths before events s) {content : Bytes} {d : Disk}
    (hcontent : content ∈ events.filterMap SaverEvent.text?)
    (hd : Replaced paths.document content [tmpOf paths.document, bakOf paths.document] s.disk d) :
    Kept paths before events { s with disk := d } where
  latest := h.latest
  document := by
    rcases hd.file with hfile | hfile
    · exact hfile ▸ h.document
    · exact Or.inr ⟨content, hcontent, hfile⟩
  autosave := by
    obtain ⟨hdocument, hbak, htmp, -⟩ := paths.apart_autosave
    exact (hd.others _ hdocument (by simp [htmp, hbak])) ▸ h.autosave
  log := by
    obtain ⟨hdocument, hbak, htmp, -⟩ := paths.apart_log
    exact (hd.others _ hdocument (by simp [htmp, hbak])) ▸ h.log

/-- The content goes to the autosave file, or the call fails or is cut off. -/
theorem Kept.autosaved (h : Kept paths before events s) {content : Bytes} {d : Disk}
    (hcontent : content ∈ events.filterMap SaverEvent.text?)
    (hd : Replaced paths.autosave content [tmpOf paths.autosave] s.disk d) :
    Kept paths before events { s with disk := d } where
  latest := h.latest
  document := by
    obtain ⟨hauto, -, -, htmp⟩ := paths.apart_autosave
    exact (hd.others _ hauto.symm (by simpa using htmp)) ▸ h.document
  autosave := by
    rcases hd.file with hfile | hfile
    · exact hfile ▸ h.autosave
    · exact Or.inr ⟨content, hcontent, hfile⟩
  log := by
    obtain ⟨-, -, -, hauto, htmp⟩ := paths.apart_log
    exact (hd.others _ hauto (by simpa using htmp)) ▸ h.log

/-- Something is appended to the log. -/
theorem Kept.logged (h : Kept paths before events s) {d : Disk} (hd : Grown paths.log s.disk d) :
    Kept paths before events { s with disk := d } where
  latest := h.latest
  document := (hd.others _ paths.apart_log.1.symm) ▸ h.document
  autosave := (hd.others _ paths.apart_log.2.2.2.1.symm) ▸ h.autosave
  log := h.log.trans hd.file

/-- A program has written files, whatever its calls have returned. -/
theorem TakesWhole.perform {program : FileProg ℤ} {script : List CallOutcome} {next : ℤ → SaverPhase}
    (hkept : Kept paths before events { s with disk := (program s.disk script).1 })
    (hsub : todo ⊆ events) (hreads : ∀ rc, Expects todo (s.pipe ++ s.toSend ++ ahead) (next rc))
    (hphase : ∀ rc, PhaseSound events (next rc)) :
    TakesWhole paths before events ahead (s.perform program script next) := by
  unfold Saver.perform
  refine ⟨hkept.goTo rfl rfl, ⟨todo, hsub, ?_⟩, ?_⟩
  · rcases program s.disk script with ⟨d, - | ⟨rc, rest⟩⟩
    · trivial
    · exact hreads rc
  · rcases program s.disk script with ⟨d, - | ⟨rc, rest⟩⟩
    · trivial
    · exact hphase rc

theorem TakesWhole.logOwn {entry : Bytes} {mark : SaverMark} {script : List CallOutcome}
    {next : SaverPhase}
    (h : TakesWhole paths before events ahead
      (s.perform (tsAppendJsonLog paths.log entry) script fun _ => next)) :
    TakesWhole paths before events ahead (s.logOwn paths entry mark script next) := by
  unfold Saver.logOwn
  split_ifs
  · exact ⟨h.toKept.goTo rfl rfl, h.reads, h.phase⟩
  · exact h

/-- The calls of a phase, whatever they return and wherever the process is killed. -/
theorem TakesWhole.runFiles (h : TakesWhole paths before events ahead s)
    {script : List CallOutcome} {t : Saver} (hrun : s.runFiles paths script = some t) :
    TakesWhole paths before events ahead t := by
  have hphase := h.phase
  obtain ⟨todo, hsub, htodo⟩ := h.reads
  have hlogged (entry : Bytes) := h.logged (tsAppendJsonLog_grown entry script)
  unfold Saver.runFiles at hrun
  cases hp : s.phase <;> rw [hp] at hphase htodo <;>
    simp only [hp, Option.some.injEq, reduceCtorEq] at hrun <;> subst hrun
  case saving payload version =>
    have hsaved := h.saved hphase (tsWriteWithBackup_replaced paths.length_document script)
    exact TakesWhole.perform hsaved hsub (fun _ => htodo) fun _ => trivial
  case manualEntry version rc =>
    exact TakesWhole.logOwn (TakesWhole.perform (hlogged _) hsub (fun _ => htodo) fun _ => trivial)
  case logging payload =>
    exact TakesWhole.perform (hlogged _) hsub (fun _ => htodo) fun _ => trivial
  case autosaving content =>
    have hsaved := h.autosaved hphase (tsAtomicWriteText_replaced paths.length_autosave script)
    exact TakesWhole.perform hsaved hsub (fun _ => htodo) fun _ => trivial
  case autosaveEntry rc =>
    exact TakesWhole.logOwn (TakesWhole.perform (hlogged _) hsub (fun _ => htodo) fun _ => trivial)
  case stopping content =>
    have hsaved := h.autosaved hphase (tsAtomicWriteText_replaced paths.length_autosave script)
    exact TakesWhole.perform hsaved hsub (fun _ => trivial) fun _ => trivial

/-- One step of the process. -/
theorem TakesWhole.step (h : TakesWhole paths before events ahead s) (hsend : ∀ e ∈ events, e.Sendable)
    {a : SaverAction} {t : Saver} (hstep : s.step paths a = some t) :
    TakesWhole paths before events ahead t := by
  obtain ⟨todo, hsub, htodo⟩ := h.reads
  unfold Saver.step at hstep
  cases a with
  | send k =>
    cases hstep
    refine ⟨h.toKept.goTo rfl rfl, ⟨todo, hsub, ?_⟩, h.phase⟩
    simpa using htodo
  | close =>
    simp only at hstep
    split_ifs at hstep
    cases hstep
    exact ⟨h.toKept.goTo rfl rfl, h.reads, h.phase⟩
  | select ready =>
    simp only at hstep
    split at hstep
    · next hphase =>
      rw [hphase] at htodo
      split_ifs at hstep <;> cases hstep
      · exact ⟨h.toKept.goTo rfl rfl, ⟨todo, hsub, htodo⟩, trivial⟩
      · exact ⟨h.toKept.goTo rfl rfl, ⟨todo, hsub, List.not_mem_nil, htodo⟩, trivial⟩
    · cases hstep
  | read k => exact h.read hsend hstep
  | readFails =>
    simp only at hstep
    split at hstep <;> cases hstep
    · exact ⟨h.toKept.goTo rfl rfl, ⟨todo, hsub, trivial⟩, trivial⟩
    · exact ⟨h.toKept.goTo rfl rfl, ⟨todo, hsub, trivial⟩, trivial⟩
  | files script => exact h.runFiles hstep
  | tick expired =>
    simp only at hstep
    split at hstep
    · next hphase =>
      rw [hphase] at htodo
      split at hstep <;> cases hstep
      · next content hcontent =>
        exact ⟨h.toKept.goTo rfl rfl, ⟨todo, hsub, htodo⟩, h.latest content hcontent⟩
      · exact ⟨h.toKept.goTo rfl rfl, ⟨todo, hsub, htodo⟩, trivial⟩
    · cases hstep

/-! ### What the threads do with the pipe -/

/-- More events have been sent. -/
theorem TakesWhole.mono (h : TakesWhole paths before events ahead s) {events' : List SaverEvent}
    (hsub : events ⊆ events') : TakesWhole paths before events' ahead s := by
  have htexts : ∀ content ∈ events.filterMap SaverEvent.text?,
      content ∈ events'.filterMap SaverEvent.text? := fun content hcontent => by
    obtain ⟨e, he, htext⟩ := List.mem_filterMap.mp hcontent
    exact List.mem_filterMap.mpr ⟨e, hsub he, htext⟩
  have hholds : ∀ {old file}, Holds events old file → Holds events' old file := by
    rintro old file (hfile | ⟨content, hcontent, hfile⟩)
    · exact Or.inl hfile
    · exact Or.inr ⟨content, htexts content hcontent, hfile⟩
  obtain ⟨todo, htodo, hreads⟩ := h.reads
  refine ⟨⟨fun content hcontent => htexts content (h.latest content hcontent), hholds h.document,
    hholds h.autosave, h.log⟩, ⟨todo, fun x hx => hsub (htodo hx), hreads⟩, ?_⟩
  have hphase := h.phase
  unfold PhaseSound at hphase ⊢
  split at hphase
  · exact htexts _ hphase
  · exact htexts _ hphase
  · exact htexts _ hphase
  · trivial

/-- One more event is to come. -/
theorem Expects.concat {rest : Bytes} {phase : SaverPhase} (h : Expects todo rest phase)
    (e : SaverEvent) : Expects (todo ++ [e]) (rest ++ e.stream) phase := by
  have hstream : ∀ todo : List SaverEvent, eventStream (todo ++ [e]) = eventStream todo ++ e.stream := by
    simp [eventStream]
  cases phase with
  | header line =>
    obtain ⟨hline, hrest⟩ := h
    refine ⟨hline, ?_⟩
    rw [hstream, ← hrest, List.append_assoc]
  | payload event version len data =>
    obtain ⟨e', todo', rfl, hname, hversion, hlen, hshort, hrest⟩ := h
    refine ⟨e', todo' ++ [e], rfl, hname, hversion, hlen, hshort, ?_⟩
    rw [hstream, ← List.append_assoc, hrest, List.append_assoc]
  | stopping | ended | killed => trivial
  | _ => exact (congrArg (· ++ e.stream) h).trans (hstream todo).symm

/-- A thread begins with an event, when no other one is in the middle of one. -/
theorem TakesWhole.begin (h : TakesWhole paths before events [] s) {e : SaverEvent} (he : e ∈ events) :
    TakesWhole paths before events e.stream s := by
  obtain ⟨todo, hsub, hreads⟩ := h.reads
  refine ⟨h.toKept, ⟨todo ++ [e], ?_, ?_⟩, h.phase⟩
  · intro x hx
    rcases List.mem_append.mp hx with hx | hx
    · exact hsub hx
    · exact List.mem_singleton.mp hx ▸ he
  · have hmore := hreads.concat e
    rwa [List.append_nil] at hmore

/-- Bytes reach the pipe. -/
theorem TakesWhole.write {written : Bytes} (h : TakesWhole paths before events (written ++ ahead) s)
    (hsent : s.toSend = []) :
    TakesWhole paths before events ahead { s with pipe := s.pipe ++ written } := by
  obtain ⟨todo, hsub, hreads⟩ := h.reads
  refine ⟨h.toKept.goTo rfl rfl, ⟨todo, hsub, ?_⟩, h.phase⟩
  simpa [hsent] using hreads

/-- A process that has ended expects nothing. -/
theorem TakesWhole.gone (h : TakesWhole paths before events ahead s)
    (hgone : s.phase = .ended ∨ s.phase = .killed) (ahead' : Bytes) :
    TakesWhole paths before events ahead' s := by
  obtain ⟨todo, hsub, -⟩ := h.reads
  refine ⟨h.toKept, ⟨todo, hsub, ?_⟩, h.phase⟩
  rcases hgone with hphase | hphase
  all_goals
    rw [hphase]
    trivial

/-- The server dies: what it has not written is never written. -/
theorem TakesWhole.crash (h : TakesWhole paths before events ahead s) :
    TakesWhole paths before events (s.toSend ++ ahead) { s with closed := true, toSend := [] } := by
  obtain ⟨todo, hsub, hreads⟩ := h.reads
  refine ⟨h.toKept.goTo rfl rfl, ⟨todo, hsub, ?_⟩, h.phase⟩
  simpa using hreads

theorem takesWhole_start (before : Disk) (e : SaverEvent) :
    TakesWhole paths before [e] [] (Saver.start e.stream before) where
  latest content hcontent := by cases hcontent
  document := Or.inl rfl
  autosave := Or.inl rfl
  log := List.prefix_rfl
  reads := ⟨[e], fun _ h => h, by simp [Expects, Saver.start, eventStream]⟩
  phase := trivial

end Process

/-! ## The system -/

/-- The sender has done nothing. -/
structure SameSender (s t : Saver) : Prop where
  closed : t.closed = s.closed
  toSend : t.toSend = s.toSend

theorem sameSender_takeHeader (s : Saver) (line : Bytes) : SameSender s (s.takeHeader line) := by
  unfold Saver.takeHeader
  split_ifs
  · exact ⟨rfl, rfl⟩
  · rcases scanHeader (cString line) with - | ⟨event, version, len⟩
    · exact ⟨rfl, rfl⟩
    · by_cases hlen : len = 0
      · simp only [hlen, if_true]
        rcases namedInput event [] version with (_ | _ | _) | _ | _ <;> exact ⟨rfl, rfl⟩
      · simp only [hlen, if_false]
        exact ⟨rfl, rfl⟩

theorem sameSender_read {s t : Saver} {k : ℕ} (h : s.read k = some t) : SameSender s t := by
  unfold Saver.read at h
  split at h
  · split_ifs at h
    cases h
    exact ⟨rfl, rfl⟩
  · split_ifs at h
    cases h
    exact ⟨rfl, rfl⟩
  · next line b pipe _ _ =>
    cases h
    unfold Saver.takeByte
    split_ifs
    · obtain ⟨hclosed, hsent⟩ := sameSender_takeHeader { s with pipe := pipe } line
      exact ⟨hclosed, hsent⟩
    · exact ⟨rfl, rfl⟩
    · exact ⟨rfl, rfl⟩
  · next event version len data _ _ =>
    split_ifs at h
    cases h
    unfold Saver.takeData
    split_ifs
    · exact ⟨rfl, rfl⟩
    · rcases namedInput event (cString (data ++ s.pipe.take k)) version with (_ | _ | _) | _ | _ <;>
        exact ⟨rfl, rfl⟩
  · cases h

/-- A step of the process or of its sender that does not close the pipe. -/
theorem step_sender {paths : SaverPaths} {s t : Saver} {a : SaverAction} (hne : a ≠ .close)
    (h : s.step paths a = some t) : t.closed = s.closed ∧ (s.toSend = [] → t.toSend = []) := by
  have hsame : SameSender s t → t.closed = s.closed ∧ (s.toSend = [] → t.toSend = []) :=
    fun hst => ⟨hst.closed, fun hsent => hst.toSend.trans hsent⟩
  have hlog : ∀ entry mark script next, SameSender s (s.logOwn paths entry mark script next) := by
    intro entry mark script next
    unfold Saver.logOwn
    split_ifs <;> exact ⟨rfl, rfl⟩
  unfold Saver.step at h
  cases a with
  | send k =>
    cases h
    exact ⟨rfl, fun hsent => by simp [hsent]⟩
  | close => exact absurd rfl hne
  | select ready =>
    simp only at h
    split at h
    · split_ifs at h <;> cases h <;> exact hsame ⟨rfl, rfl⟩
    · cases h
  | read k => exact hsame (sameSender_read h)
  | readFails =>
    simp only at h
    split at h <;> cases h <;> exact hsame ⟨rfl, rfl⟩
  | files script =>
    simp only [Saver.runFiles] at h
    split at h <;> cases h
    · exact hsame ⟨rfl, rfl⟩
    · exact hsame (hlog _ _ _ _)
    · exact hsame ⟨rfl, rfl⟩
    · exact hsame ⟨rfl, rfl⟩
    · exact hsame (hlog _ _ _ _)
    · exact hsame ⟨rfl, rfl⟩
  | tick expired =>
    simp only at h
    split at h
    · split at h <;> cases h <;> exact hsame ⟨rfl, rfl⟩
    · cases h

theorem Sending.part_prefix (w : Sending) : w.part <+: w.event.stream.drop w.written := by
  have hstream : w.event.stream = w.event.chunks.headD [] ++ w.event.chunks.tail.flatten := by
    unfold SaverEvent.stream
    cases w.event <;> rfl
  simp only [Sending.part]
  split_ifs with hheader
  · rw [hstream, List.drop_append_of_le_length hheader.le]
    exact List.prefix_append _ _
  · exact List.prefix_rfl

theorem Sending.take_part {w : Sending} {k : ℕ} (hk : k ≤ w.part.length) :
    w.part.take k ++ w.event.stream.drop (w.written + k) = w.event.stream.drop w.written := by
  obtain ⟨rest, hrest⟩ := w.part_prefix
  rw [← List.drop_drop, ← hrest, List.drop_append_of_le_length hk, ← List.append_assoc,
    List.take_append_drop]

namespace StoredSys

/-- What is still to come of the event that a thread is in the middle of. -/
def Ahead (s : StoredSys) (ahead : Bytes) : Prop :=
  (ahead = [] ∧ ∀ i w, s.sends i = some w → w.written = 0) ∨
    ∃ i w, s.sends i = some w ∧ 0 < w.written ∧ ahead = w.event.stream.drop w.written ∧
      ∀ j w', s.sends j = some w' → j ≠ i → w'.written = 0

/-- A state in which everything that reaches the autosave process is a whole event. -/
structure Good (paths : SaverPaths) (before : Disk) (s : StoredSys) : Prop where
  wired : s.sys.Wired
  logged : s.sys.Logged
  events : s.sys.EventsTrue
  sendable : ∀ e ∈ s.sys.piped, e.Sendable
  sends : ∀ i w, s.sends i = some w → i < s.sys.accepted ∧ w.event ∈ s.sys.piped
  main : 0 < s.sys.accepted → s.saver.toSend = []
  sound : ∃ ahead, TakesWhole paths before s.sys.piped ahead s.saver ∧
    (s.saver.closed = false → s.Ahead ahead)

variable {paths : SaverPaths} {before : Disk} {s : StoredSys}

theorem good_init {initialText : Bytes} (limit : ℕ)
    (hinit : (SaverEvent.snapshot initialText 0).Sendable) :
    Good paths before (init initialText limit paths before) where
  wired := Sys.wired_init _ _ _
  logged := Sys.logged_init _ _ _
  events := Sys.eventsTrue_init _ _ _
  sendable e he := by
    rw [List.mem_singleton.mp he]
    exact hinit
  sends i w hw := by cases hw
  main h := absurd h (lt_irrefl 0)
  sound := by
    refine ⟨[], takesWhole_start before _, fun _ => Or.inl ⟨rfl, fun i w hw => ?_⟩⟩
    cases hw

theorem accepted_step {sys sys' : Sys} {a : Action} (h : sys.step a = some sys') :
    sys'.accepted = sys.accepted ∨
      sys'.accepted = sys.accepted + 1 ∧ ∃ clientId address, a = .connect clientId address := by
  cases Sys.stepOutcome h with
  | connect clientId address => exact Or.inr ⟨rfl, clientId, address, rfl⟩
  | _ => exact Or.inl rfl

/-- A step that sends nothing to the autosave process. -/
theorem sendsAfter_eq {sys' : Sys} {a : Action} (h : s.sys.step a = some sys')
    (hpiped : sys'.piped = s.sys.piped) : s.sendsAfter a = s.sends := by
  cases a with
  | serve i =>
    simp only [sendsAfter]
    split
    · next event rest hthread =>
      simp only [Sys.step, hthread, Sys.perform, Option.some.injEq] at h
      subst h
      simp [Sys.setConn] at hpiped
    · rfl
  | _ => rfl

/-- A step of the clients, of the server's threads or of its main thread. -/
theorem Good.system (h : Good paths before s) {a : Action} {sys' : Sys}
    (hgood : s.TakesTurns (.system a)) (hallows : s.allows a = true)
    (hstep : s.sys.step a = some sys') :
    Good paths before { s with sys := sys', sends := s.sendsAfter a } := by
  obtain ⟨ahead, hsound, hahead⟩ := h.sound
  have haccepted : s.sys.accepted ≤ sys'.accepted := by
    rcases accepted_step hstep with heq | ⟨heq, -⟩ <;> omega
  have hmain : 0 < sys'.accepted → s.saver.toSend = [] := by
    intro hpos
    rcases accepted_step hstep with heq | ⟨-, clientId, address, rfl⟩
    · exact h.main (heq ▸ hpos)
    · simp only [allows, Bool.and_eq_true, decide_eq_true_eq] at hallows
      exact hallows.2
  have hstay : sys'.piped = s.sys.piped →
      Good paths before { s with sys := sys', sends := s.sendsAfter a } := by
    intro hpiped
    rw [sendsAfter_eq hstep hpiped]
    refine ⟨h.wired.step hstep, h.logged.step hstep, h.events.step h.logged hstep, hpiped ▸ h.sendable,
      fun i w hw => ?_, hmain, ahead, hpiped ▸ hsound, hahead⟩
    obtain ⟨hi, hmem⟩ := h.sends i w hw
    exact ⟨hi.trans_le haccepted, hpiped ▸ hmem⟩
  cases Sys.pipeOutcome hstep with
  | piped i event rest _ hthread hpiped =>
    have hsend : event.Sendable := hgood (.pipe event) (by rw [hthread]; rfl) event rfl
    have hafter : s.sendsAfter (.serve i) = Function.update s.sends i (some ⟨event, 0⟩) := by
      simp only [sendsAfter, hthread]
    have hi : i < s.sys.accepted := h.wired.lt_of_ne (Or.inl (by simp [hthread]))
    have hfree : s.sends i = none := by
      simp only [allows, Bool.and_eq_true, decide_eq_true_eq] at hallows
      exact hallows.2
    have hsub : s.sys.piped ⊆ sys'.piped := by
      rw [hpiped]
      exact List.subset_append_left _ _
    have hnew : ∀ j w, Function.update s.sends i (some ⟨event, 0⟩) j = some w →
        (j = i ∧ w = ⟨event, 0⟩) ∨ (j ≠ i ∧ s.sends j = some w) := by
      intro j w hw
      by_cases hj : j = i
      · subst hj
        rw [Function.update_self] at hw
        exact Or.inl ⟨rfl, (Option.some.inj hw).symm⟩
      · rw [Function.update_of_ne hj] at hw
        exact Or.inr ⟨hj, hw⟩
    rw [hafter]
    refine ⟨h.wired.step hstep, h.logged.step hstep, h.events.step h.logged hstep, fun e he => ?_,
      fun j w hw => ?_, hmain, ahead, hsound.mono hsub, fun hclosed => ?_⟩
    · rw [hpiped] at he
      rcases List.mem_append.mp he with he | he
      · exact h.sendable e he
      · exact List.mem_singleton.mp he ▸ hsend
    · rcases hnew j w hw with ⟨rfl, rfl⟩ | ⟨-, hw⟩
      · exact ⟨hi.trans_le haccepted, by simp [hpiped]⟩
      · exact ⟨(h.sends j w hw).1.trans_le haccepted, hsub (h.sends j w hw).2⟩
    · -- the new event has not been begun
      rcases hahead hclosed with ⟨rfl, hall⟩ | ⟨k, w, hw, hbegun, rfl, hothers⟩
      · refine Or.inl ⟨rfl, fun j w hw => ?_⟩
        rcases hnew j w hw with ⟨-, rfl⟩ | ⟨-, hw⟩
        · rfl
        · exact hall j w hw
      · have hk : k ≠ i := by
          rintro rfl
          rw [hfree] at hw
          cases hw
        refine Or.inr ⟨k, w, (Function.update_of_ne hk _ _).trans hw, hbegun, rfl,
          fun j w' hw' hj => ?_⟩
        rcases hnew j w' hw' with ⟨-, rfl⟩ | ⟨-, hw'⟩
        · rfl
        · exact hothers j w' hw' hj
  | taken => cases hallows
  | timer => cases hallows
  | frame _ _ _ hpiped => exact hstay hpiped

/-- A thread writes, when no other one is in the middle of an event. -/
theorem Good.write (h : Good paths before s) {i k : ℕ} (hgood : s.TakesTurns (.write i k))
    {s' : StoredSys} (hstep : s.write i k = some s') : Good paths before s' := by
  obtain ⟨ahead, hsound, hahead⟩ := h.sound
  unfold StoredSys.write at hstep
  obtain ⟨w, hw, hstep⟩ := Option.bind_eq_some_iff.mp hstep
  split_ifs at hstep with hk
  cases hstep
  obtain ⟨hclosed, hpos, hk⟩ := hk
  obtain ⟨hi, hmem⟩ := h.sends i w hw
  have hrest : TakesWhole paths before s.sys.piped (w.event.stream.drop w.written) s.saver := by
    rcases hahead hclosed with ⟨rfl, hall⟩ | ⟨j, w', hw', hbegun, rfl, -⟩
    · rw [hall i w hw, List.drop_zero]
      exact hsound.begin hmem
    · have hj : j = i := by
        by_contra hj
        have hfresh := hgood j (h.sends j w' hw').1 hj w' hw'
        omega
      subst hj
      obtain rfl := Option.some.inj (hw'.symm.trans hw)
      exact hsound
  rw [← Sending.take_part hk] at hrest
  have hothers : ∀ j w', Function.update s.sends i (w.advance k) j = some w' →
      (j = i ∧ w' = { w with written := w.written + k }) ∨
        (j ≠ i ∧ s.sends j = some w' ∧ w'.written = 0) := by
    intro j w' hw'
    by_cases hj : j = i
    · subst hj
      rw [Function.update_self, Sending.advance] at hw'
      split_ifs at hw'
      exact Or.inl ⟨rfl, (Option.some.inj hw').symm⟩
    · rw [Function.update_of_ne hj] at hw'
      exact Or.inr ⟨hj, hw', hgood j (h.sends j w' hw').1 hj w' hw'⟩
  refine ⟨h.wired, h.logged, h.events, h.sendable, fun j w' hw' => ?_, h.main,
    _, hrest.write (h.main (Nat.zero_lt_of_lt hi)), fun _ => ?_⟩
  · rcases hothers j w' hw' with ⟨rfl, rfl⟩ | ⟨-, hw', -⟩
    · exact ⟨hi, hmem⟩
    · exact h.sends j w' hw'
  · by_cases hmore : w.written + k < w.event.stream.length
    · refine Or.inr ⟨i, { w with written := w.written + k }, ?_, Nat.add_pos_right _ hpos, rfl,
        fun j w' hw' hj => ?_⟩
      · exact (Function.update_self _ _ _).trans (if_pos hmore)
      · rcases hothers j w' hw' with ⟨hji, -⟩ | ⟨-, -, hfresh⟩
        · exact absurd hji hj
        · exact hfresh
    · -- the event is complete
      refine Or.inl ⟨List.drop_eq_nil_of_le (not_lt.mp hmore), fun j w' hw' => ?_⟩
      rcases hothers j w' hw' with ⟨rfl, -⟩ | ⟨-, -, hfresh⟩
      · have hnone : Function.update s.sends j (w.advance k) j = none :=
          (Function.update_self _ _ _).trans (if_neg hmore)
        exact absurd (hw'.symm.trans hnone) (Option.some_ne_none _)
      · exact hfresh

/-- One step. -/
theorem Good.step (h : Good paths before s) {a : StoredAction} (hgood : s.TakesTurns a)
    {s' : StoredSys} (hstep : s.step paths a = some s') : Good paths before s' := by
  obtain ⟨ahead, hsound, hahead⟩ := h.sound
  cases a with
  | system a =>
    simp only [StoredSys.step] at hstep
    split_ifs at hstep with hallows
    obtain ⟨sys', hsys, rfl⟩ := Option.map_eq_some_iff.mp hstep
    exact h.system hgood hallows hsys
  | write i k => exact h.write hgood hstep
  | writeFails i =>
    simp only [StoredSys.step] at hstep
    split_ifs at hstep with hfails
    cases hstep
    have hothers : ∀ j w, Function.update s.sends i none j = some w → j ≠ i ∧ s.sends j = some w := by
      intro j w hw
      by_cases hj : j = i
      · subst hj
        simp at hw
      · rw [Function.update_of_ne hj] at hw
        exact ⟨hj, hw⟩
    refine ⟨h.wired, h.logged, h.events, h.sendable, fun j w hw => h.sends j w (hothers j w hw).2,
      h.main, ?_⟩
    by_cases hopen : s.saver.closed = false
    · rcases hahead hopen with ⟨rfl, hall⟩ | ⟨k, w, hw, hbegun, rfl, hrest⟩
      · exact ⟨[], hsound, fun _ => Or.inl ⟨rfl, fun j w hw => hall j w (hothers j w hw).2⟩⟩
      · by_cases hk : k = i
        · subst hk
          refine ⟨[], hsound.gone hfails.1 [], fun _ => Or.inl ⟨rfl, fun j w' hw' => ?_⟩⟩
          obtain ⟨hj, hw'⟩ := hothers j w' hw'
          exact hrest j w' hw' hj
        · refine ⟨_, hsound, fun _ => Or.inr ⟨k, w, (Function.update_of_ne hk _ _).trans hw, hbegun, rfl,
            fun j w' hw' hj => ?_⟩⟩
          exact hrest j w' (hothers j w' hw').2 hj
    · exact ⟨ahead, hsound, fun hclosed => absurd hclosed hopen⟩
  | saver a =>
    have hne : a ≠ .close := by
      rintro rfl
      cases hstep
    have hstep' : (s.saver.step paths a).map (fun saver => { s with saver := saver }) = some s' := by
      cases a <;> first | exact hstep | exact absurd rfl hne
    obtain ⟨t, ht, rfl⟩ := Option.map_eq_some_iff.mp hstep'
    obtain ⟨hclosed, hsent⟩ := step_sender hne ht
    exact ⟨h.wired, h.logged, h.events, h.sendable, h.sends, fun hpos => hsent (h.main hpos),
      ahead, hsound.step h.sendable ht, fun hopen => hahead (hclosed ▸ hopen)⟩
  | crash =>
    cases hstep
    exact ⟨h.wired, h.logged, h.events, h.sendable, h.sends, fun _ => rfl,
      _, hsound.crash, fun hopen => by cases hopen⟩

/-- What came with an event is a text of the document. -/
theorem Good.whole (h : Good paths before s) {path : Bytes}
    (hfile : Holds s.sys.piped (before.file path) (s.saver.disk.file path)) : s.Whole before path := by
  rcases hfile with hfile | ⟨content, hcontent, hfile⟩
  · exact Or.inl hfile
  · obtain ⟨e, he, htext⟩ := List.mem_filterMap.mp hcontent
    obtain ⟨version, hsaved⟩ : ∃ version, e.saved? = some (content, version) := by
      cases e with
      | snapshot content' version => exact ⟨version, by rw [← Option.some.inj htext]; rfl⟩
      | saveNow content' version => exact ⟨version, by rw [← Option.some.inj htext]; rfl⟩
      | log entryJson => cases htext
    obtain ⟨hnonneg, hle, hat⟩ := h.events.piped e he _ hsaved
    exact Or.inr ⟨version, content, hnonneg, hle, hat, hfile⟩

/-- However the calls turn out and whenever the server or the autosave process dies, the document and the
autosave file are as they were before or hold a text of the document at one of its versions, and nothing is
lost of the log; only the threads may not write into each other's events. -/
theorem files_whole (paths : SaverPaths) (initialText : Bytes) (limit : ℕ) (before : Disk)
    (hinit : (SaverEvent.snapshot initialText 0).Sendable) (actions : List StoredAction) (s : StoredSys)
    (hgood : Guarded (step paths) TakesTurns (init initialText limit paths before) actions)
    (hrun : run (step paths) (init initialText limit paths before) actions = some s) :
    s.Whole before paths.document ∧ s.Whole before paths.autosave ∧
      (before.file paths.log).getD [] <+: (s.saver.disk.file paths.log).getD [] := by
  have h : Good paths before s := run_invariant_of_guarded (fun _ _ _ h hgood hstep => h.step hgood hstep)
    (good_init limit hinit) hgood hrun
  obtain ⟨ahead, hsound, -⟩ := h.sound
  exact ⟨h.whole hsound.document, h.whole hsound.autosave, hsound.log⟩

/-- The autosave file is replaced, the log gets a part of its entry, and the server dies when it has
written a part of the entry for a JOIN. -/
def diesWriting : List StoredAction :=
  List.map StoredAction.saver ([SaverAction.send 99, SaverAction.select true] ++
    List.replicate 13 (SaverAction.read 1) ++ [SaverAction.read 2, SaverAction.tick true,
    SaverAction.files (List.replicate 4 .done), SaverAction.files [.done, .part 9]]) ++
  [StoredAction.system (.connect (bytes "ann") [])] ++
  List.replicate 6 (StoredAction.system (.serve 0)) ++
  [StoredAction.write 0 5, StoredAction.write 0 4, StoredAction.write 0 20, StoredAction.crash]

theorem files_whole_diesWriting :
    ∃ s, run (step (serverPaths (bytes "doc") (by decide)))
        (init (bytes "hi") 10 (serverPaths (bytes "doc") (by decide)) (oneFile (bytes "doc") (bytes "hi")))
        diesWriting = some s ∧
      s.saver.disk.file (bytes "doc.autosave") = some (bytes "hi") ∧
      s.Whole (oneFile (bytes "doc") (bytes "hi"))
        (serverPaths (bytes "doc") (by decide)).autosave := by
  have hany : (run (step (serverPaths (bytes "doc") (by decide)))
      (init (bytes "hi") 10 (serverPaths (bytes "doc") (by decide)) (oneFile (bytes "doc") (bytes "hi")))
      diesWriting).any
      (fun s => decide (s.saver.disk.file (bytes "doc.autosave") = some (bytes "hi"))) = true := by
    decide +kernel
  have hgood : Guarded (step (serverPaths (bytes "doc") (by decide))) TakesTurns
      (init (bytes "hi") 10 (serverPaths (bytes "doc") (by decide)) (oneFile (bytes "doc") (bytes "hi")))
      diesWriting := by
    decide +kernel
  obtain ⟨s, hrun, hfile⟩ := (Option.any_eq_true _ _).mp hany
  exact ⟨s, hrun, of_decide_eq_true hfile,
    (files_whole _ _ _ _ (by decide) _ s hgood hrun).2.1⟩

end StoredSys

end TermSync
