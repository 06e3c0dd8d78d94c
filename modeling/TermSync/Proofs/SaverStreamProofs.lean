import TermSync.Foundations.Lines
import TermSync.Proofs.PipeProofs
import TermSync.Proofs.SaverLogProofs

/-!
# Proofs: a stream of events on the disk

One sender writes whole events and a STOP. The process follows `SaverState`: whatever the pieces in
which the bytes travel and whenever the clock strikes, it has handled a first part of the events, its
files stand as those of `SaverState` do, and what it has still to read is the rest of the events.
-/

namespace TermSync

open Foundations Scripted

/-! ## Runs of the abstract process -/

/-- The process has handled these events, with ticks of the timer in between, and every save has been
written. -/
inductive SaverRun (documentPath : Bytes) : List SaverEvent → SaverState → Prop
  | start : SaverRun documentPath [] (SaverState.init documentPath)
  | handle {events : List SaverEvent} {t : SaverState} (e : SaverEvent) (he : e.Fits)
      (h : SaverRun documentPath events t) : SaverRun documentPath (events ++ [e]) (t.handle e true)
  | timer {events : List SaverEvent} {t : SaverState} (h : SaverRun documentPath events t) :
      SaverRun documentPath events (t.timer true)

/-- The state of a run, read off its events. -/
structure SaverSummary (documentPath : Bytes) (events : List SaverEvent) (t : SaverState) :
    Prop where
  path : t.documentPath = documentPath
  latest : t.latestContent = (events.filterMap SaverEvent.text?).getLast?
  version : intMin ≤ t.latestVersion ∧ t.latestVersion ≤ intMax
  document : t.documentFile.map Prod.fst = (events.filterMap SaverEvent.savedText?).getLast?
  autosave : t.latestContent = none → t.autosaveFile = none

theorem getLast?_filterMap_concat {α β : Type} (f : α → Option β) (l : List α) (a : α) :
    ((l ++ [a]).filterMap f).getLast? = (f a).or (l.filterMap f).getLast? := by
  rw [List.filterMap_append]
  cases hfa : f a with
  | none => simp [hfa]
  | some b => simp [hfa]

theorem SaverRun.summary {documentPath : Bytes} {events : List SaverEvent} {t : SaverState}
    (h : SaverRun documentPath events t) : SaverSummary documentPath events t := by
  induction h with
  | start =>
    have hzero : intMin ≤ 0 ∧ 0 ≤ intMax := by decide
    exact ⟨rfl, rfl, hzero, rfl, fun _ => rfl⟩
  | handle e he h ih =>
    obtain ⟨hmin, hmax, -⟩ := e.fits_iff.mp he
    cases e with
    | snapshot content version =>
      refine ⟨ih.path, ?_, ⟨hmin, hmax⟩, ?_, fun hnone => by cases hnone⟩
      · rw [getLast?_filterMap_concat]
        rfl
      · rw [getLast?_filterMap_concat]
        exact ih.document
    | saveNow content version =>
      refine ⟨ih.path, ?_, ⟨hmin, hmax⟩, ?_, fun hnone => by cases hnone⟩
      · rw [getLast?_filterMap_concat]
        rfl
      · rw [getLast?_filterMap_concat]
        rfl
    | log entryJson =>
      refine ⟨ih.path, ?_, ih.version, ?_, ih.autosave⟩
      · rw [getLast?_filterMap_concat]
        exact ih.latest
      · rw [getLast?_filterMap_concat]
        exact ih.document
  | @timer events t h ih =>
    unfold SaverState.timer
    cases hlatest : t.latestContent with
    | none => exact ih
    | some content =>
      exact ⟨ih.path, by simpa [hlatest] using ih.latest, ih.version, ih.document, by simp⟩

/-! ## The entries -/

variable {paths : SaverPaths}

/-- The buffers of the entries are large enough. -/
theorem length_saveEntry_le {event path : Bytes} {version : ℤ} (hevent : event.length ≤ 11)
    (hpath : path.length ≤ 520) (hmin : intMin ≤ version) (hmax : version ≤ intMax) :
    (saveEntry event version path).length ≤ 600 := by
  have hversion := length_formatInt_le hmin hmax
  have h1 : (bytes "\x7b\"event\":\"").length = 10 := by decide
  have h2 : (bytes "\",\"version\":").length = 12 := by decide
  have h3 : (bytes ",\"path\":\"").length = 9 := by decide
  have h4 : (bytes "\"\x7d").length = 2 := by decide
  simp only [saveEntry, List.length_append, h1, h2, h3, h4]
  omega

theorem snprintf_saveEntry {event path : Bytes} {version : ℤ} (hevent : event.length ≤ 11)
    (hpath : path.length ≤ 520) (hmin : intMin ≤ version) (hmax : version ≤ intMax) :
    snprintf (pathMax + 160) (saveEntry event version path) = saveEntry event version path := by
  have hlen := length_saveEntry_le hevent hpath hmin hmax
  refine List.take_of_length_le (hlen.trans ?_)
  rw [pathMax]
  omega

theorem SaverPaths.manualSaveEntry_eq {version : ℤ} (hmin : intMin ≤ version)
    (hmax : version ≤ intMax) :
    paths.manualSaveEntry version = saveEntry (bytes "manual_save") version paths.document := by
  refine snprintf_saveEntry (by decide) ?_ hmin hmax
  have hfits := paths.fits
  omega

theorem SaverPaths.autosaveEntry_eq {version : ℤ} (hmin : intMin ≤ version)
    (hmax : version ≤ intMax) :
    paths.autosaveEntry version =
      saveEntry (bytes "autosave") version (paths.document ++ bytes ".autosave") := by
  unfold SaverPaths.autosaveEntry
  rw [paths.autosave_eq]
  refine snprintf_saveEntry (by decide) ?_ hmin hmax
  have hfits := paths.fits
  rw [autosaveOf, List.length_append, show (bytes ".autosave").length = 9 by decide]
  omega

/-- The log of a run has the lines of its events in order, and `autosave` entries between them. -/
theorem SaverRun.log {events : List SaverEvent} {t : SaverState}
    (h : SaverRun paths.document events t) :
    ∃ lines : List LogLine, lines.filter (fun l => !l.isAutosave) = events.flatMap SaverEvent.lines ∧
      t.logFile = lines.map (LogLine.text paths) := by
  induction h with
  | start => exact ⟨[], rfl, rfl⟩
  | @handle events t e he h ih =>
    obtain ⟨lines, hfilter, hlog⟩ := ih
    obtain ⟨hmin, hmax, -⟩ := e.fits_iff.mp he
    refine ⟨lines ++ e.lines, ?_, ?_⟩
    · rw [List.filter_append, hfilter, List.flatMap_append]
      cases e <;> rfl
    · cases e with
      | snapshot content version => simpa [SaverState.handle, SaverEvent.lines] using hlog
      | saveNow content version =>
        have hentry := paths.manualSaveEntry_eq hmin hmax
        simp only [SaverState.handle, SaverEvent.lines, hlog, h.summary.path, List.map_append]
        exact congrArg (fun entry => _ ++ [entry]) hentry.symm
      | log entryJson => simp [SaverState.handle, SaverEvent.lines, hlog, LogLine.text]
  | @timer events t h ih =>
    obtain ⟨lines, hfilter, hlog⟩ := ih
    unfold SaverState.timer
    cases hlatest : t.latestContent with
    | none => exact ⟨lines, hfilter, hlog⟩
    | some content =>
      obtain ⟨hmin, hmax⟩ := h.summary.version
      refine ⟨lines ++ [.autosave t.latestVersion], ?_, ?_⟩
      · rw [List.filter_append, hfilter]
        simp [LogLine.isAutosave]
      · simp [hlog, LogLine.text, paths.autosaveEntry_eq hmin hmax, h.summary.path]

/-! ## The files -/

/-- The files stand as those of the abstract process do; a file that it has not written is as it was
before. -/
structure FilesAre (paths : SaverPaths) (before : Disk) (document autosave : Option (Bytes × ℤ))
    (log : List Bytes) (d : Disk) : Prop where
  document : d.file paths.document = (document.map Prod.fst).or (before.file paths.document)
  autosave : d.file paths.autosave = (autosave.map Prod.fst).or (before.file paths.autosave)
  log : (d.file paths.log).getD [] =
    (before.file paths.log).getD [] ++ log.flatMap fun line => line ++ bytes "\n"

theorem allSucceed_succeeds : AllSucceed CallOutcome.Succeeds := fun _ h => h

variable {before d d' : Disk} {document autosave : Option (Bytes × ℤ)} {log : List Bytes}
  {script rest : List CallOutcome}

theorem SaverPaths.apart_log (paths : SaverPaths) :
    paths.log ≠ paths.document ∧ paths.log ≠ bakOf paths.document ∧ paths.log ≠ tmpOf paths.document ∧
      paths.log ≠ paths.autosave ∧ paths.log ≠ tmpOf paths.autosave := by
  have hapart := paths.apart
  rw [paths.autosave_eq]
  simpa only [List.mem_cons, List.not_mem_nil, or_false, not_or] using hapart

theorem SaverPaths.apart_autosave (paths : SaverPaths) :
    paths.autosave ≠ paths.document ∧ paths.autosave ≠ bakOf paths.document ∧
      paths.autosave ≠ tmpOf paths.document ∧ paths.document ≠ tmpOf paths.autosave := by
  have hself : paths.document ≠ paths.document ++ (bytes ".autosave" ++ bytes ".tmp") := by
    simpa using by decide
  rw [paths.autosave_eq]
  simp only [autosaveOf, bakOf, tmpOf, List.append_assoc, ne_eq, List.append_right_inj]
  exact ⟨by simpa using by decide, by decide, by decide, hself⟩

/-- A manual save replaces the document and neither of the other two files. -/
theorem FilesAre.save (h : FilesAre paths before document autosave log d) {payload : Bytes}
    (version : ℤ) {rc : ℤ} (hgood : ∀ o ∈ script, o.Succeeds)
    (hrun : tsWriteWithBackup paths.document payload d script = (d', some (rc, rest))) :
    FilesAre paths before (some (payload, version)) autosave log d' := by
  have hspec : Triple CallOutcome.Succeeds (fun _ => True)
      (Idle d.file (tmpOf paths.document) d.replacements d.losses)
      (tsWriteWithBackup paths.document payload) _ :=
    tsWriteWithBackup_spec paths.length_document fun _ _ => trivial
  have hout := hspec.returned (idle_self d _) hgood hrun
  have hsaved := hout.done (hout.succeeds allSucceed_succeeds)
  obtain ⟨hldoc, hlbak, hltmp, -⟩ := paths.apart_log
  obtain ⟨hadoc, habak, hatmp, -⟩ := paths.apart_autosave
  refine ⟨hsaved.file, ?_, ?_⟩
  · rw [hsaved.others _ hatmp habak hadoc]
    exact h.autosave
  · rw [hsaved.others _ hltmp hlbak hldoc]
    exact h.log

/-- So does an autosave with its own file. -/
theorem FilesAre.autosaved (h : FilesAre paths before document autosave log d) {content : Bytes}
    (version : ℤ) {rc : ℤ} (hgood : ∀ o ∈ script, o.Succeeds)
    (hrun : tsAtomicWriteText paths.autosave content d script = (d', some (rc, rest))) :
    FilesAre paths before document (some (content, version)) log d' := by
  have hspec : Triple CallOutcome.Succeeds (fun _ => True)
      (Idle d.file (tmpOf paths.autosave) d.replacements d.losses)
      (tsAtomicWriteText paths.autosave content) _ :=
    tsAtomicWriteText_spec paths.length_autosave fun _ _ => trivial
  obtain ⟨-, hdone, hall⟩ := hspec.returned (idle_self d _) hgood hrun
  have hsaved := (hdone (hall allSucceed_succeeds)).1
  obtain ⟨-, -, -, hlauto, hltmp⟩ := paths.apart_log
  obtain ⟨hadoc, -, -, hdtmp⟩ := paths.apart_autosave
  refine ⟨?_, hsaved.file, ?_⟩
  · rw [hsaved.others _ hdtmp hadoc.symm]
    exact h.document
  · rw [hsaved.others _ hltmp hlauto]
    exact h.log

/-- An entry goes to the end of the log. -/
theorem FilesAre.logged (h : FilesAre paths before document autosave log d) {entry : Bytes} {rc : ℤ}
    (hgood : ∀ o ∈ script, o.Succeeds)
    (hrun : tsAppendJsonLog paths.log entry d script = (d', some (rc, rest))) :
    FilesAre paths before document autosave (log ++ [entry]) d' := by
  have hspec : Triple CallOutcome.Succeeds (fun _ => True)
      (fun d' => Idle d.file paths.log d.replacements d.losses d' ∧
        d'.file paths.log = d.file paths.log) (tsAppendJsonLog paths.log entry) _ :=
    tsAppendJsonLog_spec entry allSucceed_succeeds fun _ _ => trivial
  obtain ⟨hidle, hfile⟩ := hspec.returned ⟨idle_self d _, rfl⟩ hgood hrun
  obtain ⟨hldoc, -, -, hlauto, -⟩ := paths.apart_log
  refine ⟨?_, ?_, ?_⟩
  · rw [hidle.file _ hldoc.symm]
    exact h.document
  · rw [hidle.file _ hlauto.symm]
    exact h.autosave
  · rw [hfile, Option.getD_some, h.log]
    simp

/-! ## The position in the stream -/

/-- The bytes from here on, for a process in this phase that has still to handle these events. -/
def Awaits (todo : List SaverEvent) (rest : Bytes) : SaverPhase → Prop
  | .header line => (10 : UInt8) ∉ line ∧ line ++ rest = sentBytes todo
  | .payload event version len data => ∃ e todo', todo = e :: todo' ∧ event = e.name ∧
      version = e.version ∧ len = e.payload.length ∧ data.length < len ∧
      data ++ rest = e.payload ++ sentBytes todo'
  | .stopping _ | .ended => todo = []
  | .killed => True
  | _ => rest = sentBytes todo

/-- All files stand as those of the abstract process do. -/
def Matches (paths : SaverPaths) (before : Disk) (t : SaverState) : Disk → Prop :=
  FilesAre paths before t.documentFile t.autosaveFile t.logFile

/-- The files of a process in this phase, whose abstract process is in the state `t` already. -/
def FilesAt (paths : SaverPaths) (before : Disk) (t : SaverState) (d : Disk) : SaverPhase → Prop
  | .saving payload version => ∃ t₀ : SaverState, t = t₀.handle (.saveNow payload version) true ∧
      Matches paths before t₀ d
  | .manualEntry version _ => ∃ (t₀ : SaverState) (payload : Bytes),
      t = t₀.handle (.saveNow payload version) true ∧
      FilesAre paths before t.documentFile t₀.autosaveFile t₀.logFile d
  | .logging entryJson => ∃ t₀ : SaverState, t = t₀.handle (.log entryJson) true ∧
      Matches paths before t₀ d
  | .autosaving content | .stopping content =>
      t.latestContent = some content ∧ Matches paths before t d
  | .autosaveEntry _ => ∃ content, t.latestContent = some content ∧
      FilesAre paths before t.documentFile (some (content, t.latestVersion)) t.logFile d
  | .ended => FilesAre paths before t.documentFile
      (t.latestContent.map fun content => (content, t.latestVersion)) t.logFile d
  | .killed => True
  | _ => Matches paths before t d

/-- The process follows the abstract one, with these events still to come. -/
structure Tracks (paths : SaverPaths) (before : Disk) (todo : List SaverEvent) (t : SaverState)
    (s : Saver) : Prop where
  content : s.latestContent = t.latestContent
  version : s.latestVersion = t.latestVersion
  closed : s.closed = true → s.toSend = []
  awaits : Awaits todo (s.pipe ++ s.toSend) s.phase
  files : FilesAt paths before t s.disk s.phase

theorem SaverEvent.cString_headerLine (e : SaverEvent) : cString e.headerLine = e.headerLine := by
  refine cString_eq_self ?_
  rintro b hb rfl
  exact absurd (e.le_of_mem_headerLine 0 hb) (by decide)

theorem sentBytes_nil : sentBytes [] = bytes "STOP" ++ 10 :: [] := by decide

theorem sentBytes_cons {e : SaverEvent} (he : e.Fits) (todo : List SaverEvent) :
    sentBytes (e :: todo) = e.headerLine ++ 10 :: (e.payload ++ sentBytes todo) := by
  simp [sentBytes, e.chunks_eq he]

/-- The stream begins with a short line. -/
theorem sentBytes_line {todo : List SaverEvent} (hfits : ∀ e ∈ todo, e.Fits) :
    ∃ line rest, sentBytes todo = line ++ 10 :: rest ∧ (10 : UInt8) ∉ line ∧ line.length ≤ 41 := by
  cases todo with
  | nil => exact ⟨bytes "STOP", [], sentBytes_nil, by decide, by decide⟩
  | cons e todo =>
    have he := hfits e List.mem_cons_self
    exact ⟨e.headerLine, _, sentBytes_cons he todo, fun h => e.notMem_headerLine 10 h rfl,
      e.length_headerLine he⟩

variable {s : Saver} {t : SaverState} {todo : List SaverEvent}

/-- An event has been read: the abstract process handles it. -/
theorem Tracks.receive (hcontent : s.latestContent = t.latestContent)
    (hversion : s.latestVersion = t.latestVersion) (hclosed : s.closed = true → s.toSend = [])
    (hrest : s.pipe ++ s.toSend = sentBytes todo) (hfiles : Matches paths before t s.disk)
    (e : SaverEvent) : Tracks paths before todo (t.handle e true) (s.receive (.event e)) := by
  cases e with
  | snapshot content version => exact ⟨rfl, rfl, hclosed, hrest, hfiles⟩
  | saveNow content version => exact ⟨rfl, rfl, hclosed, hrest, t, rfl, hfiles⟩
  | log entryJson => exact ⟨hcontent, hversion, hclosed, hrest, t, rfl, hfiles⟩

/-- What a step of reading leads to: the abstract process has stayed where it was, or it has handled
the next event. -/
def Advances (paths : SaverPaths) (before : Disk) (todo : List SaverEvent) (t : SaverState)
    (s : Saver) : Prop :=
  Tracks paths before todo t s ∨
    ∃ e todo', todo = e :: todo' ∧ Tracks paths before todo' (t.handle e true) s

/-- The line that is complete is the one of a STOP or the header of the next event. -/
theorem Tracks.takeHeader {line : Bytes} (hsend : ∀ e ∈ todo, e.Sendable)
    (hnone : t.latestContent = none → t.autosaveFile = none)
    (hcontent : s.latestContent = t.latestContent) (hversion : s.latestVersion = t.latestVersion)
    (hclosed : s.closed = true → s.toSend = []) (hline : (10 : UInt8) ∉ line)
    (hrest : line ++ 10 :: (s.pipe ++ s.toSend) = sentBytes todo)
    (hfiles : Matches paths before t s.disk) : Advances paths before todo t (s.takeHeader line) := by
  cases todo with
  | nil =>
    rw [sentBytes_nil] at hrest
    obtain ⟨rfl, -⟩ := line_inj hline (by decide) hrest
    have hstop : cString (bytes "STOP") = bytes "STOP" := by decide
    refine Or.inl ?_
    unfold Saver.takeHeader
    rw [if_pos hstop]
    cases hlatest : s.latestContent with
    | none =>
      have htnone : t.latestContent = none := hcontent ▸ hlatest
      have hended : FilesAre paths before t.documentFile
          (t.latestContent.map fun content => (content, t.latestVersion)) t.logFile s.disk := by
        rw [htnone, Option.map_none, ← hnone htnone]
        exact hfiles
      exact ⟨hlatest.symm.trans hcontent, hversion, hclosed, rfl, hended⟩
    | some content =>
      have htlatest : t.latestContent = some content := hcontent ▸ hlatest
      exact ⟨htlatest.symm, hversion, hclosed, rfl, htlatest, hfiles⟩
  | cons e todo =>
    obtain ⟨he, -⟩ := hsend e List.mem_cons_self
    rw [sentBytes_cons he] at hrest
    obtain ⟨rfl, htail⟩ := line_inj hline (fun h => e.notMem_headerLine 10 h rfl) hrest
    obtain ⟨-, hstop, hscan⟩ := e.read_header he []
    unfold Saver.takeHeader
    rw [e.cString_headerLine, if_neg hstop, hscan]
    by_cases hlen : e.payload.length = 0
    · have hpayload := List.length_eq_zero_iff.mp hlen
      have hinput := e.namedInput_eq
      rw [hpayload] at hinput htail
      simp only [hlen, if_true, hinput]
      exact Or.inr ⟨e, todo, rfl, Tracks.receive hcontent hversion hclosed htail hfiles e⟩
    · simp only [hlen, if_false]
      refine Or.inl ⟨hcontent, hversion, hclosed, ⟨e, todo, rfl, rfl, rfl, rfl, ?_, htail⟩, hfiles⟩
      exact Nat.pos_of_ne_zero hlen

/-- A step of reading. -/
theorem Tracks.read (h : Tracks paths before todo t s) (hsend : ∀ e ∈ todo, e.Sendable)
    (hnone : t.latestContent = none → t.autosaveFile = none) {k : ℕ} {s' : Saver}
    (hread : s.read k = some s') : Advances paths before todo t s' := by
  have hawaits := h.awaits
  have hfiles := h.files
  unfold Saver.read at hread
  split at hread
  · -- the line is not complete, so the pipe has not been closed
    next line hphase hpipe =>
    split_ifs at hread with hclosed
    rw [hphase, hpipe, h.closed hclosed] at hawaits
    obtain ⟨first, rest, hfirst, -⟩ := sentBytes_line fun e he => (hsend e he).1
    obtain ⟨hline, heq⟩ := hawaits
    rw [List.append_nil, List.append_nil] at heq
    rw [heq, hfirst] at hline
    exact absurd (List.mem_append_right _ List.mem_cons_self) hline
  · next event version len data hphase hpipe =>
    split_ifs at hread with hclosed
    rw [hphase, hpipe, h.closed hclosed] at hawaits
    obtain ⟨e, todo', -, -, -, rfl, hshort, heq⟩ := hawaits
    have hlength := congrArg List.length heq
    simp only [List.append_nil, List.length_append] at hlength
    omega
  · next line b pipe hphase hpipe =>
    cases hread
    rw [hphase] at hawaits hfiles
    rw [hpipe] at hawaits
    obtain ⟨hline, heq⟩ := hawaits
    unfold Saver.takeByte
    by_cases hb : b = 10
    · subst hb
      rw [if_pos rfl]
      exact Tracks.takeHeader hsend hnone h.content h.version h.closed hline heq hfiles
    · have hlonger : (10 : UInt8) ∉ line ++ [b] := by
        simpa [hline] using Ne.symm hb
      obtain ⟨first, rest, hfirst, hnot, hshort⟩ := sentBytes_line fun e he => (hsend e he).1
      have hstream : line ++ [b] ++ (pipe ++ s.toSend) = first ++ 10 :: rest := by
        rw [← hfirst, ← heq]
        simp
      have hprefix : line ++ [b] <+: first := by
        rcases cutLine_line hnot hstream with ⟨r, hcut, -⟩ | ⟨-, hprefix⟩
        · rw [cutLine_eq_none.mpr hlonger] at hcut
          cases hcut
        · exact hprefix
      have hroom : line.length + 1 < 127 := by
        have hle := hprefix.length_le
        rw [List.length_append, List.length_singleton] at hle
        omega
      rw [if_neg hb, if_pos hroom]
      exact Or.inl ⟨h.content, h.version, h.closed, ⟨hlonger, by rw [hstream, ← hfirst]⟩, hfiles⟩
  · next event version len data hphase hpipe =>
    split_ifs at hread with hk
    cases hread
    rw [hphase] at hawaits hfiles
    obtain ⟨e, todo', rfl, rfl, rfl, rfl, hshort, heq⟩ := hawaits
    obtain ⟨-, hkpipe, hkdata⟩ := hk
    have hstream : data ++ s.pipe.take k ++ (s.pipe.drop k ++ s.toSend) =
        e.payload ++ sentBytes todo' := by
      rw [← heq, ← List.append_assoc _ _ s.toSend, List.append_assoc data, List.take_append_drop,
        List.append_assoc]
    have hlength : (data ++ s.pipe.take k).length = data.length + k := by
      rw [List.length_append, List.length_take, Nat.min_eq_left hkpipe]
    unfold Saver.takeData
    by_cases hmore : (data ++ s.pipe.take k).length < e.payload.length
    · rw [if_pos hmore]
      exact Or.inl ⟨h.content, h.version, h.closed,
        ⟨e, todo', rfl, rfl, rfl, rfl, hmore, hstream⟩, hfiles⟩
    · -- the payload is complete
      obtain ⟨hpayload, hrest⟩ := List.append_inj hstream (by omega)
      rw [if_neg hmore, hpayload, cString_eq_self (hsend e List.mem_cons_self).2, e.namedInput_eq]
      exact Or.inr ⟨e, todo', rfl, Tracks.receive (s := { s with pipe := s.pipe.drop k }) h.content
        h.version h.closed hrest hfiles e⟩
  · cases hread

/-! ## File calls -/

variable {done : List SaverEvent}

/-- A program writes files; it suffices to look at what it leads to when it returns. -/
theorem Tracks.perform (h : Tracks paths before todo t s) {program : FileProg ℤ}
    {next : ℤ → SaverPhase} {t' : SaverState} (hcontent : t'.latestContent = t.latestContent)
    (hversion : t'.latestVersion = t.latestVersion)
    (hnext : ∀ rc d rest, program s.disk script = (d, some (rc, rest)) →
      Awaits todo (s.pipe ++ s.toSend) (next rc) ∧ FilesAt paths before t' d (next rc)) :
    Tracks paths before todo t' (s.perform program script next) := by
  unfold Saver.perform
  rcases hrun : program s.disk script with ⟨d, - | ⟨rc, rest⟩⟩
  · exact ⟨h.content.trans hcontent.symm, h.version.trans hversion.symm, h.closed, trivial, trivial⟩
  · obtain ⟨hawaits, hfiles⟩ := hnext rc d rest hrun
    exact ⟨h.content.trans hcontent.symm, h.version.trans hversion.symm, h.closed, hawaits, hfiles⟩

/-- The history is not looked at. -/
theorem Tracks.logOwn {entry : Bytes} {mark : SaverMark} {next : SaverPhase}
    (h : Tracks paths before todo t
      (s.perform (tsAppendJsonLog paths.log entry) script fun _ => next)) :
    Tracks paths before todo t (s.logOwn paths entry mark script next) := by
  unfold Saver.logOwn
  split_ifs
  · exact ⟨h.content, h.version, h.closed, h.awaits, h.files⟩
  · exact h

/-- The calls of a phase succeed. The abstract timer has struck when the `autosave` entry is there. -/
theorem Tracks.runFiles (h : Tracks paths before todo t s) (habs : SaverRun paths.document done t)
    (hgood : ∀ o ∈ script, o.Succeeds) {s' : Saver} (hrun : s.runFiles paths script = some s') :
    Tracks paths before todo t s' ∨ Tracks paths before todo (t.timer true) s' := by
  have hawaits := h.awaits
  have hfiles := h.files
  obtain ⟨hmin, hmax⟩ := habs.summary.version
  have hpath := habs.summary.path
  unfold Saver.runFiles at hrun
  cases hp : s.phase <;> rw [hp] at hawaits hfiles <;>
    simp only [hp, Option.some.injEq, reduceCtorEq] at hrun <;> subst hrun
  case saving payload version =>
    refine Or.inl (h.perform rfl rfl fun rc d rest hreturned => ⟨hawaits, ?_⟩)
    obtain ⟨t₀, rfl, hmatches⟩ := hfiles
    exact ⟨t₀, payload, rfl, FilesAre.save hmatches version hgood hreturned⟩
  case manualEntry version rc =>
    refine Or.inl (Tracks.logOwn (h.perform rfl rfl fun rc d rest hreturned => ⟨hawaits, ?_⟩))
    obtain ⟨t₀, payload, rfl, hmatches⟩ := hfiles
    have hlogged := hmatches.logged hgood hreturned
    have hentry : paths.manualSaveEntry version =
        saveEntry (bytes "manual_save") version t₀.documentPath :=
      (paths.manualSaveEntry_eq hmin hmax).trans (congrArg _ hpath.symm)
    rw [hentry] at hlogged
    exact hlogged
  case logging payload =>
    refine Or.inl (h.perform rfl rfl fun rc d rest hreturned => ⟨hawaits, ?_⟩)
    obtain ⟨t₀, rfl, hmatches⟩ := hfiles
    exact FilesAre.logged hmatches hgood hreturned
  case autosaving content =>
    refine Or.inl (h.perform rfl rfl fun rc d rest hreturned => ⟨hawaits, content, hfiles.1, ?_⟩)
    exact FilesAre.autosaved hfiles.2 _ hgood hreturned
  case autosaveEntry rc =>
    obtain ⟨content, hlatest, hmatches⟩ := hfiles
    have htimer : t.timer true = { t with
        autosaveFile := some (content, t.latestVersion)
        logFile := t.logFile ++ [saveEntry (bytes "autosave") t.latestVersion
          (t.documentPath ++ bytes ".autosave")] } := by
      simp [SaverState.timer, hlatest]
    rw [htimer]
    refine Or.inr (Tracks.logOwn (h.perform rfl rfl fun rc d rest hreturned => ⟨hawaits, ?_⟩))
    have hlogged := hmatches.logged hgood hreturned
    rw [h.version, paths.autosaveEntry_eq hmin hmax, ← hpath] at hlogged
    exact hlogged
  case stopping content =>
    refine Or.inl (h.perform rfl rfl fun rc d rest hreturned => ⟨hawaits, ?_⟩)
    obtain ⟨hlatest, hmatches⟩ := hfiles
    have hended := FilesAre.autosaved hmatches t.latestVersion hgood hreturned
    simpa only [FilesAt, hlatest, Option.map_some] using hended

/-! ## Whole runs -/

/-- Some of the events have been handled, and the others are still to come. -/
def StreamInvariant (paths : SaverPaths) (before : Disk) (events : List SaverEvent) (s : Saver) :
    Prop :=
  ∃ done todo t, events = done ++ todo ∧ SaverRun paths.document done t ∧
    Tracks paths before todo t s

theorem streamInvariant_start (events : List SaverEvent) (disk : Disk) :
    StreamInvariant paths disk events (Saver.start (sentBytes events) disk) := by
  refine ⟨[], events, _, rfl, .start, rfl, rfl, (fun h => by cases h), rfl, ?_⟩
  exact ⟨rfl, rfl, (List.append_nil _).symm⟩

variable {events : List SaverEvent}

theorem StreamInvariant.of_advances {s' : Saver} (hsplit : events = done ++ todo)
    (habs : SaverRun paths.document done t) (hsend : ∀ e ∈ events, e.Sendable)
    (h : Advances paths before todo t s') : StreamInvariant paths before events s' := by
  rcases h with h | ⟨e, todo', rfl, h⟩
  · exact ⟨done, todo, t, hsplit, habs, h⟩
  · have he : e.Fits := (hsend e (by simp [hsplit])).1
    exact ⟨done ++ [e], todo', t.handle e true, by simp [hsplit], .handle e he habs, h⟩

theorem StreamInvariant.step (h : StreamInvariant paths before events s)
    (hsend : ∀ e ∈ events, e.Sendable) {a : SaverAction} (hgood : a.Succeeds) {s' : Saver}
    (hstep : s.step paths a = some s') : StreamInvariant paths before events s' := by
  obtain ⟨done, todo, t, hsplit, habs, htracks⟩ := h
  have hawaits := htracks.awaits
  have hfiles := htracks.files
  have hstay : ∀ {s'}, Tracks paths before todo t s' → StreamInvariant paths before events s' :=
    fun h => ⟨done, todo, t, hsplit, habs, h⟩
  unfold Saver.step at hstep
  cases a with
  | send k =>
    cases hstep
    refine hstay ⟨htracks.content, htracks.version, fun hclosed => ?_, ?_, hfiles⟩
    · simp [htracks.closed hclosed]
    · simpa using hawaits
  | close =>
    simp only at hstep
    split_ifs at hstep with hsent
    cases hstep
    exact hstay ⟨htracks.content, htracks.version, fun _ => hsent, hawaits, hfiles⟩
  | select ready =>
    simp only at hstep
    split at hstep
    · next hphase =>
      rw [hphase] at hawaits hfiles
      split_ifs at hstep <;> cases hstep
      · exact hstay ⟨htracks.content, htracks.version, htracks.closed, hawaits, hfiles⟩
      · exact hstay ⟨htracks.content, htracks.version, htracks.closed,
          ⟨List.not_mem_nil, hawaits⟩, hfiles⟩
    · cases hstep
  | read k =>
    have hsendTodo : ∀ e ∈ todo, e.Sendable :=
      fun e he => hsend e (hsplit ▸ List.mem_append_right _ he)
    exact .of_advances hsplit habs hsend (htracks.read hsendTodo habs.summary.autosave hstep)
  | readFails => exact absurd hgood id
  | files script =>
    rcases htracks.runFiles habs hgood hstep with h | h
    · exact hstay h
    · exact ⟨done, todo, t.timer true, hsplit, .timer habs, h⟩
  | tick expired =>
    simp only at hstep
    split at hstep
    · next hphase =>
      rw [hphase] at hawaits hfiles
      split at hstep <;> cases hstep
      · next content hcontent =>
        exact hstay ⟨htracks.content, htracks.version, htracks.closed, hawaits,
          htracks.content ▸ hcontent, hfiles⟩
      · exact hstay ⟨htracks.content, htracks.version, htracks.closed, hawaits, hfiles⟩
    · cases hstep

/-- A process that has come to its end has handled all events. -/
theorem StreamInvariant.saved (h : StreamInvariant paths before events s) (hended : s.phase = .ended) :
    StreamSaved paths events before s.disk := by
  obtain ⟨done, todo, t, rfl, habs, htracks⟩ := h
  have hawaits := htracks.awaits
  have hfiles := htracks.files
  rw [hended] at hawaits hfiles
  have hdone : todo = [] := hawaits
  subst hdone
  rw [List.append_nil]
  obtain ⟨lines, hfilter, hlog⟩ := habs.log
  refine ⟨?_, ?_, lines, hfilter, ?_⟩
  · rw [hfiles.document, habs.summary.document]
  · have hauto := hfiles.autosave
    rw [Option.map_map] at hauto
    rw [hauto, ← habs.summary.latest]
    cases t.latestContent <;> rfl
  · rw [hfiles.log, hlog, List.flatMap_map]

end TermSync
