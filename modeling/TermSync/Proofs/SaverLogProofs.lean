import TermSync.Proofs.FilesProofs
import TermSync.SaverLoop

/-!
# Proofs: what the autosave process logs

An entry is logged after a save whatever the save has returned. In a run in which no entry follows a
save that has reported a failure, every entry is truthful: the content that is saved is the one that
came with the version of the entry, and a save that returns zero has replaced its file.
-/

namespace TermSync

open Foundations Scripted

/-! ## Histories -/

/-- Only what is received brings a content. -/
theorem BroughtLast.append {history marks : List SaverMark} {content : Bytes} {version : ℤ}
    (h : BroughtLast history content version)
    (hmarks : ∀ m ∈ marks, ∀ content' version', ¬ m.Brings content' version') :
    BroughtLast (history ++ marks) content version := by
  obtain ⟨earlier, m, later, rfl, hbrings, hlater⟩ := h
  refine ⟨earlier, m, later ++ marks, by rw [List.append_assoc, List.cons_append], hbrings, ?_⟩
  intro x hx
  rcases List.mem_append.mp hx with hx | hx
  · exact hlater x hx
  · exact hmarks x hx

theorem broughtLast_concat {history : List SaverMark} {m : SaverMark} {content : Bytes} {version : ℤ}
    (hbrings : m.Brings content version) : BroughtLast (history ++ [m]) content version :=
  ⟨history, m, [], rfl, hbrings, fun _ hx => absurd hx List.not_mem_nil⟩

theorem SaverMark.Brings.received {m : SaverMark} {content : Bytes} {version : ℤ}
    (h : m.Brings content version) : ∃ event, m = .received event := by
  rcases h with rfl | rfl
  · exact ⟨_, rfl⟩
  · exact ⟨_, rfl⟩

/-- A file that is replaced brings nothing. -/
theorem not_brings_of_replacedSince {d d' : Disk} {m : SaverMark} (hm : m ∈ Saver.replacedSince d d')
    (content : Bytes) (version : ℤ) : ¬ m.Brings content version := by
  obtain ⟨r, -, rfl⟩ := List.mem_map.mp hm
  intro hbrings
  obtain ⟨event, heq⟩ := hbrings.received
  cases heq

theorem truthful_concat {paths : SaverPaths} {history : List SaverMark} {m : SaverMark}
    (h : Truthful paths history) (hm : Justified paths history m) :
    Truthful paths (history ++ [m]) := by
  intro before mark after heq
  rcases List.eq_nil_or_concat after with rfl | ⟨after, last, rfl⟩
  · obtain ⟨rfl, hmark⟩ := List.append_inj' heq rfl
    rw [← (List.cons.inj hmark).1]
    exact hm
  · rw [List.concat_eq_append, ← List.cons_append, ← List.append_assoc] at heq
    exact h before mark after (List.append_inj' heq rfl).1

/-- Replaced files are no entries. -/
theorem Truthful.replaced {paths : SaverPaths} {history : List SaverMark} (h : Truthful paths history)
    (replaced : List (Bytes × Bytes)) :
    Truthful paths (history ++ replaced.map fun r => .replaced r.1 r.2) := by
  induction replaced using List.reverseRecOn with
  | nil => simpa using h
  | append_singleton replaced r ih =>
    rw [List.map_append, ← List.append_assoc]
    exact truthful_concat ih trivial

/-! ## The invariant -/

/-- What stands behind the phase of the process. -/
def PhaseJustified (paths : SaverPaths) (history : List SaverMark) (latestVersion : ℤ) :
    SaverPhase → Prop
  | .saving payload version => ∃ earlier, history = earlier ++ [.received (.saveNow payload version)]
  | .manualEntry version rc => rc = 0 → Justified paths history (.manualSave version)
  | .autosaving content => BroughtLast history content latestVersion
  | .autosaveEntry rc => rc = 0 → Justified paths history (.autosave latestVersion)
  | _ => True

/-- The log is truthful so far, and the last content came with the last version. -/
structure LogInvariant (paths : SaverPaths) (s : Saver) : Prop where
  truthful : Truthful paths s.history
  latest : ∀ content, s.latestContent = some content →
    BroughtLast s.history content s.latestVersion
  phase : PhaseJustified paths s.history s.latestVersion s.phase

variable {paths : SaverPaths} {s : Saver}

theorem logInvariant_start (toSend : Bytes) (disk : Disk) :
    LogInvariant paths (Saver.start toSend disk) where
  truthful before mark after heq := by simp [Saver.start] at heq
  latest content hcontent := by cases hcontent
  phase := trivial

/-- A step that changes neither the history nor the last content. -/
theorem LogInvariant.goTo (h : LogInvariant paths s) {t : Saver} (hhistory : t.history = s.history)
    (hcontent : t.latestContent = s.latestContent) (hversion : t.latestVersion = s.latestVersion)
    (hphase : PhaseJustified paths t.history t.latestVersion t.phase) : LogInvariant paths t where
  truthful := hhistory ▸ h.truthful
  latest := by
    rw [hhistory, hcontent, hversion]
    exact h.latest
  phase := hphase

theorem LogInvariant.receive (h : LogInvariant paths s) (input : SaverInput) :
    LogInvariant paths (s.receive input) := by
  have hreceived : ∀ event, Truthful paths (s.history ++ [.received event]) :=
    fun event => truthful_concat h.truthful trivial
  rcases input with (⟨content, version⟩ | ⟨content, version⟩ | entryJson) | ⟨name, payload⟩ | header
  · refine ⟨hreceived _, fun c hc => ?_, trivial⟩
    cases hc
    exact broughtLast_concat (Or.inl rfl)
  · refine ⟨hreceived _, fun c hc => ?_, s.history, rfl⟩
    cases hc
    exact broughtLast_concat (Or.inr rfl)
  · refine ⟨hreceived _, fun c hc => (h.latest c hc).append fun m hm c v => ?_, trivial⟩
    rw [List.mem_singleton.mp hm]
    rintro (hbrings | hbrings) <;> cases hbrings
  · exact h.goTo rfl rfl rfl trivial
  · exact h.goTo rfl rfl rfl trivial

theorem LogInvariant.takeHeader (h : LogInvariant paths s) (line : Bytes) :
    LogInvariant paths (s.takeHeader line) := by
  unfold Saver.takeHeader
  split_ifs with hstop
  · refine h.goTo rfl rfl rfl ?_
    cases s.latestContent <;> trivial
  · rcases scanHeader (cString line) with - | ⟨event, version, len⟩
    · exact h.goTo rfl rfl rfl trivial
    · by_cases hlen : len = 0
      · simp only [hlen, if_true]
        exact h.receive _
      · simp only [hlen, if_false]
        exact h.goTo rfl rfl rfl trivial

theorem LogInvariant.read (h : LogInvariant paths s) {k : ℕ} {t : Saver} (hread : s.read k = some t) :
    LogInvariant paths t := by
  have hend : ∀ {t}, (if s.closed then some { s with phase := .ended } else none) = some t →
      LogInvariant paths t := by
    intro t ht
    split_ifs at ht
    cases ht
    exact h.goTo rfl rfl rfl trivial
  unfold Saver.read at hread
  split at hread
  · exact hend hread
  · exact hend hread
  · next line b pipe _ _ =>
    cases hread
    have hpipe : LogInvariant paths { s with pipe := pipe } := h.goTo rfl rfl rfl h.phase
    unfold Saver.takeByte
    split_ifs
    · exact hpipe.takeHeader line
    · exact h.goTo rfl rfl rfl trivial
    · exact h.goTo rfl rfl rfl trivial
  · split_ifs at hread
    cases hread
    unfold Saver.takeData
    split_ifs
    · exact h.goTo rfl rfl rfl trivial
    · have hpipe : LogInvariant paths { s with pipe := s.pipe.drop k } := h.goTo rfl rfl rfl h.phase
      exact hpipe.receive _
  · cases hread

/-! ## Saving and logging -/

/-- A program writes files; it suffices to look at what it leads to when it returns. -/
theorem LogInvariant.perform (h : LogInvariant paths s) {program : FileProg ℤ}
    {script : List CallOutcome} {next : ℤ → SaverPhase}
    (hnext : ∀ rc d rest, program s.disk script = (d, some (rc, rest)) →
      PhaseJustified paths (s.history ++ Saver.replacedSince s.disk d) s.latestVersion (next rc)) :
    LogInvariant paths (s.perform program script next) where
  truthful := h.truthful.replaced _
  latest content hcontent := (h.latest content hcontent).append fun _ => not_brings_of_replacedSince
  phase := by
    unfold Saver.perform
    rcases hrun : program s.disk script with ⟨d, - | ⟨rc, rest⟩⟩
    · trivial
    · exact hnext rc d rest hrun

/-- Appending to the log replaces no file. -/
theorem replacedSince_tsAppendJsonLog (path entry : Bytes) (d : Disk) (script : List CallOutcome) :
    Saver.replacedSince d (tsAppendJsonLog path entry d script).1 = [] := by
  have hapart := always (tsAppendJsonLog_apart entry fun _ h => h) (idle_self d path) script
  rw [Saver.replacedSince, hapart.replacements, List.drop_length, List.map_nil]

/-- An entry is logged only where it is justified. -/
theorem LogInvariant.logOwn (h : LogInvariant paths s) {entry : Bytes} {mark : SaverMark}
    {script : List CallOutcome} {next : SaverPhase}
    (hnext : ∀ history, PhaseJustified paths history s.latestVersion next)
    (hown : ∀ event, mark ≠ .received event)
    (hmark : s.Appends paths entry script → Justified paths s.history mark) :
    LogInvariant paths (s.logOwn paths entry mark script next) := by
  have hperform : LogInvariant paths
      (s.perform (tsAppendJsonLog paths.log entry) script fun _ => next) :=
    h.perform fun _ _ _ _ => hnext _
  have hhistory : (s.perform (tsAppendJsonLog paths.log entry) script fun _ => next).history =
      s.history := by
    simp only [Saver.perform, replacedSince_tsAppendJsonLog, List.append_nil]
  unfold Saver.logOwn
  split_ifs with happends
  · refine ⟨truthful_concat hperform.truthful ?_, fun content hcontent => ?_, ?_⟩
    · rw [hhistory]
      exact hmark happends
    · refine (hperform.latest content hcontent).append fun m hm c v hbrings => ?_
      obtain ⟨event, heq⟩ := hbrings.received
      exact hown event (List.mem_singleton.mp hm ▸ heq)
    · have hphase : ∀ history, PhaseJustified paths history s.latestVersion
          (s.perform (tsAppendJsonLog paths.log entry) script fun _ => next).phase := by
        intro history
        unfold Saver.perform
        rcases tsAppendJsonLog paths.log entry s.disk script with ⟨d, - | ⟨rc, rest⟩⟩
        · trivial
        · exact hnext history
      exact hphase _
  · exact hperform

/-- A save that returns zero has replaced its file and no other one. -/
theorem replaced_of_returned {path content : Bytes} {program : FileProg ℤ} {d d' : Disk}
    {script rest : List CallOutcome}
    (hspec : Triple (fun _ => True) (fun _ => True)
      (Idle d.file (tmpOf path) d.replacements d.losses) program
      fun rc d' => rc = 0 → d'.replacements = d.replacements ++ [(path, content)])
    (hrun : program d script = (d', some (0, rest))) :
    Saver.replacedSince d d' = [.replaced path content] := by
  have hreplacements := hspec.returned (idle_self d (tmpOf path)) (fun _ _ => trivial) hrun rfl
  simp [Saver.replacedSince, hreplacements]

theorem replaced_of_tsWriteWithBackup {path content : Bytes} (hlen : path.length + 4 < pathMax)
    {d d' : Disk} {script rest : List CallOutcome}
    (hrun : tsWriteWithBackup path content d script = (d', some (0, rest))) :
    Saver.replacedSince d d' = [.replaced path content] :=
  replaced_of_returned ((tsWriteWithBackup_spec hlen fun _ _ => trivial).weaken (fun _ h => h)
    fun _ _ h hrc => (h.done hrc).replacements) hrun

theorem replaced_of_tsAtomicWriteText {path content : Bytes} (hlen : path.length + 4 < pathMax)
    {d d' : Disk} {script rest : List CallOutcome}
    (hrun : tsAtomicWriteText path content d script = (d', some (0, rest))) :
    Saver.replacedSince d d' = [.replaced path content] :=
  replaced_of_returned ((tsAtomicWriteText_spec hlen fun _ _ => trivial).weaken (fun _ h => h)
    fun _ _ h hrc => (h.2.1 hrc).1.replacements) hrun

theorem SaverPaths.autosave_eq (paths : SaverPaths) : paths.autosave = autosaveOf paths.document := by
  refine suffixPath_eq ?_
  have hfits := paths.fits
  rw [show (bytes ".autosave").length = 9 by decide, pathMax]
  omega

theorem SaverPaths.length_autosave (paths : SaverPaths) :
    paths.autosave.length + 4 < pathMax := by
  have hfits := paths.fits
  rw [paths.autosave_eq, autosaveOf, List.length_append, show (bytes ".autosave").length = 9 by decide,
    pathMax]
  omega

theorem SaverPaths.length_document (paths : SaverPaths) : paths.document.length + 4 < pathMax := by
  have hfits := paths.fits
  rw [pathMax]
  omega

theorem LogInvariant.runFiles (h : LogInvariant paths s) {script : List CallOutcome} {t : Saver}
    (hreports : s.Reports paths (.files script)) (hrun : s.runFiles paths script = some t) :
    LogInvariant paths t := by
  have hphase := h.phase
  unfold Saver.runFiles at hrun
  unfold Saver.Reports at hreports
  cases hp : s.phase <;> simp only [hp, Option.some.injEq, reduceCtorEq] at hrun hreports hphase <;>
    subst hrun
  case saving payload version =>
    refine h.perform fun rc d rest hreturned hrc => ?_
    subst hrc
    obtain ⟨earlier, hhistory⟩ := hphase
    refine ⟨earlier, payload, ?_⟩
    rw [replaced_of_tsWriteWithBackup paths.length_document hreturned, hhistory, List.append_assoc]
    rfl
  case manualEntry version rc =>
    refine h.logOwn (fun _ => trivial) (fun _ => SaverMark.noConfusion)
      fun happends => ?_
    by_cases hrc : rc = 0
    · exact hphase hrc
    · exact absurd happends (hreports hrc)
  case logging payload => exact h.perform fun _ _ _ _ => trivial
  case autosaving content =>
    refine h.perform fun rc d rest hreturned hrc => ?_
    subst hrc
    exact ⟨s.history, content, by rw [replaced_of_tsAtomicWriteText paths.length_autosave hreturned],
      hphase⟩
  case autosaveEntry rc =>
    refine h.logOwn (fun _ => trivial) (fun _ => SaverMark.noConfusion)
      fun happends => ?_
    by_cases hrc : rc = 0
    · exact hphase hrc
    · exact absurd happends (hreports hrc)
  case stopping content => exact h.perform fun _ _ _ _ => trivial

/-- One step that logs no save which has reported a failure. -/
theorem LogInvariant.step (h : LogInvariant paths s) {a : SaverAction} {t : Saver}
    (hreports : s.Reports paths a) (hstep : s.step paths a = some t) : LogInvariant paths t := by
  unfold Saver.step at hstep
  cases a with
  | send k =>
    cases hstep
    exact h.goTo rfl rfl rfl h.phase
  | close =>
    simp only at hstep
    split_ifs at hstep
    cases hstep
    exact h.goTo rfl rfl rfl h.phase
  | select ready =>
    simp only at hstep
    split at hstep
    · split_ifs at hstep <;> cases hstep
      · exact h.goTo rfl rfl rfl trivial
      · exact h.goTo rfl rfl rfl trivial
    · cases hstep
  | read k => exact h.read hstep
  | readFails =>
    simp only at hstep
    split at hstep <;> cases hstep
    · exact h.goTo rfl rfl rfl trivial
    · exact h.goTo rfl rfl rfl trivial
  | files script => exact h.runFiles hreports hstep
  | tick expired =>
    simp only at hstep
    split at hstep
    · split at hstep <;> cases hstep
      · next content hcontent => exact h.goTo rfl rfl rfl (h.latest content hcontent)
      · exact h.goTo rfl rfl rfl trivial
    · cases hstep

/-- In every run in which no entry follows a save that has reported a failure, every entry of the
process is truthful, whatever is sent and however the calls turn out. -/
theorem truthful_of_reports (paths : SaverPaths) (toSend : Bytes) (disk : Disk)
    (actions : List SaverAction) (s : Saver)
    (hguard : Guarded (Saver.step paths) (Saver.Reports paths) (Saver.start toSend disk) actions)
    (hrun : run (Saver.step paths) (Saver.start toSend disk) actions = some s) :
    Truthful paths s.history := by
  have hinvariant : LogInvariant paths s :=
    run_invariant_of_guarded (fun _ _ _ h hreports hstep => h.step hreports hstep)
      (logInvariant_start toSend disk) hguard hrun
  exact hinvariant.truthful

/-- A disk without files. -/
def emptyDisk : Disk := { file := fun _ => none, pending := [], trace := [] }

/-- The process reads a SAVE_NOW, and its calls turn out like this. -/
def saveRequest (save log : List CallOutcome) : List SaverAction :=
  [.send 14, .select true] ++ List.replicate 14 (.read 1) ++ [.files save, .files log]

/-- All calls succeed. -/
theorem truthful_of_reports_saved :
    ∃ s, run (Saver.step (serverPaths (bytes "doc") (by decide)))
        (Saver.start (bytes "SAVE_NOW 1 1\nx") emptyDisk)
        (saveRequest (List.replicate 5 .done) (List.replicate 3 .done)) = some s ∧
      Truthful (serverPaths (bytes "doc") (by decide)) s.history := by
  have hrun : (run (Saver.step (serverPaths (bytes "doc") (by decide)))
      (Saver.start (bytes "SAVE_NOW 1 1\nx") emptyDisk)
      (saveRequest (List.replicate 5 .done) (List.replicate 3 .done))).isSome = true := by
    decide +kernel
  obtain ⟨s, hs⟩ := Option.isSome_iff_exists.mp hrun
  exact ⟨s, hs, truthful_of_reports _ _ _ _ s (by decide +kernel) hs⟩

/-- The temporary file cannot be opened: nothing is saved, and the entry is logged all the same. -/
theorem not_truthful_failedSave :
    ¬ ∀ (paths : SaverPaths) (toSend : Bytes) (disk : Disk) (actions : List SaverAction) (s : Saver),
      run (Saver.step paths) (Saver.start toSend disk) actions = some s →
        Truthful paths s.history := by
  intro h
  have hhistory : (run (Saver.step (serverPaths (bytes "doc") (by decide)))
      (Saver.start (bytes "SAVE_NOW 1 1\nx") emptyDisk)
      (saveRequest [.done, .fail 0] (List.replicate 3 .done))).map Saver.history =
        some [.received (.saveNow (bytes "x") 1), .manualSave 1] := by
    decide +kernel
  obtain ⟨s, hs, hhistory⟩ := Option.map_eq_some_iff.mp hhistory
  obtain ⟨earlier, payload, hbefore⟩ := h _ _ _ _ s hs [.received (.saveNow (bytes "x") 1)] _ [] hhistory
  have hlength := congrArg List.length hbefore
  rw [List.length_append] at hlength
  exact absurd hlength (by simp)

end TermSync
