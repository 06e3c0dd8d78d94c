import TermSync.Proofs.SaverStreamProofs

/-!
# Proofs: the autosave process comes to its end

The programs that write files finish when their calls succeed, and the process never waits for bytes
that are not to come: from wherever a run with a complete stream has got, the process can be led to its
end, and on no other way than by handling what is left.
-/

namespace TermSync

open Foundations Scripted

/-! ## Programs that write files -/

theorem fileCall_finishes {α : Type} {call : Disk → FileCall}
    {f : Disk → CallOutcome → Disk × Option α} (h : ∀ d, (f d .done).2.isSome = true) :
    Finishes CallOutcome.Succeeds (fileCall call f) :=
  have hdone : CallOutcome.done.Succeeds := trivial
  Finishes.call hdone h

theorem mkdirParentRecursive_finishes (path : Bytes) :
    Finishes CallOutcome.Succeeds (mkdirParentRecursive path) := by
  have hall : ∀ directories, Finishes CallOutcome.Succeeds (mkdirAll directories) := by
    intro directories
    induction directories with
    | nil => exact Finishes.pure _
    | cons directory rest ih =>
      exact (fileCall_finishes fun _ => rfl).bind fun _ => (Finishes.pure _).ite ih
  exact (Finishes.pure _).ite (hall _)

theorem fopenWrite_finishes (path : Bytes) : Finishes CallOutcome.Succeeds (fopenWrite path) :=
  fileCall_finishes fun _ => rfl

theorem fwrite_finishes (path data : Bytes) : Finishes CallOutcome.Succeeds (fwrite path data) :=
  (Finishes.modify _).bind fun _ => fileCall_finishes fun _ => rfl

theorem fclose_finishes (path : Bytes) : Finishes CallOutcome.Succeeds (fclose path) :=
  fileCall_finishes fun _ => rfl

theorem rename_finishes (source target : Bytes) :
    Finishes CallOutcome.Succeeds (rename source target) := by
  refine fileCall_finishes fun d => ?_
  cases d.file source <;> rfl

theorem tsAtomicWriteText_finishes (path content : Bytes) :
    Finishes CallOutcome.Succeeds (tsAtomicWriteText path content) := by
  unfold tsAtomicWriteText
  refine (mkdirParentRecursive_finishes path).bind fun _ => (Finishes.pure _).ite ?_
  refine (fopenWrite_finishes _).bind fun _ => (Finishes.pure _).ite ?_
  refine (fwrite_finishes _ _).bind fun _ => Finishes.ite ?_ ?_
  · exact (fclose_finishes _).bind fun _ => Finishes.pure _
  · exact (fclose_finishes _).bind fun _ => (Finishes.pure _).ite (rename_finishes _ _)

theorem tsAppendJsonLog_finishes (path entryJson : Bytes) :
    Finishes CallOutcome.Succeeds (tsAppendJsonLog path entryJson) := by
  unfold tsAppendJsonLog
  refine (mkdirParentRecursive_finishes path).bind fun _ => (Finishes.pure _).ite ?_
  have hopen : Finishes CallOutcome.Succeeds (fopenAppend path) := fileCall_finishes fun _ => rfl
  refine hopen.bind fun _ => (Finishes.pure _).ite ?_
  exact (fwrite_finishes _ _).bind fun _ => fclose_finishes _

/-- A round of the loop of `copy_file` gets further, or it has come to the end of the file. -/
theorem copyRound_done (src dst : Bytes) (pos : ℕ) (d : Disk) :
    ∃ script r d', script ≠ [] ∧ (∀ o ∈ script, o.Succeeds) ∧
      (∀ more, copyRound src dst pos d (script ++ more) = (d', some (r, more))) ∧
      ∀ pos', r = .inl pos' → (((d'.file src).getD []).drop pos').length <
        (((d.file src).getD []).drop pos).length := by
  have hgood : ∀ n, ∀ o ∈ List.replicate n CallOutcome.done, o.Succeeds := by
    intro n o ho
    rw [List.eq_of_mem_replicate ho]
    trivial
  let unread := ((d.file src).getD []).drop pos
  let buffer := unread.take copyBufferSize
  let d₁ : Disk := { d with trace := d.trace ++ [(.fread src unread, .done)] }
  have hread : ∀ more, copyRound src dst pos d (.done :: more) =
      (if buffer = [] then pure (.inr true)
        else fwrite dst buffer >>= fun n =>
          if n ≠ buffer.length then pure (.inr false) else pure (.inl (pos + buffer.length)) :
        FileProg (ℕ ⊕ Bool)) d₁ more := fun _ => rfl
  by_cases hend : buffer = []
  · refine ⟨List.replicate 1 .done, .inr true, d₁, by simp, hgood 1, fun more => ?_, by simp⟩
    exact (hread more).trans (by rw [if_pos hend]; rfl)
  · let d₂ : Disk := { d₁ with
      pending := d₁.pending ++ buffer
      trace := d₁.trace ++ [(.fwrite dst buffer, .done)] }
    refine ⟨List.replicate 2 .done, .inl (pos + buffer.length), d₂, by simp, hgood 2,
      fun more => ?_, fun pos' hpos => ?_⟩
    · refine (hread (.done :: more)).trans ?_
      rw [if_neg hend]
      change (if buffer.length ≠ buffer.length then pure (.inr false)
        else pure (.inl (pos + buffer.length)) : FileProg (ℕ ⊕ Bool)) d₂ more = _
      rw [if_neg (not_not.mpr rfl)]
      rfl
    · cases hpos
      have hpositive := List.length_pos_iff.mpr hend
      simp only [buffer, unread, List.length_take, List.length_drop] at hpositive ⊢
      change ((d.file src).getD []).length - _ < _
      omega

theorem tsWriteWithBackup_finishes (path content : Bytes) :
    Finishes CallOutcome.Succeeds (tsWriteWithBackup path content) := by
  have hcopy : ∀ src dst, Finishes CallOutcome.Succeeds (copyFile src dst) := by
    intro src dst
    unfold copyFile
    have hopen : Finishes CallOutcome.Succeeds (fopenRead src) := fileCall_finishes fun _ => rfl
    refine hopen.bind fun _ => (Finishes.pure _).ite ?_
    refine (fopenWrite_finishes _).bind fun _ => (Finishes.pure _).ite ?_
    have hloop : Finishes CallOutcome.Succeeds (iterate (copyRound src dst) 0) :=
      Finishes.iterate (fun pos d => (((d.file src).getD []).drop pos).length)
        (copyRound_done src dst) 0
    refine hloop.bind fun _ => (fclose_finishes _).bind fun _ => ?_
    exact (Finishes.pure _).ite (Finishes.pure _)
  have haccess : Finishes CallOutcome.Succeeds (access path) := fileCall_finishes fun _ => rfl
  have hwrite := tsAtomicWriteText_finishes path content
  unfold tsWriteWithBackup
  refine (mkdirParentRecursive_finishes path).bind fun _ => (Finishes.pure _).ite ?_
  refine haccess.bind fun _ => Finishes.ite ?_ hwrite
  exact (hcopy _ _).bind fun _ => (Finishes.pure _).ite hwrite

/-! ## The process -/

/-- How far a phase is from the next byte. -/
def SaverPhase.rank : SaverPhase → ℕ
  | .saving _ _ => 5
  | .manualEntry _ _ | .logging _ | .autosaving _ => 4
  | .autosaveEntry _ | .timer => 3
  | .selecting => 2
  | .header _ | .payload _ _ _ _ | .stopping _ => 1
  | .ended | .killed => 0

/-- What the process has still to do when no more bytes are sent. -/
def Saver.remaining (s : Saver) : ℕ := 8 * s.pipe.length + s.phase.rank

theorem SaverPhase.rank_le (phase : SaverPhase) : phase.rank ≤ 5 := by
  cases phase <;> simp [SaverPhase.rank]

/-- Nothing is read or sent, and the process is not killed. -/
structure Undisturbed (s s' : Saver) : Prop where
  pipe : s'.pipe = s.pipe
  toSend : s'.toSend = s.toSend
  alive : s'.phase ≠ .killed

variable {paths : SaverPaths} {before : Disk} {events : List SaverEvent} {s : Saver}

theorem undisturbed_receive (s : Saver) (input : SaverInput) : Undisturbed s (s.receive input) := by
  rcases input with (⟨content, version⟩ | ⟨content, version⟩ | entryJson) | ⟨name, payload⟩ | header
  all_goals exact ⟨rfl, rfl, by simp [Saver.receive]⟩

theorem undisturbed_takeHeader (s : Saver) (line : Bytes) : Undisturbed s (s.takeHeader line) := by
  unfold Saver.takeHeader
  split_ifs
  · refine ⟨rfl, rfl, ?_⟩
    cases s.latestContent <;> simp
  · rcases scanHeader (cString line) with - | ⟨event, version, len⟩
    · exact ⟨rfl, rfl, by simp⟩
    · by_cases hlen : len = 0
      · simp only [hlen, if_true]
        exact undisturbed_receive s _
      · simp only [hlen, if_false]
        exact ⟨rfl, rfl, by simp⟩

theorem undisturbed_takeByte (s : Saver) (line : Bytes) (b : UInt8) :
    Undisturbed s (s.takeByte line b) := by
  unfold Saver.takeByte
  split_ifs
  · exact undisturbed_takeHeader s line
  · exact ⟨rfl, rfl, by simp⟩
  · exact ⟨rfl, rfl, by simp⟩

theorem undisturbed_takeData (s : Saver) (event : Bytes) (version : ℤ) (len : ℕ) (data : Bytes) :
    Undisturbed s (s.takeData event version len data) := by
  unfold Saver.takeData
  split_ifs
  · exact ⟨rfl, rfl, by simp⟩
  · exact undisturbed_receive s _

/-- A step that reads a byte. -/
theorem remaining_lt_of_read {s' t : Saver} (h : Undisturbed t s')
    (hlength : t.pipe.length < s.pipe.length) : s'.remaining < s.remaining := by
  have hrank := s'.phase.rank_le
  unfold Saver.remaining
  rw [h.pipe]
  omega

section Files

variable (s)

/-- The calls of a phase can succeed, and they lead to a phase that is nearer to the next byte. -/
theorem perform_finishes {program : FileProg ℤ} (next : ℤ → SaverPhase)
    (hfinishes : Finishes CallOutcome.Succeeds program) (halive : ∀ rc, next rc ≠ .killed)
    (hrank : ∀ rc, (next rc).rank < s.phase.rank) :
    ∃ script, (∀ o ∈ script, o.Succeeds) ∧ Undisturbed s (s.perform program script next) ∧
      (s.perform program script next).remaining < s.remaining := by
  obtain ⟨script, rc, d, hgood, hrun⟩ := hfinishes s.disk
  have hrun' := hrun []
  rw [List.append_nil] at hrun'
  refine ⟨script, hgood, ?_⟩
  unfold Saver.perform Saver.remaining
  rw [hrun']
  exact ⟨⟨rfl, rfl, halive rc⟩, Nat.add_lt_add_left (hrank rc) _⟩

/-- The history does not matter. -/
theorem logOwn_finishes (paths : SaverPaths) (entry : Bytes) (mark : SaverMark) (next : SaverPhase)
    (halive : next ≠ .killed) (hrank : next.rank < s.phase.rank) :
    ∃ script, (∀ o ∈ script, o.Succeeds) ∧ Undisturbed s (s.logOwn paths entry mark script next) ∧
      (s.logOwn paths entry mark script next).remaining < s.remaining := by
  obtain ⟨script, hgood, hundisturbed, hless⟩ :=
    perform_finishes s (fun _ => next) (tsAppendJsonLog_finishes paths.log entry) (fun _ => halive)
      fun _ => hrank
  refine ⟨script, hgood, ?_⟩
  unfold Saver.logOwn
  split_ifs
  · exact ⟨⟨hundisturbed.pipe, hundisturbed.toSend, hundisturbed.alive⟩, hless⟩
  · exact ⟨hundisturbed, hless⟩

end Files

/-- The stream does not end inside a header or a payload. -/
theorem StreamInvariant.pipe_ne_nil (h : StreamInvariant paths before events s)
    (hsend : ∀ e ∈ events, e.Sendable) (hsent : s.toSend = []) :
    (s.phase = .selecting ∨ (∃ line, s.phase = .header line) → s.pipe ≠ []) ∧
      ∀ event version len data, s.phase = .payload event version len data →
        s.pipe ≠ [] ∧ data.length < len := by
  obtain ⟨done, todo, t, hsplit, habs, htracks⟩ := h
  have hawaits := htracks.awaits
  rw [hsent, List.append_nil] at hawaits
  obtain ⟨first, rest, hfirst, -⟩ :=
    sentBytes_line (fun e he => (hsend e (hsplit ▸ List.mem_append_right _ he)).1 :
      ∀ e ∈ todo, e.Fits)
  constructor
  · rintro (hp | ⟨line, hp⟩) hnil
    · rw [hp, hnil] at hawaits
      have hempty : [] = sentBytes todo := hawaits
      simp [hfirst] at hempty
    · rw [hp, hnil] at hawaits
      obtain ⟨hline, heq⟩ := hawaits
      rw [List.append_nil] at heq
      rw [heq, hfirst] at hline
      exact hline (List.mem_append_right _ List.mem_cons_self)
  · intro event version len data hp
    rw [hp] at hawaits
    obtain ⟨e, todo', -, -, -, rfl, hshort, heq⟩ := hawaits
    refine ⟨fun hnil => ?_, hshort⟩
    have hlength := congrArg List.length heq
    rw [hnil, List.append_nil, List.length_append] at hlength
    omega

/-- A process that is not at its end can take a step towards it. -/
theorem StreamInvariant.exists_step (h : StreamInvariant paths before events s)
    (hsend : ∀ e ∈ events, e.Sendable) (hsent : s.toSend = []) (hended : s.phase ≠ .ended)
    (halive : s.phase ≠ .killed) :
    ∃ a s', a.Succeeds ∧ s.step paths a = some s' ∧ s'.toSend = [] ∧ s'.phase ≠ .killed ∧
      s'.remaining < s.remaining := by
  obtain ⟨hline, hpayload⟩ := h.pipe_ne_nil hsend hsent
  have hfiles : ∀ {script s'}, (∀ o ∈ script, o.Succeeds) → s.runFiles paths script = some s' →
      Undisturbed s s' → s'.remaining < s.remaining →
      ∃ a s', a.Succeeds ∧ s.step paths a = some s' ∧ s'.toSend = [] ∧ s'.phase ≠ .killed ∧
        s'.remaining < s.remaining := by
    intro script s' hgood hrun hundisturbed hless
    exact ⟨.files script, s', hgood, hrun, hundisturbed.toSend.trans hsent, hundisturbed.alive, hless⟩
  cases hp : s.phase with
  | selecting =>
    have hpipe := hline (Or.inl hp)
    refine ⟨.select true, { s with phase := .header [] }, trivial, ?_, hsent, by simp, ?_⟩
    · simp [Saver.step, hp, hpipe]
    · simp [Saver.remaining, hp, SaverPhase.rank]
  | header line =>
    obtain ⟨b, pipe, hpipe⟩ := List.exists_cons_of_ne_nil (hline (Or.inr ⟨line, hp⟩))
    have hundisturbed := undisturbed_takeByte { s with pipe := pipe } line b
    refine ⟨.read 1, _, trivial, ?_, hundisturbed.toSend.trans hsent, hundisturbed.alive,
      remaining_lt_of_read hundisturbed ?_⟩
    · simp only [Saver.step, Saver.read, hp, hpipe]
    · simp [hpipe]
  | payload event version len data =>
    obtain ⟨hpipe, hshort⟩ := hpayload event version len data hp
    have hpos := List.length_pos_iff.mpr hpipe
    have hundisturbed := undisturbed_takeData { s with pipe := s.pipe.drop 1 } event version len
      (data ++ s.pipe.take 1)
    refine ⟨.read 1, _, trivial, ?_, hundisturbed.toSend.trans hsent, hundisturbed.alive,
      remaining_lt_of_read hundisturbed ?_⟩
    · obtain ⟨b, pipe, hbytes⟩ := List.exists_cons_of_ne_nil hpipe
      have hroom : 0 < 1 ∧ 1 ≤ (b :: pipe).length ∧ data.length + 1 ≤ len :=
        ⟨Nat.one_pos, by simp, hshort⟩
      simp only [Saver.step, Saver.read, hp, hbytes]
      rw [if_pos hroom]
    · rw [List.length_drop]
      omega
  | saving payload version =>
    obtain ⟨script, hgood, hundisturbed, hless⟩ := perform_finishes s (.manualEntry version)
      (tsWriteWithBackup_finishes paths.document payload) (by simp) (by simp [hp, SaverPhase.rank])
    exact hfiles hgood (by rw [Saver.runFiles, hp]) hundisturbed hless
  | manualEntry version rc =>
    obtain ⟨script, hgood, hundisturbed, hless⟩ := logOwn_finishes s paths
      (paths.manualSaveEntry version) (.manualSave version) .timer (by simp)
      (by simp [hp, SaverPhase.rank])
    exact hfiles hgood (by rw [Saver.runFiles, hp]) hundisturbed hless
  | logging payload =>
    obtain ⟨script, hgood, hundisturbed, hless⟩ := perform_finishes s (fun _ => .timer)
      (tsAppendJsonLog_finishes paths.log payload) (by simp) (by simp [hp, SaverPhase.rank])
    exact hfiles hgood (by rw [Saver.runFiles, hp]) hundisturbed hless
  | timer =>
    refine ⟨.tick false, { s with phase := .selecting }, trivial, ?_, hsent, by simp, ?_⟩
    · simp [Saver.step, hp]
    · simp [Saver.remaining, hp, SaverPhase.rank]
  | autosaving content =>
    obtain ⟨script, hgood, hundisturbed, hless⟩ := perform_finishes s .autosaveEntry
      (tsAtomicWriteText_finishes paths.autosave content) (by simp) (by simp [hp, SaverPhase.rank])
    exact hfiles hgood (by rw [Saver.runFiles, hp]) hundisturbed hless
  | autosaveEntry rc =>
    obtain ⟨script, hgood, hundisturbed, hless⟩ := logOwn_finishes s paths
      (paths.autosaveEntry s.latestVersion) (.autosave s.latestVersion) .selecting (by simp)
      (by simp [hp, SaverPhase.rank])
    exact hfiles hgood (by rw [Saver.runFiles, hp]) hundisturbed hless
  | stopping content =>
    obtain ⟨script, hgood, hundisturbed, hless⟩ := perform_finishes s (fun _ => .ended)
      (tsAtomicWriteText_finishes paths.autosave content) (by simp) (by simp [hp, SaverPhase.rank])
    exact hfiles hgood (by rw [Saver.runFiles, hp]) hundisturbed hless
  | ended => exact absurd hp hended
  | killed => exact absurd hp halive

/-- By induction on what remains: the process can be led to its end. -/
theorem StreamInvariant.reaches_end (h : StreamInvariant paths before events s)
    (hsend : ∀ e ∈ events, e.Sendable) (halive : s.phase ≠ .killed) :
    ∃ actions s', (∀ a ∈ actions, a.Succeeds) ∧ run (Saver.step paths) s actions = some s' ∧
      s'.phase = .ended := by
  have hrest : ∀ n s, s.remaining = n → StreamInvariant paths before events s → s.toSend = [] →
      s.phase ≠ .killed → ∃ actions s', (∀ a ∈ actions, a.Succeeds) ∧
        run (Saver.step paths) s actions = some s' ∧ s'.phase = .ended := by
    intro n
    induction n using Nat.strong_induction_on with
    | h n ih =>
      intro s hn h hsent halive
      by_cases hended : s.phase = .ended
      · exact ⟨[], s, by simp, rfl, hended⟩
      · obtain ⟨a, s', hgood, hstep, hsent', halive', hless⟩ :=
          h.exists_step hsend hsent hended halive
        obtain ⟨actions, s'', hgoods, hrun, hend⟩ :=
          ih _ (hn ▸ hless) s' rfl (h.step hsend hgood hstep) hsent' halive'
        refine ⟨a :: actions, s'', ?_, run_cons_some.mpr ⟨s', hstep, hrun⟩, hend⟩
        rw [List.forall_mem_cons]
        exact ⟨hgood, hgoods⟩
  -- first everything is sent
  have hgood : (SaverAction.send s.toSend.length).Succeeds := trivial
  have hstep : s.step paths (.send s.toSend.length) =
      some { s with pipe := s.pipe ++ s.toSend, toSend := [] } := by
    simp [Saver.step]
  obtain ⟨actions, s', hgoods, hrun, hend⟩ :=
    hrest _ _ rfl (h.step hsend hgood hstep) rfl halive
  refine ⟨_ :: actions, s', ?_, run_cons_some.mpr ⟨_, hstep, hrun⟩, hend⟩
  rw [List.forall_mem_cons]
  exact ⟨hgood, hgoods⟩

/-- Whatever the pieces in which a stream of events and a STOP travels, and whenever the clock strikes:
when the process ends, the stream has been saved, and until it is killed it can be led to its end. -/
theorem stream_saved (paths : SaverPaths) (events : List SaverEvent)
    (hsend : ∀ e ∈ events, e.Sendable) (disk : Disk) (actions : List SaverAction) (s : Saver)
    (hgood : ∀ a ∈ actions, a.Succeeds)
    (hrun : run (Saver.step paths) (Saver.start (sentBytes events) disk) actions = some s) :
    (s.phase = .ended → StreamSaved paths events disk s.disk) ∧
      (s.phase ≠ .killed → ∃ more s', (∀ a ∈ more, a.Succeeds) ∧
        run (Saver.step paths) s more = some s' ∧ s'.phase = .ended) := by
  have hinvariant : StreamInvariant paths disk events s :=
    run_invariant_of_guarded (fun _ _ _ h hgood hstep => h.step hsend hgood hstep)
      (streamInvariant_start events disk) (.of_forall hgood) hrun
  exact ⟨hinvariant.saved, hinvariant.reaches_end hsend⟩

/-- A snapshot, an entry for the log and a save. -/
def threeEvents : List SaverEvent :=
  [.snapshot (bytes "a") 1, .log (bytes "\x7b\x7d"), .saveNow (bytes "ab") 2]

/-- The events and a STOP arrive in three pieces, the first of which ends inside a header. The clock
strikes once, behind the snapshot. -/
def takesThree : List SaverAction :=
  List.flatten [
    [.send 5, .select true], List.replicate 5 (.read 1), [.send 20], List.replicate 9 (.read 1),
    [.tick true, .files (List.replicate 4 .done), .files (List.replicate 3 .done), .select true],
    List.replicate 8 (.read 1),
    [.send 20, .read 1, .read 1, .files (List.replicate 3 .done), .tick false, .select true],
    List.replicate 13 (.read 1),
    [.read 2, .files (List.replicate 5 .done), .files (List.replicate 3 .done), .tick false,
      .select true],
    List.replicate 5 (.read 1), [.files (List.replicate 5 .done)]]

theorem stream_saved_threeEvents :
    (∃ s, run (Saver.step (serverPaths (bytes "doc") (by decide)))
        (Saver.start (sentBytes threeEvents) emptyDisk) takesThree = some s ∧ s.phase = .ended ∧
      StreamSaved (serverPaths (bytes "doc") (by decide)) threeEvents emptyDisk s.disk) ∧
    ∃ more s, (∀ a ∈ more, a.Succeeds) ∧
      run (Saver.step (serverPaths (bytes "doc") (by decide)))
        (Saver.start (sentBytes threeEvents) emptyDisk) more = some s ∧ s.phase = .ended := by
  have hsend : ∀ e ∈ threeEvents, e.Sendable := by
    simp only [threeEvents, List.forall_mem_cons, List.not_mem_nil, false_implies, implies_true,
      and_true]
    exact ⟨⟨by decide, by decide⟩, ⟨by decide, by decide⟩, ⟨by decide, by decide⟩⟩
  have hany : (run (Saver.step (serverPaths (bytes "doc") (by decide)))
      (Saver.start (sentBytes threeEvents) emptyDisk) takesThree).any
      (fun s => decide (s.phase = .ended)) = true := by
    decide +kernel
  obtain ⟨s, hrun, hended⟩ := (Option.any_eq_true _ _).mp hany
  have hphase : s.phase = .ended := of_decide_eq_true hended
  refine ⟨⟨s, hrun, hphase, ?_⟩, ?_⟩
  · exact (stream_saved _ threeEvents hsend emptyDisk takesThree s (by decide) hrun).1 hphase
  · exact (stream_saved _ threeEvents hsend emptyDisk [] _ (by simp) rfl).2 (by simp [Saver.start])

end TermSync
