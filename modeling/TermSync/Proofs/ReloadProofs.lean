import TermSync.Proofs.ProgressProofs

/-!
# Proofs: a session without an edit

A server that starts on a file and shuts down again saves what it has read of the file. That is the
whole file exactly when there is no NUL in it.
-/

namespace TermSync

open Foundations

/-- A C string keeps the whole buffer when there is no NUL in it. -/
theorem cString_eq_self_iff {buffer : Bytes} : cString buffer = buffer ↔ (0 : UInt8) ∉ buffer := by
  constructor
  · intro h hmem
    rw [cString, List.takeWhile_eq_self_iff] at h
    exact absurd (h 0 hmem) (by decide)
  · intro h
    refine cString_eq_self ?_
    rintro b hb rfl
    exact h hb

theorem ne_zero_of_mem_cString {buffer : Bytes} : ∀ b ∈ cString buffer, b ≠ 0 := by
  intro b hb
  simpa using List.mem_takeWhile_imp hb

theorem length_cString_le (buffer : Bytes) : (cString buffer).length ≤ buffer.length :=
  (List.takeWhile_prefix _).length_le

/-- All events of such a session can be sent. -/
theorem sendable_sessionEvents {old : Bytes} (hsize : old.length < sizeModulus) (historyLimit : ℕ)
    {between : List SaverEvent} (hbetween : ∀ e ∈ between, e.Sendable) :
    ∀ e ∈ sessionEvents (some old) historyLimit between, e.Sendable := by
  have hlength := (length_cString_le old).trans_lt hsize
  have hversion : intMin ≤ 0 ∧ 0 ≤ intMax := by decide
  intro e he
  simp only [sessionEvents, List.cons_append, List.mem_cons, List.mem_append, List.not_mem_nil,
    or_false] at he
  rcases he with rfl | he | rfl
  · exact ⟨⟨hversion.1, hversion.2, hlength⟩, ne_zero_of_mem_cString⟩
  · exact hbetween e he
  · exact ⟨⟨hversion.1, hversion.2, hlength⟩, ne_zero_of_mem_cString⟩

/-- The last save of the session is the one of its shutdown. -/
theorem document_of_session {paths : SaverPaths} {old : Bytes} {historyLimit : ℕ}
    {between : List SaverEvent} {before after : Disk}
    (h : StreamSaved paths (sessionEvents (some old) historyLimit between) before after) :
    after.file paths.document = some (cString old) := by
  rw [h.document]
  unfold sessionEvents
  rw [getLast?_filterMap_concat]
  rfl

/-- A session that starts on a file, accepts no operation and shuts down can come to its end, and it
leaves the file as it was exactly when there is no NUL in the file. -/
theorem unchanged_iff (paths : SaverPaths) (old : Bytes) (hsize : old.length < sizeModulus)
    (historyLimit : ℕ) (between : List SaverEvent) (hbetween : ∀ e ∈ between, e.Sendable)
    (disk : Disk) (hfile : disk.file paths.document = some old) (actions : List SaverAction)
    (s : Saver) (hgood : ∀ a ∈ actions, a.Succeeds)
    (hrun : run (Saver.step paths)
      (Saver.start (sentBytes (sessionEvents (disk.file paths.document) historyLimit between)) disk)
      actions = some s) :
    (s.phase = .ended →
      (s.disk.file paths.document = disk.file paths.document ↔ (0 : UInt8) ∉ old)) ∧
      (s.phase ≠ .killed → ∃ more s', (∀ a ∈ more, a.Succeeds) ∧
        run (Saver.step paths) s more = some s' ∧ s'.phase = .ended) := by
  rw [hfile] at hrun ⊢
  have hsend := sendable_sessionEvents hsize historyLimit hbetween
  have hinvariant : StreamInvariant paths disk _ s :=
    run_invariant_of_guarded (fun _ _ _ h hgood hstep => h.step hsend hgood hstep)
      (streamInvariant_start _ disk) (.of_forall hgood) hrun
  refine ⟨fun hended => ?_, hinvariant.reaches_end hsend⟩
  rw [document_of_session (hinvariant.saved hended), Option.some.injEq]
  exact cString_eq_self_iff

/-- The process reads the snapshot, the save and the STOP of a session on a file of one byte. -/
def wholeSession : List SaverAction :=
  List.flatten
    [[.send 33, .select true], List.replicate 14 (.read 1), [.tick false, .select true],
      List.replicate 14 (.read 1), [.files smoothScript, .files (List.replicate 3 .done)],
      [.tick false, .select true], List.replicate 5 (.read 1), [.files (List.replicate 4 .done)]]

theorem unchanged_iff_wholeSession :
    ∃ s, run (Saver.step (serverPaths (bytes "doc") (by decide)))
        (Saver.start (sentBytes (sessionEvents (some (bytes "x")) 1000 []))
          (oneFile (bytes "doc") (bytes "x"))) wholeSession = some s ∧ s.phase = .ended ∧
      (s.phase = .ended → (s.disk.file (bytes "doc") =
        (oneFile (bytes "doc") (bytes "x")).file (bytes "doc") ↔ (0 : UInt8) ∉ bytes "x")) ∧
      (s.phase ≠ .killed → ∃ more s', (∀ a ∈ more, a.Succeeds) ∧
        run (Saver.step (serverPaths (bytes "doc") (by decide))) s more = some s' ∧
          s'.phase = .ended) := by
  have hrun : (run (Saver.step (serverPaths (bytes "doc") (by decide)))
      (Saver.start (sentBytes (sessionEvents (some (bytes "x")) 1000 []))
        (oneFile (bytes "doc") (bytes "x"))) wholeSession).map Saver.phase = some .ended := by
    decide +kernel
  obtain ⟨s, hs, hended⟩ := Option.map_eq_some_iff.mp hrun
  exact ⟨s, hs, hended, unchanged_iff (serverPaths (bytes "doc") (by decide)) (bytes "x")
    (by decide) 1000 [] (by simp) (oneFile (bytes "doc") (bytes "x")) rfl wholeSession s (by decide)
    hs⟩

/-- The file has a NUL in it: what follows is lost. -/
theorem not_unchanged_nul :
    ¬ ∀ (paths : SaverPaths) (old : Bytes) (historyLimit : ℕ) (disk : Disk)
        (actions : List SaverAction) (s : Saver), old.length < sizeModulus →
      disk.file paths.document = some old → (∀ a ∈ actions, a.Succeeds) →
      run (Saver.step paths)
        (Saver.start (sentBytes (sessionEvents (disk.file paths.document) historyLimit [])) disk)
        actions = some s →
      s.phase = .ended → s.disk.file paths.document = disk.file paths.document := by
  intro h
  let paths := serverPaths (bytes "doc") (by decide)
  let disk := oneFile (bytes "doc") [97, 0, 98]
  have hsize : ([97, 0, 98] : Bytes).length < sizeModulus := by decide
  have hsend : ∀ e ∈ sessionEvents (some [97, 0, 98]) 1000 [], e.Sendable :=
    sendable_sessionEvents hsize 1000 (by simp)
  have hstart : StreamInvariant paths disk _ (Saver.start _ disk) :=
    streamInvariant_start (sessionEvents (disk.file paths.document) 1000 []) disk
  obtain ⟨actions, s, hgood, hrun, hended⟩ := hstart.reaches_end hsend (by simp [Saver.start])
  have hinvariant : StreamInvariant paths disk _ s :=
    run_invariant_of_guarded (fun _ _ _ h hgood hstep => h.step hsend hgood hstep) hstart
      (.of_forall hgood) hrun
  have hsaved := document_of_session (hinvariant.saved hended)
  rw [h paths _ 1000 disk actions s hsize rfl hgood hrun hended] at hsaved
  exact absurd hsaved (by decide)

end TermSync
