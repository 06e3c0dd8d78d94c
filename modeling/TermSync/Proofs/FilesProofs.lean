import TermSync.Files

/-!
# Proofs: replacing files

While a program writes to one path, every other file is as it was (`Apart`), and an open stream has
put into its file and still holds what has been written to it (`Writing`). A file is replaced by a
rename alone, which finds the complete new content in the temporary file.
-/

namespace TermSync

open Foundations Scripted

/-- The scripts with these outcomes are scripts on which every call succeeds. -/
def AllSucceed (good : CallOutcome → Prop) : Prop := ∀ o, good o → o.Succeeds

/-! ## Paths -/

theorem suffixPath_eq {path suffix : Bytes} (h : path.length + suffix.length < pathMax) :
    suffixPath path suffix = path ++ suffix := by
  unfold suffixPath snprintf
  rw [List.take_of_length_le]
  rw [List.length_append]
  omega

theorem append_ne_self {path suffix : Bytes} (h : suffix ≠ []) : path ++ suffix ≠ path := by
  simpa using h

/-! ## Single calls -/

section Calls

variable {good : CallOutcome → Prop} {stop : Disk → Prop} {f₀ : Bytes → Option Bytes}
  {path : Bytes} {replaced : List (Bytes × Bytes)} {losses : List (FileCall × CallOutcome)}

/-- The rule for a recorded call. -/
theorem fileCall_triple {α : Type} {call : Disk → FileCall}
    {f : Disk → CallOutcome → Disk × Option α} {pre : Disk → Prop} {post : α → Disk → Prop}
    (hstop : ∀ d, pre d → stop d)
    (hnone : ∀ d o, pre d → good o → (f d o).2 = none →
      pre { (f d o).1 with trace := d.trace ++ [(call d, o)] })
    (hsome : ∀ d o a, pre d → good o → (f d o).2 = some a →
      post a { (f d o).1 with trace := d.trace ++ [(call d, o)] }) :
    Triple good stop pre (fileCall call f) post :=
  Triple.call hstop hnone hsome

/-- The rule for a call that takes effect at once or not at all: a stop leaves a note of it, and the
call is done or fails. -/
theorem wholeCall_triple {α : Type} {call : Disk → FileCall}
    {f : Disk → CallOutcome → Disk × Option α} {pre : Disk → Prop} {post : α → Disk → Prop}
    (hstop : ∀ d, pre d → stop d) (hpart : ∀ d k, f d (.part k) = (d, none))
    (hnote : ∀ d k, pre d → pre { d with trace := d.trace ++ [(call d, .part k)] })
    (hdone : ∀ d, pre d → good .done → ∃ d' a, f d .done = (d', some a) ∧
      post a { d' with trace := d.trace ++ [(call d, .done)] })
    (hfail : ∀ d k, pre d → good (.fail k) → ∃ d' a, f d (.fail k) = (d', some a) ∧
      post a { d' with trace := d.trace ++ [(call d, .fail k)] }) :
    Triple good stop pre (fileCall call f) post := by
  refine fileCall_triple hstop ?_ ?_
  · rintro d (_ | k | k) h hgood hnone
    · obtain ⟨d', a, heq, -⟩ := hdone d h hgood
      rw [heq] at hnone
      cases hnone
    · rw [hpart]
      exact hnote d k h
    · obtain ⟨d', a, heq, -⟩ := hfail d k h hgood
      rw [heq] at hnone
      cases hnone
  · rintro d (_ | k | k) a h hgood hsome
    · obtain ⟨d', a', heq, hpost⟩ := hdone d h hgood
      rw [heq] at hsome ⊢
      cases hsome
      exact hpost
    · rw [hpart] at hsome
      cases hsome
    · obtain ⟨d', a', heq, hpost⟩ := hfail d k h hgood
      rw [heq] at hsome ⊢
      cases hsome
      exact hpost

/-- No file but `path` has changed, and the replacements are still these. -/
structure Apart (f₀ : Bytes → Option Bytes) (path : Bytes) (replaced : List (Bytes × Bytes))
    (d : Disk) : Prop where
  file : ∀ q, q ≠ path → d.file q = f₀ q
  replacements : d.replacements = replaced

/-- Moreover, these are the losses so far. -/
structure Idle (f₀ : Bytes → Option Bytes) (path : Bytes) (replaced : List (Bytes × Bytes))
    (losses : List (FileCall × CallOutcome)) (d : Disk) : Prop extends
    Apart f₀ path replaced d where
  losses_eq : d.losses = losses

/-- A stream that is open on `path` has accepted `written`. -/
structure Writing (f₀ : Bytes → Option Bytes) (path : Bytes) (replaced : List (Bytes × Bytes))
    (losses : List (FileCall × CallOutcome)) (written : Bytes) (d : Disk) : Prop extends
    Idle f₀ path replaced losses d where
  stream : ∃ a, d.file path = some a ∧ a ++ d.pending = written

/-- A step that replaces nothing is recorded. -/
theorem Idle.append {d : Disk} {call : FileCall} {o : CallOutcome}
    (h : Idle f₀ path replaced losses d) (d' : Disk) (hfile : ∀ q, q ≠ path → d'.file q = d.file q)
    (hreplacement : replacement (call, o) = none) :
    Idle f₀ path replaced (losses ++ [(call, o)].filter Lossy)
      { d' with trace := d.trace ++ [(call, o)] } where
  file q hq := (hfile q hq).trans (h.file q hq)
  replacements := by
    rw [Disk.replacements, List.filterMap_append, ← Disk.replacements, h.replacements]
    simp [hreplacement]
  losses_eq := by rw [Disk.losses, List.filter_append, ← Disk.losses, h.losses_eq]

/-- A step that is neither a replacement nor a loss. -/
theorem Idle.record {d : Disk} {call : FileCall} {o : CallOutcome}
    (h : Idle f₀ path replaced losses d) (d' : Disk) (hfile : ∀ q, q ≠ path → d'.file q = d.file q)
    (hreplacement : replacement (call, o) = none) (hlossy : Lossy (call, o) = false) :
    Idle f₀ path replaced losses { d' with trace := d.trace ++ [(call, o)] } := by
  simpa [hlossy] using h.append d' hfile hreplacement

/-- A step that changes no file either. -/
theorem Idle.note {d : Disk} {call : FileCall} {o : CallOutcome}
    (h : Idle f₀ path replaced losses d) (hreplacement : replacement (call, o) = none)
    (hlossy : Lossy (call, o) = false) :
    Idle f₀ path replaced losses { d with trace := d.trace ++ [(call, o)] } :=
  h.record d (fun _ _ => rfl) hreplacement hlossy

theorem file_flush {d : Disk} (k : ℕ) {q : Bytes} (hq : q ≠ path) :
    (d.flush path k).file q = d.file q := by
  simp [Disk.flush, Disk.set, hq]

/-- Making a directory keeps what does not depend on it. -/
theorem mkdir_keeps {pre : Disk → Prop} (directory : Bytes) (hstop : ∀ d, pre d → stop d)
    (hpre : ∀ d directory o, pre d → pre { d with trace := d.trace ++ [(.mkdir directory, o)] }) :
    Triple good stop pre (mkdir directory) fun rc d => pre d ∧ (AllSucceed good → rc = 0) := by
  refine wholeCall_triple hstop (fun _ _ => rfl) (fun d k h => hpre d directory _ h) ?_ ?_
  · intro d h hgood
    exact ⟨d, 0, rfl, hpre d directory _ h, fun _ => rfl⟩
  · intro d k h hgood
    exact ⟨d, -1, rfl, hpre d directory _ h, fun hall => (hall _ hgood).elim⟩

theorem fopenRead_spec {src : Bytes} (hsrc : src ≠ path)
    (hstop : ∀ d, Apart f₀ path replaced d → stop d) :
    Triple good stop (Idle f₀ path replaced losses) (fopenRead src) fun opened d =>
      Idle f₀ path replaced losses d ∧ (opened = true → f₀ src ≠ none) ∧
        (AllSucceed good → f₀ src ≠ none → opened = true) := by
  refine wholeCall_triple (fun d h => hstop d h.toApart) (fun _ _ => rfl)
    (fun d k h => h.note rfl rfl) ?_ ?_
  · intro d h hgood
    refine ⟨d, _, rfl, h.note rfl rfl, ?_, fun _ => ?_⟩
    · rw [h.file src hsrc]
      exact fun hthere => Option.isSome_iff_ne_none.mp hthere
    · rw [h.file src hsrc]
      exact fun hthere => Option.isSome_iff_ne_none.mpr hthere
  · intro d k h hgood
    exact ⟨d, false, rfl, h.note rfl rfl, by simp, fun hall => (hall _ hgood).elim⟩

theorem fopenWrite_spec (hstop : ∀ d, Apart f₀ path replaced d → stop d) :
    Triple good stop (Idle f₀ path replaced losses) (fopenWrite path) fun opened d =>
      Idle f₀ path replaced losses d ∧ (opened = true → Writing f₀ path replaced losses [] d) ∧
        (AllSucceed good → opened = true) := by
  refine wholeCall_triple (fun d h => hstop d h.toApart) (fun _ _ => rfl)
    (fun d k h => h.note rfl rfl) ?_ ?_
  · intro d h hgood
    have hidle : Idle f₀ path replaced losses
        { d.set path (some []) with
          pending := [], trace := d.trace ++ [(.fopen path (bytes "wb"), .done)] } :=
      h.record { d.set path (some []) with pending := [] } (fun q hq => by simp [Disk.set, hq])
        rfl rfl
    exact ⟨_, true, rfl, hidle, fun _ => ⟨hidle, [], by simp [Disk.set], rfl⟩, fun _ => rfl⟩
  · intro d k h hgood
    exact ⟨d, false, rfl, h.note rfl rfl, by simp, fun hall => (hall _ hgood).elim⟩

theorem fread_spec {src old written : Bytes} (hsrc : src ≠ path) (hold : f₀ src = some old)
    (pos : ℕ) (hstop : ∀ d, Apart f₀ path replaced d → stop d) :
    Triple good stop (Writing f₀ path replaced losses written) (fread src pos) fun buffer d =>
      (∃ m, buffer = (old.drop pos).take m) ∧
      ((Writing f₀ path replaced losses written d ∧ (buffer = [] → old.drop pos = [])) ∨
        (buffer = [] ∧ old.drop pos ≠ [] ∧ ∃ k, Writing f₀ path replaced
          (losses ++ [(.fread src (old.drop pos), .fail k)]) written d)) ∧
      (AllSucceed good → Writing f₀ path replaced losses written d ∧
        (buffer = [] → old.drop pos = [])) := by
  have hfile : ∀ d, Writing f₀ path replaced losses written d → (d.file src).getD [] = old := by
    intro d h
    rw [h.file src hsrc, hold, Option.getD_some]
  refine wholeCall_triple (fun d h => hstop d h.toApart) (fun _ _ => rfl)
    (fun d k h => ⟨h.note rfl rfl, h.stream⟩) ?_ ?_
  · intro d h hgood
    have hend : (old.drop pos).take copyBufferSize = [] → old.drop pos = [] := by
      rw [List.take_eq_nil_iff]
      exact fun h => h.resolve_left (by decide)
    have hwriting : Writing f₀ path replaced losses written
        { d with trace := d.trace ++ [(.fread src (old.drop pos), .done)] } :=
      ⟨h.note rfl rfl, h.stream⟩
    simp only [hfile d h]
    exact ⟨d, _, rfl, ⟨_, rfl⟩, Or.inl ⟨hwriting, hend⟩, fun _ => ⟨hwriting, hend⟩⟩
  · intro d k h hgood
    simp only [hfile d h]
    refine ⟨d, _, rfl, ⟨_, rfl⟩, ?_, fun hall => (hall _ hgood).elim⟩
    by_cases hlossy : Lossy (.fread src (old.drop pos), .fail k) = true
    · have hcond : old.drop pos ≠ [] ∧ k = 0 := by simpa [Lossy] using hlossy
      refine Or.inr ⟨by simp [hcond.2], hcond.1, k, ?_, h.stream⟩
      have hlost : Idle f₀ path replaced
          (losses ++ [(FileCall.fread src (old.drop pos), CallOutcome.fail k)].filter Lossy)
          { d with trace := d.trace ++ [(.fread src (old.drop pos), .fail k)] } :=
        h.append d (fun _ _ => rfl) rfl
      simpa [hlossy] using hlost
    · have hcond : old.drop pos ≠ [] → k ≠ 0 := by simpa [Lossy] using hlossy
      refine Or.inl ⟨⟨h.note rfl (by simpa using hlossy), h.stream⟩, ?_⟩
      rw [List.take_eq_nil_iff]
      rintro (hk | hnil)
      · by_contra hne
        have hk0 := hcond hne
        simp only [copyBufferSize] at hk
        omega
      · exact hnil

theorem Writing.flush {d : Disk} {written : Bytes} {call : FileCall} {o : CallOutcome}
    (h : Writing f₀ path replaced losses written d) (k : ℕ)
    (hreplacement : replacement (call, o) = none) (hlossy : Lossy (call, o) = false) :
    Writing f₀ path replaced losses written
      { d.flush path k with trace := d.trace ++ [(call, o)] } := by
  obtain ⟨a, ha, hwritten⟩ := h.stream
  refine ⟨h.record (d.flush path k) (fun q hq => file_flush k hq) hreplacement hlossy,
    a ++ d.pending.take k, by simp [Disk.flush, Disk.set, ha], ?_⟩
  change a ++ d.pending.take k ++ d.pending.drop k = written
  rw [List.append_assoc, List.take_append_drop, hwritten]

theorem fwrite_spec {written : Bytes} (data : Bytes)
    (hstop : ∀ d, Apart f₀ path replaced d → stop d) :
    Triple good stop (Writing f₀ path replaced losses written) (fwrite path data) fun n d =>
      Idle f₀ path replaced losses d ∧
      (n = data.length → Writing f₀ path replaced losses (written ++ data) d) ∧
      (AllSucceed good → n = data.length) := by
  unfold fwrite
  have haccept : Triple good stop (Writing f₀ path replaced losses written)
      (Scripted.modify fun d => { d with pending := d.pending ++ data })
      fun _ => Writing f₀ path replaced losses (written ++ data) := by
    refine Triple.modify fun d h => ?_
    obtain ⟨a, ha, hwritten⟩ := h.stream
    exact ⟨⟨⟨h.file, h.replacements⟩, h.losses_eq⟩, a, ha, by rw [← List.append_assoc, hwritten]⟩
  refine haccept.bind fun _ => fileCall_triple (fun d h => hstop d h.toApart) ?_ ?_
  · rintro d (_ | k | k) h - hnone
    · cases hnone
    · exact h.flush k rfl rfl
    · cases hnone
  · rintro d (_ | k | k) n h hgood hsome
    · cases hsome
      have hwriting : Writing f₀ path replaced losses (written ++ data)
          { d with trace := d.trace ++ [(.fwrite path data, .done)] } :=
        ⟨h.note rfl rfl, h.stream⟩
      exact ⟨hwriting.toIdle, fun _ => hwriting, fun _ => rfl⟩
    · cases hsome
    · cases hsome
      have hidle : Idle f₀ path replaced losses
          { d with
            pending := d.pending.take (d.pending.length - (data.length - k))
            trace := d.trace ++ [(.fwrite path data, .fail k)] } :=
        h.record { d with pending := d.pending.take (d.pending.length - (data.length - k)) }
          (fun _ _ => rfl) rfl rfl
      refine ⟨hidle, fun hk => ⟨hidle, ?_⟩, fun hall => (hall _ hgood).elim⟩
      obtain ⟨a, ha, hwritten⟩ := h.stream
      have hall : data.length - k = 0 := by omega
      exact ⟨a, ha, by simp [hall, hwritten]⟩

/-- A stream that is closed well has put into its file what it has accepted, and a stream whose
`fclose` has lost nothing has done so too. -/
theorem fclose_spec {written : Bytes} (hstop : ∀ d, Apart f₀ path replaced d → stop d) :
    Triple good stop (Writing f₀ path replaced losses written) (fclose path) fun rc d =>
      (∃ v, d.file path = some v ∧ v <+: written ∧
        ((v = written ∧ Idle f₀ path replaced losses d) ∨
          (rc ≠ 0 ∧ v ≠ written ∧ ∃ pending k,
            Idle f₀ path replaced (losses ++ [(.fclose path pending, .fail k)]) d))) ∧
      (AllSucceed good → rc = 0) := by
  refine fileCall_triple (fun d h => hstop d h.toApart) ?_ ?_
  · rintro d (_ | k | k) h - hnone
    · cases hnone
    · exact h.flush k rfl rfl
    · cases hnone
  · rintro d (_ | k | k) rc h hgood hsome
    · cases hsome
      obtain ⟨a, ha, hwritten⟩ := h.stream
      refine ⟨⟨written, ?_, List.prefix_rfl, Or.inl ⟨rfl, (h.flush _ rfl rfl).toIdle⟩⟩,
        fun _ => rfl⟩
      simp [Disk.flush, Disk.set, ha, hwritten]
    · cases hsome
    · cases hsome
      obtain ⟨a, ha, hwritten⟩ := h.stream
      refine ⟨⟨a ++ d.pending.take k, by simp [Disk.flush, Disk.set, ha], ?_, ?_⟩,
        fun hall => (hall _ hgood).elim⟩
      · rw [← hwritten, List.prefix_append_right_inj]
        exact List.take_prefix k d.pending
      · have hidle : Idle f₀ path replaced
            (losses ++ [(FileCall.fclose path d.pending, CallOutcome.fail k)].filter Lossy)
            { d.flush path k with
              pending := []
              trace := d.trace ++ [(.fclose path d.pending, .fail k)] } :=
          h.append { d.flush path k with pending := [] } (fun q hq => file_flush k hq) rfl
        by_cases hk : k < d.pending.length
        · refine Or.inr ⟨by decide, ?_, d.pending, k, by simpa [Lossy, hk] using hidle⟩
          rw [← hwritten, Ne, List.append_right_inj, List.take_eq_self_iff]
          omega
        · refine Or.inl ⟨?_, by simpa [Lossy, hk] using hidle⟩
          rw [List.take_of_length_le (by omega), hwritten]

theorem rename_spec {target content : Bytes}
    (hstop : ∀ d, Apart f₀ path replaced d → stop d) :
    Triple good stop (fun d => Idle f₀ path replaced losses d ∧ d.file path = some content)
      (rename path target) fun rc d =>
        (rc ≠ 0 → Idle f₀ path replaced losses d) ∧
        (rc = 0 → d.file target = some content ∧
          (∀ q, q ≠ path → q ≠ target → d.file q = f₀ q) ∧
          d.replacements = replaced ++ [(target, content)] ∧ d.losses = losses) ∧
        (AllSucceed good → rc = 0) := by
  refine fileCall_triple (fun d h => hstop d h.1.toApart) ?_ ?_
  · rintro d (_ | k | k) ⟨h, hcontent⟩ - hnone
    · simp [hcontent] at hnone
    · exact ⟨h.note (by simp [replacement]) rfl, hcontent⟩
    · cases hnone
  · rintro d (_ | k | k) rc ⟨h, hcontent⟩ hgood hsome
    · simp only [hcontent, Option.some.injEq] at hsome ⊢
      subst hsome
      refine ⟨fun hne => absurd rfl hne, fun _ => ⟨by simp [Disk.set], ?_, ?_, ?_⟩, fun _ => rfl⟩
      · intro q hpath hq
        simpa [Disk.set, hq, hpath] using h.file q hpath
      · rw [← h.replacements]
        simp [Disk.replacements, replacement]
      · rw [← h.losses_eq]
        simp [Disk.losses, Lossy]
    · cases hsome
    · cases hsome
      exact ⟨fun _ => h.note (by simp [replacement]) rfl, fun h0 => absurd h0 (by decide),
        fun hall => (hall _ hgood).elim⟩

/-- Closing a stream that may have missed some bytes. -/
theorem fclose_apart (hstop : ∀ d, Apart f₀ path replaced d → stop d) :
    Triple good stop (Apart f₀ path replaced) (fclose path) fun _ => Apart f₀ path replaced := by
  have hflush : ∀ (d : Disk) k o, Apart f₀ path replaced d →
      Apart f₀ path replaced
        { d.flush path k with trace := d.trace ++ [(.fclose path d.pending, o)] } := by
    intro d k o h
    have hidle : Idle f₀ path replaced d.losses d := ⟨h, rfl⟩
    exact (hidle.append (d.flush path k) (fun q hq => file_flush k hq) rfl).toApart
  refine fileCall_triple hstop ?_ ?_
  · rintro d (_ | k | k) h - hnone
    · cases hnone
    · exact hflush d k _ h
    · cases hnone
  · rintro d (_ | k | k) rc h - hsome
    · exact hflush d _ _ h
    · cases hsome
    · have hfailed := hflush d k (.fail k) h
      exact ⟨hfailed.file, hfailed.replacements⟩

theorem fwrite_apart (data : Bytes) (hstop : ∀ d, Apart f₀ path replaced d → stop d) :
    Triple good stop (Apart f₀ path replaced) (fwrite path data) fun _ => Apart f₀ path replaced := by
  unfold fwrite
  have haccept : Triple good stop (Apart f₀ path replaced)
      (Scripted.modify fun d => { d with pending := d.pending ++ data })
      fun _ => Apart f₀ path replaced := Triple.modify fun d h => ⟨h.file, h.replacements⟩
  have hrecord : ∀ (d d' : Disk) o, Apart f₀ path replaced d → (∀ q, q ≠ path → d'.file q = d.file q) →
      Apart f₀ path replaced { d' with trace := d.trace ++ [(.fwrite path data, o)] } := by
    intro d d' o h hfile
    have hidle : Idle f₀ path replaced d.losses d := ⟨h, rfl⟩
    exact (hidle.append d' hfile rfl).toApart
  refine haccept.bind fun _ => fileCall_triple hstop ?_ ?_
  · rintro d (_ | k | k) h - hnone
    · cases hnone
    · exact hrecord d (d.flush path k) _ h fun q hq => file_flush k hq
    · cases hnone
  · rintro d (_ | k | k) n h - hsome
    · exact hrecord d d _ h fun _ _ => rfl
    · cases hsome
    · have hfailed := hrecord d d (.fail k) h fun _ _ => rfl
      exact ⟨hfailed.file, hfailed.replacements⟩

/-- `access` finds a file that exists, or overlooks it. -/
theorem access_spec {p : Bytes} (hp : p ≠ path) (hstop : ∀ d, Apart f₀ path replaced d → stop d) :
    Triple good stop (Idle f₀ path replaced losses) (access p) fun rc d =>
      (rc = 0 → f₀ p ≠ none ∧ Idle f₀ path replaced losses d) ∧
      (rc ≠ 0 → (f₀ p = none ∧ Idle f₀ path replaced losses d) ∨
        (f₀ p ≠ none ∧ ∃ k,
          Idle f₀ path replaced (losses ++ [(.access p true, .fail k)]) d)) := by
  refine wholeCall_triple (fun d h => hstop d h.toApart) (fun _ _ => rfl)
    (fun d k h => h.note rfl rfl) ?_ ?_
  · intro d h _
    refine ⟨d, _, rfl, ?_⟩
    simp only [h.file p hp]
    cases hthere : f₀ p with
    | none => exact ⟨by simp, fun _ => Or.inl ⟨rfl, h.note rfl rfl⟩⟩
    | some old => exact ⟨fun _ => ⟨by simp, h.note rfl rfl⟩, by simp⟩
  · intro d k h _
    refine ⟨d, _, rfl, ?_⟩
    simp only [h.file p hp]
    cases hthere : f₀ p with
    | none => exact ⟨by simp, fun _ => Or.inl ⟨rfl, h.note rfl rfl⟩⟩
    | some old =>
      have hlost : Idle f₀ path replaced
          (losses ++ [(FileCall.access p true, CallOutcome.fail k)].filter Lossy)
          { d with trace := d.trace ++ [(.access p true, .fail k)] } :=
        h.append d (fun _ _ => rfl) rfl
      exact ⟨by simp, fun _ => Or.inr ⟨by simp, k, hlost⟩⟩

/-! ## Copying -/

theorem mkdirAll_keeps {pre : Disk → Prop} (directories : List Bytes)
    (hstop : ∀ d, pre d → stop d)
    (hpre : ∀ d directory o, pre d → pre { d with trace := d.trace ++ [(.mkdir directory, o)] }) :
    Triple good stop pre (mkdirAll directories) fun rc d => pre d ∧ (AllSucceed good → rc = 0) := by
  induction directories with
  | nil => exact Triple.pure fun d h => ⟨h, fun _ => rfl⟩
  | cons directory rest ih =>
    refine (mkdir_keeps directory hstop hpre).bind fun rc => Triple.ite (fun hne => ?_) fun _ => ?_
    · exact Triple.pure fun d h => ⟨h.1, fun hall => absurd (h.2 hall) hne⟩
    · exact ih.weaken (fun d h => h.1) fun _ _ h => h

theorem mkdirParentRecursive_keeps {pre : Disk → Prop} (p : Bytes) (hstop : ∀ d, pre d → stop d)
    (hpre : ∀ d directory o, pre d → pre { d with trace := d.trace ++ [(.mkdir directory, o)] }) :
    Triple good stop pre (mkdirParentRecursive p) fun rc d =>
      pre d ∧ (AllSucceed good → rc = 0) := by
  unfold mkdirParentRecursive
  refine Triple.ite (fun _ => ?_) fun _ => mkdirAll_keeps _ hstop hpre
  exact Triple.pure fun d h => ⟨h, fun _ => rfl⟩

theorem mkdirParentRecursive_spec (p : Bytes) (hstop : ∀ d, Apart f₀ path replaced d → stop d) :
    Triple good stop (Idle f₀ path replaced losses) (mkdirParentRecursive p) fun rc d =>
      Idle f₀ path replaced losses d ∧ (AllSucceed good → rc = 0) :=
  mkdirParentRecursive_keeps p (fun d h => hstop d h.toApart) fun _ _ _ h => h.note rfl rfl

/-- The step is not one of `access`. -/
def NotAccess (item : FileCall × CallOutcome) : Prop := ∀ p there, item.1 ≠ .access p there

/-- What the loop of `copy_file` leaves in the stream: everything, or less with a loss. -/
def Copied (f₀ : Bytes → Option Bytes) (path : Bytes) (replaced : List (Bytes × Bytes))
    (losses : List (FileCall × CallOutcome)) (old : Bytes) (d : Disk) : Prop :=
  ∃ written losses', Writing f₀ path replaced losses' written d ∧
    ((written = old ∧ losses' = losses) ∨
      (written.length < old.length ∧ ∃ x ∈ losses', NotAccess x))

/-- What holds after a round of the loop of `copy_file`. -/
def AfterRound (good : CallOutcome → Prop) (f₀ : Bytes → Option Bytes) (path : Bytes)
    (replaced : List (Bytes × Bytes)) (losses : List (FileCall × CallOutcome)) (old : Bytes) :
    ℕ ⊕ Bool → Disk → Prop
  | .inl pos, d => pos ≤ old.length ∧ Writing f₀ path replaced losses (old.take pos) d
  | .inr copied, d => Apart f₀ path replaced d ∧
    (copied = true → Copied f₀ path replaced losses old d) ∧
    (AllSucceed good → copied = true)

theorem copyRound_spec {src old : Bytes} (hsrc : src ≠ path) (hold : f₀ src = some old) (pos : ℕ)
    (hstop : ∀ d, Apart f₀ path replaced d → stop d) :
    Triple good stop (AfterRound good f₀ path replaced losses old (.inl pos))
      (copyRound src path pos) (AfterRound good f₀ path replaced losses old) := by
  refine Triple.of_fact fun hpos => ?_
  refine (fread_spec hsrc hold pos hstop).bind fun buffer => Triple.ite (fun hnil => ?_) fun hne => ?_
  · refine Triple.pure fun d ⟨_, hread, _⟩ => ?_
    rcases hread with ⟨h, hend⟩ | ⟨-, hunread, k, h⟩
    · refine ⟨h.toApart, fun _ => ⟨_, _, h, Or.inl ⟨?_, rfl⟩⟩, fun _ => rfl⟩
      exact List.take_of_length_le (List.drop_eq_nil_iff.mp (hend hnil))
    · refine ⟨h.toApart, fun _ => ⟨_, _, h, Or.inr ⟨?_, _, List.mem_concat_self, ?_⟩⟩, fun _ => rfl⟩
      · have hlt := mt List.drop_eq_nil_iff.mpr hunread
        rw [List.length_take]
        omega
      · exact fun p there => by simp
  · have hwrite : Triple good stop
        (fun d => (∃ m, buffer = (old.drop pos).take m) ∧
          Writing f₀ path replaced losses (old.take pos) d)
        (fwrite path buffer >>= fun n =>
          if n ≠ buffer.length then pure (.inr false) else pure (.inl (pos + buffer.length)))
        (AfterRound good f₀ path replaced losses old) := by
      refine Triple.of_fact fun ⟨m, hm⟩ => ?_
      refine (fwrite_spec buffer hstop).bind fun n => Triple.ite (fun hshort => ?_) fun hall => ?_
      · exact Triple.pure fun d h => ⟨h.1.toApart, by simp, fun hgood => absurd (h.2.2 hgood) hshort⟩
      · refine Triple.pure fun d h => ?_
        have hbuffer : old.take pos ++ buffer = old.take (pos + buffer.length) := by
          have hprefix : buffer <+: old.drop pos := hm ▸ List.take_prefix m _
          rw [List.take_add, ← List.prefix_iff_eq_take.mp hprefix]
        have hlength := congrArg List.length hm
        rw [List.length_take, List.length_drop] at hlength
        exact ⟨by omega, hbuffer ▸ h.2.1 (not_not.mp hall)⟩
    refine hwrite.weaken (fun d h => ⟨h.1, ?_⟩) fun _ _ h => h
    rcases h.2.1 with h | h
    · exact h.1
    · exact absurd h.1 hne

theorem copyLoop_spec {src old : Bytes} (hsrc : src ≠ path) (hold : f₀ src = some old)
    (hstop : ∀ d, Apart f₀ path replaced d → stop d) :
    Triple good stop (Writing f₀ path replaced losses []) (iterate (copyRound src path) 0)
      fun copied d => Apart f₀ path replaced d ∧
        (copied = true → Copied f₀ path replaced losses old d) ∧
        (AllSucceed good → copied = true) := by
  have hloop : Triple good stop (AfterRound good f₀ path replaced losses old (.inl 0))
      (iterate (copyRound src path) 0)
      fun copied => AfterRound good f₀ path replaced losses old (.inr copied) := by
    have hinv : ∀ pos d, AfterRound good f₀ path replaced losses old (.inl pos) d → stop d :=
      fun pos d h => hstop d h.2.toApart
    refine Triple.iterate hinv (fun pos => ?_) 0
    refine (copyRound_spec hsrc hold pos hstop).weaken (fun _ h => h) fun r d h => ?_
    cases r <;> exact h
  exact hloop.weaken (fun d h => ⟨Nat.zero_le _, by rwa [List.take_zero]⟩) fun _ _ h => h

/-- The end of `copy_file`: closing the stream of a complete copy may still lose something. -/
theorem closeCopy_spec {old : Bytes} (copied : Bool)
    (hstop : ∀ d, Apart f₀ path replaced d → stop d) :
    Triple good stop
      (fun d => Apart f₀ path replaced d ∧
        (copied = true → Copied f₀ path replaced losses old d) ∧
        (AllSucceed good → copied = true))
      (fclose path >>= fun _ => if copied = false then pure (-1) else pure 0) fun (rc : ℤ) d =>
        Apart f₀ path replaced d ∧
          (rc = 0 → (d.file path = some old ∧ d.losses = losses) ∨
            (d.file path ≠ some old ∧ ∃ x ∈ d.losses, NotAccess x)) ∧
          (AllSucceed good → rc = 0) := by
  cases copied with
  | false =>
    have hclose : Triple good stop
        (fun d => ¬ AllSucceed good ∧ Apart f₀ path replaced d)
        (fclose path >>= fun _ => (pure (-1) : FileProg ℤ)) fun rc d =>
          Apart f₀ path replaced d ∧
            (rc = 0 → (d.file path = some old ∧ d.losses = losses) ∨
              (d.file path ≠ some old ∧ ∃ x ∈ d.losses, NotAccess x)) ∧
            (AllSucceed good → rc = 0) := by
      refine Triple.of_fact fun hnot => (fclose_apart hstop).bind fun _ => Triple.pure fun d h => ?_
      exact ⟨h, by simp, fun hall => absurd hall hnot⟩
    exact hclose.weaken (fun d h => ⟨fun hall => absurd (h.2.2 hall) (by simp), h.1⟩)
      fun _ _ h => h
  | true =>
    have hclose : ∀ written losses', (written = old ∧ losses' = losses) ∨
          (written.length < old.length ∧ ∃ x ∈ losses', NotAccess x) →
        Triple good stop (Writing f₀ path replaced losses' written)
          (fclose path >>= fun _ => (pure 0 : FileProg ℤ)) fun rc d =>
            Apart f₀ path replaced d ∧
              (rc = 0 → (d.file path = some old ∧ d.losses = losses) ∨
                (d.file path ≠ some old ∧ ∃ x ∈ d.losses, NotAccess x)) ∧
              (AllSucceed good → rc = 0) := by
      intro written losses' hcopied
      refine (fclose_spec hstop).bind fun rc => Triple.pure fun d ⟨⟨v, hv, hprefix, h⟩, _⟩ => ?_
      rcases hcopied with ⟨rfl, rfl⟩ | ⟨hshort, x, hx, hitem⟩
      · rcases h with ⟨rfl, h⟩ | ⟨-, hne, pending, k, h⟩
        · exact ⟨h.toApart, fun _ => Or.inl ⟨hv, h.losses_eq⟩, fun _ => rfl⟩
        · refine ⟨h.toApart, fun _ => Or.inr ⟨by simpa [hv] using hne,
            (.fclose path pending, .fail k), ?_, fun p there => by simp⟩, fun _ => rfl⟩
          simp [h.losses_eq]
      · have hne : d.file path ≠ some old := by
          rw [hv, Ne, Option.some.injEq]
          rintro rfl
          have hle := hprefix.length_le
          omega
        rcases h with ⟨rfl, h⟩ | ⟨-, -, pending, k, h⟩
        · exact ⟨h.toApart, fun _ => Or.inr ⟨hne, x, by rwa [h.losses_eq], hitem⟩, fun _ => rfl⟩
        · refine ⟨h.toApart, fun _ => Or.inr ⟨hne, x, ?_, hitem⟩, fun _ => rfl⟩
          rw [h.losses_eq]
          exact List.mem_append_left _ hx
    refine Triple.weaken (Triple.exists fun written => Triple.exists fun losses' =>
      Triple.of_fact fun hcopied => hclose written losses' hcopied) (fun d h => ?_) fun _ _ h => h
    obtain ⟨written, losses', hwriting, hcopied⟩ := h.2.1 rfl
    exact ⟨written, losses', hcopied, hwriting⟩

/-- A copy that returns zero is complete, or a loss is on record. -/
theorem copyFile_spec {src : Bytes} (hsrc : src ≠ path)
    (hstop : ∀ d, Apart f₀ path replaced d → stop d) :
    Triple good stop (Idle f₀ path replaced losses) (copyFile src path) fun rc d =>
      Apart f₀ path replaced d ∧
      (rc = 0 → ∃ old, f₀ src = some old ∧
        ((d.file path = some old ∧ d.losses = losses) ∨
          (d.file path ≠ some old ∧ ∃ x ∈ d.losses, NotAccess x))) ∧
      (AllSucceed good → f₀ src ≠ none → rc = 0) := by
  refine (fopenRead_spec hsrc hstop).bind fun opened => Triple.ite (fun hopened => ?_) fun hopened => ?_
  · refine Triple.pure fun d h => ⟨h.1.toApart, by simp, fun hall hthere => ?_⟩
    exact absurd (h.2.2 hall hthere) (by simp [hopened])
  rw [Bool.not_eq_false] at hopened
  cases hold : f₀ src with
  | none => exact fun d _ h _ => absurd rfl (h.2.1 hopened)
  | some old =>
    have hcopy : Triple good stop (Idle f₀ path replaced losses)
        (fopenWrite path >>= fun created =>
          if created = false then pure (-1)
          else iterate (copyRound src path) 0 >>= fun copied => fclose path >>= fun _ =>
            if copied = false then pure (-1) else pure 0) fun rc d =>
        Apart f₀ path replaced d ∧
          (rc = 0 → (d.file path = some old ∧ d.losses = losses) ∨
            (d.file path ≠ some old ∧ ∃ x ∈ d.losses, NotAccess x)) ∧
          (AllSucceed good → rc = 0) := by
      refine (fopenWrite_spec hstop).bind fun created => Triple.ite (fun hcreated => ?_)
        fun hcreated => ?_
      · refine Triple.pure fun d h => ⟨h.1.toApart, by simp, fun hall => ?_⟩
        exact absurd (h.2.2 hall) (by simp [hcreated])
      rw [Bool.not_eq_false] at hcreated
      exact Triple.weaken ((copyLoop_spec hsrc hold hstop).bind fun copied =>
        closeCopy_spec copied hstop) (fun d h => h.2.1 hcreated) fun _ _ h => h
    refine hcopy.weaken (fun d h => h.1) fun rc d h => ⟨h.1, fun h0 => ⟨old, rfl, h.2.1 h0⟩, ?_⟩
    exact fun hall _ => h.2.2 hall

end Calls

/-! ## Saving -/

section Saving

variable {good : CallOutcome → Prop} {stop : Disk → Prop} {f₀ : Bytes → Option Bytes}
  {path content : Bytes} {replaced : List (Bytes × Bytes)}
  {losses : List (FileCall × CallOutcome)}

theorem tmpOf_ne (path : Bytes) : path ≠ tmpOf path := (append_ne_self (by decide)).symm

theorem bakOf_ne (path : Bytes) : path ≠ bakOf path := (append_ne_self (by decide)).symm

theorem bakOf_ne_tmpOf (path : Bytes) : bakOf path ≠ tmpOf path := by
  unfold bakOf tmpOf
  rw [Ne, List.append_right_inj]
  decide

/-- The file has been replaced by its new content. -/
structure Saved (f₀ : Bytes → Option Bytes) (path content : Bytes)
    (replaced : List (Bytes × Bytes)) (d : Disk) : Prop where
  file : d.file path = some content
  others : ∀ q, q ≠ tmpOf path → q ≠ path → d.file q = f₀ q
  replacements : d.replacements = replaced ++ [(path, content)]

/-- What a save that has not come to its rename leaves behind. -/
theorem abandoned {rc : ℤ} {d : Disk} (hrc : rc ≠ 0) (h : Apart f₀ (tmpOf path) replaced d)
    (hgood : ¬ AllSucceed good) :
    (rc ≠ 0 → Apart f₀ (tmpOf path) replaced d) ∧
      (rc = 0 → Saved f₀ path content replaced d ∧ d.losses = losses) ∧
      (AllSucceed good → rc = 0) :=
  ⟨fun _ => h, fun h0 => absurd h0 hrc, fun hall => absurd hall hgood⟩

/-- Nothing but the temporary file changes, until the rename puts it in the place of the file. -/
theorem tsAtomicWriteText_spec (hlen : path.length + 4 < pathMax)
    (hstop : ∀ d, Apart f₀ (tmpOf path) replaced d → stop d) :
    Triple good stop (Idle f₀ (tmpOf path) replaced losses) (tsAtomicWriteText path content)
      fun rc d =>
        (rc ≠ 0 → Apart f₀ (tmpOf path) replaced d) ∧
        (rc = 0 → Saved f₀ path content replaced d ∧ d.losses = losses) ∧
        (AllSucceed good → rc = 0) := by
  have htmp : suffixPath path (bytes ".tmp") = tmpOf path :=
    suffixPath_eq (by rw [show (bytes ".tmp").length = 4 by decide]; exact hlen)
  unfold tsAtomicWriteText
  rw [htmp]
  refine (mkdirParentRecursive_spec path hstop).bind fun rc => Triple.ite (fun hrc => ?_)
    fun hrc => ?_
  · exact Triple.pure fun d h => abandoned (by decide) h.1.toApart fun hall => hrc (h.2 hall)
  refine ((fopenWrite_spec hstop).bind fun opened => Triple.ite (fun hopened => ?_)
    fun hopened => ?_).weaken (fun d h => h.1) fun _ _ h => h
  · refine Triple.pure fun d h => abandoned (by decide) h.1.toApart fun hall => ?_
    exact absurd (h.2.2 hall) (by simp [hopened])
  rw [Bool.not_eq_false] at hopened
  refine ((fwrite_spec content hstop).bind fun n => Triple.ite (fun hshort => ?_)
    fun hwritten => ?_).weaken (fun d h => h.2.1 hopened) fun _ _ h => h
  · refine Triple.weaken (Triple.of_fact fun hgood => (fclose_apart hstop).bind fun _ =>
      Triple.pure fun d h => abandoned (by decide) h hgood) (fun d h => ?_) fun _ _ h => h
    exact ⟨fun hall => hshort (h.2.2 hall), h.1.toApart⟩
  rw [not_not] at hwritten
  refine ((fclose_spec hstop).bind fun rc => Triple.ite (fun hfailed => ?_)
    fun hclosed => ?_).weaken (fun d h => h.2.1 hwritten) fun _ _ h => h
  · refine Triple.pure fun d ⟨⟨v, _, _, h⟩, hgood⟩ =>
      abandoned (by decide) ?_ fun hall => hfailed (hgood hall)
    rcases h with ⟨-, h⟩ | ⟨-, -, pending, k, h⟩ <;> exact h.toApart
  rw [not_not] at hclosed
  have hrename : Triple good stop
      (fun d => Idle f₀ (tmpOf path) replaced losses d ∧ d.file (tmpOf path) = some content)
      (rename (tmpOf path) path) _ := rename_spec hstop
  refine hrename.weaken (fun d ⟨⟨v, hv, _, h⟩, _⟩ => ?_) fun rc d ⟨hfailed, hdone, hgood⟩ => ?_
  · rcases h with ⟨rfl, h⟩ | ⟨hne, -⟩
    · exact ⟨h, hv⟩
    · exact absurd hclosed hne
  · refine ⟨fun hne => (hfailed hne).toApart, fun h0 => ?_, hgood⟩
    obtain ⟨hfile, hothers, hreplacements, hlosses⟩ := hdone h0
    exact ⟨⟨hfile, hothers, hreplacements⟩, hlosses⟩

/-- How the backup stands when the file is replaced. -/
inductive Backup (f₀ : Bytes → Option Bytes) (path : Bytes)
    (losses : List (FileCall × CallOutcome)) :
    Option Bytes → List (FileCall × CallOutcome) → Prop
  | unneeded (h : f₀ path = none) (bak : Option Bytes) : Backup f₀ path losses bak losses
  | overlooked (h : f₀ path ≠ none) (k : ℕ) :
      Backup f₀ path losses (f₀ (bakOf path)) (losses ++ [(.access path true, .fail k)])
  | complete (old : Bytes) (h : f₀ path = some old) : Backup f₀ path losses (some old) losses
  | incomplete (old : Bytes) (h : f₀ path = some old) (bak : Option Bytes) (hne : bak ≠ some old)
      (losses' : List (FileCall × CallOutcome)) (hx : ∃ x ∈ losses', NotAccess x) :
      Backup f₀ path losses bak losses'

/-- No file has changed but the temporary file and the backup. -/
structure Unsaved (f₀ : Bytes → Option Bytes) (path : Bytes) (replaced : List (Bytes × Bytes))
    (d : Disk) : Prop where
  others : ∀ q, q ≠ tmpOf path → q ≠ bakOf path → d.file q = f₀ q
  replacements : d.replacements = replaced

/-- The file has been replaced, and the backup stands as it does. -/
structure SavedWithBackup (f₀ : Bytes → Option Bytes) (path content : Bytes)
    (replaced : List (Bytes × Bytes)) (losses : List (FileCall × CallOutcome)) (d : Disk) :
    Prop where
  file : d.file path = some content
  others : ∀ q, q ≠ tmpOf path → q ≠ bakOf path → q ≠ path → d.file q = f₀ q
  replacements : d.replacements = replaced ++ [(path, content)]
  backup : Backup f₀ path losses (d.file (bakOf path)) d.losses

/-- What a save with a backup returns. -/
structure SaveOutcome (good : CallOutcome → Prop) (f₀ : Bytes → Option Bytes)
    (path content : Bytes) (replaced : List (Bytes × Bytes))
    (losses : List (FileCall × CallOutcome)) (rc : ℤ) (d : Disk) : Prop where
  failed : rc ≠ 0 → Unsaved f₀ path replaced d
  done : rc = 0 → SavedWithBackup f₀ path content replaced losses d
  succeeds : AllSucceed good → rc = 0

theorem Apart.unsaved {f₁ : Bytes → Option Bytes} {d : Disk}
    (hfile : ∀ q, q ≠ tmpOf path → q ≠ bakOf path → f₁ q = f₀ q) {p : Bytes}
    (hp : p = tmpOf path ∨ p = bakOf path) (h : Apart f₁ p replaced d) :
    Unsaved f₀ path replaced d where
  others q htmp hbak := by
    rw [h.file q, hfile q htmp hbak]
    rcases hp with rfl | rfl
    · exact htmp
    · exact hbak
  replacements := h.replacements

/-- The second half of `ts_write_with_backup`. -/
theorem saveAfterBackup_spec {f₁ : Bytes → Option Bytes}
    {losses' : List (FileCall × CallOutcome)} (hlen : path.length + 4 < pathMax)
    (hfile : ∀ q, q ≠ tmpOf path → q ≠ bakOf path → f₁ q = f₀ q)
    (hbackup : Backup f₀ path losses (f₁ (bakOf path)) losses')
    (hstop : ∀ d, Unsaved f₀ path replaced d → stop d) :
    Triple good stop (Idle f₁ (tmpOf path) replaced losses') (tsAtomicWriteText path content)
      (SaveOutcome good f₀ path content replaced losses) := by
  refine (tsAtomicWriteText_spec hlen fun d h => hstop d (h.unsaved hfile (Or.inl rfl))).weaken
    (fun _ h => h) fun rc d ⟨hfailed, hdone, hgood⟩ => ?_
  refine ⟨fun hne => (hfailed hne).unsaved hfile (Or.inl rfl), fun h0 => ?_, hgood⟩
  obtain ⟨hsaved, hlosses⟩ := hdone h0
  refine ⟨hsaved.file, fun q htmp hbak hpath => ?_, hsaved.replacements, ?_⟩
  · rw [hsaved.others q htmp hpath, hfile q htmp hbak]
  · rw [hsaved.others _ (bakOf_ne_tmpOf path) (bakOf_ne path).symm, hlosses]
    exact hbackup

theorem tsWriteWithBackup_spec (hlen : path.length + 4 < pathMax)
    (hstop : ∀ d, Unsaved f₀ path replaced d → stop d) :
    Triple good stop (Idle f₀ (tmpOf path) replaced losses) (tsWriteWithBackup path content)
      (SaveOutcome good f₀ path content replaced losses) := by
  have hbak : suffixPath path (bytes ".bak") = bakOf path :=
    suffixPath_eq (by rw [show (bytes ".bak").length = 4 by decide]; exact hlen)
  have hstop₀ : ∀ d, Apart f₀ (tmpOf path) replaced d → stop d := fun d h =>
    hstop d (h.unsaved (fun _ _ _ => rfl) (Or.inl rfl))
  unfold tsWriteWithBackup
  rw [hbak]
  refine (mkdirParentRecursive_spec path hstop₀).bind fun rc => Triple.ite (fun hrc => ?_)
    fun hrc => ?_
  · refine Triple.pure fun d h => ⟨fun _ => ?_, fun h0 => absurd h0 (by decide),
      fun hall => absurd (h.2 hall) hrc⟩
    exact h.1.toApart.unsaved (fun _ _ _ => rfl) (Or.inl rfl)
  refine ((access_spec (tmpOf_ne path) hstop₀).bind fun rc => Triple.ite (fun hfound => ?_)
    fun hmissed => ?_).weaken (fun d h => h.1) fun _ _ h => h
  · -- the file is copied, and the copy decides how the backup stands
    have hcopy : ∀ f₁ : Bytes → Option Bytes,
        (∀ q, q ≠ tmpOf path → f₁ q = f₀ q) ∧ f₀ path ≠ none →
        Triple good stop (Idle f₁ (bakOf path) replaced losses)
          (copyFile path (bakOf path) >>= fun rc =>
            if rc ≠ 0 then pure (-1) else tsAtomicWriteText path content)
          (SaveOutcome good f₀ path content replaced losses) := by
      intro f₁ ⟨hfile, hthere⟩
      have hfile' : ∀ q, q ≠ tmpOf path → q ≠ bakOf path → f₁ q = f₀ q :=
        fun q hq _ => hfile q hq
      have hpath : f₁ path = f₀ path := hfile path (tmpOf_ne path)
      refine (copyFile_spec (bakOf_ne path) fun d h => hstop d (h.unsaved hfile' (Or.inr rfl))).bind
        fun rc => Triple.ite (fun hrc => ?_) fun hrc => ?_
      · refine Triple.pure fun d ⟨h, _, hgood⟩ => ⟨fun _ => h.unsaved hfile' (Or.inr rfl),
          fun h0 => absurd h0 (by decide), fun hall => absurd (hgood hall ?_) hrc⟩
        rwa [hpath]
      rw [not_not] at hrc
      have hsave : ∀ (f₂ : Bytes → Option Bytes) losses',
          (∀ q, q ≠ tmpOf path → q ≠ bakOf path → f₂ q = f₀ q) ∧
            Backup f₀ path losses (f₂ (bakOf path)) losses' →
          Triple good stop (Idle f₂ (tmpOf path) replaced losses')
            (tsAtomicWriteText path content)
            (SaveOutcome good f₀ path content replaced losses) :=
        fun f₂ losses' hf => saveAfterBackup_spec hlen hf.1 hf.2 hstop
      refine Triple.weaken (Triple.exists fun f₂ => Triple.exists fun losses' =>
        Triple.of_fact fun hf => hsave f₂ losses' hf) (fun d ⟨h, hdone, _⟩ => ?_) fun _ _ h => h
      obtain ⟨old, hold, hcopied⟩ := hdone hrc
      rw [hpath] at hold
      refine ⟨d.file, d.losses, ⟨(h.unsaved hfile' (Or.inr rfl)).others, ?_⟩,
        ⟨fun _ _ => rfl, h.replacements⟩, rfl⟩
      rcases hcopied with ⟨hbak, hlosses⟩ | ⟨hbak, hlost⟩
      · rw [hbak, hlosses]
        exact .complete old hold
      · exact .incomplete old hold _ hbak _ hlost
    refine Triple.weaken (Triple.exists fun f₁ => Triple.of_fact fun hf => hcopy f₁ hf)
      (fun d h => ?_) fun _ _ h => h
    obtain ⟨hthere, hidle⟩ := h.1 hfound
    exact ⟨d.file, ⟨hidle.file, hthere⟩, ⟨fun _ _ => rfl, hidle.replacements⟩, hidle.losses_eq⟩
  · have hsave : ∀ losses', Backup f₀ path losses (f₀ (bakOf path)) losses' →
        Triple good stop (Idle f₀ (tmpOf path) replaced losses') (tsAtomicWriteText path content)
          (SaveOutcome good f₀ path content replaced losses) :=
      fun losses' hb => saveAfterBackup_spec hlen (fun _ _ _ => rfl) hb hstop
    refine Triple.weaken (Triple.exists fun losses' => Triple.of_fact fun hb => hsave losses' hb)
      (fun d h => ?_) fun _ _ h => h
    rcases h.2 hmissed with ⟨hnone, hidle⟩ | ⟨hthere, k, hidle⟩
    · exact ⟨losses, .unneeded hnone _, hidle⟩
    · exact ⟨_, .overlooked hthere k, hidle⟩

end Saving

/-! ## Appending -/

section Appending

variable {good : CallOutcome → Prop} {stop : Disk → Prop} {f₀ : Bytes → Option Bytes}
  {path : Bytes} {replaced : List (Bytes × Bytes)} {losses : List (FileCall × CallOutcome)}

theorem fopenAppend_spec (hstop : ∀ d, Apart f₀ path replaced d → stop d) :
    Triple good stop (Idle f₀ path replaced losses) (fopenAppend path) fun opened d =>
      Idle f₀ path replaced losses d ∧ (AllSucceed good → opened = true) := by
  refine wholeCall_triple (fun d h => hstop d h.toApart) (fun _ _ => rfl)
    (fun d k h => h.note rfl rfl) ?_ ?_
  · intro d h hgood
    exact ⟨_, true, rfl, h.record { d.set path (some ((d.file path).getD [])) with pending := [] }
      (fun q hq => by simp [Disk.set, hq]) rfl rfl, fun _ => rfl⟩
  · intro d k h hgood
    exact ⟨d, false, rfl, h.note rfl rfl, fun hall => (hall _ hgood).elim⟩

/-- A stream that is opened to append starts behind what the file holds. -/
theorem fopenAppend_writing (hall : AllSucceed good)
    (hstop : ∀ d, Apart f₀ path replaced d → stop d) :
    Triple good stop (fun d => Idle f₀ path replaced losses d ∧ d.file path = f₀ path)
      (fopenAppend path) fun opened d => opened = true ∧
        Writing f₀ path replaced losses ((f₀ path).getD []) d := by
  refine wholeCall_triple (fun d h => hstop d h.1.toApart) (fun _ _ => rfl)
    (fun d k h => ⟨h.1.note rfl rfl, h.2⟩) ?_ ?_
  · rintro d ⟨h, hfile⟩ hgood
    refine ⟨_, true, rfl, rfl, h.record { d.set path (some ((d.file path).getD [])) with
      pending := [] } (fun q hq => by simp [Disk.set, hq]) rfl rfl, (f₀ path).getD [], ?_, ?_⟩
    · simp [Disk.set, hfile]
    · exact List.append_nil _
  · intro d k h hgood
    exact (hall _ hgood).elim

/-- Whatever happens, `ts_append_json_log` touches no other file and replaces none. -/
theorem tsAppendJsonLog_apart (entryJson : Bytes) (hstop : ∀ d, Apart f₀ path replaced d → stop d) :
    Triple good stop (Idle f₀ path replaced losses) (tsAppendJsonLog path entryJson)
      fun _ => Apart f₀ path replaced := by
  unfold tsAppendJsonLog
  refine (mkdirParentRecursive_spec path hstop).bind fun rc => Triple.ite (fun _ => ?_) fun _ => ?_
  · exact Triple.pure fun d h => h.1.toApart
  refine Triple.weaken ((fopenAppend_spec hstop).bind fun opened => Triple.ite (fun _ => ?_)
    fun _ => ?_) (fun d h => h.1) fun _ _ h => h
  · exact Triple.pure fun d h => h.1.toApart
  refine Triple.weaken ((fwrite_apart _ hstop).bind fun _ => fclose_apart hstop)
    (fun d h => h.1.toApart) fun _ _ h => h

/-- When all calls succeed, the file ends with the entry on a line of its own. -/
theorem tsAppendJsonLog_spec (entryJson : Bytes) (hall : AllSucceed good)
    (hstop : ∀ d, Apart f₀ path replaced d → stop d) :
    Triple good stop (fun d => Idle f₀ path replaced losses d ∧ d.file path = f₀ path)
      (tsAppendJsonLog path entryJson) fun _ d => Idle f₀ path replaced losses d ∧
        d.file path = some ((f₀ path).getD [] ++ (entryJson ++ bytes "\n")) := by
  unfold tsAppendJsonLog
  refine (mkdirParentRecursive_keeps path (fun d h => hstop d h.1.toApart)
    fun d directory o h => ⟨h.1.note rfl rfl, h.2⟩).bind fun rc => Triple.ite (fun hrc => ?_)
    fun _ => ?_
  · exact Triple.of_absurd fun d h => absurd (h.2 hall) hrc
  refine Triple.weaken ((fopenAppend_writing hall hstop).bind fun opened =>
    Triple.ite (fun hopened => ?_) fun _ => ?_) (fun d h => h.1) fun _ _ h => h
  · exact Triple.of_absurd fun d h => by simp [hopened] at h
  refine Triple.weaken ((fwrite_spec _ hstop).bind fun n => ?_) (fun d h => h.2) fun _ _ h => h
  refine (fclose_spec hstop).weaken (fun d h => h.2.1 (h.2.2 hall)) fun rc d ⟨hclosed, hrc⟩ => ?_
  obtain ⟨v, hv, -, ⟨rfl, h⟩ | ⟨hne, -⟩⟩ := hclosed
  · exact ⟨h, hv⟩
  · exact absurd (hrc hall) hne

end Appending

/-! ## Atomic replacement -/

theorem Triple.replacesAtomically {path content : Bytes} {d : Disk} {m : FileProg ℤ}
    (h : Triple (fun _ => True) (fun d' => d'.file path = d.file path) (fun d' => d' = d) m
      fun rc d' => (rc ≠ 0 → d'.file path = d.file path) ∧ (rc = 0 → d'.file path = some content))
    (script : List CallOutcome) : ReplacesAtomically path content d (m d script) := by
  have hends := h d script rfl fun _ _ => trivial
  revert hends
  rcases m d script with ⟨d', - | ⟨rc, rest⟩⟩
  · intro hstop
    refine ⟨Or.inl hstop, fun rc rest hreturned => ?_⟩
    cases hreturned
  · rintro ⟨⟨hfailed, hdone⟩, -⟩
    refine ⟨?_, fun rc' rest' hreturned hrc => ?_⟩
    · by_cases hrc : rc = 0
      · exact Or.inr (hdone hrc)
      · exact Or.inl (hfailed hrc)
    · cases hreturned
      exact hfailed hrc

/-- A property of the states in which a program may stop and of those in which it returns. -/
theorem always {m : FileProg ℤ} {I P : Disk → Prop}
    (h : Triple (fun _ => True) P I m fun _ => P) {d : Disk} (hpre : I d)
    (script : List CallOutcome) : P (m d script).1 := by
  have hends := h d script hpre fun _ _ => trivial
  revert hends
  rcases m d script with ⟨d', - | ⟨rc, rest⟩⟩
  · exact id
  · exact fun hends => hends.1

theorem idle_self (d : Disk) (path : Bytes) : Idle d.file path d.replacements d.losses d :=
  ⟨⟨fun _ _ => rfl, rfl⟩, rfl⟩

/-- Wherever a save stops, the file has its old state or the complete new content, and it has its old
state when the save reports a failure. -/
theorem atomic_replacement (path content : Bytes) (hlen : path.length + 4 < pathMax) (d : Disk)
    (script : List CallOutcome) :
    ReplacesAtomically path content d (tsAtomicWriteText path content d script) ∧
      ReplacesAtomically path content d (tsWriteWithBackup path content d script) := by
  constructor
  · refine Triple.replacesAtomically ?_ script
    have hkept : ∀ d', Apart d.file (tmpOf path) d.replacements d' → d'.file path = d.file path :=
      fun d' h => h.file path (tmpOf_ne path)
    have hspec : Triple (fun _ => True) (fun d' => d'.file path = d.file path)
        (Idle d.file (tmpOf path) d.replacements d.losses) (tsAtomicWriteText path content) _ :=
      tsAtomicWriteText_spec hlen hkept
    refine hspec.weaken (fun d' h => ?_) fun rc d' h => ?_
    · rw [h]
      exact idle_self d (tmpOf path)
    · exact ⟨fun hrc => hkept d' (h.1 hrc), fun hrc => (h.2.1 hrc).1.file⟩
  · refine Triple.replacesAtomically ?_ script
    have hkept : ∀ d', Unsaved d.file path d.replacements d' → d'.file path = d.file path :=
      fun d' h => h.others path (tmpOf_ne path) (bakOf_ne path)
    have hspec : Triple (fun _ => True) (fun d' => d'.file path = d.file path)
        (Idle d.file (tmpOf path) d.replacements d.losses) (tsWriteWithBackup path content) _ :=
      tsWriteWithBackup_spec hlen hkept
    refine hspec.weaken (fun d' h => ?_) fun rc d' h => ?_
    · rw [h]
      exact idle_self d (tmpOf path)
    · exact ⟨fun hrc => hkept d' (h.failed hrc), fun hrc => (h.done hrc).file⟩

/-- A disk with one file. -/
def oneFile (path content : Bytes) : Disk where
  file := fun q => if q = path then some content else none
  pending := []
  trace := []

/-- The stop comes while the temporary file is being written. -/
theorem atomic_replacement_partWritten :
    ReplacesAtomically (bytes "doc") (bytes "new") (oneFile (bytes "doc") (bytes "old"))
        (tsAtomicWriteText (bytes "doc") (bytes "new") (oneFile (bytes "doc") (bytes "old"))
          [.done, .part 2]) ∧
      ReplacesAtomically (bytes "doc") (bytes "new") (oneFile (bytes "doc") (bytes "old"))
        (tsWriteWithBackup (bytes "doc") (bytes "new") (oneFile (bytes "doc") (bytes "old"))
          [.done, .part 2]) :=
  atomic_replacement (bytes "doc") (bytes "new") (by decide) _ _

/-! ## Complete backups -/

/-- A save that returns zero has put the new content in place, and its backup is complete exactly when
no step has lost a part of it unnoticed. -/
theorem backup_complete_iff (path content : Bytes) (hlen : path.length + 4 < pathMax)
    (d d' : Disk) (script rest : List CallOutcome) (htrace : d.trace = [])
    (hrun : tsWriteWithBackup path content d script = (d', some (0, rest))) :
    (d'.file path = some content ∧
      ∀ old, d.file path = some old → d'.file (bakOf path) = some old) ↔
      BackupKept path d d'.trace := by
  have hspec : Triple (fun _ => True) (fun _ => True) (Idle d.file (tmpOf path) [] [])
      (tsWriteWithBackup path content) (SaveOutcome (fun _ => True) d.file path content [] []) :=
    tsWriteWithBackup_spec hlen fun _ _ => trivial
  have hidle : Idle d.file (tmpOf path) [] [] d :=
    ⟨⟨fun _ _ => rfl, by simp [Disk.replacements, htrace]⟩, by simp [Disk.losses, htrace]⟩
  have hsaved := (hspec.returned hidle (fun _ _ => trivial) hrun).done rfl
  have hkept : BackupKept path d d'.trace ↔ ∀ item ∈ d'.losses,
      (∃ p there, item.1 = .access p there) ∧ d.file (bakOf path) = d.file path := by
    simp [BackupKept, Disk.losses, and_imp]
  rw [hkept, and_iff_right hsaved.file]
  have hbackup := hsaved.backup
  revert hbackup
  generalize d'.file (bakOf path) = bak
  generalize d'.losses = losses
  intro hbackup
  cases hbackup with
  | unneeded hnone => exact iff_of_true (fun old hold => by simp [hnone] at hold) (by simp)
  | overlooked hthere k =>
    obtain ⟨old, hold⟩ := Option.ne_none_iff_exists'.mp hthere
    simp [hold]
  | complete old hold => exact iff_of_true (fun old' hold' => hold.symm.trans hold') (by simp)
  | incomplete old hold _ hne _ hlost =>
    obtain ⟨x, hx, hitem⟩ := hlost
    refine iff_of_false (fun h => hne (h old hold)) fun h => ?_
    obtain ⟨⟨p, there, haccess⟩, -⟩ := h x hx
    exact hitem p there haccess

/-- Every call of the save succeeds at once. -/
def smoothScript : List CallOutcome := List.replicate 11 .done

theorem backup_complete_iff_smooth :
    ∃ d' rest, tsWriteWithBackup (bytes "doc") (bytes "new") (oneFile (bytes "doc") (bytes "old"))
        smoothScript = (d', some (0, rest)) ∧
      ((d'.file (bytes "doc") = some (bytes "new") ∧
        ∀ old, (oneFile (bytes "doc") (bytes "old")).file (bytes "doc") = some old →
          d'.file (bakOf (bytes "doc")) = some old) ↔
        BackupKept (bytes "doc") (oneFile (bytes "doc") (bytes "old")) d'.trace) := by
  have hcode : (tsWriteWithBackup (bytes "doc") (bytes "new")
      (oneFile (bytes "doc") (bytes "old")) smoothScript).2 = some (0, []) := by decide
  exact ⟨_, [], Prod.ext rfl hcode, backup_complete_iff (bytes "doc") (bytes "new") (by decide) _ _
    smoothScript [] rfl (Prod.ext rfl hcode)⟩

/-- The first `fread` fails: the save returns zero, and the backup is empty. -/
theorem not_backup_complete_readError :
    ¬ ∀ (path content : Bytes) (d d' : Disk) (script rest : List CallOutcome),
      path.length + 4 < pathMax → d.trace = [] →
      tsWriteWithBackup path content d script = (d', some (0, rest)) →
        d'.file path = some content ∧
          ∀ old, d.file path = some old → d'.file (bakOf path) = some old := by
  intro h
  have hcode : (tsWriteWithBackup (bytes "doc") (bytes "new")
      (oneFile (bytes "doc") (bytes "old"))
      [.done, .done, .done, .fail 0, .done, .done, .done, .done, .done]).2 = some (0, []) := by
    decide
  have hbak := (h (bytes "doc") (bytes "new") (oneFile (bytes "doc") (bytes "old")) _ _ []
    (by decide) rfl (Prod.ext rfl hcode)).2 (bytes "old") (by decide)
  exact absurd hbak (by decide)

end TermSync
