import TermSync.Pipe
import TermSync.Proofs.CStringProofs

/-!
# Proofs: events in the autosave pipe

An event that stands in one piece in the pipe is read back (`autosaveLoop_chunks`), and as long as no
header is written into another event every event stands in one piece.
-/

namespace TermSync

open Foundations

/-! ## Reading one event -/

theorem readLineFd_append {room : ℕ} {line rest : Bytes} (hline : ∀ b ∈ line, b ≠ 10)
    (hroom : line.length < room) : readLineFd room (line ++ 10 :: rest) = .line line rest := by
  induction line generalizing room with
  | nil =>
    cases room with
    | zero => simp at hroom
    | succ room => simp [readLineFd]
  | cons b line ih =>
    cases room with
    | zero => simp at hroom
    | succ room =>
      have hrec := ih (fun c hc => hline c (List.mem_cons_of_mem b hc)) (by simpa using hroom)
      simp only [List.cons_append, readLineFd, if_neg (hline b List.mem_cons_self), hrec]

theorem scanWord_append {word rest : Bytes} (hne : word ≠ []) (hlen : word.length ≤ 31)
    (hword : ∀ b ∈ word, isSpace b = false) :
    scanWord (word ++ 32 :: rest) = some (word, 32 :: rest) := by
  obtain ⟨b, t, rfl⟩ := List.exists_cons_of_ne_nil hne
  have htake : ((b :: t) ++ 32 :: rest).takeWhile (fun b => !isSpace b) = b :: t := by
    rw [List.takeWhile_append_of_pos fun c hc => by simp [hword c hc]]
    simp [isSpace]
  have hdrop : ((b :: t) ++ 32 :: rest).dropWhile isSpace = (b :: t) ++ 32 :: rest := by
    simp [hword b List.mem_cons_self]
  simp only [scanWord, hdrop, htake, List.take_of_length_le hlen, List.drop_left]
  simp

theorem scannedInt_formatInt {version : ℤ} (hmin : intMin ≤ version) (hmax : version ≤ intMax) :
    scannedInt (decide (version < 0)) (Decimal.digits version.natAbs) = version := by
  have hlow : longMin ≤ version := le_trans (by decide) hmin
  have hhigh : version ≤ longMax := le_trans hmax (by decide)
  rw [scannedInt, value_formatInt, min_eq_right hhigh, max_eq_right hlow,
    toInt_of_range hmin hmax]

theorem scannedSize_formatSize {n : ℕ} (hn : n < sizeModulus) :
    scannedSize false (formatSize n) = n := by
  have hvalue : Decimal.value (formatSize n) = n := Decimal.value_digits n
  rw [scannedSize, hvalue, if_neg (not_le.mpr hn), if_neg Bool.false_ne_true]

/-- The header of an event, without its newline, with the name, version and length it announces. -/
theorem scanHeader_format {name : Bytes} (hne : name ≠ []) (hlen : name.length ≤ 31)
    (hname : ∀ b ∈ name, isSpace b = false) {version : ℤ} (hmin : intMin ≤ version)
    (hmax : version ≤ intMax) {n : ℕ} (hn : n < sizeModulus) :
    scanHeader (name ++ 32 :: (formatInt version ++ 32 :: formatSize n)) =
      some (name, version, n) := by
  have hlast := scanNumber_formatSize n noDigit_nil
  rw [List.append_nil] at hlast
  have hspace : NoDigit (32 :: formatSize n) := noDigit_cons (by decide) _
  simp only [scanHeader, scanWord_append hne hlen hname, scanNumber_space,
    scanNumber_formatInt version hspace, hlast, scannedInt_formatInt hmin hmax,
    scannedSize_formatSize hn, Option.bind_eq_bind, Option.bind_some]

theorem SaverEvent.fits_iff (e : SaverEvent) :
    e.Fits ↔ intMin ≤ e.version ∧ e.version ≤ intMax ∧ e.payload.length < sizeModulus := by
  cases e with
  | snapshot content version => exact Iff.rfl
  | saveNow content version => exact Iff.rfl
  | log entryJson => simp [SaverEvent.Fits, SaverEvent.version, SaverEvent.payload, intMin, intMax]

theorem SaverEvent.name_props (e : SaverEvent) :
    e.name ≠ [] ∧ e.name.length ≤ 8 ∧ (∀ b ∈ e.name, isSpace b = false) := by
  have hall : ∀ name ∈ [bytes "SNAPSHOT", bytes "SAVE_NOW", bytes "LOG"],
      name ≠ [] ∧ name.length ≤ 8 ∧ (∀ b ∈ name, isSpace b = false) := by decide
  cases e <;> exact hall _ (by simp [SaverEvent.name])

theorem SaverEvent.length_headerLine {e : SaverEvent} (h : e.Fits) : e.headerLine.length ≤ 41 := by
  obtain ⟨hmin, hmax, hlen⟩ := e.fits_iff.mp h
  have hname := e.name_props.2.1
  have hversion := length_formatInt_le hmin hmax
  have hsize : (formatSize e.payload.length).length ≤ 20 :=
    length_formatSize_le (by decide) (hlen.trans (by decide))
  simp only [SaverEvent.headerLine, List.length_append, List.length_cons]
  omega

theorem SaverEvent.chunks_eq {e : SaverEvent} (h : e.Fits) :
    e.chunks = [e.headerLine ++ [10], e.payload] := by
  have hlen := e.length_headerLine h
  have hcut : ∀ {text : Bytes}, text = e.headerLine ++ [10] →
      snprintf 128 text = e.headerLine ++ [10] := by
    rintro text rfl
    exact List.take_of_length_le (by rw [List.length_append, List.length_singleton]; omega)
  have hspace : bytes " " = [32] := by decide
  have hnewline : bytes "\n" = [10] := by decide
  have hlog : bytes "LOG 0 " = bytes "LOG" ++ 32 :: (formatInt 0 ++ [32]) := by decide
  cases e <;>
    · refine congrArg (fun header => [header, _]) (hcut ?_)
      simp [SaverEvent.headerLine, SaverEvent.name, SaverEvent.version, SaverEvent.payload, hspace,
        hnewline, hlog]

/-- The header is a printable text. -/
theorem SaverEvent.le_of_mem_headerLine (e : SaverEvent) : ∀ b ∈ e.headerLine, 32 ≤ b := by
  have hdigits : ∀ n : ℕ, ∀ b ∈ formatSize n, 32 ≤ b := by
    intro n b hb
    have hdigit := Decimal.isDigit_of_mem_digits n b hb
    simp only [Decimal.isDigit, Bool.and_eq_true, decide_eq_true_eq] at hdigit
    exact UInt8.le_trans (by decide) hdigit.1
  have hint : ∀ n : ℤ, ∀ b ∈ formatInt n, 32 ≤ b := by
    intro n b hb
    rw [formatInt] at hb
    split_ifs at hb
    · rcases List.mem_append.mp hb with hb | hb
      · have hminus : ∀ b ∈ bytes "-", 32 ≤ b := by decide
        exact hminus b hb
      · exact hdigits _ b hb
    · exact hdigits _ b hb
  have hname : ∀ name ∈ [bytes "SNAPSHOT", bytes "SAVE_NOW", bytes "LOG"], ∀ b ∈ name, 32 ≤ b := by
    decide
  intro b hb
  simp only [SaverEvent.headerLine, List.mem_append, List.mem_cons] at hb
  rcases hb with hb | rfl | hb | rfl | hb
  · exact hname e.name (by cases e <;> simp [SaverEvent.name]) b hb
  · exact UInt8.le_refl _
  · exact hint _ b hb
  · exact UInt8.le_refl _
  · exact hdigits _ b hb

theorem SaverEvent.notMem_headerLine (e : SaverEvent) : ∀ b ∈ e.headerLine, b ≠ 10 := by
  rintro b hb rfl
  exact absurd (e.le_of_mem_headerLine 10 hb) (by decide)

theorem SaverEvent.namedInput_eq (e : SaverEvent) :
    namedInput e.name e.payload e.version = .event e := by
  cases e <;> rfl

/-- The header line of an event is read and parsed. -/
theorem SaverEvent.read_header {e : SaverEvent} (h : e.Fits) (rest : Bytes) :
    readLineFd 127 (e.headerLine ++ 10 :: rest) = .line e.headerLine rest ∧
      e.headerLine ≠ bytes "STOP" ∧
      scanHeader e.headerLine = some (e.name, e.version, e.payload.length) := by
  have hlen := e.length_headerLine h
  obtain ⟨hmin, hmax, hsize⟩ := e.fits_iff.mp h
  obtain ⟨hne, hname, hspace⟩ := e.name_props
  refine ⟨readLineFd_append e.notMem_headerLine (by omega), fun hstop => ?_,
    scanHeader_format hne (by omega) hspace hmin hmax hsize⟩
  have hmem : (32 : UInt8) ∈ bytes "STOP" := by
    rw [← hstop]
    simp [SaverEvent.headerLine]
  exact absurd hmem (by decide)

/-- An event that stands in one piece at the start of the input is read back. -/
theorem autosaveLoop_chunks {e : SaverEvent} (h : e.Fits) (fuel : ℕ) (rest : Bytes) :
    autosaveLoop (fuel + 1) (e.chunks.flatten ++ rest) =
      (.event e :: (autosaveLoop fuel rest).1, (autosaveLoop fuel rest).2) := by
  have hbytes : e.chunks.flatten ++ rest = e.headerLine ++ 10 :: (e.payload ++ rest) := by
    simp [e.chunks_eq h]
  obtain ⟨hline, hstop, hscan⟩ := e.read_header h (e.payload ++ rest)
  have hroom : ¬ (e.payload ++ rest).length < e.payload.length := by simp
  rw [hbytes, autosaveLoop, hline]
  simp only [if_neg hstop, hscan, if_neg hroom, List.take_left, List.drop_left, e.namedInput_eq]

/-- A header whose payload is still missing makes the process wait. -/
theorem autosaveLoop_header {e : SaverEvent} (h : e.Fits) (hne : e.payload ≠ []) (fuel : ℕ) :
    autosaveLoop fuel (e.headerLine ++ [10]) = ([], .waiting) := by
  cases fuel with
  | zero => rfl
  | succ fuel =>
    obtain ⟨hline, hstop, hscan⟩ := e.read_header h []
    have hroom : ([] : Bytes).length < e.payload.length := List.length_pos_iff.mpr hne
    rw [autosaveLoop, hline]
    simp only [if_neg hstop, hscan, if_pos hroom]

theorem autosaveLoop_nil (fuel : ℕ) : autosaveLoop fuel [] = ([], .waiting) := by
  cases fuel <;> rfl

/-- The bytes of whole events. -/
def eventBytes (events : List (ℕ × SaverEvent)) : Bytes := events.flatMap fun e => e.2.chunks.flatten

theorem eventBytes_concat (events : List (ℕ × SaverEvent)) (e : ℕ × SaverEvent) :
    eventBytes (events ++ [e]) = eventBytes events ++ e.2.chunks.flatten := by
  simp [eventBytes]

/-- Whole events are read back, whatever the process waits for behind them. -/
theorem autosaveRead_events {events : List (ℕ × SaverEvent)} {tail : Bytes}
    (hfit : ∀ e ∈ events, e.2.Fits) (htail : ∀ fuel, autosaveLoop fuel tail = ([], .waiting)) :
    autosaveRead (eventBytes events ++ tail) = (events.map fun e => .event e.2, .waiting) := by
  have hloop : ∀ fuel, (eventBytes events ++ tail).length < fuel →
      autosaveLoop fuel (eventBytes events ++ tail) =
        (events.map fun e => .event e.2, .waiting) := by
    induction events with
    | nil =>
      intro fuel _
      simpa [eventBytes] using htail fuel
    | cons e events ih =>
      intro fuel hfuel
      have hsplit : eventBytes (e :: events) ++ tail =
          e.2.chunks.flatten ++ (eventBytes events ++ tail) := by
        simp [eventBytes]
      have he : e.2.Fits := hfit e List.mem_cons_self
      have hpos : 0 < e.2.chunks.flatten.length := by
        simp [e.2.chunks_eq he]
      rw [hsplit, List.length_append] at hfuel
      cases fuel with
      | zero => omega
      | succ fuel =>
        rw [hsplit, autosaveLoop_chunks he, ih (fun d hd => hfit d (List.mem_cons_of_mem e hd)) fuel
          (by omega)]
        rfl
  exact hloop _ (Nat.lt_succ_self _)

/-! ## Threads that write headers only when nobody else is writing -/

/-- The state of a guarded run: `events` stand whole in the pipe, and `busy` is the thread whose
header follows them, with its event. -/
structure PipeInvariant (s : PipeSys) (events : List (ℕ × SaverEvent))
    (busy : Option (ℕ × SaverEvent)) : Prop where
  fits : ∀ e ∈ s.sent, e.2.Fits
  whole : ∀ e ∈ events, e.2.Fits
  stream : s.stream = eventBytes events ++ (busy.map fun e => e.2.headerLine ++ [10]).getD []
  thread : ∀ i,
    ((s.pending i = [] ∨ s.pending i = [[]]) ∧ (∀ e, busy ≠ some (i, e)) ∧
      eventsOf i s.sent = eventsOf i events) ∨
    (∃ e, e.Fits ∧ s.pending i = e.chunks ∧ (∀ e, busy ≠ some (i, e)) ∧
      eventsOf i s.sent = eventsOf i events ++ [(i, e)]) ∨
    (∃ e, e.Fits ∧ busy = some (i, e) ∧ s.pending i = [e.payload] ∧ e.payload ≠ [] ∧
      eventsOf i s.sent = eventsOf i events ++ [(i, e)])

theorem pipeInvariant_init : PipeInvariant PipeSys.init [] none where
  fits := by simp [PipeSys.init]
  whole := by simp
  stream := rfl
  thread i := Or.inl ⟨Or.inl rfl, by simp, rfl⟩

theorem eventsOf_concat_self (i : ℕ) (e : SaverEvent) (events : List (ℕ × SaverEvent)) :
    eventsOf i (events ++ [(i, e)]) = eventsOf i events ++ [(i, e)] := by
  simp [eventsOf]

theorem eventsOf_concat_ne {i j : ℕ} (h : j ≠ i) (e : SaverEvent)
    (events : List (ℕ × SaverEvent)) : eventsOf j (events ++ [(i, e)]) = eventsOf j events := by
  simp [eventsOf, h.symm]

theorem PipeInvariant.call {s : PipeSys} {events : List (ℕ × SaverEvent)}
    {busy : Option (ℕ × SaverEvent)} (h : PipeInvariant s events busy) {i : ℕ} {e : SaverEvent}
    (he : e.Fits) (hi : s.pending i = []) :
    PipeInvariant
      { s with pending := Function.update s.pending i e.chunks, sent := s.sent ++ [(i, e)] } events
      busy where
  fits := by
    intro d hd
    rcases List.mem_append.mp hd with hd | hd
    · exact h.fits d hd
    · rw [List.mem_singleton.mp hd]
      exact he
  whole := h.whole
  stream := h.stream
  thread j := by
    by_cases hj : j = i
    · subst hj
      simp only [Function.update_self, eventsOf_concat_self]
      rcases h.thread j with ⟨-, hbusy, hsent⟩ | ⟨d, hd, hpend, -⟩ | ⟨d, -, -, hpend, -⟩
      · exact Or.inr (Or.inl ⟨e, he, rfl, hbusy, by rw [hsent]⟩)
      · rw [hi, d.chunks_eq hd] at hpend
        cases hpend
      · rw [hi] at hpend
        cases hpend
    · simp only [Function.update_of_ne hj, eventsOf_concat_ne hj]
      exact h.thread j

/-- A thread appends its header: nobody else is between a header and a payload. -/
theorem PipeInvariant.header {s : PipeSys} {events : List (ℕ × SaverEvent)}
    {busy : Option (ℕ × SaverEvent)} (h : PipeInvariant s events busy) {i : ℕ} {e : SaverEvent}
    (he : e.Fits) (hpend : s.pending i = e.chunks)
    (hsent : eventsOf i s.sent = eventsOf i events ++ [(i, e)])
    (halone : ∀ j payload, s.pending j = [payload] → payload = []) :
    ∃ events' busy', PipeInvariant
      { s with
        stream := s.stream ++ (e.headerLine ++ [10])
        pending := Function.update s.pending i [e.payload] } events' busy' := by
  -- so the pipe ends with a whole event
  have hbusy : busy = none := by
    cases hb : busy with
    | none => rfl
    | some k =>
      rcases h.thread k.1 with ⟨-, hne, -⟩ | ⟨d, -, -, hne, -⟩ | ⟨d, -, -, hp, hne, -⟩
      · exact absurd hb (hne k.2)
      · exact absurd hb (hne k.2)
      · exact absurd (halone k.1 _ hp) hne
  subst hbusy
  have hstream : s.stream = eventBytes events := by simpa using h.stream
  by_cases hempty : e.payload = []
  · refine ⟨events ++ [(i, e)], none, h.fits, ?_, ?_, fun j => ?_⟩
    · intro d hd
      rcases List.mem_append.mp hd with hd | hd
      · exact h.whole d hd
      · rw [List.mem_singleton.mp hd]
        exact he
    · simp [hstream, eventBytes_concat, e.chunks_eq he, hempty]
    · by_cases hj : j = i
      · subst hj
        simp only [Function.update_self, eventsOf_concat_self]
        exact Or.inl ⟨Or.inr (by rw [hempty]), by simp, hsent⟩
      · simp only [Function.update_of_ne hj, eventsOf_concat_ne hj]
        exact h.thread j
  · refine ⟨events, some (i, e), h.fits, h.whole, by simp [hstream], fun j => ?_⟩
    by_cases hj : j = i
    · subst hj
      simp only [Function.update_self]
      exact Or.inr (Or.inr ⟨e, he, rfl, rfl, hempty, hsent⟩)
    · simp only [Function.update_of_ne hj]
      have hne : ∀ d, some (i, e) ≠ some (j, d) := by
        intro d heq
        simp only [Option.some.injEq, Prod.mk.injEq] at heq
        exact hj heq.1.symm
      rcases h.thread j with ⟨hp, -, hs⟩ | ⟨d, hd, hp, -, hs⟩ | ⟨d, -, hb, -⟩
      · exact Or.inl ⟨hp, hne, hs⟩
      · exact Or.inr (Or.inl ⟨d, hd, hp, hne, hs⟩)
      · cases hb

/-- A thread appends its payload, which completes its event. -/
theorem PipeInvariant.payload {s : PipeSys} {events : List (ℕ × SaverEvent)} {i : ℕ}
    {e : SaverEvent} (h : PipeInvariant s events (some (i, e))) (he : e.Fits)
    (hsent : eventsOf i s.sent = eventsOf i events ++ [(i, e)]) :
    PipeInvariant
      { s with
        stream := s.stream ++ e.payload
        pending := Function.update s.pending i [] } (events ++ [(i, e)]) none where
  fits := h.fits
  whole := by
    intro d hd
    rcases List.mem_append.mp hd with hd | hd
    · exact h.whole d hd
    · rw [List.mem_singleton.mp hd]
      exact he
  stream := by
    simp [h.stream, eventBytes_concat, e.chunks_eq he]
  thread j := by
    by_cases hj : j = i
    · subst hj
      simp only [Function.update_self, eventsOf_concat_self]
      exact Or.inl ⟨by simp, by simp, hsent⟩
    · simp only [Function.update_of_ne hj, eventsOf_concat_ne hj]
      rcases h.thread j with ⟨hp, -, hs⟩ | ⟨d, hd, hp, -, hs⟩ | ⟨d, -, hb, -⟩
      · exact Or.inl ⟨hp, by simp, hs⟩
      · exact Or.inr (Or.inl ⟨d, hd, hp, by simp, hs⟩)
      · simp only [Option.some.injEq, Prod.mk.injEq] at hb
        exact absurd hb.1.symm hj

/-- One guarded step. -/
theorem PipeInvariant.step {s s' : PipeSys} {a : PipeAction} {events : List (ℕ × SaverEvent)}
    {busy : Option (ℕ × SaverEvent)} (h : PipeInvariant s events busy) (hgood : s.HeaderAlone a)
    (hstep : s.step a = some s') : ∃ events' busy', PipeInvariant s' events' busy' := by
  cases a with
  | call i e =>
    simp only [PipeSys.step] at hstep
    split_ifs at hstep with hi
    cases hstep
    exact ⟨events, busy, h.call hgood hi⟩
  | append i =>
    simp only [PipeSys.step] at hstep
    rcases h.thread i with ⟨hp | hp, hbusy, hs⟩ | ⟨e, he, hp, hbusy, hs⟩ | ⟨e, he, rfl, hp, hne, hs⟩
    · rw [hp] at hstep
      cases hstep
    · -- an empty payload changes nothing
      rw [hp] at hstep
      cases hstep
      refine ⟨events, busy, h.fits, h.whole, by simpa using h.stream, fun j => ?_⟩
      by_cases hj : j = i
      · subst hj
        simp only [Function.update_self]
        exact Or.inl ⟨by simp, hbusy, hs⟩
      · simp only [Function.update_of_ne hj]
        exact h.thread j
    · have hchunks := e.chunks_eq he
      rw [hp, hchunks] at hstep
      cases hstep
      exact h.header he hp hs (hgood ⟨_, _, hp.trans hchunks⟩)
    · rw [hp] at hstep
      cases hstep
      exact ⟨_, _, h.payload he hs⟩

theorem PipeInvariant.keepsEventsWhole {s : PipeSys} {events : List (ℕ × SaverEvent)}
    {busy : Option (ℕ × SaverEvent)} (h : PipeInvariant s events busy) : s.KeepsEventsWhole := by
  refine ⟨events, ?_, fun i => ?_⟩
  · rw [h.stream]
    refine autosaveRead_events h.whole fun fuel => ?_
    cases hb : busy with
    | none => exact autosaveLoop_nil fuel
    | some k =>
      rcases h.thread k.1 with ⟨-, hne, -⟩ | ⟨d, -, -, hne, -⟩ | ⟨d, hd, hk, -, hne, -⟩
      · exact absurd hb (hne k.2)
      · exact absurd hb (hne k.2)
      · rw [hb, Option.some.injEq] at hk
        rw [hk]
        exact autosaveLoop_header hd hne fuel
  · rcases h.thread i with ⟨-, -, hs⟩ | ⟨d, hd, hp, -, hs⟩ | ⟨d, -, -, hp, -, hs⟩
    · exact ⟨by rw [hs], fun _ => hs.symm⟩
    · refine ⟨hs ▸ List.prefix_append _ _, fun hnil => ?_⟩
      rw [hnil, d.chunks_eq hd] at hp
      cases hp
    · refine ⟨hs ▸ List.prefix_append _ _, fun hnil => ?_⟩
      rw [hnil] at hp
      cases hp

/-- In every run in which headers are written only while no thread still has to write a non-empty
payload, the autosave process reads exactly the events that are sent. -/
theorem keepsEventsWhole_of_headerAlone (actions : List PipeAction) (s : PipeSys)
    (hguard : Guarded PipeSys.step PipeSys.HeaderAlone PipeSys.init actions)
    (hrun : run PipeSys.step PipeSys.init actions = some s) : s.KeepsEventsWhole := by
  obtain ⟨events, busy, h⟩ : ∃ events busy, PipeInvariant s events busy := by
    refine @run_invariant_of_guarded _ _ PipeSys.step PipeSys.HeaderAlone
      (fun t => ∃ events busy, PipeInvariant t events busy) ?_ _ _ _
      ⟨[], none, pipeInvariant_init⟩ hguard hrun
    rintro t a t' ⟨events, busy, h⟩ hgood hstep
    exact h.step hgood hstep
  exact h.keepsEventsWhole

/-- Two threads send two events each. The second thread has called while the first one still writes,
and the first one calls again before the second one has written its payload. -/
def undisturbedAppends : List PipeAction :=
  [.call 0 (.snapshot (bytes "abc") 1), .call 1 (.log (bytes "\x7b\x7d")), .append 0, .append 0,
    .append 1, .call 0 (.saveNow (bytes "abcd") 2), .append 1, .append 0, .append 0,
    .call 1 (.snapshot [] 3), .append 1, .append 1]

/-- Only the first two threads write, and a header only while neither has only its payload left. -/
def aloneOfTwo (s : PipeSys) : PipeAction → Prop
  | .call i event => i < 2 ∧ event.Fits
  | .append i => i < 2 ∧ ((s.pending i).length = 2 → ∀ j < 2, (s.pending j).length ≠ 1)

instance (s : PipeSys) (a : PipeAction) : Decidable (aloneOfTwo s a) :=
  match a with
  | .call _ _ => inferInstanceAs (Decidable (_ ∧ _))
  | .append _ => inferInstanceAs (Decidable (_ ∧ (_ → _)))

theorem guarded_undisturbedAppends :
    Guarded PipeSys.step PipeSys.HeaderAlone PipeSys.init undisturbedAppends := by
  have hchecked : Guarded PipeSys.step aloneOfTwo PipeSys.init undisturbedAppends := by
    decide +kernel
  refine hchecked.imp_of_invariant (P := fun s => ∀ j, 2 ≤ j → s.pending j = []) ?_ ?_ fun _ _ => rfl
  · intro s a s' hidle halone hstep j hj
    cases a with
    | call i event =>
      simp only [PipeSys.step] at hstep
      split_ifs at hstep
      obtain rfl := Option.some.inj hstep
      have hne : j ≠ i := by have := halone.1; omega
      simpa [hne] using hidle j hj
    | append i =>
      have hne : j ≠ i := by have := halone.1; omega
      cases hp : s.pending i with
      | nil => simp [PipeSys.step, hp] at hstep
      | cons chunk rest =>
        simp only [PipeSys.step, hp] at hstep
        obtain rfl := Option.some.inj hstep
        simpa [hne] using hidle j hj
  · intro s a hidle halone
    cases a with
    | call i event => exact halone.2
    | append i =>
      rintro ⟨header, payload, hp⟩ j payload' hj
      rcases Nat.lt_or_ge j 2 with hlt | hge
      · exact absurd (by rw [hj]; rfl) (halone.2 (by rw [hp]; rfl) j hlt)
      · rw [hidle j hge] at hj
        cases hj

theorem keepsEventsWhole_undisturbedAppends :
    ∃ s, run PipeSys.step PipeSys.init undisturbedAppends = some s ∧ s.sent.length = 4 ∧
      s.KeepsEventsWhole :=
  ⟨_, rfl, rfl, keepsEventsWhole_of_headerAlone undisturbedAppends _ guarded_undisturbedAppends rfl⟩

/-- The second header and payload stand between the header and the payload of the first event. -/
def crossedAppends : List PipeAction :=
  [.call 0 (.snapshot (bytes "abc") 1), .append 0, .call 1 (.snapshot (bytes "x") 2), .append 1,
    .append 1, .append 0]

theorem not_keepsEventsWhole_crossedAppends :
    ∃ s, run PipeSys.step PipeSys.init crossedAppends = some s ∧ (∀ i, s.pending i = []) ∧
      (∀ e ∈ s.sent, e.2.Fits) ∧ ¬ s.KeepsEventsWhole := by
  refine ⟨_, rfl, fun i => ?_, ?_, ?_⟩
  · by_cases h0 : i = 0 <;> by_cases h1 : i = 1 <;>
      simp [PipeSys.init, h0, h1]
  · have h1 : (SaverEvent.snapshot (bytes "abc") 1).Fits := ⟨by decide, by decide, by decide⟩
    have h2 : (SaverEvent.snapshot (bytes "x") 2).Fits := ⟨by decide, by decide, by decide⟩
    simpa [PipeSys.init] using And.intro h1 h2
  · rintro ⟨events, hread, -⟩
    have hgarbled : autosaveRead (bytes "SNAPSHOT 1 3\nSNAPSHOT 2 1\nxabc") =
        ([.event (.snapshot (bytes "SNA") 1), .unknown (bytes "PSHOT") (bytes "x")], .waiting) := by
      decide +kernel
    have hmem : SaverInput.unknown (bytes "PSHOT") (bytes "x") ∈
        events.map fun e => SaverInput.event e.2 := by
      have hfirst := congrArg Prod.fst (hgarbled.symm.trans hread)
      simp only at hfirst
      rw [← hfirst]
      simp
    obtain ⟨e, -, he⟩ := List.mem_map.mp hmem
    cases he

end TermSync
