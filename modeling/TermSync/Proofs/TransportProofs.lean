import TermSync.Proofs.CStringProofs
import TermSync.Proofs.FindKeyProofs
import TermSync.Transport

/-!
# Proofs: the transport keeps lines whole

Every encoded message is one line: its newline is its last byte (`tsEncodeMessage_eq_line`). The lock
keeps the lines of different threads apart, so what has been written and not been cut off yet is the
stream of the lines that are due (`Inv.stream`).
-/

namespace TermSync

open Foundations

/-! ## An encoded message is one line -/

/-- Bytes that contain neither a newline nor a NUL. -/
def OneLine (text : Bytes) : Prop := ∀ b ∈ text, b ≠ 10 ∧ b ≠ 0

instance (text : Bytes) : Decidable (OneLine text) :=
  inferInstanceAs (Decidable (∀ b ∈ text, _))

theorem OneLine.append {a b : Bytes} (ha : OneLine a) (hb : OneLine b) : OneLine (a ++ b) :=
  fun c hc => (List.mem_append.mp hc).elim (ha c) (hb c)

theorem oneLine_digits (n : ℕ) : OneLine (Decimal.digits n) := by
  intro b hb
  obtain ⟨hspace, -, -⟩ := isDigit_ne (Decimal.isDigit_of_mem_digits n b hb)
  refine ⟨fun h => ?_, fun h => ?_⟩
  · rw [h] at hspace
    exact absurd hspace (by decide)
  · have hdigit := Decimal.isDigit_of_mem_digits n b hb
    rw [h] at hdigit
    exact absurd hdigit (by decide)

theorem oneLine_formatInt (n : ℤ) : OneLine (formatInt n) := by
  unfold formatInt
  split_ifs
  · exact OneLine.append (by decide) (oneLine_digits _)
  · exact oneLine_digits _

/-- Escaping leaves no newline and no NUL. -/
theorem oneLine_jsonEscape (value : Bytes) : OneLine (jsonEscape value) := by
  intro b hb
  have hle := le_of_mem_jsonEscape value b hb
  exact ⟨fun h => absurd (h ▸ hle) (by decide), fun h => absurd (h ▸ hle) (by decide)⟩

theorem oneLine_sbAppendf {sb text : Bytes} (hsb : OneLine sb) (htext : OneLine text) :
    OneLine (sbAppendf sb text) := by
  unfold sbAppendf
  split_ifs
  · exact hsb.append htext
  · exact hsb

theorem oneLine_fieldPrefix {w : FieldWriter} {name : Bytes} (hw : OneLine w.sb)
    (hname : OneLine name) :
    OneLine (appendJsonFieldPrefix w name).sb := by
  simp only [appendJsonFieldPrefix]
  refine oneLine_sbAppendf ?_ (OneLine.append (OneLine.append (by decide) hname) (by decide))
  split_ifs
  · exact hw
  · exact hw.append (by decide)

theorem oneLine_quoted {w : FieldWriter} {name : Bytes} (hw : OneLine w.sb) (hname : OneLine name)
    (value : Bytes) : OneLine (appendQuoted w name value).sb := by
  simp only [appendQuoted]
  exact oneLine_sbAppendf (oneLine_fieldPrefix hw hname)
    (OneLine.append (OneLine.append (by decide) (oneLine_jsonEscape value)) (by decide))

theorem oneLine_string {w : FieldWriter} {name : Bytes} (hw : OneLine w.sb) (hname : OneLine name)
    (value : Bytes) : OneLine (appendStringField w name value).sb := by
  unfold appendStringField
  split_ifs
  · exact hw
  · exact oneLine_quoted hw hname value

theorem oneLine_int {w : FieldWriter} {name : Bytes} (hw : OneLine w.sb) (hname : OneLine name)
    (value : ℤ) : OneLine (appendIntField w name value).sb := by
  unfold appendIntField
  split_ifs
  · exact hw
  · exact oneLine_sbAppendf (oneLine_fieldPrefix hw hname) (oneLine_formatInt value)

theorem oneLine_operation {w : FieldWriter} {name : Bytes} (hw : OneLine w.sb)
    (hname : OneLine name) (op : TsOperation) : OneLine (appendOperationField w name op).sb := by
  have hkind : OneLine (tsOperationKindName op.kind) := by cases op.kind <;> decide
  have hhead : OneLine (bytes "\x7b\"kind\":\"" ++ tsOperationKindName op.kind ++
      bytes "\",\"pos\":" ++ formatSize op.pos) :=
    OneLine.append (OneLine.append (OneLine.append (by decide) hkind) (by decide))
      (oneLine_digits op.pos)
  have hchar : OneLine (bytes ",\"char\":\"" ++ jsonEscape op.ch ++ bytes "\"") :=
    OneLine.append (OneLine.append (by decide) (oneLine_jsonEscape _)) (by decide)
  have hreason : OneLine (bytes ",\"reason\":\"" ++ jsonEscape op.reason ++ bytes "\"") :=
    OneLine.append (OneLine.append (by decide) (oneLine_jsonEscape _)) (by decide)
  simp only [appendOperationField]
  refine OneLine.append ?_ (by decide)
  have hsb := oneLine_sbAppendf (oneLine_fieldPrefix hw hname) hhead
  split_ifs
  · exact oneLine_sbAppendf (oneLine_sbAppendf hsb hchar) hreason
  · exact oneLine_sbAppendf hsb hreason
  · exact oneLine_sbAppendf hsb hchar
  · exact hsb

theorem oneLine_content {w : FieldWriter} (hw : OneLine w.sb) (content : Option Bytes) :
    OneLine (appendContentField w content).sb := by
  cases content with
  | none => exact hw
  | some content => exact oneLine_quoted hw (by decide) content

/-- The newline of an encoded message is its last byte. -/
theorem tsEncodeMessage_eq_line (message : TsMessage) :
    tsEncodeMessage message = lineOf message ++ [10] ∧ OneLine (lineOf message) := by
  obtain ⟨body, hbody, hline⟩ :
      ∃ body, tsEncodeMessage message = body ++ [10] ∧ OneLine body := by
    have hend : bytes "\x7d\n" = [125] ++ [10] := by decide
    simp only [tsEncodeMessage, hend, ← List.append_assoc]
    refine ⟨_, rfl, OneLine.append ?_ (by decide)⟩
    refine oneLine_content (oneLine_string (oneLine_string ?_ (by decide) _) (by decide) _) _
    have hstart : OneLine (FieldWriter.mk (bytes "\x7b") true).sb := by decide
    have hids := oneLine_string (oneLine_string (oneLine_string hstart
      (show OneLine (bytes "type") by decide) message.type)
      (show OneLine (bytes "client_id") by decide) message.clientId)
      (show OneLine (bytes "op_id") by decide) message.opId
    have hints := oneLine_int (oneLine_int (oneLine_int (oneLine_int hids
      (show OneLine (bytes "base_version") by decide) message.baseVersion)
      (show OneLine (bytes "server_version") by decide) message.serverVersion)
      (show OneLine (bytes "version") by decide) message.version)
      (show OneLine (bytes "history_start_version") by decide) message.historyStartVersion
    split_ifs
    · exact oneLine_operation (oneLine_operation hints (by decide) _) (by decide) _
    · exact oneLine_operation hints (by decide) _
    · exact oneLine_operation hints (by decide) _
    · exact hints
  have hlast : lineOf message = body := by rw [lineOf, hbody, List.dropLast_concat]
  exact ⟨by rw [hlast, hbody], hlast ▸ hline⟩

theorem OneLine.cString {text : Bytes} (h : OneLine text) : cString text = text :=
  cString_eq_self fun b hb => (h b hb).2

theorem OneLine.not_mem {text : Bytes} (h : OneLine text) : (10 : UInt8) ∉ text :=
  fun hmem => (h 10 hmem).1 rfl

/-! ## One round of the receiver -/

/-- The lines of some calls. -/
def linesOf (calls : List (ℕ × TsMessage)) : List Bytes := calls.map fun call => lineOf call.2

theorem framed_linesOf_concat (calls : List (ℕ × TsMessage)) (i : ℕ) (message : TsMessage) :
    framed 10 (linesOf (calls ++ [(i, message)])) =
      framed 10 (linesOf calls) ++ tsEncodeMessage message := by
  rw [linesOf, List.map_append, framed_append, List.map_singleton, framed_cons,
    (tsEncodeMessage_eq_line message).1]
  rfl

/-- A round at the beginning of a line returns that line, or there is room to read on. -/
theorem recvRound_line {line : Bytes} (hline : OneLine line) (hfits : line.length < tsMaxLineBytes)
    (errorSize : ℕ) {buffer future later : Bytes} (hstream : buffer ++ future = line ++ 10 :: later) :
    (∃ rest, cutLine 10 buffer = some (line, rest) ∧ rest ++ future = later ∧
        recvRound errorSize buffer = .returns (tsDecodeMessage errorSize line) rest) ∨
      cutLine 10 buffer = none ∧ buffer.length ≤ line.length ∧
        recvRound errorSize buffer = .reads (tsMaxLineBytes - buffer.length) := by
  rcases cutLine_line hline.not_mem hstream with ⟨rest, hcut, hrest⟩ | ⟨hcut, hpre⟩
  · refine Or.inl ⟨rest, hcut, hrest, ?_⟩
    rw [recvRound, hcut]
    simp only [hline.cString]
  · have hlength := hpre.length_le
    refine Or.inr ⟨hcut, hlength, ?_⟩
    simp only [recvRound, hcut]
    rw [if_neg (by omega)]

/-- The line of a message that fits. -/
theorem length_lineOf {message : TsMessage}
    (hfits : (tsEncodeMessage message).length ≤ tsMaxLineBytes) :
    (lineOf message).length < tsMaxLineBytes := by
  rw [(tsEncodeMessage_eq_line message).1, List.length_append] at hfits
  exact hfits

/-- A round that returns has cut off the first line that is due. -/
theorem recvRound_returns {errorSize : ℕ} {due : List (ℕ × TsMessage)}
    {buffer future rest : Bytes} {result : Except Bytes TsMessage}
    (hfits : ∀ call ∈ due, (tsEncodeMessage call.2).length ≤ tsMaxLineBytes)
    (hstream : buffer ++ future = framed 10 (linesOf due))
    (hround : recvRound errorSize buffer = .returns result rest) :
    ∃ call due', due = call :: due' ∧ result = tsDecodeMessage errorSize (lineOf call.2) ∧
      rest ++ future = framed 10 (linesOf due') := by
  cases due with
  | nil =>
    rw [(List.append_eq_nil_iff.mp hstream).1] at hround
    cases hround
  | cons call due =>
    rw [linesOf, List.map_cons, framed_cons] at hstream
    rcases recvRound_line (tsEncodeMessage_eq_line call.2).2
      (length_lineOf (hfits call List.mem_cons_self)) errorSize hstream with
      ⟨rest', -, hrest, hreturns⟩ | ⟨-, -, hreads⟩
    · obtain ⟨rfl, rfl⟩ := RecvRound.returns.inj (hreturns.symm.trans hround)
      exact ⟨call, due, rfl, rfl, hrest⟩
    · exact absurd (hreads.symm.trans hround) (by simp)

/-- A line that is complete in the buffer is the first one that is due, and the round returns it. -/
theorem recvRound_complete {errorSize : ℕ} {due : List (ℕ × TsMessage)}
    {buffer future line rest : Bytes}
    (hfits : ∀ call ∈ due, (tsEncodeMessage call.2).length ≤ tsMaxLineBytes)
    (hstream : buffer ++ future = framed 10 (linesOf due)) (hline : (10 : UInt8) ∉ line)
    (hbuffer : buffer = line ++ 10 :: rest) :
    ∃ call due', due = call :: due' ∧ line = lineOf call.2 ∧
      recvRound errorSize buffer = .returns (tsDecodeMessage errorSize line) rest := by
  have hcut : cutLine 10 buffer = some (line, rest) := by rw [hbuffer, cutLine_append hline]
  cases due with
  | nil =>
    rw [(List.append_eq_nil_iff.mp hstream).1] at hcut
    cases hcut
  | cons call due =>
    rw [linesOf, List.map_cons, framed_cons] at hstream
    rcases recvRound_line (tsEncodeMessage_eq_line call.2).2
      (length_lineOf (hfits call List.mem_cons_self)) errorSize hstream with
      ⟨rest', hcut', -, hreturns⟩ | ⟨hnone, -, -⟩
    · obtain ⟨rfl, rfl⟩ := Prod.mk.inj (Option.some.inj (hcut'.symm.trans hcut))
      exact ⟨call, due, rfl, rfl, hreturns⟩
    · exact absurd (hnone.symm.trans hcut) (Option.some_ne_none _).symm

/-- While no whole line is buffered, there is room to read. -/
theorem recvRound_reads {errorSize : ℕ} {due : List (ℕ × TsMessage)} {buffer future : Bytes}
    (hfits : ∀ call ∈ due, (tsEncodeMessage call.2).length ≤ tsMaxLineBytes)
    (hstream : buffer ++ future = framed 10 (linesOf due)) (hcut : cutLine 10 buffer = none) :
    ∃ room > 0, recvRound errorSize buffer = .reads room := by
  cases due with
  | nil =>
    rw [(List.append_eq_nil_iff.mp hstream).1]
    exact ⟨tsMaxLineBytes, by decide, rfl⟩
  | cons call due =>
    rw [linesOf, List.map_cons, framed_cons] at hstream
    have hlength := length_lineOf (hfits call List.mem_cons_self)
    rcases recvRound_line (tsEncodeMessage_eq_line call.2).2 hlength errorSize hstream with
      ⟨rest', hcut', -, -⟩ | ⟨-, hle, hreads⟩
    · exact absurd (hcut.symm.trans hcut') (by simp)
    · exact ⟨_, by omega, hreads⟩

/-! ## The invariant of a run -/

namespace TransportSys

/-- The outcomes of a step. -/
inductive StepOutcome (errorSize : ℕ) (s : TransportSys) : TransportAction → TransportSys → Prop
  | call (i : ℕ) (message : TsMessage) (hthread : s.threads i = .idle) :
      StepOutcome errorSize s (.call i message) { s with
        threads := Function.update s.threads i (.locking message)
        calls := s.calls ++ [(i, message)] }
  | lock (i : ℕ) (message : TsMessage) (hthread : s.threads i = .locking message)
      (hfree : s.sendLock = none) :
      StepOutcome errorSize s (.lock i) { s with
        sendLock := some i
        threads := Function.update s.threads i (.writing message (tsEncodeMessage message))
        locked := s.locked ++ [(i, message)] }
  | write (i n : ℕ) (message : TsMessage) (rest : Bytes)
      (hthread : s.threads i = .writing message rest) :
      StepOutcome errorSize s (.write i n) { s with
        socket := s.socket ++ rest.take n
        threads := Function.update s.threads i (.writing message (rest.drop n)) }
  | unlock (i : ℕ) (message : TsMessage) (hthread : s.threads i = .writing message []) :
      StepOutcome errorSize s (.unlock i) { s with
        sendLock := none
        threads := Function.update s.threads i .idle }
  | result (n : ℕ) (result : Except Bytes TsMessage) (rest : Bytes)
      (hround : recvRound errorSize s.buffer = .returns result rest) :
      StepOutcome errorSize s (.recv n) { s with
        buffer := rest
        received := s.received ++ [result] }
  | read (n room : ℕ) (hround : recvRound errorSize s.buffer = .reads room) :
      StepOutcome errorSize s (.recv n) { s with
        socket := s.socket.drop n
        buffer := s.buffer ++ s.socket.take n }

theorem stepOutcome {errorSize : ℕ} {s s' : TransportSys} {a : TransportAction}
    (h : s.step errorSize a = some s') : StepOutcome errorSize s a s' := by
  cases a with
  | call i message =>
    simp only [step] at h
    split at h
    · rename_i hthread
      obtain rfl := Option.some.inj h
      exact .call i message hthread
    · cases h
  | lock i =>
    simp only [step] at h
    split at h
    · rename_i message hthread
      split_ifs at h with hfree
      obtain rfl := Option.some.inj h
      exact .lock i message hthread hfree
    · cases h
  | write i n =>
    simp only [step] at h
    split at h
    · rename_i message rest hthread
      split_ifs at h with hn
      obtain rfl := Option.some.inj h
      exact .write i n message rest hthread
    · cases h
  | unlock i =>
    simp only [step] at h
    split at h
    · rename_i message hthread
      obtain rfl := Option.some.inj h
      exact .unlock i message hthread
    · cases h
  | recv n =>
    simp only [step] at h
    split at h
    · rename_i result rest hround
      obtain rfl := Option.some.inj h
      exact .result n result rest hround
    · rename_i room hround
      split_ifs at h with hn
      obtain rfl := Option.some.inj h
      exact .read n room hround

end TransportSys

/-- What a thread still has to write. -/
def SendPhase.rest : SendPhase → Bytes
  | .writing _ rest => rest
  | _ => []

/-- The call of a thread that waits for the lock. -/
def SendPhase.waiting (i : ℕ) : SendPhase → List (ℕ × TsMessage)
  | .locking message => [(i, message)]
  | _ => []

namespace TransportSys

/-- What the owner of the lock still has to write. -/
def unwritten (s : TransportSys) : Bytes :=
  match s.sendLock with
  | none => []
  | some i => (s.threads i).rest

/-- What holds in every state: what has been written and not been cut off is the stream of the lines
that are due, and only the owner of the lock is writing. -/
structure Inv (errorSize : ℕ) (s : TransportSys) : Prop where
  stream : ∃ done due, s.locked = done ++ due ∧ s.received = decoded errorSize done ∧
    s.buffer ++ s.socket ++ s.unwritten = framed 10 (linesOf due)
  owner : ∀ i message rest, s.threads i = .writing message rest → s.sendLock = some i
  owned : ∀ i, s.sendLock = some i → ∃ message rest, s.threads i = .writing message rest
  calls : ∀ i, callsBy i s.calls = callsBy i s.locked ++ (s.threads i).waiting i
  fits : ∀ call ∈ s.calls, (tsEncodeMessage call.2).length ≤ tsMaxLineBytes

theorem inv_init (errorSize : ℕ) : Inv errorSize init where
  stream := ⟨[], [], rfl, rfl, rfl⟩
  owner i message rest h := by cases h
  owned i h := by cases h
  calls i := rfl
  fits call h := absurd h List.not_mem_nil

/-- A thread that is writing holds the lock, so it is the one that still has to write. -/
theorem Inv.unwritten_eq {errorSize : ℕ} {s : TransportSys} (h : Inv errorSize s) {i : ℕ}
    {message : TsMessage} {rest : Bytes} (hthread : s.threads i = .writing message rest) :
    s.unwritten = rest := by
  rw [unwritten, h.owner i message rest hthread]
  simp only [hthread, SendPhase.rest]

theorem callsBy_concat (i j : ℕ) (calls : List (ℕ × TsMessage)) (message : TsMessage) :
    callsBy i (calls ++ [(j, message)]) =
      callsBy i calls ++ if j = i then [(j, message)] else [] := by
  simp only [callsBy, List.filter_append, List.filter_cons, List.filter_nil, decide_eq_true_eq]

theorem Inv.call {errorSize : ℕ} {s : TransportSys} (h : Inv errorSize s) {i : ℕ}
    {message : TsMessage} (hthread : s.threads i = .idle)
    (hfits : (tsEncodeMessage message).length ≤ tsMaxLineBytes) :
    Inv errorSize { s with
      threads := Function.update s.threads i (.locking message)
      calls := s.calls ++ [(i, message)] } := by
  have howner : ∀ j, s.sendLock = some j → j ≠ i := by
    rintro j hj rfl
    obtain ⟨m, rest, hwriting⟩ := h.owned j hj
    exact absurd (hthread.symm.trans hwriting) (by simp)
  refine ⟨?_, fun j m rest hj => ?_, fun j hj => ?_, fun j => ?_, fun call hcall => ?_⟩
  · obtain ⟨done, due, hlocked, hreceived, hstream⟩ := h.stream
    refine ⟨done, due, hlocked, hreceived, ?_⟩
    rw [← hstream]
    cases hlock : s.sendLock with
    | none => simp only [unwritten, hlock]
    | some j => simp only [unwritten, hlock, Function.update_of_ne (howner j hlock)]
  · by_cases hji : j = i
    · simp only [hji, Function.update_self, reduceCtorEq] at hj
    · simp only [Function.update_of_ne hji] at hj
      exact h.owner j m rest hj
  · obtain ⟨m, rest, hwriting⟩ := h.owned j hj
    exact ⟨m, rest, by simp only [Function.update_of_ne (howner j hj), hwriting]⟩
  · simp only [callsBy_concat, h.calls j]
    by_cases hji : j = i
    · simp [hji, hthread, SendPhase.waiting]
    · simp [Function.update_of_ne hji, Ne.symm hji]
  · rcases List.mem_append.mp hcall with hcall | hcall
    · exact h.fits call hcall
    · rw [List.mem_singleton.mp hcall]
      exact hfits

theorem Inv.lock {errorSize : ℕ} {s : TransportSys} (h : Inv errorSize s) {i : ℕ}
    {message : TsMessage} (hthread : s.threads i = .locking message) (hfree : s.sendLock = none) :
    Inv errorSize { s with
      sendLock := some i
      threads := Function.update s.threads i (.writing message (tsEncodeMessage message))
      locked := s.locked ++ [(i, message)] } := by
  refine ⟨?_, fun j m rest hj => ?_, fun j hj => ?_, fun j => ?_, h.fits⟩
  · obtain ⟨done, due, hlocked, hreceived, hstream⟩ := h.stream
    have hunwritten : s.unwritten = [] := by rw [unwritten, hfree]
    rw [hunwritten, List.append_nil] at hstream
    refine ⟨done, due ++ [(i, message)], by rw [hlocked, List.append_assoc], hreceived, ?_⟩
    simp only [unwritten, Function.update_self, SendPhase.rest]
    rw [hstream, framed_linesOf_concat]
  · by_cases hji : j = i
    · simp only [hji]
    · simp only [Function.update_of_ne hji] at hj
      exact absurd (hfree.symm.trans (h.owner j m rest hj)) (by simp)
  · obtain rfl := Option.some.inj hj
    exact ⟨message, _, Function.update_self ..⟩
  · simp only [h.calls j, callsBy_concat]
    by_cases hji : j = i
    · simp [hji, hthread, SendPhase.waiting]
    · simp [Function.update_of_ne hji, Ne.symm hji]

/-- The owner of the lock goes on writing. -/
theorem Inv.write {errorSize : ℕ} {s : TransportSys} (h : Inv errorSize s) {i : ℕ}
    {message : TsMessage} {rest : Bytes} (hthread : s.threads i = .writing message rest) (n : ℕ) :
    Inv errorSize { s with
      socket := s.socket ++ rest.take n
      threads := Function.update s.threads i (.writing message (rest.drop n)) } := by
  have hlock := h.owner i message rest hthread
  refine ⟨?_, fun j m rest' hj => ?_, fun j hj => ?_, fun j => ?_, h.fits⟩
  · obtain ⟨done, due, hlocked, hreceived, hstream⟩ := h.stream
    refine ⟨done, due, hlocked, hreceived, ?_⟩
    rw [← hstream, h.unwritten_eq hthread]
    simp only [unwritten, hlock, Function.update_self, SendPhase.rest, List.append_assoc,
      List.take_append_drop]
  · by_cases hji : j = i
    · simp only [hji, hlock]
    · simp only [Function.update_of_ne hji] at hj
      exact h.owner j m rest' hj
  · obtain rfl := Option.some.inj (hj.symm.trans hlock)
    exact ⟨message, _, Function.update_self ..⟩
  · simp only [h.calls j]
    by_cases hji : j = i
    · simp [hji, hthread, SendPhase.waiting]
    · simp [Function.update_of_ne hji]

theorem Inv.unlock {errorSize : ℕ} {s : TransportSys} (h : Inv errorSize s) {i : ℕ}
    {message : TsMessage} (hthread : s.threads i = .writing message []) :
    Inv errorSize { s with sendLock := none, threads := Function.update s.threads i .idle } := by
  have hlock := h.owner i message [] hthread
  refine ⟨?_, fun j m rest hj => ?_, fun j hj => ?_, fun j => ?_, h.fits⟩
  · obtain ⟨done, due, hlocked, hreceived, hstream⟩ := h.stream
    refine ⟨done, due, hlocked, hreceived, ?_⟩
    rw [← hstream, h.unwritten_eq hthread]
    rfl
  · by_cases hji : j = i
    · simp only [hji, Function.update_self, reduceCtorEq] at hj
    · simp only [Function.update_of_ne hji] at hj
      have := Option.some.inj ((h.owner j m rest hj).symm.trans hlock)
      exact absurd this hji
  · cases hj
  · simp only [h.calls j]
    by_cases hji : j = i
    · simp [hji, hthread, SendPhase.waiting]
    · simp [Function.update_of_ne hji]

/-- Every call that got the lock was made. -/
theorem Inv.mem_calls {errorSize : ℕ} {s : TransportSys} (h : Inv errorSize s)
    {call : ℕ × TsMessage} (hcall : call ∈ s.locked) : call ∈ s.calls := by
  have hmem : call ∈ callsBy call.1 s.calls := by
    rw [h.calls]
    exact List.mem_append_left _ (List.mem_filter.mpr ⟨hcall, decide_eq_true rfl⟩)
  exact (List.mem_filter.mp hmem).1

/-- The calls whose lines are due. -/
theorem Inv.due_fits {errorSize : ℕ} {s : TransportSys} (h : Inv errorSize s)
    {done due : List (ℕ × TsMessage)} (hlocked : s.locked = done ++ due) :
    ∀ call ∈ due, (tsEncodeMessage call.2).length ≤ tsMaxLineBytes := fun call hcall =>
  h.fits call (h.mem_calls (hlocked ▸ List.mem_append_right _ hcall))

theorem Inv.result {errorSize : ℕ} {s : TransportSys} (h : Inv errorSize s)
    {result : Except Bytes TsMessage} {rest : Bytes}
    (hround : recvRound errorSize s.buffer = .returns result rest) :
    Inv errorSize { s with buffer := rest, received := s.received ++ [result] } := by
  refine { h with stream := ?_ }
  obtain ⟨done, due, hlocked, hreceived, hstream⟩ := h.stream
  rw [List.append_assoc] at hstream
  obtain ⟨call, due', rfl, hresult, hrest⟩ :=
    recvRound_returns (h.due_fits hlocked) hstream hround
  refine ⟨done ++ [call], due', by rw [hlocked, List.append_assoc]; rfl, ?_, ?_⟩
  · simp only [hreceived, hresult, decoded, List.map_append]
    rfl
  · rw [← List.append_assoc] at hrest
    exact hrest

theorem Inv.read {errorSize : ℕ} {s : TransportSys} (h : Inv errorSize s) (n : ℕ) :
    Inv errorSize { s with socket := s.socket.drop n, buffer := s.buffer ++ s.socket.take n } := by
  refine { h with stream := ?_ }
  obtain ⟨done, due, hlocked, hreceived, hstream⟩ := h.stream
  refine ⟨done, due, hlocked, hreceived, ?_⟩
  rw [← hstream]
  have hsplit := List.take_append_drop n s.socket
  simp only [unwritten, List.append_assoc]
  rw [← List.append_assoc (s.socket.take n), hsplit]

theorem Inv.step {errorSize : ℕ} {s s' : TransportSys} {a : TransportAction} (h : Inv errorSize s)
    (hfits : a.Fits) (hstep : s.step errorSize a = some s') : Inv errorSize s' := by
  cases stepOutcome hstep with
  | call i message hthread => exact h.call hthread hfits
  | lock i message hthread hfree => exact h.lock hthread hfree
  | write i n message rest hthread => exact h.write hthread n
  | unlock i message hthread => exact h.unlock hthread
  | result n result rest hround => exact h.result hround
  | read n room hround => exact h.read n

theorem Inv.framed {errorSize : ℕ} {s : TransportSys} (h : Inv errorSize s) :
    s.Framed errorSize := by
  obtain ⟨done, due, hlocked, hreceived, hstream⟩ := h.stream
  have hfits := h.due_fits hlocked
  have hdue := hstream
  rw [List.append_assoc] at hdue
  refine ⟨?_, fun i => ?_, fun i hidle => ?_, fun line rest hline hbuffer => ?_, fun hnone => ?_,
    fun hidle hsocket ⟨room, hreads⟩ => ?_⟩
  · rw [hreceived, hlocked, decoded, decoded, List.map_append]
    exact List.prefix_append _ _
  · rw [h.calls i]
    exact List.prefix_append _ _
  · rw [h.calls i, hidle]
    exact (List.append_nil _).symm
  · obtain ⟨call, due', rfl, rfl, hreturns⟩ := recvRound_complete hfits hdue hline hbuffer
    refine ⟨hreturns, ?_⟩
    rw [hreceived, hlocked, decoded, decoded, List.map_append, List.map_cons]
    exact (List.prefix_append_right_inj _).mpr (List.prefix_append [_] _)
  · exact recvRound_reads hfits hdue (cutLine_eq_none.mpr hnone)
  · have hunlocked : s.sendLock = none := by
      rw [Option.eq_none_iff_forall_ne_some]
      intro i hi
      obtain ⟨m, rest, hwriting⟩ := h.owned i hi
      exact absurd ((hidle i).symm.trans hwriting) (by simp)
    have hbuffer : s.buffer = Foundations.framed 10 (linesOf due) := by
      rw [← hstream, hsocket, unwritten, hunlocked, List.append_nil, List.append_nil]
    cases due with
    | nil => rw [hreceived, hlocked, List.append_nil]
    | cons call due =>
      -- the receiver would not wait, since a line is complete
      have hline := (tsEncodeMessage_eq_line call.2).2.not_mem
      obtain ⟨-, -, -, -, hreturns⟩ := @recvRound_complete errorSize _ _ _ _ _ hfits hdue hline
        (by rw [hbuffer, linesOf, List.map_cons, framed_cons])
      exact absurd (hreads.symm.trans hreturns) (by simp)

/-- Framing: for every way the writes and the reads are split and interrupted, the receiver gets the
lines that were sent, each once and whole, in the order of the lock, and it waits for no line that it has
got already. -/
theorem transport_framing (errorSize : ℕ) (actions : List TransportAction) (s : TransportSys)
    (hfits : ∀ a ∈ actions, a.Fits) (hrun : run (step errorSize) init actions = some s) :
    s.Framed errorSize :=
  (run_invariant_of_guarded (fun _ _ _ hinv hgood hstep => hinv.step hgood hstep)
    (inv_init errorSize) (Guarded.of_forall hfits) hrun).framed

/-- Two threads whose lines are written in pieces; the second waits for the lock, and a read ends in
the middle of its line. -/
def twoSenders : List TransportAction :=
  [.call 0 { tsMessageInit with type := bytes "SAVE" },
    .call 1 { tsMessageInit with type := bytes "SYNC" }, .lock 0, .write 0 3, .write 0 0,
    .write 0 13, .recv 0, .unlock 0, .lock 1, .recv 2, .write 1 16, .recv 20, .recv 0, .recv 10,
    .recv 0, .unlock 1]

theorem transport_framing_twoSenders :
    ∃ s, run (step 128) init twoSenders = some s ∧ s.Framed 128 ∧ s.received.length = 2 := by
  have hdone : ((run (step 128) init twoSenders).map fun s => s.received.length) = some 2 := by
    decide +kernel
  obtain ⟨s, hrun, hlength⟩ := Option.map_eq_some_iff.mp hdone
  refine ⟨s, hrun, transport_framing 128 twoSenders s ?_ hrun, hlength⟩
  simp only [twoSenders, List.forall_mem_cons, TransportAction.Fits, List.not_mem_nil,
    false_implies, implies_true, and_true]
  decide +kernel

end TransportSys

end TermSync
