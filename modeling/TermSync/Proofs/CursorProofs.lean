import TermSync.Terminal
import TermSync.Proofs.ClientStateProofs

/-!
# Proofs: the cursor and the estimated length

The cursor is clamped after every message, and a key moves it along with the length it estimates. That
keeps it inside the projected document as long as the estimate is not negative when a character is
inserted (`cursor_inside_iff`): the projected length is cut off at zero, the sum behind it is not.
-/

namespace TermSync

open Foundations

/-! ## The estimate -/

theorem estimatedLength_eq (client : TerminalClient) :
    estimatedLength client = tsUtf8CharCount client.state.content +
      ((pendingOps client.state).map pendingOperationDelta).sum := by
  rw [estimatedLength, pendingOps, pending, List.map_map, List.map_map]
  rfl

theorem foldl_pendingOperationDelta (queue : List TsPendingOperation) (len : ℤ) :
    queue.foldl (fun len p => len + pendingOperationDelta p.op) len =
      len + (queue.map fun p => pendingOperationDelta p.op).sum := by
  induction queue generalizing len with
  | nil => simp
  | cons p queue ih => rw [List.foldl_cons, ih, List.map_cons, List.sum_cons, add_assoc]

theorem projectedContentLength_eq_toNat (client : TerminalClient) :
    projectedContentLength client = (estimatedLength client).toNat := by
  simp only [projectedContentLength, foldl_pendingOperationDelta, estimatedLength]
  cases client.state.inflight with
  | none =>
    simp only [Option.toList_none, List.nil_append]
    split_ifs <;> omega
  | some p =>
    simp only [Option.toList_some, List.singleton_append, List.map_cons, List.sum_cons]
    split_ifs <;> omega

/-- Queueing an operation changes the estimate by its delta. -/
theorem estimatedLength_queueOperation (client : TerminalClient) {op : TsOperation}
    {out : TsClientState × List TsMessage} (cursorPos : ℕ) (running : Bool)
    (h : tsClientStateQueueOperation client.state op = some out) :
    estimatedLength ⟨out.1, cursorPos, running⟩ =
      estimatedLength client + pendingOperationDelta op := by
  obtain ⟨-, status, rfl⟩ := queueOperation_eq h
  rw [estimatedLength_eq, estimatedLength_eq, pendingOps, pending_statePump, statePump_content]
  simp [pendingOps, pending, newPending, add_assoc]

/-! ## One input -/

/-- What a key can do: move the cursor, insert at it, or delete before it. -/
inductive KeyOutcome (iswprint : Char → Bool) (client : TerminalClient) (key : TerminalKey) :
    TerminalClient × Option TerminalCall → Prop
  | move (cursorPos : ℕ) (running : Bool) (call : Option TerminalCall)
      (hins : ¬ key.Inserts iswprint)
      (hcall : ∀ moved : TerminalClient, moved.perform call = some moved)
      (hcursor : cursorPos ≤ client.cursorPos ∨ cursorPos ≤ projectedContentLength client) :
      KeyOutcome iswprint client key
        ({ client with cursorPos := cursorPos, running := running }, call)
  | insert (utf8 : Bytes) (hins : key.Inserts iswprint) :
      KeyOutcome iswprint client key (queueInsert client utf8)
  | delete (hins : ¬ key.Inserts iswprint) (hpos : client.cursorPos ≠ 0) :
      KeyOutcome iswprint client key
        ({ client with cursorPos := client.cursorPos - 1 },
          some (.queueOperation (tsOperationInit .delete (client.cursorPos - 1) [])))

theorem keyOutcome_stay {iswprint : Char → Bool} {client : TerminalClient} {key : TerminalKey}
    (hins : ¬ key.Inserts iswprint) : KeyOutcome iswprint client key (client, none) :=
  .move client.cursorPos client.running none hins (fun _ => rfl) (Or.inl le_rfl)

theorem keyOutcome_delete {iswprint : Char → Bool} {client : TerminalClient} {key : TerminalKey}
    (hins : ¬ key.Inserts iswprint) : KeyOutcome iswprint client key (deleteBeforeCursor client) := by
  unfold deleteBeforeCursor
  by_cases hpos : client.cursorPos = 0
  · rw [if_pos hpos]
    exact keyOutcome_stay hins
  · rw [if_neg hpos]
    exact .delete hins hpos

theorem keyOutcome (iswprint : Char → Bool) (client : TerminalClient) (key : TerminalKey) :
    KeyOutcome iswprint client key (handleKey iswprint client key) := by
  unfold handleKey
  cases key with
  | left =>
    dsimp only
    split_ifs
    · exact .move _ client.running none id (fun _ => rfl) (Or.inl (Nat.sub_le _ _))
    · exact keyOutcome_stay id
  | right =>
    dsimp only
    split_ifs with hlt
    · exact .move _ client.running none id (fun _ => rfl) (Or.inr hlt)
    · exact keyOutcome_stay id
  | backspace => exact keyOutcome_delete id
  | char c =>
    dsimp only
    split_ifs with hquit hsave henter hdelete hprint
    · exact .move client.cursorPos false none (fun h => h.1 hquit) (fun _ => rfl) (Or.inl le_rfl)
    · exact .move client.cursorPos client.running (some .sendSave) (fun h => h.2.1 hsave)
        (fun _ => rfl) (Or.inl le_rfl)
    · exact .insert _ ⟨hquit, hsave, by tauto⟩
    · exact keyOutcome_delete fun h => by
        obtain ⟨-, -, h⟩ := h
        tauto
    · exact .insert _ ⟨hquit, hsave, by tauto⟩
    · exact keyOutcome_stay fun h => by
        obtain ⟨-, -, h⟩ := h
        tauto

/-- The cursor stays inside with every input but an insertion over a negative estimate. -/
theorem cursor_inside_step_iff {iswprint : Char → Bool} {client client' : TerminalClient}
    {input : TerminalInput} (h : client.cursorPos ≤ projectedContentLength client)
    (hstep : terminalStep iswprint client input = some client') :
    client'.cursorPos ≤ projectedContentLength client' ↔ InsertsInside iswprint client input := by
  cases input with
  | receive message =>
    obtain ⟨out, -, rfl⟩ := Option.map_eq_some_iff.mp hstep
    refine iff_of_true ?_ trivial
    unfold clampCursorToProjectedContent
    dsimp only
    split_ifs with hgt
    · exact le_rfl
    · exact not_lt.mp hgt
  | press key =>
    unfold terminalStep at hstep
    dsimp only at hstep
    split_ifs at hstep
    have houtcome := keyOutcome iswprint client key
    revert hstep houtcome
    generalize handleKey iswprint client key = result
    intro hstep houtcome
    cases houtcome with
    | move cursorPos running call hins hcall hcursor =>
      rw [hcall] at hstep
      obtain rfl := Option.some.inj hstep
      have hinside : cursorPos ≤ projectedContentLength client :=
        hcursor.elim (fun hle => hle.trans h) id
      exact iff_of_true hinside fun hinserts => absurd hinserts hins
    | insert utf8 hins =>
      obtain ⟨out, hout, rfl⟩ := Option.map_eq_some_iff.mp hstep
      have hlength := estimatedLength_queueOperation client (client.cursorPos + 1) client.running hout
      rw [projectedContentLength_eq_toNat] at h ⊢
      simp only [queueInsert, InsertsInside, hins, true_implies] at hlength ⊢
      rw [hlength]
      simp only [pendingOperationDelta, tsOperationInit]
      omega
    | delete hins hpos =>
      obtain ⟨out, hout, rfl⟩ := Option.map_eq_some_iff.mp hstep
      have hlength := estimatedLength_queueOperation client (client.cursorPos - 1) client.running hout
      refine iff_of_true ?_ fun hinserts => absurd hinserts hins
      rw [projectedContentLength_eq_toNat] at h ⊢
      simp only at hlength ⊢
      rw [hlength]
      simp only [pendingOperationDelta, tsOperationInit]
      omega

/-! ## Runs -/

/-- In a run of a terminal the cursor stays inside the projected document if and only if no key
inserts while the estimated length is negative. -/
theorem cursor_inside_iff (iswprint : Char → Bool) (clientId : Bytes) (inputs : List TerminalInput)
    (final : TerminalClient)
    (hrun : run (terminalStep iswprint) (TerminalClient.init clientId) inputs = some final) :
    (∀ before after client, inputs = before ++ after →
      run (terminalStep iswprint) (TerminalClient.init clientId) before = some client →
        client.cursorPos ≤ projectedContentLength client) ↔
      Guarded (terminalStep iswprint) (InsertsInside iswprint) (TerminalClient.init clientId)
        inputs := by
  constructor
  · intro hinside
    rw [guarded_iff]
    rintro before input after client rfl hbefore
    obtain ⟨t, ht, hrest⟩ := run_append_some.mp hrun
    obtain rfl : t = client := Option.some.inj (ht.symm.trans hbefore)
    obtain ⟨next, hnext, -⟩ := run_cons_some.mp hrest
    have hcursor := hinside before (input :: after) t rfl hbefore
    have hcursor' := hinside (before ++ [input]) after next (by simp)
      (run_concat_some.mpr ⟨t, ht, hnext⟩)
    exact (cursor_inside_step_iff hcursor hnext).mp hcursor'
  · rintro hguard before after client rfl hbefore
    exact run_invariant_of_guarded
      (fun _ _ _ hcursor hgood hstep => (cursor_inside_step_iff hcursor hstep).mpr hgood)
      (Nat.zero_le _) hguard.append_left hbefore

/-- Another client deletes the character of the document. -/
def otherDelete : TsMessage :=
  { tsMessageInit with
    type := typeRemoteOp
    version := 1
    op := tsOperationInit .delete 0 []
    hasOp := true }

/-- The document `a` arrives, and the user deletes its character. -/
def deleteOnly : List TerminalInput :=
  [.receive { tsMessageInit with type := typeDocState, version := 0, content := some (bytes "a") },
    .press .right, .press .backspace]

theorem cursor_inside_iff_typing :
    ∃ final, run (terminalStep Char.isAlphanum) (TerminalClient.init (bytes "u1"))
        (deleteOnly ++ [.press (.char 'x'), .receive otherDelete]) = some final ∧
      ∀ before after client,
        deleteOnly ++ [.press (.char 'x'), .receive otherDelete] = before ++ after →
        run (terminalStep Char.isAlphanum) (TerminalClient.init (bytes "u1")) before =
            some client →
          client.cursorPos ≤ projectedContentLength client := by
  have hsome : (run (terminalStep Char.isAlphanum) (TerminalClient.init (bytes "u1"))
      (deleteOnly ++ [.press (.char 'x'), .receive otherDelete])).isSome = true := by
    decide +kernel
  have hguard : Guarded (terminalStep Char.isAlphanum) (InsertsInside Char.isAlphanum)
      (TerminalClient.init (bytes "u1"))
      (deleteOnly ++ [.press (.char 'x'), .receive otherDelete]) := by decide +kernel
  obtain ⟨final, hrun⟩ := Option.isSome_iff_exists.mp hsome
  exact ⟨final, hrun, (cursor_inside_iff Char.isAlphanum (bytes "u1") _ final hrun).mpr hguard⟩

/-- The other client's deletion arrives before the user types: the own deletion no longer takes
anything away, but still counts. -/
theorem not_cursor_inside_deletedTwice :
    ¬ ∀ (iswprint : Char → Bool) (clientId : Bytes) (inputs : List TerminalInput)
      (client : TerminalClient),
      run (terminalStep iswprint) (TerminalClient.init clientId) inputs = some client →
        client.cursorPos ≤ projectedContentLength client := by
  intro h
  have hany : (run (terminalStep Char.isAlphanum) (TerminalClient.init (bytes "u1"))
      (deleteOnly ++ [.receive otherDelete, .press (.char 'x')])).any
        (fun client => decide (client.cursorPos = 1 ∧ projectedContentLength client = 0)) =
      true := by decide +kernel
  obtain ⟨client, hrun, hcond⟩ := (Option.any_eq_true _ _).mp hany
  obtain ⟨hcursor, hlength⟩ := of_decide_eq_true hcond
  have hle := h _ _ _ _ hrun
  omega

end TermSync
