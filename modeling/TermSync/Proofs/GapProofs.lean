import TermSync.Foundations.Runs
import TermSync.Proofs.ClientStateProofs

/-!
# Proofs: no operation is applied over a version gap

The two handlers that apply an authoritative operation have different guards: `handle_remote` compares
the version, `handle_ack` the operation id only. `gapFree_iff` says when that is enough.
-/

namespace TermSync

open Foundations

theorem not_appliesOp_of_stale {state : TsClientState} {message : TsMessage}
    (htype : message.type = typeAck)
    (hmatch : state.inflight.map TsPendingOperation.opId ≠ some message.opId) :
    ¬ AppliesOp state message := by
  rintro (⟨-, h⟩ | ⟨h, -⟩)
  · exact hmatch h
  · exact absurd (htype.symm.trans h) (by decide)

theorem not_appliesOp_of_version {state : TsClientState} {message : TsMessage}
    (htype : message.type = typeRemoteOp) (hversion : message.version ≠ state.version + 1) :
    ¬ AppliesOp state message := by
  rintro (⟨h, -⟩ | ⟨-, h⟩)
  · exact absurd (htype.symm.trans h) (by decide)
  · exact hversion h

/-- A message whose operation is not applied leaves the local copy alone. -/
theorem gapFree_of_not_appliesOp {state state' : TsClientState} {message : TsMessage}
    {sent : List TsMessage} (happlies : ¬ AppliesOp state message)
    (hframe : state'.content = state.content ∧ state'.version = state.version)
    (hgap : message.type = typeRemoteOp → state.version + 1 < message.version →
      requestDoc ∈ sent) : GapFree state message state' sent where
  next h := absurd h happlies
  other _ := hframe
  gap := hgap

/-- Handling an ACK or a REMOTE_OP respects the version gap unless it is an ACK of the operation in
flight that does not have the next version. -/
theorem gapFree_iff {state state' : TsClientState} {message : TsMessage} {sent : List TsMessage}
    (hm : OpMessage message)
    (h : tsClientStateHandleMessage state message = some (state', sent)) :
    GapFree state message state' sent ↔ AckIsNext state (.receive message) := by
  constructor
  · intro hfree _ htype hmatch
    exact (hfree.next (Or.inl ⟨htype, hmatch⟩)).1
  intro hnext
  obtain ⟨htype, hop, hversion⟩ := hm
  have hother : ∀ t, message.type = t → t ≠ typeAck → t ≠ typeRemoteOp → False := by
    rintro t rfl hack hremote
    exact htype.elim hack hremote
  generalize hout : (state', sent) = out at h
  cases handleOutcome h with
  | docState hdoc => exact (hother _ hdoc (by decide) (by decide)).elim
  | welcome hwelcome => exact (hother _ hwelcome (by decide) (by decide)).elim
  | resync hresync => exact (hother _ hresync (by decide) (by decide)).elim
  | other _ hack hremote => exact (htype.elim hack hremote).elim
  | ack hack applied status hmatch happly =>
    obtain ⟨content, hcontent, rfl⟩ := applyAuthoritativeOp_eq happly hop hversion
    obtain rfl := congrArg Prod.fst hout
    refine ⟨fun _ => ⟨hnext ⟨Or.inl hack, hop, hversion⟩ hack hmatch, ?_, ?_⟩,
      fun happlies => absurd (Or.inl ⟨hack, hmatch⟩) happlies, fun hremote => ?_⟩
    · exact statePump_version _
    · simp only [statePump_content]
      exact hcontent
    · exact absurd (hack.symm.trans hremote) (by decide)
  | remote hremote applied status hnextVersion happly =>
    obtain ⟨content, hcontent, rfl⟩ := applyAuthoritativeOp_eq happly hop hversion
    obtain rfl := congrArg Prod.fst hout
    exact ⟨fun _ => ⟨hnextVersion, rfl, hcontent⟩,
      fun happlies => absurd (Or.inr ⟨hremote, hnextVersion⟩) happlies, fun _ hgap => by omega⟩
  | staleAck hack status hmatch =>
    obtain rfl := congrArg Prod.fst hout
    exact gapFree_of_not_appliesOp (not_appliesOp_of_stale hack hmatch) ⟨rfl, rfl⟩
      fun hremote => absurd (hack.symm.trans hremote) (by decide)
  | oldRemote hremote hold =>
    obtain rfl := congrArg Prod.fst hout
    exact gapFree_of_not_appliesOp (not_appliesOp_of_version hremote (by omega)) ⟨rfl, rfl⟩
      fun _ hgap => by omega
  | missedRemote hremote status hgap =>
    obtain rfl := congrArg Prod.fst hout
    obtain rfl := congrArg Prod.snd hout
    exact gapFree_of_not_appliesOp (not_appliesOp_of_version hremote (by omega)) ⟨rfl, rfl⟩
      fun _ _ => List.mem_singleton.mpr rfl

/-- In a run of a client, no ACK and no REMOTE_OP is applied over a version gap if and only if every
ACK of the operation in flight has the next version. -/
theorem gapFree_run_iff (clientId : Bytes) (inputs : List ClientInput) (final : TsClientState)
    (hrun : run clientStep (tsClientStateInit clientId) inputs = some final) :
    (∀ before message after state state' sent, inputs = before ++ .receive message :: after →
      run clientStep (tsClientStateInit clientId) before = some state → OpMessage message →
      tsClientStateHandleMessage state message = some (state', sent) →
        GapFree state message state' sent) ↔
      Guarded clientStep AckIsNext (tsClientStateInit clientId) inputs := by
  rw [guarded_iff]
  constructor
  · rintro hfree before input after state rfl hbefore
    cases input with
    | queue op => trivial
    | receive message =>
      intro hm
      obtain ⟨t, ht, hrest⟩ := run_append_some.mp hrun
      obtain rfl : t = state := Option.some.inj (ht.symm.trans hbefore)
      obtain ⟨next, hnext, -⟩ := run_cons_some.mp hrest
      obtain ⟨out, hout, -⟩ := Option.map_eq_some_iff.mp hnext
      exact (gapFree_iff hm hout).mp (hfree before message after t out.1 out.2 rfl ht hm hout) hm
  · intro hguard before message after state state' sent heq hbefore hm hhandle
    exact (gapFree_iff hm hhandle).mpr (hguard before (.receive message) after state heq hbefore)

/-- An ACK that follows a remote operation the client has seen. -/
def remoteThenAck : List ClientInput :=
  [.queue (tsOperationInit .insert 0 (bytes "x")),
    .receive { tsMessageInit with
      type := typeRemoteOp
      version := 1
      op := tsOperationInit .insert 0 (bytes "y")
      hasOp := true },
    .receive { tsMessageInit with
      type := typeAck
      opId := bytes "u1-1"
      version := 2
      op := tsOperationInit .insert 1 (bytes "x")
      hasOp := true }]

theorem gapFree_run_remoteThenAck :
    Guarded clientStep AckIsNext (tsClientStateInit (bytes "u1")) remoteThenAck ∧
    ∀ before message after state state' sent, remoteThenAck = before ++ .receive message :: after →
      run clientStep (tsClientStateInit (bytes "u1")) before = some state → OpMessage message →
      tsClientStateHandleMessage state message = some (state', sent) →
        GapFree state message state' sent := by
  have hguard : Guarded clientStep AckIsNext (tsClientStateInit (bytes "u1")) remoteThenAck := by
    decide
  have hsome : (run clientStep (tsClientStateInit (bytes "u1")) remoteThenAck).isSome = true := by
    decide
  obtain ⟨final, hrun⟩ := Option.isSome_iff_exists.mp hsome
  exact ⟨hguard, (gapFree_run_iff (bytes "u1") remoteThenAck final hrun).mpr hguard⟩

/-- The ACK of version 2 arrives before the remote operation of version 1. -/
theorem not_gapFree_earlyAck :
    ¬ ∀ (clientId : Bytes) (inputs : List ClientInput) (state state' : TsClientState)
      (message : TsMessage) (sent : List TsMessage),
      run clientStep (tsClientStateInit clientId) inputs = some state → OpMessage message →
      tsClientStateHandleMessage state message = some (state', sent) →
        GapFree state message state' sent := by
  intro h
  let early : TsMessage :=
    { tsMessageInit with
      type := typeAck
      opId := bytes "u1-1"
      version := 2
      op := tsOperationInit .insert 1 (bytes "x")
      hasOp := true }
  have hany : (run clientStep (tsClientStateInit (bytes "u1"))
      [.queue (tsOperationInit .insert 0 (bytes "x"))]).any (fun state => decide
        (¬ AckIsNext state (.receive early) ∧
          (tsClientStateHandleMessage state early).isSome = true)) = true := by decide
  obtain ⟨state, hrun, hcond⟩ := (Option.any_eq_true _ _).mp hany
  obtain ⟨hnot, hsome⟩ := of_decide_eq_true hcond
  obtain ⟨⟨state', sent⟩, hhandle⟩ := Option.isSome_iff_exists.mp hsome
  have hm : OpMessage early := by decide
  exact hnot ((gapFree_iff hm hhandle).mp (h _ _ _ _ _ _ hrun hm hhandle))

end TermSync
