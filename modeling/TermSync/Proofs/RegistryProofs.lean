import TermSync.Registry
import TermSync.Proofs.SystemProofs

/-!
# Proofs: the list of registered connections

Between `choose_client_id` and `register_client` another thread can take the same id. As long as no
thread registers an id that is taken, ids are distinct and removal by id is removal of the own
connection (`intact_run_iff`).
-/

namespace TermSync

open Foundations

namespace Registry

/-- The outcomes of a critical section. -/
inductive StepOutcome (s : Registry) : RegistryAction → Registry → Prop
  | choose (i : ℕ) (requested address clientId : Bytes) (server : TsServer)
      (hthread : s.threads i = .starting)
      (hchoose : chooseClientId s.server requested = some (server, clientId)) :
      StepOutcome s (.choose i requested address)
        ⟨server, Function.update s.threads i (.chosen ⟨i, clientId, address⟩)⟩
  | register (i : ℕ) (client : TsClientConnection) (hthread : s.threads i = .chosen client) :
      StepOutcome s (.register i)
        ⟨registerClient s.server client, Function.update s.threads i (.registered client)⟩
  | unregister (i : ℕ) (client : TsClientConnection) (hthread : s.threads i = .registered client) :
      StepOutcome s (.unregister i)
        ⟨unregisterClient s.server client.clientId, Function.update s.threads i .left⟩

theorem stepOutcome {s s' : Registry} {a : RegistryAction} (h : s.step a = some s') :
    StepOutcome s a s' := by
  cases a with
  | choose i requested address =>
    simp only [step] at h
    split at h
    · rename_i hthread
      obtain ⟨⟨server, clientId⟩, hchoose, hs'⟩ := Option.bind_eq_some_iff.mp h
      obtain rfl := Option.some.inj hs'
      exact .choose i requested address clientId server hthread hchoose
    · cases h
  | register i =>
    simp only [step] at h
    split at h
    · rename_i client hthread
      obtain rfl := Option.some.inj h
      exact .register i client hthread
    · cases h
  | unregister i =>
    simp only [step] at h
    split at h
    · rename_i client hthread
      obtain rfl := Option.some.inj h
      exact .unregister i client hthread
    · cases h

/-- The connection that a thread has chosen an id for. -/
def Owns (phase : RegistryPhase) (client : TsClientConnection) : Prop :=
  phase = .chosen client ∨ phase = .registered client

/-- What holds while no thread registers a taken id. -/
structure Inv (s : Registry) : Prop where
  distinct : (s.server.clients.map TsClientConnection.clientId).Nodup
  registered : ∀ client, client ∈ s.server.clients ↔ ∃ i, s.threads i = .registered client
  own : ∀ i client, Owns (s.threads i) client → client.fd = i

theorem inv_init (document : TsDocument) : Inv (init document) where
  distinct := List.nodup_nil
  registered client := by simp [init]
  own i client h := by rcases h with h | h <;> cases h

/-- In a list with distinct ids, removing an id removes the connection that has it. -/
theorem eraseP_clientId {clients : List TsClientConnection} {client : TsClientConnection}
    (hdistinct : (clients.map TsClientConnection.clientId).Nodup) (hmem : client ∈ clients) :
    clients.eraseP (fun c => c.clientId = client.clientId) = clients.erase client := by
  induction clients with
  | nil => rfl
  | cons c clients ih =>
    obtain ⟨hnew, hrest⟩ := List.nodup_cons.mp hdistinct
    by_cases hc : c = client
    · rw [hc, List.eraseP_cons_of_pos (by simp), List.erase_cons_head]
    · have hmem' : client ∈ clients := (List.mem_cons.mp hmem).resolve_left (Ne.symm hc)
      have hne : c.clientId ≠ client.clientId := fun heq =>
        hnew (heq ▸ List.mem_map_of_mem hmem')
      rw [List.eraseP_cons_of_neg (by simpa using hne), ih hrest hmem',
        List.erase_cons_tail (by simpa using hc)]

theorem Inv.intact {s : Registry} (h : Inv s) : s.Intact where
  distinct := h.distinct
  registered := h.registered
  leaves i client hthread := eraseP_clientId h.distinct ((h.registered client).mpr ⟨i, hthread⟩)

/-- A thread that registers nothing and has registered nothing. -/
theorem registered_update {s : Registry} {i : ℕ} {phase : RegistryPhase}
    (hold : ∀ client, s.threads i ≠ .registered client)
    (hnew : ∀ client, phase ≠ .registered client) (client : TsClientConnection) :
    (∃ j, Function.update s.threads i phase j = .registered client) ↔
      ∃ j, s.threads j = .registered client := by
  constructor
  · rintro ⟨j, hj⟩
    by_cases hji : j = i
    · rw [hji, Function.update_self] at hj
      exact absurd hj (hnew client)
    · rw [Function.update_of_ne hji] at hj
      exact ⟨j, hj⟩
  · rintro ⟨j, hj⟩
    have hji : j ≠ i := fun heq => hold client (heq ▸ hj)
    exact ⟨j, by rw [Function.update_of_ne hji]; exact hj⟩

theorem own_update {s : Registry} {i : ℕ} {phase : RegistryPhase} (h : Inv s)
    (hnew : ∀ client, Owns phase client → client.fd = i) (j : ℕ) (client : TsClientConnection)
    (hj : Owns (Function.update s.threads i phase j) client) : client.fd = j := by
  by_cases hji : j = i
  · rw [hji, Function.update_self] at hj
    rw [hji]
    exact hnew client hj
  · rw [Function.update_of_ne hji] at hj
    exact h.own j client hj

theorem Inv.step {s s' : Registry} {a : RegistryAction} (h : Inv s) (hfree : s.IdFree a)
    (hstep : s.step a = some s') : Inv s' := by
  cases stepOutcome hstep with
  | choose i requested address clientId server hthread hchoose =>
    obtain ⟨hclients, -⟩ := chooseClientId_server hchoose
    refine ⟨?_, fun client => ?_, own_update h ?_⟩
    · rw [hclients]
      exact h.distinct
    · rw [hclients, registered_update (by simp [hthread]) (by simp)]
      exact h.registered client
    · rintro client (hc | hc) <;> cases hc
      rfl
  | register i client hthread =>
    have hfree := hfree client (by rw [hthread]; rfl)
    have hnew : client.clientId ∉ s.server.clients.map TsClientConnection.clientId := by
      rintro hmem
      obtain ⟨c, hc, hid⟩ := List.mem_map.mp hmem
      simp only [clientIdExistsLocked, List.any_eq_false, decide_eq_true_eq] at hfree
      exact hfree c hc hid
    refine ⟨List.nodup_cons.mpr ⟨hnew, h.distinct⟩, fun c => ?_, own_update h ?_⟩
    · simp only [registerClient, List.mem_cons]
      rw [h.registered c]
      constructor
      · rintro (rfl | ⟨j, hj⟩)
        · exact ⟨i, Function.update_self ..⟩
        · have hji : j ≠ i := fun heq => by rw [heq, hthread] at hj; cases hj
          exact ⟨j, by rw [Function.update_of_ne hji]; exact hj⟩
      · rintro ⟨j, hj⟩
        by_cases hji : j = i
        · rw [hji, Function.update_self, RegistryPhase.registered.injEq] at hj
          exact Or.inl hj.symm
        · rw [Function.update_of_ne hji] at hj
          exact Or.inr ⟨j, hj⟩
    · rintro c (hc | hc) <;> cases hc
      exact h.own i client (Or.inl hthread)
  | unregister i client hthread =>
    have hmem : client ∈ s.server.clients := (h.registered client).mpr ⟨i, hthread⟩
    have herase := eraseP_clientId h.distinct hmem
    have hnodup : s.server.clients.Nodup := h.distinct.of_map
    refine ⟨?_, fun c => ?_, own_update h ?_⟩
    · exact h.distinct.sublist (List.Sublist.map _ List.eraseP_sublist)
    · simp only [unregisterClient]
      rw [herase, hnodup.mem_erase_iff, h.registered c]
      constructor
      · rintro ⟨hne, j, hj⟩
        have hji : j ≠ i := fun heq => by
          rw [heq, hthread, RegistryPhase.registered.injEq] at hj
          exact hne hj.symm
        exact ⟨j, by rw [Function.update_of_ne hji]; exact hj⟩
      · rintro ⟨j, hj⟩
        by_cases hji : j = i
        · rw [hji, Function.update_self] at hj
          cases hj
        · rw [Function.update_of_ne hji] at hj
          refine ⟨fun hc => hji ?_, j, hj⟩
          -- two threads would own one connection
          rw [← h.own j c (Or.inr hj), hc, h.own i client (Or.inr hthread)]
    · rintro c (hc | hc) <;> cases hc

/-- Registering a taken id makes two registered connections with one id. -/
theorem idFree_of_intact {s s' : Registry} {a : RegistryAction} (hstep : s.step a = some s')
    (h : s'.Intact) : s.IdFree a := by
  cases stepOutcome hstep with
  | choose => trivial
  | unregister => trivial
  | register i client hthread =>
    intro c hc
    rw [hthread] at hc
    obtain rfl := Option.some.inj hc
    by_contra htaken
    rw [Bool.not_eq_false, clientIdExistsLocked, List.any_eq_true] at htaken
    obtain ⟨other, hother, hid⟩ := htaken
    have hid' : other.clientId = client.clientId := of_decide_eq_true hid
    exact (List.nodup_cons.mp h.distinct).1 (hid' ▸ List.mem_map_of_mem hother)

/-- The list of clients stays intact in a run if and only if no thread registers an id that a
registered connection has. -/
theorem intact_run_iff (document : TsDocument) (actions : List RegistryAction) (s : Registry)
    (hrun : run step (init document) actions = some s) :
    (∀ before after t, actions = before ++ after → run step (init document) before = some t →
      t.Intact) ↔ Guarded step IdFree (init document) actions := by
  constructor
  · intro hall
    refine guarded_iff.mpr fun before a after t heq hbefore => ?_
    rw [heq] at hrun
    obtain ⟨u, hu, hrest⟩ := run_append_some.mp hrun
    obtain rfl : u = t := Option.some.inj (hu.symm.trans hbefore)
    obtain ⟨v, hv, -⟩ := run_cons_some.mp hrest
    refine idFree_of_intact hv (hall (before ++ [a]) after v (by simp [heq]) ?_)
    exact run_concat_some.mpr ⟨u, hu, hv⟩
  · rintro hguard before after t rfl hbefore
    have hinv : Inv t := run_invariant_of_guarded (fun _ _ _ h hf hs => h.step hf hs)
      (inv_init document) hguard.append_left hbefore
    exact hinv.intact

/-- Two clients ask for one id, the second one while the first is registered. -/
def orderlyJoins : List RegistryAction :=
  [.choose 0 (bytes "a") [], .register 0, .choose 1 (bytes "a") [], .register 1, .unregister 0]

theorem intact_run_orderlyJoins :
    ∃ s, run step (init (tsDocumentInit [] 1)) orderlyJoins = some s ∧ s.Intact := by
  have hsome : (run step (init (tsDocumentInit [] 1)) orderlyJoins).isSome = true := by decide
  obtain ⟨s, hrun⟩ := Option.isSome_iff_exists.mp hsome
  have hguard : Guarded step IdFree (init (tsDocumentInit [] 1)) orderlyJoins := by decide
  exact ⟨s, hrun, (intact_run_iff (tsDocumentInit [] 1) orderlyJoins s hrun).mpr hguard
    orderlyJoins [] s (List.append_nil _).symm hrun⟩

/-- Two clients choose one id before either registers; the first one leaves. -/
def crossedJoins : List RegistryAction :=
  [.choose 0 (bytes "a") [], .choose 1 (bytes "a") [], .register 0, .register 1, .unregister 0]

/-- The connection of the first client has left and is still in the list. -/
theorem not_intact_crossedJoins :
    ∃ s, run step (init (tsDocumentInit [] 1)) crossedJoins = some s ∧
      s.threads 0 = .left ∧ ⟨0, bytes "a", []⟩ ∈ s.server.clients ∧ ¬ s.Intact := by
  have hany : (run step (init (tsDocumentInit [] 1)) crossedJoins).any (fun s => decide
      (s.threads 0 = .left ∧ s.threads 1 = .registered ⟨1, bytes "a", []⟩ ∧
        (⟨0, bytes "a", []⟩ : TsClientConnection) ∈ s.server.clients ∧
          s.server.clients.length = 1)) = true := by decide
  obtain ⟨s, hrun, hcond⟩ := (Option.any_eq_true _ _).mp hany
  obtain ⟨hleft, hone, hmem, hlen⟩ := of_decide_eq_true hcond
  refine ⟨s, hrun, hleft, hmem, fun h => ?_⟩
  have hmem' := (h.registered ⟨1, bytes "a", []⟩).mpr ⟨1, hone⟩
  obtain ⟨c, hc⟩ := List.length_eq_one_iff.mp hlen
  rw [hc, List.mem_singleton] at hmem hmem'
  exact absurd (congrArg TsClientConnection.fd (hmem.trans hmem'.symm)) (by decide)

end Registry

end TermSync
