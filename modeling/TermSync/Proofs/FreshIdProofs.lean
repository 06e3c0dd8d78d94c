import TermSync.Foundations.Fresh
import TermSync.Proofs.CStringProofs
import TermSync.Proofs.DecodeProofs
import TermSync.Server

/-!
# Proofs: choosing a free client id

The loop of `choose_client_id` has no bound of its own. Different numbers are printed as different
ids, so the registered clients can block at most one number each, whatever ids they have chosen for
themselves (`fresh_id_selection`).
-/

namespace TermSync

open Foundations

/-- The id that `choose_client_id` prints from a number. -/
def printClientId (number : ℤ) : Bytes := snprintf tsMaxClientId (bytes "u" ++ formatInt number)

/-- A printed number fits the buffer of an id. -/
theorem printClientId_eq {number : ℤ} (hmin : intMin ≤ number) (hmax : number ≤ intMax) :
    printClientId number = 117 :: formatInt number := by
  have hlength := length_formatInt_le hmin hmax
  have hu : bytes "u" = [117] := by decide
  rw [printClientId, snprintf, hu, List.singleton_append, List.take_of_length_le]
  rw [List.length_cons, tsMaxClientId]
  omega

theorem clientIdExistsLocked_eq_false {server : TsServer} {clientId : Bytes} :
    clientIdExistsLocked server clientId = false ↔
      ∀ client ∈ server.clients, client.clientId ≠ clientId := by
  simp [clientIdExistsLocked]

theorem clientIdExistsLocked_iff_mem (server : TsServer) (clientId : Bytes) :
    clientIdExistsLocked server clientId = true ↔
      clientId ∈ server.clients.map TsClientConnection.clientId := by
  simp [clientIdExistsLocked]

section Loop

variable {server : TsServer} {number : ℤ}

/-- As long as the numbers stay below `INT_MAX`, the loop is a search for a free name. -/
theorem nextFreeClientId_eq_firstFree (trials n : ℕ) (hroom : number + n + trials ≤ intMax) :
    nextFreeClientId server trials (number + n) =
      (firstFree (clientIdExistsLocked server) (fun k => printClientId (number + k)) trials n).map
        fun k : ℕ => (printClientId (number + k), number + k + 1) := by
  induction trials generalizing n with
  | zero => rfl
  | succ trials ih =>
    rw [Nat.cast_add, Nat.cast_one] at hroom
    have hrest := ih (n + 1) (by rw [Nat.cast_add, Nat.cast_one]; omega)
    rw [Nat.cast_add, Nat.cast_one, ← Int.add_assoc] at hrest
    rw [nextFreeClientId, if_pos (by omega), firstFree]
    by_cases htaken : clientIdExistsLocked server (printClientId (number + n)) = true
    · rw [if_pos htaken]
      exact (if_pos htaken).trans hrest
    · rw [if_neg htaken]
      exact if_neg htaken

/-- The loop gives up later only if it is allowed more trials. -/
theorem nextFreeClientId_mono {trials more : ℕ} {result : Bytes × ℤ} (hle : trials ≤ more)
    (h : nextFreeClientId server trials number = some result) :
    nextFreeClientId server more number = some result := by
  induction trials generalizing more number with
  | zero => cases h
  | succ trials ih =>
    obtain ⟨more, rfl⟩ : ∃ m, more = m + 1 := ⟨more - 1, by omega⟩
    unfold nextFreeClientId at h ⊢
    by_cases hmax : number < intMax
    · rw [if_pos hmax] at h ⊢
      by_cases htaken : clientIdExistsLocked server (printClientId number) = true
      · exact (if_pos htaken).trans (ih (by omega) ((if_pos htaken).symm.trans h))
      · exact (if_neg htaken).trans ((if_neg htaken).symm.trans h)
    · rw [if_neg hmax] at h
      cases h

/-- The loop ends at a free id, after at most one more trial than there are clients. -/
theorem nextFreeClientId_ends (hmin : intMin ≤ number)
    (hroom : number + server.clients.length < intMax) :
    ∃ k ≤ server.clients.length,
      (∀ client ∈ server.clients, client.clientId ≠ printClientId (number + k)) ∧
      ∀ trials, k < trials → nextFreeClientId server trials number =
        some (printClientId (number + k), number + k + 1) := by
  have hname : Set.InjOn (fun k : ℕ => printClientId (number + k))
      (Set.Iic (server.clients.map TsClientConnection.clientId).length) := by
    intro i hi j hj h
    rw [Set.mem_Iic, List.length_map] at hi hj
    simp only at h
    rw [printClientId_eq (by omega) (by omega), printClientId_eq (by omega) (by omega)] at h
    have hij := formatInt_injective (List.cons.inj h).2
    omega
  obtain ⟨k, hk, hfree, hsearch⟩ := firstFree_of_injOn (clientIdExistsLocked_iff_mem server) hname
  rw [List.length_map] at hk
  refine ⟨k, hk, fun client hclient heq => ?_, fun trials htrials => ?_⟩
  · exact hfree (heq ▸ List.mem_map_of_mem hclient)
  · -- with so many trials that the numbers still stay below the maximum
    have hroom' : number + (0 : ℕ) + (k + 1 : ℕ) ≤ intMax := by
      push_cast
      omega
    have hfirst : nextFreeClientId server (k + 1) (number + (0 : ℕ)) = _ :=
      nextFreeClientId_eq_firstFree (k + 1) 0 hroom'
    rw [hsearch (k + 1) (Nat.lt_succ_self k), Nat.cast_zero, Int.add_zero] at hfirst
    exact nextFreeClientId_mono htrials hfirst

end Loop

/-- The id that a decoded JOIN asks for fits its buffer. -/
theorem length_clientId_lt {errorSize : ℕ} {line : Bytes} {message : TsMessage}
    (h : tsDecodeMessage errorSize line = .ok message) :
    message.clientId.length < tsMaxClientId := by
  obtain ⟨type, withOp, -, hop, horiginal⟩ := tsDecodeMessage_ok h
  have hfields : (decodeFields (skipWs line) type).clientId.length < tsMaxClientId := by
    simp only [decodeFields, jsonGetString]
    cases jsonGetContent (skipWs line) (bytes "client_id") with
    | none => decide
    | some text =>
      rw [Option.map_some, Option.getD_some, snprintf, List.length_take]
      exact (min_le_left _ _).trans_lt (by decide)
  have hwithOp : withOp.clientId.length < tsMaxClientId := by
    rcases decodeOp_ok hop with ⟨-, rfl⟩ | ⟨opJson, op, -, -, rfl⟩ <;> exact hfields
  rcases decodeOriginalOp_ok horiginal with ⟨-, rfl⟩ | ⟨originalJson, -, rfl⟩ <;> exact hwithOp

/-- Choosing an id ends. The id is not empty and not registered, it is the requested one exactly if
that is not empty and not registered, and otherwise it takes at least one number and at most one more
than there are registered clients. -/
theorem fresh_id_selection {server : TsServer} {requested : Bytes}
    (hmin : intMin ≤ server.nextClientNumber)
    (hroom : server.nextClientNumber + server.clients.length < intMax)
    (hrequested : requested.length < tsMaxClientId) :
    ∃ (trials : ℕ) (out : Bytes), trials ≤ server.clients.length + 1 ∧
      chooseClientId server requested =
        some ({ server with nextClientNumber := server.nextClientNumber + trials }, out) ∧
      out ≠ [] ∧ (∀ client ∈ server.clients, client.clientId ≠ out) ∧
      (out = requested ↔
        requested ≠ [] ∧ ∀ client ∈ server.clients, client.clientId ≠ requested) ∧
      (trials = 0 ↔ out = requested) ∧
      (out ≠ requested → ∀ rounds, trials ≤ rounds →
        nextFreeClientId server rounds server.nextClientNumber =
          some (out, server.nextClientNumber + trials)) := by
  by_cases hfree : requested ≠ [] ∧ clientIdExistsLocked server requested = false
  · have hunused := clientIdExistsLocked_eq_false.mp hfree.2
    refine ⟨0, requested, Nat.zero_le _, ?_, hfree.1, hunused, ?_, ?_, ?_⟩
    · rw [chooseClientId, if_pos hfree, snprintf, List.take_of_length_le (by omega),
        Nat.cast_zero, Int.add_zero]
    · exact ⟨fun _ => ⟨hfree.1, hunused⟩, fun _ => rfl⟩
    · exact ⟨fun _ => rfl, fun _ => rfl⟩
    · exact fun hne => absurd rfl hne
  · obtain ⟨k, hk, hunused, hends⟩ := nextFreeClientId_ends hmin hroom
    have hprinted : printClientId (server.nextClientNumber + k) ≠ [] := by
      rw [printClientId_eq (by omega) (by omega)]
      exact List.cons_ne_nil _ _
    have hne : printClientId (server.nextClientNumber + k) ≠ requested := by
      intro heq
      exact hfree ⟨heq ▸ hprinted, clientIdExistsLocked_eq_false.mpr (heq ▸ hunused)⟩
    have hcast : server.nextClientNumber + k + 1 = server.nextClientNumber + ((k + 1 : ℕ) : ℤ) := by
      push_cast
      omega
    rw [hcast] at hends
    refine ⟨k + 1, _, Nat.succ_le_succ hk, ?_, hprinted, hunused, ?_, ?_, ?_⟩
    · rw [chooseClientId, if_neg hfree, hends _ (Nat.lt_succ_of_le hk)]
      rfl
    · refine ⟨fun heq => absurd heq hne, fun h => absurd ?_ hfree⟩
      exact ⟨h.1, clientIdExistsLocked_eq_false.mpr h.2⟩
    · exact ⟨fun h => absurd h (Nat.succ_ne_zero k), fun heq => absurd heq hne⟩
    · exact fun _ rounds hrounds => hends rounds hrounds

/-- Two clients: one that the server has numbered, and one that has chosen the next number itself. -/
def crowdedServer : TsServer where
  nextClientNumber := 1
  clients := [⟨5, bytes "u1", bytes "127.0.0.1:4001"⟩, ⟨4, bytes "u2", bytes "127.0.0.1:4000"⟩]
  document := tsDocumentInit [] 0

theorem fresh_id_selection_crowded : ∃ (trials : ℕ) (out : Bytes), trials ≤ 3 ∧
    chooseClientId crowdedServer (bytes "u2") =
      some ({ crowdedServer with nextClientNumber := 1 + trials }, out) ∧
    ∀ client ∈ crowdedServer.clients, client.clientId ≠ out := by
  have hmin : intMin ≤ crowdedServer.nextClientNumber := by decide
  have hjoin : tsDecodeMessage 128 (bytes "\x7b\"type\":\"JOIN\",\"client_id\":\"u2\"\x7d") =
      .ok { tsMessageInit with type := typeJoin, clientId := bytes "u2" } := by decide +kernel
  obtain ⟨trials, out, htrials, hchoose, -, hunused, -⟩ :=
    fresh_id_selection hmin (by decide) (length_clientId_lt hjoin)
  exact ⟨trials, out, htrials, hchoose, hunused⟩

end TermSync
