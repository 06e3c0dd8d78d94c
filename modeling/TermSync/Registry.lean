import Mathlib.Logic.Function.Basic
import TermSync.Foundations.Runs
import TermSync.Server

/-!
# The list of registered connections

Joining and leaving take three critical sections of `clients_lock`: `choose_client_id`,
`register_client` and, much later, `unregister_client`. Each is one step, and the steps of different
threads interleave.
-/

namespace TermSync

open Foundations

/-- How far the thread of a connection has come with the list of clients. -/
inductive RegistryPhase where
  | starting
  /-- `choose_client_id` has returned. -/
  | chosen (client : TsClientConnection)
  | registered (client : TsClientConnection)
  | left
  deriving DecidableEq, Repr

/-- The server and the threads of all connections. -/
structure Registry where
  server : TsServer
  threads : ℕ → RegistryPhase

/-- A critical section of `clients_lock`. -/
inductive RegistryAction where
  | choose (thread : ℕ) (requested address : Bytes)
  | register (thread : ℕ)
  | unregister (thread : ℕ)
  deriving DecidableEq, Repr

/-- The server after its start. -/
def Registry.init (document : TsDocument) : Registry where
  server := { nextClientNumber := 1, clients := [], document := document }
  threads := fun _ => .starting

/-- One critical section. -/
def Registry.step (s : Registry) : RegistryAction → Option Registry
  | .choose i requested address =>
    match s.threads i with
    | .starting => do
      let (server, clientId) ← chooseClientId s.server requested
      some
        { server := server
          threads := Function.update s.threads i (.chosen ⟨i, clientId, address⟩) }
    | _ => none
  | .register i =>
    match s.threads i with
    | .chosen client =>
      some
        { server := registerClient s.server client
          threads := Function.update s.threads i (.registered client) }
    | _ => none
  | .unregister i =>
    match s.threads i with
    | .registered client =>
      some
        { server := unregisterClient s.server client.clientId
          threads := Function.update s.threads i .left }
    | _ => none

/-- The list holds exactly the connections that have registered and not left, under distinct ids, and
a thread that leaves removes its own connection. -/
structure Registry.Intact (s : Registry) : Prop where
  distinct : (s.server.clients.map TsClientConnection.clientId).Nodup
  registered : ∀ client, client ∈ s.server.clients ↔ ∃ i, s.threads i = .registered client
  leaves : ∀ i client, s.threads i = .registered client →
    (unregisterClient s.server client.clientId).clients = s.server.clients.erase client

/-- The connection that a thread is about to register. -/
def RegistryPhase.toRegister : RegistryPhase → Option TsClientConnection
  | chosen client => some client
  | _ => none

/-- A thread registers its connection only when no registered connection has its id. -/
def Registry.IdFree (s : Registry) : RegistryAction → Prop
  | .register i => ∀ client ∈ (s.threads i).toRegister,
    clientIdExistsLocked s.server client.clientId = false
  | _ => True

instance (s : Registry) : DecidablePred s.IdFree
  | .register i => inferInstanceAs (Decidable (∀ client ∈ (s.threads i).toRegister,
    clientIdExistsLocked s.server client.clientId = false))
  | .choose _ _ _ | .unregister _ => isTrue trivial

end TermSync
