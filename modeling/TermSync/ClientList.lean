import TermSync.Foundations.LinkedLists
import TermSync.Registry

/-!
# The list of clients in memory

`server->clients` is a linked list of the connections, each of which its own thread frees. In `Registry` a
critical section of `clients_lock` is one step on a list of values. Here the threads follow the pointers one
by one while other threads go on, the allocator may use an address again, and an access to memory that is
not allocated is undefined. `main` comes back to a connection once, when it detaches the thread that it has
started; by then the thread may have ended.
-/

namespace TermSync

open Foundations

/-- Why a step has no defined outcome. -/
inductive Undefined where
  /-- An access to memory that is not allocated. -/
  | access (address : ℕ)
  /-- `next_client_number++` at `INT_MAX`. -/
  | overflow
  /-- `pthread_detach` of a thread that does not exist. -/
  | noThread
  deriving DecidableEq, Repr

/-- How far the thread of a connection has come. -/
inductive ThreadPhase where
  | starting
  /-- `client_id_exists_locked` looks for the requested id. -/
  | asking (requested : Bytes) (client : Option ℕ)
  /-- The loop of `choose_client_id` begins again. -/
  | retrying (requested : Bytes)
  /-- `client_id_exists_locked` looks for the new id. -/
  | counting (requested : Bytes) (client : Option ℕ)
  | chosen
  | registered
  /-- The loop of `broadcast_message`, which has sent to these sockets. -/
  | broadcasting (sent : List ℕ) (client : Option ℕ)
  /-- The loop of `unregister_client`. Its cursor points to `server->clients` or to the `next` of a
  connection. -/
  | unlinking (cursor : Option ℕ)
  | left
  | freed
  deriving DecidableEq, Repr

/-- The server and the threads of the connections. -/
structure ClientList where
  heap : Heap TsClientConnection
  clients : Option ℕ
  /-- The thread that holds `clients_lock`. -/
  clientsLock : Option ℕ
  nextClientNumber : ℤ
  /-- The thread that `main` has started and has still to detach. -/
  main : Option ℕ
  /-- The number of threads so far. -/
  accepted : ℕ
  /-- The address of the connection of each thread. -/
  client : ℕ → ℕ
  phase : ℕ → ThreadPhase

/-- What happens next. -/
inductive ClientListAction where
  /-- `main` accepts a connection, `calloc` returns this address, and `pthread_create` stores the id of the
  thread in the connection and starts it. -/
  | accept (a : ℕ) (address : Bytes)
  /-- The same, but `pthread_create` fails. -/
  | acceptFails (a : ℕ)
  /-- `main` reads the id for `pthread_detach`. -/
  | detach
  /-- A thread has received a JOIN and locks the list in `choose_client_id`. -/
  | join (i : ℕ) (requested : Bytes)
  /-- A thread in a loop goes on by one step. -/
  | go (i : ℕ)
  /-- `register_client` -/
  | register (i : ℕ)
  /-- A thread locks the list in `broadcast_message`. -/
  | broadcast (i : ℕ)
  /-- A thread locks the list in `unregister_client`. -/
  | leave (i : ℕ)
  /-- A thread ends. -/
  | free (i : ℕ)
  deriving DecidableEq, Repr

namespace ClientList

/-- The server after its start. -/
def init : ClientList where
  heap := fun _ => none
  clients := none
  clientsLock := none
  nextClientNumber := 1
  main := none
  accepted := 0
  client := fun _ => 0
  phase := fun _ => .starting

/-! ## Memory -/

/-- A read through a pointer to a connection. -/
def read (s : ClientList) (a : ℕ) : Except Undefined (Cell TsClientConnection) :=
  match s.heap a with
  | none => .error (.access a)
  | some cell => .ok cell

/-- A write to a connection. -/
def write (s : ClientList) (a : ℕ) (cell : Cell TsClientConnection) : ClientList :=
  { s with heap := Function.update s.heap a (some cell) }

/-- `*cursor` -/
def load (s : ClientList) : Option ℕ → Except Undefined (Option ℕ)
  | none => .ok s.clients
  | some a => do
    let cell ← s.read a
    .ok cell.next

/-- `*cursor = pointer` -/
def store (s : ClientList) (pointer : Option ℕ) : Option ℕ → Except Undefined ClientList
  | none => .ok { s with clients := pointer }
  | some a => do
    let cell ← s.read a
    .ok (s.write a { cell with next := pointer })

/-- A thread writes `client_id` of its own connection. -/
def setClientId (s : ClientList) (i : ℕ) (clientId : Bytes) : Except Undefined ClientList := do
  let own ← s.read (s.client i)
  .ok (s.write (s.client i) { own with value := { own.value with clientId := clientId } })

/-! ## Threads -/

/-- A thread goes on to this phase. -/
def setPhase (s : ClientList) (i : ℕ) (phase : ThreadPhase) : ClientList :=
  { s with phase := Function.update s.phase i phase }

/-- A thread locks the list. -/
def lock (s : ClientList) (i : ℕ) (phase : ThreadPhase) : ClientList :=
  { s with clientsLock := some i }.setPhase i phase

/-- A thread unlocks the list. -/
def unlock (s : ClientList) (i : ℕ) (phase : ThreadPhase) : ClientList :=
  { s with clientsLock := none }.setPhase i phase

/-- The next step of a thread in a loop. -/
def goOn (s : ClientList) (i : ℕ) : ThreadPhase → Option (Except Undefined ClientList)
  | .asking requested none => some do
    let s ← s.setClientId i (snprintf tsMaxClientId requested)
    .ok (s.unlock i .chosen)
  | .asking requested (some client) => some do
    let cell ← s.read client
    if cell.value.clientId = requested then .ok (s.setPhase i (.retrying requested))
    else .ok (s.setPhase i (.asking requested cell.next))
  | .retrying requested => some do
    if s.nextClientNumber < intMax then
      let out := snprintf tsMaxClientId (bytes "u" ++ formatInt s.nextClientNumber)
      let s ← s.setClientId i out
      .ok ({ s with nextClientNumber := s.nextClientNumber + 1 }.setPhase i
        (.counting requested s.clients))
    else .error .overflow
  | .counting _ none => some (.ok (s.unlock i .chosen))
  | .counting requested (some client) => some do
    let cell ← s.read client
    let own ← s.read (s.client i)
    if cell.value.clientId = own.value.clientId then .ok (s.setPhase i (.retrying requested))
    else .ok (s.setPhase i (.counting requested cell.next))
  | .broadcasting _ none => some (.ok (s.unlock i .registered))
  | .broadcasting sent (some client) => some do
    let cell ← s.read client
    let own ← s.read (s.client i)
    if cell.value.clientId = own.value.clientId then
      .ok (s.setPhase i (.broadcasting sent cell.next))
    else .ok (s.setPhase i (.broadcasting (sent ++ [cell.value.fd]) cell.next))
  | .unlinking cursor => some do
    match ← s.load cursor with
    | none => .ok (s.unlock i .left)
    | some client =>
      let cell ← s.read client
      let own ← s.read (s.client i)
      if cell.value.clientId = own.value.clientId then
        let s ← s.store cell.next cursor
        .ok (s.unlock i .left)
      else .ok (s.setPhase i (.unlinking (some client)))
  | .starting | .chosen | .registered | .left | .freed => none

/-- An action and its outcome, if it is possible. -/
def attempt (s : ClientList) : ClientListAction → Option (Except Undefined ClientList)
  | .accept a address =>
    if s.main = none ∧ s.heap a = none then
      let s := s.write a ⟨⟨s.accepted, [], address⟩, none⟩
      some (.ok
        { s with
          main := some s.accepted
          accepted := s.accepted + 1
          client := Function.update s.client s.accepted a })
    else none
  | .acceptFails a =>
    -- the result of `pthread_create` is not looked at, and `pthread_detach` gets no id
    if s.main = none ∧ s.heap a = none then some (.error .noThread) else none
  | .detach =>
    match s.main with
    | none => none
    | some i => some do
      let _ ← s.read (s.client i)
      .ok { s with main := none }
  | .join i requested =>
    if i < s.accepted ∧ s.phase i = .starting ∧ s.clientsLock = none then
      some (.ok (s.lock i (if requested = [] then .retrying requested else .asking requested s.clients)))
    else none
  | .go i => s.goOn i (s.phase i)
  | .register i =>
    if s.phase i = .chosen ∧ s.clientsLock = none then some do
      let own ← s.read (s.client i)
      let s := s.write (s.client i) { own with next := s.clients }
      .ok ({ s with clients := some (s.client i) }.setPhase i .registered)
    else none
  | .broadcast i =>
    if s.phase i = .registered ∧ s.clientsLock = none then
      some (.ok (s.lock i (.broadcasting [] s.clients)))
    else none
  | .leave i =>
    if s.phase i = .registered ∧ s.clientsLock = none then some (.ok (s.lock i (.unlinking none)))
    else none
  | .free i =>
    if i < s.accepted ∧ (s.phase i = .starting ∨ s.phase i = .left) then some do
      let _ ← s.read (s.client i)
      .ok ({ s with heap := Function.update s.heap (s.client i) none }.setPhase i .freed)
    else none

/-- One step. An action that is not possible, or that has no defined outcome, has no result. -/
def step (s : ClientList) (a : ClientListAction) : Option ClientList :=
  (s.attempt a).bind Except.toOption

end ClientList

/-! ## What the memory shows -/

/-- The thread holds `clients_lock`. -/
def ThreadPhase.Locked : ThreadPhase → Prop
  | asking _ _ | retrying _ | counting _ _ | broadcasting _ _ | unlinking _ => True
  | starting | chosen | registered | left | freed => False

/-- The connection of the thread is in the list. -/
def ThreadPhase.Listed : ThreadPhase → Prop
  | registered | broadcasting _ _ | unlinking _ => True
  | starting | asking _ _ | retrying _ | counting _ _ | chosen | left | freed => False

instance : DecidablePred ThreadPhase.Listed
  | .registered | .broadcasting _ _ | .unlinking _ => isTrue trivial
  | .starting | .asking _ _ | .retrying _ | .counting _ _ | .chosen | .left | .freed => isFalse id

namespace ClientList

/-- The connection of a thread. -/
def own (s : ClientList) (i : ℕ) : Option TsClientConnection :=
  (s.heap (s.client i)).map Cell.value

/-- A thread registers its connection only when no connection in the list has its id. -/
def IdFree (s : ClientList) : ClientListAction → Prop
  | .register i => ∀ j < s.accepted, (s.phase j).Listed →
    (s.own j).map TsClientConnection.clientId ≠ (s.own i).map TsClientConnection.clientId
  | _ => True

instance (s : ClientList) : DecidablePred s.IdFree
  | .register i => inferInstanceAs (Decidable (∀ j < s.accepted, (s.phase j).Listed →
    (s.own j).map TsClientConnection.clientId ≠ (s.own i).map TsClientConnection.clientId))
  | .accept _ _ | .acceptFails _ | .detach | .join _ _ | .go _ | .broadcast _ | .leave _ | .free _ =>
    isTrue trivial

end ClientList

/-- How far a thread has come, in terms of the critical sections that it has finished. -/
def ThreadPhase.Shows (own : Option TsClientConnection) (thread : RegistryPhase) : ThreadPhase → Prop
  | starting | asking _ _ | retrying _ | counting _ _ => thread = .starting
  | chosen => ∃ client, own = some client ∧ thread = .chosen client
  | registered | broadcasting _ _ | unlinking _ => ∃ client, own = some client ∧ thread = .registered client
  | left => thread = .left
  | freed => thread = .starting ∨ thread = .left

/-- The list in memory is the list of registered connections. A thread that is choosing an id has taken
numbers already. -/
structure ClientList.Shows (s : ClientList) (r : Registry) : Prop where
  clients : ∃ as, Linked s.heap s.clients as ∧ s.heap.values as = r.server.clients
  number : s.clientsLock = none → s.nextClientNumber = r.server.nextClientNumber
  threads : ∀ i, (s.phase i).Shows (s.own i) (r.threads i)

end TermSync
