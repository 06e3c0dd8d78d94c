import TermSync.Foundations.LinkedLists
import TermSync.Foundations.Runs
import TermSync.Message

/-!
# The queue between the threads of a client (`queue_push` and `queue_pop`)

`reader_main` puts every message into a node of its own and links it to the end of a list. The main thread
takes the nodes off the front and frees them when it no longer holds the lock. Both go on statement by
statement, and the allocator may use an address again. In `Wire` the messages that wait, as a list, stand for
the queue.
-/

namespace TermSync

open Foundations

/-- Who holds the lock of the queue. -/
inductive QueueThread where
  /-- The thread of `reader_main`. -/
  | reader
  /-- The main thread in `drain_messages`. -/
  | drainer
  deriving DecidableEq, Repr

/-- How far `queue_push` has come. -/
inductive PushPhase where
  | idle
  /-- The message has been copied to this node. -/
  | allocated (node : ℕ)
  | locked (node : ℕ)
  /-- The list was empty, and only `tail` points to the node so far. -/
  | tailed (node : ℕ)
  /-- The last node points to the node, and `tail` does not yet. -/
  | linked (node : ℕ)
  | pushed
  deriving DecidableEq, Repr

/-- How far `queue_pop` has come. -/
inductive PopPhase where
  | idle
  | locked
  /-- `head` is null. -/
  | empty
  /-- `head` points to this node. -/
  | found (node : ℕ)
  /-- `head` points behind the node. -/
  | headed (node : ℕ)
  | unlocking (node : ℕ)
  | unlocked (node : ℕ)
  /-- The message has been copied. -/
  | copied (node : ℕ)
  deriving DecidableEq, Repr

/-- `IncomingQueue`, the nodes in memory and the two threads. -/
structure IncomingQueue where
  heap : Heap TsMessage
  head : Option ℕ
  tail : Option ℕ
  lock : Option QueueThread
  push : PushPhase
  pop : PopPhase
  /-- The messages that have been copied to nodes. -/
  received : List TsMessage
  /-- The messages that `queue_pop` has returned. -/
  popped : List TsMessage

/-- What happens next. -/
inductive QueueAction where
  /-- `queue_push` is called, and `calloc` returns this address or `NULL`. -/
  | push (node : Option ℕ) (message : TsMessage)
  /-- The thread in `queue_push` goes on. -/
  | goPush
  /-- `queue_pop` is called, or it goes on. -/
  | goPop
  deriving DecidableEq, Repr

namespace IncomingQueue

/-- `queue_init` -/
def init : IncomingQueue where
  heap := fun _ => none
  head := none
  tail := none
  lock := none
  push := .idle
  pop := .idle
  received := []
  popped := []

/-- A read through a pointer to a node, or the address if it is not allocated. -/
def read (s : IncomingQueue) (a : ℕ) : Except ℕ (Cell TsMessage) :=
  match s.heap a with
  | none => .error a
  | some cell => .ok cell

/-- The next statement of `queue_push`. -/
def pushStep (s : IncomingQueue) : Option (Except ℕ IncomingQueue) :=
  match s.push with
  | .idle => none
  | .allocated node =>
    if s.lock = none then some (.ok { s with lock := some .reader, push := .locked node }) else none
  | .locked node => some do
    match s.tail with
    | none => .ok { s with tail := some node, push := .tailed node }
    | some last =>
      let cell ← s.read last
      .ok { s with
        heap := Function.update s.heap last (some { cell with next := some node })
        push := .linked node }
  | .tailed node => some (.ok { s with head := some node, push := .pushed })
  | .linked node => some (.ok { s with tail := some node, push := .pushed })
  | .pushed => some (.ok { s with lock := none, push := .idle })

/-- The next statement of `queue_pop`. -/
def popStep (s : IncomingQueue) : Option (Except ℕ IncomingQueue) :=
  match s.pop with
  | .idle => if s.lock = none then some (.ok { s with lock := some .drainer, pop := .locked }) else none
  | .locked => some (.ok { s with pop := match s.head with
      | none => .empty
      | some node => .found node })
  | .empty => some (.ok { s with lock := none, pop := .idle })
  | .found node => some do
    let cell ← s.read node
    .ok { s with head := cell.next, pop := .headed node }
  | .headed node =>
    some (.ok { s with tail := if s.head = none then none else s.tail, pop := .unlocking node })
  | .unlocking node => some (.ok { s with lock := none, pop := .unlocked node })
  | .unlocked node => some do
    let cell ← s.read node
    .ok { s with popped := s.popped ++ [cell.value], pop := .copied node }
  | .copied node => some do
    let _ ← s.read node
    .ok { s with heap := Function.update s.heap node none, pop := .idle }

/-- An action and its outcome, if it is possible. -/
def attempt (s : IncomingQueue) : QueueAction → Option (Except ℕ IncomingQueue)
  | .push none _ => if s.push = .idle then some (.ok s) else none
  | .push (some node) message =>
    if s.push = .idle ∧ s.heap node = none then
      some (.ok { s with
        heap := Function.update s.heap node (some ⟨message, none⟩)
        push := .allocated node
        received := s.received ++ [message] })
    else none
  | .goPush => s.pushStep
  | .goPop => s.popStep

/-- One step. An action that is not possible, or that accesses memory that is not allocated, has no
result. -/
def step (s : IncomingQueue) (a : QueueAction) : Option IncomingQueue :=
  (s.attempt a).bind Except.toOption

end IncomingQueue

/-! ## Who has which node -/

/-- The node that `queue_push` has not linked yet. -/
def PushPhase.own : PushPhase → Option ℕ
  | allocated node | locked node => some node
  | idle | tailed _ | linked _ | pushed => none

/-- The node that `queue_pop` has unlinked. -/
def PopPhase.own : PopPhase → Option ℕ
  | headed node | unlocking node | unlocked node | copied node => some node
  | idle | locked | empty | found _ => none

/-- The node whose message `queue_pop` has not copied yet. -/
def PopPhase.hand : PopPhase → Option ℕ
  | headed node | unlocking node | unlocked node => some node
  | idle | locked | empty | found _ | copied _ => none

/-- `queue_push` holds the lock. -/
def PushPhase.Locked : PushPhase → Prop
  | locked _ | tailed _ | linked _ | pushed => True
  | idle | allocated _ => False

/-- `queue_pop` holds the lock. -/
def PopPhase.Locked : PopPhase → Prop
  | locked | empty | found _ | headed _ | unlocking _ => True
  | idle | unlocked _ | copied _ => False

namespace IncomingQueue

/-- The list consists of these nodes, and `tail` points to the last one. -/
def InOrder (s : IncomingQueue) (as : List ℕ) : Prop :=
  Linked s.heap s.head as ∧ s.tail = as.getLast?

/-- All nodes, in the order of their messages, when those of the list are `as`. -/
def nodes (s : IncomingQueue) (as : List ℕ) : List ℕ :=
  s.pop.own.toList ++ as ++ s.push.own.toList

/-- The messages that are still to be copied, when the nodes of the list are `as`. -/
def waiting (s : IncomingQueue) (as : List ℕ) : List TsMessage :=
  s.heap.values (s.pop.hand.toList ++ as ++ s.push.own.toList)

end IncomingQueue

end TermSync
