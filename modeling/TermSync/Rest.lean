import Mathlib.Algebra.BigOperators.Group.Finset.Basic
import TermSync.SystemProperties

/-!
# The system left alone

When no user connects, types or saves, the parties only handle what is on its way already. The work that
is left bounds the number of their steps.
-/

namespace TermSync

/-- A step without a user: a message, an effect or an event that is on its way is handled. -/
def Action.Internal : Action → Prop
  | .deliver _ | .serve _ | .saverTake _ => True
  | .connect _ _ | .key _ _ | .save _ | .saverTimer _ => False

instance : DecidablePred Action.Internal
  | .deliver _ | .serve _ | .saverTake _ => isTrue trivial
  | .connect _ _ | .key _ _ | .save _ | .saverTimer _ => isFalse id

/-! ## The work that is left -/

/-- The steps that a message to a client can still cause: a REMOTE_OP and a RESYNC_REQUIRED can make it
ask for the document. -/
def answerWork (message : TsMessage) : ℕ :=
  if message.type = typeRemoteOp ∨ message.type = typeResyncRequired then 4 else 1

/-- The steps that an effect can still cause among `n` connections. -/
def Effect.work (n : ℕ) : Effect → ℕ
  | .send message | .sendTo _ message => 1 + answerWork message
  | .pipe _ => 2
  | .register _ | .unlock => 1
  | .snapshot => 3
  | .broadcast _ _ => 5 * n + 2

/-- The steps that an OP can still cause. -/
def opWork (n : ℕ) : ℕ := 5 * n + 9

/-- The steps that a message to the server can still cause. A JOIN counts for the client numbers as
well that it can take. -/
def requestWork (n : ℕ) (message : TsMessage) : ℕ :=
  if message.type = typeJoin then n + 9
  else if message.type = typeOp then opWork n
  else if message.type = typeRequestDoc then 3
  else 5

/-- The steps that a connection can still cause. -/
def Conn.work (n : ℕ) (c : Conn) : ℕ :=
  (c.toServer.map (requestWork n)).sum + (c.toClient.map answerWork).sum +
    (c.thread.map (Effect.work n)).sum + c.client.queue.length * opWork n

/-- The steps that can still follow without a user. -/
def Sys.work (s : Sys) : ℕ :=
  s.pipe.length + ∑ i ∈ Finset.range s.accepted, (s.conns i).work s.accepted

/-- The counters of the server have room for the work that is left. -/
def Sys.HasRoom (s : Sys) : Prop :=
  s.server.document.version + s.work ≤ intMax ∧ s.server.nextClientNumber + s.work ≤ intMax

instance (s : Sys) : Decidable s.HasRoom := inferInstanceAs (Decidable (_ ∧ _))

/-! ## Where it ends -/

/-- Nothing is on its way, no client waits for anything, and every operation that a key has queued has
been processed, in order. -/
structure Sys.Settled (s : Sys) : Prop where
  quiescent : s.Quiescent
  pipe : s.pipe = []
  clients : ∀ i < s.accepted, (s.conns i).client.inflight = none ∧ (s.conns i).client.queue = []
  processed : ∀ i, ((s.processedBy i).map fun p => (p.message.opId, p.message.op)) =
    (s.conns i).queued.map fun p => (p.opId, p.op)

end TermSync
