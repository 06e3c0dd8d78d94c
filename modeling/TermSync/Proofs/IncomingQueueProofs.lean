import TermSync.IncomingQueue

/-!
# Proofs: the queue between the threads of a client

Who holds the lock knows what the list looks like in the middle of its own change (`Pushing`, `Popping`),
and without the lock the list is in order. A node is in the list or one of the threads has it, so that no
access goes to memory that has been freed (`Sound.attempt`).
-/

namespace TermSync

open Foundations

theorem PopPhase.hand_sublist_own (pop : PopPhase) : pop.hand.toList.Sublist pop.own.toList := by
  cases pop <;> first | exact List.Sublist.refl _ | exact List.nil_sublist _

namespace IncomingQueue

variable {s s' : IncomingQueue} {as : List ℕ}

/-- What `queue_push` knows of the list in each phase. -/
def Pushing (s : IncomingQueue) (as : List ℕ) : PushPhase → Prop
  | .idle | .allocated _ => True
  | .locked _ | .pushed => s.lock = some .reader ∧ s.InOrder as
  | .tailed node => s.lock = some .reader ∧ as = [node] ∧ Linked s.heap (some node) as ∧
      s.tail = some node
  | .linked node => s.lock = some .reader ∧ Linked s.heap s.head as ∧ as.getLast? = some node

/-- What `queue_pop` knows of the list in each phase. -/
def Popping (s : IncomingQueue) (as : List ℕ) : PopPhase → Prop
  | .idle | .unlocked _ | .copied _ => True
  | .locked | .unlocking _ => s.lock = some .drainer ∧ s.InOrder as
  | .empty => s.lock = some .drainer ∧ s.InOrder as ∧ as = []
  | .found node => s.lock = some .drainer ∧ s.InOrder as ∧ s.head = some node
  | .headed node => s.lock = some .drainer ∧ Linked s.heap s.head as ∧ s.tail = (node :: as).getLast?

/-- Each allocated node has one place, and the messages wait in the order of the nodes. -/
structure Kept (s : IncomingQueue) (as : List ℕ) : Prop where
  nodup : (s.nodes as).Nodup
  allocated : ∀ a, a ∈ s.nodes as ↔ s.heap a ≠ none
  last : ∀ a ∈ s.push.own, ∃ message, s.heap a = some ⟨message, none⟩
  messages : s.received = s.popped ++ s.waiting as

/-- What holds of every state, when the nodes of the list are `as`. -/
structure Sound (s : IncomingQueue) (as : List ℕ) : Prop where
  reader : s.lock = some .reader → s.push.Locked
  drainer : s.lock = some .drainer → s.pop.Locked
  order : s.lock = none → s.InOrder as
  pushing : Pushing s as s.push
  popping : Popping s as s.pop
  kept : Kept s as

theorem sound_init : Sound init [] where
  reader := nofun
  drainer := nofun
  order _ := ⟨rfl, rfl⟩
  pushing := trivial
  popping := trivial
  kept :=
    { nodup := List.nodup_nil
      allocated := fun _ => ⟨fun ha => (List.not_mem_nil ha).elim, fun ha => (ha rfl).elim⟩
      last := fun _ ha => nomatch ha
      messages := rfl }

theorem read_of_some (s : IncomingQueue) {a : ℕ} {cell : Cell TsMessage} (h : s.heap a = some cell) :
    s.read a = .ok cell := by rw [read, h]

/-! ## The lock -/

/-- Without the lock `queue_push` knows nothing of the list. -/
theorem Pushing.of_ne {phase : PushPhase} (h : Pushing s as phase) (hlock : s.lock ≠ some .reader)
    (s' : IncomingQueue) (as' : List ℕ) : Pushing s' as' phase := by
  cases phase with
  | idle | allocated => trivial
  | locked | pushed | tailed | linked => exact absurd h.1 hlock

/-- Without the lock `queue_pop` knows nothing of the list. -/
theorem Popping.of_ne {phase : PopPhase} (h : Popping s as phase) (hlock : s.lock ≠ some .drainer)
    (s' : IncomingQueue) (as' : List ℕ) : Popping s' as' phase := by
  cases phase with
  | idle | unlocked | copied => trivial
  | locked | unlocking | empty | found | headed => exact absurd h.1 hlock

/-- Writing outside of the list keeps what is known of it. -/
theorem InOrder.frame (h : s.InOrder as) (hheap : ∀ a ∈ as, s'.heap a = s.heap a)
    (hhead : s'.head = s.head) (htail : s'.tail = s.tail) : s'.InOrder as :=
  ⟨hhead ▸ h.1.frame hheap, htail.trans h.2⟩

theorem Pushing.frame {phase : PushPhase} (h : Pushing s as phase)
    (hheap : ∀ a ∈ as, s'.heap a = s.heap a) (hhead : s'.head = s.head) (htail : s'.tail = s.tail)
    (hlock : s'.lock = s.lock) : Pushing s' as phase := by
  cases phase with
  | idle | allocated => trivial
  | locked | pushed => exact ⟨hlock.trans h.1, h.2.frame hheap hhead htail⟩
  | tailed => exact ⟨hlock.trans h.1, h.2.1, h.2.2.1.frame hheap, htail.trans h.2.2.2⟩
  | linked => exact ⟨hlock.trans h.1, hhead ▸ h.2.1.frame hheap, h.2.2⟩

theorem Popping.frame {phase : PopPhase} (h : Popping s as phase)
    (hheap : ∀ a ∈ as, s'.heap a = s.heap a) (hhead : s'.head = s.head) (htail : s'.tail = s.tail)
    (hlock : s'.lock = s.lock) : Popping s' as phase := by
  cases phase with
  | idle | unlocked | copied => trivial
  | locked | unlocking => exact ⟨hlock.trans h.1, h.2.frame hheap hhead htail⟩
  | empty => exact ⟨hlock.trans h.1, h.2.1.frame hheap hhead htail, h.2.2⟩
  | found => exact ⟨hlock.trans h.1, h.2.1.frame hheap hhead htail, hhead.trans h.2.2⟩
  | headed => exact ⟨hlock.trans h.1, hhead ▸ h.2.1.frame hheap, htail.trans h.2.2⟩

/-! ## `queue_push` -/

/-- A node is allocated for a message. -/
theorem Sound.push (h : Sound s as) (hidle : s.push = .idle) {node : ℕ} (hfree : s.heap node = none)
    (message : TsMessage) :
    Sound { s with
      heap := Function.update s.heap node (some ⟨message, none⟩)
      push := .allocated node
      received := s.received ++ [message] } as := by
  obtain ⟨heap, head, tail, lock, push, pop, received, popped⟩ := s
  obtain rfl : push = .idle := hidle
  have hnew : node ∉ pop.own.toList ++ as := fun hmem =>
    (h.kept.allocated node).mp (List.mem_append_left _ hmem) hfree
  have hnewHand : node ∉ pop.hand.toList ++ as := fun hmem =>
    hnew ((pop.hand_sublist_own.append_right as).subset hmem)
  have hheap : ∀ a ∈ as, Function.update heap node (some ⟨message, none⟩) a = heap a := fun a ha =>
    Function.update_of_ne (ne_of_mem_of_not_mem (List.mem_append_right _ ha) hnew) ..
  have hself : Function.update heap node (some ⟨message, none⟩) node = some ⟨message, none⟩ :=
    Function.update_self ..
  refine ⟨h.reader, h.drainer, fun hlock => (h.order hlock).frame hheap rfl rfl, trivial,
    h.popping.frame hheap rfl rfl rfl, ?_, fun a => ?_, fun a ha => ?_, ?_⟩
  · have hnodup : (pop.own.toList ++ as ++ []).Nodup := h.kept.nodup
    rw [List.append_nil] at hnodup
    exact (List.perm_append_singleton node _).nodup_iff.mpr (List.nodup_cons.mpr ⟨hnew, hnodup⟩)
  · have hallocated : a ∈ pop.own.toList ++ as ++ [] ↔ heap a ≠ none := h.kept.allocated a
    rw [List.append_nil] at hallocated
    change a ∈ pop.own.toList ++ as ++ [node] ↔ Function.update heap node (some ⟨message, none⟩) a ≠ none
    by_cases ha : a = node
    · rw [ha, hself]
      simp
    · rw [Function.update_of_ne ha, ← hallocated, List.mem_append, List.mem_singleton, or_iff_left ha]
  · obtain rfl := Option.some.inj ha
    exact ⟨message, hself⟩
  · have hmessages : received = popped ++ heap.values (pop.hand.toList ++ as ++ []) := h.kept.messages
    change received ++ [message] = popped ++ Heap.values _ (pop.hand.toList ++ as ++ [node])
    rw [values_concat hself, values_update hnewHand, hmessages, List.append_nil, List.append_assoc]

/-- The node of `queue_push` is now the last one of the list. -/
theorem Kept.link (h : Kept s as) {node : ℕ} (hown : s.push.own = some node) (hown' : s'.push.own = none)
    (hpop : s'.pop = s.pop) (hreceived : s'.received = s.received) (hpopped : s'.popped = s.popped)
    (hheap : ∀ a, (s'.heap a).map Cell.value = (s.heap a).map Cell.value) : Kept s' (as ++ [node]) := by
  have hnodes : s'.nodes (as ++ [node]) = s.nodes as := by
    rw [nodes, nodes, hpop, hown, hown', Option.toList_none, Option.toList_some, List.append_nil,
      List.append_assoc]
  have hwaiting : s'.waiting (as ++ [node]) = s.waiting as := by
    rw [waiting, waiting, hpop, hown, hown', Option.toList_none, Option.toList_some, List.append_nil,
      List.append_assoc]
    exact values_congr fun a _ => hheap a
  refine ⟨hnodes ▸ h.nodup, fun a => ?_, fun a ha => ?_, ?_⟩
  · rw [hnodes, h.allocated, ne_eq, ne_eq, ← Option.map_eq_none_iff, ← hheap, Option.map_eq_none_iff]
  · rw [hown'] at ha
    cases ha
  · rw [hreceived, hpopped, hwaiting, h.messages]

/-- `queue_push` takes the lock or changes something while it holds it. -/
theorem Sound.inPush (h : Sound s as) {as' : List ℕ} (hlock : s.lock ≠ some .drainer) (hpop : s'.pop = s.pop)
    (hlock' : s'.lock = some .reader) (hlocked : s'.push.Locked) (hpushing : Pushing s' as' s'.push)
    (hkept : Kept s' as') : Sound s' as' where
  reader _ := hlocked
  drainer hdrainer := by rw [hlock'] at hdrainer; cases hdrainer
  order hnone := by rw [hlock'] at hnone; cases hnone
  pushing := hpushing
  popping := hpop ▸ h.popping.of_ne hlock s' as'
  kept := hkept

/-- Every statement of `queue_push` has an outcome, and keeps what holds. -/
theorem Sound.pushStep (h : Sound s as) {outcome : Except ℕ IncomingQueue}
    (hstep : s.pushStep = some outcome) : ∃ s' as', outcome = .ok s' ∧ Sound s' as' := by
  obtain ⟨heap, head, tail, lock, push, pop, received, popped⟩ := s
  have hkept := h.kept
  cases push with
  | idle => cases hstep
  | allocated node =>
    obtain ⟨rfl, hstep⟩ := Option.ite_none_right_eq_some.mp hstep
    obtain rfl := Option.some.inj hstep
    exact ⟨_, as, rfl, h.inPush nofun rfl rfl trivial ⟨rfl, h.order rfl⟩ { hkept with }⟩
  | locked node =>
    obtain ⟨rfl, hlinked, htail⟩ := h.pushing
    obtain ⟨message, hnode⟩ := hkept.last node rfl
    cases tail with
    | none =>
      obtain rfl := Option.some.inj hstep
      obtain rfl := List.getLast?_eq_none_iff.mp htail.symm
      exact ⟨_, [node], rfl, h.inPush nofun rfl rfl trivial ⟨rfl, rfl, ⟨rfl, _, hnode, rfl⟩, rfl⟩
        (hkept.link rfl rfl rfl rfl rfl fun _ => rfl)⟩
    | some last =>
      obtain ⟨before, rfl⟩ := List.getLast?_eq_some_iff.mp htail.symm
      obtain ⟨_, hbefore, rfl, cell, hcell, -⟩ := segment_append.mp hlinked
      have hlast : last ∉ before := fun hmem =>
        (List.nodup_append.mp (Linked.nodup hlinked)).2.2 last hmem last List.mem_cons_self rfl
      have hne : node ≠ last := fun heq =>
        (List.nodup_append.mp hkept.nodup).2.2 last
          (List.mem_append_right _ (List.mem_append_right _ List.mem_cons_self)) node List.mem_cons_self
          heq.symm
      simp only [IncomingQueue.pushStep, read_of_some _ hcell] at hstep
      obtain rfl := Option.some.inj hstep
      have hlink := hbefore.link hlast { cell with next := some node }
      refine ⟨_, before ++ [last] ++ [node], rfl, h.inPush nofun rfl rfl trivial
        ⟨rfl, ?_, List.getLast?_concat⟩ (hkept.link rfl rfl rfl rfl rfl fun a => ?_)⟩
      · exact hlink.concat ((Function.update_of_ne hne ..).trans hnode)
      · exact map_value_update_next hcell (some node) a
  | tailed node =>
    obtain ⟨rfl, rfl, hlinked, rfl⟩ := h.pushing
    obtain rfl := Option.some.inj hstep
    exact ⟨_, [node], rfl, h.inPush nofun rfl rfl trivial ⟨rfl, hlinked, rfl⟩ { hkept with }⟩
  | linked node =>
    obtain ⟨rfl, hlinked, hlast⟩ := h.pushing
    obtain rfl := Option.some.inj hstep
    exact ⟨_, as, rfl, h.inPush nofun rfl rfl trivial ⟨rfl, hlinked, hlast.symm⟩ { hkept with }⟩
  | pushed =>
    obtain ⟨rfl, horder⟩ := h.pushing
    obtain rfl := Option.some.inj hstep
    exact ⟨_, as, rfl, ⟨nofun, nofun, fun _ => horder, trivial, h.popping.of_ne nofun _ _, { hkept with }⟩⟩

/-! ## `queue_pop` -/

/-- `queue_pop` takes the lock or changes something while it holds it. -/
theorem Sound.inPop (h : Sound s as) {as' : List ℕ} (hlock : s.lock ≠ some .reader) (hpush : s'.push = s.push)
    (hlock' : s'.lock = some .drainer) (hlocked : s'.pop.Locked) (hpopping : Popping s' as' s'.pop)
    (hkept : Kept s' as') : Sound s' as' where
  reader hreader := by rw [hlock'] at hreader; cases hreader
  drainer _ := hlocked
  order hnone := by rw [hlock'] at hnone; cases hnone
  pushing := hpush ▸ h.pushing.of_ne hlock s' as'
  popping := hpopping
  kept := hkept

/-- Every statement of `queue_pop` has an outcome, and keeps what holds. -/
theorem Sound.popStep (h : Sound s as) {outcome : Except ℕ IncomingQueue}
    (hstep : s.popStep = some outcome) : ∃ s' as', outcome = .ok s' ∧ Sound s' as' := by
  obtain ⟨heap, head, tail, lock, push, pop, received, popped⟩ := s
  have hkept := h.kept
  cases pop with
  | idle =>
    obtain ⟨rfl, hstep⟩ := Option.ite_none_right_eq_some.mp hstep
    obtain rfl := Option.some.inj hstep
    exact ⟨_, as, rfl, h.inPop nofun rfl rfl trivial ⟨rfl, h.order rfl⟩ { hkept with }⟩
  | locked =>
    obtain ⟨rfl, horder⟩ := h.popping
    obtain rfl := Option.some.inj hstep
    cases head with
    | none =>
      exact ⟨_, as, rfl, h.inPop nofun rfl rfl trivial ⟨rfl, horder, Linked.eq_nil horder.1⟩
        { hkept with }⟩
    | some node => exact ⟨_, as, rfl, h.inPop nofun rfl rfl trivial ⟨rfl, horder, rfl⟩ { hkept with }⟩
  | empty =>
    obtain ⟨rfl, horder, -⟩ := h.popping
    obtain rfl := Option.some.inj hstep
    exact ⟨_, as, rfl, ⟨nofun, nofun, fun _ => horder, h.pushing.of_ne nofun _ _, trivial, { hkept with }⟩⟩
  | found node =>
    obtain ⟨rfl, ⟨hlinked, htail⟩, rfl⟩ := h.popping
    obtain ⟨cell, rest, rfl, hcell, hrest⟩ := Linked.exists_cons hlinked
    simp only [IncomingQueue.popStep, read_of_some _ hcell] at hstep
    obtain rfl := Option.some.inj hstep
    exact ⟨_, rest, rfl, h.inPop nofun rfl rfl trivial ⟨rfl, hrest, htail⟩ { hkept with }⟩
  | headed node =>
    obtain ⟨rfl, hlinked, htail⟩ := h.popping
    obtain rfl := Option.some.inj hstep
    refine ⟨_, as, rfl, h.inPop nofun rfl rfl trivial ⟨rfl, hlinked, ?_⟩ { hkept with }⟩
    cases as with
    | nil => exact if_pos hlinked
    | cons a rest =>
      obtain rfl := hlinked.1
      exact htail
  | unlocking node =>
    obtain ⟨rfl, horder⟩ := h.popping
    obtain rfl := Option.some.inj hstep
    exact ⟨_, as, rfl, ⟨nofun, nofun, fun _ => horder, h.pushing.of_ne nofun _ _, trivial, { hkept with }⟩⟩
  | unlocked node =>
    obtain ⟨cell, hcell⟩ := Option.ne_none_iff_exists'.mp ((hkept.allocated node).mp List.mem_cons_self)
    simp only [IncomingQueue.popStep, read_of_some _ hcell] at hstep
    obtain rfl := Option.some.inj hstep
    refine ⟨_, as, rfl, ⟨h.reader, h.drainer, h.order, h.pushing.frame (fun _ _ => rfl) rfl rfl rfl,
      trivial, { hkept with messages := ?_ }⟩⟩
    have hmessages : received = popped ++ heap.values (node :: (as ++ push.own.toList)) := hkept.messages
    rw [values_cons hcell] at hmessages
    exact hmessages.trans (List.append_cons ..)
  | copied node =>
    obtain ⟨cell, hcell⟩ := Option.ne_none_iff_exists'.mp ((hkept.allocated node).mp List.mem_cons_self)
    simp only [IncomingQueue.popStep, read_of_some _ hcell] at hstep
    obtain rfl := Option.some.inj hstep
    obtain ⟨hnode, hnodup⟩ := List.nodup_cons.mp hkept.nodup
    have hheap : ∀ a ∈ as, Function.update heap node none a = heap a := fun a ha =>
      Function.update_of_ne (ne_of_mem_of_not_mem (List.mem_append_left _ ha) hnode) ..
    refine ⟨_, as, rfl, ⟨h.reader, h.drainer, fun hlock => (h.order hlock).frame hheap rfl rfl,
      h.pushing.frame hheap rfl rfl rfl, trivial, hnodup, fun a => ?_, fun a ha => ?_, ?_⟩⟩
    · have hallocated : a ∈ node :: (as ++ push.own.toList) ↔ heap a ≠ none := hkept.allocated a
      change a ∈ as ++ push.own.toList ↔ Function.update heap node none a ≠ none
      by_cases ha : a = node
      · rw [ha, Function.update_self]
        exact iff_of_false hnode fun hne => hne rfl
      · rw [Function.update_of_ne ha, ← hallocated, List.mem_cons, or_iff_right ha]
    · obtain ⟨message, hmessage⟩ := hkept.last a ha
      have hmem : a ∈ as ++ push.own.toList := List.mem_append_right _ (Option.mem_toList.mpr ha)
      exact ⟨message, (Function.update_of_ne (ne_of_mem_of_not_mem hmem hnode) ..).trans hmessage⟩
    · have hmessages : received = popped ++ heap.values (as ++ push.own.toList) := hkept.messages
      exact hmessages.trans (congrArg _ (values_update hnode none).symm)

/-! ## All runs -/

/-- Whatever a thread does has an outcome, and keeps what holds. -/
theorem Sound.attempt (h : Sound s as) {action : QueueAction} {outcome : Except ℕ IncomingQueue}
    (hattempt : s.attempt action = some outcome) : ∃ s' as', outcome = .ok s' ∧ Sound s' as' := by
  cases action with
  | push node message =>
    cases node with
    | none =>
      obtain ⟨-, hok⟩ := Option.ite_none_right_eq_some.mp hattempt
      exact ⟨s, as, (Option.some.inj hok).symm, h⟩
    | some node =>
      obtain ⟨⟨hidle, hfree⟩, hok⟩ := Option.ite_none_right_eq_some.mp hattempt
      exact ⟨_, as, (Option.some.inj hok).symm, h.push hidle hfree message⟩
  | goPush => exact h.pushStep hattempt
  | goPop => exact h.popStep hattempt

theorem exists_sound {actions : List QueueAction} (hrun : run step init actions = some s) :
    ∃ as, Sound s as := by
  refine run_invariant (P := fun s => ∃ as, Sound s as) ?_ ⟨[], sound_init⟩ hrun
  rintro t action t' ⟨as, h⟩ hstep
  obtain ⟨outcome, hattempt, hok⟩ := Option.bind_eq_some_iff.mp hstep
  obtain ⟨u, as', rfl, hu⟩ := h.attempt hattempt
  obtain rfl := Option.some.inj hok
  exact ⟨as', hu⟩

/-- One of the threads can always go on. -/
theorem Sound.exists_attempt (h : Sound s as) :
    ∃ action, (action = .goPush ∨ action = .goPop) ∧ ∃ outcome, s.attempt action = some outcome := by
  obtain ⟨heap, head, tail, lock, push, pop, received, popped⟩ := s
  cases lock with
  | none => exact ⟨.goPop, .inr rfl, by cases pop <;> exact ⟨_, rfl⟩⟩
  | some thread =>
    cases thread with
    | reader =>
      have hlocked := h.reader rfl
      refine ⟨.goPush, .inl rfl, ?_⟩
      cases push with
      | idle | allocated => exact hlocked.elim
      | locked | tailed | linked | pushed => exact ⟨_, rfl⟩
    | drainer =>
      have hlocked := h.drainer rfl
      refine ⟨.goPop, .inr rfl, ?_⟩
      cases pop with
      | idle | unlocked | copied => exact hlocked.elim
      | locked | empty | found | headed | unlocking => exact ⟨_, rfl⟩

/-- In every interleaving of `queue_push` and `queue_pop` no thread follows a pointer to a node that has been
freed, no node is lost, the list is in order whenever no thread holds its lock, and the messages come out in
the order in which they went in, each of them once. `queue_pop` finds no node only when there is none, and
one of the threads can always go on. -/
theorem queue_keeps_order (actions : List QueueAction) (s : IncomingQueue)
    (hrun : run step init actions = some s) :
    (∀ action node, s.attempt action ≠ some (.error node)) ∧
      (∃ as, (s.lock = none → s.InOrder as) ∧ (s.nodes as).Nodup ∧
        (∀ a, a ∈ s.nodes as ↔ s.heap a ≠ none) ∧ s.received = s.popped ++ s.waiting as ∧
        (s.pop = .empty → as = [])) ∧
      ∃ action, (action = .goPush ∨ action = .goPop) ∧ ∃ s', s.step action = some s' := by
  obtain ⟨as, h⟩ := exists_sound hrun
  refine ⟨fun action node hattempt => ?_, ⟨as, h.order, h.kept.nodup, h.kept.allocated, h.kept.messages,
    fun hempty => ?_⟩, ?_⟩
  · obtain ⟨s', as', heq, -⟩ := h.attempt hattempt
    cases heq
  · have hpopping := h.popping
    rw [hempty] at hpopping
    exact hpopping.2.2
  · obtain ⟨action, haction, outcome, hattempt⟩ := h.exists_attempt
    obtain ⟨s', as', rfl, -⟩ := h.attempt hattempt
    exact ⟨action, haction, s', Option.bind_eq_some_iff.mpr ⟨_, hattempt, rfl⟩⟩

/-- Two messages are queued, the first one is taken, and its node is used for a third one, which `tail` does
not point to yet. -/
def nodeAgain : List QueueAction :=
  [.push (some 7) { tsMessageInit with version := 1 }, .goPush, .goPush, .goPush, .goPush,
    .push (some 9) { tsMessageInit with version := 2 }, .goPop, .goPop, .goPop, .goPop, .goPop,
    .goPush, .goPush, .goPush, .goPush, .goPop, .goPop,
    .push (some 7) { tsMessageInit with version := 3 }, .goPush, .goPush]

theorem queue_keeps_order_nodeAgain : ∃ s, run step init nodeAgain = some s ∧
    s.popped = [{ tsMessageInit with version := 1 }] ∧ s.push = .linked 7 ∧
    ∃ as, (s.nodes as).Nodup ∧ s.received = s.popped ++ s.waiting as := by
  have hany : (run step init nodeAgain).any
      (fun s => decide (s.popped = [{ tsMessageInit with version := 1 }] ∧ s.push = .linked 7)) = true := by
    decide +kernel
  obtain ⟨s, hrun, hstate⟩ := (Option.any_eq_true _ _).mp hany
  obtain ⟨-, ⟨as, -, hnodup, -, hmessages, -⟩, -⟩ := queue_keeps_order nodeAgain s hrun
  exact ⟨s, hrun, (of_decide_eq_true hstate).1, (of_decide_eq_true hstate).2, as, hnodup, hmessages⟩

end IncomingQueue

end TermSync
