import TermSync.Proofs.ClientListProofs

/-!
# Proofs: a freed connection in the list

When a thread does register an id that a connection in the list has, the other thread can leave: it takes
the first connection with its id out of the list, which is not its own, and frees its own one. The next
broadcast follows the pointer to it (`exists_fault`).
-/

namespace TermSync

open Foundations

namespace ClientList

variable {s s' : ClientList} {i j : ℕ}

/-- The thread `j` takes the connection of `i` for its own and frees its own one. -/
theorem exists_freed (own cell : Cell TsClientConnection) (hlock : s.clientsLock = none)
    (hi : s.phase i = .registered) (hj : s.phase j = .registered) (hlt : j < s.accepted) (hne : i ≠ j)
    (hfirst : s.clients = some (s.client i)) (hown : s.heap (s.client i) = some own)
    (hcell : s.heap (s.client j) = some cell) (hid : own.value.clientId = cell.value.clientId) :
    ∃ t, run step s [.leave j, .go j, .free j, .broadcast i] = some t ∧
      t.heap = Function.update s.heap (s.client j) none ∧ t.client = s.client ∧
      t.accepted = s.accepted ∧ t.phase i = .broadcasting [] own.next ∧ t.phase j = .freed := by
  have hleave : s.step (.leave j) = some (s.lock j (.unlinking none)) := by
    simp only [step, attempt, hj, hlock, and_self, if_true]
    rfl
  have hgo : (s.lock j (.unlinking none)).step (.go j) =
      some ({ s.lock j (.unlinking none) with clients := own.next }.unlock j .left) := by
    simp only [step, attempt, lock, setPhase, Function.update_self, goOn, load, hfirst, read, hown, hcell,
      bind, Except.bind, if_pos hid, store]
    rfl
  generalize hs₂ : ({ s.lock j (.unlinking none) with clients := own.next }.unlock j .left) = s₂ at hgo
  have hlocked₂ : s₂.clientsLock = none := by rw [← hs₂]; rfl
  have hheap₂ : s₂.heap = s.heap := by rw [← hs₂]; rfl
  have hclients₂ : s₂.clients = own.next := by rw [← hs₂]; rfl
  have hclient₂ : s₂.client = s.client := by rw [← hs₂]; rfl
  have haccepted₂ : s₂.accepted = s.accepted := by rw [← hs₂]; rfl
  have hphase₂ : s₂.phase = Function.update s.phase j .left := by
    rw [← hs₂]
    exact Function.update_idem ..
  have hfree : s₂.step (.free j) = some
      ({ s₂ with heap := Function.update s₂.heap (s₂.client j) none }.setPhase j .freed) := by
    simp only [step, attempt, hphase₂, Function.update_self, haccepted₂, hlt, read, hheap₂, hclient₂, hcell,
      or_true, and_self, if_true]
    rfl
  have hbroadcast :
      ({ s₂ with heap := Function.update s₂.heap (s₂.client j) none }.setPhase j .freed).step
        (.broadcast i) = some (({ s₂ with heap := Function.update s₂.heap (s₂.client j) none }.setPhase j
          .freed).lock i (.broadcasting [] own.next)) := by
    simp only [step, attempt, setPhase, hphase₂, hlocked₂, hclients₂, Function.update_of_ne hne, hi,
      and_self, if_true]
    rfl
  refine ⟨_, run_cons_some.mpr ⟨_, hleave, run_cons_some.mpr ⟨_, hgo, run_cons_some.mpr ⟨_, hfree,
    run_cons_some.mpr ⟨_, hbroadcast, rfl⟩⟩⟩⟩, ?_, hclient₂, haccepted₂, Function.update_self .., ?_⟩
  · simp only [lock, setPhase, hheap₂, hclient₂]
  · simp only [lock, setPhase, Function.update_of_ne hne.symm, Function.update_self]

/-- A broadcast walks along the connections before `b`. -/
theorem exists_walk {own : Cell TsClientConnection} {before : List ℕ} {b : ℕ} {p : Option ℕ}
    {sent : List ℕ}
    (h : Segment s.heap p before (some b)) (hown : s.heap (s.client i) = some own)
    (hphase : s.phase i = .broadcasting sent p) :
    ∃ t sent', run step s (List.replicate before.length (.go i)) = some t ∧ t.heap = s.heap ∧
      t.client = s.client ∧ t.accepted = s.accepted ∧ t.phase i = .broadcasting sent' (some b) ∧
      ∀ j ≠ i, t.phase j = s.phase j := by
  induction before generalizing s p sent with
  | nil =>
    obtain rfl := segment_nil.mp h
    exact ⟨s, sent, rfl, rfl, rfl, rfl, hphase, fun _ _ => rfl⟩
  | cons a before ih =>
    obtain ⟨rfl, cell, hcell, hrest⟩ := segment_cons.mp h
    have hgo : ∃ sent', s.step (.go i) = some (s.setPhase i (.broadcasting sent' cell.next)) := by
      by_cases hid : cell.value.clientId = own.value.clientId
      · refine ⟨sent, ?_⟩
        simp only [step, attempt, hphase, goOn, read, hcell, hown, bind, Except.bind, if_pos hid]
        rfl
      · refine ⟨sent ++ [cell.value.fd], ?_⟩
        simp only [step, attempt, hphase, goOn, read, hcell, hown, bind, Except.bind, if_neg hid]
        rfl
    obtain ⟨sent', hgo⟩ := hgo
    obtain ⟨t, sent'', hrun, hheap, hclient, haccepted, ht, hother⟩ :=
      ih (s := s.setPhase i (.broadcasting sent' cell.next)) hrest hown (Function.update_self ..)
    refine ⟨t, sent'', run_cons_some.mpr ⟨_, hgo, hrun⟩, hheap, hclient, haccepted, ht, fun j hj => ?_⟩
    rw [hother j hj]
    exact Function.update_of_ne hj ..

/-- The condition of `memory_safe` is needed: once a thread has registered an id that a connection in the
list has, the other thread can leave and the next broadcast accesses the connection that it has freed. -/
theorem exists_fault (actions : List ClientListAction) (i : ℕ) (s s' : ClientList)
    (hguard : Guarded step IdFree init actions) (hrun : run step init actions = some s)
    (hstep : s.step (.register i) = some s') (htaken : ¬ s.IdFree (.register i)) :
    ∃ more t j, run step s' more = some t ∧ t.phase j = .freed ∧
      t.attempt (.go i) = some (.error (.access (t.client j))) := by
  obtain ⟨ras, r, as, -, hsound⟩ := exists_sound (tsDocumentInit [] 1) hguard hrun
  obtain ⟨outcome, hattempt, hok⟩ := Option.bind_eq_some_iff.mp hstep
  simp only [attempt] at hattempt
  split_ifs at hattempt with hregister
  obtain ⟨hphase, hlock⟩ := hregister
  have hfreed : s.phase i ≠ .freed := by rw [hphase]; exact ThreadPhase.noConfusion
  have hi : i < s.accepted := hsound.lt_of_ne (by rw [hphase]; exact ThreadPhase.noConfusion)
  obtain ⟨own, hown, -, hvalue⟩ := hsound.exists_own hi hfreed
  simp only [s.read_of_some hown, bind, Except.bind] at hattempt
  obtain rfl := Option.some.inj hattempt
  obtain rfl := Option.some.inj hok
  -- another thread has registered the id
  obtain ⟨j, hj⟩ := not_forall.mp htaken
  obtain ⟨hlt, hj⟩ := Classical.not_imp.mp hj
  obtain ⟨hlisted, hsame⟩ := Classical.not_imp.mp hj
  have hne : i ≠ j := by
    rintro rfl
    rw [hphase] at hlisted
    exact hlisted
  have hphase' : s.phase j = .registered := by
    have hunlocked : ¬ (s.phase j).Locked := by
      rw [← hsound.lock j, hlock]
      exact (Option.some_ne_none j).symm
    cases hp : s.phase j <;> rw [hp] at hlisted hunlocked <;>
      first | rfl | exact hlisted.elim | exact absurd trivial hunlocked
  have hfreed' : s.phase j ≠ .freed := by rw [hphase']; exact ThreadPhase.noConfusion
  obtain ⟨cell, hcell, -, hvalue'⟩ := hsound.exists_own hlt hfreed'
  rw [not_not, hvalue, hvalue', Option.map_some, Option.map_some, Option.some.injEq] at hsame
  have hclients : s.client j ≠ s.client i := fun heq =>
    hne (hsound.eq_of_client hi hfreed hlt hfreed' heq.symm)
  have hnot : s.client i ∉ as := by
    rw [hsound.listed_iff hi hfreed, hphase]
    exact id
  obtain ⟨t, hrun₁, hheap, hclient, -, hwalking, hgone⟩ := exists_freed
    (s := { s.write (s.client i) { own with next := s.clients } with
      clients := some (s.client i) }.setPhase i .registered) (i := i) (j := j)
    { own with next := s.clients } cell hlock (Function.update_self ..)
    ((Function.update_of_ne hne.symm ..).trans hphase') hlt hne rfl (Function.update_self ..)
    ((Function.update_of_ne hclients ..).trans hcell) hsame.symm
  -- the list is what it was, and the broadcast comes to the connection of `j`
  obtain ⟨before, after, rfl⟩ := List.append_of_mem (hsound.mem_of_listed hlisted)
  have hnodup := Linked.nodup hsound.linked
  obtain ⟨q, hbefore, hrest⟩ := segment_append.mp hsound.linked
  obtain ⟨rfl, -⟩ := segment_cons.mp hrest
  have hwritten : ∀ a ∈ before, t.heap a = s.heap a := by
    intro a ha
    have hai : a ≠ s.client i := ne_of_mem_of_not_mem (List.mem_append_left _ ha) hnot
    have haj : a ≠ s.client j := (List.nodup_append.mp hnodup).2.2 a ha _ List.mem_cons_self
    rw [hheap]
    exact (Function.update_of_ne haj ..).trans (Function.update_of_ne hai ..)
  have howned : t.heap (t.client i) = some { own with next := s.clients } := by
    rw [hheap, hclient]
    exact (Function.update_of_ne hclients.symm ..).trans (Function.update_self ..)
  obtain ⟨t', sent, hrun₂, hheap', hclient', -, hwalking', hother⟩ :=
    exists_walk (hbefore.frame hwritten) howned hwalking
  refine ⟨_, t', j, run_append_some.mpr ⟨t, hrun₁, hrun₂⟩, (hother j hne.symm).trans hgone, ?_⟩
  have hnull : t'.heap (t'.client j) = none := by
    rw [hheap', hclient', hheap, hclient]
    exact Function.update_self ..
  have hcursor : t'.client j = s.client j := by
    rw [hclient', hclient]
    rfl
  rw [hcursor] at hnull ⊢
  simp only [attempt, hwalking', goOn, read, hnull, bind, Except.bind]

/-- Two clients choose one id before either of them registers. -/
def bothAnn : List ClientListAction :=
  [.accept 7 [], .detach, .accept 9 [], .detach, .join 0 (bytes "ann"), .go 0, .join 1 (bytes "ann"),
    .go 1, .register 0]

theorem exists_fault_bothAnn : ∃ s s' more t j, run step init bothAnn = some s ∧
    s.step (.register 1) = some s' ∧ run step s' more = some t ∧ t.phase j = .freed ∧
      t.attempt (.go 1) = some (.error (.access (t.client j))) := by
  have hany : (run step init bothAnn).any (fun s => decide (¬ s.IdFree (.register 1)) &&
      (s.step (.register 1)).isSome) = true := by decide
  obtain ⟨s, hrun, hs⟩ := (Option.any_eq_true _ _).mp hany
  obtain ⟨htaken, hsome⟩ := (Bool.and_eq_true _ _).mp hs
  obtain ⟨s', hstep⟩ := Option.isSome_iff_exists.mp hsome
  have hguard : Guarded step IdFree init bothAnn := by decide
  obtain ⟨more, t, j, hmore, hphase, hfault⟩ :=
    exists_fault bothAnn 1 s s' hguard hrun hstep (of_decide_eq_true htaken)
  exact ⟨s, s', more, t, j, hrun, hstep, hmore, hphase, hfault⟩

end ClientList

end TermSync
