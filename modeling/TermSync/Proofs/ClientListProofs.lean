import TermSync.ClientList
import TermSync.Proofs.FreshIdProofs
import TermSync.Proofs.RegistryProofs

/-!
# Proofs: the list of clients in memory

As long as no thread registers a taken id, each critical section does to the list in memory what `Registry`
says, with other threads allocating and freeing connections in between (`Sound.step`). Whoever follows a
pointer holds the lock, and a connection in the list belongs to a thread that needs the lock before it can
free it (`Sound.defined`).
-/

namespace TermSync

open Foundations

/-- The phase of a thread whose connection is registered. -/
theorem ThreadPhase.Shows.listed {phase : ThreadPhase} {o : Option TsClientConnection}
    {client : TsClientConnection} (h : phase.Shows o (.registered client)) :
    phase.Listed ∧ o = some client := by
  cases phase <;> simp_all [ThreadPhase.Shows, ThreadPhase.Listed]

theorem ThreadPhase.Shows.of_listed {phase : ThreadPhase} {o : Option TsClientConnection}
    {thread : RegistryPhase} (h : phase.Shows o thread) (hlisted : phase.Listed) :
    ∃ client, o = some client ∧ thread = .registered client := by
  cases phase <;> first | exact hlisted.elim | exact h

namespace ClientList

variable {s s' : ClientList} {r : Registry} {as : List ℕ} {i : ℕ}

/-! ## Numbers -/

/-- The loop over the numbers passes those that are taken. -/
theorem nextFreeClientId_of_taken {server : TsServer} {k trials : ℕ} {number : ℤ} (hk : k < trials)
    (hmax : number + k < intMax)
    (htaken : ∀ j < k, clientIdExistsLocked server (printClientId (number + j)) = true)
    (hfree : clientIdExistsLocked server (printClientId (number + k)) = false) :
    nextFreeClientId server trials number = some (printClientId (number + k), number + k + 1) := by
  induction k generalizing number trials with
  | zero =>
    obtain ⟨trials, rfl⟩ : ∃ t, trials = t + 1 := ⟨trials - 1, by omega⟩
    rw [Nat.cast_zero, Int.add_zero] at hmax hfree ⊢
    rw [nextFreeClientId, if_pos hmax]
    exact if_neg (by rw [← printClientId, hfree]; exact Bool.false_ne_true)
  | succ k ih =>
    obtain ⟨trials, rfl⟩ : ∃ t, trials = t + 1 := ⟨trials - 1, by omega⟩
    have hfirst := htaken 0 (Nat.succ_pos k)
    rw [Nat.cast_zero, Int.add_zero] at hfirst
    have hcast (j : ℕ) : number + ((j + 1 : ℕ) : ℤ) = number + 1 + j := by omega
    rw [hcast] at hmax hfree ⊢
    rw [nextFreeClientId, if_pos (by omega)]
    refine (if_pos hfirst).trans (ih (Nat.lt_of_succ_lt_succ hk) hmax (fun j hj => ?_) hfree)
    rw [← hcast]
    exact htaken (j + 1) (Nat.succ_lt_succ hj)

/-- There are not more taken numbers in a row than clients. -/
theorem le_length_of_taken {server : TsServer} {k : ℕ} {number : ℤ} (hmin : intMin ≤ number)
    (hmax : number + k < intMax)
    (htaken : ∀ j < k, clientIdExistsLocked server (printClientId (number + j)) = true) :
    k ≤ server.clients.length := by
  by_contra hk
  have hname : Set.InjOn (fun j : ℕ => printClientId (number + j))
      (Set.Iic (server.clients.map TsClientConnection.clientId).length) := by
    intro i hi j hj heq
    rw [Set.mem_Iic, List.length_map] at hi hj
    simp only at heq
    rw [printClientId_eq (by omega) (by omega), printClientId_eq (by omega) (by omega)] at heq
    have := formatInt_injective (List.cons.inj heq).2
    omega
  obtain ⟨j, hj, hnot⟩ := exists_le_notMem _ hname
  rw [List.length_map] at hj
  exact hnot ((clientIdExistsLocked_iff_mem server _).mp (htaken j (by omega)))

/-! ## What holds of every state -/

/-- The requested id cannot be used. -/
def Refused (r : Registry) (requested : Bytes) : Prop :=
  ¬ (requested ≠ [] ∧ clientIdExistsLocked r.server requested = false)

/-- The numbers below `n` have been tried. -/
def Tried (r : Registry) (n : ℤ) : Prop :=
  r.server.nextClientNumber ≤ n ∧
    ∀ m, r.server.nextClientNumber ≤ m → m < n →
      clientIdExistsLocked r.server (printClientId m) = true

/-- The sockets that a broadcast writes to. -/
def targets (own : TsClientConnection) (clients : List TsClientConnection) : List ℕ :=
  (clients.filter fun client => client.clientId ≠ own.clientId).map TsClientConnection.fd

/-- What a thread in a loop has done so far. -/
def Loop (s : ClientList) (r : Registry) (as : List ℕ) (i : ℕ) : ThreadPhase → Prop
  | .asking requested client => s.nextClientNumber = r.server.nextClientNumber ∧ requested ≠ [] ∧
      ∃ before, Walked s.heap as before client ∧ ∀ c ∈ s.heap.values before, c.clientId ≠ requested
  | .retrying requested => Refused r requested ∧ Tried r s.nextClientNumber
  | .counting requested client => Refused r requested ∧ Tried r (s.nextClientNumber - 1) ∧
      s.nextClientNumber - 1 < intMax ∧
      ∃ own before, s.own i = some own ∧ own.clientId = printClientId (s.nextClientNumber - 1) ∧
        Walked s.heap as before client ∧ ∀ c ∈ s.heap.values before, c.clientId ≠ own.clientId
  | .broadcasting sent client => s.nextClientNumber = r.server.nextClientNumber ∧
      ∃ own before, s.own i = some own ∧ Walked s.heap as before client ∧
        sent = targets own (s.heap.values before)
  | .unlinking cursor => s.nextClientNumber = r.server.nextClientNumber ∧
      ∃ own before after, s.own i = some own ∧ as = before ++ after ∧ before.getLast? = cursor ∧
        ∀ c ∈ s.heap.values before, c.clientId ≠ own.clientId
  | .starting | .chosen | .registered | .left | .freed => True

/-- The memory holds the connections of the threads that have not ended, and those that are registered are
linked to a list. -/
structure Sound (s : ClientList) (r : Registry) (as : List ℕ) : Prop where
  linked : Linked s.heap s.clients as
  values : s.heap.values as = r.server.clients
  number : s.clientsLock = none → s.nextClientNumber = r.server.nextClientNumber
  threads : ∀ i, (s.phase i).Shows (s.own i) (r.threads i)
  registry : Registry.Inv r
  positive : 1 ≤ r.server.nextClientNumber
  live : ∀ i < s.accepted, s.phase i ≠ .freed →
    ∃ cell, s.heap (s.client i) = some cell ∧ cell.value.fd = i
  owned : ∀ a cell, s.heap a = some cell → ∃ i < s.accepted, s.phase i ≠ .freed ∧ s.client i = a
  absent : ∀ i, s.accepted ≤ i → s.phase i = .starting
  lock : ∀ i, s.clientsLock = some i ↔ (s.phase i).Locked
  loops : ∀ i, Loop s r as i (s.phase i)
  /-- The connection that `main` has still to look at is nobody else's. -/
  started : ∀ i, s.main = some i → i < s.accepted ∧
    ∀ j < s.accepted, s.phase j ≠ .freed → s.client j = s.client i → j = i

theorem sound_init (document : TsDocument) : Sound init (Registry.init document) [] where
  linked := rfl
  values := rfl
  number _ := rfl
  threads _ := rfl
  registry := Registry.inv_init document
  positive := le_rfl
  live i hi := absurd hi (Nat.not_lt_zero i)
  owned a cell h := by cases h
  absent i _ := rfl
  lock i := by simp [init, ThreadPhase.Locked]
  loops i := trivial
  started i hi := by cases hi

theorem Sound.shows (h : Sound s r as) : s.Shows r where
  clients := ⟨as, h.linked, h.values⟩
  number := h.number
  threads := h.threads

theorem read_of_some (s : ClientList) {a : ℕ} {cell : Cell TsClientConnection} (h : s.heap a = some cell) :
    s.read a = .ok cell := by rw [read, h]

/-- The connection of a thread that has not ended. -/
theorem Sound.exists_own (h : Sound s r as) (hi : i < s.accepted) (hphase : s.phase i ≠ .freed) :
    ∃ cell, s.heap (s.client i) = some cell ∧ cell.value.fd = i ∧ s.own i = some cell.value := by
  obtain ⟨cell, hcell, hfd⟩ := h.live i hi hphase
  exact ⟨cell, hcell, hfd, by rw [own, hcell]; rfl⟩

theorem Sound.lt_of_ne (h : Sound s r as) (hphase : s.phase i ≠ .starting) : i < s.accepted := by
  by_contra hi
  exact hphase (h.absent i (by omega))

/-- Threads that have not ended have connections of their own. -/
theorem Sound.eq_of_client (h : Sound s r as) {j : ℕ} (hi : i < s.accepted) (hphase : s.phase i ≠ .freed)
    (hj : j < s.accepted) (hphase' : s.phase j ≠ .freed) (heq : s.client i = s.client j) : i = j := by
  obtain ⟨cell, hcell, hfd⟩ := h.live i hi hphase
  obtain ⟨cell', hcell', hfd'⟩ := h.live j hj hphase'
  rw [heq] at hcell
  obtain rfl := Option.some.inj (hcell.symm.trans hcell')
  exact hfd.symm.trans hfd'

/-- What is in the list is the connection of a thread that has registered it. -/
theorem Sound.exists_listed (h : Sound s r as) {a : ℕ} (ha : a ∈ as) :
    ∃ i < s.accepted, (s.phase i).Listed ∧ s.client i = a := by
  obtain ⟨cell, hcell⟩ := h.linked.allocated ha
  obtain ⟨i, hi, hphase, rfl⟩ := h.owned a cell hcell
  obtain ⟨cell', hcell', hfd⟩ := h.live i hi hphase
  obtain rfl := Option.some.inj (hcell.symm.trans hcell')
  have hmem : cell.value ∈ r.server.clients := by
    rw [← h.values]
    exact mem_values.mpr ⟨_, ha, cell, hcell, rfl⟩
  obtain ⟨j, hj⟩ := (h.registry.registered cell.value).mp hmem
  have hji : j = i := by rw [← h.registry.own j cell.value (Or.inr hj), hfd]
  have hshows := h.threads j
  rw [hj] at hshows
  exact ⟨i, hi, hji ▸ (hshows.listed).1, rfl⟩

/-- A thread that has registered its connection finds it in the list. -/
theorem Sound.mem_of_listed (h : Sound s r as) (hlisted : (s.phase i).Listed) : s.client i ∈ as := by
  obtain ⟨client, hown, hthread⟩ := (h.threads i).of_listed hlisted
  have hmem : client ∈ s.heap.values as := by
    rw [h.values]
    exact (h.registry.registered client).mpr ⟨i, hthread⟩
  obtain ⟨a, ha, cell, hcell, rfl⟩ := mem_values.mp hmem
  have hfd := h.registry.own i cell.value (Or.inr hthread)
  obtain ⟨j, hj, hphase, rfl⟩ := h.owned a cell hcell
  obtain ⟨cell', hcell', hfd'⟩ := h.live j hj hphase
  obtain rfl := Option.some.inj (hcell.symm.trans hcell')
  exact (hfd.symm.trans hfd') ▸ ha

theorem Sound.listed_iff (h : Sound s r as) (hi : i < s.accepted) (hphase : s.phase i ≠ .freed) :
    s.client i ∈ as ↔ (s.phase i).Listed := by
  constructor
  · intro ha
    obtain ⟨j, hj, hlisted, heq⟩ := h.exists_listed ha
    have hphase' : s.phase j ≠ .freed := by
      intro hfreed
      rw [hfreed] at hlisted
      exact hlisted
    exact h.eq_of_client hi hphase hj hphase' heq.symm ▸ hlisted
  · exact h.mem_of_listed

/-- What `main` has still to look at stays when a thread that has not ended goes on or ends. -/
theorem Sound.started_of_unfreed (h : Sound s r as) (hmain : s'.main = s.main)
    (haccepted : s'.accepted = s.accepted) (hclient : s'.client = s.client)
    (hfreed : s.phase i ≠ .freed) (hother : ∀ j ≠ i, s'.phase j = s.phase j) (k : ℕ)
    (hk : s'.main = some k) : k < s'.accepted ∧
      ∀ j < s'.accepted, s'.phase j ≠ .freed → s'.client j = s'.client k → j = k := by
  have hphase (j : ℕ) (hj : s'.phase j ≠ .freed) : s.phase j ≠ .freed := by
    by_cases hji : j = i
    · exact hji ▸ hfreed
    · exact hother j hji ▸ hj
  rw [hmain] at hk
  rw [haccepted, hclient]
  obtain ⟨hlt, hnew⟩ := h.started k hk
  exact ⟨hlt, fun j hj hunfreed => hnew j hj (hphase j hunfreed)⟩

/-- A thread that is in no loop. -/
theorem loop_of_unlocked {phase : ThreadPhase} (h : ¬ phase.Locked) : Loop s r as i phase := by
  cases phase <;> first | trivial | exact absurd trivial h

/-- When a thread holds the lock, no other thread is in a loop. -/
theorem Sound.not_locked (h : Sound s r as) {j : ℕ} (hi : s.clientsLock = some i) (hj : j ≠ i) :
    ¬ (s.phase j).Locked := by
  intro hlocked
  exact hj (Option.some.inj (((h.lock j).mpr hlocked).symm.trans hi))

/-- A loop depends on the cells of the list and on the own connection. -/
theorem Loop.frame {phase : ThreadPhase} (h : Loop s r as i phase)
    (hheap : ∀ a ∈ as, s'.heap a = s.heap a) (hown : s'.own i = s.own i)
    (hnumber : s'.nextClientNumber = s.nextClientNumber) : Loop s' r as i phase := by
  have hvalues {before after : List ℕ} (heq : as = before ++ after) :
      s'.heap.values before = s.heap.values before :=
    values_congr fun a ha => by rw [hheap a (heq ▸ List.mem_append_left after ha)]
  cases phase with
  | asking requested client =>
    obtain ⟨heq, hne, before, hwalked, hpassed⟩ := h
    refine ⟨hnumber.trans heq, hne, before, hwalked.frame hheap, ?_⟩
    obtain ⟨after, heq, -⟩ := hwalked
    rw [hvalues heq]
    exact hpassed
  | retrying requested =>
    simp only [Loop, hnumber]
    exact h
  | counting requested client =>
    simp only [Loop, hnumber, hown]
    obtain ⟨hrefused, htried, hlt, own, before, howned, hid, hwalked, hpassed⟩ := h
    refine ⟨hrefused, htried, hlt, own, before, howned, hid, hwalked.frame hheap, ?_⟩
    obtain ⟨after, heq, -⟩ := hwalked
    rw [hvalues heq]
    exact hpassed
  | broadcasting sent client =>
    obtain ⟨heq, own, before, howned, hwalked, hsent⟩ := h
    refine ⟨hnumber.trans heq, own, before, hown.trans howned, hwalked.frame hheap, ?_⟩
    obtain ⟨after, heq, -⟩ := hwalked
    rw [hvalues heq]
    exact hsent
  | unlinking cursor =>
    obtain ⟨hsame, own, before, after, howned, heq, hlast, hpassed⟩ := h
    refine ⟨hnumber.trans hsame, own, before, after, hown.trans howned, heq, hlast, ?_⟩
    rw [hvalues heq]
    exact hpassed
  | _ => trivial

/-! ## Steps that keep the list -/

/-- A thread goes on without changing the list. It may write its own connection while that is not in the
list. -/
theorem Sound.advance (h : Sound s r as) {r' : Registry} {phase : ThreadPhase} (hi : i < s.accepted)
    (hheap : ∀ a, a ≠ s.client i → s'.heap a = s.heap a) (hlist : ∀ a ∈ as, s'.heap a = s.heap a)
    (hlive : ∃ cell, s'.heap (s.client i) = some cell ∧ cell.value.fd = i)
    (hclients : s'.clients = s.clients) (hmain : s'.main = s.main) (haccepted : s'.accepted = s.accepted)
    (hclient : s'.client = s.client) (hphase : s'.phase = Function.update s.phase i phase)
    (hfreed : s.phase i ≠ .freed) (hfreed' : phase ≠ .freed)
    (hfree : s.clientsLock = none ∨ s.clientsLock = some i)
    (hlock : s'.clientsLock = some i ∧ phase.Locked ∨ s'.clientsLock = none ∧ ¬ phase.Locked)
    (hregistered : r'.server.clients = r.server.clients) (hthreads : ∀ j ≠ i, r'.threads j = r.threads j)
    (hregistry : Registry.Inv r') (hpositive : 1 ≤ r'.server.nextClientNumber)
    (hnumber : s'.clientsLock = none → s'.nextClientNumber = r'.server.nextClientNumber)
    (hshows : phase.Shows (s'.own i) (r'.threads i)) (hloop : Loop s' r' as i phase) :
    Sound s' r' as := by
  have hself : s'.phase i = phase := by rw [hphase, Function.update_self]
  have hother {j : ℕ} (hj : j ≠ i) : s'.phase j = s.phase j := by
    rw [hphase, Function.update_of_ne hj]
  have hunlocked {j : ℕ} (hj : j ≠ i) : ¬ (s.phase j).Locked := by
    rcases hfree with hnone | hsome
    · rw [← h.lock j, hnone]
      exact (Option.some_ne_none j).symm
    · exact h.not_locked hsome hj
  -- the connections of the other threads are what they were
  have howns {j : ℕ} (hj : j ≠ i) (hlt : j < s.accepted) (hphase' : s.phase j ≠ .freed) :
      s'.heap (s.client j) = s.heap (s.client j) :=
    hheap _ fun heq => hj (h.eq_of_client hlt hphase' hi hfreed heq)
  constructor
  · rw [hclients]
    exact h.linked.frame hlist
  · rw [hregistered, ← h.values]
    exact values_congr fun a ha => by rw [hlist a ha]
  · exact hnumber
  · intro j
    by_cases hj : j = i
    · rw [hj, hself]
      exact hshows
    · rw [hother hj, hthreads j hj]
      by_cases hlt : j < s.accepted
      · by_cases hphase' : s.phase j = .freed
        · have hold := h.threads j
          rw [hphase'] at hold ⊢
          exact hold
        · rw [own, hclient, howns hj hlt hphase']
          exact h.threads j
      · have hold := h.threads j
        rw [h.absent j (by omega)] at hold ⊢
        exact hold
  · exact hregistry
  · exact hpositive
  · intro j hlt hphase'
    rw [haccepted] at hlt
    rw [hclient]
    by_cases hj : j = i
    · rw [hj]
      exact hlive
    · rw [hother hj] at hphase'
      rw [howns hj hlt hphase']
      exact h.live j hlt hphase'
  · intro a cell hcell
    rw [haccepted, hclient]
    by_cases ha : a = s.client i
    · exact ⟨i, hi, hself ▸ hfreed', ha.symm⟩
    · rw [hheap a ha] at hcell
      obtain ⟨j, hlt, hphase', rfl⟩ := h.owned a cell hcell
      have hj : j ≠ i := fun hj => ha (by rw [hj])
      exact ⟨j, hlt, (hother hj).symm ▸ hphase', rfl⟩
  · intro j hj
    rw [haccepted] at hj
    rw [hother (by omega)]
    exact h.absent j hj
  · intro j
    by_cases hj : j = i
    · rw [hj, hself]
      rcases hlock with ⟨hsome, hlocked⟩ | ⟨hnone, hlocked⟩
      · exact iff_of_true hsome hlocked
      · rw [hnone]
        exact iff_of_false (Option.some_ne_none i).symm hlocked
    · rw [hother hj]
      refine iff_of_false (fun hsome => ?_) (hunlocked hj)
      rcases hlock with ⟨hsome', -⟩ | ⟨hnone, -⟩
      · exact hj (Option.some.inj (hsome.symm.trans hsome'))
      · rw [hnone] at hsome
        cases hsome
  · intro j
    by_cases hj : j = i
    · rw [hj, hself]
      exact hloop
    · rw [hother hj]
      exact loop_of_unlocked (hunlocked hj)
  · exact h.started_of_unfreed hmain haccepted hclient hfreed fun _ => hother

/-- A thread goes on without writing to a connection. -/
theorem Sound.move (h : Sound s r as) {phase : ThreadPhase} {l : Option ℕ} (hi : i < s.accepted)
    (hfreed : s.phase i ≠ .freed) (hfreed' : phase ≠ .freed)
    (hfree : s.clientsLock = none ∨ s.clientsLock = some i)
    (hlock : l = some i ∧ phase.Locked ∨ l = none ∧ ¬ phase.Locked)
    (hnumber : l = none → s.nextClientNumber = r.server.nextClientNumber)
    (hshows : phase.Shows (s.own i) (r.threads i)) (hloop : Loop s r as i phase) :
    Sound ({ s with clientsLock := l }.setPhase i phase) r as :=
  h.advance hi (fun _ _ => rfl) (fun _ _ => rfl) (h.live i hi hfreed) rfl rfl rfl rfl rfl hfreed hfreed' hfree
    hlock rfl (fun _ _ => rfl) h.registry h.positive hnumber hshows
    (hloop.frame (s := s) (fun _ _ => rfl) rfl rfl)

/-! ## Threads that come and go -/

/-- A connection is allocated wherever there is room. -/
theorem Sound.accept (h : Sound s r as) {a : ℕ} (ha : s.heap a = none) (address : Bytes) :
    Sound
      { s.write a ⟨⟨s.accepted, [], address⟩, none⟩ with
        main := some s.accepted
        accepted := s.accepted + 1
        client := Function.update s.client s.accepted a } r as := by
  have hnot : a ∉ as := fun hmem => by
    obtain ⟨cell, hcell⟩ := h.linked.allocated hmem
    rw [ha] at hcell
    cases hcell
  have hheap {b : ℕ} (hb : b ≠ a) :
      Function.update s.heap a (some ⟨⟨s.accepted, [], address⟩, none⟩) b = s.heap b :=
    Function.update_of_ne hb ..
  have hlist : ∀ b ∈ as, Function.update s.heap a (some ⟨⟨s.accepted, [], address⟩, none⟩) b = s.heap b :=
    fun b hb => hheap (ne_of_mem_of_not_mem hb hnot)
  have hclient {j : ℕ} (hj : j < s.accepted) : Function.update s.client s.accepted a j = s.client j :=
    Function.update_of_ne (by omega) ..
  have hlive {j : ℕ} (hj : j < s.accepted) (hphase : s.phase j ≠ .freed) : s.client j ≠ a := by
    rintro rfl
    obtain ⟨cell, hcell, -⟩ := h.live j hj hphase
    rw [ha] at hcell
    cases hcell
  have hown {j : ℕ} (hj : j < s.accepted) (hphase : s.phase j ≠ .freed) :
      Function.update s.heap a (some ⟨⟨s.accepted, [], address⟩, none⟩)
        (Function.update s.client s.accepted a j) = s.heap (s.client j) := by
    rw [hclient hj, hheap (hlive hj hphase)]
  constructor
  · exact h.linked.frame hlist
  · rw [← h.values]
    exact values_congr fun b hb => congrArg (Option.map Cell.value) (hlist b hb)
  · exact h.number
  · intro j
    have hold := h.threads j
    by_cases hj : j < s.accepted
    · by_cases hphase : s.phase j = .freed
      · simp only [write, hphase] at hold ⊢
        exact hold
      · simp only [own, write, hown hj hphase]
        exact hold
    · simp only [write, h.absent j (by omega)] at hold ⊢
      exact hold
  · exact h.registry
  · exact h.positive
  · intro j hj hphase
    by_cases hlt : j < s.accepted
    · simp only [write, hown hlt hphase]
      exact h.live j hlt hphase
    · obtain rfl : j = s.accepted := by
        dsimp only at hj
        omega
      simp only [write, Function.update_self]
      exact ⟨_, rfl, rfl⟩
  · intro b cell hcell
    by_cases hb : b = a
    · refine ⟨s.accepted, Nat.lt_succ_self _, ?_, ?_⟩
      · simp only [write, h.absent s.accepted le_rfl]
        exact ThreadPhase.noConfusion
      · simp only [Function.update_self, hb]
    · simp only [write, hheap hb] at hcell
      obtain ⟨j, hj, hphase, rfl⟩ := h.owned b cell hcell
      exact ⟨j, Nat.lt_succ_of_lt hj, hphase, hclient hj⟩
  · intro j hj
    exact h.absent j (by dsimp only at hj; omega)
  · exact h.lock
  · intro j
    by_cases hj : j < s.accepted
    · by_cases hphase : s.phase j = .freed
      · refine loop_of_unlocked ?_
        simp only [write, hphase]
        exact id
      · refine (h.loops j).frame hlist ?_ rfl
        simp only [own, write, hown hj hphase]
    · refine loop_of_unlocked ?_
      simp only [write, h.absent j (by omega)]
      exact id
  · intro i hi
    obtain rfl : s.accepted = i := Option.some.inj hi
    refine ⟨Nat.lt_succ_self _, fun j hj hphase heq => ?_⟩
    -- the address was free before
    by_contra hne
    have hlt : j < s.accepted := by
      dsimp only at hj
      omega
    dsimp only at heq
    rw [Function.update_self] at heq
    exact hlive hlt hphase ((hclient hlt).symm.trans heq)

/-- `main` detaches a thread that has not ended. -/
theorem Sound.detach (h : Sound s r as) : Sound { s with main := none } r as where
  linked := h.linked
  values := h.values
  number := h.number
  threads := h.threads
  registry := h.registry
  positive := h.positive
  live := h.live
  owned := h.owned
  absent := h.absent
  lock := h.lock
  loops i := (h.loops i).frame (fun _ _ => rfl) rfl rfl
  started i hi := by cases hi

/-- A thread that has left the list, or has never joined, frees its connection. -/
theorem Sound.free (h : Sound s r as) (hi : i < s.accepted)
    (hphase : s.phase i = .starting ∨ s.phase i = .left) :
    Sound ({ s with heap := Function.update s.heap (s.client i) none }.setPhase i .freed) r as := by
  have hfreed : s.phase i ≠ .freed := by rcases hphase with h | h <;> rw [h] <;> exact ThreadPhase.noConfusion
  have hnot : s.client i ∉ as := by
    rw [h.listed_iff hi hfreed]
    rcases hphase with h | h <;> rw [h] <;> exact id
  have hlist : ∀ b ∈ as, Function.update s.heap (s.client i) none b = s.heap b :=
    fun b hb => Function.update_of_ne (ne_of_mem_of_not_mem hb hnot) ..
  have hother {j : ℕ} (hj : j ≠ i) : Function.update s.phase i .freed j = s.phase j :=
    Function.update_of_ne hj ..
  have howns {j : ℕ} (hj : j ≠ i) (hlt : j < s.accepted) (hphase' : s.phase j ≠ .freed) :
      Function.update s.heap (s.client i) none (s.client j) = s.heap (s.client j) :=
    Function.update_of_ne (fun heq => hj (h.eq_of_client hlt hphase' hi hfreed heq)) ..
  have hown {j : ℕ} (hj : j ≠ i) (hlt : j < s.accepted) (hphase' : s.phase j ≠ .freed) :
      ({ s with heap := Function.update s.heap (s.client i) none }.setPhase i .freed).own j = s.own j := by
    simp only [own, setPhase, howns hj hlt hphase']
  constructor
  · exact h.linked.frame hlist
  · rw [← h.values]
    exact values_congr fun b hb => congrArg (Option.map Cell.value) (hlist b hb)
  · exact h.number
  · intro j
    have hold := h.threads j
    by_cases hj : j = i
    · subst hj
      simp only [setPhase, Function.update_self]
      rcases hphase with hstart | hleft
      · rw [hstart] at hold
        exact Or.inl hold
      · rw [hleft] at hold
        exact Or.inr hold
    · by_cases hlt : j < s.accepted
      · by_cases hphase' : s.phase j = .freed
        · simp only [setPhase, hother hj, hphase'] at hold ⊢
          exact hold
        · rw [hown hj hlt hphase']
          simp only [setPhase, hother hj]
          exact hold
      · simp only [setPhase, hother hj, h.absent j (by omega)] at hold ⊢
        exact hold
  · exact h.registry
  · exact h.positive
  · intro j hlt hphase'
    by_cases hj : j = i
    · subst hj
      simp only [setPhase, Function.update_self] at hphase'
      exact absurd rfl hphase'
    · simp only [setPhase, hother hj] at hphase' ⊢
      rw [howns hj hlt hphase']
      exact h.live j hlt hphase'
  · intro b cell hcell
    by_cases hb : b = s.client i
    · simp only [setPhase, hb, Function.update_self] at hcell
      cases hcell
    · simp only [setPhase, Function.update_of_ne hb] at hcell
      obtain ⟨j, hlt, hphase', rfl⟩ := h.owned b cell hcell
      have hj : j ≠ i := fun hj => hb (by rw [hj])
      refine ⟨j, hlt, ?_, rfl⟩
      simp only [setPhase, hother hj]
      exact hphase'
  · intro j hj
    have hne : j ≠ i := by
      have : s.accepted ≤ j := hj
      omega
    simp only [setPhase, hother hne]
    exact h.absent j hj
  · intro j
    by_cases hj : j = i
    · subst hj
      simp only [setPhase, Function.update_self]
      rw [h.lock j]
      rcases hphase with h | h <;> rw [h] <;> exact Iff.rfl
    · simp only [setPhase, hother hj]
      exact h.lock j
  · intro j
    by_cases hj : j = i
    · subst hj
      simp only [setPhase, Function.update_self]
      trivial
    · simp only [setPhase, hother hj]
      by_cases hlt : j < s.accepted
      · by_cases hphase' : s.phase j = .freed
        · rw [hphase']
          trivial
        · exact (h.loops j).frame hlist (hown hj hlt hphase') rfl
      · rw [h.absent j (by omega)]
        trivial
  · exact h.started_of_unfreed rfl rfl rfl hfreed fun _ => hother

/-- A thread locks the list. -/
theorem Sound.acquire (h : Sound s r as) {phase : ThreadPhase} (hlock : s.clientsLock = none)
    (hi : i < s.accepted) (hfreed : s.phase i ≠ .freed) (hphase : phase.Locked)
    (hshows : phase.Shows (s.own i) (r.threads i)) (hloop : Loop s r as i phase) :
    Sound (s.lock i phase) r as := by
  have hfreed' : phase ≠ .freed := by
    rintro rfl
    exact hphase
  exact h.move hi hfreed hfreed' (Or.inl hlock) (Or.inl ⟨rfl, hphase⟩)
    (fun hnone => absurd hnone (Option.some_ne_none i)) hshows hloop

/-- A thread in a loop goes on. -/
theorem Sound.stay (h : Sound s r as) {phase : ThreadPhase} (hlocked : s.clientsLock = some i)
    (hi : i < s.accepted) (hfreed : s.phase i ≠ .freed) (hphase : phase.Locked)
    (hshows : phase.Shows (s.own i) (r.threads i)) (hloop : Loop s r as i phase) :
    Sound (s.setPhase i phase) r as := by
  have hfreed' : phase ≠ .freed := by
    rintro rfl
    exact hphase
  have hmoved := h.move (l := s.clientsLock) hi hfreed hfreed' (Or.inr hlocked)
    (Or.inl ⟨hlocked, hphase⟩) (fun hnone => h.number hnone) hshows hloop
  exact hmoved

/-! ## Steps that change the list -/

/-- A thread changes pointers of the list and has unlocked it then. -/
theorem Sound.relink (h : Sound s r as) {r' : Registry} {as' : List ℕ} {phase : ThreadPhase}
    (hi : i < s.accepted) (hheap : ∀ a, (s'.heap a).map Cell.value = (s.heap a).map Cell.value)
    (hlinked : Linked s'.heap s'.clients as') (hvalues : s.heap.values as' = r'.server.clients)
    (hmain : s'.main = s.main) (haccepted : s'.accepted = s.accepted) (hclient : s'.client = s.client)
    (hphase : s'.phase = Function.update s.phase i phase) (hfreed : s.phase i ≠ .freed)
    (hfreed' : phase ≠ .freed) (hfree : s.clientsLock = none ∨ s.clientsLock = some i)
    (hlock : s'.clientsLock = none) (hlocked : ¬ phase.Locked)
    (hthreads : ∀ j ≠ i, r'.threads j = r.threads j)
    (hregistry : Registry.Inv r') (hpositive : 1 ≤ r'.server.nextClientNumber)
    (hnumber : s'.nextClientNumber = r'.server.nextClientNumber)
    (hshows : phase.Shows (s.own i) (r'.threads i)) : Sound s' r' as' := by
  have hself : s'.phase i = phase := by rw [hphase, Function.update_self]
  have hother {j : ℕ} (hj : j ≠ i) : s'.phase j = s.phase j := by
    rw [hphase, Function.update_of_ne hj]
  have hown (j : ℕ) : s'.own j = s.own j := by rw [own, own, hclient, hheap]
  have hunlocked (j : ℕ) : ¬ (s'.phase j).Locked := by
    by_cases hj : j = i
    · rw [hj, hself]
      exact hlocked
    · rw [hother hj]
      rcases hfree with hnone | hsome
      · rw [← h.lock j, hnone]
        exact (Option.some_ne_none j).symm
      · exact h.not_locked hsome hj
  constructor
  · exact hlinked
  · rw [← hvalues]
    exact values_congr fun a _ => hheap a
  · exact fun _ => hnumber
  · intro j
    rw [hown]
    by_cases hj : j = i
    · rw [hj, hself]
      exact hshows
    · rw [hother hj, hthreads j hj]
      exact h.threads j
  · exact hregistry
  · exact hpositive
  · intro j hlt hphase'
    rw [haccepted] at hlt
    have hold : s.phase j ≠ .freed := by
      by_cases hj : j = i
      · rw [hj]
        exact hfreed
      · exact hother hj ▸ hphase'
    obtain ⟨cell, hcell, hfd⟩ := h.live j hlt hold
    have hvalue := hheap (s.client j)
    rw [hcell] at hvalue
    obtain ⟨cell', hcell', hvalue'⟩ := Option.map_eq_some_iff.mp hvalue
    exact ⟨cell', hclient.symm ▸ hcell', hvalue' ▸ hfd⟩
  · intro a cell' hcell'
    have hvalue := hheap a
    rw [hcell'] at hvalue
    obtain ⟨cell, hcell, -⟩ := Option.map_eq_some_iff.mp hvalue.symm
    obtain ⟨j, hlt, hold, rfl⟩ := h.owned a cell hcell
    refine ⟨j, haccepted.symm ▸ hlt, ?_, by rw [hclient]⟩
    by_cases hj : j = i
    · rw [hj, hself]
      exact hfreed'
    · rw [hother hj]
      exact hold
  · intro j hj
    rw [haccepted] at hj
    rw [hother (by omega)]
    exact h.absent j hj
  · intro j
    rw [hlock]
    exact iff_of_false (Option.some_ne_none j).symm (hunlocked j)
  · exact fun j => loop_of_unlocked (hunlocked j)
  · exact h.started_of_unfreed hmain haccepted hclient hfreed fun _ => hother

/-- A thread registers its connection. -/
theorem Sound.register (h : Sound s r as) (hfree : s.IdFree (.register i)) (hphase : s.phase i = .chosen)
    (hlock : s.clientsLock = none) {own : Cell TsClientConnection}
    (hown : s.heap (s.client i) = some own) :
    ∃ r', r.step (.register i) = some r' ∧
      Sound ({ s.write (s.client i) { own with next := s.clients } with
        clients := some (s.client i) }.setPhase i .registered) r' (s.client i :: as) := by
  have hstarting : s.phase i ≠ .starting := by rw [hphase]; exact ThreadPhase.noConfusion
  have hfreed : s.phase i ≠ .freed := by rw [hphase]; exact ThreadPhase.noConfusion
  have hi := h.lt_of_ne hstarting
  have hvalue : s.own i = some own.value := by rw [ClientList.own, hown]; rfl
  have hthread : r.threads i = .chosen own.value := by
    have hshows := h.threads i
    rw [hphase] at hshows
    obtain ⟨client, hclient, hthread⟩ := hshows
    rw [hvalue] at hclient
    rw [hthread, Option.some.inj hclient]
  have hnot : s.client i ∉ as := by
    rw [h.listed_iff hi hfreed, hphase]
    exact id
  -- no connection in the list has the id
  have hfree' : r.IdFree (.register i) := by
    intro client hclient
    rw [hthread] at hclient
    obtain rfl := Option.some.inj hclient
    refine clientIdExistsLocked_eq_false.mpr fun other hother hid => ?_
    rw [← h.values] at hother
    obtain ⟨a, ha, cell, hcell, rfl⟩ := mem_values.mp hother
    obtain ⟨j, hj, hlisted, rfl⟩ := h.exists_listed ha
    refine hfree j hj hlisted ?_
    rw [hvalue, ClientList.own, hcell]
    exact congrArg some hid
  have hstep : r.step (.register i) = some ⟨registerClient r.server own.value,
      Function.update r.threads i (.registered own.value)⟩ := by
    simp only [Registry.step, hthread]
  have hinv := h.registry.step hfree' hstep
  refine ⟨_, hstep, h.relink hi (fun a => ?_) (h.linked.push hnot own) ?_ rfl rfl rfl rfl hfreed
    ThreadPhase.noConfusion (Or.inl hlock) hlock id (fun j hj => ?_) hinv h.positive (h.number hlock) ?_⟩
  · simp only [write, setPhase]
    by_cases ha : a = s.client i
    · rw [ha, Function.update_self, hown]
      rfl
    · rw [Function.update_of_ne ha]
  · rw [values_cons hown, h.values]
    rfl
  · exact Function.update_of_ne hj ..
  · exact ⟨own.value, hvalue, Function.update_self ..⟩

/-- The pointer under the cursor is set to the connection behind the next one. -/
theorem exists_store {before rest : List ℕ} {a : ℕ} {cursor : Option ℕ} {cell : Cell TsClientConnection}
    (hlinked : Linked s.heap s.clients (before ++ a :: rest)) (hlast : before.getLast? = cursor)
    (hcell : s.heap a = some cell) :
    ∃ heap' clients', s.store cell.next cursor = .ok { s with heap := heap', clients := clients' } ∧
      (∀ b, (heap' b).map Cell.value = (s.heap b).map Cell.value) ∧
      Linked heap' clients' (before ++ rest) := by
  cases cursor with
  | none =>
    obtain rfl := List.getLast?_eq_none_iff.mp hlast
    obtain ⟨-, cell', hcell', hrest⟩ := segment_cons.mp hlinked
    obtain rfl := Option.some.inj (hcell.symm.trans hcell')
    exact ⟨s.heap, cell.next, rfl, fun _ => rfl, hrest⟩
  | some b =>
    obtain ⟨before, rfl⟩ := List.getLast?_eq_some_iff.mp hlast
    rw [List.append_assoc, List.singleton_append] at hlinked ⊢
    obtain ⟨previous, hprevious⟩ := hlinked.allocated
      (List.mem_append_right before (List.mem_cons_self (a := b)))
    refine ⟨_, s.clients, ?_, fun c => ?_, hlinked.unlink hcell previous⟩
    · simp only [store, s.read_of_some hprevious, bind, Except.bind, write]
    · by_cases hc : c = b
      · rw [hc, Function.update_self, hprevious]
        rfl
      · rw [Function.update_of_ne hc]

/-- A thread takes its connection out of the list. -/
theorem Sound.unlink (h : Sound s r as) {cursor : Option ℕ} (hphase : s.phase i = .unlinking cursor) :
    (∃ s', s.goOn i (.unlinking cursor) = some (.ok s') ∧ Sound s' r as) ∨
      ∃ s' r' as', s.goOn i (.unlinking cursor) = some (.ok s') ∧
        r.step (.unregister i) = some r' ∧ Sound s' r' as' := by
  have hlocked : s.clientsLock = some i := (h.lock i).mpr (by rw [hphase]; trivial)
  have hlisted : (s.phase i).Listed := by rw [hphase]; trivial
  have hstarting : s.phase i ≠ .starting := by rw [hphase]; exact ThreadPhase.noConfusion
  have hfreed : s.phase i ≠ .freed := by rw [hphase]; exact ThreadPhase.noConfusion
  have hi := h.lt_of_ne hstarting
  obtain ⟨own, hown, hfd, hvalue⟩ := h.exists_own hi hfreed
  have hmem := h.mem_of_listed hlisted
  obtain ⟨client, hclient, hthread⟩ := (h.threads i).of_listed hlisted
  obtain rfl := Option.some.inj (hvalue.symm.trans hclient)
  have hloop := h.loops i
  rw [hphase] at hloop
  obtain ⟨hnumber, client, before, after, hclient, heq, hlast, hpassed⟩ := hloop
  obtain rfl := Option.some.inj (hvalue.symm.trans hclient)
  -- the pointer under the cursor takes the walk on
  have hload : ∃ pointer, s.load cursor = .ok pointer ∧ Walked s.heap as before pointer := by
    cases cursor with
    | none =>
      rw [List.getLast?_eq_none_iff.mp hlast]
      exact ⟨s.clients, rfl, Walked.start h.linked⟩
    | some b =>
      have hlinked := h.linked
      rw [heq] at hlinked ⊢
      obtain ⟨previous, hprevious, hwalked⟩ := Walked.of_last hlinked hlast
      refine ⟨previous.next, ?_, hwalked⟩
      simp only [load, s.read_of_some hprevious, bind, Except.bind]
  obtain ⟨pointer, hpointer, hwalked⟩ := hload
  have howned : own.value ∈ s.heap.values as := mem_values.mpr ⟨_, hmem, own, hown, rfl⟩
  cases pointer with
  | none =>
    -- the own connection is in the list
    rw [hwalked.eq_of_null] at hpassed
    exact absurd rfl (hpassed own.value howned)
  | some a =>
    obtain ⟨rest, heq', hrest⟩ := hwalked
    obtain ⟨cell, rest, rfl, hcell, hrest⟩ := hrest.exists_cons
    by_cases hid : cell.value.clientId = own.value.clientId
    · obtain ⟨heap', clients', hstore, hheap, hlinked⟩ := exists_store (heq' ▸ h.linked) hlast hcell
      have hstep : r.step (.unregister i) = some ⟨unregisterClient r.server own.value.clientId,
          Function.update r.threads i .left⟩ := by
        simp only [Registry.step, hthread]
      have hinv := h.registry.step (a := .unregister i) trivial hstep
      refine Or.inr ⟨({ s with heap := heap', clients := clients' } : ClientList).unlock i .left, _,
        before ++ rest, ?_, hstep, h.relink hi hheap hlinked ?_ rfl rfl rfl rfl hfreed
        ThreadPhase.noConfusion (Or.inr hlocked) rfl id (fun j hj => Function.update_of_ne hj ..) hinv
        h.positive hnumber (Function.update_self ..)⟩
      · simp only [goOn, hpointer, s.read_of_some hcell, s.read_of_some hown, bind, Except.bind,
          if_pos hid, hstore]
      · -- the id stands nowhere before the own connection
        have hpassed' : ∀ c ∈ s.heap.values before,
            ¬ decide (c.clientId = own.value.clientId) = true := fun c hc => by
          rw [decide_eq_true_eq]
          exact hpassed c hc
        rw [unregisterClient, ← h.values, heq', values_append, values_append, values_cons hcell,
          List.eraseP_append_right _ hpassed', List.eraseP_cons_of_pos (by simpa using hid)]
    · have hloop : Loop s r as i (.unlinking (some a)) := by
        refine ⟨hnumber, own.value, before ++ [a], rest, hvalue, ?_, List.getLast?_concat .., ?_⟩
        · rw [List.append_assoc]
          exact heq'
        · rw [values_concat hcell]
          exact List.forall_mem_append.mpr ⟨hpassed, List.forall_mem_singleton.mpr hid⟩
      refine Or.inl ⟨s.setPhase i (.unlinking (some a)), ?_,
        h.stay hlocked hi hfreed trivial ⟨own.value, hvalue, hthread⟩ hloop⟩
      simp only [goOn, hpointer, s.read_of_some hcell, s.read_of_some hown, bind, Except.bind,
        if_neg hid]

/-! ## Choosing an id -/

/-- No connection that a finished walk has passed has the id. -/
theorem Sound.free_of_passed (h : Sound s r as) {clientId : Bytes} {before : List ℕ}
    (hwalked : Walked s.heap as before none)
    (hpassed : ∀ c ∈ s.heap.values before, c.clientId ≠ clientId) :
    clientIdExistsLocked r.server clientId = false := by
  rw [hwalked.eq_of_null, h.values] at hpassed
  exact clientIdExistsLocked_eq_false.mpr hpassed

/-- A connection of the list has the id that it has. -/
theorem Sound.taken_of_mem (h : Sound s r as) {a : ℕ} {cell : Cell TsClientConnection} (ha : a ∈ as)
    (hcell : s.heap a = some cell) : clientIdExistsLocked r.server cell.value.clientId = true := by
  rw [clientIdExistsLocked_iff_mem, ← h.values]
  exact List.mem_map_of_mem (mem_values.mpr ⟨a, ha, cell, hcell, rfl⟩)

/-- The loop over the numbers has found what `choose_client_id` returns. -/
theorem Sound.chooses (h : Sound s r as) {requested : Bytes} {n : ℤ} (hrefused : Refused r requested)
    (htried : Tried r n) (hmax : n < intMax)
    (hfree : clientIdExistsLocked r.server (printClientId n) = false) :
    chooseClientId r.server requested =
      some ({ r.server with nextClientNumber := n + 1 }, printClientId n) := by
  obtain ⟨k, rfl⟩ : ∃ k : ℕ, n = r.server.nextClientNumber + k :=
    ⟨(n - r.server.nextClientNumber).toNat, by have := htried.1; omega⟩
  have htaken : ∀ j < k,
      clientIdExistsLocked r.server (printClientId (r.server.nextClientNumber + j)) = true :=
    fun j hj => htried.2 _ (by omega) (by omega)
  have hmin : intMin ≤ r.server.nextClientNumber := by
    have := h.positive
    simp only [intMin]
    omega
  have hk := le_length_of_taken hmin hmax htaken
  have hnext := nextFreeClientId_of_taken (Nat.lt_succ_of_le hk) hmax htaken hfree
  unfold chooseClientId
  rw [if_neg hrefused, hnext]
  rfl

/-- A thread has chosen its id: its connection has it, and the list is unlocked. -/
theorem Sound.chosen (h : Sound s r as) (s' : ClientList) (server : TsServer)
    (own : Cell TsClientConnection) {requested : Bytes} (hlocked : s.clientsLock = some i)
    (hi : i < s.accepted)
    (hfreed : s.phase i ≠ .freed) (hlisted : ¬ (s.phase i).Listed) (hthread : r.threads i = .starting)
    (hheap : ∀ a, a ≠ s.client i → s'.heap a = s.heap a) (hown : s'.heap (s.client i) = some own)
    (hfd : own.value.fd = i) (hclients : s'.clients = s.clients) (hmain : s'.main = s.main)
    (haccepted : s'.accepted = s.accepted)
    (hclient : s'.client = s.client) (hphase : s'.phase = Function.update s.phase i .chosen)
    (hlock : s'.clientsLock = none) (hnumber : s'.nextClientNumber = server.nextClientNumber)
    (hpositive : 1 ≤ server.nextClientNumber)
    (hchoose : chooseClientId r.server requested = some (server, own.value.clientId)) :
    ∃ r', r.step (.choose i requested own.value.address) = some r' ∧ Sound s' r' as := by
  have hstep : r.step (.choose i requested own.value.address) =
      some ⟨server, Function.update r.threads i (.chosen own.value)⟩ := by
    simp only [Registry.step, hthread, hchoose, Option.bind_eq_bind, Option.bind_some]
    rw [← hfd]
  have hinv := h.registry.step (a := .choose i requested own.value.address) trivial hstep
  have hlist : ∀ a ∈ as, s'.heap a = s.heap a := fun a ha =>
    hheap a (ne_of_mem_of_not_mem ha (mt (h.listed_iff hi hfreed).mp hlisted))
  refine ⟨_, hstep, h.advance hi hheap hlist ⟨own, hown, hfd⟩ hclients hmain haccepted hclient hphase hfreed
    ThreadPhase.noConfusion (Or.inr hlocked) (Or.inr ⟨hlock, id⟩) (chooseClientId_server hchoose).1
    (fun j hj => Function.update_of_ne hj ..) hinv hpositive (fun _ => hnumber) ?_ trivial⟩
  refine ⟨own.value, ?_, Function.update_self ..⟩
  rw [ClientList.own, hclient, hown]
  rfl

/-! ## The loops -/

/-- An outcome keeps what holds, unless the numbers have run out or a thread could not be started. -/
def Kept (r : Registry) (outcome : Except Undefined ClientList) : Prop :=
  (outcome = .error .overflow ∨ outcome = .error .noThread) ∨
    ∃ s' ras r' as', outcome = .ok s' ∧ run Registry.step r ras = some r' ∧ Sound s' r' as'

theorem Kept.same (h : Sound s r as) : Kept r (.ok s) := Or.inr ⟨s, [], r, as, rfl, rfl, h⟩

theorem Kept.after {r' : Registry} {a : RegistryAction} (hstep : r.step a = some r')
    (h : Sound s r' as) : Kept r (.ok s) :=
  Or.inr ⟨s, [a], r', as, rfl, run_cons_some.mpr ⟨r', hstep, rfl⟩, h⟩

/-- A thread writes its id into its connection. -/
theorem setClientId_eq {own : Cell TsClientConnection} (hown : s.heap (s.client i) = some own)
    (clientId : Bytes) :
    s.setClientId i clientId = .ok
      (s.write (s.client i) { own with value := { own.value with clientId := clientId } }) := by
  simp only [setClientId, s.read_of_some hown, bind, Except.bind]

/-- What a thread in a loop has. -/
theorem Sound.looping (h : Sound s r as) (hlocked : (s.phase i).Locked) :
    s.clientsLock = some i ∧ i < s.accepted ∧ s.phase i ≠ .freed ∧
      ∃ own, s.heap (s.client i) = some own ∧ own.value.fd = i ∧ s.own i = some own.value := by
  have hfreed : s.phase i ≠ .freed := fun heq => by
    rw [heq] at hlocked
    exact hlocked
  have hi : i < s.accepted := h.lt_of_ne fun heq => by
    rw [heq] at hlocked
    exact hlocked
  exact ⟨(h.lock i).mpr hlocked, hi, hfreed, h.exists_own hi hfreed⟩

/-- `client_id_exists_locked` for the requested id goes on. -/
theorem Sound.goOn_asking (h : Sound s r as) {requested : Bytes} {client : Option ℕ}
    (hphase : s.phase i = .asking requested client) {outcome : Except Undefined ClientList}
    (hgo : s.goOn i (.asking requested client) = some outcome) : Kept r outcome := by
  obtain ⟨hlocked, hi, hfreed, own, hown, hfd, -⟩ := h.looping (i := i) (by rw [hphase]; trivial)
  have hthread : r.threads i = .starting := by
    have hshows := h.threads i
    rw [hphase] at hshows
    exact hshows
  have hloop := h.loops i
  rw [hphase] at hloop
  obtain ⟨hnumber, hne, before, hwalked, hpassed⟩ := hloop
  cases client with
  | none =>
    simp only [goOn, setClientId_eq hown, bind, Except.bind] at hgo
    obtain rfl := Option.some.inj hgo
    have hchoose : chooseClientId r.server requested =
        some (r.server, snprintf tsMaxClientId requested) :=
      if_pos ⟨hne, h.free_of_passed hwalked hpassed⟩
    obtain ⟨r', hstep, hsound⟩ := h.chosen
      ((s.write (s.client i) { own with
        value := { own.value with clientId := snprintf tsMaxClientId requested } }).unlock i .chosen)
      r.server { own with value := { own.value with clientId := snprintf tsMaxClientId requested } }
      hlocked hi hfreed (by rw [hphase]; exact id) hthread (fun a ha => Function.update_of_ne ha ..)
      (Function.update_self ..) hfd rfl rfl rfl rfl rfl rfl hnumber h.positive hchoose
    exact Kept.after hstep hsound
  | some a =>
    obtain ⟨cell, hcell, ha, hnext⟩ := hwalked.next
    simp only [goOn, s.read_of_some hcell, bind, Except.bind] at hgo
    split_ifs at hgo with hid
    · obtain rfl := Option.some.inj hgo
      refine Kept.same (h.stay hlocked hi hfreed trivial hthread ⟨fun hfree => ?_, ?_⟩)
      · have htaken := h.taken_of_mem ha hcell
        rw [hid, hfree.2] at htaken
        cases htaken
      · exact ⟨hnumber.ge, fun m hm hm' => by omega⟩
    · obtain rfl := Option.some.inj hgo
      refine Kept.same (h.stay hlocked hi hfreed trivial hthread ⟨hnumber, hne, _, hnext, ?_⟩)
      rw [values_concat hcell]
      exact List.forall_mem_append.mpr ⟨hpassed, List.forall_mem_singleton.mpr hid⟩

/-- The loop of `choose_client_id` prints the next number. -/
theorem Sound.goOn_retrying (h : Sound s r as) {requested : Bytes} (hphase : s.phase i = .retrying requested)
    {outcome : Except Undefined ClientList} (hgo : s.goOn i (.retrying requested) = some outcome) :
    Kept r outcome := by
  obtain ⟨hlocked, hi, hfreed, own, hown, hfd, -⟩ := h.looping (i := i) (by rw [hphase]; trivial)
  have hthread : r.threads i = .starting := by
    have hshows := h.threads i
    rw [hphase] at hshows
    exact hshows
  have hloop := h.loops i
  rw [hphase] at hloop
  obtain ⟨hrefused, htried⟩ := hloop
  have hlist : s.client i ∉ as := by
    rw [h.listed_iff hi hfreed, hphase]
    exact id
  simp only [goOn, setClientId_eq hown, bind, Except.bind] at hgo
  split_ifs at hgo with hmax
  · obtain rfl := Option.some.inj hgo
    have hframe {a : ℕ} (ha : a ∈ as) (cell : Cell TsClientConnection) :
        Function.update s.heap (s.client i) (some cell) a = s.heap a :=
      Function.update_of_ne (ne_of_mem_of_not_mem ha hlist) ..
    refine Kept.same (h.advance hi (fun a ha => Function.update_of_ne ha ..) (fun a ha => hframe ha _)
      ⟨_, Function.update_self .., hfd⟩ rfl rfl rfl rfl rfl hfreed ThreadPhase.noConfusion (Or.inr hlocked)
      (Or.inl ⟨hlocked, trivial⟩) rfl (fun _ _ => rfl) h.registry h.positive (fun hnone => ?_) hthread ?_)
    · rw [show s.clientsLock = none from hnone] at hlocked
      cases hlocked
    · have hn : s.nextClientNumber + 1 - 1 = s.nextClientNumber := by omega
      simp only [Loop, setPhase, write, hn, ClientList.own, Function.update_self]
      refine ⟨hrefused, htried, hmax, _, [], rfl, rfl, ?_, List.forall_mem_nil _⟩
      exact Walked.start (h.linked.frame fun a ha => hframe ha _)
  · obtain rfl := Option.some.inj hgo
    exact Or.inl (Or.inl rfl)

/-- `client_id_exists_locked` for a number goes on. -/
theorem Sound.goOn_counting (h : Sound s r as) {requested : Bytes} {client : Option ℕ}
    (hphase : s.phase i = .counting requested client) {outcome : Except Undefined ClientList}
    (hgo : s.goOn i (.counting requested client) = some outcome) : Kept r outcome := by
  obtain ⟨hlocked, hi, hfreed, own, hown, hfd, hvalue⟩ := h.looping (i := i) (by rw [hphase]; trivial)
  have hthread : r.threads i = .starting := by
    have hshows := h.threads i
    rw [hphase] at hshows
    exact hshows
  have hloop := h.loops i
  rw [hphase] at hloop
  obtain ⟨hrefused, htried, hmax, value, before, hvalue', hid, hwalked, hpassed⟩ := hloop
  obtain rfl := Option.some.inj (hvalue.symm.trans hvalue')
  cases client with
  | none =>
    obtain rfl := Option.some.inj hgo
    have hchoose := h.chooses hrefused htried hmax (hid ▸ h.free_of_passed hwalked hpassed)
    rw [← hid] at hchoose
    have hpositive := h.positive
    have hle := htried.1
    obtain ⟨r', hstep, hsound⟩ := h.chosen (s.unlock i .chosen)
      { r.server with nextClientNumber := s.nextClientNumber - 1 + 1 } own hlocked hi hfreed
      (by rw [hphase]; exact id) hthread (fun _ _ => rfl) hown hfd rfl rfl rfl rfl rfl rfl
      (show s.nextClientNumber = s.nextClientNumber - 1 + 1 by omega)
      (show 1 ≤ s.nextClientNumber - 1 + 1 by omega) hchoose
    exact Kept.after hstep hsound
  | some a =>
    obtain ⟨cell, hcell, ha, hnext⟩ := hwalked.next
    simp only [goOn, s.read_of_some hcell, s.read_of_some hown, bind, Except.bind] at hgo
    split_ifs at hgo with heq
    · obtain rfl := Option.some.inj hgo
      refine Kept.same (h.stay hlocked hi hfreed trivial hthread ⟨hrefused, ?_, fun m hm hm' => ?_⟩)
      · have := htried.1
        omega
      · by_cases hlt : m < s.nextClientNumber - 1
        · exact htried.2 m hm hlt
        · obtain rfl : m = s.nextClientNumber - 1 := by omega
          rw [← hid, ← heq]
          exact h.taken_of_mem ha hcell
    · obtain rfl := Option.some.inj hgo
      refine Kept.same (h.stay hlocked hi hfreed trivial hthread
        ⟨hrefused, htried, hmax, own.value, _, hvalue, hid, hnext, ?_⟩)
      rw [values_concat hcell]
      exact List.forall_mem_append.mpr ⟨hpassed, List.forall_mem_singleton.mpr heq⟩

/-- The loop of `broadcast_message` goes on. -/
theorem Sound.goOn_broadcasting (h : Sound s r as) {sent : List ℕ} {client : Option ℕ}
    (hphase : s.phase i = .broadcasting sent client) {outcome : Except Undefined ClientList}
    (hgo : s.goOn i (.broadcasting sent client) = some outcome) : Kept r outcome := by
  obtain ⟨hlocked, hi, hfreed, own, hown, hfd, hvalue⟩ := h.looping (i := i) (by rw [hphase]; trivial)
  have hshows := h.threads i
  rw [hphase] at hshows
  have hloop := h.loops i
  rw [hphase] at hloop
  obtain ⟨hnumber, value, before, hvalue', hwalked, hsent⟩ := hloop
  obtain rfl := Option.some.inj (hvalue.symm.trans hvalue')
  cases client with
  | none =>
    obtain rfl := Option.some.inj hgo
    exact Kept.same (h.move hi hfreed ThreadPhase.noConfusion (Or.inr hlocked) (Or.inr ⟨rfl, id⟩)
      (fun _ => hnumber) hshows trivial)
  | some a =>
    obtain ⟨cell, hcell, ha, hnext⟩ := hwalked.next
    have htargets : targets own.value (s.heap.values (before ++ [a])) =
        if cell.value.clientId = own.value.clientId then sent else sent ++ [cell.value.fd] := by
      rw [values_concat hcell, targets, List.filter_append, List.map_append, hsent]
      split_ifs with heq
      · simp [targets, heq]
      · simp [targets, heq]
    simp only [goOn, s.read_of_some hcell, s.read_of_some hown, bind, Except.bind] at hgo
    split_ifs at hgo htargets with heq
    · obtain rfl := Option.some.inj hgo
      exact Kept.same (h.stay hlocked hi hfreed trivial hshows
        ⟨hnumber, own.value, _, hvalue, hnext, htargets.symm⟩)
    · obtain rfl := Option.some.inj hgo
      exact Kept.same (h.stay hlocked hi hfreed trivial hshows
        ⟨hnumber, own.value, _, hvalue, hnext, htargets.symm⟩)

/-- A thread in a loop goes on. -/
theorem Sound.goOn (h : Sound s r as) {outcome : Except Undefined ClientList}
    (hgo : s.goOn i (s.phase i) = some outcome) : Kept r outcome := by
  cases hphase : s.phase i with
  | asking requested client => exact h.goOn_asking hphase (hphase ▸ hgo)
  | retrying requested => exact h.goOn_retrying hphase (hphase ▸ hgo)
  | counting requested client => exact h.goOn_counting hphase (hphase ▸ hgo)
  | broadcasting sent client => exact h.goOn_broadcasting hphase (hphase ▸ hgo)
  | unlinking cursor =>
    rw [hphase] at hgo
    rcases h.unlink hphase with ⟨s', hok, hsound⟩ | ⟨s', r', as', hok, hstep, hsound⟩
    · obtain rfl := Option.some.inj (hgo.symm.trans hok)
      exact Kept.same hsound
    · obtain rfl := Option.some.inj (hgo.symm.trans hok)
      exact Kept.after hstep hsound
  | _ =>
    rw [hphase] at hgo
    cases hgo

/-! ## Steps -/

/-- `main` comes back to the connection of a thread that it has started. -/
theorem Sound.attempt_detach (h : Sound s r as) {outcome : Except Undefined ClientList}
    (hattempt : s.attempt .detach = some outcome) :
    ∃ i, s.main = some i ∧
      ((s.phase i = .freed ∧ outcome = .error (.access (s.client i))) ∨
        (s.phase i ≠ .freed ∧ outcome = .ok { s with main := none })) := by
  simp only [ClientList.attempt] at hattempt
  split at hattempt
  · cases hattempt
  · next i hmain =>
    obtain ⟨hi, hnew⟩ := h.started i hmain
    refine ⟨i, hmain, ?_⟩
    by_cases hphase : s.phase i = .freed
    · -- nobody has allocated the address again
      have hnone : s.heap (s.client i) = none := by
        rw [Option.eq_none_iff_forall_ne_some]
        intro cell hcell
        obtain ⟨j, hj, hfreed, heq⟩ := h.owned _ cell hcell
        exact hfreed (hnew j hj hfreed heq ▸ hphase)
      simp only [read, hnone, bind, Except.bind] at hattempt
      exact Or.inl ⟨hphase, (Option.some.inj hattempt).symm⟩
    · obtain ⟨own, hown, -⟩ := h.exists_own hi hphase
      simp only [s.read_of_some hown, bind, Except.bind] at hattempt
      exact Or.inr ⟨hphase, (Option.some.inj hattempt).symm⟩

/-- An action keeps what holds, unless `main` comes back to a connection that has been freed. -/
theorem Sound.attempt (h : Sound s r as) {a : ClientListAction} (hfree : s.IdFree a)
    {outcome : Except Undefined ClientList} (hattempt : s.attempt a = some outcome) :
    Kept r outcome ∨
      a = .detach ∧ ∃ i, s.main = some i ∧ s.phase i = .freed ∧ outcome = .error (.access (s.client i)) := by
  cases a with
  | detach =>
    obtain ⟨i, hmain, ⟨hphase, rfl⟩ | ⟨-, rfl⟩⟩ := h.attempt_detach hattempt
    · exact Or.inr ⟨rfl, i, hmain, hphase, rfl⟩
    · exact Or.inl (Kept.same h.detach)
  | accept a address =>
    simp only [ClientList.attempt] at hattempt
    split_ifs at hattempt with ha
    obtain rfl := Option.some.inj hattempt
    exact Or.inl (Kept.same (h.accept ha.2 address))
  | acceptFails a =>
    simp only [ClientList.attempt] at hattempt
    split_ifs at hattempt
    obtain rfl := Option.some.inj hattempt
    exact Or.inl (Or.inl (Or.inr rfl))
  | join i requested =>
    simp only [ClientList.attempt] at hattempt
    split_ifs at hattempt with hjoin hempty
    · obtain ⟨hi, hphase, hlock⟩ := hjoin
      obtain rfl := Option.some.inj hattempt
      have hthread := h.threads i
      rw [hphase] at hthread
      refine Or.inl (Kept.same (h.acquire hlock hi ?_ trivial hthread
        ⟨fun hne => hne.1 hempty, ?_⟩))
      · rw [hphase]
        exact ThreadPhase.noConfusion
      · exact ⟨(h.number hlock).ge, fun m hm hm' => by have := h.number hlock; omega⟩
    · obtain ⟨hi, hphase, hlock⟩ := hjoin
      obtain rfl := Option.some.inj hattempt
      have hthread := h.threads i
      rw [hphase] at hthread
      refine Or.inl (Kept.same (h.acquire hlock hi ?_ trivial hthread
        ⟨h.number hlock, hempty, [], Walked.start h.linked, List.forall_mem_nil _⟩))
      rw [hphase]
      exact ThreadPhase.noConfusion
  | go i => exact Or.inl (h.goOn hattempt)
  | register i =>
    simp only [ClientList.attempt] at hattempt
    split_ifs at hattempt with hregister
    obtain ⟨hphase, hlock⟩ := hregister
    have hfreed : s.phase i ≠ .freed := by rw [hphase]; exact ThreadPhase.noConfusion
    have hi : i < s.accepted := h.lt_of_ne (by rw [hphase]; exact ThreadPhase.noConfusion)
    obtain ⟨own, hown, -⟩ := h.exists_own hi hfreed
    obtain ⟨r', hstep, hsound⟩ := h.register hfree hphase hlock hown
    simp only [s.read_of_some hown, bind, Except.bind] at hattempt
    obtain rfl := Option.some.inj hattempt
    exact Or.inl (Kept.after hstep hsound)
  | broadcast i =>
    simp only [ClientList.attempt] at hattempt
    split_ifs at hattempt with hbroadcast
    obtain ⟨hphase, hlock⟩ := hbroadcast
    obtain rfl := Option.some.inj hattempt
    have hfreed : s.phase i ≠ .freed := by rw [hphase]; exact ThreadPhase.noConfusion
    have hi : i < s.accepted := h.lt_of_ne (by rw [hphase]; exact ThreadPhase.noConfusion)
    obtain ⟨own, -, -, hown⟩ := h.exists_own hi hfreed
    have hshows := h.threads i
    rw [hphase] at hshows
    exact Or.inl (Kept.same (h.acquire hlock hi hfreed trivial hshows
      ⟨h.number hlock, own.value, [], hown, Walked.start h.linked, rfl⟩))
  | leave i =>
    simp only [ClientList.attempt] at hattempt
    split_ifs at hattempt with hleave
    obtain ⟨hphase, hlock⟩ := hleave
    obtain rfl := Option.some.inj hattempt
    have hfreed : s.phase i ≠ .freed := by rw [hphase]; exact ThreadPhase.noConfusion
    have hi : i < s.accepted := h.lt_of_ne (by rw [hphase]; exact ThreadPhase.noConfusion)
    obtain ⟨own, -, -, hown⟩ := h.exists_own hi hfreed
    have hshows := h.threads i
    rw [hphase] at hshows
    exact Or.inl (Kept.same (h.acquire hlock hi hfreed trivial hshows
      ⟨h.number hlock, own.value, [], as, hown, rfl, rfl, List.forall_mem_nil _⟩))
  | free i =>
    simp only [ClientList.attempt] at hattempt
    split_ifs at hattempt with hend
    obtain ⟨hi, hphase⟩ := hend
    have hfreed : s.phase i ≠ .freed := by
      rcases hphase with hphase | hphase <;> rw [hphase] <;> exact ThreadPhase.noConfusion
    obtain ⟨own, hown, -⟩ := h.exists_own hi hfreed
    simp only [s.read_of_some hown, bind, Except.bind] at hattempt
    obtain rfl := Option.some.inj hattempt
    exact Or.inl (Kept.same (h.free hi hphase))

theorem Sound.step (h : Sound s r as) {a : ClientListAction} (hfree : s.IdFree a)
    (hstep : s.step a = some s') :
    ∃ ras r' as', run Registry.step r ras = some r' ∧ Sound s' r' as' := by
  obtain ⟨outcome, hattempt, hok⟩ := Option.bind_eq_some_iff.mp hstep
  rcases h.attempt hfree hattempt with
    ((rfl | rfl) | ⟨s'', ras, r', as', rfl, hras, hsound⟩) | ⟨-, i, -, -, rfl⟩
  · cases hok
  · cases hok
  · obtain rfl := Option.some.inj hok
    exact ⟨ras, r', as', hras, hsound⟩
  · cases hok

/-- Memory that is not allocated is accessed only by `main`, when the thread that it has still to detach has
ended, whether the action keeps the ids distinct or not. -/
theorem Sound.access_iff (h : Sound s r as) (a : ClientListAction) (p : ℕ) :
    s.attempt a = some (.error (.access p)) ↔
      a = .detach ∧ ∃ i, s.main = some i ∧ s.phase i = .freed ∧ s.client i = p := by
  constructor
  · intro hattempt
    have hdetach (hfree : s.IdFree a) :
        a = .detach ∧ ∃ i, s.main = some i ∧ s.phase i = .freed ∧ s.client i = p := by
      rcases h.attempt hfree hattempt with ((herror | herror) | ⟨s', ras, r', as', hok, -⟩) |
        ⟨ha, i, hmain, hphase, herror⟩
      · cases herror
      · cases herror
      · cases hok
      · cases herror
        exact ⟨ha, i, hmain, hphase, rfl⟩
    cases a with
    | register i =>
      -- registering reads the own connection only
      simp only [ClientList.attempt] at hattempt
      split_ifs at hattempt with hregister
      have hfreed : s.phase i ≠ .freed := by rw [hregister.1]; exact ThreadPhase.noConfusion
      have hi : i < s.accepted := h.lt_of_ne (by rw [hregister.1]; exact ThreadPhase.noConfusion)
      obtain ⟨own, hown, -⟩ := h.exists_own hi hfreed
      simp only [s.read_of_some hown, bind, Except.bind] at hattempt
      cases Option.some.inj hattempt
    | _ => exact hdetach trivial
  · rintro ⟨rfl, i, hmain, hphase, rfl⟩
    have hsome : ∃ outcome, s.attempt .detach = some outcome := by
      simp only [ClientList.attempt, hmain]
      exact ⟨_, rfl⟩
    obtain ⟨outcome, hattempt⟩ := hsome
    obtain ⟨j, hmain', ⟨-, rfl⟩ | ⟨hfreed, -⟩⟩ := h.attempt_detach hattempt
    · obtain rfl := Option.some.inj (hmain.symm.trans hmain')
      exact hattempt
    · obtain rfl := Option.some.inj (hmain.symm.trans hmain')
      exact absurd hphase hfreed

/-! ## Runs -/

theorem exists_sound {actions : List ClientListAction} (document : TsDocument)
    (hguard : Guarded step IdFree init actions) (hrun : run step init actions = some s) :
    ∃ ras r as, run Registry.step (Registry.init document) ras = some r ∧ Sound s r as := by
  refine run_invariant_of_guarded
    (P := fun s => ∃ ras r as, run Registry.step (Registry.init document) ras = some r ∧ Sound s r as)
    (fun s a s' hs hfree hstep => ?_) ⟨[], _, [], rfl, sound_init document⟩ hguard hrun
  obtain ⟨ras, r, as, hras, hsound⟩ := hs
  obtain ⟨more, r', as', hmore, hsound'⟩ := hsound.step hfree hstep
  exact ⟨ras ++ more, r', as', run_append_some.mpr ⟨r, hras, hmore⟩, hsound'⟩

/-- As long as no thread registers an id that a connection in the list has, the list in memory is at every
moment the list of `Registry` after the critical sections that have ended, whichever addresses the
allocator uses again and whatever other threads do while one of them walks along the list; and a broadcast
that has come to the end has written to all registered connections with another id, once each. -/
theorem nodes_refine_registry (document : TsDocument) (actions : List ClientListAction) (s : ClientList)
    (hguard : Guarded step IdFree init actions) (hrun : run step init actions = some s) :
    ∃ ras r, run Registry.step (Registry.init document) ras = some r ∧ s.Shows r ∧ r.Intact ∧
      ∀ i sent, s.phase i = .broadcasting sent none → ∃ own, s.own i = some own ∧
        sent = (r.server.clients.filter fun client => client.clientId ≠ own.clientId).map
          TsClientConnection.fd := by
  obtain ⟨ras, r, as, hras, hsound⟩ := exists_sound document hguard hrun
  refine ⟨ras, r, hras, hsound.shows, hsound.registry.intact, fun i sent hphase => ?_⟩
  have hloop := hsound.loops i
  rw [hphase] at hloop
  obtain ⟨-, own, before, hown, hwalked, hsent⟩ := hloop
  refine ⟨own, hown, ?_⟩
  rw [hsent, hwalked.eq_of_null, hsound.values]
  rfl

/-- Two clients ask for one id, one after the other, and the first one sends something to the second. -/
def annAgain : List ClientListAction :=
  [.accept 7 [], .join 0 (bytes "ann"), .detach, .go 0, .register 0, .accept 9 [], .detach,
    .join 1 (bytes "ann"), .go 1, .go 1, .go 1, .go 1, .register 1, .broadcast 0, .go 0, .go 0]

theorem nodes_refine_registry_annAgain : ∃ s, run step init annAgain = some s ∧
    s.phase 0 = .broadcasting [1] none ∧
    ∃ ras r, run Registry.step (Registry.init (tsDocumentInit [] 1)) ras = some r ∧ s.Shows r := by
  have hany : (run step init annAgain).any (fun s => decide (s.phase 0 = .broadcasting [1] none)) = true := by
    decide
  obtain ⟨s, hrun, hphase⟩ := (Option.any_eq_true _ _).mp hany
  have hguard : Guarded step IdFree init annAgain := by decide
  obtain ⟨ras, r, hras, hshows, -⟩ :=
    nodes_refine_registry (tsDocumentInit [] 1) annAgain s hguard hrun
  exact ⟨s, hrun, of_decide_eq_true hphase, ras, r, hras, hshows⟩

/-- Under the same condition, memory that has been freed is accessed in one place: `main` reads the id of the
thread that it has started out of the connection, and the thread has freed it already. What is allocated are
the connections of the threads that have not ended, one each, so none leaks and none is freed twice. -/
theorem memory_safe (actions : List ClientListAction) (s : ClientList)
    (hguard : Guarded step IdFree init actions) (hrun : run step init actions = some s) :
    (∀ a p, s.attempt a = some (.error (.access p)) ↔
      a = .detach ∧ ∃ i, s.main = some i ∧ s.phase i = .freed ∧ s.client i = p) ∧
      (∀ p, s.heap p ≠ none ↔ ∃ i < s.accepted, s.phase i ≠ .freed ∧ s.client i = p) ∧
      ∀ i j, i < s.accepted → j < s.accepted → s.phase i ≠ .freed → s.phase j ≠ .freed →
        s.client i = s.client j → i = j := by
  obtain ⟨ras, r, as, -, hsound⟩ := exists_sound (tsDocumentInit [] 1) hguard hrun
  refine ⟨hsound.access_iff, fun p => ⟨fun hp => ?_, ?_⟩, fun i j hi hj hphase hphase' heq =>
    hsound.eq_of_client hi hphase hj hphase' heq⟩
  · obtain ⟨cell, hcell⟩ := Option.ne_none_iff_exists'.mp hp
    exact hsound.owned p cell hcell
  · rintro ⟨i, hi, hphase, rfl⟩
    obtain ⟨cell, hcell, -⟩ := hsound.live i hi hphase
    rw [hcell]
    exact Option.some_ne_none cell

/-- A client joins, and another one closes its connection before it sends a JOIN: its thread has ended when
`main` detaches it. -/
def closesAtOnce : List ClientListAction :=
  [.accept 7 [], .detach, .join 0 (bytes "ann"), .go 0, .register 0, .accept 9 [], .free 1]

theorem memory_safe_closesAtOnce : ∃ s, run step init closesAtOnce = some s ∧ s.heap 7 ≠ none ∧
    (∀ a p, s.attempt a = some (.error (.access p)) ↔ a = .detach ∧ p = 9) := by
  have hany : (run step init closesAtOnce).any (fun s => decide (s.heap 7 ≠ none ∧ s.main = some 1 ∧
      s.phase 1 = .freed ∧ s.client 1 = 9)) = true := by decide
  obtain ⟨s, hrun, hs⟩ := (Option.any_eq_true _ _).mp hany
  obtain ⟨hheap, hmain, hphase, hclient⟩ := of_decide_eq_true hs
  have hguard : Guarded step IdFree init closesAtOnce := by decide
  refine ⟨s, hrun, hheap, fun a p => ((memory_safe closesAtOnce s hguard hrun).1 a p).trans ?_⟩
  refine and_congr_right fun _ => ⟨?_, ?_⟩
  · rintro ⟨i, hi, -, rfl⟩
    obtain rfl := Option.some.inj (hmain.symm.trans hi)
    exact hclient
  · rintro rfl
    exact ⟨1, hmain, hphase, hclient⟩

end ClientList

end TermSync
