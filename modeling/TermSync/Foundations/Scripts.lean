import Mathlib.Data.List.Basic
import Mathlib.Tactic

/-!
# Programs whose steps are scripted

The environment decides how every step of a program turns out. A script lists these outcomes in their
order, and a program reads one of them for every step it takes. Where the script ends, the program
has stopped: a script stands for the outcomes of a run and for the point at which the run is cut off.

`Triple good stop pre m post` is a Hoare triple with a condition for the stops: from a state that
satisfies `pre`, with a script of outcomes that are all `good`, the program stops in a state that
satisfies `stop` or returns with `post`. `Finishes good m` says that some script of good outcomes
takes the program to its end.
-/

namespace Foundations

/-- A program over the states `σ` whose steps have outcomes in `ω`. It ends in a state, with its
result and the rest of the script unless it has stopped. -/
def Scripted (σ ω α : Type) := σ → List ω → σ × Option (α × List ω)

namespace Scripted

variable {σ ω α β : Type}

/-- The program that takes no step. -/
protected def pure (a : α) : Scripted σ ω α := fun s script => (s, some (a, script))

/-- One program after another. -/
protected def bind (m : Scripted σ ω α) (f : α → Scripted σ ω β) : Scripted σ ω β := fun s script =>
  match m s script with
  | (s', none) => (s', none)
  | (s', some (a, rest)) => f a s' rest

instance : Monad (Scripted σ ω) where
  pure := Scripted.pure
  bind := Scripted.bind

/-- A change of the state that is no step of its own. -/
def modify (f : σ → σ) : Scripted σ ω Unit := fun s script => (f s, some ((), script))

/-- Steps that are repeated until one of them has a result. -/
def call (f : σ → ω → σ × Option α) : Scripted σ ω α
  | s, [] => (s, none)
  | s, o :: script =>
    match f s o with
    | (s', none) => call f s' script
    | (s', some a) => (s', some (a, script))

/-- At most `fuel` rounds of a loop. -/
def iterateFuel (body : β → Scripted σ ω (β ⊕ α)) : ℕ → β → Scripted σ ω α
  | 0, _ => fun s _ => (s, none)
  | fuel + 1, b => body b >>= Sum.elim (iterateFuel body fuel) pure

/-- A loop whose rounds take a step each: the script bounds their number. -/
def iterate (body : β → Scripted σ ω (β ⊕ α)) (b : β) : Scripted σ ω α := fun s script =>
  iterateFuel body (script.length + 1) b s script

/-! ## Triples -/

/-- A run has stopped in a state that satisfies `stop`, or it has returned with `post`. -/
def Ends (good : ω → Prop) (stop : σ → Prop) (post : α → σ → Prop) :
    σ × Option (α × List ω) → Prop
  | (s, none) => stop s
  | (s, some (a, rest)) => post a s ∧ ∀ o ∈ rest, good o

/-- What a program does to the states that satisfy `pre`. -/
def Triple (good : ω → Prop) (stop pre : σ → Prop) (m : Scripted σ ω α) (post : α → σ → Prop) :
    Prop :=
  ∀ s script, pre s → (∀ o ∈ script, good o) → Ends good stop post (m s script)

variable {good : ω → Prop} {stop pre : σ → Prop} {post : α → σ → Prop}

/-- A triple read off a finished run. -/
theorem Triple.returned {m : Scripted σ ω α} (h : Triple good stop pre m post) {s s' : σ}
    {script rest : List ω} {a : α} (hpre : pre s) (hgood : ∀ o ∈ script, good o)
    (hrun : m s script = (s', some (a, rest))) : post a s' := by
  have hm := h s script hpre hgood
  rw [hrun] at hm
  exact hm.1

theorem Triple.pure {a : α} (h : ∀ s, pre s → post a s) :
    Triple good stop pre (pure a : Scripted σ ω α) post :=
  fun s _ hpre hgood => ⟨h s hpre, hgood⟩

theorem Triple.bind {m : Scripted σ ω α} {f : α → Scripted σ ω β} {mid : α → σ → Prop}
    {post : β → σ → Prop} (hm : Triple good stop pre m mid)
    (hf : ∀ a, Triple good stop (mid a) (f a) post) : Triple good stop pre (m >>= f) post := by
  intro s script hpre hgood
  have h := hm s script hpre hgood
  change Ends good stop post (Scripted.bind m f s script)
  unfold Scripted.bind
  revert h
  rcases m s script with ⟨s', - | ⟨a, rest⟩⟩
  · exact id
  · exact fun h => hf a s' rest h.1 h.2

theorem Triple.weaken {m : Scripted σ ω α} {pre' : σ → Prop} {post' : α → σ → Prop}
    (h : Triple good stop pre m post) (hpre : ∀ s, pre' s → pre s)
    (hpost : ∀ a s, post a s → post' a s) : Triple good stop pre' m post' := by
  intro s script hs hgood
  have hm := h s script (hpre s hs) hgood
  revert hm
  rcases m s script with ⟨s', - | ⟨a, rest⟩⟩
  · exact id
  · exact fun hm => ⟨hpost a s' hm.1, hm.2⟩

/-- A precondition may name a value of the state. -/
theorem Triple.exists {ι : Sort*} {m : Scripted σ ω α} {pre : ι → σ → Prop}
    (h : ∀ i, Triple good stop (pre i) m post) : Triple good stop (fun s => ∃ i, pre i s) m post :=
  fun s script ⟨i, hpre⟩ hgood => h i s script hpre hgood

/-- A precondition may state a fact that does not depend on the state. -/
theorem Triple.of_fact {p : Prop} {m : Scripted σ ω α} (h : p → Triple good stop pre m post) :
    Triple good stop (fun s => p ∧ pre s) m post :=
  fun s script ⟨hp, hpre⟩ hgood => h hp s script hpre hgood

/-- No state satisfies the precondition. -/
theorem Triple.of_absurd {m : Scripted σ ω α} (h : ∀ s, ¬ pre s) : Triple good stop pre m post :=
  fun s _ hpre _ => absurd hpre (h s)

theorem Triple.modify {f : σ → σ} {post : Unit → σ → Prop} (h : ∀ s, pre s → post () (f s)) :
    Triple good stop pre (modify f : Scripted σ ω Unit) post :=
  fun s _ hpre hgood => ⟨h s hpre, hgood⟩

/-- A call: every step without a result keeps the precondition, which holds wherever it stops. -/
theorem Triple.call {f : σ → ω → σ × Option α} (hstop : ∀ s, pre s → stop s)
    (hnone : ∀ s o, pre s → good o → (f s o).2 = none → pre (f s o).1)
    (hsome : ∀ s o a, pre s → good o → (f s o).2 = some a → post a (f s o).1) :
    Triple good stop pre (call f) post := by
  intro s script hpre hgood
  induction script generalizing s with
  | nil => exact hstop s hpre
  | cons o script ih =>
    have ho := hgood o List.mem_cons_self
    have hrest : ∀ o ∈ script, good o := fun o' ho' => hgood o' (List.mem_cons_of_mem o ho')
    have hn := hnone s o hpre ho
    have hs := hsome s o
    rw [Scripted.call]
    rcases hf : f s o with ⟨s', - | a⟩
    · rw [hf] at hn
      exact ih s' (hn rfl) hrest
    · rw [hf] at hs
      exact ⟨hs a hpre ho rfl, hrest⟩

theorem Triple.ite {c : Prop} [Decidable c] {m n : Scripted σ ω α}
    (hm : c → Triple good stop pre m post) (hn : ¬ c → Triple good stop pre n post) :
    Triple good stop pre (if c then m else n) post := by
  split_ifs with h
  · exact hm h
  · exact hn h

/-- A loop keeps an invariant that each of its rounds keeps. -/
theorem Triple.iterate {body : β → Scripted σ ω (β ⊕ α)} {inv : β → σ → Prop}
    (hstop : ∀ b s, inv b s → stop s)
    (hbody : ∀ b, Triple good stop (inv b) (body b) fun r s =>
      Sum.elim (fun b => inv b s) (fun a => post a s) r) (b : β) :
    Triple good stop (inv b) (iterate body b) post := by
  have hfuel : ∀ fuel b, Triple good stop (inv b) (iterateFuel body fuel b) post := by
    intro fuel
    induction fuel with
    | zero => exact fun b s _ hinv _ => hstop b s hinv
    | succ fuel ih =>
      intro b
      refine (hbody b).bind fun r => ?_
      cases r with
      | inl b => exact ih b
      | inr a => exact Triple.pure fun _ h => h
  exact fun s script hinv hgood => hfuel _ b s script hinv hgood

/-! ## Programs that finish -/

/-- From every state, some script of good outcomes takes the program to its end. -/
def Finishes (good : ω → Prop) (m : Scripted σ ω α) : Prop :=
  ∀ s, ∃ script a s', (∀ o ∈ script, good o) ∧
    ∀ more, m s (script ++ more) = (s', some (a, more))

theorem Finishes.pure (a : α) : Finishes good (pure a : Scripted σ ω α) :=
  fun s => ⟨[], a, s, by simp, fun _ => rfl⟩

theorem Finishes.modify (f : σ → σ) : Finishes good (modify f : Scripted σ ω Unit) :=
  fun s => ⟨[], (), f s, by simp, fun _ => rfl⟩

theorem Finishes.call {f : σ → ω → σ × Option α} {o : ω} (ho : good o)
    (h : ∀ s, (f s o).2.isSome = true) : Finishes good (call f) := by
  intro s
  obtain ⟨a, ha⟩ := Option.isSome_iff_exists.mp (h s)
  refine ⟨[o], a, (f s o).1, by simpa using ho, fun more => ?_⟩
  rw [List.singleton_append, Scripted.call]
  rcases hf : f s o with ⟨s', r⟩
  rw [hf] at ha
  cases ha
  rfl

theorem Finishes.bind {m : Scripted σ ω α} {f : α → Scripted σ ω β} (hm : Finishes good m)
    (hf : ∀ a, Finishes good (f a)) : Finishes good (m >>= f) := by
  intro s
  obtain ⟨script, a, s', hgood, hrun⟩ := hm s
  obtain ⟨script', b, s'', hgood', hrun'⟩ := hf a s'
  refine ⟨script ++ script', b, s'', fun o ho => (List.mem_append.mp ho).elim (hgood o) (hgood' o),
    fun more => ?_⟩
  change Scripted.bind m f s _ = _
  rw [Scripted.bind, List.append_assoc, hrun]
  exact hrun' more

theorem Finishes.ite {c : Prop} [Decidable c] {m n : Scripted σ ω α} (hm : Finishes good m)
    (hn : Finishes good n) : Finishes good (if c then m else n) := by
  split_ifs
  · exact hm
  · exact hn

/-- A loop finishes when each of its rounds can be taken so that it lowers a measure. -/
theorem Finishes.iterate {body : β → Scripted σ ω (β ⊕ α)} (μ : β → σ → ℕ)
    (hbody : ∀ b s, ∃ script r s', script ≠ [] ∧ (∀ o ∈ script, good o) ∧
      (∀ more, body b s (script ++ more) = (s', some (r, more))) ∧
      ∀ b', r = .inl b' → μ b' s' < μ b s) (b : β) : Finishes good (iterate body b) := by
  have hfuel : ∀ n b s, μ b s < n → ∃ script a s', (∀ o ∈ script, good o) ∧
      ∀ fuel more, script.length < fuel →
        iterateFuel body fuel b s (script ++ more) = (s', some (a, more)) := by
    intro n
    induction n with
    | zero => exact fun b s h => absurd h (Nat.not_lt_zero _)
    | succ n ih =>
      intro b s hμ
      obtain ⟨script, r, s', hne, hgood, hrun, hless⟩ := hbody b s
      have hpos := List.length_pos_iff.mpr hne
      have hround : ∀ fuel more, script.length < fuel → ∃ fuel', fuel = fuel' + 1 ∧
          iterateFuel body fuel b s (script ++ more) =
            Sum.elim (iterateFuel body fuel') Pure.pure r s' more := by
        intro fuel more hlt
        obtain ⟨fuel, rfl⟩ := Nat.exists_eq_succ_of_ne_zero (Nat.ne_zero_of_lt hlt)
        refine ⟨fuel, rfl, ?_⟩
        rw [iterateFuel]
        change Scripted.bind _ _ s _ = _
        rw [Scripted.bind, hrun]
      cases r with
      | inr a =>
        refine ⟨script, a, s', hgood, fun fuel more hlt => ?_⟩
        obtain ⟨fuel', -, heq⟩ := hround fuel more hlt
        rw [heq]
        rfl
      | inl b' =>
        have hsmall := hless b' rfl
        obtain ⟨script', a, s'', hgood', hrest⟩ := ih b' s' (by omega)
        refine ⟨script ++ script', a, s'',
          fun o ho => (List.mem_append.mp ho).elim (hgood o) (hgood' o), fun fuel more hlt => ?_⟩
        rw [List.length_append] at hlt
        obtain ⟨fuel', hfuel', heq⟩ := hround fuel (script' ++ more) (by omega)
        rw [List.append_assoc, heq]
        exact hrest fuel' more (by omega)
  intro s
  obtain ⟨script, a, s', hgood, hrun⟩ := hfuel (μ b s + 1) b s (Nat.lt_succ_self _)
  refine ⟨script, a, s', hgood, fun more => hrun _ more ?_⟩
  rw [List.length_append]
  omega

end Scripted

end Foundations
