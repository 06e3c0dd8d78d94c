import Mathlib.Algebra.BigOperators.Group.Finset.Basic
import Mathlib.Data.List.Induction
import Mathlib.Tactic

/-!
# Runs of a partial step function

A system is given by `step : σ → α → Option σ`; `none` means that the action has no defined outcome
in that state. A run folds `step` over a list of actions, and a *guarded* run is one in which every
action meets a condition read in the state in which it is taken.

The rules at the end package the inductions: an invariant that every (guarded) step preserves holds
at the end of every (guarded) run, a reflexive and transitive relation that every step respects
relates both ends of every run, and steps that lower a rank come to an end.
-/

namespace Foundations

variable {σ α : Type*}

/-- Run a list of actions from `s`. -/
def run (step : σ → α → Option σ) : σ → List α → Option σ
  | s, [] => some s
  | s, a :: as => (step s a).bind fun s' => run step s' as

/-- Every action of the run meets `good` in the state in which it is taken. -/
def Guarded (step : σ → α → Option σ) (good : σ → α → Prop) : σ → List α → Prop
  | _, [] => True
  | s, a :: as => good s a ∧ ∀ s', step s a = some s' → Guarded step good s' as

variable {step : σ → α → Option σ} {good : σ → α → Prop}

@[simp] theorem run_nil (s : σ) : run step s [] = some s := rfl

theorem run_cons_some {s s' : σ} {a : α} {as : List α} :
    run step s (a :: as) = some s' ↔ ∃ t, step s a = some t ∧ run step t as = some s' := by
  simp [run, Option.bind_eq_some_iff]

theorem run_append_some {s s' : σ} {as bs : List α} :
    run step s (as ++ bs) = some s' ↔ ∃ t, run step s as = some t ∧ run step t bs = some s' := by
  induction as generalizing s with
  | nil => simp
  | cons a as ih =>
    rw [List.cons_append, run_cons_some]
    constructor
    · rintro ⟨t, ht, hrun⟩
      obtain ⟨u, hu, hbs⟩ := ih.mp hrun
      exact ⟨u, run_cons_some.mpr ⟨t, ht, hu⟩, hbs⟩
    · rintro ⟨u, hu, hbs⟩
      obtain ⟨t, ht, has⟩ := run_cons_some.mp hu
      exact ⟨t, ht, ih.mpr ⟨u, has, hbs⟩⟩

/-- The last action of a run can be split off. -/
theorem run_concat_some {s s' : σ} {as : List α} {a : α} :
    run step s (as ++ [a]) = some s' ↔ ∃ t, run step s as = some t ∧ step t a = some s' := by
  rw [run_append_some]
  constructor
  · rintro ⟨t, ht, h⟩
    obtain ⟨u, hu, hnil⟩ := run_cons_some.mp h
    exact ⟨t, ht, by rw [hu]; exact hnil⟩
  · rintro ⟨t, ht, h⟩
    exact ⟨t, ht, run_cons_some.mpr ⟨s', h, rfl⟩⟩

theorem Guarded.append_left {s : σ} {as bs : List α} (h : Guarded step good s (as ++ bs)) :
    Guarded step good s as := by
  induction as generalizing s with
  | nil => trivial
  | cons a as ih => exact ⟨h.1, fun s' hs' => ih (h.2 s' hs')⟩

theorem Guarded.append_right {s t : σ} {as bs : List α} (h : Guarded step good s (as ++ bs))
    (hrun : run step s as = some t) : Guarded step good t bs := by
  induction as generalizing s with
  | nil => cases hrun; exact h
  | cons a as ih =>
    obtain ⟨u, hu, hrest⟩ := run_cons_some.mp hrun
    exact ih (h.2 u hu) hrest

/-- A guarded run meets the condition wherever it gets. -/
theorem guarded_iff {s : σ} {as : List α} :
    Guarded step good s as ↔
      ∀ before a after t, as = before ++ a :: after → run step s before = some t → good t a := by
  induction as generalizing s with
  | nil => simp [Guarded]
  | cons b as ih =>
    constructor
    · rintro ⟨hb, hrest⟩ before a after t heq hrun
      cases before with
      | nil =>
        rw [List.nil_append, List.cons.injEq] at heq
        rw [run_nil, Option.some.injEq] at hrun
        rw [← heq.1, ← hrun]
        exact hb
      | cons c before =>
        rw [List.cons_append, List.cons.injEq] at heq
        obtain ⟨u, hu, hbefore⟩ := run_cons_some.mp hrun
        rw [← heq.1] at hu
        exact ih.mp (hrest u hu) before a after t heq.2 hbefore
    · intro h
      refine ⟨h [] b as s rfl rfl, fun u hu => ih.mpr fun before a after t heq hrun => ?_⟩
      exact h (b :: before) a after t (by rw [heq, List.cons_append])
        (run_cons_some.mpr ⟨u, hu, hrun⟩)

/-- A condition on the actions alone guards every run made of such actions. -/
theorem Guarded.of_forall {s : σ} {as : List α} {p : α → Prop} (h : ∀ a ∈ as, p a) :
    Guarded step (fun _ a => p a) s as := by
  induction as generalizing s with
  | nil => trivial
  | cons a as ih =>
    exact ⟨h a List.mem_cons_self, fun _ _ => ih fun b hb => h b (List.mem_cons_of_mem a hb)⟩

/-- Two conditions guard a run together. -/
theorem Guarded.and {good' : σ → α → Prop} {s : σ} {as : List α} (h : Guarded step good s as)
    (h' : Guarded step good' s as) : Guarded step (fun s a => good s a ∧ good' s a) s as := by
  induction as generalizing s with
  | nil => trivial
  | cons a as ih => exact ⟨⟨h.1, h'.1⟩, fun t ht => ih (h.2 t ht) (h'.2 t ht)⟩

/-- A weaker condition guards the same run. -/
theorem Guarded.imp {good' : σ → α → Prop} (himp : ∀ s a, good s a → good' s a) {s : σ}
    {as : List α} (h : Guarded step good s as) : Guarded step good' s as := by
  induction as generalizing s with
  | nil => trivial
  | cons a as ih => exact ⟨himp s a h.1, fun t ht => ih (h.2 t ht)⟩

/-- A condition that implies another one in the states that the guarded run can reach guards it with
that one, too. -/
theorem Guarded.imp_of_invariant {good' : σ → α → Prop} {P : σ → Prop}
    (hstep : ∀ s a s', P s → good s a → step s a = some s' → P s')
    (himp : ∀ s a, P s → good s a → good' s a) {s : σ} {as : List α} (hs : P s)
    (h : Guarded step good s as) : Guarded step good' s as := by
  induction as generalizing s with
  | nil => trivial
  | cons a as ih =>
    exact ⟨himp s a hs h.1, fun t ht => ih (hstep s a t hs h.1 ht) (h.2 t ht)⟩

/-- Whether a run is guarded can be computed. -/
instance decidableGuarded [∀ s a, Decidable (good s a)] :
    ∀ (s : σ) (as : List α), Decidable (Guarded step good s as)
  | _, [] => isTrue trivial
  | s, a :: as =>
    match h : step s a with
    | none => decidable_of_iff (good s a) ⟨fun hg => ⟨hg, by simp [h]⟩, And.left⟩
    | some t =>
      have := decidableGuarded t as
      decidable_of_iff (good s a ∧ Guarded step good t as) (by simp [Guarded, h])

/-! ## Invariant rules -/

/-- An invariant that every guarded step preserves holds at the end of every guarded run. -/
theorem run_invariant_of_guarded {P : σ → Prop}
    (hstep : ∀ s a s', P s → good s a → step s a = some s' → P s') {s s' : σ} {as : List α}
    (hs : P s) (hgood : Guarded step good s as) (hrun : run step s as = some s') : P s' := by
  induction as generalizing s with
  | nil => cases hrun; exact hs
  | cons a as ih =>
    obtain ⟨t, ht, hrest⟩ := run_cons_some.mp hrun
    exact ih (hstep s a t hs hgood.1 ht) (hgood.2 t ht) hrest

/-- An invariant that every step preserves holds at the end of every run. -/
theorem run_invariant {P : σ → Prop} (hstep : ∀ s a s', P s → step s a = some s' → P s')
    {s s' : σ} {as : List α} (hs : P s) (hrun : run step s as = some s') : P s' := by
  induction as generalizing s with
  | nil => cases hrun; exact hs
  | cons a as ih =>
    obtain ⟨t, ht, hrest⟩ := run_cons_some.mp hrun
    exact ih (hstep s a t hs ht) hrest

/-- A reflexive and transitive relation that every step respects relates both ends of a run. -/
theorem run_rel (R : σ → σ → Prop) (hrefl : ∀ s, R s s)
    (htrans : ∀ s t u, R s t → R t u → R s u) (hstep : ∀ s a s', step s a = some s' → R s s')
    {s s' : σ} {as : List α} (hrun : run step s as = some s') : R s s' := by
  induction as generalizing s with
  | nil => cases hrun; exact hrefl _
  | cons a as ih =>
    obtain ⟨t, ht, hrest⟩ := run_cons_some.mp hrun
    exact htrans s t s' (hstep s a t ht) (ih hrest)

/-- A counter that no step raises by more than one takes every value on the way. -/
theorem exists_prefix_of_counter (f : σ → ℤ)
    (hstep : ∀ s a s', step s a = some s' → f s' ≤ f s + 1) {s s' : σ} {as : List α}
    (hrun : run step s as = some s') {n : ℤ} (hn : f s ≤ n) (hn' : n ≤ f s') :
    ∃ before after mid, as = before ++ after ∧ run step s before = some mid ∧ f mid = n := by
  induction as using List.reverseRecOn generalizing s' with
  | nil =>
    cases hrun
    exact ⟨[], [], s, rfl, rfl, le_antisymm hn hn'⟩
  | append_singleton as a ih =>
    obtain ⟨t, ht, hlast⟩ := run_concat_some.mp hrun
    by_cases hle : n ≤ f t
    · obtain ⟨before, after, mid, rfl, hmid, heq⟩ := ih ht hle
      exact ⟨before, after ++ [a], mid, by rw [List.append_assoc], hmid, heq⟩
    · have := hstep t a s' hlast
      exact ⟨as ++ [a], [], s', by rw [List.append_nil], hrun, by omega⟩

/-! ## Two systems -/

/-- The labels of a run are those of its first action and of the others. -/
theorem run_filterMap_cons {τ β : Type*} {step' : τ → β → Option τ} {label : α → Option β} {t u v : τ}
    {a : α} {as : List α} (ha : run step' t (label a).toList = some u)
    (has : run step' u (as.filterMap label) = some v) :
    run step' t ((a :: as).filterMap label) = some v := by
  have happ : (a :: as).filterMap label = (label a).toList ++ as.filterMap label := by
    rw [List.filterMap_cons]
    cases label a <;> rfl
  rw [happ, run_append_some]
  exact ⟨u, ha, has⟩

/-- If every guarded step of one system is matched by the step of another system that its label names,
or by none, then every guarded run is matched by the run that its labels name. -/
theorem exists_run_filterMap {τ β : Type*} {step' : τ → β → Option τ} {R : σ → τ → Prop}
    {label : α → Option β}
    (hstep : ∀ s a s' t, R s t → good s a → step s a = some s' →
      ∃ t', run step' t (label a).toList = some t' ∧ R s' t') {s s' : σ} {t : τ} {as : List α}
    (hR : R s t) (hgood : Guarded step good s as) (hrun : run step s as = some s') :
    ∃ t', run step' t (as.filterMap label) = some t' ∧ R s' t' := by
  induction as generalizing s t with
  | nil =>
    cases hrun
    exact ⟨t, rfl, hR⟩
  | cons a as ih =>
    obtain ⟨u, hu, hrest⟩ := run_cons_some.mp hrun
    obtain ⟨v, hv, hRv⟩ := hstep s a u t hR hgood.1 hu
    obtain ⟨t', ht', hR'⟩ := ih hRv (hgood.2 u hu) hrest
    exact ⟨t', run_filterMap_cons hv ht', hR'⟩

/-! ## Runs that come to an end -/

section Rank

variable {τ β : Type*} {step' : τ → β → Option τ} {R : σ → τ → Prop} {p : α → Prop}

/-- If every step is matched and lowers the rank, then a run is matched and not longer than the rank at
its start. -/
theorem exists_run_filterMap_of_rank (label : α → Option β) (rank : σ → τ → ℕ)
    (hstep : ∀ s a s' t, R s t → p a → step s a = some s' →
      ∃ t', run step' t (label a).toList = some t' ∧ R s' t' ∧ rank s' t' < rank s t) {s s' : σ} {t : τ}
    {as : List α} (hR : R s t) (has : ∀ a ∈ as, p a) (hrun : run step s as = some s') :
    ∃ t', run step' t (as.filterMap label) = some t' ∧ R s' t' ∧ as.length + rank s' t' ≤ rank s t := by
  induction as generalizing s t with
  | nil =>
    cases hrun
    exact ⟨t, rfl, hR, by rw [List.length_nil, Nat.zero_add]⟩
  | cons a as ih =>
    obtain ⟨u, hu, hrest⟩ := run_cons_some.mp hrun
    obtain ⟨v, hv, hRv, hlt⟩ := hstep s a u t hR (has a List.mem_cons_self) hu
    obtain ⟨t', ht', hR', hle⟩ := ih hRv (fun b hb => has b (List.mem_cons_of_mem a hb)) hrest
    refine ⟨t', run_filterMap_cons hv ht', hR', ?_⟩
    rw [List.length_cons]
    omega

/-- If, moreover, only final states have no next step, then a final state can be reached. -/
theorem exists_matched_run_to_final (label : α → Option β) (rank : σ → τ → ℕ)
    {final : σ → τ → Prop}
    (hstep : ∀ s a s' t, R s t → p a → step s a = some s' →
      ∃ t', run step' t (label a).toList = some t' ∧ R s' t' ∧ rank s' t' < rank s t)
    (hprogress : ∀ s t, R s t → final s t ∨ ∃ a s', p a ∧ step s a = some s') {s : σ} {t : τ}
    (hR : R s t) :
    ∃ as s' t', (∀ a ∈ as, p a) ∧ run step s as = some s' ∧
      run step' t (as.filterMap label) = some t' ∧ R s' t' ∧ final s' t' := by
  induction hrank : rank s t using Nat.strong_induction_on generalizing s t with
  | _ n ih =>
    rcases hprogress s t hR with hfinal | ⟨a, u, ha, hu⟩
    · exact ⟨[], s, t, fun _ h => absurd h List.not_mem_nil, rfl, rfl, hR, hfinal⟩
    · obtain ⟨v, hv, hRv, hlt⟩ := hstep s a u t hR ha hu
      obtain ⟨as, s', t', has, hrun, hrun', hR', hfinal⟩ := ih (rank u v) (hrank ▸ hlt) hRv rfl
      refine ⟨a :: as, s', t', ?_, run_cons_some.mpr ⟨u, hu, hrun⟩, run_filterMap_cons hv hrun', hR',
        hfinal⟩
      exact List.forall_mem_cons.mpr ⟨ha, has⟩

end Rank

section Alone

variable {P : σ → Prop} {p : α → Prop} {rank : σ → ℕ}

/-- One system alone is matched by one that does nothing. -/
theorem matched_alone (hstep : ∀ s a s', P s → p a → step s a = some s' → P s' ∧ rank s' < rank s)
    (s : σ) (a : α) (s' : σ) (t : Unit) (hs : P s) (ha : p a) (h : step s a = some s') :
    ∃ t', run (fun t _ => some t) t (none : Option Unit).toList = some t' ∧ P s' ∧ rank s' < rank s :=
  ⟨t, rfl, hstep s a s' hs ha h⟩

/-- If every step lowers the rank, then a run is not longer than the rank at its start. -/
theorem length_add_rank_le
    (hstep : ∀ s a s', P s → p a → step s a = some s' → P s' ∧ rank s' < rank s) {s s' : σ}
    {as : List α} (hs : P s) (has : ∀ a ∈ as, p a) (hrun : run step s as = some s') :
    P s' ∧ as.length + rank s' ≤ rank s := by
  obtain ⟨-, -, hlast⟩ := exists_run_filterMap_of_rank (R := fun s _ => P s) (fun _ => none)
    (fun s _ => rank s) (matched_alone hstep) (t := ()) hs has hrun
  exact hlast

/-- If, moreover, only final states have no next step, then a final state can be reached. -/
theorem exists_run_to_final {final : σ → Prop}
    (hstep : ∀ s a s', P s → p a → step s a = some s' → P s' ∧ rank s' < rank s)
    (hprogress : ∀ s, P s → final s ∨ ∃ a s', p a ∧ step s a = some s') {s : σ} (hs : P s) :
    ∃ as s', (∀ a ∈ as, p a) ∧ run step s as = some s' ∧ P s' ∧ final s' := by
  obtain ⟨as, s', -, has, hrun, -, hlast⟩ := exists_matched_run_to_final (R := fun s _ => P s)
    (fun _ => none) (fun s _ => rank s) (matched_alone hstep) (fun s _ hs => hprogress s hs) (t := ()) hs
  exact ⟨as, s', has, hrun, hlast⟩

end Alone

/-! ## Counts over the parties of a system -/

/-- Replacing one party changes a sum over all of them by the difference of its own part. -/
theorem sum_range_update {ι : Type*} (f : ℕ → ι → ℕ) (parties : ℕ → ι) {n i : ℕ} (hi : i < n) (c : ι) :
    (∑ j ∈ Finset.range n, f j (Function.update parties i c j)) + f i (parties i) =
      (∑ j ∈ Finset.range n, f j (parties j)) + f i c := by
  have hmem : i ∈ Finset.range n := Finset.mem_range.mpr hi
  have hrest : ∀ j ∈ (Finset.range n).erase i,
      f j (Function.update parties i c j) = f j (parties j) := by
    intro j hj
    rw [Function.update_of_ne (Finset.ne_of_mem_erase hj)]
  rw [← Finset.add_sum_erase _ _ hmem, ← Finset.add_sum_erase _ (fun j => f j (parties j)) hmem,
    Finset.sum_congr rfl hrest, Function.update_self]
  omega

end Foundations
