/-
# Interleavings of threads

Every concurrent component of the development is a partial step function
`step : σ → α → Option σ`: an action names the thread that moves together with the
outcome of whatever it asks its environment, and `none` says that the thread cannot
make that move now.  This file has the vocabulary the components share.

* `Reach step ok s₀ s` says that `s` is reached from `s₀` by steps that all satisfy
  the guard `ok`, a condition on the state before the step and on its action.
  `Always` is the guard that allows everything, so `Reach step Always s₀` is
  reachability by every interleaving.
* `Reach.invariant` is the invariant rule for guarded runs.
* `run` executes a schedule, and `Reach.run` turns an executed schedule into
  reachability; a concrete interleaving is exhibited that way.
* `phaseCount P pc` counts the threads whose program counter satisfies `P`;
  `phaseCount_update` is its bookkeeping when one thread moves.
* `phaseSum f pc` adds up what the threads hold at their places, with `phaseSum_update`.
-/
import Mathlib.Algebra.BigOperators.Group.Finset.Basic
import Mathlib.Data.Fintype.Basic
import Mathlib.Data.Fintype.BigOperators

namespace Interleaving

/-! ## Guarded reachability -/

section Reachability

variable {σ α : Type*} {step : σ → α → Option σ} {ok : σ → α → Prop} {s₀ : σ}

/-- The states reached from `s₀` by steps that all satisfy the guard `ok`. -/
inductive Reach (step : σ → α → Option σ) (ok : σ → α → Prop) (s₀ : σ) : σ → Prop
  | refl : Reach step ok s₀ s₀
  | tail {s s' : σ} {a : α} :
      Reach step ok s₀ s → ok s a → step s a = some s' → Reach step ok s₀ s'

/-- The guard of an unrestricted run. -/
def Always (_ : σ) (_ : α) : Prop := True

instance (s : σ) (a : α) : Decidable (Always s a) := inferInstanceAs (Decidable True)

/-- **The invariant rule.**  What holds at the start and is kept by every step the
guard allows holds in every state of a guarded run. -/
theorem Reach.invariant (Inv : σ → Prop) (h₀ : Inv s₀)
    (hstep : ∀ s a s', Inv s → ok s a → step s a = some s' → Inv s')
    {s : σ} (h : Reach step ok s₀ s) : Inv s := by
  induction h with
  | refl => exact h₀
  | tail _ hok hs ih => exact hstep _ _ _ ih hok hs

/-- A run that meets a guard meets every weaker one. -/
theorem Reach.mono {ok' : σ → α → Prop} {s : σ} (h : Reach step ok s₀ s)
    (hok : ∀ s a, ok s a → ok' s a) : Reach step ok' s₀ s := by
  induction h with
  | refl => exact Reach.refl
  | tail _ hguard hs ih => exact ih.tail (hok _ _ hguard) hs

/-- Execute a schedule; `none` when some action of it is not possible or the guard
refuses it. -/
def run (step : σ → α → Option σ) (ok : σ → α → Prop) [∀ s a, Decidable (ok s a)] :
    σ → List α → Option σ
  | s, [] => some s
  | s, a :: rest => if ok s a then (step s a).bind fun s' => run step ok s' rest else none

/-- A schedule that executes extends a run. -/
theorem Reach.run [∀ s a, Decidable (ok s a)] {s s' : σ} (h : Reach step ok s₀ s)
    (sched : List α) (hr : run step ok s sched = some s') : Reach step ok s₀ s' := by
  induction sched generalizing s with
  | nil =>
      rw [Interleaving.run, Option.some.injEq] at hr
      exact hr ▸ h
  | cons a rest ih =>
      rw [Interleaving.run] at hr
      split at hr
      · rename_i hok
        rw [Option.bind_eq_some_iff] at hr
        obtain ⟨s₁, hs₁, hrest⟩ := hr
        exact ih (h.tail hok hs₁) hrest
      · exact absurd hr (by simp)

end Reachability

/-! ## Counting threads by phase -/

section Phases

variable {τ π : Type*} [Fintype τ]

/-- The number of threads whose program counter satisfies `P`. -/
def phaseCount (P : π → Prop) [DecidablePred P] (pc : τ → π) : ℕ :=
  (Finset.univ.filter fun t => P (pc t)).card

/-- Moving one thread changes the count by what that thread leaves and enters. -/
theorem phaseCount_update [DecidableEq τ] (P : π → Prop) [DecidablePred P] (pc : τ → π)
    (t : τ) (x : π) :
    phaseCount P (Function.update pc t x) + (if P (pc t) then 1 else 0)
      = phaseCount P pc + (if P x then 1 else 0) := by
  have hsplit : ∀ f : τ → π, phaseCount P f
      = (if P (f t) then 1 else 0) + ∑ u ∈ Finset.univ.erase t, if P (f u) then 1 else 0 := by
    intro f
    rw [phaseCount, Finset.card_filter]
    exact (Finset.add_sum_erase _ _ (Finset.mem_univ t)).symm
  have hrest : (∑ u ∈ Finset.univ.erase t, if P (Function.update pc t x u) then 1 else 0)
      = ∑ u ∈ Finset.univ.erase t, if P (pc u) then 1 else 0 := by
    refine Finset.sum_congr rfl fun u hu => ?_
    rw [Function.update_of_ne (Finset.ne_of_mem_erase hu)]
  rw [hsplit (Function.update pc t x), hsplit pc, hrest, Function.update_self]
  omega

/-- A move of any number of threads that keeps each of them in or out of the phase
keeps the count. -/
theorem phaseCount_congr (P : π → Prop) [DecidablePred P] {pc pc' : τ → π}
    (h : ∀ t, P (pc' t) ↔ P (pc t)) : phaseCount P pc' = phaseCount P pc := by
  rw [phaseCount, phaseCount]
  congr 1
  exact Finset.filter_congr fun t _ => h t

/-- No more threads are in a phase than there are threads. -/
theorem phaseCount_le_card (P : π → Prop) [DecidablePred P] (pc : τ → π) :
    phaseCount P pc ≤ Fintype.card τ :=
  Finset.card_le_univ _

/-- A positive count is witnessed by a thread. -/
theorem phaseCount_pos_iff (P : π → Prop) [DecidablePred P] (pc : τ → π) :
    0 < phaseCount P pc ↔ ∃ t, P (pc t) := by
  rw [phaseCount, Finset.card_pos]
  constructor
  · rintro ⟨t, ht⟩
    exact ⟨t, (Finset.mem_filter.mp ht).2⟩
  · rintro ⟨t, ht⟩
    exact ⟨t, Finset.mem_filter.mpr ⟨Finset.mem_univ t, ht⟩⟩

/-- A phase with at most one thread in it names that thread. -/
theorem eq_of_phaseCount_le_one (P : π → Prop) [DecidablePred P] (pc : τ → π)
    (h : phaseCount P pc ≤ 1) {t u : τ} (ht : P (pc t)) (hu : P (pc u)) : t = u :=
  Finset.card_le_one.mp h t (Finset.mem_filter.mpr ⟨Finset.mem_univ t, ht⟩)
    u (Finset.mem_filter.mpr ⟨Finset.mem_univ u, hu⟩)

/-- What the threads hold together, `f` telling what a thread holds at a place. -/
def phaseSum (f : π → ℕ) (pc : τ → π) : ℕ := ∑ t, f (pc t)

/-- Moving one thread changes the sum by what that thread holds before and after. -/
theorem phaseSum_update [DecidableEq τ] (f : π → ℕ) (pc : τ → π) (t : τ) (x : π) :
    phaseSum f (Function.update pc t x) + f (pc t) = phaseSum f pc + f x := by
  have hsplit : ∀ g : τ → π, phaseSum f g = f (g t) + ∑ u ∈ Finset.univ.erase t, f (g u) :=
    fun g => (Finset.add_sum_erase _ _ (Finset.mem_univ t)).symm
  have hrest : (∑ u ∈ Finset.univ.erase t, f (Function.update pc t x u))
      = ∑ u ∈ Finset.univ.erase t, f (pc u) := by
    apply Finset.sum_congr rfl
    intro u hu
    rw [Function.update_of_ne (Finset.ne_of_mem_erase hu)]
  rw [hsplit (Function.update pc t x), hsplit pc, hrest, Function.update_self]
  omega

end Phases

end Interleaving
