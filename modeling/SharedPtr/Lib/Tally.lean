/-
Bookkeeping over a family of threads. Each thread has an account, an element
of a commutative monoid; a step moves something out of one thread's account
and something else in (`Moves`), and does the same to the sum over all
threads (`Moves.sum_update`). Moving is stated without subtraction: there is
a rest that stays.
-/
import Mathlib.Algebra.BigOperators.Group.Finset.Basic
import Mathlib.Data.Fintype.BigOperators
import Mathlib.Tactic.Abel

namespace SharedPtr.Lib

open Finset

variable {M : Type*} [AddCommMonoid M]

/-- `y` is `x` with `loss` taken out and `gain` put in. -/
def Moves (loss gain x y : M) : Prop := ∃ rest, x = loss + rest ∧ y = gain + rest

theorem Moves.refl (x : M) : Moves 0 0 x x := ⟨x, by simp, by simp⟩

theorem Moves.gain (g x : M) : Moves 0 g x (g + x) := ⟨x, by simp, rfl⟩

theorem Moves.frame {l g x y : M} (h : Moves l g x y) (z : M) : Moves l g (x + z) (y + z) := by
  obtain ⟨rest, rfl, rfl⟩ := h
  exact ⟨rest + z, by abel, by abel⟩

/-- One member's account and the others' in `t`; the others' stay when the member changes. -/
theorem exists_sum_update_of_mem {ι τ : Type*} [DecidableEq ι] (f : τ → M) (thr : ι → τ) {t : Finset ι} {i : ι}
    (hi : i ∈ t) :
    ∃ rest, ∑ j ∈ t, f (thr j) = f (thr i) + rest ∧ ∀ x, ∑ j ∈ t, f (Function.update thr i x j) = f x + rest := by
  refine ⟨∑ j ∈ t.erase i, f (thr j), (Finset.add_sum_erase t (fun j => f (thr j)) hi).symm, ?_⟩
  intro x
  have hrest : ∑ j ∈ t.erase i, f (Function.update thr i x j) = ∑ j ∈ t.erase i, f (thr j) :=
    Finset.sum_congr rfl fun j hj => by rw [Function.update_of_ne (Finset.ne_of_mem_erase hj)]
  rw [← Finset.add_sum_erase t (fun j => f (Function.update thr i x j)) hi, hrest, Function.update_self]

/-- A thread's account and the others'. -/
theorem exists_sum_update {ι τ : Type*} [Fintype ι] [DecidableEq ι] (f : τ → M) (thr : ι → τ) (i : ι) :
    ∃ rest, ∑ j, f (thr j) = f (thr i) + rest ∧ ∀ x, ∑ j, f (Function.update thr i x j) = f x + rest :=
  exists_sum_update_of_mem f thr (mem_univ i)

/-- One thread's account moves, and the sum over all threads moves alike. -/
theorem Moves.sum_update {ι τ : Type*} [Fintype ι] [DecidableEq ι] {f : τ → M} {thr : ι → τ} {i : ι} {x : τ}
    {l g : M} (h : Moves l g (f (thr i)) (f x)) :
    Moves l g (∑ j, f (thr j)) (∑ j, f (Function.update thr i x j)) := by
  obtain ⟨rest, hs, hx⟩ := exists_sum_update f thr i
  rw [hs, hx]
  exact h.frame rest

/-- Two threads' accounts, and the others'. -/
theorem exists_sum_eq_add_add {ι τ : Type*} [Fintype ι] [DecidableEq ι] (f : τ → M) (thr : ι → τ) {i j : ι}
    (h : i ≠ j) : ∃ rest, ∑ k, f (thr k) = f (thr i) + f (thr j) + rest := by
  refine ⟨∑ k ∈ (univ.erase i).erase j, f (thr k), ?_⟩
  rw [add_assoc, Finset.add_sum_erase (univ.erase i) (fun k => f (thr k)) (by simp [h.symm]),
    Finset.add_sum_erase univ (fun k => f (thr k)) (mem_univ i)]

end SharedPtr.Lib
