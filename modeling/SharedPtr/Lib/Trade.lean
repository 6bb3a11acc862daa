/-
Logs in which resources are acquired and returned. A log is safe when at no
moment more of a resource was returned than acquired before it, and settled
when at the end nothing acquired is outstanding.
-/
import Mathlib.Data.List.Count
import Mathlib.Tactic.Common

namespace SharedPtr.Lib

/-- What an event acquires and what it returns, if anything. -/
structure Trade (ω ρ : Type*) where
  acquires : ω → Option ρ
  returns : ω → Option ρ

namespace Trade

variable {ω ρ : Type*} [DecidableEq ρ] (T : Trade ω ρ)

/-- How often `r` was acquired. -/
def acquired (log : List ω) (r : ρ) : Nat := log.countP fun e => T.acquires e = some r

/-- How often `r` was returned. -/
def returned (log : List ω) (r : ρ) : Nat := log.countP fun e => T.returns e = some r

/-- Nothing is returned that is not outstanding. -/
def Safe (log : List ω) : Prop := ∀ pre, pre <+: log → ∀ r, T.returned pre r ≤ T.acquired pre r

/-- Safe, and all that was acquired was returned. -/
def Settled (log : List ω) : Prop := T.Safe log ∧ ∀ r, T.acquired log r = T.returned log r

variable {T}

@[simp] theorem acquired_nil (r : ρ) : T.acquired [] r = 0 := rfl

@[simp] theorem returned_nil (r : ρ) : T.returned [] r = 0 := rfl

@[simp] theorem acquired_append (l₁ l₂ : List ω) (r : ρ) :
    T.acquired (l₁ ++ l₂) r = T.acquired l₁ r + T.acquired l₂ r := List.countP_append

@[simp] theorem returned_append (l₁ l₂ : List ω) (r : ρ) :
    T.returned (l₁ ++ l₂) r = T.returned l₁ r + T.returned l₂ r := List.countP_append

theorem acquired_cons (e : ω) (l : List ω) (r : ρ) :
    T.acquired (e :: l) r = (if T.acquires e = some r then 1 else 0) + T.acquired l r := by
  simp [acquired, List.countP_cons, Nat.add_comm]

theorem returned_cons (e : ω) (l : List ω) (r : ρ) :
    T.returned (e :: l) r = (if T.returns e = some r then 1 else 0) + T.returned l r := by
  simp [returned, List.countP_cons, Nat.add_comm]

theorem acquired_eq_zero {l : List ω} (h : ∀ e ∈ l, T.acquires e = none) (r : ρ) : T.acquired l r = 0 := by
  simp only [acquired, List.countP_eq_zero, decide_eq_true_eq]
  intro e he hr
  rw [h e he] at hr
  cases hr

theorem returned_eq_zero {l : List ω} (h : ∀ e ∈ l, T.returns e = none) (r : ρ) : T.returned l r = 0 := by
  simp only [returned, List.countP_eq_zero, decide_eq_true_eq]
  intro e he hr
  rw [h e he] at hr
  cases hr

theorem Safe.nil : T.Safe [] := by
  intro pre hpre r
  simp [List.prefix_nil.mp hpre]

theorem Safe.le {log : List ω} (h : T.Safe log) (r : ρ) : T.returned log r ≤ T.acquired log r :=
  h log (List.prefix_refl log) r

theorem returned_le_of_prefix {pre log : List ω} (h : pre <+: log) (r : ρ) :
    T.returned pre r ≤ T.returned log r := h.sublist.countP_le

/-- What is outstanding covers all that the new events return. -/
theorem Safe.append {log new : List ω} (h : T.Safe log)
    (hnew : ∀ r, T.returned log r + T.returned new r ≤ T.acquired log r) : T.Safe (log ++ new) := by
  intro pre hpre r
  obtain ⟨rest, hrest⟩ := hpre
  rcases List.append_eq_append_iff.mp hrest with ⟨mid, rfl, -⟩ | ⟨mid, rfl, hmid⟩
  · exact h pre ⟨mid, rfl⟩ r
  · have h₁ := returned_le_of_prefix (T := T) ⟨rest, hmid.symm⟩ r
    have h₂ := hnew r
    rw [returned_append, acquired_append]
    omega

/-- New events that return nothing. -/
theorem Safe.append_of_returns {log new : List ω} (h : T.Safe log) (hnew : ∀ e ∈ new, T.returns e = none) :
    T.Safe (log ++ new) :=
  h.append fun r => by simpa [returned_eq_zero hnew] using h.le r

end Trade

end SharedPtr.Lib
