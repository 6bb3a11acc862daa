/-
Amortized bounds for runs: what the steps cost, added up, against what they
bring in, by a potential of the state (`total_le`).
-/
import SharedPtr.Lib.Run

namespace SharedPtr.Lib

variable {σ ℓ : Type*}

/-- The sum of `c` over the steps of a run, each in the state before it. -/
def total (step : σ → ℓ → Option σ) (c : σ → ℓ → Nat) : σ → List ℓ → Nat
  | _, [] => 0
  | s, l :: ls => c s l + (step s l).elim 0 fun s' => total step c s' ls

variable {step : σ → ℓ → Option σ} {c gain : σ → ℓ → Nat}

theorem total_cons {s s' : σ} {l : ℓ} (h : step s l = some s') (ls : List ℓ) :
    total step c s (l :: ls) = c s l + total step c s' ls := by
  rw [total, h, Option.elim]

/-- Where each step's cost is paid from its gain and the potential, so is a run's. -/
theorem total_le {I : σ → Prop} {φ : σ → Nat} (hinv : ∀ s l s', I s → step s l = some s' → I s')
    (hstep : ∀ s l s', I s → step s l = some s' → c s l + φ s' ≤ gain s l + φ s)
    {s s' : σ} {ls : List ℓ} (h : run step s ls = some s') (hs : I s) :
    total step c s ls + φ s' ≤ total step gain s ls + φ s := by
  induction ls generalizing s with
  | nil =>
    cases h
    exact Nat.le_refl _
  | cons l ls ih =>
    obtain ⟨s₁, h₁, h₂⟩ := run_cons.mp h
    rw [total_cons h₁, total_cons h₁]
    have hfirst := hstep s l s₁ hs h₁
    have hrest := ih h₂ (hinv s l s₁ hs h₁)
    omega

end SharedPtr.Lib
