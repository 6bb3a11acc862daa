/-
Linearizability of objects whose operations may end in more than one way, as
a compare-exchange that may fail spuriously does. The meaning is a relation;
histories, their effects and the way a machine is shown linearizable are those
of `SharedPtr.Lib.Linearizable`.
-/
import SharedPtr.Lib.Linearizable

namespace SharedPtr.Lib.Outcome

variable {ι Op Res A σ ℓ : Type*}

/-- What an operation may leave and answer, when run alone. -/
abbrev Spec (A Op Res : Type*) := A → Op → A → Res → Prop

section

variable [DecidableEq ι] (spec : Spec A Op Res)

/-- One event of an atomic object: its value, and what each thread has under way. -/
inductive AtomicStep : A × (ι → Status Op Res) → Event ι Op Res → A × (ι → Status Op Res) → Prop
  | call {a st t} (op : Op) (h : st t = .idle) :
    AtomicStep (a, st) (.call t op) (a, Function.update st t (.called op))
  | effect {a b st t} (op : Op) (res : Res) (h : st t = .called op) (hspec : spec a op b res) :
    AtomicStep (a, st) (.effect t op res) (b, Function.update st t (.done res))
  | ret {a st t} (res : Res) (h : st t = .done res) :
    AtomicStep (a, st) (.ret t res) (a, Function.update st t .idle)

/-- A history of an atomic object. -/
inductive Path : A × (ι → Status Op Res) → List (Event ι Op Res) → A × (ι → Status Op Res) → Prop
  | nil {x} : Path x [] x
  | cons {x y z e es} (h : AtomicStep spec x e y) (hs : Path y es z) : Path x (e :: es) z

end

section

variable [DecidableEq ι] {spec : Spec A Op Res} {step : σ → ℓ → Option σ}
  {observe : σ → ℓ → Option (Event ι Op Res)}

/-- What a step shows, the atomic object can do, and they are related again. -/
def Matched (spec : Spec A Op Res) (R : σ → A × (ι → Status Op Res) → Prop) (s' : σ)
    (x : A × (ι → Status Op Res)) : Option (Event ι Op Res) → Prop
  | none => R s' x
  | some e => ∃ x', AtomicStep spec x e x' ∧ R s' x'

/-- **A machine whose steps are matched by the atomic object is linearizable.** -/
theorem linearizable {R : σ → A × (ι → Status Op Res) → Prop}
    (hstep : ∀ s x l s', R s x → step s l = some s' → Matched spec R s' x (observe s l))
    {s s' : σ} {ls : List ℓ} {x : A × (ι → Status Op Res)} (h : run step s ls = some s') (hR : R s x) :
    ∃ x', Path spec x (trace step observe s ls) x' ∧ R s' x' := by
  induction ls generalizing s x with
  | nil =>
    cases h
    exact ⟨x, .nil, hR⟩
  | cons l ls ih =>
    obtain ⟨s₁, h₁, h₂⟩ := run_cons.mp h
    have hmatch := hstep s x l s₁ hR h₁
    simp only [trace, h₁, Option.map_some, Option.getD_some]
    cases hobs : observe s l with
    | none =>
      rw [hobs] at hmatch
      exact ih h₂ hmatch
    | some e =>
      rw [hobs] at hmatch
      obtain ⟨x₁, hx, hR₁⟩ := hmatch
      obtain ⟨x', hpath, hR'⟩ := ih h₂ hR₁
      exact ⟨x', .cons hx hpath, hR'⟩

end

end SharedPtr.Lib.Outcome
