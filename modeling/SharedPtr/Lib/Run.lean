/-
Runs of a labelled machine given by a partial step function: a label that is
not enabled has no next state. A run is a list of labels; what one step
keeps, a run keeps (`run_invariant`), also when only the steps that meet a
condition keep it (`run_invariant_along`); and a machine whose steps another
one matches, with the same output, has its runs matched (`run_simulated`).
-/
import Mathlib.Data.List.Basic
import Mathlib.Tactic.Common

namespace SharedPtr.Lib

variable {σ ℓ : Type*} (step : σ → ℓ → Option σ)

/-- The state a run of labels ends in, when every label is enabled in its turn. -/
def run : σ → List ℓ → Option σ
  | s, [] => some s
  | s, l :: ls => (step s l).bind fun s' => run s' ls

/-- Every step of the run meets `C`, in the state before it. -/
def Along (C : σ → ℓ → Prop) : σ → List ℓ → Prop
  | _, [] => True
  | s, l :: ls => C s l ∧ ∀ s', step s l = some s' → Along C s' ls

/-- `u` is one of the states the run goes through, its two ends included. -/
def Visits (s : σ) (ls : List ℓ) (u : σ) : Prop :=
  ∃ pre post, ls = pre ++ post ∧ run step s pre = some u

variable {step}

@[simp] theorem run_nil (s : σ) : run step s [] = some s := rfl

theorem run_cons {s l ls} {s'' : σ} :
    run step s (l :: ls) = some s'' ↔ ∃ s', step s l = some s' ∧ run step s' ls = some s'' := by
  simp [run, Option.bind_eq_some_iff]

theorem run_append {s ls₁ ls₂} {s'' : σ} :
    run step s (ls₁ ++ ls₂) = some s'' ↔ ∃ s', run step s ls₁ = some s' ∧ run step s' ls₂ = some s'' := by
  induction ls₁ generalizing s with
  | nil => simp
  | cons l ls₁ ih =>
    simp only [List.cons_append, run_cons, ih]
    constructor
    · rintro ⟨s₁, h₁, s₂, h₂, h₃⟩; exact ⟨s₂, ⟨s₁, h₁, h₂⟩, h₃⟩
    · rintro ⟨s₂, ⟨s₁, h₁, h₂⟩, h₃⟩; exact ⟨s₁, h₁, s₂, h₂, h₃⟩

theorem run_snoc {s ls l} {s'' : σ} :
    run step s (ls ++ [l]) = some s'' ↔ ∃ s', run step s ls = some s' ∧ step s' l = some s'' := by
  rw [run_append]
  constructor
  · rintro ⟨s', h, hl⟩
    obtain ⟨_, hl, he⟩ := run_cons.mp hl
    cases he
    exact ⟨s', h, hl⟩
  · rintro ⟨s', h, hl⟩
    exact ⟨s', h, run_cons.mpr ⟨s'', hl, rfl⟩⟩

/-- What every step keeps, every run keeps. -/
theorem run_invariant {I : σ → Prop} (hstep : ∀ s l s', I s → step s l = some s' → I s')
    {s ls s'} (h : run step s ls = some s') (hs : I s) : I s' := by
  induction ls generalizing s with
  | nil => cases h; exact hs
  | cons l ls ih =>
    obtain ⟨s₁, h₁, h₂⟩ := run_cons.mp h
    exact ih h₂ (hstep _ _ _ hs h₁)

/-- What every step that meets `C` keeps, every run of such steps keeps. -/
theorem run_invariant_along {I : σ → Prop} {C : σ → ℓ → Prop}
    (hstep : ∀ s l s', I s → C s l → step s l = some s' → I s')
    {s ls s'} (h : run step s ls = some s') (hc : Along step C s ls) (hs : I s) : I s' := by
  induction ls generalizing s with
  | nil => cases h; exact hs
  | cons l ls ih =>
    obtain ⟨s₁, h₁, h₂⟩ := run_cons.mp h
    exact ih h₂ (hc.2 s₁ h₁) (hstep _ _ _ hs hc.1 h₁)

theorem Along.append {C : σ → ℓ → Prop} {s ls₁ ls₂ s'} (h : Along step C s (ls₁ ++ ls₂))
    (hr : run step s ls₁ = some s') : Along step C s ls₁ ∧ Along step C s' ls₂ := by
  induction ls₁ generalizing s with
  | nil => cases hr; exact ⟨trivial, h⟩
  | cons l ls₁ ih =>
    obtain ⟨s₁, h₁, h₂⟩ := run_cons.mp hr
    have hrest := ih (h.2 s₁ h₁) h₂
    refine ⟨⟨h.1, fun s₂ h₃ => ?_⟩, hrest.2⟩
    rw [h₁] at h₃
    cases h₃
    exact hrest.1

theorem along_iff {C : σ → ℓ → Prop} {s ls} :
    Along step C s ls ↔ ∀ pre l post u, ls = pre ++ l :: post → run step s pre = some u → C u l := by
  induction ls generalizing s with
  | nil => simp [Along]
  | cons l ls ih =>
    constructor
    · rintro ⟨hl, hrest⟩ pre m post u hls hpre
      cases pre with
      | nil =>
        simp only [List.nil_append, List.cons.injEq] at hls
        cases hpre
        exact hls.1 ▸ hl
      | cons l' pre =>
        simp only [List.cons_append, List.cons.injEq] at hls
        obtain ⟨rfl, hls⟩ := hls
        obtain ⟨s₁, hs, hpre⟩ := run_cons.mp hpre
        exact ih.mp (hrest s₁ hs) pre m post u hls hpre
    · intro h
      refine ⟨h [] l ls s rfl rfl, fun s₁ hs => ih.mpr ?_⟩
      intro pre m post u hls hpre
      exact h (l :: pre) m post u (by simp [hls]) (run_cons.mpr ⟨s₁, hs, hpre⟩)

/-- Whether all steps meet `C` can be checked where `C` can. -/
instance decidableAlong {C : σ → ℓ → Prop} [∀ s l, Decidable (C s l)] :
    ∀ s ls, Decidable (Along step C s ls)
  | _, [] => isTrue trivial
  | s, l :: ls =>
    match h : step s l with
    | none => decidable_of_iff (C s l) (by simp [Along, h])
    | some s' =>
      have := decidableAlong (C := C) s' ls
      decidable_of_iff (C s l ∧ Along step C s' ls) (by simp [Along, h])

/-- What holds before every step and at the end holds in every state of the run. -/
theorem forall_visits {P : σ → Prop} {s ls} (h : Along step (fun u _ => P u) s ls)
    (hlast : ∀ s', run step s ls = some s' → P s') : ∀ u, Visits step s ls u → P u := by
  rintro u ⟨pre, post, rfl, hpre⟩
  cases post with
  | nil => exact hlast u (by rwa [List.append_nil])
  | cons l post => exact along_iff.mp h pre l post u rfl hpre

theorem run_getD {s : σ} {ls : List ℓ} (h : (run step s ls).isSome) (d : σ) :
    run step s ls = some ((run step s ls).getD d) := by
  obtain ⟨s', hs⟩ := Option.isSome_iff_exists.mp h
  simp [hs]

theorem Visits.start {s : σ} {ls : List ℓ} : Visits step s ls s := ⟨[], ls, rfl, rfl⟩

theorem Visits.cons {s s' u : σ} {l : ℓ} {ls : List ℓ} (hl : step s l = some s')
    (h : Visits step s' ls u) : Visits step s (l :: ls) u := by
  obtain ⟨pre, post, rfl, hp⟩ := h
  exact ⟨l :: pre, post, rfl, run_cons.mpr ⟨s', hl, hp⟩⟩

/-! ## What a run puts out -/

section

variable {τ ℓ' ε : Type*}

/-- What the steps of a run put out, in their order. -/
def outputs (step : σ → ℓ → Option σ) (out : σ → ℓ → List ε) : σ → List ℓ → List ε
  | _, [] => []
  | s, l :: ls => out s l ++ (step s l).elim [] fun s' => outputs step out s' ls

theorem outputs_cons {out : σ → ℓ → List ε} {s s' : σ} {l : ℓ} (h : step s l = some s') (ls : List ℓ) :
    outputs step out s (l :: ls) = out s l ++ outputs step out s' ls := by
  rw [outputs, h, Option.elim]

theorem outputs_append {out : σ → ℓ → List ε} {s s' : σ} {ls₁ : List ℓ} (h : run step s ls₁ = some s')
    (ls₂ : List ℓ) : outputs step out s (ls₁ ++ ls₂) = outputs step out s ls₁ ++ outputs step out s' ls₂ := by
  induction ls₁ generalizing s with
  | nil => cases h; rfl
  | cons l ls₁ ih =>
    obtain ⟨s₁, h₁, h₂⟩ := run_cons.mp h
    rw [List.cons_append, outputs_cons h₁, outputs_cons h₁, ih h₂, List.append_assoc]

/-- A machine whose steps are matched by runs of another one, with the labels
`labels`, that put out the same: so are its runs. -/
theorem run_simulated {step' : τ → ℓ' → Option τ} {R : σ → τ → Prop} {labels : σ → ℓ → List ℓ'}
    {out : σ → ℓ → List ε} {out' : τ → ℓ' → List ε}
    (hstep : ∀ s u l s', R s u → step s l = some s' →
      ∃ u', run step' u (labels s l) = some u' ∧ outputs step' out' u (labels s l) = out s l ∧ R s' u')
    {s : σ} {u : τ} {ls : List ℓ} {s' : σ} (h : run step s ls = some s') (hR : R s u) :
    ∃ u', run step' u (outputs step labels s ls) = some u' ∧
      outputs step' out' u (outputs step labels s ls) = outputs step out s ls ∧ R s' u' := by
  induction ls generalizing s u with
  | nil => cases h; exact ⟨u, rfl, rfl, hR⟩
  | cons l ls ih =>
    obtain ⟨s₁, h₁, h₂⟩ := run_cons.mp h
    obtain ⟨u₁, hu₁, ho₁, hR₁⟩ := hstep s u l s₁ hR h₁
    obtain ⟨u', hu', ho', hR'⟩ := ih h₂ hR₁
    rw [outputs_cons h₁, outputs_cons h₁]
    exact ⟨u', run_append.mpr ⟨u₁, hu₁, hu'⟩, by rw [outputs_append hu₁, ho₁, ho'], hR'⟩

/-- The same, without outputs, where the steps that meet `C` are matched and all steps of the run are such. -/
theorem run_simulated_along {step' : τ → ℓ' → Option τ} {R : σ → τ → Prop} {labels : σ → ℓ → List ℓ'}
    {C : σ → ℓ → Prop}
    (hstep : ∀ s u l s', R s u → C s l → step s l = some s' → ∃ u', run step' u (labels s l) = some u' ∧ R s' u')
    {s : σ} {u : τ} {ls : List ℓ} {s' : σ} (h : run step s ls = some s') (hc : Along step C s ls) (hR : R s u) :
    ∃ u', run step' u (outputs step labels s ls) = some u' ∧ R s' u' := by
  induction ls generalizing s u with
  | nil => cases h; exact ⟨u, rfl, hR⟩
  | cons l ls ih =>
    obtain ⟨s₁, h₁, h₂⟩ := run_cons.mp h
    obtain ⟨u₁, hu₁, hR₁⟩ := hstep s u l s₁ hR hc.1 h₁
    obtain ⟨u', hu', hR'⟩ := ih h₂ (hc.2 s₁ h₁) hR₁
    rw [outputs_cons h₁]
    exact ⟨u', run_append.mpr ⟨u₁, hu₁, hu'⟩, hR'⟩

/-- What every step keeps of the state and of what was put out so far. -/
theorem run_invariant_outputs {out : σ → ℓ → List ε} {I : List ε → σ → Prop}
    (hstep : ∀ es s l s', I es s → step s l = some s' → I (es ++ out s l) s')
    {s : σ} {ls : List ℓ} {s' : σ} (h : run step s ls = some s') {es : List ε} (hs : I es s) :
    I (es ++ outputs step out s ls) s' := by
  induction ls generalizing s es with
  | nil =>
    cases h
    rwa [outputs, List.append_nil]
  | cons l ls ih =>
    obtain ⟨s₁, h₁, h₂⟩ := run_cons.mp h
    rw [outputs_cons h₁, ← List.append_assoc]
    exact ih h₂ (hstep es s l s₁ hs h₁)

theorem mem_outputs {out : σ → ℓ → List ε} {s : σ} {ls : List ℓ} {e : ε} (h : e ∈ outputs step out s ls) :
    ∃ u, ∃ l ∈ ls, e ∈ out u l := by
  induction ls generalizing s with
  | nil => cases h
  | cons l ls ih =>
    rcases List.mem_append.mp h with h | h
    · exact ⟨s, l, List.mem_cons_self .., h⟩
    · cases hs : step s l with
      | none => simp [hs] at h
      | some s' =>
        rw [hs] at h
        obtain ⟨u, l', hl', he⟩ := ih h
        exact ⟨u, l', List.mem_cons_of_mem _ hl', he⟩

end

end SharedPtr.Lib
