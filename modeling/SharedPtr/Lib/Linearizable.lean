/-
Linearizability by marked instants. An object has a sequential meaning (`Spec`):
what an operation does to the value and what it answers. A history lists
calls, answers and, between the two, the instant at which the operation takes
effect. `Path` accepts the histories in which each thread alternates call,
effect and answer, the effects follow the sequential meaning one after the
other, and each answer is the one of its effect: the order of the effects is
then a linearization. A machine is shown linearizable by a relation to the
accepting states that each of its steps keeps (`linearizable`).
-/
import SharedPtr.Lib.Run
import Mathlib.Logic.Function.Basic

namespace SharedPtr.Lib

variable {ι Op Res A σ ℓ : Type*}

/-- What an operation does to the value, and its answer, when run alone. -/
abbrev Spec (A Op Res : Type*) := A → Op → A × Res

inductive Event (ι Op Res : Type*)
  | call (t : ι) (op : Op)
  /-- The instant at which the operation takes effect. -/
  | effect (t : ι) (op : Op) (res : Res)
  | ret (t : ι) (res : Res)

/-- What a thread has under way. -/
inductive Status (Op Res : Type*)
  | idle
  | called (op : Op)
  | done (res : Res)

section

variable [DecidableEq ι] (spec : Spec A Op Res)

/-- One event of an atomic object: its value, and what each thread has under way. -/
inductive AtomicStep : A × (ι → Status Op Res) → Event ι Op Res → A × (ι → Status Op Res) → Prop
  | call {a st t} (op : Op) (h : st t = .idle) :
    AtomicStep (a, st) (.call t op) (a, Function.update st t (.called op))
  | effect {a st t} (op : Op) (h : st t = .called op) :
    AtomicStep (a, st) (.effect t op (spec a op).2) ((spec a op).1, Function.update st t (.done (spec a op).2))
  | ret {a st t} (res : Res) (h : st t = .done res) :
    AtomicStep (a, st) (.ret t res) (a, Function.update st t .idle)

/-- A history of an atomic object. -/
inductive Path : A × (ι → Status Op Res) → List (Event ι Op Res) → A × (ι → Status Op Res) → Prop
  | nil {x} : Path x [] x
  | cons {x y z e es} (h : AtomicStep spec x e y) (hs : Path y es z) : Path x (e :: es) z

/-- Operations run one after the other, with their answers. -/
inductive Sequential : A → List (ι × Op × Res) → A → Prop
  | nil {a} : Sequential a [] a
  | cons {a b t} (op : Op) {rest} (h : Sequential (spec a op).1 rest b) :
    Sequential a ((t, op, (spec a op).2) :: rest) b

end

/-- The effects of a history, in their order. -/
def effects (es : List (Event ι Op Res)) : List (ι × Op × Res) :=
  es.filterMap fun
    | .effect t op res => some (t, op, res)
    | _ => none

/-- What a run of the machine shows. -/
def trace (step : σ → ℓ → Option σ) (observe : σ → ℓ → Option (Event ι Op Res)) :
    σ → List ℓ → List (Event ι Op Res)
  | _, [] => []
  | s, l :: ls => (observe s l).toList ++ ((step s l).map fun s' => trace step observe s' ls).getD []

section

variable [DecidableEq ι] {spec : Spec A Op Res} {step : σ → ℓ → Option σ}
  {observe : σ → ℓ → Option (Event ι Op Res)}

theorem Path.sequential {x y : A × (ι → Status Op Res)} {es : List (Event ι Op Res)} (h : Path spec x es y) :
    Sequential spec x.1 (effects es) y.1 := by
  induction h with
  | nil => exact .nil
  | cons h hs ih =>
    cases h with
    | call | ret => exact ih
    | effect op => exact .cons op ih

/-- What a step shows, the atomic object can do, and they are related again. -/
def Matched (spec : Spec A Op Res) (R : σ → A × (ι → Status Op Res) → Prop) (s' : σ)
    (x : A × (ι → Status Op Res)) : Option (Event ι Op Res) → Prop
  | none => R s' x
  | some e => ∃ x', AtomicStep spec x e x' ∧ R s' x'

/-- **A machine whose steps are matched by the atomic object is linearizable.** -/
theorem linearizable {R : σ → A × (ι → Status Op Res) → Prop}
    (hstep : ∀ s x l s', R s x → step s l = some s' → Matched spec R s' x (observe s l))
    {s s' : σ} {ls : List ℓ} {x : A × (ι → Status Op Res)} (h : run step s ls = some s') (hR : R s x) :
    ∃ x', Path spec x (trace step observe s ls) x' ∧ R s' x' := by
  induction ls generalizing s x with
  | nil =>
    cases h
    exact ⟨x, .nil, hR⟩
  | cons l ls ih =>
    obtain ⟨s₁, h₁, h₂⟩ := run_cons.mp h
    have hmatch := hstep s x l s₁ hR h₁
    simp only [trace, h₁, Option.map_some, Option.getD_some]
    cases hobs : observe s l with
    | none =>
      rw [hobs] at hmatch
      exact ih h₂ hmatch
    | some e =>
      rw [hobs] at hmatch
      obtain ⟨x₁, hx, hR₁⟩ := hmatch
      obtain ⟨x', hpath, hR'⟩ := ih h₂ hR₁
      exact ⟨x', .cons hx hpath, hR'⟩

end

/-- What an operation reads off the value is the first value, or was written
whole by one operation before it. `reads` and `writes` say what an operation
with that answer reads and leaves behind. -/
theorem Sequential.provenance {spec : Spec A Op Res} {reads writes : Op → Res → Option A}
    (hreads : ∀ a op v, reads op (spec a op).2 = some v → v = a)
    (hwrites : ∀ a op, (spec a op).1 = a ∨ writes op (spec a op).2 = some (spec a op).1)
    {a b : A} {ops : List (ι × Op × Res)} (h : Sequential spec a ops b)
    {pre post : List (ι × Op × Res)} {t : ι} {op : Op} {res : Res} (hops : ops = pre ++ (t, op, res) :: post)
    {v : A} (hv : reads op res = some v) :
    v = a ∨ ∃ w ∈ pre, writes w.2.1 w.2.2 = some v := by
  induction h generalizing pre with
  | nil => simp at hops
  | @cons a b t' op' rest h ih =>
    cases pre with
    | nil =>
      simp only [List.nil_append, List.cons.injEq, Prod.mk.injEq] at hops
      obtain ⟨⟨-, rfl, rfl⟩, -⟩ := hops
      exact .inl (hreads _ _ _ hv)
    | cons w pre =>
      simp only [List.cons_append, List.cons.injEq] at hops
      obtain ⟨rfl, hrest⟩ := hops
      rcases ih hrest with rfl | ⟨w, hw, hwv⟩
      · rcases hwrites a op' with hsame | hwrite
        · exact .inl hsame
        · exact .inr ⟨_, List.mem_cons_self, hwrite⟩
      · exact .inr ⟨w, List.mem_cons_of_mem _ hw, hwv⟩

end SharedPtr.Lib
