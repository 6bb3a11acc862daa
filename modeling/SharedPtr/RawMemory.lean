/-
The algorithms of `bits/stl_uninitialized.h`, on storage whose cells are raw
or hold an object. Constructors may throw; which call does, and what a move
leaves behind, is up to the element type. To construct over an object, to read
or to destroy one that is not there, has no meaning: the program stops.

What the calls of constructors for a list of arguments come to is `Constructs`;
that a program makes such a list or nothing is `Builds`, which holds of a loop
with its guard (`uninit_builds`).
-/
import SharedPtr.Lib.Prog
import Mathlib.Data.List.Range

namespace SharedPtr.Raw

open Lib (Prog Result)

structure Memory (α : Type) where
  cell : Nat → Option α
  /-- How many constructors were called. -/
  calls : Nat

/-- What an element is constructed from. -/
inductive Arg (α : Type)
  /-- `_Construct(p)`: value-initialized. -/
  | value
  /-- `_Construct_novalue(p)`: default-initialized. -/
  | novalue
  /-- A copy of `x`, which is no object of these ranges. -/
  | copyOf (x : α)
  | copyFrom (q : Nat)
  | moveFrom (q : Nat)
  deriving DecidableEq

/-- The element type's constructors: what the call `k` answers, and what a move makes of its source. -/
structure Ctors (α ε : Type) where
  value : Nat → Except ε α
  novalue : Nat → Except ε α
  copy : Nat → α → Except ε α
  move : Nat → α → Except ε α
  moved : Nat → α → α

variable {α ε : Type}

def Arg.source : Arg α → Option Nat
  | .copyFrom q | .moveFrom q => some q
  | _ => none

namespace Ctors

variable (C : Ctors α ε)

/-- The answer of the call `k`, unless it is given an object that is not there. -/
def answer (cell : Nat → Option α) (k : Nat) : Arg α → Option (Except ε α)
  | .value => some (C.value k)
  | .novalue => some (C.novalue k)
  | .copyOf x => some (C.copy k x)
  | .copyFrom q => (cell q).map (C.copy k)
  | .moveFrom q => (cell q).map (C.move k)

/-- The cells after it, its own apart. -/
def left (cell : Nat → Option α) (k : Nat) : Arg α → Nat → Option α
  | .moveFrom q => Function.update cell q ((cell q).map (C.moved k))
  | _ => cell

/-- `construct(p, arg)`. -/
def construct (p : Nat) (arg : Arg α) : Prog (Memory α) ε Unit := fun s =>
  match s.cell p, C.answer s.cell s.calls arg with
  | none, some (.ok v) => (.ok (), ⟨Function.update (C.left s.cell s.calls arg) p (some v), s.calls + 1⟩)
  | none, some (.error e) => (.throw e, ⟨C.left s.cell s.calls arg, s.calls + 1⟩)
  | _, _ => (.stop, s)

end Ctors

/-- `_Destroy(p)`. -/
def destroyAt (p : Nat) : Prog (Memory α) ε Unit := fun s =>
  match s.cell p with
  | some _ => (.ok (), { s with cell := Function.update s.cell p none })
  | none => (.stop, s)

/-- `_Destroy(first, first + n)`. -/
def destroyN (first : Nat) : Nat → Prog (Memory α) ε Unit
  | 0 => pure ()
  | n + 1 => do
    destroyAt first
    destroyN (first + 1) n

/-- The scope of an `_UninitDestroyGuard` on the iterator `it`, which the body
has as its local variable: an exception that leaves it has the objects
destroyed from where the iterator was at first to where it is. A body that
returns has released the guard. -/
def guarded {β : Type} (it : Nat) (body : Prog (Memory α × Nat) ε β) : Prog (Memory α) ε β := fun s =>
  match body (s, it) with
  | (.throw e, (s', cur)) => (do destroyN it (cur - it); Prog.throw e) s'
  | (r, (s', _)) => (r, s')

namespace Ctors

variable (C : Ctors α ε)

/-- The loops: `for (; ...; ++cur) construct(cur, arg)`. -/
def loop : List (Arg α) → Prog (Memory α × Nat) ε Unit
  | [] => pure ()
  | arg :: args => do
    let cur ← Prog.read (·.2)
    Prog.outer (C.construct cur arg)
    Prog.modify fun s => (s.1, s.2 + 1)
    loop args

/-- A loop with its guard; the answer is where the iterator is. -/
def uninit (first : Nat) (args : List (Arg α)) : Prog (Memory α) ε Nat :=
  guarded first do
    C.loop args
    Prog.read (·.2)

end Ctors

/-- `[first, last)`. -/
def range (first last : Nat) : List Nat := List.range' first (last - first)

namespace Ctors

variable (C : Ctors α ε)

/-! ## The loops of the header -/

/-- `__do_uninit_copy`, `__uninitialized_copy_a`. -/
def doUninitCopy (first last result : Nat) : Prog (Memory α) ε Nat := C.uninit result ((range first last).map .copyFrom)

/-- `__uninitialized_move_a`, `uninitialized_move`: through move iterators. -/
def uninitializedMoveA (first last result : Nat) : Prog (Memory α) ε Nat :=
  C.uninit result ((range first last).map .moveFrom)

/-- `__uninitialized_move_if_noexcept_a`. -/
def uninitializedMoveIfNoexceptA (moves : Bool) (first last result : Nat) : Prog (Memory α) ε Nat :=
  if moves then C.uninitializedMoveA first last result else C.doUninitCopy first last result

/-- `__do_uninit_fill`, `__uninitialized_fill_a`. -/
def doUninitFill (first last : Nat) (x : α) : Prog (Memory α) ε Unit := do
  let _ ← C.uninit first (List.replicate (last - first) (.copyOf x))
  pure ()

/-- `__do_uninit_fill_n`, which asserts that `n` is not below 0. -/
def doUninitFillN (first : Nat) (n : Int) (x : α) : Prog (Memory α) ε Nat :=
  if n < 0 then Prog.stop else C.uninit first (List.replicate n.toNat (.copyOf x))

/-- `__uninitialized_fill_n_a`. -/
def uninitializedFillNA (first : Nat) (n : Int) (x : α) : Prog (Memory α) ε Nat :=
  C.uninit first (List.replicate n.toNat (.copyOf x))

/-- `__uninitialized_default_n_1<false>`, `__uninitialized_default_n_a`. -/
def uninitDefaultN (first : Nat) (n : Int) : Prog (Memory α) ε Nat := C.uninit first (List.replicate n.toNat .value)

/-- `__uninitialized_default_1<false>`, `__uninitialized_default_a`. -/
def uninitDefault (first last : Nat) : Prog (Memory α) ε Unit := do
  let _ ← C.uninit first (List.replicate (last - first) .value)
  pure ()

/-- `__uninitialized_default_novalue_n_1<false>`. -/
def uninitDefaultNovalueN (first : Nat) (n : Int) : Prog (Memory α) ε Nat :=
  C.uninit first (List.replicate n.toNat .novalue)

/-- `__uninitialized_default_novalue_1<false>`. -/
def uninitDefaultNovalue (first last : Nat) : Prog (Memory α) ε Unit := do
  let _ ← C.uninit first (List.replicate (last - first) .novalue)
  pure ()

/-- `__uninitialized_copy_n`. -/
def uninitializedCopyN (first : Nat) (n : Int) (result : Nat) : Prog (Memory α) ε Nat :=
  C.uninit result ((List.range' first n.toNat).map .copyFrom)

/-- `__uninitialized_copy_n_pair` through a move iterator: `uninitialized_move_n`. -/
def uninitializedMoveN (first : Nat) (n : Int) (result : Nat) : Prog (Memory α) ε (Nat × Nat) := do
  let result ← C.uninit result ((List.range' first n.toNat).map .moveFrom)
  pure (first + n.toNat, result)

/-! ## Two ranges -/

/-- `__uninitialized_copy_move`. -/
def uninitializedCopyMove (first₁ last₁ first₂ last₂ result : Nat) : Prog (Memory α) ε Nat := do
  let mid ← C.doUninitCopy first₁ last₁ result
  guarded result do
    Prog.modify fun s => (s.1, mid)
    Prog.outer (C.uninitializedMoveA first₂ last₂ mid)

/-- `__uninitialized_move_copy`. -/
def uninitializedMoveCopy (first₁ last₁ first₂ last₂ result : Nat) : Prog (Memory α) ε Nat := do
  let mid ← C.uninitializedMoveA first₁ last₁ result
  guarded result do
    Prog.modify fun s => (s.1, mid)
    Prog.outer (C.doUninitCopy first₂ last₂ mid)

/-- `__uninitialized_fill_move`. -/
def uninitializedFillMove (result mid : Nat) (x : α) (first last : Nat) : Prog (Memory α) ε Nat := do
  C.doUninitFill result mid x
  guarded result do
    Prog.modify fun s => (s.1, mid)
    Prog.outer (C.uninitializedMoveA first last mid)

/-- `__uninitialized_move_fill`. -/
def uninitializedMoveFill (first₁ last₁ first₂ last₂ : Nat) (x : α) : Prog (Memory α) ε Unit := do
  let mid₂ ← C.uninitializedMoveA first₁ last₁ first₂
  guarded first₂ do
    Prog.modify fun s => (s.1, mid₂)
    Prog.outer (C.doUninitFill mid₂ last₂ x)

end Ctors

/-! ## What constructors come to -/

/-- Constructors called for `args`, from the call `k` on, have made `vs`, or one of them has failed; they leave
the sources in `cell'`. -/
inductive Constructs (C : Ctors α ε) :
    (Nat → Option α) → Nat → List (Arg α) → List α → Option ε → (Nat → Option α) → Prop
  | nil (cell : Nat → Option α) (k : Nat) : Constructs C cell k [] [] none cell
  | ok {cell cell' : Nat → Option α} {k : Nat} {arg : Arg α} {args : List (Arg α)} {v : α} {vs : List α}
    {failure : Option ε} (ha : C.answer cell k arg = some (.ok v))
    (h : Constructs C (C.left cell k arg) (k + 1) args vs failure cell') :
    Constructs C cell k (arg :: args) (v :: vs) failure cell'
  | error {cell : Nat → Option α} {k : Nat} {arg : Arg α} {args : List (Arg α)} {e : ε}
    (ha : C.answer cell k arg = some (.error e)) : Constructs C cell k (arg :: args) [] (some e) (C.left cell k arg)

variable {C : Ctors α ε} {cell cell' : Nat → Option α} {k : Nat} {arg : Arg α} {args : List (Arg α)} {vs : List α}
  {failure : Option ε} {p : Nat}

/-- The sources are there. -/
def Alive (cell : Nat → Option α) (args : List (Arg α)) : Prop :=
  ∀ arg ∈ args, ∀ q, arg.source = some q → (cell q).isSome

namespace Ctors

theorem answer_of_alive (h : ∀ q, arg.source = some q → (cell q).isSome) : ∃ r, C.answer cell k arg = some r := by
  cases arg with
  | value | novalue | copyOf => exact ⟨_, rfl⟩
  | copyFrom q | moveFrom q =>
    obtain ⟨a, ha⟩ := Option.isSome_iff_exists.mp (h q rfl)
    exact ⟨_, by rw [answer, ha]; rfl⟩

/-- The answer depends on the source alone. -/
theorem answer_update {x : Option α} (h : arg.source ≠ some p) :
    C.answer (Function.update cell p x) k arg = C.answer cell k arg := by
  cases arg with
  | value | novalue | copyOf => rfl
  | copyFrom q | moveFrom q =>
    have hq : q ≠ p := fun hq => h (congrArg some hq)
    simp only [answer, Function.update_of_ne hq]

theorem left_update {x : Option α} (h : arg.source ≠ some p) :
    C.left (Function.update cell p x) k arg = Function.update (C.left cell k arg) p x := by
  cases arg with
  | value | novalue | copyOf | copyFrom => rfl
  | moveFrom q =>
    have hq : q ≠ p := fun hq => h (congrArg some hq)
    simp only [left, Function.update_of_ne hq]
    exact Function.update_comm hq.symm _ _ _

theorem left_of_ne (h : arg ≠ .moveFrom p) : C.left cell k arg p = cell p := by
  cases arg with
  | value | novalue | copyOf | copyFrom => rfl
  | moveFrom q =>
    have hq : p ≠ q := fun hq => h (congrArg _ hq.symm)
    exact Function.update_of_ne hq _ _

theorem isSome_left (p : Nat) : (C.left cell k arg p).isSome = (cell p).isSome := by
  by_cases h : arg = .moveFrom p
  · rw [h, left, Function.update_self, Option.isSome_map]
  · rw [left_of_ne h]

theorem left_eq_none (h : cell p = none) : C.left cell k arg p = none := by
  have : (C.left cell k arg p).isSome = (cell p).isSome := isSome_left p
  rwa [h, Option.isSome_none, Option.isSome_eq_false_iff, Option.isNone_iff_eq_none] at this

theorem alive_left (h : Alive cell (arg :: args)) : Alive (C.left cell k arg) args := fun a ha q hq => by
  rw [isSome_left]
  exact h a (List.mem_cons_of_mem _ ha) q hq

end Ctors

namespace Constructs

theorem exists_of_alive (h : Alive cell args) : ∃ vs failure cell', Constructs C cell k args vs failure cell' := by
  induction args generalizing cell k with
  | nil => exact ⟨_, _, _, .nil _ _⟩
  | cons arg args ih =>
    obtain ⟨r, hr⟩ := Ctors.answer_of_alive (C := C) (k := k) (h arg (by simp))
    cases r with
    | error e => exact ⟨_, _, _, .error hr⟩
    | ok v =>
      obtain ⟨vs, failure, cell', hrest⟩ := ih (k := k + 1) (Ctors.alive_left h)
      exact ⟨_, _, _, .ok hr hrest⟩

/-- A cell that is no source may be anything. -/
theorem update {x : Option α} (h : Constructs C cell k args vs failure cell') (hp : ∀ arg ∈ args, arg.source ≠ some p) :
    Constructs C (Function.update cell p x) k args vs failure (Function.update cell' p x) := by
  induction h with
  | nil => exact .nil _ _
  | ok ha h ih =>
    have harg := hp _ (List.mem_cons_self ..)
    refine .ok ((Ctors.answer_update harg).trans ha) ?_
    rw [Ctors.left_update harg]
    exact ih fun a ha => hp a (List.mem_cons_of_mem _ ha)
  | error ha =>
    have harg := hp _ (List.mem_cons_self ..)
    rw [← Ctors.left_update harg]
    exact .error ((Ctors.answer_update harg).trans ha)

theorem isSome_eq (h : Constructs C cell k args vs failure cell') (p : Nat) : (cell' p).isSome = (cell p).isSome := by
  induction h with
  | nil => rfl
  | ok _ _ ih => rw [ih, Ctors.isSome_left]
  | error => rw [Ctors.isSome_left]

theorem eq_of_not_moved (h : Constructs C cell k args vs failure cell') (hp : .moveFrom p ∉ args) :
    cell' p = cell p := by
  induction h with
  | nil => rfl
  | ok _ _ ih =>
    rw [List.mem_cons, not_or] at hp
    rw [ih hp.2, Ctors.left_of_ne (Ne.symm hp.1)]
  | error =>
    rw [List.mem_cons, not_or] at hp
    exact Ctors.left_of_ne (Ne.symm hp.1)

theorem eq_none (h : Constructs C cell k args vs failure cell') (hp : cell p = none) : cell' p = none := by
  induction h with
  | nil => exact hp
  | ok _ _ ih => exact ih (Ctors.left_eq_none hp)
  | error => exact Ctors.left_eq_none hp

theorem length_eq (h : Constructs C cell k args vs none cell') : vs.length = args.length := by
  generalize hf : (none : Option ε) = failure at h
  induction h with
  | nil => rfl
  | ok _ _ ih => rw [List.length_cons, List.length_cons, ih hf]
  | error => cases hf

theorem length_le (h : Constructs C cell k args vs failure cell') : vs.length ≤ args.length := by
  induction h with
  | nil => exact Nat.le_refl _
  | ok _ _ ih => exact Nat.succ_le_succ ih
  | error => exact Nat.zero_le _

/-- The constructors of two ranges: those of the first, and if none fails those of the second. -/
theorem of_append {as bs : List (Arg α)} {us : List α} (h : Constructs C cell k (as ++ bs) us failure cell') :
    (∃ e, failure = some e ∧ Constructs C cell k as us failure cell') ∨
    ∃ vs ws mid, us = vs ++ ws ∧ Constructs C cell k as vs none mid ∧
      Constructs C mid (k + as.length) bs ws failure cell' := by
  induction as generalizing cell k us with
  | nil => exact .inr ⟨[], us, cell, rfl, .nil _ _, h⟩
  | cons a as ih =>
    cases h with
    | error ha => exact .inl ⟨_, rfl, .error ha⟩
    | ok ha h =>
      obtain ⟨e, he, h⟩ | ⟨vs, ws, mid, hus, h, h'⟩ := ih h
      · exact .inl ⟨e, he, .ok ha h⟩
      · refine .inr ⟨_ :: vs, ws, mid, congrArg (_ :: ·) hus, .ok ha h, ?_⟩
        rwa [List.length_cons, Nat.add_comm as.length, ← Nat.add_assoc]

theorem raw {first n : Nat} (h : Constructs C cell k args vs failure cell') (hraw : ∀ j < n, cell (first + j) = none) :
    ∀ j < n, cell' (first + j) = none := fun j hj => h.eq_none (hraw j hj)

end Constructs

/-! ## All or none -/

/-- The elements `vs`, at `first` and behind it. -/
def overlay (cell : Nat → Option α) : Nat → List α → Nat → Option α
  | _, [] => cell
  | first, v :: vs => Function.update (overlay cell (first + 1) vs) first (some v)

theorem overlay_of_lt {first : Nat} (h : p < first) : overlay cell first vs p = cell p := by
  induction vs generalizing first with
  | nil => rfl
  | cons v vs ih => rw [overlay, Function.update_of_ne (by omega), ih (by omega)]

theorem overlay_of_ge {first : Nat} (h : first + vs.length ≤ p) : overlay cell first vs p = cell p := by
  induction vs generalizing first with
  | nil => rfl
  | cons v vs ih =>
    rw [List.length_cons] at h
    rw [overlay, Function.update_of_ne (by omega), ih (by omega)]

theorem overlay_update {first : Nat} {x : Option α} (h : p < first) :
    overlay (Function.update cell p x) first vs = Function.update (overlay cell first vs) p x := by
  induction vs generalizing first with
  | nil => rfl
  | cons v vs ih => rw [overlay, overlay, ih (by omega), Function.update_comm (by omega)]

theorem overlay_append (first : Nat) (ws : List α) :
    overlay cell first (vs ++ ws) = overlay (overlay cell (first + vs.length) ws) first vs := by
  induction vs generalizing first with
  | nil => rfl
  | cons v vs ih =>
    rw [List.cons_append, overlay, overlay, ih, List.length_cons]
    congr 3
    omega

/-- The target is raw. -/
def RawFrom (cell : Nat → Option α) (first n : Nat) : Prop := ∀ j < n, cell (first + j) = none

theorem Alive.source_ne (ha : Alive cell args) (hp : cell p = none) : ∀ arg ∈ args, arg.source ≠ some p := by
  intro arg harg hs
  have := ha arg harg p hs
  rw [hp] at this
  cases this

/-- What the loop comes to. -/
def Built (first : Nat) (vs : List α) (failure : Option ε) (cell : Nat → Option α) (k : Nat) :
    Result ε Unit × (Memory α × Nat) :=
  match failure with
  | none => (.ok (), (⟨overlay cell first vs, k + vs.length⟩, first + vs.length))
  | some e => (.throw e, (⟨overlay cell first vs, k + vs.length + 1⟩, first + vs.length))

theorem built_cons {first : Nat} {v : α} :
    Built (first + 1) vs failure (Function.update cell first (some v)) (k + 1) =
      Built first (v :: vs) failure cell k := by
  have hlen : k + 1 + vs.length = k + (v :: vs).length ∧ first + 1 + vs.length = first + (v :: vs).length := by
    rw [List.length_cons]
    omega
  cases failure <;> simp only [Built, overlay_update (Nat.lt_succ_self first), hlen, overlay]

theorem construct_ok {first : Nat} {v : α} (hraw : cell first = none) (ha : C.answer cell k arg = some (.ok v)) :
    C.construct first arg ⟨cell, k⟩ = (.ok (), ⟨Function.update (C.left cell k arg) first (some v), k + 1⟩) := by
  simp only [Ctors.construct, hraw, ha]

theorem construct_error {first : Nat} {e : ε} (hraw : cell first = none) (ha : C.answer cell k arg = some (.error e)) :
    C.construct first arg ⟨cell, k⟩ = (.throw e, ⟨C.left cell k arg, k + 1⟩) := by
  simp only [Ctors.construct, hraw, ha]

theorem loop_cons {s : Memory α × Nat} : C.loop (arg :: args) s =
    match C.construct s.2 arg s.1 with
    | (.ok (), s') => C.loop args (s', s.2 + 1)
    | (.throw e, s') => (.throw e, (s', s.2))
    | (.stop, s') => (.stop, (s', s.2)) := by
  simp only [Ctors.loop, Prog.bind_apply, Prog.read_apply, Prog.outer]
  cases hc : C.construct s.2 arg s.1 with
  | mk r s' => cases r <;> rfl

theorem loop_apply {first : Nat} (h : Constructs C cell k args vs failure cell') (hraw : RawFrom cell first args.length)
    (ha : Alive cell args) : C.loop args (⟨cell, k⟩, first) = Built first vs failure cell' k := by
  induction args generalizing cell cell' k vs first with
  | nil =>
    cases h
    rfl
  | cons arg args ih =>
    have hfirst : cell first = none := hraw 0 (by simp)
    rw [loop_cons]
    cases h with
    | error ha' =>
      rw [construct_error hfirst ha']
      rfl
    | ok ha' h =>
      rename_i v vs
      rw [construct_ok hfirst ha']
      have halive := Ctors.alive_left (C := C) (k := k) ha
      have hne : ∀ j < args.length + 1, C.left cell k arg (first + j) = none := fun j hj =>
        Ctors.left_eq_none (hraw j hj)
      have hsource : ∀ a ∈ args, a.source ≠ some first := halive.source_ne (hne 0 (by omega))
      have hraw' : RawFrom (Function.update (C.left cell k arg) first (some v)) (first + 1) args.length := by
        intro j hj
        rw [Function.update_of_ne (by omega), Nat.add_assoc, Nat.add_comm 1]
        exact hne (j + 1) (by omega)
      have halive' : Alive (Function.update (C.left cell k arg) first (some v)) args := fun a ha q hq => by
        by_cases hqf : q = first
        · rw [hqf, Function.update_self]
          rfl
        · rw [Function.update_of_ne hqf]
          exact halive a ha q hq
      exact (ih (h.update (x := some v) hsource) hraw' halive').trans built_cons

/-- The guard takes back what was made. -/
theorem destroyN_overlay {first : Nat} (hraw : RawFrom cell first vs.length) :
    destroyN first vs.length (⟨overlay cell first vs, k⟩ : Memory α) =
      ((.ok (), ⟨cell, k⟩) : Result ε Unit × Memory α) := by
  induction vs generalizing first with
  | nil => rfl
  | cons v vs ih =>
    have hnone : Function.update (overlay cell (first + 1) vs) first none = overlay cell (first + 1) vs := by
      refine Function.update_eq_self_iff.mpr ?_
      rw [overlay_of_lt (Nat.lt_succ_self first)]
      exact (hraw 0 (by simp)).symm
    have hdestroy : (destroyAt first : Prog (Memory α) ε Unit) ⟨overlay cell first (v :: vs), k⟩ =
        (.ok (), ⟨overlay cell (first + 1) vs, k⟩) := by
      simp only [destroyAt, overlay, Function.update_self, Function.update_idem, hnone]
    simp only [List.length_cons, destroyN, Prog.bind_apply, hdestroy]
    refine ih fun j hj => ?_
    rw [Nat.add_assoc, Nat.add_comm 1]
    exact hraw (j + 1) (by rw [List.length_cons]; omega)

/-- All elements, or none. -/
def Settled {β : Type} (answer : β) (first : Nat) (vs : List α) (failure : Option ε) (cell : Nat → Option α) (k : Nat) :
    Result ε β × Memory α :=
  match failure with
  | none => (.ok answer, ⟨overlay cell first vs, k + vs.length⟩)
  | some e => (.throw e, ⟨cell, k + vs.length + 1⟩)

/-- The program makes `args` at `first`, or nothing. -/
structure Builds {β : Type} (C : Ctors α ε) (p : Prog (Memory α) ε β) (answer : β) (first : Nat) (args : List (Arg α)) :
    Prop where
  apply : ∀ {cell cell' : Nat → Option α} {k : Nat} {vs : List α} {failure : Option ε},
    Constructs C cell k args vs failure cell' → RawFrom cell first args.length → Alive cell args →
    p ⟨cell, k⟩ = Settled answer first vs failure cell' k

/-- A loop is in the scope of its guard. -/
theorem uninit_eq (first : Nat) (s : Memory α) :
    C.uninit first args s = guarded first (C.loop args >>= fun _ => Prog.read (·.2)) s := rfl

theorem uninit_builds {first last : Nat} (hlast : first + args.length = last) :
    Builds C (C.uninit first args) last first args := by
  refine ⟨fun {cell cell' k vs failure} h hraw ha => ?_⟩
  have hloop := loop_apply h hraw ha
  cases failure with
  | none =>
    have hbody : (C.loop args >>= fun _ => Prog.read (·.2)) (⟨cell, k⟩, first) =
        (.ok (first + vs.length), (⟨overlay cell' first vs, k + vs.length⟩, first + vs.length)) := by
      rw [Prog.bind_apply, hloop]
      rfl
    rw [uninit_eq, guarded, hbody, ← hlast, ← h.length_eq]
    rfl
  | some e =>
    have hbody : (C.loop args >>= fun _ => Prog.read (·.2)) (⟨cell, k⟩, first) =
        (.throw e, (⟨overlay cell' first vs, k + vs.length + 1⟩, first + vs.length)) := by
      rw [Prog.bind_apply, hloop]
      rfl
    have hraw' : RawFrom cell' first vs.length := fun j hj => h.raw hraw j (hj.trans_le h.length_le)
    rw [uninit_eq, guarded, hbody]
    simp only [Prog.bind_apply, Nat.add_sub_cancel_left, destroyN_overlay hraw']
    rfl

end SharedPtr.Raw
