/-
`atomic_load`, `atomic_store`, `atomic_exchange` and
`atomic_compare_exchange_strong` on shared pointers (`bits/shared_ptr_atomic.h`),
as any number of threads run them on any number of objects. Each takes a
`_Sp_locker` for the objects it is given, works on their members one at a time,
and destroys what it has taken out of them when the locker is gone. The
constructor of `_Sp_locker` is not in the headers: it returns when no other
locker has one of its keys, and what key an address has is left open.

For any assignment of keys the operations are atomic on all objects together
(`freeFunctions_linearizable`).
-/
import SharedPtr.SpAtomic
import SharedPtr.Lib.Critical

namespace SharedPtr.Locker

open Lib
open SharedPtr.Atomic (Word BlockPtr Value addRef release)

/-- The members of a `shared_ptr`: `_M_ptr` and `_M_refcount._M_pi`. -/
inductive Field
  | ptr
  | pi
  deriving DecidableEq

abbrev Cell (O : Type) := O × Field

abbrev Field.Contents : Field → Type
  | .ptr => Word
  | .pi => BlockPtr

abbrev Contents (O : Type) (x : Cell O) : Type := x.2.Contents

/-- What an operation does to the counts: `_M_add_ref_copy` and `_M_release`, if there is a block. -/
inductive Emit
  | addRef (pi : BlockPtr)
  | release (pi : BlockPtr)
  deriving DecidableEq

/-- What a function returns. -/
inductive Ans
  | loaded (v : Value)
  | stored
  | exchanged (v : Value)
  | compared (ok : Bool)
  deriving DecidableEq

/-- The end of a function: its answer, and the locals and parameters to destroy. -/
structure Ended where
  ans : Ans
  dying : List Value
  deriving DecidableEq

inductive Op (O : Type)
  | load (p : O)
  | store (p : O) (r : Value)
  | exchange (p : O) (r : Value)
  | compareExchangeStrong (p v : O) (w : Value)
  deriving DecidableEq

/-- The parameters passed by value. -/
def Op.args {O : Type} : Op O → List Value
  | .load _ => []
  | .store _ r | .exchange _ r | .compareExchangeStrong _ _ r => [r]

/-- What the caller gets. -/
def Ans.values : Ans → List Value
  | .loaded v | .exchanged v => [v]
  | .stored | .compared _ => []

abbrev Code (O α : Type) := Body (Contents O) Emit α

section

variable {O : Type}

def getPtr (p : O) : Code O Word := Body.get (W := Contents O) (p, .ptr)

def getPi (p : O) : Code O BlockPtr := Body.get (W := Contents O) (p, .pi)

def putPtr (p : O) (w : Word) : Code O Unit := Body.put (W := Contents O) (p, .ptr) w

def putPi (p : O) (b : BlockPtr) : Code O Unit := Body.put (W := Contents O) (p, .pi) b

/-! ## What is done to an object -/

/-- `__shared_ptr(*__p)`. -/
def copyOf (p : O) : Code O Value := do
  let ptr ← getPtr p
  let pi ← getPi p
  Body.tell (.addRef pi)
  pure ⟨ptr, pi⟩

/-- `swap` of `*__p` and a local `r`, whose new value is returned. -/
def swap (p : O) (r : Value) : Code O Value := do
  let tmp ← getPtr p
  putPtr p r.ptr
  let pi ← getPi p
  putPi p r.pi
  pure ⟨tmp, pi⟩

/-- `__shared_ptr(std::move(*__p))`. -/
def moveOf (p : O) : Code O Value := do
  let ptr ← getPtr p
  let pi ← getPi p
  putPi p .null
  putPtr p 0
  pure ⟨ptr, pi⟩

/-- `*__p = std::move(r)`: a temporary is made of `r`, swapped with `*__p`, and destroyed. -/
def moveAssign (p : O) (r : Value) : Code O Unit := do
  let tmp ← swap p r
  Body.tell (.release tmp.pi)

/-- `*__v = *__p`, member by member. -/
def copyAssign (v p : O) : Code O Unit := do
  let ptr ← getPtr p
  putPtr v ptr
  let tmp ← getPi p
  let pi ← getPi v
  if tmp ≠ pi then do
    Body.tell (.addRef tmp)
    Body.tell (.release pi)
    putPi v tmp
  else pure ()

/-- `_M_less`: control blocks compared by address. -/
def less (a b : BlockPtr) : Bool := a.val.toNat < b.val.toNat

/-- `__less(*__p, *__v)`. -/
def ownerLess (p v : O) : Code O Bool := do
  let a ← getPi p
  let b ← getPi v
  pure (less a b)

/-- `*__p == *__v && !__less(*__p, *__v) && !__less(*__v, *__p)`. -/
def equivalent (p v : O) : Code O Bool := do
  let a ← getPtr p
  let b ← getPtr v
  if a = b then do
    if ← ownerLess p v then pure false
    else do
      let greater ← ownerLess v p
      pure !greater
  else pure false

/-! ## The functions -/

/-- What a function does while its `_Sp_locker` is there. A local is destroyed
before a parameter, and what was moved from is empty. -/
def Op.body : Op O → Code O Ended
  | .load p => do
    let ret ← copyOf p
    pure ⟨.loaded ret, []⟩
  | .store p r => do
    let r ← swap p r
    pure ⟨.stored, [r]⟩
  | .exchange p r => do
    let r ← swap p r
    pure ⟨.exchanged r, []⟩
  | .compareExchangeStrong p v w => do
    if ← equivalent p v then do
      let x ← moveOf p
      moveAssign p w
      pure ⟨.compared true, [x]⟩
    else do
      let x ← moveOf v
      copyAssign v p
      pure ⟨.compared false, [x, w]⟩

/-- The objects a function locks. -/
def Op.objects : Op O → List O
  | .load p | .store p _ | .exchange p _ => [p]
  | .compareExchangeStrong p v _ => [p, v]

theorem copyOf_within {P : Cell O → Prop} {p : O} (h : ∀ f, P (p, f)) : (copyOf p).Within P :=
  .bind (Body.within_get.mpr (h _)) fun _ => .bind (Body.within_get.mpr (h _)) fun _ =>
    .bind Body.within_tell fun _ => Body.within_pure _

theorem swap_within {P : Cell O → Prop} {p : O} (h : ∀ f, P (p, f)) (r : Value) : (swap p r).Within P :=
  .bind (Body.within_get.mpr (h _)) fun _ => .bind (Body.within_put.mpr (h _)) fun _ =>
    .bind (Body.within_get.mpr (h _)) fun _ => .bind (Body.within_put.mpr (h _)) fun _ => Body.within_pure _

theorem moveOf_within {P : Cell O → Prop} {p : O} (h : ∀ f, P (p, f)) : (moveOf p).Within P :=
  .bind (Body.within_get.mpr (h _)) fun _ => .bind (Body.within_get.mpr (h _)) fun _ =>
    .bind (Body.within_put.mpr (h _)) fun _ => .bind (Body.within_put.mpr (h _)) fun _ => Body.within_pure _

theorem moveAssign_within {P : Cell O → Prop} {p : O} (h : ∀ f, P (p, f)) (r : Value) : (moveAssign p r).Within P :=
  .bind (swap_within h r) fun _ => Body.within_tell

theorem copyAssign_within {P : Cell O → Prop} {v p : O} (hv : ∀ f, P (v, f)) (hp : ∀ f, P (p, f)) :
    (copyAssign v p).Within P := by
  refine .bind (Body.within_get.mpr (hp _)) fun _ => .bind (Body.within_put.mpr (hv _)) fun _ =>
    .bind (Body.within_get.mpr (hp _)) fun _ => .bind (Body.within_get.mpr (hv _)) fun _ => ?_
  split
  · exact .bind Body.within_tell fun _ => .bind Body.within_tell fun _ => Body.within_put.mpr (hv _)
  · exact Body.within_pure _

theorem ownerLess_within {P : Cell O → Prop} {p v : O} (hp : ∀ f, P (p, f)) (hv : ∀ f, P (v, f)) :
    (ownerLess p v).Within P :=
  .bind (Body.within_get.mpr (hp _)) fun _ => .bind (Body.within_get.mpr (hv _)) fun _ => Body.within_pure _

theorem equivalent_within {P : Cell O → Prop} {p v : O} (hp : ∀ f, P (p, f)) (hv : ∀ f, P (v, f)) :
    (equivalent p v).Within P := by
  refine .bind (Body.within_get.mpr (hp _)) fun _ => .bind (Body.within_get.mpr (hv _)) fun _ => ?_
  split
  · refine .bind (ownerLess_within hp hv) fun _ => ?_
    split
    · exact Body.within_pure _
    · exact .bind (ownerLess_within hv hp) fun _ => Body.within_pure _
  · exact Body.within_pure _

/-- A function touches only the objects it locks. -/
theorem body_within {P : Cell O → Prop} (op : Op O) (h : ∀ o ∈ op.objects, ∀ f, P (o, f)) : op.body.Within P := by
  cases op with
  | load p => exact .bind (copyOf_within (h p (by simp [Op.objects]))) fun _ => Body.within_pure _
  | store p r | exchange p r => exact .bind (swap_within (h p (by simp [Op.objects])) r) fun _ => Body.within_pure _
  | compareExchangeStrong p v w =>
    have hp := h p (by simp [Op.objects])
    have hv := h v (by simp [Op.objects])
    refine .bind (equivalent_within hp hv) fun _ => ?_
    split
    · exact .bind (moveOf_within hp) fun _ => .bind (moveAssign_within hp w) fun _ => Body.within_pure _
    · exact .bind (moveOf_within hv) fun _ => .bind (copyAssign_within hv hp) fun _ => Body.within_pure _

/-- The functions as critical sections, for addresses with the keys `key`. -/
def functions {K : Type} (key : O → K) : Guarded (Contents O) K Emit (Op O) Ended where
  key x := key x.1
  keys op := op.objects.map key
  body := Op.body
  tail r := r.dying.map fun v => .release v.pi
  within op := body_within op fun _ ho _ => List.mem_map_of_mem ho

/-! ## The functions run alone -/

/-- The objects' values. -/
def objects (mem : ∀ x, Contents O x) (o : O) : Value := ⟨mem (o, .ptr), mem (o, .pi)⟩

/-- What the functions mean on all objects together. -/
def memorySpec [DecidableEq O] : Spec (O → Value) (Op O) Ans
  | m, .load p => (m, .loaded (m p))
  | m, .store p r => (Function.update m p r, .stored)
  | m, .exchange p r => (Function.update m p r, .exchanged (m p))
  | m, .compareExchangeStrong p v w =>
    if m p = m v then (Function.update m p w, .compared true)
    else (Function.update m v (m p), .compared false)

theorem not_less_iff (a b : BlockPtr) : less a b = false ∧ less b a = false ↔ a = b := by
  constructor
  · rintro ⟨h, h'⟩
    simp only [less, decide_eq_false_iff_not, Nat.not_lt] at h h'
    exact Subtype.ext (BitVec.eq_of_toNat_eq (Nat.le_antisymm h' h))
  · rintro rfl
    simp [less]

variable [DecidableEq O] {mem : ∀ x, Contents O x} {p v : O}

theorem copyOf_exec : (copyOf p).exec mem = (mem, objects mem p) := by
  simp [copyOf, getPtr, getPi, objects]

theorem objects_put (m : ∀ x, Contents O x) (p : O) (r : Value) :
    objects (Function.update (Function.update m (p, .ptr) r.ptr) (p, .pi) r.pi) = Function.update (objects m) p r := by
  funext o
  by_cases ho : o = p
  · subst ho
    simp [objects]
  · simp [objects, ho]

theorem swap_exec (r : Value) : objects ((swap p r).exec mem).1 = Function.update (objects mem) p r ∧
    ((swap p r).exec mem).2 = objects mem p := by
  refine ⟨?_, by simp [swap, getPtr, getPi, putPtr, putPi, objects]⟩
  rw [← objects_put]
  simp [swap, getPtr, getPi, putPtr, putPi]

/-- An empty `shared_ptr`. -/
def empty : Value := ⟨0, .null⟩

theorem moveOf_exec : objects ((moveOf p).exec mem).1 = Function.update (objects mem) p empty ∧
    ((moveOf p).exec mem).2 = objects mem p := by
  refine ⟨?_, by simp [moveOf, getPtr, getPi, putPtr, putPi, objects]⟩
  funext o
  by_cases ho : o = p
  · subst ho
    simp [moveOf, getPtr, getPi, putPtr, putPi, objects, empty]
  · simp [moveOf, getPtr, getPi, putPtr, putPi, objects, ho]

theorem moveAssign_exec (r : Value) :
    objects ((moveAssign p r).exec mem).1 = Function.update (objects mem) p r := by
  rw [moveAssign, Body.exec_bind]
  exact (swap_exec r).1

theorem copyAssign_exec : objects ((copyAssign v p).exec mem).1 = Function.update (objects mem) v (objects mem p) := by
  funext o
  by_cases hpi : (mem (p, .pi) : BlockPtr) = mem (v, .pi)
  · rcases eq_or_ne o v with rfl | ho
    · simp [copyAssign, getPtr, getPi, putPtr, objects, hpi]
    · simp [copyAssign, getPtr, getPi, putPtr, objects, hpi, ho]
  · rcases eq_or_ne o v with rfl | ho
    · simp [copyAssign, getPtr, getPi, putPtr, putPi, objects, hpi]
    · simp [copyAssign, getPtr, getPi, putPtr, putPi, objects, hpi, ho]

theorem copyAssign_out : (copyAssign v p).out mem =
    if (objects mem p).pi = (objects mem v).pi then []
    else [.addRef (objects mem p).pi, .release (objects mem v).pi] := by
  by_cases hpi : (mem (p, .pi) : BlockPtr) = mem (v, .pi) <;>
    simp [copyAssign, getPtr, getPi, putPtr, putPi, objects, hpi]

theorem equivalent_exec : (equivalent p v).exec mem = (mem, decide (objects mem p = objects mem v)) := by
  by_cases hptr : (mem (p, .ptr) : Word) = mem (v, .ptr)
  · have hiff := not_less_iff (mem (p, .pi)) (mem (v, .pi))
    cases hl : less (mem (p, .pi)) (mem (v, .pi)) <;> cases hg : less (mem (v, .pi)) (mem (p, .pi)) <;>
      simp_all [equivalent, ownerLess, getPtr, getPi, objects]
  · simp [equivalent, getPtr, objects, hptr]

theorem equivalent_out : (equivalent p v).out mem = [] := by
  by_cases hptr : (mem (p, .ptr) : Word) = mem (v, .ptr)
  · cases hl : less (mem (p, .pi)) (mem (v, .pi)) <;> simp [equivalent, ownerLess, getPtr, getPi, hptr, hl]
  · simp [equivalent, getPtr, hptr]

/-- **A function run alone does what is asked.** -/
theorem body_spec (op : Op O) (mem : ∀ x, Contents O x) :
    memorySpec (objects mem) op = (objects (op.body.exec mem).1, (op.body.exec mem).2.ans) := by
  cases op with
  | load p => simp [memorySpec, Op.body, copyOf_exec]
  | store p r => simp [memorySpec, Op.body, (swap_exec r).1]
  | exchange p r => simp [memorySpec, Op.body, (swap_exec r).1, (swap_exec r).2]
  | compareExchangeStrong p v w =>
    by_cases heq : objects mem p = objects mem v
    · simp [memorySpec, Op.body, equivalent_exec, heq, moveAssign_exec, moveOf_exec.1]
    · have hne : p ≠ v := fun h => heq (by rw [h])
      simp [memorySpec, Op.body, equivalent_exec, heq, copyAssign_exec, moveOf_exec.1, hne]

/-- What it takes out of the objects and destroys later. -/
def Op.dying (m : O → Value) : Op O → List Value
  | .load _ | .exchange .. => []
  | .store p _ => [m p]
  | .compareExchangeStrong p v w => if m p = m v then [m p] else [m v, w]

theorem body_dying (op : Op O) (mem : ∀ x, Contents O x) :
    (op.body.exec mem).2.dying = op.dying (objects mem) := by
  cases op with
  | load p => simp [Op.dying, Op.body]
  | store p r => simp [Op.dying, Op.body, (swap_exec r).2]
  | exchange p r => simp [Op.dying, Op.body]
  | compareExchangeStrong p v w =>
    by_cases heq : objects mem p = objects mem v
    · simp [Op.dying, Op.body, equivalent_exec, heq, moveOf_exec.2]
    · simp [Op.dying, Op.body, equivalent_exec, heq, moveOf_exec.2]

/-- The references counted while the locker is there. -/
def Op.counted (m : O → Value) : Op O → List Emit
  | .load p => [.addRef (m p).pi]
  | .store .. | .exchange .. => []
  | .compareExchangeStrong p v _ =>
    if m p = m v then [.release .null]
    else if (m p).pi = .null then [] else [.addRef (m p).pi, .release .null]

theorem body_out (op : Op O) (mem : ∀ x, Contents O x) : op.body.out mem = op.counted (objects mem) := by
  cases op with
  | load p => simp [Op.counted, Op.body, copyOf, getPtr, getPi, objects]
  | store p r => simp [Op.counted, Op.body, swap, getPtr, getPi, putPtr, putPi]
  | exchange p r => simp [Op.counted, Op.body, swap, getPtr, getPi, putPtr, putPi]
  | compareExchangeStrong p v w =>
    have hmove (o : O) (m : ∀ x, Contents O x) : (moveOf o).out m = [] := by
      simp [moveOf, getPtr, getPi, putPtr, putPi]
    by_cases heq : objects mem p = objects mem v
    · have hswap (m : ∀ x, Contents O x) : (swap p w).out m = [] := by simp [swap, getPtr, getPi, putPtr, putPi]
      simp [Op.counted, Op.body, equivalent_exec, equivalent_out, heq, hmove, hswap, moveAssign, (swap_exec w).2,
        moveOf_exec.1, empty]
    · have hne : p ≠ v := fun h => heq (by rw [h])
      simp [Op.counted, Op.body, equivalent_exec, equivalent_out, heq, hmove, copyAssign_out, moveOf_exec.1, hne, empty]

end

end SharedPtr.Locker
