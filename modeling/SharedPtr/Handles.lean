/-
`__shared_ptr` and `__weak_ptr` objects and their member functions
(`bits/shared_ptr_base.h`), statement by statement over objects in memory, so
that arguments may be one object.

The objects of the program are named by `V`; a function's own objects
(parameters taken by value, temporaries, locals) have names of their own. An
object that is not there has no handle: constructing twice, or using what is
not there, has no result. Stored pointers are converted without change (same
type, or no virtual base). Object types have no `enable_shared_from_this` base,
so `_M_enable_shared_from_this_with` does nothing; `SharedFromThis` adds it.
-/
import SharedPtr.Owning
import Mathlib.Data.Fintype.Sum

namespace SharedPtr.Seq

open Lib (Prog Result)

/-- A `__shared_ptr` or `__weak_ptr`: `_M_ptr` and `_M_refcount._M_pi`. -/
structure Handle where
  kind : Kind
  ptr : Ptr
  pi : CountPtr
  deriving DecidableEq, Repr

/-- Objects of the functions themselves: the temporary of `T(...).swap(*this)`
and the like, a parameter taken by value, and the locals `__x` and `__sink`;
`outer` and `desired` are the parameters of functions that pass theirs on. -/
inductive Local
  | tmp
  | param
  | x
  | sink
  | outer
  | desired
  deriving DecidableEq, Repr

instance : Fintype Local := ⟨{.tmp, .param, .x, .sink, .outer, .desired}, fun l => by cases l <;> decide⟩

/-- Names of objects. -/
abbrev Ref (V : Type) := V ⊕ Local

structure Mem (V : Type) where
  heap : Heap
  obj : Ref V → Option Handle

variable {V : Type} [DecidableEq V]

namespace Mem

def empty : Mem V := ⟨Heap.empty, fun _ => none⟩

def set (s : Mem V) (x : Ref V) (o : Option Handle) : Mem V :=
  { s with obj := Function.update s.obj x o }

@[simp] theorem set_obj (s : Mem V) (x : Ref V) (o : Option Handle) : (s.set x o).obj x = o :=
  Function.update_self ..

@[simp] theorem set_heap (s : Mem V) (x : Ref V) (o : Option Handle) : (s.set x o).heap = s.heap := rfl

theorem set_obj_of_ne (s : Mem V) {x y : Ref V} (h : y ≠ x) (o : Option Handle) :
    (s.set x o).obj y = s.obj y := Function.update_of_ne h ..

@[simp] theorem set_set (s : Mem V) (x : Ref V) (o o' : Option Handle) : (s.set x o).set x o' = s.set x o' := by
  simp [set]

theorem set_comm (s : Mem V) {x y : Ref V} (h : x ≠ y) (o o' : Option Handle) :
    (s.set y o').set x o = (s.set x o).set y o' := by
  simp only [set, Function.update_comm h]

/-- No function of the header is running. -/
def Idle (s : Mem V) : Prop := ∀ l, s.obj (.inr l) = none

end Mem

/-- A program on the heap only. -/
def onHeap {α : Type} (c : Prog Heap Exn α) : Prog (Mem V) Exn α := fun s =>
  let r := c s.heap
  (r.1, { s with heap := r.2 })

/-- The object `x`, of class `k`. -/
def get (k : Kind) (x : Ref V) : Prog (Mem V) Exn Handle := fun s =>
  match s.obj x with
  | none => (.stop, s)
  | some h => if h.kind = k then (.ok h, s) else (.stop, s)

/-- The members of `x` are assigned to. -/
def put (x : Ref V) (h : Handle) : Prog (Mem V) Exn Unit := Prog.modify fun s => s.set x (some h)

/-- `x` comes to be, with these members. -/
def create (x : Ref V) (h : Handle) : Prog (Mem V) Exn Unit := fun s =>
  match s.obj x with
  | none => (.ok (), s.set x (some h))
  | some _ => (.stop, s)

variable (m : Mode)

/-- `~__shared_ptr()` or `~__weak_ptr()`, where there is an object. -/
def destroyObject (x : Ref V) (s : Mem V) : Mem V :=
  match s.obj x with
  | none => s
  | some h => { s.set x none with heap := dropCount m h.kind h.pi s.heap }

/-! ## Construction -/

/-- `__shared_ptr()` or `__weak_ptr()`. -/
def defaultCtor (k : Kind) (x : Ref V) : Prog (Mem V) Exn Unit := create x ⟨k, none, none⟩

/-- `__shared_ptr(const __shared_ptr& __r)`, `__weak_ptr(const __weak_ptr& __r)`
and `__weak_ptr(const __shared_ptr& __r)`, the converting ones too. -/
def copyCtor (k : Kind) (x : Ref V) (kr : Kind) (r : Ref V) : Prog (Mem V) Exn Unit := do
  let h ← get kr r
  let pi ← onHeap (copyCount m k h.pi)
  create x ⟨k, h.ptr, pi⟩

/-- `__shared_ptr(const __shared_ptr& __r, element_type* __p)`. -/
def aliasCtor (x r : Ref V) (p : Ptr) : Prog (Mem V) Exn Unit := do
  let h ← get .shared r
  let pi ← onHeap (copyCount m .shared h.pi)
  create x ⟨.shared, p, pi⟩

/-- `__shared_ptr(__shared_ptr&& __r)` and `__weak_ptr(__weak_ptr&& __r)`: the
new object has `__r`'s reference, and `__r` has none. -/
def moveCtor (k : Kind) (x r : Ref V) : Prog (Mem V) Exn Unit := do
  let h ← get k r
  create x h
  put r ⟨k, none, none⟩

/-- `__shared_ptr(__shared_ptr&& __r, element_type* __p)`. -/
def aliasMoveCtor (x r : Ref V) (p : Ptr) : Prog (Mem V) Exn Unit := do
  let h ← get .shared r
  create x ⟨.shared, p, h.pi⟩
  put r ⟨.shared, none, none⟩

/-- `__shared_ptr(const __weak_ptr& __r)`. -/
def weakCtor (x r : Ref V) : Prog (Mem V) Exn Unit := do
  let h ← get .weak r
  let pi ← onHeap (countOfWeak m h.pi)
  create x ⟨.shared, h.ptr, pi⟩

/-- `lock()`: `__shared_ptr(const __weak_ptr& __r, nothrow_t)`. -/
def lockCtor (x r : Ref V) : Prog (Mem V) Exn Unit := do
  let h ← get .weak r
  let pi ← onHeap (countOfWeakNothrow m h.pi)
  let count ← Prog.read fun s => useCount m pi s.heap
  create x ⟨.shared, if count ≠ 0 then h.ptr else none, pi⟩

/-- A constructor of a shared pointer that takes ownership of `p`, with the
constructor `rc` of its `_M_refcount`. -/
def ownCtor (x : Ref V) (p : Ptr) (rc : Prog Heap Exn CountPtr) : Prog (Mem V) Exn Unit := do
  let pi ← onHeap rc
  create x ⟨.shared, p, pi⟩

/-! ## Assignment and modifiers -/

/-- `swap`. -/
def swap (k : Kind) (x y : Ref V) : Prog (Mem V) Exn Unit := do
  let hx ← get k x
  let hy ← get k y
  put x hy
  put y hx

/-- `operator=(const __shared_ptr& __r)`, `operator=(const __weak_ptr& __r)` and
the assignment of a shared pointer to a weak one, on `x`. -/
def copyAssign (k : Kind) (x : Ref V) (kr : Kind) (r : Ref V) : Prog (Mem V) Exn Unit := do
  let h ← get kr r
  let t ← get k x
  put x { t with ptr := h.ptr }
  let h ← get kr r
  let pi ← onHeap (assignCount m k t.pi h.pi)
  put x ⟨k, h.ptr, pi⟩

/-- `make(tmp).swap(x)`: a temporary is made, swapped with `x` and destroyed. -/
def swapTemporary (k : Kind) (make : Ref V → Prog (Mem V) Exn Unit) (x : Ref V) : Prog (Mem V) Exn Unit := do
  make (.inr .tmp)
  Prog.atExit (swap k (.inr .tmp) x) (destroyObject m (.inr .tmp))

/-- `operator=(__shared_ptr&& __r)` and `operator=(__weak_ptr&& __r)`. -/
def moveAssign (k : Kind) (x r : Ref V) : Prog (Mem V) Exn Unit :=
  ifConstexpr m (k = .shared) (swapTemporary m k (fun tmp => moveCtor k tmp r) x)

theorem moveAssign_shared (x r : Ref V) :
    moveAssign m .shared x r = swapTemporary m .shared (fun tmp => moveCtor .shared tmp r) x := ifConstexpr_true

/-- `operator=(__weak_ptr<_Yp>&& __r)`, with `__weak_count::operator=(__weak_count&&)`;
`x` and `__r` are of different types, so not one object. -/
def weakMoveAssignFrom (x r : Ref V) : Prog (Mem V) Exn Unit := do
  let h ← get .weak r
  let t ← get .weak x
  put x { t with ptr := h.ptr }
  onHeap (Prog.modify (dropCount m .weak t.pi))
  put x ⟨.weak, h.ptr, h.pi⟩
  put r ⟨.weak, none, none⟩

/-- `reset()`. -/
def reset (k : Kind) (x : Ref V) : Prog (Mem V) Exn Unit := swapTemporary m k (defaultCtor k) x

end SharedPtr.Seq
