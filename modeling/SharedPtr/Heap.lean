/-
Control blocks as one thread sees them (`_Sp_counted_ptr`,
`_Sp_counted_deleter`, `_Sp_counted_ptr_inplace`, `_Sp_counted_array`), and the
reference-counting functions of `__shared_count` and `__weak_count` on them.

The log keeps, in order, what runs outside the header or calls into it:
storage got and given back, elements constructed and destroyed and the calls
made to do so, deleters, the virtual functions, the beginning of each release,
and the locks of the atomic operations. Deleters only do what the log says:
they hold no handle.
-/
import SharedPtr.Counters
import SharedPtr.Lib.Prog
import Mathlib.Logic.Function.Basic

namespace SharedPtr.Seq

open Lib (Prog Result)

/-- A stored pointer: null or an address. -/
abbrev Ptr := Option Nat

/-- A `_Sp_counted_base*`: null or a control block. -/
abbrev CountPtr := Option Nat

inductive Exn
  | badWeakPtr
  | badArrayNewLength
  | user (n : Nat)
  deriving DecidableEq, Repr

/-! ## Storage, elements and deleters -/

/-- Where storage comes from: a new-expression, `std::allocator`, or copies of
a program's allocator. -/
inductive Source
  | new
  | std
  | user (a : Nat)
  deriving DecidableEq, Repr

/-- What the storage is allocated for. -/
inductive ValueType
  | controlBlock
  | element
  deriving DecidableEq, Repr

/-- A result of `allocate(n)`. -/
structure Chunk where
  source : Source
  valueType : ValueType
  ptr : Ptr
  n : Nat
  deriving DecidableEq, Repr

/-- A deleter. -/
inductive Deleter
  /-- `delete __p`, as `_Sp_counted_ptr` does without a deleter. -/
  | delete
  /-- `__sp_array_delete`: `delete[] __p`. -/
  | arrayDelete
  /-- `default_delete` of the type called `T`, which may be an array type. -/
  | defaultDelete (T : Nat)
  | user (d : Nat)
  /-- `_Del` of `cest_allocate_shared`, with `_M_a2`, `_M_i` and `_M_n`. -/
  | elements (a2 : Source) (i n : Nat)
  deriving DecidableEq, Repr

/-- How an element is initialised. -/
inductive Init
  /-- `T()`. -/
  | value
  /-- `T`, without an initialiser. -/
  | default
  /-- From the arguments, or the initial value, called `u`. -/
  | args (u : Nat)
  /-- From the element `j` of the initial value `u`, an array. -/
  | element (u j : Nat)
  deriving DecidableEq, Repr

inductive Event
  | allocate (c : Chunk)
  | deallocate (c : Chunk)
  /-- `construct(a, p + k, ...)` of the allocator's traits is called. -/
  | allocatorConstruct (a : Source) (init : Init) (p : Ptr) (k : Nat)
  /-- `destroy(a, p + k)` of the allocator's traits is called. -/
  | allocatorDestroy (a : Source) (p : Ptr) (k : Nat)
  /-- A constructor is called without an allocator. -/
  | plainConstruct (init : Init) (p : Ptr) (k : Nat)
  /-- The element `p[k]` is constructed, with the value `v`. -/
  | construct (p : Ptr) (k v : Nat)
  | destroyElement (p : Ptr) (k : Nat)
  | deleter (d : Deleter) (p : Ptr)
  /-- `_M_release` or `_M_weak_release` is entered. -/
  | release (k : Kind) (b : Nat)
  | dispose (b : Nat)
  | destroy (b : Nat)
  | lock
  | unlock
  /-- `std::terminate()`: an exception was to leave a `noexcept` function. -/
  | terminate
  deriving DecidableEq, Repr

/-- `while (__i--) destroy(__a, __p + __i);` -/
def destroyElements (a : Source) (p : Ptr) : Nat → List Event
  | 0 => []
  | i + 1 => .allocatorDestroy a p i :: .destroyElement p i :: destroyElements a p i

/-- `std::destroy_n(__p, __n)`, and `std::_Destroy` of a range. -/
def destroyN (p : Ptr) (n : Nat) : List Event := (List.range n).map (.destroyElement p)

/-- What a call of the deleter does. -/
def Deleter.call (d : Deleter) (p : Ptr) : List Event :=
  .deleter d p ::
    match d with
    | .elements a2 i n => destroyElements a2 p i ++ [.deallocate ⟨a2, .element, p, n⟩]
    | _ => []

/-! ## Control blocks -/

/-- The members of the class that derives from `_Sp_counted_base`; the copy of
the allocator is `Block.chunk`'s source. -/
inductive Managed
  /-- `_Sp_counted_ptr`. -/
  | countedPtr (ptr : Ptr)
  /-- `_Sp_counted_deleter`. -/
  | countedDeleter (ptr : Ptr) (del : Deleter)
  /-- `_Sp_counted_deleter` with a `reference_wrapper` of the deleter. -/
  | countedReference (ptr : Ptr) (del : Deleter)
  /-- `_Sp_counted_ptr_inplace`, with `_M_ptr()`. -/
  | countedInplace (alloc : Source) (ptr : Ptr)
  /-- The specialisation for `_Sp_overwrite_tag`. -/
  | countedOverwrite (ptr : Ptr)
  /-- `_Sp_counted_array`, which is at the address `self` in the storage at `_M_alloc_ptr`. -/
  | countedArray (alloc : Source) (n : Nat) (overwrite : Bool) (allocPtr : Ptr) (self : Nat)
  deriving DecidableEq, Repr

structure Block where
  counts : Counts
  managed : Managed
  chunk : Chunk
  deriving DecidableEq, Repr

/-- The address of a block. -/
def Block.address (blk : Block) : Ptr :=
  match blk.managed with
  | .countedArray _ _ _ _ self => some self
  | _ => blk.chunk.ptr

structure Heap where
  blocks : Nat → Option Block
  /-- The name of the next control block. -/
  next : Nat
  /-- Calls so far to functions that allocate, and that construct an element. -/
  allocations : Nat
  constructions : Nat
  log : List Event

/-- `_M_dispose_array(__p)`. -/
def disposeArray (alloc : Source) (n : Nat) (overwrite : Bool) (p : Ptr) : List Event :=
  if overwrite then destroyN p n else destroyElements alloc p n

/-- `_M_dispose()`. -/
def Managed.dispose : Managed → List Event
  | .countedPtr ptr => Deleter.delete.call ptr
  | .countedDeleter ptr del | .countedReference ptr del => del.call ptr
  | .countedInplace alloc ptr => [.allocatorDestroy alloc ptr 0, .destroyElement ptr 0]
  | .countedOverwrite ptr => [.destroyElement ptr 0]
  | .countedArray alloc n overwrite allocPtr _ => if n ≠ 0 then disposeArray alloc n overwrite allocPtr else []

/-- A virtual call to the block named `b`. -/
def Block.call (blk : Block) (b : Nat) : Call → List Event
  | .dispose => .dispose b :: blk.managed.dispose
  | .destroy => [.destroy b, .deallocate blk.chunk]

namespace Heap

def empty : Heap := ⟨fun _ => none, 0, 0, 0, []⟩

def emit (es : List Event) (h : Heap) : Heap := { h with log := h.log ++ es }

def setCounts (h : Heap) (b : Nat) (blk : Block) (c : Counts) : Heap :=
  { h with blocks := Function.update h.blocks b (some { blk with counts := c }) }

/-- A control block is constructed in the storage `c`. -/
def construct (managed : Managed) (c : Chunk) (h : Heap) : Nat × Heap :=
  (h.next, { h with
    blocks := Function.update h.blocks h.next (some ⟨.new, managed, c⟩)
    next := h.next + 1 })

end Heap

/-- `_M_add_ref_copy` or `_M_weak_add_ref`. -/
def Counts.addRef (m : Mode) : Kind → Counts → Option Counts
  | .shared => addRefCopy m
  | .weak => weakAddRef m

/-- `_M_release` or `_M_weak_release`. -/
def Counts.drop (m : Mode) : Kind → Counts → Counts × List Call
  | .shared => release m
  | .weak => weakRelease m

/-- A function that is declared `constexpr`, or is not: then constant evaluation
ends where it is called. -/
def ifConstexpr {σ ε α : Type} (m : Mode) (isConstexpr : Bool) (c : Prog σ ε α) : Prog σ ε α :=
  if m = .constEval ∧ isConstexpr = false then Prog.stop else c

section

variable {σ ε α : Type} {m : Mode} {isConstexpr : Bool} {c : Prog σ ε α}

theorem ifConstexpr_of (h : m = .constEval → isConstexpr = true) : ifConstexpr m isConstexpr c = c :=
  if_neg fun hc => by simp [h hc.1] at hc

@[simp] theorem ifConstexpr_true : ifConstexpr m true c = c := ifConstexpr_of fun _ => rfl

@[simp] theorem ifConstexpr_constEval : ifConstexpr .constEval false c = Prog.stop := rfl

@[simp] theorem ifConstexpr_runTime {lp : LockPolicy} {st : Bool} {n : Nat} :
    ifConstexpr (.runTime lp st n) isConstexpr c = c := rfl

/-- What holds of the call and of one that ends at once. -/
theorem ifConstexpr_elim {P : Prog σ ε α → Prop} (hstop : P Prog.stop) (hc : P c) : P (ifConstexpr m isConstexpr c) := by
  unfold ifConstexpr
  split
  · exact hstop
  · exact hc

theorem ifConstexpr_cases (s : σ) : ifConstexpr m isConstexpr c s = (.stop, s) ∨ ifConstexpr m isConstexpr c s = c s :=
  ifConstexpr_elim (P := fun c' => c' s = (.stop, s) ∨ c' s = c s) (.inl rfl) (.inr rfl)

end

section

variable (m : Mode) (k : Kind)

/-- `__p->_M_add_ref_copy()` or `__p->_M_weak_add_ref()`. -/
def addRef (b : Nat) : Prog Heap Exn Unit := fun h =>
  match h.blocks b with
  | none => (.stop, h)
  | some blk =>
    match blk.counts.addRef m k with
    | none => (.stop, h)
    | some c => (.ok (), h.setCounts b blk c)

/-- A release of the block named `b`, and the virtual calls it makes. -/
def Block.release (blk : Block) (b : Nat) : List Event :=
  .release k b :: (blk.counts.drop m k).2.flatMap (blk.call b)

/-- `__p->_M_release()` or `__p->_M_weak_release()`. -/
def release (b : Nat) (h : Heap) : Heap :=
  match h.blocks b with
  | none => h
  | some blk => (h.setCounts b blk (blk.counts.drop m k).1).emit (blk.release m k b)

/-- `_M_pi->_M_add_ref_lock_nothrow()`. -/
def addRefLockNothrow (b : Nat) : Prog Heap Exn Bool := fun h =>
  match h.blocks b with
  | none => (.stop, h)
  | some blk =>
    match blk.counts.addRefLockNothrow m with
    | none => (.stop, h)
    | some (ok, c) => (.ok ok, h.setCounts b blk c)

/-! ## `__shared_count` and `__weak_count`

Each object is its `_M_pi`; a function on an object that changes it returns
what the member then is. -/

/-- `__shared_count(const __shared_count&)`, `__weak_count(const __weak_count&)`
and `__weak_count(const __shared_count&)`. -/
def copyCount (r : CountPtr) : Prog Heap Exn CountPtr :=
  match r with
  | none => pure none
  | some b => do
    addRef m k b
    pure r

/-- `~__shared_count()` and `~__weak_count()`. -/
def dropCount (pi : CountPtr) (h : Heap) : Heap :=
  match pi with
  | none => h
  | some b => release m k b h

/-- From the comparison on in `__shared_count::operator=`, the whole of
`__weak_count::operator=(const __shared_count&)` and
`operator=(const __weak_count&)`. -/
def replaceCount (pi r : CountPtr) : Prog Heap Exn CountPtr := do
  let tmp ← copyCount m k r
  Prog.modify (dropCount m k pi)
  pure tmp

/-- `operator=` of a `__shared_count` or `__weak_count`. -/
def assignCount (pi r : CountPtr) : Prog Heap Exn CountPtr :=
  match k with
  | .shared => if r ≠ pi then replaceCount m .shared pi r else pure pi
  | .weak => replaceCount m .weak pi r

/-- `__throw_bad_weak_ptr()`. -/
def throwBadWeakPtr {α : Type} : Prog Heap Exn α := ifConstexpr m false (Prog.throw .badWeakPtr)

theorem throwBadWeakPtr_apply {α : Type} (h : Heap) :
    (throwBadWeakPtr m : Prog Heap Exn α) h = (if m = .constEval then .stop else .throw .badWeakPtr, h) := by
  cases m <;> rfl

variable {m} in
theorem throwBadWeakPtr_of_ne {α : Type} (h : m ≠ .constEval) :
    (throwBadWeakPtr m : Prog Heap Exn α) = Prog.throw .badWeakPtr := ifConstexpr_of fun hc => absurd hc h

/-- `__shared_count(const __weak_count&)`. -/
def countOfWeak (r : CountPtr) : Prog Heap Exn CountPtr :=
  match r with
  | none => throwBadWeakPtr m
  | some b => do
    let ok ← addRefLockNothrow m b
    if ok then pure r else throwBadWeakPtr m

/-- `__shared_count(const __weak_count&, nothrow_t)`. -/
def countOfWeakNothrow (r : CountPtr) : Prog Heap Exn CountPtr :=
  match r with
  | none => pure none
  | some b => do
    let ok ← addRefLockNothrow m b
    if ok then pure r else pure none

/-- `_M_get_use_count()` of either class. -/
def useCount (pi : CountPtr) (h : Heap) : Int :=
  match pi.bind h.blocks with
  | none => 0
  | some blk => blk.counts.getUseCount m

end

end SharedPtr.Seq
