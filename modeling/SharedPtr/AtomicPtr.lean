/-
`_Sp_atomic`, `atomic<shared_ptr<T>>` and `atomic<weak_ptr<T>>` as one thread
runs them, by constant evaluation and at run time, and the free functions
`atomic_load`, `atomic_store`, `atomic_exchange` and
`atomic_compare_exchange_strong` (`bits/shared_ptr_atomic.h`).

An atomic object is the stored pointer and the word `_M_val`. A word is a
control block and the lowest bit of its address, the lock; with the bit set it
is no pointer. Constant evaluation never sets it. The log has `lock` where
`lock()` or the constructor of a `_Sp_locker` returns, and `unlock` where
`unlock()`, `_M_swap_unlock()` or the destructor of the `_Sp_locker` is done.

Objects are destroyed where their scope ends: locals before parameters, and
parameters by the caller, when the function has returned.
-/
import SharedPtr.Handles

namespace SharedPtr.Seq

open Lib (Prog Result)

/-- The word `_M_val`. -/
structure Tagged where
  pi : CountPtr
  bit : Bool
  deriving DecidableEq, Repr

namespace Tagged

def ofPtr (pi : CountPtr) : Tagged := ⟨pi, false⟩

/-- The word as a pointer. -/
def toPtr (w : Tagged) : Option CountPtr := if w.bit then none else some w.pi

/-- `w | _S_lock_bit`. -/
def withBit (w : Tagged) : Tagged := { w with bit := true }

/-- `w & ~_S_lock_bit`. -/
def clear (w : Tagged) : Tagged := { w with bit := false }

/-- `compare_exchange_strong` on the word `val`: whether it succeeds, the word,
and `expected` after it. -/
def compareExchangeStrong (val expected desired : Tagged) : Bool × Tagged × Tagged :=
  if val = expected then (true, desired, expected) else (false, val, val)

end Tagged

/-- A `_Sp_atomic` of shared or weak pointers: `_M_ptr` and `_M_refcount._M_val`. -/
structure SpAtomic where
  kind : Kind
  ptr : Ptr
  val : Tagged
  deriving DecidableEq, Repr

/-- Pointers named by `V` and atomic ones named by `A`. -/
structure World (V A : Type) where
  mem : Mem V
  atomics : A → Option SpAtomic

variable {V A : Type} [DecidableEq V] [DecidableEq A]

/-- A program on the pointers only. -/
def onMem {α : Type} (c : Prog (Mem V) Exn α) : Prog (World V A) Exn α := fun w =>
  let r := c w.mem
  (r.1, { w with mem := r.2 })

def World.emit (es : List Event) (w : World V A) : World V A :=
  { w with mem := { w.mem with heap := w.mem.heap.emit es } }

/-- The atomic object `a`, of pointers of class `k`. -/
def getAtomic (k : Kind) (a : A) : Prog (World V A) Exn SpAtomic := fun w =>
  match w.atomics a with
  | none => (.stop, w)
  | some o => if o.kind = k then (.ok o, w) else (.stop, w)

def World.setAtomic (a : A) (o : Option SpAtomic) (w : World V A) : World V A :=
  { w with atomics := Function.update w.atomics a o }

/-- The members of `a` are assigned to. -/
def putAtomic (a : A) (o : SpAtomic) : Prog (World V A) Exn Unit := Prog.modify (World.setAtomic a (some o))

/-- `a` comes to be. -/
def createAtomic (a : A) (o : SpAtomic) : Prog (World V A) Exn Unit := fun w =>
  match w.atomics a with
  | none => (.ok (), w.setAtomic a (some o))
  | some _ => (.stop, w)

variable (m : Mode)

/-! ## `_Atomic_count` -/

section

variable (k : Kind) (a : A)

/-- `lock()`. No other thread is there to clear the bit, or to change the word
before the compare-exchange. -/
def lock : Prog (World V A) Exn CountPtr := do
  let o ← getAtomic k a
  match m with
  | .constEval => do
    let pi ← Prog.ofOption o.val.toPtr
    Prog.modify (World.emit [.lock])
    pure pi
  | .runTime .. =>
    if o.val.bit then Prog.stop
    else do
      let (ok, val, current) := o.val.compareExchangeStrong o.val o.val.withBit
      if ok then do
        putAtomic a { o with val := val }
        Prog.modify (World.emit [.lock])
        Prog.ofOption current.toPtr
      else Prog.stop

/-- `unlock()`. -/
def unlock : Prog (World V A) Exn Unit :=
  match m with
  | .constEval => Prog.modify (World.emit [.unlock])
  | .runTime .. => do
    let o ← getAtomic k a
    let (ok, val, _) := o.val.compareExchangeStrong o.val o.val.clear
    if ok then do
      putAtomic a { o with val := val }
      Prog.modify (World.emit [.unlock])
    else Prog.stop

/-- `_M_swap_unlock(__c)`, with `__c._M_pi` before it and after. -/
def swapUnlock (pi : CountPtr) : Prog (World V A) Exn CountPtr := do
  let o ← getAtomic k a
  putAtomic a { o with val := .ofPtr pi }
  Prog.modify (World.emit [.unlock])
  match m with
  | .constEval => Prog.ofOption o.val.toPtr
  | .runTime .. => Prog.ofOption o.val.clear.toPtr

/-- `_M_wait_unlock`: constant evaluation does not end, nor does a call that is
not woken. -/
def waitUnlock (wakes : Bool) : Prog (World V A) Exn Unit :=
  match m with
  | .constEval => Prog.stop
  | .runTime .. => do
    unlock m k a
    if wakes then pure () else Prog.stop

/-- `~_Atomic_count()`: at run time it asserts that the bit is clear. -/
def destroyCount : Prog (World V A) Exn Unit := do
  let o ← getAtomic k a
  let pi ← Prog.ofOption o.val.toPtr
  onMem (onHeap (Prog.modify (dropCount m k pi)))

/-! ## `_Sp_atomic` -/

/-- `_Sp_atomic()`. -/
def SpAtomic.defaultCtor : Prog (World V A) Exn Unit := createAtomic a ⟨k, none, .ofPtr none⟩

/-- `_Sp_atomic(value_type __r)`. -/
def SpAtomic.ctor (r : Ref V) : Prog (World V A) Exn Unit := do
  let h ← onMem (get k r)
  createAtomic a ⟨k, h.ptr, .ofPtr h.pi⟩
  onMem (put r { h with pi := none })

/-- `~_Sp_atomic()`. -/
def SpAtomic.dtor : Prog (World V A) Exn Unit := do
  destroyCount m k a
  Prog.modify (World.setAtomic a none)

/-- `load`; the result `__ret` is the object `ret`. -/
def SpAtomic.load (ret : Ref V) : Prog (World V A) Exn Unit := do
  onMem (Seq.defaultCtor k ret)
  let pi ← lock m k a
  let o ← getAtomic k a
  onMem (put ret ⟨k, o.ptr, none⟩)
  -- `_S_add_ref(__pi)`
  let pi ← onMem (onHeap (copyCount m k pi))
  onMem (put ret ⟨k, o.ptr, pi⟩)
  unlock m k a

/-- `swap`. -/
def SpAtomic.swap (r : Ref V) : Prog (World V A) Exn Unit := do
  let _ ← lock m k a
  let o ← getAtomic k a
  let h ← onMem (get k r)
  putAtomic a { o with ptr := h.ptr }
  onMem (put r { h with ptr := o.ptr })
  let pi ← swapUnlock m k a h.pi
  onMem (put r ⟨k, o.ptr, pi⟩)

/-- `compare_exchange_strong`, with `__expected` the object `e` and
`__desired` the object `d`. -/
def SpAtomic.compareExchangeStrong (e d : Ref V) : Prog (World V A) Exn Bool := do
  let pi ← lock m k a
  let o ← getAtomic k a
  let he ← onMem (get k e)
  if o.ptr = he.ptr ∧ pi = he.pi then do
    let hd ← onMem (get k d)
    putAtomic a { o with ptr := hd.ptr }
    let old ← swapUnlock m k a hd.pi
    onMem (put d { hd with pi := old })
    pure true
  else do
    onMem (moveCtor k (.inr .sink) e)
    Prog.atExit
      (do
        onMem (put e ⟨k, o.ptr, none⟩)
        let pi ← onMem (onHeap (copyCount m k pi))
        onMem (put e ⟨k, o.ptr, pi⟩)
        unlock m k a
        pure false)
      fun w => { w with mem := destroyObject m (.inr .sink) w.mem }

/-- `wait`, with `__old` the object `old`. -/
def SpAtomic.wait (old : Ref V) (wakes : Bool) : Prog (World V A) Exn Unit := do
  let pi ← lock m k a
  let o ← getAtomic k a
  let h ← onMem (get k old)
  if o.ptr = h.ptr ∧ pi = h.pi then waitUnlock m k a wakes
  else unlock m k a

end

/-! ## The free functions -/

/-- `body` while a `_Sp_locker` is there. -/
def locker {α : Type} (body : Prog (Mem V) Exn α) : Prog (World V A) Exn α := do
  Prog.modify (World.emit [.lock])
  Prog.atExit (onMem body) (World.emit [.unlock])

/-- The address of a control block, 0 for none. -/
def Heap.address (h : Heap) (pi : CountPtr) : Nat := ((pi.bind h.blocks).bind Block.address).getD 0

/-- `_M_less`. -/
def less (h : Heap) (pi pi' : CountPtr) : Bool := h.address pi < h.address pi'

/-- `atomic_load_explicit`. -/
def atomicLoad (p ret : Ref V) : Prog (World V A) Exn Unit := locker (copyCtor m .shared ret .shared p)

/-- `atomic_store_explicit`, with the parameter `__r` the object `r`. -/
def atomicStore (p r : Ref V) : Prog (World V A) Exn Unit := locker (swap .shared p r)

/-- `atomic_exchange_explicit`; the parameter `__r` is moved into the result. -/
def atomicExchange (p ret r : Ref V) : Prog (World V A) Exn Unit :=
  locker do
    swap .shared p r
    moveCtor .shared ret r

/-- `*__p == *__v && !__less(*__p, *__v) && !__less(*__v, *__p)`. -/
def equivalent (p v : Ref V) : Prog (Mem V) Exn Bool := do
  let hp ← get .shared p
  let hv ← get .shared v
  Prog.read fun s => hp.ptr == hv.ptr && !less s.heap hp.pi hv.pi && !less s.heap hv.pi hp.pi

/-- `atomic_compare_exchange_strong_explicit`, with the parameter `__w` the
object `d`: the local `__x` outlives the lock. -/
def atomicCompareExchangeStrong (p v d : Ref V) : Prog (World V A) Exn Bool := do
  onMem (defaultCtor .shared (.inr .x))
  Prog.atExit
    (locker do
      if ← equivalent p v then do
        moveAssign m .shared (.inr .x) p
        moveAssign m .shared p d
        pure true
      else do
        moveAssign m .shared (.inr .x) v
        copyAssign m .shared v .shared p
        pure false)
    fun w => { w with mem := destroyObject m (.inr .x) w.mem }

/-! ## Calls -/

/-- What a program passes for a parameter taken by value. -/
inductive Arg (V : Type)
  | copy (r : V)
  | move (r : V)
  /-- `nullptr`. -/
  | null
  /-- A shared pointer, for a weak one. -/
  | ofShared (r : V)
  deriving DecidableEq, Repr

/-- The parameter `l` is constructed. -/
def Arg.pass (k : Kind) (l : Local) : Arg V → Prog (Mem V) Exn Unit
  | .copy r => copyCtor m k (.inr l) k (.inl r)
  | .move r => moveCtor k (.inr l) (.inl r)
  | .null => defaultCtor k (.inr l)
  | .ofShared r => copyCtor m k (.inr l) .shared (.inl r)

/-- A call with the parameter `l`, which the caller makes and destroys. -/
def withParam {α : Type} (l : Local) (make : Prog (Mem V) Exn Unit) (body : Prog (World V A) Exn α) :
    Prog (World V A) Exn α := do
  onMem make
  Prog.atExit body fun w => { w with mem := destroyObject m (.inr l) w.mem }

/-- A call to a function with the parameter `l`, or to one that moves its own
parameter into it. -/
def passing {α : Type} (direct : Bool) (l : Local) (k : Kind) (arg : Arg V) (body : Prog (World V A) Exn α) :
    Prog (World V A) Exn α :=
  if direct then withParam m l (arg.pass m k l) body
  else withParam m .outer (arg.pass m k .outer) (withParam m l (moveCtor k (.inr l) (.inr .outer)) body)

/-- Operations on an atomic object `a` of pointers of class `k`, and the free
functions on shared pointers; a new pointer is `ret`. `direct` tells the
functions that take memory orders from those that call them. -/
inductive AtomicOp (V A : Type)
  | default (k : Kind) (a : A)
  | construct (k : Kind) (a : A) (arg : Arg V)
  | destroy (k : Kind) (a : A)
  | load (k : Kind) (a : A) (ret : V)
  /-- `operator value_type()` -/
  | convert (k : Kind) (a : A) (ret : V)
  /-- `store`, and `operator=(nullptr_t)`, which calls it. -/
  | store (k : Kind) (a : A) (desired : Arg V)
  /-- `operator=(value_type)` -/
  | assign (k : Kind) (a : A) (desired : Arg V)
  | exchange (k : Kind) (a : A) (ret : V) (desired : Arg V)
  | compareExchangeStrong (direct : Bool) (k : Kind) (a : A) (expected : V) (desired : Arg V)
  | wait (k : Kind) (a : A) (old : Arg V) (wakes : Bool)
  | atomicLoad (p ret : V)
  | atomicStore (direct : Bool) (p : V) (r : Arg V)
  | atomicExchange (direct : Bool) (p ret : V) (r : Arg V)
  | atomicCompareExchangeStrong (direct : Bool) (p v : V) (w : Arg V)
  deriving DecidableEq, Repr

/-- The members of `atomic<shared_ptr<T>>` are declared `constexpr`; of those of
`atomic<weak_ptr<T>>` the default constructor, the destructor, `load` and
`store`; and of the free functions none. -/
def AtomicOp.isConstexpr : AtomicOp V A → Bool
  | .default .. | .destroy .. | .load .. | .store .. => true
  | .construct k .. | .convert k .. | .assign k .. | .exchange k .. | .compareExchangeStrong _ k .. | .wait k .. =>
    k = .shared
  | .atomicLoad .. | .atomicStore .. | .atomicExchange .. | .atomicCompareExchangeStrong .. => false

/-- What a call does, and what a compare-exchange returns. -/
def AtomicOp.call : AtomicOp V A → Prog (World V A) Exn (Option Bool)
  | .default k a => do
    SpAtomic.defaultCtor k a
    pure none
  | .construct k a arg => do
    passing m false .param k arg (SpAtomic.ctor k a (.inr .param))
    pure none
  | .destroy k a => do
    SpAtomic.dtor m k a
    pure none
  | .load k a ret | .convert k a ret => do
    SpAtomic.load m k a (.inl ret)
    pure none
  | .store k a desired | .assign k a desired => do
    passing m true .param k desired (SpAtomic.swap m k a (.inr .param))
    pure none
  | .exchange k a ret desired => do
    passing m true .param k desired do
      SpAtomic.swap m k a (.inr .param)
      onMem (moveCtor k (.inl ret) (.inr .param))
    pure none
  | .compareExchangeStrong direct k a expected desired => do
    -- `__desired` is passed on by value, not moved
    let r ← passing m direct .desired k desired
      (withParam m .param (copyCtor m k (.inr .param) k (.inr .desired))
        (SpAtomic.compareExchangeStrong m k a (.inl expected) (.inr .param)))
    pure (some r)
  | .wait k a old wakes => do
    passing m false .param k old (SpAtomic.wait m k a (.inr .param) wakes)
    pure none
  | .atomicLoad p ret => do
    Seq.atomicLoad m (.inl p) (.inl ret)
    pure none
  | .atomicStore direct p r => do
    passing m direct .param .shared r (Seq.atomicStore (.inl p) (.inr .param))
    pure none
  | .atomicExchange direct p ret r => do
    passing m direct .param .shared r (Seq.atomicExchange (.inl p) (.inl ret) (.inr .param))
    pure none
  | .atomicCompareExchangeStrong direct p v w => do
    let r ← passing m direct .param .shared w
      (Seq.atomicCompareExchangeStrong m (.inl p) (.inl v) (.inr .param))
    pure (some r)

/-- A call, which constant evaluation can make or not. -/
def AtomicOp.exec (op : AtomicOp V A) : Prog (World V A) Exn (Option Bool) := ifConstexpr m op.isConstexpr (op.call m)

end SharedPtr.Seq
