/-
One control block and the threads that own handles to it: the machine of
`_Sp_counted_base` (`bits/shared_ptr_base.h`), for each lock policy.

Every exchange-and-add, load, compare-exchange and plain store on a counter
is one step, and so is each call to and return from `_M_dispose`. What a
thread does to its own handles happens with the counter access before it or
after it: nobody else can see it. Work a function still has to do is a list
of instructions (`Thread.todo`), the next one first; a step runs the next one,
which may put more in front. While `_M_dispose` runs (`Instr.disposeReturn` is
next) the thread is in user code and may start operations on handles it owns.

A handle holds this block's address or anything else (null, or a block whose
counters are not modelled here): `Pi`. A handle that an operation converts or assigns
to is taken from the thread's handles until the operation is done with it.

A step that reaches `__builtin_trap` has no next state.
-/
import SharedPtr.Atomicity

namespace SharedPtr

/-- `_Lock_policy`; for `_S_atomic`, whether `_M_release` has the double-word
check (it is compiled out when `constexpr_memory` is on). -/
inductive LockPolicy
  | single
  | mutex
  | atomic (doubleWord : Bool)
  deriving DecidableEq, Repr

/-- Shared handles (`__shared_count`) and weak handles (`__weak_count`). -/
inductive Kind
  | shared
  | weak
  deriving DecidableEq, Repr

/-- A handle's `_M_pi`: this block, or null or another block. -/
inductive Pi
  | self
  | other
  deriving DecidableEq, Repr

/-- The control block: its two counters, its mutex (`_S_mutex` only), and how
often its virtual functions were called. -/
structure CountedBase where
  useCount : AtomicWord
  weakCount : AtomicWord
  locked : Bool
  disposeCalls : Nat
  disposeReturns : Nat
  destroyCalls : Nat
  deriving DecidableEq, Repr

/-- `_Sp_counted_base()`. -/
def CountedBase.new : CountedBase := ⟨1, 1, false, 0, 0, 0⟩

namespace CountedBase

/-- `_M_add_ref_copy`. -/
def addRefCopy (b : CountedBase) : Option CountedBase := do
  let (old, new) := exchangeAndAdd b.useCount 1
  chk true old
  some { b with useCount := new }

/-- `_M_weak_add_ref`. -/
def weakAddRef (b : CountedBase) : Option CountedBase :=
  let (old, new) := exchangeAndAdd b.weakCount 1
  if old = -1 then none else some { b with weakCount := new }

/-- `if (_M_pi != nullptr) _M_pi->_M_add_ref_copy();`, and the same with
`_M_weak_add_ref` for a weak handle. -/
def addRef (b : CountedBase) : Kind → Pi → Option CountedBase
  | _, .other => some b
  | .shared, .self => b.addRefCopy
  | .weak, .self => b.weakAddRef

theorem addRefCopy_eq_some {b b' : CountedBase} :
    b.addRefCopy = some b' ↔ b.useCount ≠ -1 ∧ b' = { b with useCount := b.useCount + 1 } := by
  simp only [addRefCopy, exchangeAndAdd, Option.bind_eq_bind, Option.bind_eq_some_iff, chk_eq_some,
    Option.some.injEq, exists_const, @eq_comm _ _ b']

theorem weakAddRef_eq_some {b b' : CountedBase} :
    b.weakAddRef = some b' ↔ b.weakCount ≠ -1 ∧ b' = { b with weakCount := b.weakCount + 1 } := by
  by_cases h : b.weakCount = -1
  · have hn : b.weakAddRef = none := if_pos h
    simp [hn, h]
  · have hs : b.weakAddRef = some { b with weakCount := b.weakCount + 1 } := if_neg h
    simp only [hs, Option.some.injEq, ne_eq, h, not_false_eq_true, true_and, @eq_comm _ _ b']

end CountedBase

/-- The steps still to do, as the functions' bodies have them.
`lock*` are the steps of `_M_add_ref_lock_nothrow` on the weak handle `r`
(taken), for the `nothrow` or the throwing constructor of `p`. -/
inductive Instr
  /-- `_M_pi = __tmp`. -/
  | set (k : Kind) (p : Nat) (tmp : Pi)
  /-- `_M_release` or `_M_weak_release`, about to begin. -/
  | release (k : Kind)
  /-- `__exchange_and_add_dispatch(&_M_use_count, -1)`. -/
  | decUse
  /-- `_M_weak_count = _M_use_count = 0`, first store. -/
  | zeroUse
  | zeroWeak
  /-- `_M_dispose()` is called, from the double-word branch (`sole`) or not. -/
  | dispose (sole : Bool)
  /-- `_M_dispose()` is running. -/
  | disposeReturn (sole : Bool)
  /-- The weak reference that all shared handles hold together, given up. -/
  | decWeakLast
  | destroy
  /-- `_S_atomic`: the compare-exchange, after the test `__count == 0` failed. -/
  | lockCas (r p : Nat) (nothrow : Bool) (count : { c : AtomicWord // c ≠ 0 })
  /-- `_S_mutex`: the mutex is held, the increment comes next. -/
  | lockAdd (r p : Nat) (nothrow : Bool)
  /-- `_S_mutex`: the increment found zero; `_M_use_count = 0` comes next. -/
  | lockUndo (r p : Nat) (nothrow : Bool)
  /-- `_S_mutex`: `~__scoped_lock`, then return. -/
  | lockUnlock (r p : Nat) (nothrow : Bool) (ok : Bool)
  /-- `__shared_ptr(const __weak_ptr&, nothrow_t)`: the use count is read
  once more to choose the stored pointer. -/
  | lockGet (r p : Nat)
  deriving DecidableEq

/-- The handles a thread owns, each under a number that names it (a handle
being read or assigned to by an operation is not among them), and the work it
has begun. -/
structure Thread where
  handles : Kind → List (Nat × Pi)
  todo : List Instr

namespace Thread

/-- What the handle named `p` holds. -/
def slot (th : Thread) (k : Kind) (p : Nat) : Option Pi := (th.handles k).lookup p

/-- The handle named `p` is taken. -/
def take (th : Thread) (k : Kind) (p : Nat) : Thread :=
  { th with handles := Function.update th.handles k ((th.handles k).eraseP fun h => h.1 == p) }

/-- A handle named `p`, new or back from an operation. -/
def put (th : Thread) (k : Kind) (p : Nat) (pi : Pi) : Thread :=
  { th with handles := Function.update th.handles k ((p, pi) :: th.handles k) }

/-- `_M_pi = pi` on the handle named `p`. -/
def assign (th : Thread) (k : Kind) (p : Nat) (pi : Pi) : Thread := (th.take k p).put k p pi

theorem lookup_eraseP_ne {hs : List (Nat × Pi)} {p q : Nat} (h : p ≠ q) :
    (hs.eraseP fun h => h.1 == q).lookup p = hs.lookup p := by
  induction hs with
  | nil => rfl
  | cons x hs ih =>
    obtain ⟨r, x⟩ := x
    by_cases hr : r = q
    · subst hr
      rw [List.eraseP_cons_of_pos (by simp), List.lookup_cons, beq_false_of_ne h]
    · rw [List.eraseP_cons_of_neg (by simpa using hr), List.lookup_cons, List.lookup_cons, ih]

/-- Assigning to a handle leaves the others. -/
theorem slot_assign (th : Thread) (k : Kind) {p q : Nat} (pi : Pi) (h : p ≠ q) :
    (th.assign k q pi).slot k p = th.slot k p := by
  simp [slot, assign, put, take, List.lookup_cons, beq_false_of_ne h, lookup_eraseP_ne h]

def push (th : Thread) (is : List Instr) : Thread := { th with todo := is ++ th.todo }

/-- `if (_M_pi != nullptr) _M_pi->_M_release();` for a handle already taken. -/
def drop (th : Thread) (k : Kind) : Pi → Thread
  | .other => th
  | .self => th.push [.release k]

/-- The end of `operator=`: `if (_M_pi != nullptr) _M_pi->_M_release(); _M_pi = __tmp;` -/
def releaseThenSet (th : Thread) (k : Kind) (p : Nat) (pi tmp : Pi) : Thread :=
  match pi with
  | .other => th.assign k p tmp
  | .self => (th.take k p).push [.release k, .set k p tmp]

/-- Between operations, or in user code called from `_M_dispose`. -/
def canBegin (th : Thread) : Bool :=
  match th.todo with
  | [] => true
  | .disposeReturn _ :: _ => true
  | _ => false

/-- The conversion of the weak handle `r` fails: `p` is an empty shared
handle, or an exception is thrown and there is no `p`. -/
def lockFails (th : Thread) (r p : Nat) (nothrow : Bool) : Thread :=
  let th := th.put .weak r .self
  if nothrow then th.put .shared p .other else th

/-- It succeeds: `p` owns the reference, at once or after the use count was
read again. -/
def lockSucceeds (th : Thread) (r p : Nat) (nothrow : Bool) : Thread :=
  if nothrow then th.push [.lockGet r p] else (th.put .weak r .self).put .shared p .self

end Thread

/-- The operations on handles. `p`, `q` and `r` name handles of the acting
thread; a new handle is `p`. -/
inductive Op
  /-- A handle that is empty or owns another block. -/
  | make (k : Kind) (p : Nat)
  /-- Copy construction, the aliasing one included. -/
  | copyShared (r p : Nat)
  | weakFromShared (r p : Nat)
  | copyWeak (r p : Nat)
  /-- Move construction, the aliasing one included. -/
  | move (k : Kind) (r p : Nat)
  | assignShared (p r : Nat)
  | assignWeakShared (p r : Nat)
  | assignWeak (p r : Nat)
  | moveAssign (k : Kind) (p r : Nat)
  /-- The converting move assignment of weak handles, `__weak_count::operator=(__weak_count&&)`. -/
  | moveAssignConv (p r : Nat)
  | swap (k : Kind) (p q : Nat)
  | reset (k : Kind) (p : Nat)
  | destroy (k : Kind) (p : Nat)
  /-- `weak_ptr::lock()` (`nothrow`) and `shared_ptr(weak_ptr)`. -/
  | convert (nothrow : Bool) (r p : Nat)
  /-- `use_count()` and `expired()`. -/
  | useCount (k : Kind) (r : Nat)
  deriving DecidableEq

/-- `_M_add_ref_lock_nothrow` up to its first access, for each policy. The
policy without threads runs it whole: no step can come between. -/
def addRefLockNothrow (lp : LockPolicy) (b : CountedBase) (th : Thread) (r p : Nat) (nothrow : Bool) :
    Option (CountedBase × Thread) :=
  match lp with
  | .single =>
    if b.useCount = 0 then some (b, th.lockFails r p nothrow)
    else b.addRefCopy.map fun b => (b, th.lockSucceeds r p nothrow)
  | .mutex => if b.locked then none else some ({ b with locked := true }, th.push [.lockAdd r p nothrow])
  | .atomic _ =>
    if h : b.useCount = 0 then some (b, th.lockFails r p nothrow)
    else some (b, th.push [.lockCas r p nothrow ⟨b.useCount, h⟩])

/-- An operation up to its first access to the block. -/
def begin (lp : LockPolicy) (b : CountedBase) (th : Thread) : Op → Option (CountedBase × Thread)
  | .make k p => some (b, th.put k p .other)
  | .copyShared r p => do
    let pi ← th.slot .shared r
    let b ← b.addRef .shared pi
    some (b, th.put .shared p pi)
  | .weakFromShared r p => do
    let pi ← th.slot .shared r
    let b ← b.addRef .weak pi
    some (b, th.put .weak p pi)
  | .copyWeak r p => do
    let pi ← th.slot .weak r
    let b ← b.addRef .weak pi
    some (b, th.put .weak p pi)
  | .move k r p => do
    let pi ← th.slot k r
    some (b, (th.assign k r .other).put k p pi)
  | .assignShared p r => do
    let tmp ← th.slot .shared r
    let pi ← th.slot .shared p
    -- `if (__tmp != _M_pi)`; two different other blocks are nothing to this one
    if tmp = pi then some (b, th) else
    let b ← b.addRef .shared tmp
    some (b, th.releaseThenSet .shared p pi tmp)
  | .assignWeakShared p r => do
    let tmp ← th.slot .shared r
    let pi ← th.slot .weak p
    let b ← b.addRef .weak tmp
    some (b, th.releaseThenSet .weak p pi tmp)
  | .assignWeak p r => do
    let tmp ← th.slot .weak r
    let pi ← th.slot .weak p
    let b ← b.addRef .weak tmp
    some (b, th.releaseThenSet .weak p pi tmp)
  | .moveAssign k p r => do
    -- `__shared_ptr(std::move(__r)).swap(*this)`, then the temporary goes
    let tmp ← th.slot k r
    let th := th.assign k r .other
    let pi ← th.slot k p
    some (b, (th.assign k p tmp).drop k pi)
  | .moveAssignConv p r => do
    let tmp ← th.slot .weak r
    let th := th.assign .weak r .other
    let pi ← th.slot .weak p
    some (b, th.releaseThenSet .weak p pi tmp)
  | .swap k p q => do
    -- `__tmp = __r._M_pi; __r._M_pi = _M_pi; _M_pi = __tmp;`
    let tmp ← th.slot k q
    let pi ← th.slot k p
    some (b, (th.assign k q pi).assign k p tmp)
  | .reset k p => do
    let pi ← th.slot k p
    some (b, (th.assign k p .other).drop k pi)
  | .destroy k p => do
    let pi ← th.slot k p
    some (b, (th.take k p).drop k pi)
  | .convert nothrow r p =>
    match th.slot .weak r with
    | none => none
    | some .other => some (b, if nothrow then th.put .shared p .other else th)
    | some .self => addRefLockNothrow lp b (th.take .weak r) r p nothrow
  | .useCount k r => (th.slot k r).map fun _ => (b, th)

/-- The next instruction. `spurious`: a weak compare-exchange fails though
it finds the value it expects. -/
def exec (lp : LockPolicy) (b : CountedBase) (th : Thread) (spurious : Bool) :
    Instr → Option (CountedBase × Thread)
  | .set k p tmp => some (b, th.put k p tmp)
  | .release .shared =>
    if lp = .atomic true ∧ b.useCount = 1 ∧ b.weakCount = 1 then some (b, th.push [.zeroUse])
    else some (b, th.push [.decUse])
  | .decUse =>
    let (old, new) := exchangeAndAdd b.useCount (-1)
    some ({ b with useCount := new }, if old = 1 then th.push [.dispose false] else th)
  | .zeroUse => some ({ b with useCount := 0 }, th.push [.zeroWeak])
  | .zeroWeak => some ({ b with weakCount := 0 }, th.push [.dispose true])
  | .dispose sole => some ({ b with disposeCalls := b.disposeCalls + 1 }, th.push [.disposeReturn sole])
  | .disposeReturn sole =>
    some ({ b with disposeReturns := b.disposeReturns + 1 },
      th.push [if sole then .destroy else .decWeakLast])
  | .decWeakLast | .release .weak =>
    let (old, new) := exchangeAndAdd b.weakCount (-1)
    some ({ b with weakCount := new }, if old = 1 then th.push [.destroy] else th)
  | .destroy => some ({ b with destroyCalls := b.destroyCalls + 1 }, th)
  | .lockCas r p nothrow count =>
    if b.useCount = count.val ∧ spurious = false then do
      chk true count.val
      some ({ b with useCount := count.val + 1 }, th.lockSucceeds r p nothrow)
    else if h : b.useCount = 0 then some (b, th.lockFails r p nothrow)
    else some (b, th.push [.lockCas r p nothrow ⟨b.useCount, h⟩])
  | .lockAdd r p nothrow => do
    let (old, new) := exchangeAndAdd b.useCount 1
    let b := { b with useCount := new }
    if old ≠ 0 then
      chk true old
      some (b, th.push [.lockUnlock r p nothrow true])
    else some (b, th.push [.lockUndo r p nothrow])
  | .lockUndo r p nothrow => some ({ b with useCount := 0 }, th.push [.lockUnlock r p nothrow false])
  | .lockUnlock r p nothrow ok =>
    some ({ b with locked := false }, if ok then th.lockSucceeds r p nothrow else th.lockFails r p nothrow)
  | .lockGet r p => some (b, (th.put .weak r .self).put .shared p .self)

theorem exec_decUse (lp : LockPolicy) (b : CountedBase) (th : Thread) (spurious : Bool) :
    exec lp b th spurious .decUse =
      some ({ b with useCount := b.useCount + -1 }, if b.useCount = 1 then th.push [.dispose false] else th) := rfl

theorem exec_decWeakLast (lp : LockPolicy) (b : CountedBase) (th : Thread) (spurious : Bool) :
    exec lp b th spurious .decWeakLast =
      some ({ b with weakCount := b.weakCount + -1 }, if b.weakCount = 1 then th.push [.destroy] else th) := rfl

theorem exec_lockAdd (lp : LockPolicy) (b : CountedBase) (th : Thread) (spurious : Bool) (r p : Nat)
    (nothrow : Bool) :
    exec lp b th spurious (.lockAdd r p nothrow) =
      if b.useCount ≠ 0 then
        (chk true b.useCount).map fun _ =>
          ({ b with useCount := b.useCount + 1 }, th.push [.lockUnlock r p nothrow true])
      else some ({ b with useCount := b.useCount + 1 }, th.push [.lockUndo r p nothrow]) := by
  simp only [exec, exchangeAndAdd]
  cases chk true b.useCount <;> rfl

/-- What a thread may do next. -/
inductive Act (ι : Type)
  | begin (op : Op)
  /-- Hand the handle `p` over to a thread, where it is `q`. -/
  | pass (k : Kind) (p : Nat) (dest : ι) (q : Nat)
  | run (spurious : Bool)

structure Label (ι : Type) where
  thread : ι
  act : Act ι

/-- The block and the threads. -/
structure State (ι : Type) where
  block : CountedBase
  thr : ι → Thread

variable {ι : Type} [DecidableEq ι]

/-- Thread `t` changes. -/
def State.set (s : State ι) (t : ι) (x : CountedBase × Thread) : State ι :=
  { block := x.1, thr := Function.update s.thr t x.2 }

def step (lp : LockPolicy) (s : State ι) (l : Label ι) : Option (State ι) :=
  let th := s.thr l.thread
  match l.act with
  | .begin op => if th.canBegin then (begin lp s.block th op).map (s.set l.thread) else none
  | .pass k p dest q =>
    if th.canBegin then do
      let pi ← th.slot k p
      let s := s.set l.thread (s.block, th.take k p)
      some (s.set dest (s.block, (s.thr dest).put k q pi))
    else none
  | .run spurious =>
    match th.todo with
    | [] => none
    | i :: rest => (exec lp s.block { th with todo := rest } spurious i).map (s.set l.thread)

/-- The block just built, its one shared handle owned by thread `t`. -/
def State.init (t : ι) : State ι where
  block := CountedBase.new
  thr u := { handles := fun k => if u = t ∧ k = .shared then [(0, .self)] else [], todo := [] }

end SharedPtr
