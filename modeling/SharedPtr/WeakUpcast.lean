/-
Converting a `weak_ptr<_Yp>` to a `weak_ptr<_Tp>` (`__weak_ptr::_S_safe_upcast`
and its callers, `bits/shared_ptr_base.h`), while other threads may drop the
last owner at any step. Over the machine of the control block each handle has
its stored pointer, `_M_ptr`. The conversion of the pointer and that of the
reference are two steps; where the object has to be read for the first, there
are the steps of `lock()` before it and those of dropping the temporary after.

Beside its stored pointer each handle has the one it ought to have (`refers`):
what it was made with, and after a conversion the address of the base class
part of what the source had when the conversion began. No step looks at it.

A name is used for one handle at a time, and one that an operation or a
conversion works on is in use. The handles of other blocks have pointers that
are not followed: they are as empty ones here.
-/
import SharedPtr.AddRefLock
import SharedPtr.Expiry

namespace SharedPtr.Upcast

open Lib

/-- `element_type*`: null or an address. -/
abbrev Ptr := Option Nat

/-! ## Pointers -/

/-- How a `_Yp*` becomes a `_Tp*`. -/
inductive DerivedToBase
  | same
  | scalar
  /-- A base class with its part at a fixed place. -/
  | base (offset : Nat)
  /-- A virtual base class. Its place is found in the object; `dead` is what is found when there is no object. -/
  | virtualBase (place dead : Nat → Nat)

namespace DerivedToBase

/-- The address of the base class part. -/
def address : DerivedToBase → Nat → Nat
  | same, q | scalar, q => q
  | base offset, q => q + offset
  | virtualBase place _, q => place q

/-- The implicit conversion. -/
def cast (alive : Bool) : DerivedToBase → Nat → Nat
  | virtualBase place dead, q => if alive then place q else dead q
  | rel, q => rel.address q

/-- Whether it reads the object. -/
def reads : DerivedToBase → Bool
  | virtualBase .. => true
  | _ => false

/-- Whether `_S_safe_upcast` does without `lock()`. `hasTrait`: `_GLIBCXX_USE_BUILTIN_TRAIT(__builtin_is_virtual_base_of)`. -/
def direct (hasTrait : Bool) : DerivedToBase → Bool
  | same | scalar => true
  | base _ => hasTrait
  | virtualBase .. => false

end DerivedToBase

/-- A handle's stored pointer, and the one it ought to have. -/
structure Stored where
  ptr : Ptr
  refers : Ptr
  deriving DecidableEq, Repr

def Stored.null : Stored := ⟨none, none⟩

/-- The stored pointers of a thread's handles, by their names. -/
abbrev Ptrs := Kind → Nat → Stored

namespace Ptrs

def put (m : Ptrs) (k : Kind) (p : Nat) (st : Stored) : Ptrs :=
  fun k' p' => if k' = k ∧ p' = p then st else m k' p'

/-- What is stored when a shared handle is aliased, or its pointer converted: `given`, if it is. -/
def source (m : Ptrs) (k : Kind) (r : Nat) (given : Option Ptr) : Stored :=
  match k, given with
  | .shared, some q => ⟨q, q⟩
  | _, _ => m k r

/-- A conversion to the shared handle `p` fails: `p` is empty, or there is no `p`. -/
def lockFails (m : Ptrs) (p : Nat) (nothrow : Bool) : Ptrs := if nothrow then m.put .shared p .null else m

/-- It succeeds. With `nothrow` the pointer is not yet stored. -/
def lockSucceeds (m : Ptrs) (r p : Nat) (nothrow : Bool) : Ptrs :=
  if nothrow then m else m.put .shared p (m .weak r)

/-- What `_M_add_ref_lock_nothrow` does up to its first access, as far as it ends there. -/
def addRefLockNothrow (m : Ptrs) (lp : LockPolicy) (b : CountedBase) (r p : Nat) (nothrow : Bool) : Ptrs :=
  match lp with
  | .single => if b.useCount = 0 then m.lockFails p nothrow else m.lockSucceeds r p nothrow
  | .mutex => m
  | .atomic _ => if b.useCount = 0 then m.lockFails p nothrow else m

/-- What an operation of a thread stores. An assignment stores the pointer first. -/
def begin (m : Ptrs) (lp : LockPolicy) (b : CountedBase) (th : Thread) (given : Option Ptr) : Op → Ptrs
  | .make k p | .reset k p => m.put k p .null
  | .copyShared r p | .assignShared p r => m.put .shared p (m.source .shared r given)
  | .weakFromShared r p | .assignWeakShared p r => m.put .weak p (m.source .shared r given)
  | .copyWeak r p | .assignWeak p r => m.put .weak p (m .weak r)
  | .move k r p | .moveAssign k p r => (m.put k r .null).put k p (m.source k r given)
  | .swap k p q => (m.put k q (m k p)).put k p (m k q)
  | .convert nothrow r p =>
    match th.slot .weak r with
    | some .self => m.addRefLockNothrow lp b r p nothrow
    | _ => m.lockFails p nothrow
  | .moveAssignConv .. | .destroy .. | .useCount .. => m

/-- What an instruction stores. -/
def exec (m : Ptrs) (b : CountedBase) (spurious : Bool) : Instr → Ptrs
  | .lockCas r p nothrow count =>
    if b.useCount = count.val ∧ spurious = false then m.lockSucceeds r p nothrow
    else if b.useCount = 0 then m.lockFails p nothrow
    else m
  | .lockUnlock r p nothrow ok => if ok then m.lockSucceeds r p nothrow else m.lockFails p nothrow
  -- `_M_ptr = _M_refcount._M_get_use_count() ? __r._M_ptr : nullptr;`
  | .lockGet r p => m.put .shared p ⟨if b.useCount ≠ 0 then (m .weak r).ptr else none, (m .weak r).refers⟩
  | _ => m

end Ptrs

/-! ## Conversions -/

/-- The callers of `_S_safe_upcast`. -/
inductive Form
  | copyConstruct
  | moveConstruct
  | copyAssign
  | moveAssign
  deriving DecidableEq, Repr

/-- What a form does to the references, from `r` to `p`. -/
def Form.op (r p : Nat) : Form → Op
  | copyConstruct => .copyWeak r p
  | moveConstruct => .move .weak r p
  | copyAssign => .assignWeak p r
  | moveAssign => .moveAssignConv p r

def Form.constructs : Form → Bool
  | copyConstruct | moveConstruct => true
  | copyAssign | moveAssign => false

/-- `__r._M_ptr = nullptr;` comes at the end. -/
def Form.moves : Form → Bool
  | moveConstruct | moveAssign => true
  | copyConstruct | copyAssign => false

/-- A conversion of the weak handle `r` to `p`; `tmp` is the temporary of `__r.lock().get()`. -/
structure Conversion where
  rel : DerivedToBase
  form : Form
  r : Nat
  p : Nat
  tmp : Nat

inductive Stage
  /-- `__r.lock()`. -/
  | locking
  /-- The pointer is converted; the temporary goes. -/
  | dropping (v : Ptr)

/-- A conversion that has begun, by way of `lock()`. -/
structure Frame extends Conversion where
  /-- The instructions the thread had to do when it began. -/
  depth : Nat
  stage : Stage
  /-- Whether `r` then held this block, and the base class part of what it referred to. -/
  own : Bool
  goal : Ptr

/-! ## The machine -/

structure PtrState (ι : Type) where
  base : State ι
  stored : ι → Ptrs
  /-- The conversions a thread is in, the innermost first. -/
  upcasts : ι → List Frame

inductive PtrLabel (ι : Type)
  /-- A step that is no conversion; `given` for a shared handle that is aliased or converted. -/
  | plain (l : Label ι) (given : Option Ptr)
  /-- A conversion begins. -/
  | upcast (t : ι) (c : Conversion)
  /-- The innermost conversion goes on, when `lock()` has returned or the temporary is gone. -/
  | advance (t : ι)

/-- The handles an instruction has in hand or is to make. -/
def Instr.names : Instr → List (Kind × Nat)
  | .set k p _ => [(k, p)]
  | .lockCas r p _ _ | .lockAdd r p _ | .lockUndo r p _ | .lockUnlock r p _ _ | .lockGet r p => [(.weak, r), (.shared, p)]
  | _ => []

/-- The handles a conversion works on. -/
def Conversion.names (c : Conversion) : List (Kind × Nat) := [(.weak, c.r), (.weak, c.p), (.shared, c.tmp)]

/-- The new handle of an operation. -/
def Op.new : Op → Option (Kind × Nat)
  | .make k p | .move k _ p => some (k, p)
  | .copyShared _ p | .convert _ _ p => some (.shared, p)
  | .weakFromShared _ p | .copyWeak _ p => some (.weak, p)
  | _ => none

/-- The operation is one only conversions do. -/
def Op.converts : Op → Bool
  | .moveAssignConv .. => true
  | _ => false

variable {ι : Type}

namespace PtrState

variable (s : PtrState ι)

/-- The name is in use in thread `t`. -/
def Uses (t : ι) (n : Kind × Nat) : Prop :=
  ((s.base.thr t).slot n.1 n.2).isSome ∨ (∃ i ∈ (s.base.thr t).todo, n ∈ Instr.names i) ∨
    ∃ f ∈ s.upcasts t, n ∈ f.toConversion.names

instance (t : ι) (n : Kind × Nat) : Decidable (s.Uses t n) := inferInstanceAs (Decidable (_ ∨ _ ∨ _))

/-- Thread `t` does not have to go on with its innermost conversion. -/
def Ready (t : ι) : Prop := ∀ f ∈ (s.upcasts t).head?, (s.base.thr t).todo.length ≠ f.depth

instance (t : ι) : Decidable (s.Ready t) := inferInstanceAs (Decidable (∀ f ∈ (s.upcasts t).head?, _ ≠ f.depth))

/-- The label is no conversion, and the handle it makes has a name of its own. -/
def Admits : Label ι → Prop
  | ⟨t, .begin op⟩ => Op.converts op = false ∧ ∀ n ∈ Op.new op, ¬ s.Uses t n
  | ⟨_, .pass k _ dest q⟩ => ¬ s.Uses dest (k, q)
  | ⟨_, .run _⟩ => True

instance : DecidablePred s.Admits
  | ⟨_, .begin _⟩ => inferInstanceAs (Decidable (_ ∧ _))
  | ⟨_, .pass ..⟩ => inferInstanceAs (Decidable (¬ _))
  | ⟨_, .run _⟩ => .isTrue trivial

variable [DecidableEq ι]

/-- The pointers after a step of the block's machine. -/
def plainStored (lp : LockPolicy) (l : Label ι) (given : Option Ptr) : ι → Ptrs :=
  let t := l.thread
  match l.act with
  | .begin op => Function.update s.stored t ((s.stored t).begin lp s.base.block (s.base.thr t) given op)
  | .pass k p dest q => Function.update s.stored dest ((s.stored dest).put k q (s.stored t k p))
  | .run spurious =>
    match (s.base.thr t).todo with
    | [] => s.stored
    | i :: _ => Function.update s.stored t ((s.stored t).exec s.base.block spurious i)

/-- `_M_ptr(v), _M_refcount(__r._M_refcount)`, or the same by assignments or with a move. -/
def finish (lp : LockPolicy) (t : ι) (c : Conversion) (v : Ptr) (own : Bool) (goal : Ptr) (rest : List Frame) :
    Option (PtrState ι) :=
  let m := if c.form.moves then (s.stored t).put .weak c.r .null else s.stored t
  (step lp s.base ⟨t, .begin (c.form.op c.r c.p)⟩).map fun b =>
    { base := b
      stored := Function.update s.stored t (m.put .weak c.p ⟨v, if own then goal else v⟩)
      upcasts := Function.update s.upcasts t rest }

/-- `__r.lock()` begins. -/
def beginLock (lp : LockPolicy) (t : ι) (f : Frame) : Option (PtrState ι) :=
  let op : Op := .convert true f.r f.tmp
  (step lp s.base ⟨t, .begin op⟩).map fun b =>
    { base := b
      stored := Function.update s.stored t ((s.stored t).begin lp s.base.block (s.base.thr t) none op)
      upcasts := Function.update s.upcasts t (f :: s.upcasts t) }

/-- `.get()` is converted, and the temporary is destroyed. -/
def dropTmp (lp : LockPolicy) (t : ι) (f : Frame) (rest : List Frame) : Option (PtrState ι) :=
  let v := (s.stored t .shared f.tmp).ptr.map (f.rel.cast (s.base.block.disposeCalls = 0))
  (step lp s.base ⟨t, .begin (.destroy .shared f.tmp)⟩).map fun b =>
    { base := b
      stored := s.stored
      upcasts := Function.update s.upcasts t ({ f with stage := .dropping v } :: rest) }

end PtrState

variable [DecidableEq ι]

/-- `_S_safe_upcast`, where it does not need `lock()` or with it, and what is around it. -/
def ptrStep (lp : LockPolicy) (hasTrait : Bool) (s : PtrState ι) : PtrLabel ι → Option (PtrState ι)
  | .plain l given =>
    if s.Ready l.thread ∧ s.Admits l then
      (step lp s.base l).map fun b => { s with base := b, stored := s.plainStored lp l given }
    else none
  | .upcast t c =>
    let st := s.stored t .weak c.r
    let own : Bool := (s.base.thr t).slot .weak c.r = some .self
    let goal := st.refers.map c.rel.address
    if s.Ready t ∧ c.r ≠ c.p ∧ (c.form.constructs → ¬ s.Uses t (.weak, c.p)) then
      if c.rel.direct hasTrait then
        s.finish lp t c (st.ptr.map (c.rel.cast (s.base.block.disposeCalls = 0))) own goal (s.upcasts t)
      else if s.Uses t (.shared, c.tmp) then none
      else s.beginLock lp t ⟨c, (s.base.thr t).todo.length, .locking, own, goal⟩
    else none
  | .advance t =>
    match s.upcasts t with
    | [] => none
    | f :: rest =>
      if (s.base.thr t).todo.length = f.depth then
        match f.stage with
        | .locking => s.dropTmp lp t f rest
        | .dropping v => s.finish lp t f.toConversion v f.own f.goal rest
      else none

/-- The block just built; the stored pointer of its one handle is `q`. -/
def PtrState.init (t : ι) (q : Ptr) : PtrState ι where
  base := State.init t
  stored u k p := if u = t ∧ k = .shared ∧ p = 0 then ⟨q, q⟩ else .null
  upcasts _ := []

end SharedPtr.Upcast
