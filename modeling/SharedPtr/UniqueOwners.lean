/-
Any number of `unique_ptr` objects (`bits/unique_ptr.h`), with what each of
their operations does to the pointer and to the deleter, in the order of the
code: an assignment releases the pointer of its source, resets its target to
it, and only then assigns the deleter.

Objects are of different types. A pointer is the object it points to, so the
conversions of pointers are not seen; a conversion of deleters is a function.
Deleters do nothing but get called.
-/
import Mathlib.Logic.Equiv.Basic
import SharedPtr.Heap
import SharedPtr.Lib.Run

namespace SharedPtr.Unique

open SharedPtr.Seq (Ptr)
open Lib (outputs)

/-! ## Objects -/

/-- A `_Dp`: an object of a deleter type in the `unique_ptr`, or a reference to a deleter of the program. -/
inductive Deleter (D L : Type*)
  | value (d : D)
  | ref (l : L)
  deriving DecidableEq, Repr

/-- `tuple<pointer, _Dp> _M_t`. -/
structure UniqPtr (D L : Type*) where
  ptr : Ptr
  deleter : Deleter D L
  deriving DecidableEq, Repr

/-- What is left of a deleter that was moved from, and what one is that was moved to itself. -/
structure DeleterMoves (D : Type*) where
  movedFrom : D → D
  selfMoved : D → D

inductive Event (D L : Type*)
  /-- `_M_deleter()(__p)`; `v` is what the deleter is then, also behind a reference. -/
  | call (d : Deleter D L) (v : D) (p : Ptr)
  /-- What `release()` returns. -/
  | release (p : Ptr)
  deriving DecidableEq, Repr

/-- The events of `if (__p) _M_deleter()(__p)`. -/
def calls {D L : Type*} (d : Deleter D L) (v : D) (p : Ptr) : List (Event D L) :=
  p.toList.map fun q => .call d v (some q)

/-- The pointer that an event gives away. -/
def Event.ptr {D L : Type*} : Event D L → Ptr
  | call _ _ p => p
  | release p => p

/-- The objects there are, the deleters of the program that some of them refer to, and what happened so far. -/
structure World (X D L : Type*) where
  objects : X → Option (UniqPtr D L)
  referents : L → D
  log : List (Event D L)

variable {X D L : Type*}

/-- The program starts without a `unique_ptr`. -/
def World.init (referents : L → D) : World X D L := ⟨fun _ => none, referents, []⟩

namespace World

/-- `_M_ptr()`. -/
def ptr (w : World X D L) (x : X) : Ptr := (w.objects x).bind UniqPtr.ptr

/-- `_M_deleter()`. -/
def deleter (w : World X D L) (x : X) : Option (Deleter D L) := (w.objects x).map UniqPtr.deleter

/-- The deleter itself, also behind a reference. -/
def read (w : World X D L) : Deleter D L → D
  | .value d => d
  | .ref l => w.referents l

/-- The deleter of `x` itself. -/
def deleterOf (w : World X D L) (x : X) : Option D := (w.deleter x).map w.read

/-- `if (__p) _M_deleter()(__p)`. -/
def callDeleter (x : X) (p : Ptr) (w : World X D L) : World X D L :=
  match p, w.deleter x with
  | some _, some d => { w with log := w.log ++ [.call d (w.read d) p] }
  | _, _ => w

variable [DecidableEq X]

/-- The object in the storage called `x`, if any, is another one. -/
def put (x : X) (o : Option (UniqPtr D L)) (w : World X D L) : World X D L :=
  { w with objects := Function.update w.objects x o }

def setPtr (x : X) (p : Ptr) (w : World X D L) : World X D L :=
  w.put x ((w.objects x).map fun u => { u with ptr := p })

def setDeleter (x : X) (d : Deleter D L) (w : World X D L) : World X D L :=
  w.put x ((w.objects x).map fun u => { u with deleter := d })

/-! ## `__uniq_ptr_impl` -/

/-- `reset(__p)`. -/
def reset (x : X) (p : Ptr) (w : World X D L) : World X D L :=
  (w.setPtr x p).callDeleter x (w.ptr x)

/-- `release()`: what is left of `*this`; it returns what `_M_ptr()` was. -/
def release (x : X) (w : World X D L) : World X D L := w.setPtr x none

section

variable [DecidableEq L] (M : DeleterMoves D)

def setReferent (l : L) (d : D) (w : World X D L) : World X D L :=
  { w with referents := Function.update w.referents l d }

/-- A deleter of a deleter type is moved from when it is forwarded; a reference is forwarded as one. -/
def moveFrom (y : X) (w : World X D L) : World X D L :=
  match w.deleter y with
  | some (.value d) => w.setDeleter y (.value (M.movedFrom d))
  | _ => w

/-- `_M_deleter() = std::forward<_Ep>(__u._M_deleter())`, where that converts by `conv`. -/
def assignDeleter (conv : D → D) (x y : X) (w : World X D L) : World X D L :=
  match w.deleter x, w.deleter y with
  | some (.value _), some e => (w.moveFrom M y).setDeleter x (.value (conv (w.read e)))
  | some (.ref l), some e => (w.moveFrom M y).setReferent l (conv (w.read e))
  | _, _ => w

/-- `operator=(__uniq_ptr_impl&& __u)`; a deleter may be moved to itself. -/
def moveAssign (x y : X) (w : World X D L) : World X D L :=
  let w' := (w.release y).reset x (w.ptr y)
  match w'.deleter x with
  | some (.value d) => if x = y then w'.setDeleter x (.value (M.selfMoved d)) else w'.assignDeleter M id x y
  | _ => w'.assignDeleter M id x y

/-- `operator=(unique_ptr<_Up, _Ep>&& __u)`. -/
def convertAssign (conv : D → D) (x y : X) (w : World X D L) : World X D L :=
  ((w.release y).reset x (w.ptr y)).assignDeleter M conv x y

/-- `swap(this->_M_deleter(), __rhs._M_deleter())`. -/
def swapDeleters (x y : X) (w : World X D L) : World X D L :=
  match w.deleter x, w.deleter y with
  | some (.value d), some (.value e) => (w.setDeleter x (.value e)).setDeleter y (.value d)
  | some (.ref l), some (.ref m) => (w.setReferent l (w.referents m)).setReferent m (w.referents l)
  | _, _ => w

/-- `swap(__rhs)`. -/
def swap (x y : X) (w : World X D L) : World X D L :=
  ((w.setPtr x (w.ptr y)).setPtr y (w.ptr x)).swapDeleters x y

end

/-- `~unique_ptr()`. -/
def destroy (x : X) (w : World X D L) : World X D L :=
  ((w.callDeleter x (w.ptr x)).setPtr x none).put x none

end World

/-! ## Programs -/

/-- The deleter that a converting constructor makes of the one it gets: the same reference, or an object. -/
inductive Conversion (D : Type*)
  | reference
  | object (conv : D → D)

inductive Op (X D L : Type*)
  /-- `unique_ptr(__p, __d)`; `__p` may be null. -/
  | construct (x : X) (p : Ptr) (d : Deleter D L)
  /-- `unique_ptr(unique_ptr&& __u)`. -/
  | moveConstruct (x y : X)
  /-- `unique_ptr(unique_ptr<_Up, _Ep>&& __u)`. -/
  | convertConstruct (x y : X) (c : Conversion D)
  | moveAssign (x y : X)
  | convertAssign (x y : X) (conv : D → D)
  | reset (x : X) (p : Ptr)
  | release (x : X)
  | swap (x y : X)
  /-- `operator=(nullptr_t)`. -/
  | assignNull (x : X)
  | destroy (x : X)

/-- The pointers that the program hands over. -/
def Op.acquires : Op X D L → List Nat
  | .construct _ p _ | .reset _ p => p.toList
  | _ => []

/-- The object that is moved from, and the one it is moved into. -/
def Op.moved : Op X D L → Option (X × X)
  | .moveConstruct x y | .convertConstruct x y _ | .moveAssign x y | .convertAssign x y _ => some (y, x)
  | _ => none

/-- The objects that get a deleter, or have theirs assigned to, the objects it comes from, and its conversion. -/
def Op.takes : Op X D L → List (X × X × (D → D))
  | .moveConstruct x y | .convertConstruct x y .reference | .moveAssign x y => [(x, y, id)]
  | .convertConstruct x y (.object conv) | .convertAssign x y conv => [(x, y, conv)]
  | .swap x y => [(x, y, id), (y, x, id)]
  | _ => []

/-- `std::forward<_Ep>(__u.get_deleter())` as a constructor of a deleter takes it. -/
def World.convert (w : World X D L) (c : Conversion D) (y : X) : Option (Deleter D L) :=
  match c, w.deleter y with
  | .reference, some (.ref l) => some (.ref l)
  | .object conv, some e => some (.value (conv (w.read e)))
  | _, _ => none

/-- The two are of deleter types, or both of reference types. -/
def Deleter.Alike : Deleter D L → Deleter D L → Prop
  | .value _, .value _ | .ref _, .ref _ => True
  | _, _ => False

instance : DecidableRel (Deleter.Alike : Deleter D L → Deleter D L → Prop)
  | .value _, .value _ | .ref _, .ref _ => .isTrue trivial
  | .value _, .ref _ | .ref _, .value _ => .isFalse not_false

variable [DecidableEq X] [DecidableEq L] (M : DeleterMoves D)

/-- One operation, where the program may make it: a constructor has storage without an object, the others have
objects, of the types they ask for. -/
def step (w : World X D L) : Op X D L → Option (World X D L)
  | .construct x p d => if (w.deleter x).isNone then some (w.put x (some ⟨p, d⟩)) else none
  | .moveConstruct x y =>
    match w.deleter x, w.deleter y with
    | none, some e => some (((w.put x (some ⟨w.ptr y, e⟩)).moveFrom M y).setPtr y none)
    | _, _ => none
  | .convertConstruct x y c =>
    match w.deleter x, w.convert c y with
    | none, some d => some (((w.release y).moveFrom M y).put x (some ⟨w.ptr y, d⟩))
    | _, _ => none
  | .moveAssign x y =>
    match w.deleter x, w.deleter y with
    | some d, some e => if d.Alike e then some (w.moveAssign M x y) else none
    | _, _ => none
  | .convertAssign x y conv =>
    match w.deleter x, w.deleter y with
    | some _, some _ => if x ≠ y then some (w.convertAssign M conv x y) else none
    | _, _ => none
  | .reset x p => (w.deleter x).map fun _ => w.reset x p
  | .release x => (w.deleter x).map fun _ => { w.release x with log := w.log ++ [.release (w.ptr x)] }
  | .swap x y =>
    match w.deleter x, w.deleter y with
    | some d, some e => if d.Alike e then some (w.swap x y) else none
    | _, _ => none
  | .assignNull x => (w.deleter x).map fun _ => w.reset x none
  | .destroy x => (w.deleter x).map fun _ => w.destroy x

/-- All pointers a program hands over, in order. -/
def acquired (ops : List (Op X D L)) : List Nat := ops.flatMap Op.acquires

/-! ## The deleter of a pointer -/

/-- A pointer, if it is one, is paired with a deleter. -/
def pairing (p : Ptr) (d : Option (Deleter D L)) : List (Nat × Deleter D L) :=
  match p, d with
  | some q, some d => [(q, d)]
  | _, _ => []

/-- The pairs an operation makes; otherwise a pointer takes its deleter along. An assignment leaves the target its
own deleter object if that is behind a reference. -/
def pairs (w : World X D L) : Op X D L → List (Nat × Deleter D L)
  | .construct _ p d => pairing p (some d)
  | .convertConstruct _ y c => pairing (w.ptr y) (w.convert c y)
  | .moveAssign x y =>
    match w.deleter x with
    | some (.value d) => if x = y then pairing (w.ptr y) (some (.value (M.selfMoved d))) else []
    | d => pairing (w.ptr y) d
  | .convertAssign x y conv =>
    match w.deleter x with
    | some (.value _) => pairing (w.ptr y) (w.convert (.object conv) y)
    | d => pairing (w.ptr y) d
  | .reset x p => pairing p (w.deleter x)
  | .swap x y =>
    match w.deleter x with
    | some (.ref _) => pairing (w.ptr x) (w.deleter y) ++ pairing (w.ptr y) (w.deleter x)
    | _ => []
  | _ => []

/-- The pairs a program makes. -/
def pairings (w : World X D L) (ops : List (Op X D L)) : List (Nat × Deleter D L) :=
  outputs (step M) (pairs M) w ops

/-- The deleter that `q` was last paired with. -/
def lastPaired (ps : List (Nat × Deleter D L)) (q : Nat) : Option (Deleter D L) := ps.reverse.lookup q

/-! ## What the steps of an operation leave -/

section

omit [DecidableEq X] [DecidableEq L]

variable {w : World X D L} {x : X}

theorem ptr_eq_none (h : w.deleter x = none) : w.ptr x = none := by
  rw [World.deleter, Option.map_eq_none_iff] at h
  rw [World.ptr, h, Option.bind_none]

@[simp] theorem ptr_callDeleter (p : Ptr) : (w.callDeleter x p).ptr = w.ptr := by
  unfold World.callDeleter
  split <;> rfl

@[simp] theorem deleter_callDeleter (p : Ptr) : (w.callDeleter x p).deleter = w.deleter := by
  unfold World.callDeleter
  split <;> rfl

@[simp] theorem referents_callDeleter (p : Ptr) : (w.callDeleter x p).referents = w.referents := by
  unfold World.callDeleter
  split <;> rfl

theorem read_eq {w' : World X D L} (h : w'.referents = w.referents) : w'.read = w.read := by
  funext d
  cases d with
  | value => rfl
  | ref l => exact congrFun h l

theorem deleterOf_eq {w' : World X D L} (hd : w'.deleter x = w.deleter x) (hr : w'.referents = w.referents) :
    w'.deleterOf x = w.deleterOf x := by
  rw [World.deleterOf, hd, read_eq hr]
  rfl

theorem log_callDeleter {d : Deleter D L} (h : w.deleter x = some d) (p : Ptr) :
    (w.callDeleter x p).log = w.log ++ calls d (w.read d) p := by
  cases p <;> simp [World.callDeleter, calls, h]

end

section

omit [DecidableEq L]

variable {w : World X D L} {x y z : X}

@[simp] theorem ptr_put (o : Option (UniqPtr D L)) :
    (w.put x o).ptr = Function.update w.ptr x (o.bind UniqPtr.ptr) := by
  funext z
  by_cases hz : z = x
  · subst hz
    simp [World.put, World.ptr]
  · simp [World.put, World.ptr, hz]

@[simp] theorem deleter_put (o : Option (UniqPtr D L)) :
    (w.put x o).deleter = Function.update w.deleter x (o.map UniqPtr.deleter) := by
  funext z
  by_cases hz : z = x
  · subst hz
    simp [World.put, World.deleter]
  · simp [World.put, World.deleter, hz]

@[simp] theorem log_put (o : Option (UniqPtr D L)) : (w.put x o).log = w.log := rfl

@[simp] theorem referents_put (o : Option (UniqPtr D L)) : (w.put x o).referents = w.referents := rfl

theorem ptr_setPtr {d : Deleter D L} (h : w.deleter x = some d) (p : Ptr) :
    (w.setPtr x p).ptr = Function.update w.ptr x p := by
  obtain ⟨u, hu, -⟩ := Option.map_eq_some_iff.mp h
  simp [World.setPtr, hu]

@[simp] theorem deleter_setPtr (p : Ptr) : (w.setPtr x p).deleter = w.deleter := by
  rw [World.setPtr, deleter_put, Option.map_map]
  exact Function.update_eq_self x w.deleter

@[simp] theorem referents_setPtr (p : Ptr) : (w.setPtr x p).referents = w.referents := rfl

@[simp] theorem log_setPtr (p : Ptr) : (w.setPtr x p).log = w.log := rfl

@[simp] theorem ptr_setDeleter (d : Deleter D L) : (w.setDeleter x d).ptr = w.ptr := by
  rw [World.setDeleter, ptr_put, Option.bind_map]
  exact Function.update_eq_self x w.ptr

theorem deleter_setDeleter {d : Deleter D L} (h : w.deleter x = some d) (e : Deleter D L) :
    (w.setDeleter x e).deleter = Function.update w.deleter x (some e) := by
  obtain ⟨u, hu, -⟩ := Option.map_eq_some_iff.mp h
  simp [World.setDeleter, hu]

@[simp] theorem log_setDeleter (d : Deleter D L) : (w.setDeleter x d).log = w.log := rfl

@[simp] theorem referents_setDeleter (d : Deleter D L) : (w.setDeleter x d).referents = w.referents := rfl

omit [DecidableEq X] in
@[simp] theorem referents_setReferent [DecidableEq L] (l : L) (d : D) :
    (w.setReferent l d).referents = Function.update w.referents l d := rfl

@[simp] theorem ptr_moveFrom : (w.moveFrom M y).ptr = w.ptr := by
  unfold World.moveFrom
  split <;> simp

@[simp] theorem log_moveFrom : (w.moveFrom M y).log = w.log := by
  unfold World.moveFrom
  split <;> rfl

@[simp] theorem referents_moveFrom : (w.moveFrom M y).referents = w.referents := by
  unfold World.moveFrom
  split <;> rfl

theorem deleter_moveFrom_of_ne (h : z ≠ y) : (w.moveFrom M y).deleter z = w.deleter z := by
  unfold World.moveFrom
  split
  next d hd => rw [deleter_setDeleter hd, Function.update_of_ne h]
  next => rfl

theorem isSome_deleter_moveFrom : ((w.moveFrom M y).deleter z).isSome = (w.deleter z).isSome := by
  unfold World.moveFrom
  split
  next d hd =>
    rw [deleter_setDeleter hd]
    by_cases hz : z = y
    · subst hz
      rw [Function.update_self, hd]
      rfl
    · rw [Function.update_of_ne hz]
  next => rfl

theorem moveFrom_of_ref {l : L} (h : w.deleter y = some (.ref l)) : w.moveFrom M y = w := by
  simp only [World.moveFrom, h]

theorem ptr_reset {d : Deleter D L} (h : w.deleter x = some d) (p : Ptr) :
    (w.reset x p).ptr = Function.update w.ptr x p := by
  rw [World.reset, ptr_callDeleter, ptr_setPtr h]

@[simp] theorem deleter_reset (p : Ptr) : (w.reset x p).deleter = w.deleter := by
  rw [World.reset, deleter_callDeleter, deleter_setPtr]

@[simp] theorem referents_reset (p : Ptr) : (w.reset x p).referents = w.referents := by
  rw [World.reset, referents_callDeleter, referents_setPtr]

/-- `reset` calls the deleter with the pointer there was, if it was one. -/
theorem log_reset {d : Deleter D L} (h : w.deleter x = some d) (p : Ptr) :
    (w.reset x p).log = w.log ++ calls d (w.read d) (w.ptr x) := by
  rw [World.reset, log_callDeleter (by rwa [deleter_setPtr]), log_setPtr, read_eq (referents_setPtr p)]

end

section

variable {M} {w : World X D L} {x y z : X} {e : Deleter D L}

@[simp] theorem ptr_assignDeleter (conv : D → D) : (w.assignDeleter M conv x y).ptr = w.ptr := by
  unfold World.assignDeleter
  split
  next => rw [ptr_setDeleter, ptr_moveFrom]
  next => exact ptr_moveFrom M
  next => rfl

@[simp] theorem log_assignDeleter (conv : D → D) : (w.assignDeleter M conv x y).log = w.log := by
  unfold World.assignDeleter
  split
  next => rw [log_setDeleter, log_moveFrom]
  next => exact log_moveFrom M
  next => rfl

theorem deleter_assignDeleter_of_ne (conv : D → D) (hx : z ≠ x) (hy : z ≠ y) :
    (w.assignDeleter M conv x y).deleter z = w.deleter z := by
  unfold World.assignDeleter
  split
  next d e hd he =>
    by_cases hxy : x = y
    · subst hxy
      have hm : (w.moveFrom M x).deleter x = some (.value (M.movedFrom d)) := by
        simp [World.moveFrom, hd, deleter_setDeleter hd]
      rw [deleter_setDeleter hm, Function.update_of_ne hx, deleter_moveFrom_of_ne M hy]
    · rw [deleter_setDeleter (by rw [deleter_moveFrom_of_ne M hxy]; exact hd), Function.update_of_ne hx,
        deleter_moveFrom_of_ne M hy]
  next => exact deleter_moveFrom_of_ne M hy
  next => rfl

theorem isSome_deleter_assignDeleter (conv : D → D) (h : y ≠ x) :
    ((w.assignDeleter M conv x y).deleter y).isSome = (w.deleter y).isSome := by
  unfold World.assignDeleter
  split
  next d e hd he =>
    rw [deleter_setDeleter (by rw [deleter_moveFrom_of_ne M h.symm]; exact hd), Function.update_of_ne h,
      isSome_deleter_moveFrom]
  next => exact isSome_deleter_moveFrom M
  next => rfl

/-- A deleter of a deleter type becomes the other one, converted. -/
theorem deleter_assignDeleter_value (conv : D → D) {a : D} (hx : w.deleter x = some (.value a))
    (hy : w.deleter y = some e) (hxy : x ≠ y) :
    (w.assignDeleter M conv x y).deleter x = some (.value (conv (w.read e))) := by
  simp only [World.assignDeleter, hx, hy]
  rw [deleter_setDeleter (by rw [deleter_moveFrom_of_ne M hxy]; exact hx), Function.update_self]

/-- A reference refers to the deleter it did, which is assigned to. -/
theorem deleter_assignDeleter_ref (conv : D → D) {l : L} (hx : w.deleter x = some (.ref l))
    (hy : w.deleter y = some e) : (w.assignDeleter M conv x y).deleter x = some (.ref l) := by
  simp only [World.assignDeleter, hx, hy]
  by_cases hxy : x = y
  · subst hxy
    rw [moveFrom_of_ref M hx]
    exact hx
  · exact (deleter_moveFrom_of_ne M hxy).trans hx

/-- Behind a reference it is the deleter there that is assigned to, also from itself. -/
theorem deleterOf_assignDeleter (conv : D → D) {d : Deleter D L} (hx : w.deleter x = some d)
    (hy : w.deleter y = some e) (hxy : x = y → ∃ l, d = .ref l) :
    (w.assignDeleter M conv x y).deleterOf x = some (conv (w.read e)) := by
  cases d with
  | value a =>
    have hne : x ≠ y := by
      intro h
      obtain ⟨l, hl⟩ := hxy h
      cases hl
    rw [World.deleterOf, deleter_assignDeleter_value conv hx hy hne]
    rfl
  | ref l =>
    rw [World.deleterOf, deleter_assignDeleter_ref conv hx hy]
    simp [World.assignDeleter, hx, hy, World.read]

/-- No other deleter of the program is assigned to. -/
theorem referents_assignDeleter (conv : D → D) {l : L} (h : w.deleter x ≠ some (.ref l)) :
    (w.assignDeleter M conv x y).referents l = w.referents l := by
  unfold World.assignDeleter
  split
  next => rw [referents_setDeleter, referents_moveFrom]
  next m _ hd _ =>
    have hne : l ≠ m := by
      rintro rfl
      exact h hd
    rw [referents_setReferent, Function.update_of_ne hne, referents_moveFrom]
  next => rfl

@[simp] theorem ptr_swapDeleters : (w.swapDeleters x y).ptr = w.ptr := by
  unfold World.swapDeleters
  split
  next => rw [ptr_setDeleter, ptr_setDeleter]
  next => rfl
  next => rfl

@[simp] theorem log_swapDeleters : (w.swapDeleters x y).log = w.log := by
  unfold World.swapDeleters
  split <;> rfl

/-- Deleters of deleter types are exchanged. -/
theorem deleter_swapDeleters_value {a b : D} (hx : w.deleter x = some (.value a)) (hy : w.deleter y = some (.value b)) :
    (w.swapDeleters x y).deleter = w.deleter ∘ Equiv.swap x y := by
  have hy' : ((w.setDeleter x (.value b)).deleter y).isSome := by
    rw [deleter_setDeleter hx]
    by_cases hyx : y = x <;> simp [hyx, hy]
  obtain ⟨c, hc⟩ := Option.isSome_iff_exists.mp hy'
  simp only [World.swapDeleters, hx, hy]
  rw [deleter_setDeleter hc, deleter_setDeleter hx, Equiv.swap_comm, Equiv.comp_swap_eq_update, hx, hy]

/-- References stay, and what they refer to is exchanged. -/
theorem deleter_swapDeleters_ref {l m : L} (hx : w.deleter x = some (.ref l)) (hy : w.deleter y = some (.ref m)) :
    (w.swapDeleters x y).deleter = w.deleter := by
  simp only [World.swapDeleters, hx, hy]
  rfl

/-- In either case each has the deleter the other one had. -/
theorem deleterOf_swapDeleters {d : Deleter D L} (hx : w.deleter x = some d) (hy : w.deleter y = some e)
    (ha : d.Alike e) :
    (w.swapDeleters x y).deleterOf x = w.deleterOf y ∧ (w.swapDeleters x y).deleterOf y = w.deleterOf x := by
  cases d with
  | value a =>
    cases e with
    | ref => exact ha.elim
    | value b =>
      simp only [World.deleterOf, deleter_swapDeleters_value hx hy, Function.comp_apply, Equiv.swap_apply_left,
        Equiv.swap_apply_right, hx, hy]
      exact ⟨rfl, rfl⟩
  | ref l =>
    cases e with
    | value => exact ha.elim
    | ref m =>
      have hr : (w.swapDeleters x y).referents = w.referents ∘ Equiv.swap l m := by
        simp only [World.swapDeleters, hx, hy, referents_setReferent]
        rw [Equiv.swap_comm, Equiv.comp_swap_eq_update]
      simp [World.deleterOf, deleter_swapDeleters_ref hx hy, hx, hy, World.read, hr]

theorem referents_swapDeleters {l : L} (hx : w.deleter x ≠ some (.ref l)) (hy : w.deleter y ≠ some (.ref l)) :
    (w.swapDeleters x y).referents l = w.referents l := by
  unfold World.swapDeleters
  split
  next => rfl
  next a b ha hb =>
    have hla : l ≠ a := by
      rintro rfl
      exact hx ha
    have hlb : l ≠ b := by
      rintro rfl
      exact hy hb
    rw [referents_setReferent, Function.update_of_ne hlb, referents_setReferent, Function.update_of_ne hla]
  next => rfl

end

end SharedPtr.Unique
