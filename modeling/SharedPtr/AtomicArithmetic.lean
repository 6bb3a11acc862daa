/-
`fetch_add`, `fetch_sub`, `++` and `--` of `__atomic_base` (`bits/atomic_base.h`),
for integral types and for pointers: by constant evaluation, where
`ce__atomic_fetch_add` assigns, and at run time, where the builtin wraps
around.

An assignment of a signed type of the size of `int` or larger does not wrap
around. A pointer is moved by a number of elements that is divided out of a
number of bytes as an unsigned number; and `--` is not `constexpr`.
-/
import SharedPtr.MakeShared
import SharedPtr.Lib.IntType
import SharedPtr.Lib.Run

namespace SharedPtr.Seq

open Lib (Additive IntType Along)

/-! ## Integral types -/

section

variable (T : IntType) (constEval : Bool)

/-- `ce__atomic_fetch_add(ptr, val)` and `ce__atomic_fetch_sub(ptr, val)`, where `*ptr` is no
pointer: what is returned, and `*ptr`. -/
def ceAtomicFetch (op : Additive) (p val : T.Val) : Option (T.Val × T.Val) :=
  if constEval then do
    let tmp := p
    let p ← T.compound op p val
    some (tmp, p)
  else some (p, op.wrap p val)

def ceAtomicFetchAdd : T.Val → T.Val → Option (T.Val × T.Val) := ceAtomicFetch T constEval .add

def ceAtomicFetchSub : T.Val → T.Val → Option (T.Val × T.Val) := ceAtomicFetch T constEval .sub

/-- A call of a member function of `__atomic_base<_ITp>`. -/
inductive IntegralOp
  | fetchAdd (i : T.Val)
  | fetchSub (i : T.Val)
  | postIncrement
  | postDecrement

variable {T}

/-- The call, with `_M_i`: what is returned, and `_M_i`. -/
def IntegralOp.exec (i : T.Val) : IntegralOp T → Option (T.Val × T.Val)
  | fetchAdd i' => ceAtomicFetchAdd T constEval i i'
  | fetchSub i' => ceAtomicFetchSub T constEval i i'
  | postIncrement => ceAtomicFetchAdd T constEval i (T.ofInt 1)
  | postDecrement => ceAtomicFetchSub T constEval i (T.ofInt 1)

/-- A sequence of calls: what they return, and `_M_i` in the end. -/
def execAll : T.Val → List (IntegralOp T) → Option (List T.Val × T.Val)
  | i, [] => some ([], i)
  | i, op :: ops => do
    let (old, i) ← op.exec constEval i
    let (olds, i) ← execAll i ops
    some (old :: olds, i)

end

namespace IntegralOp

variable {T : IntType}

def additive : IntegralOp T → Additive
  | fetchAdd _ | postIncrement => .add
  | fetchSub _ | postDecrement => .sub

def operand : IntegralOp T → T.Val
  | fetchAdd i | fetchSub i => i
  | postIncrement | postDecrement => T.ofInt 1

/-- The sum or difference modulo 2^width. -/
def wrapped (i : T.Val) (op : IntegralOp T) : T.Val := T.ofInt (op.additive.exact (T.toInt i) (T.toInt op.operand))

/-- It is not in the range of the type, which is signed and not promoted. -/
def Overflows (i : T.Val) (op : IntegralOp T) : Prop := T.Overflows op.additive i op.operand

instance (i : T.Val) (op : IntegralOp T) : Decidable (op.Overflows i) := by
  unfold Overflows
  infer_instance

/-- `_M_i` after the call, at run time. -/
def step (i : T.Val) (op : IntegralOp T) : Option T.Val := (op.exec false i).map Prod.snd

theorem exec_eq (op : IntegralOp T) (constEval : Bool) (i : T.Val) :
    op.exec constEval i = ceAtomicFetch T constEval op.additive i op.operand := by
  cases op <;> rfl

theorem exec_runTime (op : IntegralOp T) (i : T.Val) : op.exec false i = some (i, op.wrapped i) := by
  rw [exec_eq, wrapped, IntType.ofInt_exact]
  rfl

theorem exec_constEval (op : IntegralOp T) (i : T.Val) :
    op.exec true i = if op.Overflows i then none else some (i, op.wrapped i) := by
  rw [exec_eq, wrapped, IntType.ofInt_exact, ceAtomicFetch, if_pos rfl, IntType.compound_eq]
  by_cases h : op.Overflows i
  · rw [if_pos h, if_pos (show T.Overflows op.additive i op.operand from h)]
    rfl
  · rw [if_neg h, if_neg (show ¬ T.Overflows op.additive i op.operand from h)]
    rfl

theorem step_eq (op : IntegralOp T) (i : T.Val) : op.step i = some (op.wrapped i) := by
  rw [step, exec_runTime, Option.map_some]

end IntegralOp

theorem execAll_runTime_ne {T : IntType} (i : T.Val) (ops : List (IntegralOp T)) : execAll false i ops ≠ none := by
  induction ops generalizing i with
  | nil => nofun
  | cons op ops ih =>
    obtain ⟨r, hr⟩ := Option.ne_none_iff_exists'.mp (ih (op.wrapped i))
    simp [execAll, IntegralOp.exec_runTime, hr]

/-- The first call that overflows is where the modes part. -/
theorem execAll_eq_iff {T : IntType} (i : T.Val) (ops : List (IntegralOp T)) :
    execAll true i ops = execAll false i ops ↔ Along IntegralOp.step (fun i op => ¬ op.Overflows i) i ops := by
  induction ops generalizing i with
  | nil => exact iff_of_true rfl trivial
  | cons op ops ih =>
    obtain ⟨r, hr⟩ := Option.ne_none_iff_exists'.mp (execAll_runTime_ne (op.wrapped i) ops)
    have htail := ih (op.wrapped i)
    rw [hr] at htail
    by_cases h : op.Overflows i
    · simp [execAll, IntegralOp.exec_runTime, IntegralOp.exec_constEval, h, Along, hr]
    · simp only [execAll, IntegralOp.exec_runTime, IntegralOp.exec_constEval, h, Along, hr, IntegralOp.step_eq, if_false,
        Option.bind_eq_bind, Option.bind_some, not_false_eq_true, true_and, Option.some.injEq, forall_eq', ← htail]
      cases execAll true (op.wrapped i) ops with
      | none => simp
      | some t => simp [Prod.ext_iff]

/-- **Integral atomics wrap around** at run time; by constant evaluation, as long as nothing overflows. -/
theorem integral_atomics_iff (T : IntType) (i : T.Val) :
    (∀ op : IntegralOp T, op.exec false i = some (i, op.wrapped i) ∧
      (op.exec true i = some (i, op.wrapped i) ↔ ¬ op.Overflows i)) ∧
      ∀ ops : List (IntegralOp T), execAll true i ops = execAll false i ops ↔
        Along IntegralOp.step (fun i op => ¬ op.Overflows i) i ops := by
  refine ⟨fun op => ⟨op.exec_runTime i, ?_⟩, execAll_eq_iff i⟩
  rw [op.exec_constEval]
  split
  next h => simp [h]
  next h => simp [h]

/-- The largest `int` and 1: at run time the smallest. -/
theorem increment_overflows :
    let i := IntType.int.ofInt (2 ^ 31 - 1)
    IntegralOp.postIncrement.exec false i = some (i, IntType.int.ofInt (-2 ^ 31)) ∧
      IntegralOp.postIncrement.wrapped i = IntType.int.ofInt (-2 ^ 31) ∧
      ¬ IntegralOp.postIncrement.exec true i = some (i, IntegralOp.postIncrement.wrapped i) ∧
      ¬ execAll true i [.postIncrement] = execAll false i [.postIncrement] := by
  decide

/-! ## Pointers -/

/-- A `ptrdiff_t`. -/
abbrev PtrdiffT := BitVec 64

/-- An array of `n` objects of a type `_PTp`. -/
structure ArrayObject where
  /-- `sizeof(_PTp)` -/
  size : Nat
  n : Nat
  size_pos : 0 < size
  size_lt : size < 2 ^ 64
  /-- It is inside the address space. -/
  bytes_lt : n * size < 2 ^ 64

/-- A call of a member function of `__atomic_base<_PTp*>`. -/
inductive PointerOp
  | fetchAdd (d : PtrdiffT)
  | fetchSub (d : PtrdiffT)
  | postIncrement
  | postDecrement
  deriving DecidableEq, Repr

namespace ArrayObject

variable (A : ArrayObject)

/-- `_S_type_size(__d)`: `__d * sizeof(_PTp)`, which is a `size_t`, converted. -/
def typeSize (d : PtrdiffT) : PtrdiffT := d * BitVec.ofNat 64 A.size

/-- `*ptr += k` and `*ptr -= k` for a pointer to the element `i`, which has to stay in the array
or right behind it. -/
def advance (op : Additive) (i : Nat) (k : SizeT) : Option Nat :=
  let j := op.exact i k.toNat
  if 0 ≤ j ∧ j ≤ A.n then some j.toNat else none

/-- `ce__atomic_fetch_add(ptr, val)` and `ce__atomic_fetch_sub(ptr, val)` by constant evaluation, for
a pointer to the element `i`; `val/sizeof(**ptr)` is a quotient of `size_t`s. -/
def ceAtomicFetch (op : Additive) (i : Nat) (val : PtrdiffT) : Option (Nat × Nat) := do
  let tmp := i
  let i ← A.advance op i (val / BitVec.ofNat 64 A.size)
  some (tmp, i)

/-- `__atomic_fetch_add(ptr, val)` and `__atomic_fetch_sub(ptr, val)`, with addresses. -/
def atomicFetch (op : Additive) (p : SizeT) (val : PtrdiffT) : SizeT × SizeT := (p, op.wrap p val)

/-- The address of the element `i`. -/
def address (base : SizeT) (i : Nat) : SizeT := base + BitVec.ofNat 64 (i * A.size)

variable {A}

theorem advance_eq_some {op : Additive} {i j : Nat} {k : SizeT} :
    A.advance op i k = some j ↔ (j : Int) = op.exact i k.toNat ∧ j ≤ A.n := by
  dsimp only [advance]
  split
  next h =>
    rw [Option.some.injEq]
    omega
  next h =>
    refine iff_of_false nofun fun hj => h ?_
    omega

/-- The number of bytes, divided, where it is not negative. -/
theorem typeSize_div {d : PtrdiffT} (h : d.toNat * A.size < 2 ^ 64) :
    A.typeSize d / BitVec.ofNat 64 A.size = d := by
  apply BitVec.eq_of_toNat_eq
  rw [typeSize, BitVec.toNat_udiv, BitVec.toNat_mul, BitVec.toNat_ofNat, Nat.mod_eq_of_lt A.size_lt, Nat.mod_eq_of_lt h,
    Nat.mul_div_cancel _ A.size_pos]

end ArrayObject

namespace PointerOp

section

variable (A : ArrayObject)

/-- The call by constant evaluation, on a pointer to the element `i`: what is returned, and `_M_p`. -/
def constEval (i : Nat) : PointerOp → Option (Nat × Nat)
  | fetchAdd d => A.ceAtomicFetch .add i (A.typeSize d)
  | fetchSub d => A.ceAtomicFetch .sub i (A.typeSize d)
  | postIncrement => A.ceAtomicFetch .add i (A.typeSize 1)
  -- not declared `constexpr`
  | postDecrement => none

/-- The call at run time. -/
def runTime (p : SizeT) : PointerOp → SizeT × SizeT
  | fetchAdd d => ArrayObject.atomicFetch .add p (A.typeSize d)
  | fetchSub d => ArrayObject.atomicFetch .sub p (A.typeSize d)
  | postIncrement => ArrayObject.atomicFetch .add p (A.typeSize 1)
  | postDecrement => ArrayObject.atomicFetch .sub p (A.typeSize 1)

end

def additive : PointerOp → Additive
  | fetchAdd _ | postIncrement => .add
  | fetchSub _ | postDecrement => .sub

/-- The number of elements that the pointer is to be moved by. -/
def offset : PointerOp → PtrdiffT
  | fetchAdd d | fetchSub d => d
  | postIncrement | postDecrement => 1

/-- The element that it is to be moved to, from the element `i`. -/
def target (op : PointerOp) (i : Nat) : Int := op.additive.exact i op.offset.toInt

/-- Both ways the old pointer is returned, and the pointer is moved to the element `j`. -/
def Moves (A : ArrayObject) (op : PointerOp) (i j : Nat) : Prop :=
  op.constEval A i = some (i, j) ∧ ∀ base, op.runTime A (A.address base i) = (A.address base i, A.address base j)

variable {A : ArrayObject}

/-- The builtin moves the pointer, whatever the sign. -/
theorem runTime_moves (op : PointerOp) {i j : Nat} (hj : (j : Int) = op.target i) (base : SizeT) :
    op.runTime A (A.address base i) = (A.address base i, A.address base j) := by
  have hop : op.runTime A (A.address base i) =
      (A.address base i, op.additive.wrap (A.address base i) (A.typeSize op.offset)) := by
    cases op <;> rfl
  have hassoc : ∀ x y : SizeT, op.additive.wrap (base + x) y = base + op.additive.wrap x y := by
    intro x y
    cases op.additive with
    | add => exact BitVec.add_assoc ..
    | sub =>
      rw [Additive.wrap, Additive.wrap, BitVec.sub_eq_add_neg, BitVec.sub_eq_add_neg, BitVec.add_assoc]
  have hbytes : A.typeSize op.offset = BitVec.ofInt 64 (op.offset.toInt * A.size) := by
    rw [BitVec.ofInt_mul, BitVec.ofInt_toInt]
    rfl
  have hexact : op.additive.exact ((i * A.size : Nat) : Int) (op.offset.toInt * A.size) = ((j * A.size : Nat) : Int) := by
    push_cast
    rw [hj, target]
    cases op.additive with
    | add => exact (Int.add_mul ..).symm
    | sub => exact (Int.sub_mul ..).symm
  rw [hop, ArrayObject.address, ArrayObject.address, hassoc, hbytes, ← BitVec.ofInt_natCast, op.additive.wrap_ofInt,
    hexact]
  rfl

theorem constEval_moves_iff {op : PointerOp} {i j : Nat} (hi : i ≤ A.n) (hjn : j ≤ A.n) (hj : (j : Int) = op.target i)
    (hop : op ≠ .postDecrement) : op.constEval A i = some (i, j) ↔ 0 ≤ op.offset.toInt := by
  have hce : op.constEval A i = A.ceAtomicFetch op.additive i (A.typeSize op.offset) := by
    cases op <;> first | rfl | exact absurd rfl hop
  have hadvance : op.constEval A i = some (i, j) ↔
      (j : Int) = op.additive.exact i (A.typeSize op.offset / BitVec.ofNat 64 A.size).toNat := by
    rw [hce, ArrayObject.ceAtomicFetch]
    simp only [Option.bind_eq_bind, Option.bind_eq_some_iff, Option.some.injEq, Prod.mk.injEq, true_and, exists_eq_right,
      ArrayObject.advance_eq_some]
    exact and_iff_left hjn
  rw [hadvance]
  constructor
  · intro h
    -- the quotient is a number of type `size_t`
    rw [h, target] at hj
    cases hadd : op.additive with
    | add =>
      simp only [hadd, Additive.exact] at hj
      omega
    | sub =>
      simp only [hadd, Additive.exact] at hj
      omega
  · intro h
    have hnat : op.offset.toInt = op.offset.toNat := by
      rw [BitVec.toInt_eq_toNat_cond] at h ⊢
      split at h
      next hlt => rw [if_pos hlt]
      next => omega
    have hle : op.offset.toNat ≤ A.n := by
      rw [target, hnat] at hj
      cases hadd : op.additive with
      | add =>
        simp only [hadd, Additive.exact] at hj
        omega
      | sub =>
        simp only [hadd, Additive.exact] at hj
        omega
    rw [ArrayObject.typeSize_div (Nat.lt_of_le_of_lt (Nat.mul_le_mul_right A.size hle) A.bytes_lt), hj, target, hnat]

end PointerOp

/-- **Pointer atomics move the pointer** both ways if the function is not `--`, and the offset, which is 1
for `++`, is not negative. -/
theorem pointer_atomics_iff (A : ArrayObject) (op : PointerOp) (i j : Nat) (stored : i ≤ A.n) (inside : j ≤ A.n)
    (target : (j : Int) = op.target i) : op.Moves A i j ↔ op ≠ .postDecrement ∧ 0 ≤ op.offset.toInt := by
  by_cases hop : op = .postDecrement
  · subst hop
    exact iff_of_false (fun h => by cases h.1) fun h => h.1 rfl
  · rw [PointerOp.Moves, PointerOp.constEval_moves_iff stored inside target hop,
      and_iff_left fun base => op.runTime_moves target base]
    exact ⟨fun h => ⟨hop, h⟩, fun h => h.2⟩

/-- Three `int`s. -/
def ArrayObject.ints : ArrayObject := ⟨4, 3, Lib.IntType.int.size_pos, by decide, by decide⟩

/-- From the first element to the last one, and back to the second. -/
theorem pointer_atomics_iff_ints :
    (PointerOp.fetchAdd 2).Moves .ints 0 2 ∧ (PointerOp.fetchSub 1).Moves .ints 2 1 :=
  ⟨(pointer_atomics_iff .ints (.fetchAdd 2) 0 2 (by decide) (by decide) (by decide)).mpr (by decide),
    (pointer_atomics_iff .ints (.fetchSub 1) 2 1 (by decide) (by decide) (by decide)).mpr (by decide)⟩

/-- One element back, by `fetch_add(-1)` and by `--`: no constant evaluation gets there. -/
theorem no_step_back :
    (PointerOp.fetchAdd (-1)).target 1 = 0 ∧ (PointerOp.fetchAdd (-1)).constEval .ints 1 = none ∧
      PointerOp.postDecrement.target 1 = 0 ∧ PointerOp.postDecrement.constEval .ints 1 = none ∧
      ¬ (PointerOp.fetchAdd (-1)).Moves .ints 1 0 ∧ ¬ PointerOp.postDecrement.Moves .ints 1 0 :=
  ⟨by decide, by decide, by decide, rfl, fun h => absurd h.1 (by decide), fun h => absurd h.1 (by decide)⟩

end SharedPtr.Seq
