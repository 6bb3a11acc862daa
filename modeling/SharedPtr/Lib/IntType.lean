/-
Integer types and their sums as the language has them, of bytes of eight bits:
operands narrower than `int` are promoted to it, a sum of unsigned type is
taken modulo 2^width, one of signed type must be in the range of the type, and
a conversion is modulo 2^width.

An assignment `a += b` has the sum modulo 2^width for its result, whatever the
type is, or none (`IntType.compound_eq`).
-/
import Mathlib.Algebra.Group.Int.Defs
import Mathlib.Algebra.Group.Nat.Defs
import Mathlib.Data.Int.Basic
import Mathlib.Tactic.Common

namespace SharedPtr.Lib

/-- An integer type. -/
structure IntType where
  signed : Bool
  size : Nat
  size_pos : 0 < size
  deriving DecidableEq

/-- `+` or `-`. -/
inductive Additive
  | add
  | sub
  deriving DecidableEq, Repr

/-- The number. -/
def Additive.exact : Additive → Int → Int → Int
  | add, x, y => x + y
  | sub, x, y => x - y

/-- Modulo 2^width. -/
def Additive.wrap {w : Nat} : Additive → BitVec w → BitVec w → BitVec w
  | add, x, y => x + y
  | sub, x, y => x - y

theorem Additive.wrap_ofInt {w : Nat} (op : Additive) (x y : Int) :
    op.wrap (BitVec.ofInt w x) (BitVec.ofInt w y) = BitVec.ofInt w (op.exact x y) := by
  cases op with
  | add => exact (BitVec.ofInt_add ..).symm
  | sub =>
    rw [wrap, exact, BitVec.sub_eq_iff_eq_add, ← BitVec.ofInt_add, Int.sub_add_cancel]

/-- Within the range, as a number. -/
theorem Additive.toInt_wrap {w : Nat} (op : Additive) (hw : 0 < w) (c : BitVec w) {u : Int}
    (h₀ : 0 ≤ op.exact c.toInt u) (h : op.exact c.toInt u < 2 ^ (w - 1)) :
    (op.wrap c (BitVec.ofInt w u)).toInt = op.exact c.toInt u := by
  have hc : op.wrap c (BitVec.ofInt w u) = BitVec.ofInt w (op.exact c.toInt u) := by
    rw [← op.wrap_ofInt, BitVec.ofInt_toInt]
  rw [hc, BitVec.toInt_ofInt_eq_self hw (by omega) h]

namespace IntType

/-- `int`. -/
def int : IntType := ⟨true, 4, by decide⟩

variable (T : IntType)

def width : Nat := 8 * T.size

abbrev Val : Type := BitVec T.width

/-- The value as a number. -/
def toInt (v : T.Val) : Int := if T.signed then v.toInt else v.toNat

/-- The conversion of a number to the type. -/
def ofInt (x : Int) : T.Val := BitVec.ofInt T.width x

/-- The type has the value `x`. -/
def Represents (x : Int) : Prop :=
  if T.signed then -2 ^ (T.width - 1) ≤ x ∧ x < 2 ^ (T.width - 1) else 0 ≤ x ∧ x < 2 ^ T.width

instance (x : Int) : Decidable (T.Represents x) := by
  unfold Represents
  infer_instance

/-- The type that an operand is promoted to. -/
def promoted : IntType := if T.size < int.size then int else T

/-- The result of an operation on operands of this type, which it has as the number `x`. -/
def result (x : Int) : Option Int :=
  if T.signed then if T.Represents x then some x else none else some (x % 2 ^ T.width)

/-- `a += b` or `a -= b`, for `a` and `b` of the type. -/
def compound (op : Additive) (a b : T.Val) : Option T.Val :=
  (T.promoted.result (op.exact (T.toInt a) (T.toInt b))).map T.ofInt

/-- The operands are not promoted, and the result is out of range. -/
def Overflows (op : Additive) (a b : T.Val) : Prop :=
  T.signed ∧ int.size ≤ T.size ∧ ¬ T.Represents (op.exact (T.toInt a) (T.toInt b))

instance (op : Additive) (a b : T.Val) : Decidable (T.Overflows op a b) := by
  unfold Overflows
  infer_instance

variable {T}

theorem ofInt_toInt (v : T.Val) : T.ofInt (T.toInt v) = v := by
  unfold ofInt toInt
  split
  · exact BitVec.ofInt_toInt
  · rw [BitVec.ofInt_natCast, BitVec.ofNat_toNat, BitVec.setWidth_eq]

theorem represents_toInt (v : T.Val) : T.Represents (T.toInt v) := by
  unfold Represents toInt
  split
  · exact ⟨BitVec.le_toInt v, BitVec.toInt_lt⟩
  · exact ⟨Int.natCast_nonneg _, by exact_mod_cast v.isLt⟩

theorem ofInt_emod (x : Int) : T.ofInt (x % 2 ^ T.width) = T.ofInt x := by
  apply BitVec.eq_of_toNat_eq
  rw [ofInt, ofInt, BitVec.toNat_ofInt, BitVec.toNat_ofInt]
  push_cast
  rw [Int.emod_emod]

/-- The exact result, converted. -/
theorem ofInt_exact (op : Additive) (a b : T.Val) : T.ofInt (op.exact (T.toInt a) (T.toInt b)) = op.wrap a b := by
  rw [ofInt, ← op.wrap_ofInt]
  exact congrArg₂ op.wrap (ofInt_toInt a) (ofInt_toInt b)

/-- A value of three bytes or less. -/
theorem toInt_bounds (hT : T.size < int.size) (v : T.Val) : -2 ^ 23 ≤ T.toInt v ∧ T.toInt v < 2 ^ 24 := by
  have h := represents_toInt v
  have hpos := T.size_pos
  have hsize : T.size = 1 ∨ T.size = 2 ∨ T.size = 3 := by
    have : T.size < 4 := hT
    omega
  unfold Represents width at h
  rcases hsize with hs | hs | hs
  all_goals
    rw [hs] at h
    split at h
    all_goals omega

/-- A sum of promoted operands is in the range of `int`. -/
theorem int_represents (hT : T.size < int.size) (op : Additive) (a b : T.Val) :
    int.Represents (op.exact (T.toInt a) (T.toInt b)) := by
  have ha := toInt_bounds hT a
  have hb := toInt_bounds hT b
  show -2 ^ 31 ≤ op.exact (T.toInt a) (T.toInt b) ∧ op.exact (T.toInt a) (T.toInt b) < 2 ^ 31
  cases op with
  | add =>
    rw [Additive.exact]
    omega
  | sub =>
    rw [Additive.exact]
    omega

/-- **A compound assignment** has the result modulo 2^width, or none. -/
theorem compound_eq (op : Additive) (a b : T.Val) :
    T.compound op a b = if T.Overflows op a b then none else some (op.wrap a b) := by
  rw [← ofInt_exact, compound, promoted]
  by_cases hT : T.size < int.size
  · -- promoted
    have hnot : ¬ T.Overflows op a b := fun h => absurd h.2.1 (Nat.not_le_of_lt hT)
    have hresult : int.result (op.exact (T.toInt a) (T.toInt b)) = some (op.exact (T.toInt a) (T.toInt b)) :=
      (if_pos rfl).trans (if_pos (int_represents hT op a b))
    rw [if_pos hT, if_neg hnot, hresult, Option.map_some]
  · rw [if_neg hT, result]
    by_cases hs : T.signed = true
    · rw [if_pos hs]
      by_cases hr : T.Represents (op.exact (T.toInt a) (T.toInt b))
      · rw [if_pos hr, if_neg fun h : T.Overflows op a b => h.2.2 hr, Option.map_some]
      · rw [if_neg hr, if_pos (show T.Overflows op a b from ⟨hs, Nat.le_of_not_lt hT, hr⟩), Option.map_none]
    · rw [if_neg hs, if_neg fun h : T.Overflows op a b => hs h.1, Option.map_some, ofInt_emod]

end IntType

end SharedPtr.Lib
