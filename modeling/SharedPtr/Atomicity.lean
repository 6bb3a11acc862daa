/-
The counter word and the arithmetic on it (`ext/atomicity.h`, and
`_Sp_counted_base::_S_chk`).

`_Atomic_word` is a 32-bit `int`. Both exchange-and-add functions wrap: the
single-threaded one adds in the unsigned type, the other is a fetch-add of
the processor. A trap (`__builtin_trap`) ends the process, so a function that
traps has no result (`none`).
-/
import Mathlib.Algebra.Group.Nat.Defs
import Mathlib.Data.Nat.Basic
import Mathlib.Tactic.Common

namespace SharedPtr

/-- `_Atomic_word`. -/
abbrev AtomicWord := BitVec 32

/-- `__exchange_and_add_single`: the old value, and what is stored. -/
def exchangeAndAddSingle (mem : AtomicWord) (val : BitVec 32) : AtomicWord × AtomicWord :=
  (mem, mem + val)

/-- `__exchange_and_add`: `__atomic_fetch_add`, as the old value and what is stored. -/
def exchangeAndAdd (mem : AtomicWord) (val : BitVec 32) : AtomicWord × AtomicWord :=
  (mem, mem + val)

/-- `__exchange_and_add_dispatch`, by the answer of `__is_single_threaded()`. -/
def exchangeAndAddDispatch (isSingleThreaded : Bool) (mem : AtomicWord) (val : BitVec 32) :
    AtomicWord × AtomicWord :=
  if isSingleThreaded then exchangeAndAddSingle mem val else exchangeAndAdd mem val

/-- `__atomic_add_single`. -/
def atomicAddSingle (mem : AtomicWord) (val : BitVec 32) : AtomicWord := mem + val

/-- The largest count `_S_chk` admits: `-1` when `long` is wider than
`_Atomic_word`, else the type's largest positive value. -/
def maxCount (wideLong : Bool) : AtomicWord := if wideLong then -1 else BitVec.intMax 32

/-- `_S_chk` on the value of the counter before the increment. -/
def chk (wideLong : Bool) (count : AtomicWord) : Option Unit :=
  if count = maxCount wideLong then none else some ()

@[simp] theorem exchangeAndAddDispatch_eq (st : Bool) (mem : AtomicWord) (val : BitVec 32) :
    exchangeAndAddDispatch st mem val = exchangeAndAdd mem val := by
  cases st <;> rfl

theorem chk_eq_some {count : AtomicWord} {u : Unit} : chk true count = some u ↔ count ≠ -1 := by
  simp [chk, maxCount]

theorem toNat_neg_one : (-1 : AtomicWord).toNat = 2 ^ 32 - 1 := by decide

theorem toNat_add_one {x : AtomicWord} (h : x ≠ -1) : (x + 1).toNat = x.toNat + 1 := by
  have hx : x.toNat ≠ 2 ^ 32 - 1 := fun he => h (BitVec.eq_of_toNat_eq (he.trans toNat_neg_one.symm))
  have hlt := x.isLt
  rw [BitVec.toNat_add, show (1 : AtomicWord).toNat = 1 from rfl, Nat.mod_eq_of_lt (by omega)]

theorem toNat_add_neg_one {x : AtomicWord} (h : x ≠ 0) : (x + -1).toNat = x.toNat - 1 := by
  have hx : x.toNat ≠ 0 := fun he => h (BitVec.eq_of_toNat_eq he)
  have hlt := x.isLt
  rw [BitVec.toNat_add, toNat_neg_one]
  omega

theorem eq_one_iff {x : AtomicWord} : x = 1 ↔ x.toNat = 1 :=
  ⟨fun h => by simp [h], fun h => BitVec.eq_of_toNat_eq (by simp [h])⟩

theorem eq_zero_iff {x : AtomicWord} : x = 0 ↔ x.toNat = 0 :=
  ⟨fun h => by simp [h], fun h => BitVec.eq_of_toNat_eq (by simp [h])⟩

end SharedPtr
