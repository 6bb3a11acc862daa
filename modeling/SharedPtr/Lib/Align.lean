/-
Rounding up to a power of two: the mask `x & -2^j` of machine words is the
rounding down of numbers, and a multiple of a smaller power of two is rounded
up by no more than the difference of the two powers.
-/
import Mathlib.Algebra.Group.Nat.Defs
import Mathlib.Data.Nat.Basic
import Mathlib.Tactic.Common

namespace SharedPtr.Lib

/-- The mask with `-2^j` rounds down. -/
theorem toNat_and_neg {w : Nat} (x : BitVec w) {j : Nat} (hj : j < w) :
    (x &&& -(BitVec.ofNat w (2 ^ j))).toNat = x.toNat / 2 ^ j * 2 ^ j := by
  have hpow : 2 ^ j < 2 ^ w := Nat.pow_lt_pow_right (by decide) hj
  have hneg : -(BitVec.ofNat w (2 ^ j)) = BitVec.allOnes w <<< j := by
    apply BitVec.eq_of_toNat_eq
    have hsplit : (2 ^ w - 1) * 2 ^ j = (2 ^ w - 2 ^ j) + 2 ^ w * (2 ^ j - 1) := by
      rw [Nat.mul_sub_one, Nat.sub_one_mul]
      have := Nat.le_mul_of_pos_right (2 ^ w) (Nat.two_pow_pos j)
      omega
    rw [BitVec.toNat_neg, BitVec.toNat_ofNat, Nat.mod_eq_of_lt hpow, BitVec.toNat_shiftLeft, BitVec.toNat_allOnes,
      Nat.shiftLeft_eq, hsplit, Nat.add_mul_mod_self_left]
  have hand : x &&& BitVec.allOnes w <<< j = (x >>> j) <<< j := by
    ext i hi
    by_cases hij : i < j
    · simp [hij]
    · simp [hij, Nat.add_sub_cancel' (Nat.le_of_not_lt hij), BitVec.getLsbD_eq_getElem hi]
  rw [hneg, hand, BitVec.toNat_shiftLeft, BitVec.toNat_ushiftRight, Nat.shiftRight_eq_div_pow, Nat.shiftLeft_eq,
    Nat.mod_eq_of_lt]
  exact Nat.lt_of_le_of_lt (Nat.div_mul_le_self _ _) x.isLt

/-- `n`, rounded up to a multiple of `a`. -/
def roundUp (n a : Nat) : Nat := (n + (a - 1)) / a * a

theorem le_roundUp (n : Nat) {a : Nat} (ha : 0 < a) : n ≤ roundUp n a := by
  have h := Nat.lt_div_mul_add (a := n + (a - 1)) ha
  unfold roundUp
  omega

theorem dvd_roundUp (n a : Nat) : a ∣ roundUp n a := Nat.dvd_mul_left ..

/-- A multiple of `b`, where `b` divides `a`, has at most `a - b` to go. -/
theorem roundUp_le {n a b : Nat} (ha : 0 < a) (hb : b ∣ a) (hn : b ∣ n) : roundUp n a ≤ n + (a - b) := by
  obtain ⟨q, rfl⟩ := hb
  obtain ⟨k, rfl⟩ := hn
  have hle := Nat.div_mul_le_self (b * k + (b * q - 1)) (b * q)
  have hround : roundUp (b * k) (b * q) = b * ((b * k + (b * q - 1)) / (b * q) * q) := by
    rw [roundUp, Nat.mul_left_comm]
  have hbpos : 0 < b := Nat.pos_of_mul_pos_right ha
  have hlt : b * ((b * k + (b * q - 1)) / (b * q) * q) < b * (k + q) := by
    rw [← hround, roundUp, Nat.mul_add]
    omega
  have hk : (b * k + (b * q - 1)) / (b * q) * q + 1 ≤ k + q := Nat.lt_of_mul_lt_mul_left hlt
  have hmul := Nat.mul_le_mul_left b hk
  rw [Nat.mul_add, Nat.mul_add, Nat.mul_one] at hmul
  rw [hround]
  omega

end SharedPtr.Lib
