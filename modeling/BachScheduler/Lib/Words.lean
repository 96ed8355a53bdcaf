import Mathlib.Data.BitVec
import Mathlib.Tactic.Common

/-!
# Signed and unsigned readings of a word

Where a signed word is not negative, it reads the same as an unsigned one, and sums and
differences that stay within the signed range are those of the integers.  A power of two less one
masks a remainder.
-/

namespace BachScheduler.Words

variable {w : Nat} {x y : BitVec w}

/-- A word that is not negative lies below the sign bit. -/
theorem small_of_nonneg (nonneg : 0 ≤ x.toInt) : 2 * x.toNat < 2 ^ w := by
  by_contra large
  have bound := x.isLt
  rw [BitVec.toInt_eq_toNat_cond, if_neg large] at nonneg
  omega

/-- A word that is not negative reads the same both ways. -/
theorem toNat_of_nonneg (nonneg : 0 ≤ x.toInt) : (x.toNat : Int) = x.toInt :=
  (BitVec.toInt_eq_toNat_of_lt (small_of_nonneg nonneg)).symm

/-- A word below the sign bit reads the same both ways. -/
theorem toInt_of_small (small : 2 * x.toNat < 2 ^ w) : x.toInt = x.toNat :=
  BitVec.toInt_eq_toNat_of_lt small

theorem toInt_add_of_bounds (low : -2 ^ (w - 1) ≤ x.toInt + y.toInt)
    (high : x.toInt + y.toInt < 2 ^ (w - 1)) :
    (x + y).toInt = x.toInt + y.toInt := by
  apply BitVec.toInt_add_of_not_saddOverflow
  simp [BitVec.saddOverflow]
  omega

theorem toInt_sub_of_bounds (low : -2 ^ (w - 1) ≤ x.toInt - y.toInt)
    (high : x.toInt - y.toInt < 2 ^ (w - 1)) :
    (x - y).toInt = x.toInt - y.toInt := by
  apply BitVec.toInt_sub_of_not_ssubOverflow
  simp [BitVec.ssubOverflow]
  omega

/-- An unsigned comparison with a word that is not negative reads that word rightly. -/
theorem ult_iff_of_nonneg (nonneg : 0 ≤ x.toInt) : x < y ↔ x.toInt < y.toNat := by
  rw [BitVec.lt_def, ← toNat_of_nonneg nonneg]
  omega

/-- Differences of truncated integers. -/
theorem ofInt_sub (m n : Int) : BitVec.ofInt w m - BitVec.ofInt w n = BitVec.ofInt w (m - n) := by
  rw [BitVec.sub_eq_add_neg, ← BitVec.ofInt_neg, ← BitVec.ofInt_add, sub_eq_add_neg]

/-- A word below the sign bit of a narrower type survives the conversion to it and back. -/
theorem toNat_signExtend_setWidth {v : Nat} (narrower : v ≤ w) (small : 2 * x.toNat < 2 ^ v) :
    ((x.setWidth v).signExtend w).toNat = x.toNat := by
  have low : (x.setWidth v).toNat = x.toNat := by
    rw [BitVec.toNat_setWidth, Nat.mod_eq_of_lt (by omega)]
  have positive : (x.setWidth v).msb = false := by
    rw [BitVec.msb_eq_false_iff_two_mul_lt, low]
    exact small
  have fits := Nat.pow_le_pow_right (n := 2) (by omega) narrower
  rw [BitVec.toNat_signExtend, positive, BitVec.toNat_setWidth, low, Nat.mod_eq_of_lt (by omega)]
  rfl

section Masks

variable (x) (log : Fin w)

theorem twoPow_lt : 2 ^ log.val < 2 ^ w :=
  Nat.pow_lt_pow_right (by omega) log.isLt

theorem toNat_twoPow : (BitVec.twoPow w log.val).toNat = 2 ^ log.val := by
  rw [BitVec.toNat_twoPow, Nat.mod_eq_of_lt (twoPow_lt log)]

theorem toNat_and_mask : (x &&& (BitVec.twoPow w log.val - 1)).toNat = x.toNat % 2 ^ log.val := by
  have positive : 0 < 2 ^ log.val := Nat.two_pow_pos _
  have small := twoPow_lt log
  have one : (1 : BitVec w).toNat = 1 := BitVec.toNat_one (Nat.zero_lt_of_lt log.isLt)
  have mask : (BitVec.twoPow w log.val - 1).toNat = 2 ^ log.val - 1 := by
    rw [BitVec.toNat_sub, toNat_twoPow, one, Nat.add_comm,
      ← Nat.add_sub_assoc (by omega), Nat.add_comm, Nat.add_sub_assoc positive, Nat.add_mod_left,
        Nat.mod_eq_of_lt (by omega)]
  rw [BitVec.toNat_and, mask, Nat.and_two_pow_sub_one_eq_mod]

/-- What is missing up to the next multiple of a power of two. -/
theorem toNat_missing : ((BitVec.twoPow w log.val - (x &&& (BitVec.twoPow w log.val - 1))) &&&
      (BitVec.twoPow w log.val - 1)).toNat =
      (2 ^ log.val - x.toNat % 2 ^ log.val) % 2 ^ log.val := by
  have below := Nat.mod_lt x.toNat (Nat.two_pow_pos log.val)
  have small := twoPow_lt log
  have whole : 2 ^ log.val - x.toNat % 2 ^ log.val < 2 ^ w := by omega
  rw [toNat_and_mask, BitVec.toNat_sub, toNat_and_mask, toNat_twoPow, ← Nat.sub_add_comm (by omega),
    Nat.add_sub_assoc (by omega), Nat.add_mod_left, Nat.mod_eq_of_lt whole]

end Masks

end BachScheduler.Words
