/-
Masks and shifts of words as arithmetic of natural numbers.

A shift by `n` divides by `2 ^ n` (`toNat_shiftRight`) or multiplies by it, modulo the size
of the word (`toNat_shiftLeft`), and the mask `2 ^ w - 1` leaves the remainder modulo `2 ^ w`
(`toNat_and_mask`).  A constant is given by its number, so that `rfl` shows what it is.
-/
import Mathlib.Data.Nat.Bitwise
import Mathlib.Data.UInt

namespace WordArith

/-- A mask of `w` bits from bit `n` on. -/
theorem and_shifted_mask (x w n : ℕ) :
    x &&& ((2 ^ w - 1) <<< n) = x / 2 ^ n % 2 ^ w * 2 ^ n := by
  rw [← Nat.shiftLeft_eq, ← Nat.shiftRight_eq_div_pow, ← Nat.and_two_pow_sub_one_eq_mod]
  apply Nat.eq_of_testBit_eq
  intro i
  simp only [Nat.testBit_and, Nat.testBit_shiftLeft, Nat.testBit_shiftRight]
  by_cases hi : n ≤ i
  · simp [hi]
  · simp [hi]

variable {x y k mask : UInt64} {n w : ℕ}

theorem toNat_shiftRight (hk : k.toNat % 64 = n) : (x >>> k).toNat = x.toNat / 2 ^ n := by
  rw [UInt64.toNat_shiftRight, hk, Nat.shiftRight_eq_div_pow]

theorem toNat_shiftLeft (hk : k.toNat % 64 = n) :
    (x <<< k).toNat = x.toNat * 2 ^ n % 2 ^ 64 := by
  rw [UInt64.toNat_shiftLeft, hk, Nat.shiftLeft_eq]

/-- A shift that loses no bit. -/
theorem toNat_shiftLeft_of_lt (hk : k.toNat % 64 = n) (hx : x.toNat * 2 ^ n < 2 ^ 64) :
    (x <<< k).toNat = x.toNat * 2 ^ n := by
  rw [toNat_shiftLeft hk, Nat.mod_eq_of_lt hx]

theorem toNat_and_mask (hmask : mask.toNat = 2 ^ w - 1) :
    (x &&& mask).toNat = x.toNat % 2 ^ w := by
  rw [UInt64.toNat_and, hmask, Nat.and_two_pow_sub_one_eq_mod]

/-- The field of `w` bits from bit `n` on. -/
theorem toNat_field (hmask : mask.toNat = (2 ^ w - 1) <<< n) (hk : k.toNat % 64 = n) :
    ((x &&& mask) >>> k).toNat = x.toNat / 2 ^ n % 2 ^ w := by
  rw [toNat_shiftRight hk, UInt64.toNat_and, hmask, and_shifted_mask,
    Nat.mul_div_cancel _ (Nat.two_pow_pos n)]

/-- Two words without a bit in common. -/
theorem toNat_or_of_dvd (hx : 2 ^ n ∣ x.toNat) (hy : y.toNat < 2 ^ n) :
    (x ||| y).toNat = x.toNat + y.toNat := by
  obtain ⟨m, hm⟩ := hx
  rw [UInt64.toNat_or, hm]
  exact (Nat.two_pow_add_eq_or_of_lt hy m).symm

theorem toNat_shiftRight32 {x k : UInt32} (hk : k.toNat % 32 = n) :
    (x >>> k).toNat = x.toNat / 2 ^ n := by
  rw [UInt32.toNat_shiftRight, hk, Nat.shiftRight_eq_div_pow]

theorem toNat_and_mask32 {x mask : UInt32} (hmask : mask.toNat = 2 ^ w - 1) :
    (x &&& mask).toNat = x.toNat % 2 ^ w := by
  rw [UInt32.toNat_and, hmask, Nat.and_two_pow_sub_one_eq_mod]

/-! ### From `int` to 64 bits -/

/-- The conversion of an `int` to a 64-bit unsigned integer. -/
def signExtend (v : UInt32) : UInt64 := v.toInt32.toInt64.toUInt64

theorem toNat_signExtend (v : UInt32) :
    (signExtend v).toNat = if v.toNat < 2 ^ 31 then v.toNat else v.toNat + (2 ^ 64 - 2 ^ 32) := by
  have hbits : (signExtend v).toBitVec = v.toBitVec.signExtend 64 := rfl
  have hlt := v.toNat_lt
  rw [← UInt64.toNat_toBitVec, hbits, BitVec.toNat_signExtend, BitVec.msb_eq_decide]
  simp only [BitVec.toNat_setWidth, UInt32.toNat_toBitVec]
  rw [Nat.mod_eq_of_lt (by omega)]
  by_cases hsign : v.toNat < 2 ^ 31
  · rw [if_pos hsign, if_neg (by simpa using hsign), Nat.add_zero]
  · rw [if_neg hsign, if_pos (by simpa using hsign)]

/-- Bit 31 is the sign. -/
theorem getLsbD_signExtend (v : UInt32) {j : ℕ} (hj : j < 64) :
    (signExtend v).toBitVec.getLsbD j = v.toBitVec.getLsbD (min j 31) := by
  have hbits : (signExtend v).toBitVec = v.toBitVec.signExtend 64 := rfl
  rw [hbits, BitVec.getLsbD_signExtend, decide_eq_true hj, Bool.true_and]
  split
  · rw [Nat.min_eq_left (by omega)]
  · rw [Nat.min_eq_right (by omega), BitVec.msb_eq_getLsbD_last]

end WordArith
