/-
Module: SampoOS.Lib.BitFields
Purpose: Masks, shifts and disjoint unions of bits on natural numbers, each
  reduced to quotients, remainders and sums.
Trusted boundary: none
Main exports: clearLow, clearLow_eq, dvd_clearLow, alignUp, alignUp_eq,
  alignUp_lt, and_shiftedMask, or_eq_add_of_dvd
-/
import Mathlib.Data.Nat.Bitwise

namespace BitFields

/-- Clear the low `k` bits of a `w`-bit word, as `a & ~(2^k - 1)` does. -/
def clearLow (w k a : Nat) : Nat := a &&& (2 ^ w - 2 ^ k)

/-- Clearing low bits rounds down to a multiple of `2 ^ k`. -/
theorem clearLow_eq {w k a : Nat} (low : k ≤ w) (word : a < 2 ^ w) :
    clearLow w k a = a / 2 ^ k * 2 ^ k := by
  have positive : 0 < 2 ^ k := Nat.two_pow_pos k
  have larger : 2 ^ k ≤ 2 ^ w := Nat.pow_le_pow_right (by decide) low
  apply Nat.eq_of_testBit_eq
  intro i
  have mask : (2 ^ w - 2 ^ k).testBit i =
      (decide (i < w) && !decide (i < k)) := by
    have complement := Nat.testBit_two_pow_sub_succ
      (show 2 ^ k - 1 < 2 ^ w by omega) i
    rwa [show 2 ^ k - 1 + 1 = 2 ^ k by omega, Nat.testBit_two_pow_sub_one]
      at complement
  rw [clearLow, Nat.testBit_and, mask, Nat.testBit_mul_two_pow,
    Nat.testBit_div_two_pow]
  by_cases high : i < w
  · by_cases small : i < k
    · simp [small]
    · simp [high, small, Nat.sub_add_cancel (Nat.le_of_not_lt small),
        Nat.le_of_not_lt small]
  · have zero : a.testBit i = false := Nat.testBit_lt_two_pow
      (Nat.lt_of_lt_of_le word
        (Nat.pow_le_pow_right (by decide) (Nat.le_of_not_lt high)))
    by_cases small : k ≤ i
    · simp [zero, Nat.sub_add_cancel small]
    · simp [zero, small]

/-- Round up to a multiple of `2 ^ k` in `w`-bit arithmetic. -/
def alignUp (w k a : Nat) : Nat := clearLow w k ((a + (2 ^ k - 1)) % 2 ^ w)

/-- Clearing low bits leaves a multiple of `2 ^ k`, of any number. -/
theorem dvd_clearLow {w k : Nat} (low : k ≤ w) (a : Nat) : 2 ^ k ∣ clearLow w k a := by
  have mask : (2 ^ w - 2 ^ k) % 2 ^ k = 0 :=
    Nat.mod_eq_zero_of_dvd (Nat.dvd_sub (Nat.pow_dvd_pow 2 low) (Nat.dvd_refl _))
  rw [Nat.dvd_iff_mod_eq_zero, clearLow, Nat.and_mod_two_pow, mask, Nat.and_zero]

/-- Without overflow, rounding up is the ceiling. -/
theorem alignUp_eq {w k a : Nat} (low : k ≤ w)
    (fits : a + (2 ^ k - 1) < 2 ^ w) :
    alignUp w k a = (a + (2 ^ k - 1)) / 2 ^ k * 2 ^ k := by
  rw [alignUp, Nat.mod_eq_of_lt fits, clearLow_eq low fits]

/-- The result is a word, with or without overflow. -/
theorem alignUp_lt (w k a : Nat) : alignUp w k a < 2 ^ w :=
  Nat.lt_of_le_of_lt Nat.and_le_left (Nat.mod_lt _ (Nat.two_pow_pos w))

/-- A field of `k` bits at position `s`. -/
theorem shiftRight_and_mask (a s k : Nat) :
    (a >>> s) &&& (2 ^ k - 1) = a / 2 ^ s % 2 ^ k := by
  rw [Nat.and_two_pow_sub_one_eq_mod, Nat.shiftRight_eq_div_pow]

/-- Masking with `k` ones at position `s` keeps that field in place. -/
theorem and_shiftedMask (a s k : Nat) :
    a &&& ((2 ^ k - 1) * 2 ^ s) = a / 2 ^ s % 2 ^ k * 2 ^ s := by
  apply Nat.eq_of_testBit_eq
  intro i
  rw [Nat.testBit_and, Nat.testBit_mul_two_pow, Nat.testBit_mul_two_pow,
    Nat.testBit_mod_two_pow, Nat.testBit_div_two_pow,
    Nat.testBit_two_pow_sub_one]
  by_cases high : s ≤ i
  · simp [high, Nat.sub_add_cancel high, Bool.and_comm]
  · simp [high]

/-- Bits below a multiple of `2 ^ k` are added by a bitwise or. -/
theorem or_eq_add_of_dvd {a b k : Nat} (multiple : 2 ^ k ∣ a)
    (small : b < 2 ^ k) : a ||| b = a + b := by
  obtain ⟨q, rfl⟩ := multiple
  exact (Nat.two_pow_add_eq_or_of_lt small q).symm

end BitFields
