import Mathlib

/-!
# Rounding to powers of two

Masking a `w`-bit word with the complement of `2 ^ k - 1`, that is with `2 ^ w - 2 ^ k`, clears its
low `k` bits.
-/
namespace Lib

theorem land_two_pow_sub {x w k : Nat} (lt : x < 2 ^ w) (le : k ≤ w) : x &&& (2 ^ w - 2 ^ k) = x / 2 ^ k * 2 ^ k := by
  apply Nat.eq_of_testBit_eq
  intro i
  have pos : 0 < 2 ^ k := Nat.two_pow_pos k
  have small : 2 ^ k - 1 < 2 ^ w :=
    Nat.lt_of_lt_of_le (Nat.sub_lt pos Nat.one_pos) (Nat.pow_le_pow_right Nat.two_pos le)
  have mask : (2 ^ w - 2 ^ k).testBit i = (decide (i < w) && !decide (i < k)) := by
    have bits := Nat.testBit_two_pow_sub_succ small i
    rwa [Nat.sub_add_cancel pos, Nat.testBit_two_pow_sub_one] at bits
  rw [Nat.testBit_and, mask, Nat.testBit_mul_two_pow, Nat.testBit_div_two_pow]
  by_cases low : i < k
  · simp [low, Nat.not_le.mpr low]
  · by_cases high : i < w
    · simp [low, high, Nat.not_lt.mp low]
    · have zero : x.testBit i = false :=
        Nat.testBit_lt_two_pow (Nat.lt_of_lt_of_le lt (Nat.pow_le_pow_right Nat.two_pos (Nat.not_lt.mp high)))
      simp [low, high, Nat.not_lt.mp low, zero]

end Lib
