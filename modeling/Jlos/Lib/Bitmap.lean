import Mathlib

/-!
# Occupancy bitmaps in one 32-bit word

One bit for each of 32 lists says whether the list is non-empty.
-/
namespace Lib

open BitVec

abbrev Bitmap := BitVec 32

namespace Bitmap

def setBit (m : Bitmap) (i : Nat) : Bitmap := m ||| (1#32 <<< i)

def clearBit (m : Bitmap) (i : Nat) : Bitmap := m &&& ~~~(1#32 <<< i)

/-- The word `~0U << i`. -/
def maskFrom (i : Nat) : Bitmap := ~~~0#32 <<< i

/-- The number of trailing zeros, as a list index. -/
def lowest (m : Bitmap) : Nat := m.ctz.toNat

theorem getLsbD_one_shiftLeft (i j : Nat) (hi : i < 32) : (1#32 <<< i).getLsbD j = decide (j = i) := by
  obtain rfl | hj := eq_or_ne j i
  · simp [hi]
  · simp only [getLsbD_shiftLeft, getLsbD_one, hj, decide_false]
    simp only [Bool.and_eq_false_iff, Bool.not_eq_false', decide_eq_true_eq, decide_eq_false_iff_not]
    omega

theorem getLsbD_setBit (m : Bitmap) (i j : Nat) (hi : i < 32) :
    (setBit m i).getLsbD j = (m.getLsbD j || decide (j = i)) := by
  rw [setBit, getLsbD_or, getLsbD_one_shiftLeft i j hi]

theorem getLsbD_clearBit (m : Bitmap) (i j : Nat) (hi : i < 32) :
    (clearBit m i).getLsbD j = (m.getLsbD j && !decide (j = i)) := by
  rw [clearBit, getLsbD_and, getLsbD_not, getLsbD_one_shiftLeft i j hi]
  by_cases wide : j < 32
  · simp [wide]
  · simp [getLsbD_of_ge m j (le_of_not_gt wide)]

theorem getLsbD_and_maskFrom (m : Bitmap) (i j : Nat) :
    (m &&& maskFrom i).getLsbD j = (m.getLsbD j && decide (i ≤ j)) := by
  rw [getLsbD_and]
  by_cases wide : j < 32
  · have bit : (maskFrom i).getLsbD j = decide (i ≤ j) := by
      rw [maskFrom, getLsbD_shiftLeft, getLsbD_not]
      by_cases hij : i ≤ j
      · simp [wide, hij]
        omega
      · simp [hij, lt_of_not_ge hij]
    rw [bit]
  · simp [getLsbD_of_ge m j (le_of_not_gt wide)]

theorem lowest_set (m : Bitmap) (ne : m ≠ 0) : m.getLsbD m.lowest = true := getLsbD_true_ctz_of_ne_zero ne

theorem eq_zero_iff (m : Bitmap) : m = 0 ↔ ∀ j, m.getLsbD j = false := by
  constructor
  · rintro rfl j
    simp
  · intro none
    apply eq_of_getLsbD_eq
    intro i _
    simp [none i]

end Bitmap

end Lib
