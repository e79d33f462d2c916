import Mathlib

/-!
# Aligned power-of-two blocks

A block of order `o` starts at a multiple of `2 ^ o`; its buddy is the other half of the block of
order `o + 1` that contains it.
-/
namespace Lib

/-- `i` lies in the block of order `o` that starts at `f`. -/
def InBlock (f o i : Nat) : Prop := f ≤ i ∧ i < f + 2 ^ o
  deriving Decidable

/-- `i` is one of the `n` numbers from `f` on. -/
def InRange (f n i : Nat) : Prop := f ≤ i ∧ i < f + n
  deriving Decidable

theorem InBlock.self (f o : Nat) : InBlock f o f := ⟨le_refl f, Nat.lt_add_of_pos_right (Nat.two_pow_pos o)⟩

theorem two_mul_pow (o : Nat) : 2 ^ (o + 1) = 2 * 2 ^ o := by
  rw [pow_succ, mul_comm]

private theorem xor_one_cases (q : Nat) : (q ^^^ 1 = q + 1 ∧ q % 2 = 0) ∨ (q ^^^ 1 = q - 1 ∧ q % 2 = 1) := by
  rcases Nat.mod_two_eq_zero_or_one q with even | odd
  · left
    refine ⟨?_, even⟩
    rw [Nat.xor_one_of_even (Nat.even_iff.mpr even)]
  · right
    refine ⟨?_, odd⟩
    rw [Nat.xor_one_of_odd (Nat.odd_iff.mpr odd)]

/-- Flipping bit `o` of an aligned start moves to the other half of the enclosing block:
up from a lower half, down from an upper half. -/
theorem xor_two_pow_cases (f o : Nat) (aligned : 2 ^ o ∣ f) : (f ^^^ 2 ^ o = f + 2 ^ o ∧ 2 ^ (o + 1) ∣ f) ∨
    ((f ^^^ 2 ^ o) + 2 ^ o = f ∧ 2 ^ (o + 1) ∣ f ^^^ 2 ^ o) := by
  obtain ⟨q, rfl⟩ := aligned
  have flip : 2 ^ o * q ^^^ 2 ^ o = 2 ^ o * (q ^^^ 1) := by
    have shifted := Nat.shiftLeft_xor_distrib (a := q) (b := 1) (i := o)
    simp only [Nat.shiftLeft_eq, one_mul] at shifted
    rw [mul_comm _ (q ^^^ 1), shifted, mul_comm]
  rw [flip]
  rcases xor_one_cases q with ⟨up, even⟩ | ⟨down, odd⟩
  · left
    obtain ⟨r, rfl⟩ := Nat.dvd_of_mod_eq_zero even
    rw [up]
    exact ⟨by ring, ⟨r, by rw [two_mul_pow]; ring⟩⟩
  · right
    obtain ⟨r, hr⟩ : ∃ r, q = 2 * r + 1 := ⟨q / 2, by omega⟩
    subst hr
    rw [down, Nat.add_sub_cancel]
    exact ⟨by ring, ⟨r, by rw [two_mul_pow]; ring⟩⟩

/-- Setting bit `o` of a start aligned to the next order is adding the half block. -/
theorem or_two_pow_of_dvd (f o : Nat) (aligned : 2 ^ (o + 1) ∣ f) : f ||| 2 ^ o = f + 2 ^ o := by
  obtain ⟨q, rfl⟩ := aligned
  exact (Nat.two_pow_add_eq_or_of_lt (Nat.pow_lt_pow_right (by omega) (by omega)) q).symm

theorem and_pred_eq_zero_iff (f o : Nat) : f &&& (2 ^ o - 1) = 0 ↔ 2 ^ o ∣ f := by
  rw [Nat.and_two_pow_sub_one_eq_mod]
  exact (Nat.dvd_iff_mod_eq_zero).symm

theorem dvd_of_succ_dvd {f o : Nat} (aligned : 2 ^ (o + 1) ∣ f) : 2 ^ o ∣ f :=
  dvd_trans (pow_dvd_pow 2 (Nat.le_succ o)) aligned

/-! ### Halves and buddies -/

theorem inBlock_succ (f o i : Nat) : InBlock f (o + 1) i ↔ InBlock f o i ∨ InBlock (f + 2 ^ o) o i := by
  simp only [InBlock]
  omega

theorem InBlock.not_upper {f o i : Nat} (low : InBlock f o i) : ¬InBlock (f + 2 ^ o) o i := by
  simp only [InBlock] at *
  omega

/-- A block and its buddy make up the block of the next order that starts at the lower
of the two. -/
theorem buddy_union {f o : Nat} (aligned : 2 ^ o ∣ f) : let buddy := f ^^^ 2 ^ o
    let merged := if buddy < f then buddy else f
    2 ^ (o + 1) ∣ merged ∧ ∀ i, InBlock merged (o + 1) i ↔ InBlock f o i ∨ InBlock buddy o i := by
  rcases xor_two_pow_cases f o aligned with ⟨above, dvd⟩ | ⟨below, dvd⟩
  · have order : ¬f ^^^ 2 ^ o < f := by omega
    simp only [if_neg order]
    refine ⟨dvd, fun i => ?_⟩
    rw [above, inBlock_succ]
  · have order : f ^^^ 2 ^ o < f := by omega
    simp only [if_pos order]
    refine ⟨dvd, fun i => ?_⟩
    rw [inBlock_succ, below, or_comm]

theorem inRange_split {f n o : Nat} (fits : 2 ^ o ≤ n) (i : Nat) :
    InRange f n i ↔ InBlock f o i ∨ InRange (f + 2 ^ o) (n - 2 ^ o) i := by
  simp only [InRange, InBlock]
  generalize 2 ^ o = size at fits ⊢
  omega

theorem inBlock_trim {f n o : Nat} (fits : n ≤ 2 ^ o) (i : Nat) :
    InBlock f o i ↔ InRange f n i ∨ InRange (f + n) (2 ^ o - n) i := by
  simp only [InRange, InBlock]
  generalize 2 ^ o = size at fits ⊢
  omega

end Lib
