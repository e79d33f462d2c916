import Mathlib

/-!
# Counting below a bound

The number of indices below a bound that a decidable property holds of, and how it changes with one
index or with the bound.
-/
namespace Lib

open Function

def countBelow (p : Nat → Bool) : Nat → Nat
  | 0 => 0
  | n + 1 => countBelow p n + (p n).toNat

variable {p q : Nat → Bool} {n : Nat}

theorem countBelow_congr (same : ∀ i < n, q i = p i) : countBelow q n = countBelow p n := by
  induction n with
  | zero => rfl
  | succ n ih =>
    rw [countBelow, countBelow, ih fun i lt => same i (Nat.lt_succ_of_lt lt), same n (Nat.lt_succ_self n)]

theorem countBelow_le (sub : ∀ i < n, q i = true → p i = true) : countBelow q n ≤ countBelow p n := by
  induction n with
  | zero => exact Nat.le_refl 0
  | succ n ih =>
    have below := ih fun i lt => sub i (Nat.lt_succ_of_lt lt)
    have here : (q n).toNat ≤ (p n).toNat := by
      cases met : q n with
      | false => exact Nat.zero_le _
      | true => exact Nat.le_of_eq (by rw [sub n (Nat.lt_succ_self n) met])
    exact Nat.add_le_add below here

/-- Two properties that differ at one index only. -/
theorem countBelow_change {k : Nat} (lt : k < n) (same : ∀ i < n, i ≠ k → q i = p i) :
    countBelow q n + (p k).toNat = countBelow p n + (q k).toNat := by
  induction n with
  | zero => exact absurd lt (Nat.not_lt_zero k)
  | succ n ih =>
    rw [countBelow, countBelow]
    rcases Nat.lt_succ_iff_lt_or_eq.mp lt with below | rfl
    · have rest := ih below fun i lt ne => same i (Nat.lt_succ_of_lt lt) ne
      rw [same n (Nat.lt_succ_self n) (Nat.ne_of_gt below)]
      omega
    · rw [countBelow_congr fun i lt => same i (Nat.lt_succ_of_lt lt) (Nat.ne_of_lt lt)]
      omega

theorem countBelow_of_le {m : Nat} (le : n ≤ m) (none : ∀ i, n ≤ i → p i = false) :
    countBelow p m = countBelow p n := by
  induction le with
  | refl => rfl
  | step le ih =>
    rw [countBelow, ih, none _ le]
    rfl

theorem countBelow_pos {k : Nat} (lt : k < n) (met : p k = true) : 0 < countBelow p n := by
  have change := countBelow_change (q := update p k false) lt fun i _ ne => update_of_ne ne ..
  rw [met, update_self, Bool.toNat_true, Bool.toNat_false] at change
  omega

theorem countBelow_eq_zero (none : ∀ i < n, p i = false) : countBelow p n = 0 := by
  induction n with
  | zero => rfl
  | succ n ih =>
    rw [countBelow, ih fun i lt => none i (Nat.lt_succ_of_lt lt), none n (Nat.lt_succ_self n)]
    rfl

end Lib
