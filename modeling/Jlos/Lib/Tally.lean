import Mathlib

/-!
# Counting what the members of a family do

How often something happens in a finite family, and how the number changes when one member changes.
-/
namespace Lib

open Function Finset

variable {ι α : Type} [Fintype ι]

/-- The sum of a weight over a family. -/
def tally (g : α → Nat) (f : ι → α) : Nat := ∑ i, g (f i)

theorem tally_zero {g : α → Nat} {f : ι → α} (none : ∀ i, g (f i) = 0) : tally g f = 0 :=
  sum_eq_zero fun i _ => none i

theorem le_tally (g : α → Nat) (f : ι → α) (t : ι) : g (f t) ≤ tally g f :=
  single_le_sum (f := fun i => g (f i)) (fun _ _ => Nat.zero_le _) (mem_univ t)

theorem add_le_tally (g : α → Nat) (f : ι → α) {t u : ι} (ne : t ≠ u) : g (f t) + g (f u) ≤ tally g f :=
  add_le_sum (f := fun i => g (f i)) (fun _ _ => Nat.zero_le _) (mem_univ t) (mem_univ u) ne

/-- A tally whose weights depend on the member. -/
def tallyAt (g : ι → α → Nat) (f : ι → α) : Nat := ∑ i, g i (f i)

theorem tallyAt_single {g : ι → α → Nat} {f : ι → α} (t : ι) (others : ∀ i, i ≠ t → g i (f i) = 0) :
    tallyAt g f = g t (f t) :=
  sum_eq_single t (fun i _ ne => others i ne) fun absent => absurd (mem_univ t) absent

/-- When one member changes, the tally changes by what this member contributes. -/
theorem tallyAt_update [DecidableEq ι] (g : ι → α → Nat) (f : ι → α) (t : ι) (x : α) :
    tallyAt g (update f t x) + g t (f t) = tallyAt g f + g t x := by
  have before := sum_update_of_mem (mem_univ t) (fun i => g i (f i)) (g t (f t))
  have after := sum_update_of_mem (mem_univ t) (fun i => g i (f i)) (g t x)
  rw [update_eq_self] at before
  simp only [tallyAt, apply_update g, before, after]
  omega

theorem tally_update [DecidableEq ι] (g : α → Nat) (f : ι → α) (t : ι) (x : α) :
    tally g (update f t x) + g (f t) = tally g f + g x := tallyAt_update (fun _ => g) f t x

end Lib
