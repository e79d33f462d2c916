import Mathlib

/-!
# A table without holes

A table whose first entries are in use, and the slots that its elements know. An element is added
behind the last one, and the last one takes the place of an element that is removed.
-/
namespace Lib

open Function

variable {κ : Type} [DecidableEq κ]

/-- The first `num` entries are in use, and `slot` says where each element is. -/
structure Slots (table : Nat → Option κ) (num : Nat) (slot : κ → Option Nat) : Prop where
  dense : ∀ i, table i ≠ none ↔ i < num
  slots : ∀ i k, table i = some k ↔ slot k = some i

namespace Slots

variable {table : Nat → Option κ} {num i : Nat} {slot : κ → Option Nat} {k l : κ}

theorem push (h : Slots table num slot) (fresh : slot k = none) :
    Slots (update table num (some k)) (num + 1) (update slot k (some num)) := by
  have free : table num = none := by
    by_contra used
    exact absurd ((h.dense num).mp used) (Nat.lt_irrefl num)
  constructor
  case dense =>
    intro j
    rw [update_apply]
    split
    next here => simp [here]
    next other =>
      rw [h.dense]
      omega
  case slots =>
    intro j k'
    have old := h.slots j k'
    grind

theorem swap (h : Slots table num slot) (at_i : slot k = some i) (last : table (num - 1) = some l) :
    Slots (update (update table i (some l)) (num - 1) none) (num - 1) (update (update slot l (some i)) k none) := by
  have here := (h.slots i k).mpr at_i
  have at_last := (h.slots _ l).mp last
  constructor
  case dense =>
    intro j
    have old := h.dense j
    grind
  case slots =>
    intro j k'
    have old := h.slots j k'
    grind

end Slots

end Lib
