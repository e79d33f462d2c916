import Jlos.Lib.Bitmap
import Jlos.Lib.Placed

/-!
# Buckets with an occupancy bitmap

Up to 32 lists of keys and a word whose bit `c` says whether list `c` is non-empty. `Holds` ties
both to a function that says in which bucket each key is.
-/
namespace Lib

open Function List

structure Buckets where
  bitmap : Bitmap
  heads : Nat → List Nat

namespace Buckets

def empty : Buckets := ⟨0, fun _ => []⟩

def add (b : Buckets) (c k : Nat) : Buckets :=
  ⟨b.bitmap.setBit c, update b.heads c (k :: b.heads c)⟩

/-- Clears the bit of bucket `c` if the bucket is empty. -/
def settle (b : Buckets) (c : Nat) : Buckets :=
  if b.heads c = [] then { b with bitmap := b.bitmap.clearBit c } else b

/-- Unlinks `k` from the bucket that holds it, if one does, and then looks at bucket `c`. -/
def unlink (b : Buckets) (c k : Nat) : Buckets :=
  settle { b with heads := fun c => (b.heads c).erase k } c

/-- Takes the first key of bucket `c`. -/
def pop (b : Buckets) (c : Nat) : Option (Nat × Buckets) :=
  match b.heads c with
  | [] => none
  | k :: rest => some (k, settle { b with heads := update b.heads c rest } c)

/-- The placement `place` says which bucket holds which key. -/
structure Holds (b : Buckets) (place : Nat → Option Nat) : Prop extends Placed b.heads place where
  bit : ∀ c, b.bitmap.getLsbD c = true ↔ b.heads c ≠ []

variable {b : Buckets} {place : Nat → Option Nat} {c k : Nat}

theorem holds_empty : empty.Holds fun _ => none := ⟨Placed.empty, fun _ => by simp [empty]⟩

theorem Holds.lt (h : b.Holds place) (at_c : place k = some c) : c < 32 := by
  have bit := (h.bit c).mpr (ne_nil_of_mem ((h.mem c k).mpr at_c))
  by_contra wide
  rw [BitVec.getLsbD_of_ge _ _ (le_of_not_gt wide)] at bit
  exact Bool.noConfusion bit

theorem Holds.add (h : b.Holds place) (lt : c < 32) (free : place k = none) :
    (b.add c k).Holds (update place k (some c)) := by
  refine ⟨h.toPlaced.insert free, fun c' => ?_⟩
  obtain rfl | same := eq_or_ne c' c
  · simp [Buckets.add, Bitmap.getLsbD_setBit _ _ _ lt]
  · simpa [Buckets.add, Bitmap.getLsbD_setBit _ _ _ lt, same] using h.bit c'

/-- Settling repairs the one bit that may be stale. -/
theorem settle_holds {lists : Nat → List Nat} {w : Bitmap} (lt : c < 32) (placed : Placed lists place)
    (others : ∀ c', c' ≠ c → (w.getLsbD c' = true ↔ lists c' ≠ [])) (stale : lists c ≠ [] → w.getLsbD c = true) :
    (settle ⟨w, lists⟩ c).Holds place := by
  by_cases none : lists c = []
  · have eq : settle ⟨w, lists⟩ c = ⟨w.clearBit c, lists⟩ := by simp [settle, none]
    rw [eq]
    refine ⟨placed, fun c' => ?_⟩
    obtain rfl | same := eq_or_ne c' c
    · simp [none, Bitmap.getLsbD_clearBit _ _ _ lt]
    · simpa [Bitmap.getLsbD_clearBit _ _ _ lt, same] using others c' same
  · have eq : settle ⟨w, lists⟩ c = ⟨w, lists⟩ := by simp [settle, none]
    rw [eq]
    refine ⟨placed, fun c' => ?_⟩
    obtain rfl | same := eq_or_ne c' c
    · simpa [none] using stale none
    · exact others c' same

theorem Holds.unlink (h : b.Holds place) (at_c : place k = some c) : (b.unlink c k).Holds (update place k none) := by
  have erased := h.toPlaced.erase_eq_update at_c
  rw [Buckets.unlink, erased]
  refine settle_holds (h.lt at_c) (h.toPlaced.remove at_c) (fun c' other => ?_) (fun some => ?_)
  · rw [update_of_ne other]
    exact h.bit c'
  · rw [update_self] at some
    exact (h.bit c).mpr fun none => some (by rw [none]; rfl)

theorem Holds.pop (h : b.Holds place) {b' : Buckets} (popped : b.pop c = some (k, b')) :
    place k = some c ∧ b'.Holds (update place k none) := by
  unfold Buckets.pop at popped
  cases list : b.heads c with
  | nil =>
    rw [list] at popped
    cases popped
  | cons first rest =>
    rw [list] at popped
    simp only [Option.some.injEq, Prod.mk.injEq] at popped
    obtain ⟨rfl, rfl⟩ := popped
    have at_c : place first = some c := (h.mem c first).mp (list ▸ mem_cons_self)
    have unlinked := h.unlink at_c
    rw [Buckets.unlink, h.toPlaced.erase_eq_update at_c, list, erase_cons_head] at unlinked
    exact ⟨at_c, unlinked⟩

/-- The lowest non-empty bucket the mask lets through can be popped. -/
theorem Holds.pop_lowest (h : b.Holds place) {mask : Bitmap} (nonzero : b.bitmap &&& mask ≠ 0) :
    ∃ k b', b.pop (b.bitmap &&& mask).lowest = some (k, b') := by
  have bit := Bitmap.lowest_set _ nonzero
  rw [BitVec.getLsbD_and, Bool.and_eq_true] at bit
  have nonempty := (h.bit _).mp bit.1
  unfold Buckets.pop
  cases list : b.heads (b.bitmap &&& mask).lowest with
  | nil => exact absurd list nonempty
  | cons k rest => exact ⟨k, _, rfl⟩

end Buckets

end Lib
