import Mathlib

/-!
# Keys in a family of lists

A family of lists without duplicates, and the function that says in which of them each key
is, if it is in one. Adding and taking out a key are updates of both.
-/
namespace Lib

open Function

variable {ι κ : Type} [DecidableEq ι] [DecidableEq κ]

/-- `place` says which list holds which key. -/
structure Placed (lists : ι → List κ) (place : κ → Option ι) : Prop where
  mem : ∀ c k, k ∈ lists c ↔ place k = some c
  nodup : ∀ c, (lists c).Nodup

namespace Placed

variable {lists : ι → List κ} {place : κ → Option ι} {c : ι} {k : κ}

omit [DecidableEq ι] [DecidableEq κ] in
theorem empty : Placed (fun _ : ι => ([] : List κ)) fun _ => none := ⟨by simp, fun _ => List.nodup_nil⟩

omit [DecidableEq ι] [DecidableEq κ] in
theorem not_mem (h : Placed lists place) (other : place k ≠ some c) : k ∉ lists c :=
  fun member => other ((h.mem c k).mp member)

omit [DecidableEq ι] in
theorem stay (h : Placed lists place) {x : Option ι} (there : place k = x) : Placed lists (update place k x) := by
  rwa [← there, update_eq_self]

theorem insert (h : Placed lists place) (free : place k = none) :
    Placed (update lists c (k :: lists c)) (update place k (some c)) := by
  have absent : ∀ c', k ∉ lists c' := fun c' => h.not_mem (by simp [free])
  refine ⟨fun c' k' => ?_, fun c' => ?_⟩
  · obtain rfl | same := eq_or_ne c' c
    · by_cases eq : k' = k
      · subst eq
        simp
      · simp [eq, h.mem]
    · obtain rfl | eq := eq_or_ne k' k
      · simp [same, absent c', Ne.symm same]
      · simp [same, eq, h.mem]
  · obtain rfl | same := eq_or_ne c' c
    · simpa [absent c'] using h.nodup c'
    · simpa [same] using h.nodup c'

/-- Erasing a key from every list takes it out of the one that holds it. -/
theorem erase_eq_update (h : Placed lists place) (at_c : place k = some c) :
    (fun c' => (lists c').erase k) = update lists c ((lists c).erase k) := by
  funext c'
  obtain rfl | same := eq_or_ne c' c
  · rw [update_self]
  · have other : place k ≠ some c' := by
      rw [at_c]
      exact fun eq => same (Option.some.inj eq).symm
    rw [update_of_ne same, List.erase_of_not_mem (h.not_mem other)]

theorem remove (h : Placed lists place) (at_c : place k = some c) :
    Placed (update lists c ((lists c).erase k)) (update place k none) := by
  rw [← h.erase_eq_update at_c]
  refine ⟨fun c' k' => ?_, fun c' => (h.nodup c').erase k⟩
  rw [(h.nodup c').mem_erase_iff, h.mem]
  obtain rfl | eq := eq_or_ne k' k
  · simp
  · simp [eq]

/-- A key that was taken out goes into a list. -/
theorem insert_update (h : Placed lists (update place k none)) :
    Placed (update lists c (k :: lists c)) (update place k (some c)) := by
  have added := h.insert (c := c) (update_self k none place)
  rwa [update_idem] at added

/-- A key that was put into a list comes out again. -/
theorem remove_update (h : Placed lists (update place k (some c))) :
    Placed (update lists c ((lists c).erase k)) (update place k none) := by
  have taken := h.remove (update_self k (some c) place)
  rwa [update_idem] at taken

end Placed

end Lib
