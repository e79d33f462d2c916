import Mathlib

/-!
# Tilings of an interval

A list of segments, each with a position and a length, tiles `[s, e)` if the segments
follow each other without gaps from `s` to `e`.
-/
namespace Lib

open List

variable {α : Type} {pos len : α → Nat} {l : List α}

def Tiles (pos len : α → Nat) : Nat → List α → Nat → Prop
  | s, [], e => s = e
  | s, c :: l, e => pos c = s ∧ Tiles pos len (s + len c) l e

instance decidableTiles : ∀ s l e, Decidable (Tiles pos len s l e)
  | s, [], e => inferInstanceAs (Decidable (s = e))
  | s, c :: l, e =>
    haveI := decidableTiles (s + len c) l e
    inferInstanceAs (Decidable (pos c = s ∧ Tiles pos len (s + len c) l e))

section

variable {s e : Nat}

theorem tiles_append {l₁ l₂ : List α} :
    Tiles pos len s (l₁ ++ l₂) e ↔ ∃ m, Tiles pos len s l₁ m ∧ Tiles pos len m l₂ e := by
  induction l₁ generalizing s with
  | nil => simp [Tiles]
  | cons c l₁ ih => simp [Tiles, ih, and_assoc]

theorem tiles_append_cons {pre post : List α} {c : α} : Tiles pos len s (pre ++ c :: post) e ↔
      Tiles pos len s pre (pos c) ∧ Tiles pos len (pos c + len c) post e := by
  rw [tiles_append]
  constructor
  · rintro ⟨m, before, rfl, after⟩
    exact ⟨before, after⟩
  · rintro ⟨before, after⟩
    exact ⟨pos c, before, rfl, after⟩

section

variable (h : Tiles pos len s l e)
include h

theorem Tiles.le : s ≤ e := by
  induction l generalizing s with
  | nil => exact Nat.le_of_eq h
  | cons c l ih => exact Nat.le_trans (Nat.le_add_right s (len c)) (ih h.2)

theorem Tiles.bounds {c : α} (member : c ∈ l) : s ≤ pos c ∧ pos c + len c ≤ e := by
  obtain ⟨pre, post, rfl⟩ := append_of_mem member
  obtain ⟨before, after⟩ := tiles_append_cons.mp h
  exact ⟨before.le, after.le⟩

theorem Tiles.apart {c d : α} (memberC : c ∈ l)
    (memberD : d ∈ l) (ne : pos c ≠ pos d) : pos c + len c ≤ pos d ∨ pos d + len d ≤ pos c := by
  obtain ⟨pre, post, rfl⟩ := append_of_mem memberC
  obtain ⟨before, after⟩ := tiles_append_cons.mp h
  rcases mem_append.mp memberD with front | rest
  · exact Or.inr (before.bounds front).2
  · rcases mem_cons.mp rest with rfl | back
    · exact absurd rfl ne
    · exact Or.inl (after.bounds back).1

theorem Tiles.pairwise : l.Pairwise fun c d => pos c + len c ≤ pos d := by
  induction l generalizing s with
  | nil => exact List.Pairwise.nil
  | cons c l ih =>
    refine pairwise_cons.mpr ⟨fun d member => ?_, ih h.2⟩
    rw [h.1]
    exact (h.2.bounds member).1

theorem Tiles.nodup_pos (solid : ∀ c, 0 < len c) : (l.map pos).Nodup := by
  rw [nodup_iff_pairwise_ne, pairwise_map]
  exact h.pairwise.imp fun {c _} apart eq => by
    have := solid c
    omega

end

end

end Lib
