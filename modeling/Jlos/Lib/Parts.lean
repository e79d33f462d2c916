import Mathlib

/-!
# The parts of a list between separators

The parts that are not empty, and how a scan from the front and a split at the last separator find
them.
-/
namespace Lib

open List

variable {α : Type} {sep b : α} {p : List α}

/-- The last part of a list that does not end with a separator. -/
theorem exists_last_part (mem : sep ∈ p) (last : p.getLast? ≠ some sep) :
    ∃ front leaf, p = front ++ sep :: leaf ∧ sep ∉ leaf ∧ leaf ≠ [] := by
  obtain ⟨leaf, front, eq, plain⟩ := eq_append_cons_of_mem (mem_reverse.mpr mem)
  refine ⟨front.reverse, leaf.reverse, ?_, by simpa using plain, fun none => ?_⟩
  · simpa using congrArg List.reverse eq
  · rw [← head?_reverse, eq, reverse_eq_nil_iff.mp none] at last
    exact last rfl

variable [DecidableEq α]

def parts (sep : α) (p : List α) : List (List α) := (p.splitOn sep).filter (· ≠ [])

theorem parts_append (sep : α) (xs ys : List α) : parts sep (xs ++ sep :: ys) = parts sep xs ++ parts sep ys := by
  simp [parts, splitOn_append_cons_self]

theorem parts_single (first : p ≠ []) (plain : sep ∉ p) : parts sep p = [p] := by
  simp [parts, splitOn_eq_singleton plain, first]

theorem parts_sep (sep : α) (p : List α) : parts sep (sep :: p) = parts sep p := parts_append sep [] p

theorem parts_skip (sep : α) (p : List α) : parts sep (p.dropWhile (· = sep)) = parts sep p := by
  induction p with
  | nil => rfl
  | cons b p ih =>
    obtain rfl | plain := eq_or_ne b sep
    · simp [parts_sep, ih]
    · simp [plain]

/-- The first part of a list that does not start with a separator. -/
theorem parts_cons (plain : b ≠ sep) : ∃ rest, (b :: p).takeWhile (· ≠ sep) ++ rest = b :: p ∧
    (b :: p).takeWhile (· ≠ sep) ≠ [] ∧ parts sep (b :: p) = (b :: p).takeWhile (· ≠ sep) :: parts sep rest := by
  have ends : sep ∉ (b :: p).takeWhile (· ≠ sep) := fun mem => by simpa using mem_takeWhile_imp mem
  have first : (b :: p).takeWhile (· ≠ sep) ≠ [] := by simp [plain]
  have head := head?_dropWhile_not (· ≠ sep) (b :: p)
  have whole : (b :: p).takeWhile (· ≠ sep) ++ (b :: p).dropWhile (· ≠ sep) = b :: p := takeWhile_append_dropWhile
  refine ⟨(b :: p).dropWhile (· ≠ sep), whole, first, ?_⟩
  generalize (b :: p).takeWhile (· ≠ sep) = c, (b :: p).dropWhile (· ≠ sep) = rest at *
  rw [← whole]
  cases rest with
  | nil =>
    rw [append_nil, parts_single first ends]
    rfl
  | cons a rest =>
    obtain rfl : a = sep := by simpa using head
    rw [parts_append, parts_single first ends, parts_sep]
    rfl

end Lib
