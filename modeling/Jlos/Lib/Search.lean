import Mathlib

/-!
# Searching and replacing in a list

The first element of a list that a partial function takes, with what stands before and behind it;
and lists whose elements have distinct keys, where an element may have none.
-/
namespace Lib

open List

variable {α β κ : Type}

/-- The first element that `f` takes: what stands before it, the element, its value, and what stands
behind it. -/
def search (f : α → Option β) : List α → Option (List α × α × β × List α)
  | [] => none
  | x :: xs =>
    match f x with
    | some y => some ([], x, y, xs)
    | none => (search f xs).map fun found => (x :: found.1, found.2)

theorem search_eq_none {f : α → Option β} {xs : List α} (failed : search f xs = none) : ∀ x ∈ xs, f x = none := by
  induction xs with
  | nil => simp
  | cons y ys ih =>
    unfold search at failed
    split at failed
    · cases failed
    next here => exact forall_mem_cons.mpr ⟨here, ih (Option.map_eq_none_iff.mp failed)⟩

theorem search_some {f : α → Option β} {xs : List α} {found : List α × α × β × List α} (eq : search f xs = some found) :
    xs = found.1 ++ found.2.1 :: found.2.2.2 ∧ f found.2.1 = some found.2.2.1 := by
  induction xs generalizing found with
  | nil => cases eq
  | cons x xs ih =>
    unfold search at eq
    split at eq
    case h_1 y takes =>
      cases eq
      exact ⟨rfl, takes⟩
    case h_2 =>
      obtain ⟨rest, deeper, rfl⟩ := Option.map_eq_some_iff.mp eq
      obtain ⟨whole, takes⟩ := ih deeper
      exact ⟨by rw [whole]; rfl, takes⟩

/-- The keys of the elements that have one are distinct. -/
def Distinct (key : α → Option κ) (xs : List α) : Prop := (xs.filterMap key).Nodup

instance [DecidableEq κ] (key : α → Option κ) (xs : List α) : Decidable (Distinct key xs) :=
  inferInstanceAs (Decidable (List.Nodup _))

variable {key : α → Option κ} {x y : α} {xs before behind : List α}

/-- An element is replaced by one that has its key, or none. -/
theorem filterMap_replace_sublist (kept : key y = key x ∨ key y = none) :
    (before ++ y :: behind).filterMap key <+ (before ++ x :: behind).filterMap key := by
  rw [filterMap_append, filterMap_append]
  refine Sublist.append (Sublist.refl _) ?_
  rcases kept with same | none
  · rw [filterMap_cons, filterMap_cons, same]
  · rw [filterMap_cons_none none]
    exact (sublist_cons_self x behind).filterMap key

theorem filterMap_modify_sublist {f : α → α} (kept : ∀ x, key (f x) = key x ∨ key (f x) = none)
    (i : Nat) : (xs.modify i f).filterMap key <+ xs.filterMap key := by
  by_cases inside : i < xs.length
  · have split : xs = xs.take i ++ xs[i] :: xs.drop (i + 1) := by simp
    rw [modify_eq_take_cons_drop inside]
    nth_rewrite 4 [split]
    exact filterMap_replace_sublist (kept _)
  · rw [modify_eq_self (Nat.le_of_not_lt inside)]

end Lib
