import Mathlib

/-!
# Circular doubly linked lists

Lists whose nodes are part of the objects they link, with one node as their head. The operations
only write pointers; `Ring l h xs` says which nodes a walk from the head meets.
-/
namespace Lib

open Function List

variable {ν : Type}

/-- The pointers of all nodes. -/
structure Links (ν : Type) where
  next : ν → ν
  prev : ν → ν

namespace Links

section ops

variable [DecidableEq ν]

def init (l : Links ν) (x : ν) : Links ν := ⟨update l.next x x, update l.prev x x⟩

def addBetween (l : Links ν) (x p n : ν) : Links ν :=
  ⟨update (update l.next x n) p x, update (update l.prev n x) x p⟩

def addTail (l : Links ν) (x h : ν) : Links ν := l.addBetween x (l.prev h) h

def join (l : Links ν) (p n : ν) : Links ν := ⟨update l.next p n, update l.prev n p⟩

def delInit (l : Links ν) (x : ν) : Links ν := (l.join (l.prev x) (l.next x)).init x

end ops

/-- The nodes strictly between two others. -/
def Path (l : Links ν) : ν → List ν → ν → Prop
  | x, [], y => l.next x = y ∧ l.prev y = x
  | x, z :: zs, y => (l.next x = z ∧ l.prev z = x) ∧ l.Path z zs y

variable {l l' : Links ν} {x y h : ν} {xs ys : List ν}

theorem Path.append_iff {z : ν} : l.Path x (xs ++ z :: ys) y ↔ l.Path x xs z ∧ l.Path z ys y := by
  induction xs generalizing x with
  | nil => simp [Path]
  | cons w ws ih => simp [Path, ih, and_assoc]

theorem Path.congr (path : l.Path x xs y) (next : ∀ z ∈ x :: xs, l'.next z = l.next z)
    (prev : ∀ z ∈ xs ++ [y], l'.prev z = l.prev z) : l'.Path x xs y := by
  induction xs generalizing x with
  | nil =>
    obtain ⟨forth, back⟩ := path
    exact ⟨(next x (by simp)).trans forth, (prev y (by simp)).trans back⟩
  | cons z zs ih =>
    obtain ⟨⟨forth, back⟩, rest⟩ := path
    constructor
    · exact ⟨(next x (by simp)).trans forth, (prev z (by simp)).trans back⟩
    · apply ih rest
      · exact fun w mem => next w (mem_cons_of_mem _ mem)
      · exact fun w mem => prev w (by simp only [cons_append]; exact mem_cons_of_mem _ mem)

theorem Path.prev_mem (path : l.Path x xs y) : l.prev y ∈ x :: xs := by
  induction xs generalizing x with
  | nil =>
    rw [path.2]
    exact mem_singleton_self x
  | cons z zs ih => exact mem_cons_of_mem _ (ih path.2)

theorem Path.next_mem (path : l.Path x xs y) : l.next x ∈ xs ++ [y] := by
  cases xs with
  | nil =>
    rw [path.1]
    exact mem_singleton_self y
  | cons z zs =>
    rw [path.1.1]
    exact mem_cons_self

/-- The list with head `h` has the nodes `xs`. -/
structure Ring (l : Links ν) (h : ν) (xs : List ν) : Prop where
  nodup : (h :: xs).Nodup
  path : l.Path h xs h

namespace Ring

theorem congr (ring : l.Ring h xs) (next : ∀ z ∈ h :: xs, l'.next z = l.next z)
    (prev : ∀ z ∈ h :: xs, l'.prev z = l.prev z) : l'.Ring h xs := by
  refine ⟨ring.nodup, ring.path.congr next fun z mem => prev z ?_⟩
  rcases mem_append.mp mem with inside | last
  · exact mem_cons_of_mem _ inside
  · rw [mem_singleton.mp last]
    exact mem_cons_self

theorem next_eq_iff (ring : l.Ring h xs) : l.next h = h ↔ xs = [] := by
  cases xs with
  | nil => exact ⟨fun _ => rfl, fun _ => ring.path.1⟩
  | cons z zs =>
    have first : l.next h = z := ring.path.1.1
    have ne : h ≠ z := fun same => (nodup_cons.mp ring.nodup).1 (same ▸ mem_cons_self)
    rw [first]
    exact ⟨fun eq => absurd eq.symm ne, nofun⟩

theorem first (ring : l.Ring h (x :: xs)) : l.next h = x := ring.path.1.1

variable [DecidableEq ν]

theorem init (l : Links ν) (h : ν) : (l.init h).Ring h [] := ⟨nodup_singleton h, update_self .., update_self ..⟩

/-- Appending behind the last node before `y`. -/
theorem addBetween_path {a : ν} (path : l.Path a xs y) (nodup : (a :: xs).Nodup) (fresh : x ∉ a :: xs) (ne : x ≠ y)
    (ends : y ∉ xs) : (l.addBetween x (l.prev y) y).Path a (xs ++ [x]) y := by
  induction xs generalizing a with
  | nil =>
    obtain ⟨-, back⟩ := path
    have apart : x ≠ a := fun same => fresh (same ▸ mem_singleton_self a)
    simp [Path, addBetween, back, update_of_ne apart, update_of_ne ne.symm]
  | cons z zs ih =>
    obtain ⟨⟨forth, back⟩, rest⟩ := path
    obtain ⟨off, nodup'⟩ := nodup_cons.mp nodup
    have last : a ≠ l.prev y := fun same => off (same ▸ rest.prev_mem)
    have xa : a ≠ x := fun same => fresh (same ▸ mem_cons_self)
    have xz : z ≠ x := fun same => fresh (same ▸ mem_cons_of_mem _ mem_cons_self)
    have zy : z ≠ y := fun same => ends (same ▸ mem_cons_self)
    constructor
    · simp only [addBetween, update_of_ne last, update_of_ne xa, update_of_ne xz, update_of_ne zy]
      exact ⟨forth, back⟩
    · exact ih rest nodup' (fun mem => fresh (mem_cons_of_mem _ mem)) fun mem => ends (mem_cons_of_mem _ mem)

theorem addTail (ring : l.Ring h xs) (fresh : x ∉ h :: xs) : (l.addTail x h).Ring h (xs ++ [x]) := by
  obtain ⟨off, nodup⟩ := nodup_cons.mp ring.nodup
  have ne : x ≠ h := fun same => fresh (same ▸ mem_cons_self)
  refine ⟨?_, addBetween_path ring.path ring.nodup fresh ne off⟩
  rw [← cons_append, nodup_append]
  refine ⟨ring.nodup, nodup_singleton x, fun z mem w here same => ?_⟩
  rw [mem_singleton.mp here] at same
  exact fresh (same ▸ mem)

/-- Linking the neighbours of a node with each other. -/
theorem delInit_path {a : ν} (path : l.Path a xs x) (path' : l.Path x ys y) (nodup : (xs ++ x :: ys).Nodup)
    (starts : a ∉ xs ++ x :: ys) (ends : y ∉ xs ++ x :: ys) : (l.delInit x).Path a (xs ++ ys) y := by
  induction xs generalizing a with
  | nil =>
    rw [nil_append] at *
    obtain ⟨-, back⟩ := path
    obtain ⟨off, nodup'⟩ := nodup_cons.mp nodup
    have ax : a ≠ x := fun same => starts (same ▸ mem_cons_self)
    have yx : y ≠ x := fun same => ends (same ▸ mem_cons_self)
    cases ys with
    | nil =>
      obtain ⟨forth', -⟩ := path'
      simp [Path, delInit, Links.init, join, back, forth', update_of_ne ax, update_of_ne yx]
    | cons b bs =>
      obtain ⟨⟨forth', -⟩, rest⟩ := path'
      obtain ⟨off', -⟩ := nodup_cons.mp nodup'
      have bx : b ≠ x := fun same => off (same ▸ mem_cons_self)
      constructor
      · simp [delInit, Links.init, join, back, forth', update_of_ne ax, update_of_ne bx]
      · apply rest.congr
        · intro z mem
          have zx : z ≠ x := fun same => off (same ▸ mem)
          have za : z ≠ a := fun same => starts (mem_cons_of_mem _ (same ▸ mem))
          simp [delInit, Links.init, join, back, update_of_ne zx, update_of_ne za]
        · intro z mem
          have apart : z ≠ x ∧ z ≠ b := by
            rcases mem_append.mp mem with inside | last
            · exact ⟨fun same => off (mem_cons_of_mem _ (same ▸ inside)), fun same => off' (same ▸ inside)⟩
            · rw [mem_singleton.mp last]
              exact ⟨yx, fun same => ends (mem_cons_of_mem _ (same ▸ mem_cons_self))⟩
          simp [delInit, Links.init, join, forth', update_of_ne apart.1, update_of_ne apart.2]
  | cons z zs ih =>
    obtain ⟨⟨forth, back⟩, rest⟩ := path
    obtain ⟨off, nodup'⟩ := nodup_cons.mp nodup
    have ax : a ≠ x := fun same => starts (by simp [same])
    have zx : z ≠ x := fun same => off (by simp [same])
    -- The removed node is not next to the first link, which therefore stays.
    have last : a ≠ l.prev x := by
      intro same
      rcases mem_cons.mp rest.prev_mem with here | there
      · exact starts (by simp [same, here])
      · exact starts (by rw [same]; exact mem_cons_of_mem _ (mem_append_left _ there))
    have first : z ≠ l.next x := by
      intro same
      rcases mem_append.mp path'.next_mem with inside | at_end
      · exact off (by rw [same]; exact mem_append_right _ (mem_cons_of_mem _ inside))
      · rw [← same, mem_singleton] at at_end
        exact ends (at_end ▸ mem_cons_self)
    constructor
    · simp only [delInit, Links.init, join, update_of_ne ax, update_of_ne zx, update_of_ne last, update_of_ne first]
      exact ⟨forth, back⟩
    · exact ih rest nodup' (fun mem => off mem) fun mem => ends (mem_cons_of_mem _ mem)

theorem delInit (ring : l.Ring h (xs ++ x :: ys)) : (l.delInit x).Ring h (xs ++ ys) := by
  obtain ⟨off, nodup⟩ := nodup_cons.mp ring.nodup
  obtain ⟨before, after⟩ := Path.append_iff.mp ring.path
  refine ⟨nodup_cons.mpr ⟨fun mem => off ?_, ?_⟩, delInit_path before after nodup off off⟩
  · rcases mem_append.mp mem with left | right
    · exact mem_append_left _ left
    · exact mem_append_right _ (mem_cons_of_mem _ right)
  · exact nodup.sublist ((sublist_cons_self x ys).append_left xs)

theorem addTail_other (ring : l.Ring h xs) {z : ν} (off : z ∉ h :: xs) (ne : z ≠ x) :
    (l.addTail x h).next z = l.next z ∧ (l.addTail x h).prev z = l.prev z := by
  have head : z ≠ h := fun same => off (same ▸ mem_cons_self)
  have last : z ≠ l.prev h := fun same => off (same ▸ ring.path.prev_mem)
  simp [Links.addTail, addBetween, update_of_ne ne, update_of_ne head, update_of_ne last]

theorem delInit_other (ring : l.Ring h (xs ++ x :: ys)) {z : ν} (off : z ∉ h :: (xs ++ x :: ys)) :
    (l.delInit x).next z = l.next z ∧ (l.delInit x).prev z = l.prev z := by
  obtain ⟨before, after⟩ := Path.append_iff.mp ring.path
  have ne : z ≠ x := fun same => off (by simp [same])
  have first : z ≠ l.prev x := by
    intro same
    have mem := before.prev_mem
    rw [← same] at mem
    rcases mem_cons.mp mem with here | there
    · exact off (here ▸ mem_cons_self)
    · exact off (mem_cons_of_mem _ (mem_append_left _ there))
  have last : z ≠ l.next x := by
    intro same
    have mem := after.next_mem
    rw [← same] at mem
    rcases mem_append.mp mem with there | here
    · exact off (mem_cons_of_mem _ (mem_append_right _ (mem_cons_of_mem _ there)))
    · exact off (mem_singleton.mp here ▸ mem_cons_self)
  simp [Links.delInit, Links.init, join, update_of_ne ne, update_of_ne first, update_of_ne last]

end Ring

end Links

end Lib
