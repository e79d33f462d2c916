import Mathlib

/-!
# Circular buffers

A buffer with a position to read from, a position to write to and the number of elements between
them, as the queue of these elements.
-/
namespace Lib

open Function List

@[ext] structure Circular (α : Type) where
  cells : Nat → α
  size : Nat
  readPos : Nat
  writePos : Nat
  count : Nat

namespace Circular

variable {α : Type} {c : Circular α}

structure Valid (c : Circular α) : Prop where
  read : c.readPos < c.size
  count : c.count ≤ c.size
  write : c.writePos = (c.readPos + c.count) % c.size

theorem Valid.writePos_lt (h : c.Valid) : c.writePos < c.size := by
  rw [h.write]
  exact Nat.mod_lt _ (Nat.lt_of_le_of_lt (Nat.zero_le _) h.read)

/-- The elements in the order in which they will be read. -/
def contents (c : Circular α) : List α := (List.range c.count).map fun i => c.cells ((c.readPos + i) % c.size)

def push (c : Circular α) (x : α) : Circular α :=
  { c with
    cells := update c.cells c.writePos x
    writePos := (c.writePos + 1) % c.size
    count := c.count + 1 }

def pop (c : Circular α) : Circular α := { c with readPos := (c.readPos + 1) % c.size, count := c.count - 1 }

theorem mod_ne {p i j size : Nat} (lt : i < j) (le : j < size) : (p + i) % size ≠ (p + j) % size := by
  intro same
  have zero := Nat.sub_mod_eq_zero_of_mod_eq same.symm
  rw [Nat.add_sub_add_left, Nat.mod_eq_of_lt (by omega)] at zero
  omega

theorem Valid.push (h : c.Valid) (room : c.count < c.size) (x : α) :
    (c.push x).Valid ∧ (c.push x).contents = c.contents ++ [x] := by
  constructor
  · refine ⟨h.read, room, ?_⟩
    simp [Circular.push, h.write, Nat.add_assoc]
  · simp only [contents, Circular.push, range_succ, map_append, map_cons, map_nil]
    congr 1
    · apply map_congr_left
      intro i mem
      rw [h.write, update_of_ne (mod_ne (mem_range.mp mem) room)]
    · rw [h.write, update_self]

theorem Valid.pop (h : c.Valid) (some : 0 < c.count) :
    c.pop.Valid ∧ c.contents = c.cells c.readPos :: c.pop.contents := by
  obtain ⟨k, more⟩ := Nat.exists_eq_succ_of_ne_zero (Nat.ne_of_gt some)
  have bound := h.count
  constructor
  · refine ⟨Nat.mod_lt _ (Nat.lt_of_le_of_lt (Nat.zero_le _) h.read), ?_, ?_⟩
    · simp only [Circular.pop]
      omega
    · simp only [Circular.pop, h.write, Nat.mod_add_mod, more]
      congr 1
      omega
  · simp only [contents, Circular.pop, more, range_succ_eq_map, map_cons, map_map, Nat.add_zero,
      Nat.mod_eq_of_lt h.read, Nat.succ_sub_one]
    congr 1
    apply map_congr_left
    intro i _
    simp only [comp_apply, Nat.mod_add_mod, Nat.succ_eq_add_one]
    congr 2
    omega

def pushAll (c : Circular α) (xs : List α) : Circular α := xs.foldl push c

theorem pushAll_frame (c : Circular α) (xs : List α) :
    (c.pushAll xs).size = c.size ∧ (c.pushAll xs).readPos = c.readPos ∧ (c.pushAll xs).count = c.count + xs.length := by
  induction xs generalizing c with
  | nil => exact ⟨rfl, rfl, rfl⟩
  | cons x xs ih =>
    obtain ⟨size, read, count⟩ := ih (c.push x)
    refine ⟨size, read, count.trans ?_⟩
    simp only [push, length_cons]
    omega

/-- As many elements as there is room for are appended to the queue. -/
theorem Valid.pushAll (h : c.Valid) {xs : List α} (room : c.count + xs.length ≤ c.size) :
    (c.pushAll xs).Valid ∧ (c.pushAll xs).contents = c.contents ++ xs := by
  induction xs generalizing c with
  | nil => exact ⟨h, (append_nil _).symm⟩
  | cons x xs ih =>
    rw [length_cons] at room
    obtain ⟨valid, added⟩ := h.push (by omega) x
    have room' : (c.push x).count + xs.length ≤ (c.push x).size := by
      simp only [Circular.push]
      omega
    obtain ⟨valid', added'⟩ := ih valid room'
    refine ⟨valid', added'.trans ?_⟩
    rw [added, append_assoc, singleton_append]

/-- The first elements, and the buffer without them. -/
def popAll (c : Circular α) : Nat → List α × Circular α
  | 0 => ([], c)
  | k + 1 =>
    let (xs, c') := c.pop.popAll k
    (c.cells c.readPos :: xs, c')

theorem popAll_frame (c : Circular α) (k : Nat) :
    (c.popAll k).2.cells = c.cells ∧ (c.popAll k).2.size = c.size ∧ (c.popAll k).2.writePos = c.writePos ∧
      (c.popAll k).2.count = c.count - k := by
  induction k generalizing c with
  | zero => exact ⟨rfl, rfl, rfl, rfl⟩
  | succ k ih =>
    obtain ⟨cells, size, write, count⟩ := ih c.pop
    refine ⟨cells, size, write, count.trans ?_⟩
    simp only [pop]
    omega

/-- As many elements as there are leave the queue at its front. -/
theorem Valid.popAll (h : c.Valid) {k : Nat} (enough : k ≤ c.count) :
    (c.popAll k).2.Valid ∧ c.contents = (c.popAll k).1 ++ (c.popAll k).2.contents ∧ (c.popAll k).1.length = k := by
  induction k generalizing c with
  | zero => exact ⟨h, rfl, rfl⟩
  | succ k ih =>
    obtain ⟨valid, first⟩ := h.pop (by omega)
    have enough' : k ≤ c.pop.count := by
      simp only [Circular.pop]
      omega
    obtain ⟨valid', rest, length⟩ := ih valid enough'
    refine ⟨valid', ?_, ?_⟩
    · rw [first, rest]
      rfl
    · simp [Circular.popAll, length]

end Circular

end Lib
