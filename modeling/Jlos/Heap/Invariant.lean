import Jlos.Heap.Model
import Jlos.Lib.Tiling

/-!
# The heap invariant

The chunks tile the heap, no two free neighbours stand side by side, and the class lists hold
exactly the free chunks. While an operation works on one chunk the list of chunks is split at it:
`Cursor` is that state.
-/
namespace Jlos.Heap

open Lib Function List Keyed

variable {m : Machine} {s : State} {maxClass : Nat}

/-! ### Classes -/

/-- Sizes below 4 GB have a class, and `__builtin_clz` is not asked about zero. -/
theorem mmSizeToClass_lt (m : Machine) {size : Nat} (small : size ≤ 2 ^ 32) (classes : maxClass < classCount) :
    ∃ k : Nat, mmSizeToClass m size maxClass = k ∧ k < classCount := by
  by_cases tiny : size ≤ minAlloc
  · exact ⟨0, by simp [mmSizeToClass, tiny], by decide⟩
  · have wide : size - 1 < 2 ^ 32 := by omega
    have value : (size - 1) % 2 ^ 32 = size - 1 := Nat.mod_eq_of_lt wide
    have nonzero : size - 1 ≠ 0 := by
      simp only [minAlloc] at tiny
      omega
    have lower : 4 ≤ Nat.log2 (size - 1) := by
      rw [Nat.le_log2 nonzero]
      simp only [minAlloc] at tiny
      omega
    simp only [mmSizeToClass, if_neg tiny, value, clz, if_neg nonzero, classCount] at *
    split
    · exact ⟨maxClass, rfl, classes⟩
    · exact ⟨Nat.log2 (size - 1) - 3, by omega, by omega⟩

/-- The class a chunk of this size is listed in. -/
def classNat (m : Machine) (maxClass size : Nat) : Nat := (mmSizeToClass m size maxClass).toNat

theorem classOf_eq (m : Machine) {size : Nat} (small : size ≤ 2 ^ 32) (classes : maxClass < classCount) :
    classOf m maxClass size = .ok (classNat m maxClass size) ∧ classNat m maxClass size < 32 := by
  obtain ⟨k, eq, lt⟩ := mmSizeToClass_lt m small classes
  have value : classNat m maxClass size = k := by simp [classNat, eq]
  rw [value]
  refine ⟨?_, lt⟩
  have range : 0 ≤ (k : Int) ∧ (k : Int) < (classCount : Int) := ⟨by omega, by exact_mod_cast lt⟩
  simp only [classOf, eq, classIndex, if_pos range, Int.toNat_natCast]
  rfl

/-! ### Which list a chunk is in -/

/-- The bucket of the chunk at an address, if a free chunk is there. -/
def placement (m : Machine) (maxClass : Nat) (l : List Chunk) (addr : Nat) : Option Nat :=
  (Keyed.lookup Chunk.addr addr l).bind fun c =>
    if c.allocated then none else some (classNat m maxClass c.size)

section split

variable {pre post : List Chunk} {c : Chunk} {maxClass : Nat}

theorem placement_other {addr : Nat} (ne : addr ≠ c.addr) :
    placement m maxClass (pre ++ c :: post) addr = placement m maxClass (pre ++ post) addr := by
  simp [placement, lookup_other ne]

variable (distinct : ((pre ++ c :: post).map Chunk.addr).Nodup)

include distinct

theorem placement_absent : placement m maxClass (pre ++ post) c.addr = none := by
  have none : lookup Chunk.addr c.addr (pre ++ post) = none := by
    refine lookup_eq_none fun d member => ?_
    rcases mem_append.mp member with before | after
    · exact key_ne_pre distinct before
    · exact key_ne_post distinct after
  simp [placement, none]

theorem placement_free (free : c.allocated = false) :
    placement m maxClass (pre ++ c :: post) = update (placement m maxClass (pre ++ post)) c.addr
      (some (classNat m maxClass c.size)) := by
  funext addr
  obtain rfl | eq := eq_or_ne addr c.addr
  · simp [placement, lookup_split distinct, free]
  · rw [placement_other eq, update_of_ne eq]

theorem placement_allocated (allocated : c.allocated = true) :
    placement m maxClass (pre ++ c :: post) = placement m maxClass (pre ++ post) := by
  funext addr
  obtain rfl | eq := eq_or_ne addr c.addr
  · rw [placement_absent distinct]
    simp [placement, lookup_split distinct, allocated]
  · exact placement_other eq

theorem placement_erase : update (placement m maxClass (pre ++ c :: post)) c.addr none =
    placement m maxClass (pre ++ post) := by
  funext addr
  obtain rfl | eq := eq_or_ne addr c.addr
  · rw [update_self, placement_absent distinct]
  · rw [update_of_ne eq, placement_other eq]

end split

theorem placement_some {l : List Chunk} {addr cls : Nat} (placed : placement m maxClass l addr = some cls) :
    ∃ c ∈ l, c.addr = addr ∧ c.allocated = false := by
  simp only [placement, Option.bind_eq_some_iff] at placed
  obtain ⟨c, found, cond⟩ := placed
  obtain ⟨member, addr⟩ := lookup_mem found
  cases free : c.allocated with
  | true => simp [free] at cond
  | false => exact ⟨c, member, addr, free⟩

/-! ### The invariant -/

def extent (m : Machine) (c : Chunk) : Nat := m.arch.chunkHeader + c.size

theorem Chunk.enlarge_eq {c : Chunk} {n : Nat} (fits : c.size + n < 2 ^ m.arch.wordBits) :
    c.enlarge m n = { c with size := c.size + n } := by
  rw [Chunk.enlarge, Nat.mod_eq_of_lt fits]

theorem extent_pos (m : Machine) (c : Chunk) : 0 < extent m c := by
  simp only [extent, Arch.chunkHeader]
  split <;> omega

/-- The chunks tile the heap, `tail` is the last of them, and the heap is small enough for
its addresses and its classes. -/
structure Core (m : Machine) (s : State) : Prop where
  tiles : Tiles Chunk.addr (extent m) s.heapStart s.chunks s.heapCurrent
  tail : s.tail = s.chunks.getLast?.map Chunk.addr
  nonnull : minAlloc ≤ s.heapStart
  below : s.heapCurrent < 2 ^ m.arch.wordBits
  small : s.heapCurrent ≤ s.heapStart + 2 ^ 32
  classes : s.maxClass < classCount
  solid : ∀ c ∈ s.chunks, 0 < c.size

def allocs (l : List Chunk) : List Chunk := l.filter Chunk.allocated

@[simp] theorem allocs_nil : allocs [] = [] := rfl

@[simp] theorem allocs_append (l₁ l₂ : List Chunk) : allocs (l₁ ++ l₂) = allocs l₁ ++ allocs l₂ :=
  filter_append l₁ l₂

theorem allocs_cons (c : Chunk) (l : List Chunk) :
    allocs (c :: l) = if c.allocated then c :: allocs l else allocs l := filter_cons

def Coalesced (l : List Chunk) : Prop :=
  l.IsChain fun c d => c.allocated = true ∨ d.allocated = true

structure Inv (m : Machine) (s : State) : Prop extends Core m s where
  coalesced : Coalesced s.chunks
  lists : s.classes.Holds (placement m s.maxClass s.chunks)

/-- An operation holds the chunk `c`: no class list has it, they have the free chunks of the
rest. -/
structure Cursor (m : Machine) (s : State) (pre : List Chunk) (c : Chunk) (post : List Chunk) : Prop
    extends Core m s where
  chunks : s.chunks = pre ++ c :: post
  lists : s.classes.Holds (placement m s.maxClass (pre ++ post))

theorem Core.distinct (h : Core m s) : (s.chunks.map Chunk.addr).Nodup := h.tiles.nodup_pos (extent_pos m)

section

variable (h : Core m s) {c : Chunk} (member : c ∈ s.chunks)
include h member

theorem Core.size_le : c.size ≤ 2 ^ 32 := by
  obtain ⟨lower, upper⟩ := h.tiles.bounds member
  have small := h.small
  simp only [extent] at upper
  omega

theorem Core.chunkAt : chunkAt s c.addr = .ok c := by
  obtain ⟨pre, post, split⟩ := append_of_mem member
  have found := lookup_split (split ▸ h.distinct)
  simp only [Heap.chunkAt, split, found]
  rfl

theorem Core.classOf :
    classOf m s.maxClass c.size = .ok (classNat m s.maxClass c.size) ∧ classNat m s.maxClass c.size < 32 :=
  classOf_eq m (h.size_le member) h.classes

end

section cursor

variable {pre post : List Chunk} {c : Chunk}

section

variable (h : Cursor m s pre c post)
include h

theorem Cursor.distinct : ((pre ++ c :: post).map Chunk.addr).Nodup := h.chunks ▸ h.toCore.distinct

theorem Cursor.mem : c ∈ s.chunks := by
  rw [h.chunks]
  exact mem_append_right pre mem_cons_self

theorem Cursor.chunkAt : chunkAt s c.addr = .ok c := h.toCore.chunkAt h.mem

theorem Cursor.classOf :
    classOf m s.maxClass c.size = .ok (classNat m s.maxClass c.size) ∧
    classNat m s.maxClass c.size < 32 := h.toCore.classOf h.mem

theorem Cursor.tiles_iff : Tiles Chunk.addr (extent m) s.heapStart pre c.addr ∧
      Tiles Chunk.addr (extent m) (c.addr + extent m c) post s.heapCurrent := by
  have tiles := h.tiles
  rwa [h.chunks, tiles_append_cons] at tiles

end

theorem getLast_addr (pre : List Chunk) (c : Chunk) (post : List Chunk) :
    (pre ++ c :: post).getLast?.map Chunk.addr = some ((post.getLast?.map Chunk.addr).getD c.addr) := by
  rw [getLast?_append_cons, getLast?_cons, Option.map_some]
  cases post.getLast? <;> rfl

section

variable (h : Cursor m s pre c post)
include h

theorem Cursor.tail_eq : s.tail = some ((post.getLast?.map Chunk.addr).getD c.addr) := by
  rw [h.tail, h.chunks, getLast_addr]

theorem Cursor.end_le : c.addr + m.arch.chunkHeader + c.size ≤ s.heapCurrent := by
  have top := h.tiles_iff.2.le
  simp only [extent] at top
  omega

theorem Cursor.solid_replace {l : List Chunk} (new : ∀ d ∈ l, 0 < d.size) : ∀ d ∈ pre ++ l ++ post, 0 < d.size := by
  have old := h.solid
  simp only [h.chunks, mem_append, mem_cons] at old ⊢
  rintro d ((before | inside) | after)
  · exact old d (Or.inl before)
  · exact new d inside
  · exact old d (Or.inr (Or.inr after))

theorem Cursor.solid_with {d : Chunk} (new : 0 < d.size) : ∀ e ∈ pre ++ d :: post, 0 < e.size := by
  have all := h.solid_replace (l := [d]) (by simpa using new)
  rwa [append_assoc, singleton_append] at all

/-- Changing the held chunk in place, without moving its end. -/
theorem Cursor.modify {f : Chunk → Chunk} (addr : (f c).addr = c.addr)
    (size : (f c).size = c.size) : Cursor m (modChunk s c.addr f) pre (f c) post := by
  have chunks : (modChunk s c.addr f).chunks = pre ++ f c :: post := by
    simp only [modChunk, h.chunks]
    exact modify_split h.distinct f
  refine ⟨{ h with tiles := ?_, tail := ?_, solid := ?_ }, chunks, h.lists⟩
  · rw [chunks, tiles_append_cons, addr, extent, size]
    exact h.tiles_iff
  · rw [chunks, getLast_addr, addr]
    exact h.tail_eq
  · rw [chunks]
    exact h.solid_with (size ▸ h.solid c h.mem)

theorem Cursor.done (allocated : c.allocated = true) (coalesced : Coalesced (pre ++ c :: post)) : Inv m s := by
  refine ⟨h.toCore, h.chunks ▸ coalesced, ?_⟩
  rw [h.chunks, placement_allocated h.distinct allocated]
  exact h.lists

theorem Cursor.unlist_other {l₁ l₂ : List Chunk} {p : Chunk}
    (rest : pre ++ post = l₁ ++ p :: l₂) (free : p.allocated = false) :
    (s.classes.unlink (classNat m s.maxClass p.size) p.addr).Holds (placement m s.maxClass (l₁ ++ l₂)) := by
  have all := h.distinct
  have distinct : ((l₁ ++ p :: l₂).map Chunk.addr).Nodup := by
    rw [← rest]
    rw [map_append, map_cons] at all
    rw [map_append]
    exact (nodup_middle.mp all).of_cons
  have lists := h.lists
  rw [rest] at lists
  have removed := lists.unlink (k := p.addr) (c := classNat m s.maxClass p.size) (by
    rw [placement_free distinct free, update_self])
  rwa [placement_erase distinct] at removed

end

end cursor

section

variable {pre post : List Chunk} {c : Chunk}

/-- Listing the free chunk an operation holds gives the invariant back. -/
theorem Cursor.list (h : Cursor m s pre c post)
    (free : c.allocated = false) (coalesced : Coalesced (pre ++ c :: post)) :
    Inv m (mmClassAdd s (classNat m s.maxClass c.size) c.addr) := by
  refine ⟨{ h with }, ?_, ?_⟩
  · simpa only [mmClassAdd, h.chunks] using coalesced
  · have added := h.lists.add (h.classOf).2 (placement_absent h.distinct)
    simp only [mmClassAdd, h.chunks]
    rw [placement_free h.distinct free]
    exact added

theorem Inv.unlist (h : Inv m s) (split : s.chunks = pre ++ c :: post) (free : c.allocated = false) :
    Cursor m (mmClassRemoveChunk s (classNat m s.maxClass c.size) c.addr) pre c post := by
  have distinct : ((pre ++ c :: post).map Chunk.addr).Nodup := split ▸ h.distinct
  have lists := h.lists
  rw [split] at lists
  have removed := lists.unlink (k := c.addr) (c := classNat m s.maxClass c.size) (by
    rw [placement_free distinct free, update_self])
  rw [placement_erase distinct] at removed
  exact ⟨{ h with }, split, removed⟩

/-- An allocated chunk is in no list. -/
theorem Inv.cursor (h : Inv m s) (split : s.chunks = pre ++ c :: post)
    (allocated : c.allocated = true) : Cursor m s pre c post := by
  have lists := h.lists
  rw [split, placement_allocated (split ▸ h.distinct) allocated] at lists
  exact ⟨h.toCore, split, lists⟩

end

end Jlos.Heap
