import Jlos.Heap.Ops

/-!
# Freeing a chunk

`free` joins the chunk with a free one in front of it, then with one behind it. Both joins are the
same step on two neighbours.
-/
namespace Jlos.Heap

open Lib List Bool Keyed Chunk

variable {m : Machine} {s : State} {pre post : List Chunk} {a b c : Chunk}

/-! ### Joining two neighbours -/

/-- The first of two neighbours with the second and its header taken in. -/
def joined (m : Machine) (a b : Chunk) : Chunk := { a with size := a.size + (b.size + m.arch.chunkHeader) }

section

variable (h : Core m s) (split : s.chunks = pre ++ a :: b :: post)
include h split

theorem Core.enlarge_eq_joined : a.enlarge m (b.size + m.arch.chunkHeader) = joined m a b := by
  have tiles := h.tiles
  have below := h.below
  rw [split, tiles_append_cons] at tiles
  obtain ⟨-, meet, after⟩ := tiles
  have top := after.le
  simp only [extent] at top
  exact enlarge_eq (by omega)

theorem Core.join_chunks : remove addr b.addr
      (modify addr a.addr (fun c => c.enlarge m (b.size + m.arch.chunkHeader)) s.chunks) =
        pre ++ joined m a b :: post := by
  have distinct := h.distinct
  rw [split] at distinct
  have order : pre ++ joined m a b :: b :: post = pre ++ [joined m a b] ++ b :: post := by simp
  have apart : ((pre ++ [joined m a b] ++ b :: post).map addr).Nodup := by
    simpa [joined] using distinct
  rw [split, modify_split distinct, h.enlarge_eq_joined split, order, remove_split apart]
  simp

/-- The state after a join, once the class lists have the free chunks of the rest. -/
theorem Core.join {classes : Buckets} (lists : classes.Holds (placement m s.maxClass (pre ++ post))) : Cursor m { s with
        classes := classes
        chunks := pre ++ joined m a b :: post
        tail := if s.tail = some b.addr then some a.addr else s.tail }
      pre (joined m a b) post := by
  have tiles := h.tiles
  rw [split, tiles_append_cons] at tiles
  obtain ⟨before, meet, after⟩ := tiles
  have distinct : ((pre ++ [a] ++ b :: post).map addr).Nodup := by
    simpa [split] using h.distinct
  refine ⟨{ h with tiles := ?_, tail := ?_, solid := ?_ }, rfl, lists⟩
  · rw [tiles_append_cons]
    refine ⟨before, ?_⟩
    have sum : a.addr + extent m (joined m a b) = a.addr + extent m a + extent m b := by
      simp only [extent, joined]
      omega
    rwa [show (joined m a b).addr = a.addr from rfl, sum]
  · have order : s.chunks = pre ++ [a] ++ b :: post := by simp [split]
    simp only [getLast_addr, h.tail, order]
    exact retail fun d member => key_ne_post distinct member
  · have solid := h.solid
    simp only [split, mem_append, mem_cons] at solid ⊢
    rintro d (old | rfl | old)
    · exact solid d (Or.inl old)
    · exact Nat.add_pos_left (solid a (by simp)) _
    · exact solid d (by simp [old])

end

/-! ### The two merges -/

theorem Cursor.mergePrev_joins (h : Cursor m s (pre ++ [a]) c post) (free : a.allocated = false) :
    ∃ s', mergePrev m s c.addr = .ok (a.addr, s') ∧ Cursor m s' pre (joined m a c) post ∧
      s'.heapStart = s.heapStart ∧ s'.heapCurrent = s.heapCurrent := by
  have split : s.chunks = pre ++ a :: c :: post := by simp [h.chunks]
  have lists := h.unlist_other (show pre ++ [a] ++ post = pre ++ a :: post by simp) free
  refine ⟨_, ?_, h.toCore.join split lists, rfl, rfl⟩
  have prev : prev addr c.addr s.chunks = some a := by
    rw [h.chunks, prev_split h.distinct, getLast?_concat]
  have listed := (h.toCore.classOf (c := a) (by simp [split])).1
  have chunks := h.toCore.join_chunks split
  simp only [mergePrev, h.chunkAt, prev, free, listed, ok_bind, mmClassRemoveChunk, modChunk,
    chunks, false_eq_true, if_false]
  rfl

theorem Cursor.mergePrev_alone (h : Cursor m s pre c post)
    (allocated : ∀ a ∈ pre.getLast?, a.allocated = true) : mergePrev m s c.addr = .ok (c.addr, s) := by
  have prev : prev addr c.addr s.chunks = pre.getLast? := by
    rw [h.chunks, prev_split h.distinct]
  simp only [mergePrev, h.chunkAt, prev, ok_bind]
  cases last : pre.getLast? with
  | none => rfl
  | some a =>
    simp only [allocated a last, if_true]
    rfl

theorem Cursor.mergeNext_joins (h : Cursor m s pre c (b :: post)) (free : b.allocated = false) :
    ∃ s', mergeNext m s c.addr = .ok s' ∧ Cursor m s' pre (joined m c b) post ∧
      s'.heapStart = s.heapStart ∧ s'.heapCurrent = s.heapCurrent := by
  have lists := h.unlist_other rfl free
  refine ⟨_, ?_, h.toCore.join h.chunks lists, rfl, rfl⟩
  have next : next addr c.addr s.chunks = some b := by
    rw [h.chunks, next_split h.distinct, head?_cons]
  have listed := (h.toCore.classOf (c := b) (by simp [h.chunks])).1
  have chunks := h.toCore.join_chunks h.chunks
  simp only [mergeNext, next, free, listed, ok_bind, mmClassRemoveChunk, modChunk, chunks, false_eq_true, if_false]
  rfl

theorem Cursor.mergeNext_alone (h : Cursor m s pre c post)
    (allocated : ∀ b ∈ post.head?, b.allocated = true) : mergeNext m s c.addr = .ok s := by
  have next : next addr c.addr s.chunks = post.head? := by
    rw [h.chunks, next_split h.distinct]
  simp only [mergeNext, next]
  cases first : post.head? with
  | none => rfl
  | some b =>
    simp only [allocated b first, if_true]
    rfl

theorem Cursor.mergePrev (h : Cursor m s pre c post) (free : c.allocated = false) (chain : Coalesced pre) :
    ∃ pre' c' s', mergePrev m s c.addr = .ok (c'.addr, s') ∧ Cursor m s' pre' c' post ∧
      c'.allocated = false ∧ Coalesced pre' ∧ (∀ a ∈ pre'.getLast?, a.allocated = true) ∧
      allocs pre' = allocs pre ∧ s'.heapStart = s.heapStart ∧ s'.heapCurrent = s.heapCurrent := by
  by_cases allocated : ∀ a ∈ pre.getLast?, a.allocated = true
  · exact ⟨pre, c, s, h.mergePrev_alone allocated, h, free, chain, allocated, rfl, rfl, rfl⟩
  · simp only [not_forall, not_eq_true] at allocated
    obtain ⟨a, last, freeA⟩ := allocated
    obtain ⟨front, rfl⟩ := getLast?_eq_some_iff.mp last
    obtain ⟨s', eq, cursor, bounds⟩ := h.mergePrev_joins freeA
    obtain ⟨chainFront, -, prev, -⟩ := coalesced_split.mp chain
    refine ⟨front, joined m a c, s', eq, cursor, freeA, chainFront, fun p at_end => ?_, ?_, bounds⟩
    · exact (prev p at_end).resolve_right (by simp [freeA])
    · simp [allocs_cons, freeA]

theorem Cursor.mergeNext (h : Cursor m s pre c post) (free : c.allocated = false) (chain : Coalesced post) :
    ∃ post' c' s', mergeNext m s c.addr = .ok s' ∧ Cursor m s' pre c' post' ∧ c'.addr = c.addr ∧
      c'.allocated = false ∧ Coalesced post' ∧ (∀ b ∈ post'.head?, b.allocated = true) ∧
      allocs post' = allocs post ∧ s'.heapStart = s.heapStart ∧ s'.heapCurrent = s.heapCurrent := by
  by_cases allocated : ∀ b ∈ post.head?, b.allocated = true
  · exact ⟨post, c, s, h.mergeNext_alone allocated, h, rfl, free, chain, allocated, rfl, rfl, rfl⟩
  · simp only [not_forall, not_eq_true] at allocated
    obtain ⟨b, first, freeB⟩ := allocated
    obtain ⟨back, rfl⟩ := head?_eq_some_iff.mp first
    obtain ⟨s', eq, cursor, bounds⟩ := h.mergeNext_joins freeB
    obtain ⟨-, chainBack, -, next⟩ := coalesced_split.mp (show Coalesced ([] ++ b :: back) from chain)
    refine ⟨back, joined m c b, s', eq, cursor, rfl, free, chainBack, fun n at_front => ?_, ?_, bounds⟩
    · exact (next n at_front).resolve_left (by simp [freeB])
    · simp [allocs_cons, freeB]

theorem Inv.free (h : Inv m s) (split : s.chunks = pre ++ c :: post) (allocated : c.allocated = true) :
    ∃ s', free m s (c.addr + m.arch.chunkHeader) = .ok s' ∧ Inv m s' ∧ allocs s'.chunks = allocs pre ++ allocs post ∧
      s'.heapStart = s.heapStart ∧ s'.heapCurrent = s.heapCurrent := by
  obtain ⟨chainPre, chainPost, -, -⟩ := coalesced_split.mp (split ▸ h.coalesced)
  have cursor := h.cursor split allocated
  have marked := cursor.modify (f := fun c => { c with allocated := false }) rfl rfl
  obtain ⟨pre', c', s₁, eqPrev, joinedPrev, freePrev, chainPre', prev, allocsPre, start₁, current₁⟩ :=
    marked.mergePrev rfl chainPre
  obtain ⟨post', c'', s₂, eqNext, joinedNext, addr, freeNext, chainPost', next, allocsPost, start₂, current₂⟩ :=
    joinedPrev.mergeNext freePrev chainPost
  have coalesced : Coalesced (pre' ++ c'' :: post') :=
    coalesced_split.mpr ⟨chainPre', chainPost', fun a last => Or.inl (prev a last),
      fun b first => Or.inr (next b first)⟩
  refine ⟨_, ?_, joinedNext.list freeNext coalesced, ?_, start₂.trans start₁, current₂.trans current₁⟩
  · have inside := cursor.end_le
    have solid := cursor.solid c cursor.mem
    have lower := (h.tiles.bounds cursor.mem).1
    have nonnull := h.nonnull
    have back : (c.addr + m.arch.chunkHeader + 2 ^ m.arch.wordBits - m.arch.chunkHeader) %
        2 ^ m.arch.wordBits = c.addr := by
      have below := h.below
      rw [show c.addr + m.arch.chunkHeader + 2 ^ m.arch.wordBits - m.arch.chunkHeader =
        c.addr + 2 ^ m.arch.wordBits by omega, Nat.add_mod_right]
      exact Nat.mod_eq_of_lt (by omega)
    have live : ¬c.addr + m.arch.chunkHeader = 0 := by
      simp only [minAlloc] at nonnull
      omega
    have inHeap : ¬(c.addr + m.arch.chunkHeader < s.heapStart ∨ c.addr + m.arch.chunkHeader ≥ s.heapCurrent) := by omega
    have found : chunkAt s₂ c'.addr = .ok c'' := addr ▸ joinedNext.chunkAt
    simp only [Heap.free, if_neg live, if_neg inHeap, back, cursor.chunkAt, eqPrev, eqNext, found,
      joinedNext.classOf.1, ok_bind, addr]
    rfl
  · simp [mmClassAdd, joinedNext.chunks, allocs_append, allocs_cons, freeNext, allocsPre, allocsPost]

end Jlos.Heap
