import Jlos.Lib.Loop
import Jlos.Heap.Invariant

/-!
# The heap operations keep the invariant

Each critical section of `malloc` and `free`, specified on a heap that satisfies the invariant or is
held at a chunk, for requests whose sizes do not wrap around.
-/
namespace Jlos.Heap

open Lib List Option

variable {m : Machine} {s : State} {pre post : List Chunk} {c : Chunk} {size : Nat}

theorem coalesced_split : Coalesced (pre ++ c :: post) ↔
    Coalesced pre ∧ Coalesced post ∧ (∀ p ∈ pre.getLast?, p.allocated = true ∨ c.allocated = true) ∧
      ∀ n ∈ post.head?, c.allocated = true ∨ n.allocated = true := by
  simp only [Coalesced, isChain_append, isChain_cons, head?_cons, mem_def, some.injEq, forall_eq']
  constructor
  · rintro ⟨before, ⟨next, after⟩, prev⟩
    exact ⟨before, after, prev, next⟩
  · rintro ⟨before, after, prev, next⟩
    exact ⟨before, ⟨next, after⟩, prev⟩

/-- Moving `tail` along when the chunk at `a` gives its place to the one at `b`. -/
theorem retail {post : List Chunk} {a b : Nat} (apart : ∀ d ∈ post, d.addr ≠ a) :
    (if some ((post.getLast?.map Chunk.addr).getD a) = some a then some b
      else some ((post.getLast?.map Chunk.addr).getD a)) = some ((post.getLast?.map Chunk.addr).getD b) := by
  cases last : post.getLast? with
  | none => simp
  | some d => simp [apart d (mem_of_getLast? last)]

/-! ### Initialisation -/

theorem maxClassLoop_lt (m : Machine) (maxAlloc : Nat) : ∀ fuel s cls, cls < classCount →
    maxClassLoop m maxAlloc fuel s cls < classCount := by
  intro fuel
  induction fuel with
  | zero => exact fun _ _ lt => lt
  | succ fuel ih =>
    intro s cls lt
    simp only [maxClassLoop]
    split
    next more =>
      refine ih _ _ ?_
      omega
    next => exact lt

/-- A memory area `mm_init` is given: room for more than a header, not null, not wrapping, and no
larger than physical memory. -/
structure Area (m : Machine) (start size : Nat) : Prop where
  nonnull : minAlloc ≤ start
  room : m.arch.chunkHeader < size
  below : start + size < 2 ^ m.arch.wordBits
  small : size ≤ 2 ^ 32

theorem mmInit_inv {start size : Nat} (area : Area m start size) :
    ∃ s, mmInit m start size = .ok s ∧ Inv m s ∧ s.heapStart = start ∧ s.heapCurrent = start + size ∧
      s.chunks = [⟨start, size - m.arch.chunkHeader, false⟩] := by
  have room := area.room
  have small := area.small
  set s : State :=
    { chunks := [⟨start, size - m.arch.chunkHeader, false⟩], tail := some start, heapStart := start,
      heapEnd := start + size, heapCurrent := start + size,
      maxClass := maxClassLoop m ((size + 2 ^ m.arch.wordBits - m.arch.chunkHeader) %
        2 ^ m.arch.wordBits) classCount minAlloc 0,
      classes := Buckets.empty } with hs
  have cursor : Cursor m s [] ⟨start, size - m.arch.chunkHeader, false⟩ [] := by
    refine ⟨⟨⟨rfl, ?_⟩, rfl, area.nonnull, area.below, ?_, maxClassLoop_lt _ _ _ _ _ (by decide), ?_⟩, rfl,
      Buckets.holds_empty⟩
    · simp only [extent, Tiles, hs]
      omega
    · simp only [hs]
      omega
    · simp only [hs, mem_singleton, forall_eq]
      omega
  refine ⟨_, ?_, cursor.list rfl (isChain_singleton _), rfl, rfl, rfl⟩
  have listed := cursor.classOf.1
  simp only [hs] at listed
  simp only [mmInit, ge_iff_le, if_pos room.le, listed, ok_bind]
  rfl

/-! ### Taking a chunk -/

/-- The chunk `malloc` finds is the first one of the class it finds; it is free, and no list
has it any more. -/
theorem Inv.takeChunk (h : Inv m s) {size addr : Nat} {s' : State} (took : takeChunk m s size = some (addr, s')) :
    ∃ pre c post cls, c.addr = addr ∧ c.allocated = false ∧ s.chunks = pre ++ c :: post ∧
      Cursor m s' pre c post ∧ s'.heapStart = s.heapStart ∧ s'.heapCurrent = s.heapCurrent ∧
      mmBitmapFind s (mmSizeToClass m size s.maxClass) = some cls ∧ (s.classes.heads cls).head? = some addr := by
  simp only [Heap.takeChunk] at took
  cases found : mmBitmapFind s (mmSizeToClass m size s.maxClass) with
  | none => simp [found] at took
  | some cls =>
    simp only [found, mmClassRemoveHead] at took
    cases popped : s.classes.pop cls with
    | none => simp [popped] at took
    | some entry =>
      obtain ⟨first, classes⟩ := entry
      simp only [popped, some.injEq, Prod.mk.injEq] at took
      obtain ⟨rfl, rfl⟩ := took
      obtain ⟨placed, lists⟩ := h.lists.pop popped
      obtain ⟨c, member, rfl, free⟩ := placement_some placed
      obtain ⟨pre, post, split⟩ := append_of_mem member
      rw [split, placement_erase (split ▸ h.distinct)] at lists
      refine ⟨pre, c, post, cls, rfl, free, split, ⟨{ h with }, split, lists⟩, rfl, rfl, rfl, ?_⟩
      unfold Buckets.pop at popped
      split at popped
      · cases popped
      next list =>
        simp only [some.injEq, Prod.mk.injEq] at popped
        rw [list, head?_cons, popped.1]

theorem mmBitmapFind_some {minClass : Int} {cls : Nat} (found : mmBitmapFind s minClass = some cls) :
    ∃ mask : Bitmap, s.classes.bitmap &&& mask ≠ 0 ∧ (s.classes.bitmap &&& mask).lowest = cls := by
  unfold mmBitmapFind at found
  generalize (if minClass < 0 ∨ minClass ≥ 32 then _ else _) = mask at found
  by_cases zero : s.classes.bitmap &&& mask = 0
  · simp [zero] at found
  · simp only [if_neg zero, some.injEq] at found
    exact ⟨mask, zero, found⟩

theorem Inv.takeChunk_none (h : Inv m s) (took : Heap.takeChunk m s size = none) :
    mmBitmapFind s (mmSizeToClass m size s.maxClass) = none := by
  simp only [Heap.takeChunk] at took
  cases found : mmBitmapFind s (mmSizeToClass m size s.maxClass) with
  | none => rfl
  | some cls =>
    obtain ⟨mask, nonzero, rfl⟩ := mmBitmapFind_some found
    obtain ⟨k, b, popped⟩ := h.lists.pop_lowest nonzero
    simp [found, mmClassRemoveHead, popped] at took

/-! ### Splitting and marking -/

/-- The chunk `malloc` hands out once it has split off what it can. -/
def taken (m : Machine) (c : Chunk) (size : Nat) : Chunk :=
  ⟨c.addr, if size + m.arch.chunkHeader + minAlloc ≤ c.size then size else c.size, true⟩

/-- The chunk a split leaves behind. -/
def leftover (m : Machine) (c : Chunk) (size : Nat) : Chunk :=
  ⟨c.addr + m.arch.chunkHeader + size, c.size - size - m.arch.chunkHeader, false⟩

def remainder (m : Machine) (c : Chunk) (size : Nat) : List Chunk :=
  if size + m.arch.chunkHeader + minAlloc ≤ c.size then [leftover m c size] else []

/-- Splitting a held chunk: the front part is allocated, the held chunk is now the rest. -/
theorem Cursor.split (h : Cursor m s pre c post) (c' temp : Chunk) (addr : c'.addr = c.addr)
    (allocated : c'.allocated = true) (next : temp.addr = c.addr + extent m c')
    (top : temp.addr + extent m temp = c.addr + extent m c) (solid : 0 < c'.size ∧ 0 < temp.size) : Cursor m { s with
        chunks := pre ++ c' :: temp :: post
        tail := if s.tail = some c.addr then some temp.addr else s.tail }
      (pre ++ [c']) temp post := by
  obtain ⟨before, after⟩ := h.tiles_iff
  have rest : pre ++ c' :: temp :: post = (pre ++ [c']) ++ temp :: post := by simp
  have distinct : ((pre ++ c' :: post).map Chunk.addr).Nodup := by
    have old := h.distinct
    simp only [map_append, map_cons, addr] at old ⊢
    exact old
  refine ⟨{ h with tiles := ?_, tail := ?_, solid := ?_ }, rest, ?_⟩
  · rw [tiles_append_cons]
    refine ⟨addr ▸ before, next.trans (by rw [addr]), ?_⟩
    rwa [addr, ← next, top]
  · simp only [rest, getLast_addr, h.tail_eq]
    exact retail fun d member => Keyed.key_ne_post h.distinct member
  · have all := h.solid_replace (l := [c', temp]) (by simpa using solid)
    simpa using all
  · rw [append_assoc, singleton_append, placement_allocated distinct allocated]
    exact h.lists

theorem roundUp_pos (size : Nat) : 0 < roundUp size := by
  unfold roundUp minAlloc
  by_cases small : size < 16
  · rw [if_pos small]
    decide
  · rw [if_neg small]
    omega

/-- The list operations of a split, together. -/
theorem Cursor.split_chunks (h : Cursor m s pre c post) (temp : Chunk) (size : Nat)
    (addresses : ((pre ++ c :: temp :: post).map Chunk.addr).Nodup) :
    Keyed.modify Chunk.addr c.addr (fun d => { d with allocated := true })
      (Keyed.modify Chunk.addr c.addr (fun d => { d with size := size })
        (Keyed.insertAfter Chunk.addr c.addr temp s.chunks)) = pre ++ ⟨c.addr, size, true⟩ :: temp :: post := by
  have resized : Keyed.modify Chunk.addr c.addr (fun d => { d with size := size })
      (pre ++ c :: temp :: post) = pre ++ { c with size := size } :: temp :: post := Keyed.modify_split addresses _
  have marked : Keyed.modify Chunk.addr c.addr (fun d => { d with allocated := true })
      (pre ++ { c with size := size } :: temp :: post) = pre ++ ⟨c.addr, size, true⟩ :: temp :: post :=
    Keyed.modify_split (c := { c with size := size }) (by simpa using addresses) _
  rw [h.chunks, Keyed.insertAfter_split h.distinct, resized, marked]

/-- `finish` hands out a chunk, and what is left of it follows. -/
abbrev Finishes (m : Machine) (s : State) (pre : List Chunk) (c : Chunk) (post : List Chunk) (size : Nat) : Prop :=
  ∃ s', finish m s c.addr size = .ok (c.addr + m.arch.chunkHeader, s') ∧ Inv m s' ∧
    s'.chunks = pre ++ taken m c size :: (remainder m c size ++ post) ∧
    s'.heapStart = s.heapStart ∧ s'.heapCurrent = s.heapCurrent

section finish

variable {size : Nat} (h : Cursor m s pre c post) (coalesced : Coalesced (pre ++ c :: post))
  (fits : size + m.arch.chunkHeader + minAlloc < 2 ^ m.arch.wordBits)

include h

theorem Cursor.ptr_eq : (c.addr + m.arch.chunkHeader) % 2 ^ m.arch.wordBits = c.addr + m.arch.chunkHeader := by
  have inside := h.end_le
  have below := h.below
  exact Nat.mod_eq_of_lt (by omega)

include coalesced fits

theorem Cursor.finish_whole (short : ¬size + m.arch.chunkHeader + minAlloc ≤ c.size) :
    Finishes m s pre c post size := by
  obtain ⟨chainPre, chainPost, -, -⟩ := coalesced_split.mp coalesced
  have marked := h.modify (f := fun d => { d with allocated := true }) rfl rfl
  refine ⟨_, ?_, marked.done rfl (coalesced_split.mpr ⟨chainPre, chainPost, by simp, by simp⟩), ?_, rfl, rfl⟩
  · simp only [finish, h.chunkAt, ok_bind, Nat.mod_eq_of_lt fits, ge_iff_le, if_neg short, h.ptr_eq]
    rfl
  · rw [marked.chunks, taken, remainder, if_neg short, if_neg short]
    rfl

theorem Cursor.finish_split (free : c.allocated = false) (pos : 0 < size)
    (long : size + m.arch.chunkHeader + minAlloc ≤ c.size) : Finishes m s pre c post size := by
  obtain ⟨chainPre, chainPost, -, chainNext⟩ := coalesced_split.mp coalesced
  have below := h.below
  have inside := h.end_le
  have place : (c.addr + m.arch.chunkHeader + size) % 2 ^ m.arch.wordBits =
      c.addr + m.arch.chunkHeader + size := Nat.mod_eq_of_lt (by omega)
  have left : (c.size + 2 ^ m.arch.wordBits + 2 ^ m.arch.wordBits - size - m.arch.chunkHeader) %
      2 ^ m.arch.wordBits = c.size - size - m.arch.chunkHeader := by
    rw [show c.size + 2 ^ m.arch.wordBits + 2 ^ m.arch.wordBits - size - m.arch.chunkHeader =
      c.size - size - m.arch.chunkHeader + 2 ^ m.arch.wordBits * 2 by omega, Nat.add_mul_mod_self_left]
    exact Nat.mod_eq_of_lt (by omega)
  have rest := h.split ⟨c.addr, size, true⟩ (leftover m c size) rfl rfl
    (by simp only [extent, leftover]; omega) (by simp only [extent, leftover]; omega)
    ⟨pos, by simp only [leftover, minAlloc] at long ⊢; omega⟩
  have chain : Coalesced (pre ++ [⟨c.addr, size, true⟩]) :=
    coalesced_split.mpr ⟨chainPre, isChain_nil, by simp, by simp⟩
  -- the chunk was free, so the one behind it is allocated
  have nextAllocated : ∀ n ∈ post.head?, n.allocated = true := fun n first =>
    (chainNext n first).resolve_left (by simp [free])
  refine ⟨_, ?_, rest.list rfl (coalesced_split.mpr ⟨chain, chainPost, by simp, fun n first =>
    .inr (nextAllocated n first)⟩), ?_, rfl, rfl⟩
  · have chunks := h.split_chunks (leftover m c size) size (by simpa using rest.distinct)
    have listed : Heap.classOf m s.maxClass (c.size - size - m.arch.chunkHeader) = _ := rest.classOf.1
    simp only [finish, h.chunkAt, ok_bind, Nat.mod_eq_of_lt fits, ge_iff_le, if_pos long,
      h.ptr_eq, modChunk, moveTail, place, left, listed, mmClassAdd, pure, Except.pure]
    simp only [leftover] at chunks
    rw [chunks]
    rfl
  · simp [mmClassAdd, taken, remainder, if_pos long]

theorem Cursor.finish (free : c.allocated = false) (pos : 0 < size) : Finishes m s pre c post size := by
  by_cases long : size + m.arch.chunkHeader + minAlloc ≤ c.size
  · exact h.finish_split coalesced fits free pos long
  · exact h.finish_whole coalesced fits long

end finish

/-! ### Expanding the heap -/

/-- The last chunk of the heap takes in what the heap grows by. -/
theorem Cursor.grow (h : Cursor m s pre c []) {n : Nat} {f : Chunk → Chunk}
    (grown : f c = { c with size := c.size + n }) (below : s.heapCurrent + n < 2 ^ m.arch.wordBits)
    (small : s.heapCurrent + n ≤ s.heapStart + 2 ^ 32) :
    Cursor m { modChunk s c.addr f with heapCurrent := s.heapCurrent + n } pre (f c) [] := by
  have chunks : (modChunk s c.addr f).chunks = pre ++ [f c] := by
    simp only [modChunk, h.chunks]
    exact Keyed.modify_split h.distinct f
  have addr : (f c).addr = c.addr := by rw [grown]
  obtain ⟨before, last⟩ := h.tiles_iff
  refine ⟨⟨?_, ?_, h.nonnull, below, small, h.classes, ?_⟩, chunks, h.lists⟩
  · simp only [chunks, tiles_append_cons, addr]
    refine ⟨before, ?_⟩
    simp only [Tiles, extent, grown] at last ⊢
    omega
  · simp only [chunks, getLast_addr, addr]
    exact h.tail_eq
  · have old := h.solid c h.mem
    simp only [chunks]
    exact h.solid_with (by rw [grown]; exact Nat.add_pos_left old n)

theorem Inv.append (h : Inv m s) {n : Nat} (room : m.arch.chunkHeader < n)
    (below : s.heapCurrent + n < 2 ^ m.arch.wordBits) (small : s.heapCurrent + n ≤ s.heapStart + 2 ^ 32) :
    Cursor m { s with
        chunks := s.chunks ++ [⟨s.heapCurrent, n - m.arch.chunkHeader, false⟩]
        tail := some s.heapCurrent
        heapCurrent := s.heapCurrent + n }
      s.chunks ⟨s.heapCurrent, n - m.arch.chunkHeader, false⟩ [] := by
  refine ⟨⟨?_, ?_, h.nonnull, below, small, h.classes, ?_⟩, rfl, ?_⟩
  · rw [tiles_append_cons]
    refine ⟨h.tiles, ?_⟩
    simp only [Tiles, extent]
    omega
  · rw [getLast_addr]
    rfl
  · intro d member
    rcases mem_append.mp member with old | new
    · exact h.solid d old
    · rw [mem_singleton.mp new]
      exact Nat.sub_pos_of_lt room
  · rw [append_nil]
    exact h.lists

/-- What the callees of `expand_heap` promise when they grant `pages` pages at the end of
the heap: `alloc_n` grants at least one page, `map_range` refuses a range that wraps around, and
every page of the heap has a frame of its own (a frame met twice halts in
`refcount_inc`), so that the heap is at most as large as 32-bit physical memory. -/
@[mk_iff]
structure Grant (m : Machine) (s : State) (pages : Nat) : Prop where
  pos : 0 < pages
  below : s.heapCurrent + pages * pageSize < 2 ^ m.arch.wordBits
  small : s.heapCurrent + pages * pageSize ≤ s.heapStart + 2 ^ 32

instance (pages : Nat) : Decidable (Grant m s pages) :=
  decidable_of_iff' _ (grant_iff ..)

theorem Grant.room {pages : Nat} (grant : Grant m s pages) : m.arch.chunkHeader < pages * pageSize := by
  have pos := grant.pos
  have header : m.arch.chunkHeader ≤ 48 := by
    cases m.arch <;> decide
  simp only [pageSize]
  omega

/-- How the last chunk of the heap came about: a free tail took the pages in, or they are a
chunk behind an allocated one. -/
def Expanded (m : Machine) (s : State) (pages : Nat) (pre : List Chunk) (c : Chunk) : Prop :=
  (∃ old, s.chunks = pre ++ [old] ∧ old.allocated = false ∧
    c = { old with size := old.size + pages * pageSize }) ∨
  ((∀ last ∈ s.chunks.getLast?, last.allocated = true) ∧ pre = s.chunks ∧
    c = ⟨s.heapCurrent, pages * pageSize - m.arch.chunkHeader, false⟩)

theorem Core.freeTail_none (h : Core m s) (last : ∀ c ∈ s.chunks.getLast?, c.allocated = true) :
    freeTail s = .ok none := by
  simp only [freeTail, h.tail]
  cases at_end : s.chunks.getLast? with
  | none => rfl
  | some tail =>
    simp [h.chunkAt (mem_of_getLast? at_end), last tail at_end]

theorem Core.freeTail_some (h : Core m s) {tail : Chunk} (at_end : s.chunks.getLast? = some tail)
    (free : tail.allocated = false) : freeTail s = .ok (some tail) := by
  simp only [freeTail, h.tail, at_end, map_some, h.chunkAt (mem_of_getLast? at_end), bind, Except.bind, free]
  rfl

theorem Inv.expandInsert (h : Inv m s) {pages : Nat} (grant : Grant m s pages) :
    ∃ pre c s', expandInsert m s s.heapCurrent pages = .ok (c.addr, s') ∧ Inv m s' ∧
      s'.chunks = pre ++ [c] ∧ c.allocated = false ∧ Expanded m s pages pre c ∧
      s'.heapStart = s.heapStart ∧ s'.heapCurrent = s.heapCurrent + pages * pageSize := by
  have below := grant.below
  have room := grant.room
  have bytes : pages * pageSize % 2 ^ m.arch.wordBits = pages * pageSize := Nat.mod_eq_of_lt (by omega)
  have size : (pages * pageSize + 2 ^ m.arch.wordBits - m.arch.chunkHeader) % 2 ^ m.arch.wordBits =
      pages * pageSize - m.arch.chunkHeader := by
    rw [show pages * pageSize + 2 ^ m.arch.wordBits - m.arch.chunkHeader =
      pages * pageSize - m.arch.chunkHeader + 2 ^ m.arch.wordBits by omega, Nat.add_mod_right]
    exact Nat.mod_eq_of_lt (by omega)
  have top : (s.heapCurrent + pages * pageSize) % 2 ^ m.arch.wordBits =
      s.heapCurrent + pages * pageSize := Nat.mod_eq_of_lt below
  by_cases last : ∀ c ∈ s.chunks.getLast?, c.allocated = true
  · -- nothing to join: the pages become a chunk of their own
    have cursor := h.append room below grant.small
    refine ⟨s.chunks, _, _, ?_, cursor.list rfl (coalesced_split.mpr
      ⟨h.coalesced, isChain_nil, fun p tail => .inl (last p tail), by simp⟩), rfl, rfl,
      .inr ⟨last, rfl, rfl⟩, rfl, rfl⟩
    have found : chunkAt { s with
        chunks := s.chunks ++ [⟨s.heapCurrent, pages * pageSize - m.arch.chunkHeader, false⟩]
        tail := some s.heapCurrent } s.heapCurrent =
          .ok ⟨s.heapCurrent, pages * pageSize - m.arch.chunkHeader, false⟩ := cursor.chunkAt
    have listed : classOf m s.maxClass (pages * pageSize - m.arch.chunkHeader) = _ := cursor.classOf.1
    simp [Heap.expandInsert, h.freeTail_none last, bytes, size, ok_bind, pure, Except.pure, found,
      listed, mmClassAdd, top]
  · simp only [not_forall, Bool.not_eq_true] at last
    obtain ⟨tail, at_end, free⟩ := last
    obtain ⟨pre, split⟩ : ∃ pre, s.chunks = pre ++ [tail] := getLast?_eq_some_iff.mp at_end
    have member : tail ∈ s.chunks := mem_of_getLast? at_end
    have inside := (h.unlist split free).end_le
    simp only [mmClassRemoveChunk] at inside
    have grown : tail.enlarge m (pages * pageSize - m.arch.chunkHeader + m.arch.chunkHeader) =
        { tail with size := tail.size + pages * pageSize } := by
      rw [Nat.sub_add_cancel room.le, Chunk.enlarge_eq (by omega)]
    have cursor := (h.unlist split free).grow (f := fun c => c.enlarge m _) grown below grant.small
    refine ⟨pre, _, _, ?_, cursor.list free (coalesced_split.mpr ?_), cursor.chunks, free,
      .inl ⟨tail, split, free, grown⟩, rfl, rfl⟩
    · have found : chunkAt (modChunk (mmClassRemoveChunk s (classNat m s.maxClass tail.size) tail.addr) tail.addr
          fun c => c.enlarge m _) tail.addr = _ := cursor.chunkAt
      have listed : classOf m s.maxClass (tail.enlarge m (_ + _)).size = _ := cursor.classOf.1
      simp only [Heap.expandInsert, h.freeTail_some at_end free, bytes, size, ok_bind, pure,
        Except.pure, (h.classOf member).1, found]
      simp only [modChunk, mmClassAdd, mmClassRemoveChunk, top, listed]
      rfl
    · have chain := coalesced_split.mp (split ▸ h.coalesced)
      exact ⟨chain.1, chain.2.1, chain.2.2.1, by simp⟩

theorem Inv.retake (h : Inv m s) (split : s.chunks = pre ++ c :: post) :
    retake m s c.addr = .ok (mmClassRemoveChunk s (classNat m s.maxClass c.size) c.addr) := by
  have member : c ∈ s.chunks := by simp [split]
  simp [Heap.retake, h.chunkAt member, (h.classOf member).1, ok_bind]

/-! ### malloc -/

/-- A request whose size, with a header and the smallest remainder, is a `size_t`. -/
def Fits (m : Machine) (size : Nat) : Prop :=
  roundUp size + m.arch.chunkHeader + minAlloc < 2 ^ m.arch.wordBits
  deriving Decidable

/-- The chunk `malloc` works on: the first one of the class the bitmap leads it to, or, if it
leads to none, the one the expansion makes. -/
def Offered (m : Machine) (s : State) (size : Nat) (pre : List Chunk) (c : Chunk) (post : List Chunk) : Prop :=
  match mmBitmapFind s (mmSizeToClass m (roundUp size) s.maxClass) with
  | some cls => s.chunks = pre ++ c :: post ∧ (s.classes.heads cls).head? = some c.addr
  | none => Grant m s (pagesNeeded m (roundUp size)) ∧
    Expanded m s (pagesNeeded m (roundUp size)) pre c ∧ post = []

def Env.Sound (m : Machine) (s : State) (size : Nat) (env : Env) : Prop :=
  env.granted = true → Grant m s (pagesNeeded m (roundUp size))
  deriving Decidable

/-- What `malloc` has in hand when it comes to splitting: no chunk at all, and the state as it
was, or a free chunk that no list has. -/
theorem Inv.malloc_cursor (h : Inv m s) {env : Env} (sound : env.Sound m s size) : malloc m s size env = .ok (none, s) ∨
      ∃ pre c post s₁, Offered m s size pre c post ∧ Cursor m s₁ pre c post ∧ c.allocated = false ∧
        Coalesced (pre ++ c :: post) ∧ s₁.heapStart = s.heapStart ∧ s.heapCurrent ≤ s₁.heapCurrent ∧
        malloc m s size env = (do
          let (ptr, s') ← finish m s₁ c.addr (roundUp size)
          pure (some ptr, s')) := by
  cases took : Heap.takeChunk m s (roundUp size) with
  | some entry =>
    obtain ⟨addr, s₁⟩ := entry
    obtain ⟨pre, c, post, cls, rfl, free, split, cursor, start, current, found, first⟩ := h.takeChunk took
    refine .inr ⟨pre, c, post, s₁, ?_, cursor, free, split ▸ h.coalesced, start, current.ge, ?_⟩
    · simp only [Offered, found]
      exact ⟨split, first⟩
    · simp [malloc, took]
  | none =>
    cases granted : env.granted with
    | false =>
      left
      simp only [malloc, took, granted]
      rfl
    | true =>
      obtain ⟨pre, c, s₁, inserted, inv, split, free, expanded, start, current⟩ := h.expandInsert (sound granted)
      refine .inr ⟨pre, c, [], _, ?_, inv.unlist split free, free, split ▸ inv.coalesced, start,
        current ▸ Nat.le_add_right _ _, ?_⟩
      · simp only [Offered, h.takeChunk_none took]
        exact ⟨sound granted, expanded, trivial⟩
      · simp [malloc, took, granted, inserted, inv.retake split, ok_bind]

/-- A request that fits leaves a heap that satisfies the invariant; the chunk it was offered
is the one allocated chunk more. -/
theorem Inv.malloc (h : Inv m s) (fits : Fits m size) {env : Env} (sound : env.Sound m s size) :
    malloc m s size env = .ok (none, s) ∨
      ∃ pre c post s', malloc m s size env = .ok (some (c.addr + m.arch.chunkHeader), s') ∧
        Offered m s size pre c post ∧ c.allocated = false ∧ Inv m s' ∧
        s'.chunks = pre ++ taken m c (roundUp size) :: (remainder m c (roundUp size) ++ post) ∧
        s'.heapStart = s.heapStart := by
  rcases h.malloc_cursor sound with none | ⟨pre, c, post, s₁, offered, cursor, free, chain, start, -, eq⟩
  · exact .inl none
  · obtain ⟨s', finished, inv, chunks, start', -⟩ := cursor.finish chain fits free (roundUp_pos size)
    refine .inr ⟨pre, c, post, s', ?_, offered, free, inv, chunks, start'.trans start⟩
    rw [eq, finished]
    rfl

end Jlos.Heap
