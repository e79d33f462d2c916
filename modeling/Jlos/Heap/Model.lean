import Jlos.Arch
import Jlos.Lib.Buckets
import Jlos.Lib.Keyed

/-!
# The kernel heap

A shallow embedding of the heap of `kernel/memory_manager.c`. The chunk list is a list of
headers in address order, reached by address; the class lists and their bitmap are
buckets of header addresses. `malloc` is cut at the places where it holds `s_heap_lock`:
taking a chunk, inserting the chunk `expand_heap` made, taking that one, and splitting.
Following a pointer to no header, or indexing `class_head` out of bounds, is a fault.
-/
namespace Jlos.Heap

open Lib

def minAlloc : Nat := 16

def classCount : Nat := 32

def pageSize : Nat := 4096

/-- `jlos_memory_chunk_t`, with the address of the header. -/
structure Chunk where
  addr : Nat
  size : Nat
  allocated : Bool
  deriving DecidableEq, Repr

/-- `jlos_memory_manager_t`; `classes` is `class_head` with `size_bitmap`. -/
structure State where
  chunks : List Chunk
  tail : Option Nat
  heapStart : Nat
  heapEnd : Nat
  heapCurrent : Nat
  maxClass : Nat
  classes : Buckets

inductive Fault
  | wildChunk
  | badClass
  deriving DecidableEq, Repr

abbrev M := Except Fault

section

variable (m : Machine)

/-- `__builtin_clz` of a 32-bit value. -/
def clz (v : Nat) : Int := if v = 0 then m.clzZero else 31 - (Nat.log2 v : Int)

def mmSizeToClass (size maxClass : Nat) : Int :=
  if size ≤ minAlloc then 0
  else
    let cls := (classCount : Int) - clz m ((size - 1) % 2 ^ 32) - 4
    if cls > maxClass then maxClass else cls

def classIndex (cls : Int) : M Nat :=
  if 0 ≤ cls ∧ cls < classCount then pure cls.toNat else throw .badClass

/-- The class whose list a chunk of this size belongs to. -/
def classOf (maxClass size : Nat) : M Nat := classIndex (mmSizeToClass m size maxClass)

def chunkAt (s : State) (addr : Nat) : M Chunk :=
  match Keyed.lookup Chunk.addr addr s.chunks with
  | some chunk => pure chunk
  | none => throw .wildChunk

def modChunk (s : State) (addr : Nat) (f : Chunk → Chunk) : State :=
  { s with chunks := Keyed.modify Chunk.addr addr f s.chunks }

/-- `if (self->tail == old) self->tail = new` -/
def moveTail (s : State) (old new : Nat) : State :=
  { s with tail := if s.tail = some old then some new else s.tail }

/-- `chunk->size += n` -/
def Chunk.enlarge (c : Chunk) (n : Nat) : Chunk := { c with size := (c.size + n) % 2 ^ m.arch.wordBits }

def mmClassAdd (s : State) (cls addr : Nat) : State := { s with classes := s.classes.add cls addr }

def mmClassRemoveChunk (s : State) (cls addr : Nat) : State :=
  { s with classes := s.classes.unlink cls addr }

/-- `mm_class_remove_head`, or none if the list is empty. -/
def mmClassRemoveHead (s : State) (cls : Nat) : Option (Nat × State) :=
  match s.classes.pop cls with
  | none => none
  | some (addr, classes) => some (addr, { s with classes := classes })

/-- `mm_bitmap_find`; a negative class is a large `uint32_t`. -/
def mmBitmapFind (s : State) (minClass : Int) : Option Nat :=
  let mask := if minClass < 0 ∨ minClass ≥ 32 then BitVec.allOnes 32 else Bitmap.maskFrom minClass.toNat
  let masked := s.classes.bitmap &&& mask
  if masked = 0 then none else some (Bitmap.lowest masked)

/-- The loop of `mm_init` that finds `max_class`; the class count bounds its rounds. -/
def maxClassLoop (maxAlloc : Nat) : Nat → Nat → Nat → Nat
  | 0, _, cls => cls
  | fuel + 1, s, cls =>
    if s < maxAlloc ∧ cls < classCount - 1 then
      maxClassLoop maxAlloc fuel (s * 2 % 2 ^ m.arch.wordBits) (cls + 1)
    else cls

def mmInit (start size : Nat) : M State := do
  let header := m.arch.chunkHeader
  let w := 2 ^ m.arch.wordBits
  let maxAlloc := (size + w - header) % w
  let s : State :=
    { chunks := [], tail := none, heapStart := start, heapEnd := start + size,
      heapCurrent := start + size, maxClass := maxClassLoop m maxAlloc classCount minAlloc 0,
      classes := Buckets.empty }
  if size ≥ header then do
    let s := { s with chunks := [⟨start, size - header, false⟩], tail := some start }
    let cls ← classOf m s.maxClass (size - header)
    pure (mmClassAdd s cls start)
  else pure s

/-- The heap `jlos_memory_manager_init_low` sets up. -/
def initLow : M State := mmInit m (m.arch.directMapBase + 0x50000) 0x50000

/-- The heap `jlos_memory_manager_init_main` sets up, once its pages are mapped. -/
def initMain : M State := mmInit m m.arch.heapVirtBase (4 * 1024 * 1024)

/-! ### malloc -/

/-- The first critical section of `malloc`: the head of the first non-empty list from the
class of the request on. -/
def takeChunk (s : State) (size : Nat) : Option (Nat × State) :=
  match mmBitmapFind s (mmSizeToClass m size s.maxClass) with
  | none => none
  | some cls => mmClassRemoveHead s cls

/-- The end of `malloc`: splits what is left over off the chunk, marks it and returns the
pointer behind its header. -/
def finish (s : State) (addr size : Nat) : M (Nat × State) := do
  let header := m.arch.chunkHeader
  let w := 2 ^ m.arch.wordBits
  let result ← chunkAt s addr
  let s ← (if result.size ≥ (size + header + minAlloc) % w then do
      let temp : Chunk := ⟨(addr + header + size) % w, (result.size + w + w - size - header) % w, false⟩
      let s := { s with chunks := Keyed.insertAfter Chunk.addr addr temp s.chunks }
      let s := modChunk s addr fun c => { c with size := size }
      let s := moveTail s addr temp.addr
      let tcls ← classOf m s.maxClass temp.size
      pure (mmClassAdd s tcls temp.addr)
    else pure s)
  pure ((addr + header) % w, modChunk s addr fun c => { c with allocated := true })

/-- What the callees of one `expand_heap` answer: whether a paging context is active,
`alloc_n` finds frames and `map_range` maps them. -/
structure Env where
  active : Bool
  frames : Bool
  mapped : Bool
  deriving DecidableEq

def Env.granted (env : Env) : Bool := env.active && env.frames && env.mapped

def pagesNeeded (size : Nat) : Nat := (size + pageSize - 1) % 2 ^ m.arch.wordBits / pageSize

def freeTail (s : State) : M (Option Chunk) :=
  match s.tail with
  | none => pure none
  | some tail => do
    let chunk ← chunkAt s tail
    pure (if chunk.allocated then none else some chunk)

/-- The critical section of `expand_heap`: the pages mapped at `base` join a free tail or
become a new one. Returns the chunk that holds them. -/
def expandInsert (s : State) (base pages : Nat) : M (Nat × State) := do
  let header := m.arch.chunkHeader
  let w := 2 ^ m.arch.wordBits
  let newChunkSize := pages * pageSize % w
  let newSize := (newChunkSize + w - header) % w
  let (addr, s) ← (match ← freeTail s with
    | some tail => do
      let tcls ← classOf m s.maxClass tail.size
      let s := mmClassRemoveChunk s tcls tail.addr
      pure (tail.addr, modChunk s tail.addr fun c => c.enlarge m (newSize + header))
    | none =>
      pure (base, { s with chunks := s.chunks ++ [⟨base, newSize, false⟩], tail := some base }))
  let chunk ← chunkAt s addr
  let cls ← classOf m s.maxClass chunk.size
  let s := mmClassAdd s cls addr
  pure (addr, { s with heapCurrent := (s.heapCurrent + newChunkSize) % w })

/-- The start of the last critical section of `malloc`: takes the expanded chunk off its
list. -/
def retake (s : State) (addr : Nat) : M State := do
  let chunk ← chunkAt s addr
  let cls ← classOf m s.maxClass chunk.size
  pure (mmClassRemoveChunk s cls addr)

def roundUp (size : Nat) : Nat := if size < minAlloc then minAlloc else size

/-- `jlos_memory_manager_malloc`, run without interruption. -/
def malloc (s : State) (size : Nat) (env : Env) : M (Option Nat × State) := do
  let size := roundUp size
  match takeChunk m s size with
  | some (addr, s) => do
    let (ptr, s) ← finish m s addr size
    pure (some ptr, s)
  | none =>
    if env.granted then do
      let (addr, s) ← expandInsert m s s.heapCurrent (pagesNeeded m size)
      let s ← retake m s addr
      let (ptr, s) ← finish m s addr size
      pure (some ptr, s)
    else pure (none, s)

/-! ### free -/

/-- Joins the chunk at `addr` into a free predecessor; returns the chunk it is part of now. -/
def mergePrev (s : State) (addr : Nat) : M (Nat × State) := do
  let header := m.arch.chunkHeader
  let chunk ← chunkAt s addr
  match Keyed.prev Chunk.addr addr s.chunks with
  | none => pure (addr, s)
  | some prev =>
    if prev.allocated then pure (addr, s)
    else do
      let pcls ← classOf m s.maxClass prev.size
      let s := mmClassRemoveChunk s pcls prev.addr
      let s := modChunk s prev.addr fun c => c.enlarge m (chunk.size + header)
      let s := { s with chunks := Keyed.remove Chunk.addr addr s.chunks }
      pure (prev.addr, moveTail s addr prev.addr)

/-- Joins a free successor into the chunk at `addr`. -/
def mergeNext (s : State) (addr : Nat) : M State := do
  let header := m.arch.chunkHeader
  match Keyed.next Chunk.addr addr s.chunks with
  | none => pure s
  | some next =>
    if next.allocated then pure s
    else do
      let ncls ← classOf m s.maxClass next.size
      let s := mmClassRemoveChunk s ncls next.addr
      let s := modChunk s addr fun c => c.enlarge m (next.size + header)
      let s := { s with chunks := Keyed.remove Chunk.addr next.addr s.chunks }
      pure (moveTail s next.addr addr)

/-- `jlos_memory_manager_free`; zero is the null pointer. -/
def free (s : State) (ptr : Nat) : M State :=
  if ptr = 0 then pure s
  else if ptr < s.heapStart ∨ ptr ≥ s.heapCurrent then pure s
  else do
    let w := 2 ^ m.arch.wordBits
    let addr := (ptr + w - m.arch.chunkHeader) % w
    let _ ← chunkAt s addr
    let s := modChunk s addr fun c => { c with allocated := false }
    let (addr, s) ← mergePrev m s addr
    let s ← mergeNext m s addr
    let chunk ← chunkAt s addr
    let cls ← classOf m s.maxClass chunk.size
    pure (mmClassAdd s cls addr)

end

end Jlos.Heap
