import Jlos.Lib.Bitmap
import Jlos.Lib.Block

/-!
# The page frame allocator

A shallow embedding of `kernel/page_frame_allocator.c`. The page descriptors are a
function from frame numbers, the intrusive free lists are lists of frame numbers, most
recently added first. A branch that prints and then halts the machine for ever is an
error; so is following a `container_of` out of an empty list, which the C code cannot
survive either.
-/
namespace Jlos.Pfa

open Lib Function

def pageSize : Nat := 4096

def refcountMax : Nat := 255

def maxOrder : Nat := 10

def orderInvalid : Nat := 0xFF

def freeNMax : Nat := 1024

def percpuHigh : Nat := 16

def percpuBatch : Nat := 8

def maxCpus : Nat := 8

inductive FrameType
  | free | slabObj | kvContig | kvHeap | kernStack | pageTable | filePage
  deriving DecidableEq, Repr

/-- `jlos_page_t`, without the fields of the page cache. `occupied` is the only flag bit,
and `owner` is the pointer the union holds while the frame is in no list. -/
structure Page where
  occupied : Bool
  type : FrameType
  order : Nat
  ptPresentCount : BitVec 8
  refcount : Nat
  owner : Nat
  deriving DecidableEq

structure PerCpu where
  freeList : List Nat
  count : Nat
  deriving DecidableEq

/-- The file's static variables. -/
structure State where
  totalFrames : Nat
  startAddr : Nat
  freeFrames : BitVec 32
  freeOrderBitmap : Bitmap
  pages : Nat → Page
  freeArea : Nat → List Nat
  percpu : Nat → PerCpu

/-- The places where the allocator stops the machine. -/
inductive Halt
  /-- `[OOB] insert` -/
  | insertOob
  /-- `[ALIGN] insert` -/
  | insertAlign
  /-- `[ASSERT] insert ... (reserved)!` -/
  | insertReserved
  /-- `[ASSERT] insert ... (already in free list)!` -/
  | insertLinked
  /-- `[PANIC] ... (frame/block OOB)` -/
  | removeOob
  /-- `[PANIC] remove ... bad=` -/
  | removeBad
  /-- `underflow frame` -/
  | refcountUnderflow
  /-- `refcount overflow/free frame` -/
  | refcountOverflow
  /-- `refcount = 0 (double free)` -/
  | doubleFree
  /-- `free_bulk overflow` -/
  | freeBulkOverflow
  /-- `free_bulk ... (over-release!)` -/
  | freeBulkOverRelease
  /-- `set_owner_type on free frame (union conflict!)` -/
  | ownerOnFreeFrame
  /-- `container_of` applied to a list head. -/
  | wildPointer
  deriving DecidableEq, Repr

abbrev M := Except Halt

namespace State

def modPage (s : State) (frame : Nat) (f : Page → Page) : State :=
  { s with pages := update s.pages frame (f (s.pages frame)) }

def modPages (s : State) (base n : Nat) (f : Page → Page) : State :=
  (List.range n).foldl (fun s i => s.modPage (base + i) f) s

def setFreeArea (s : State) (order : Nat) (l : List Nat) : State :=
  { s with freeArea := update s.freeArea order l }

def setPercpu (s : State) (cpu : Nat) (pc : PerCpu) : State :=
  { s with percpu := update s.percpu cpu pc }

end State

def orderToFrames (order : Nat) : Nat := 2 ^ order

/-- The loop of `frames_to_order`; 32 rounds empty any `uint32_t`. -/
def bitLength : Nat → Nat → Nat
  | 0, _ => 0
  | fuel + 1, v => if v = 0 then 0 else bitLength fuel (v >>> 1) + 1

def framesToOrder (n : Nat) : Nat := if n ≤ 1 then 0 else bitLength 32 (n - 1)

/-- `(p - s_start_addr) / JLOS_PAGE_FRAME_SIZE` in 32-bit arithmetic. -/
def pfaPhysToFrame (s : State) (p : Nat) : Nat := ((p + 2 ^ 32 - s.startAddr) % 2 ^ 32) / pageSize

def framePhys (s : State) (frame : Nat) : Nat := s.startAddr + frame * pageSize

def buddyMergeable (s : State) (frame order : Nat) : Bool :=
  let block := orderToFrames order
  let buddy := frame ^^^ block
  if buddy ≥ s.totalFrames then false
  else
    let mergedStart := if buddy < frame then buddy else frame
    if mergedStart + block * 2 > s.totalFrames then false
    else (s.pages buddy).order = order ∧ ¬(s.pages buddy).occupied

def buddyInsert (s : State) (frame order : Nat) : M State :=
  let block := orderToFrames order
  if frame ≥ s.totalFrames ∨ frame + block > s.totalFrames then throw .insertOob
  else if frame &&& (block - 1) ≠ 0 then throw .insertAlign
  else if (s.pages frame).occupied then throw .insertReserved
  else if (s.pages frame).order ≠ orderInvalid ∧ (s.pages frame).order ≠ order then
    throw .insertLinked
  else
    let s := if s.freeArea order = [] then
        { s with freeOrderBitmap := s.freeOrderBitmap.setBit order } else s
    let s := s.setFreeArea order (frame :: s.freeArea order)
    pure (s.modPage frame fun pg => { pg with order := order })

/-- `jlos_list_empty` of a frame's `u.free_list` is false: some list links the frame. -/
def linked (s : State) (frame : Nat) : Bool :=
  (List.range (maxOrder + 1)).any (fun order => frame ∈ s.freeArea order) ||
  (List.range maxCpus).any (fun cpu => frame ∈ (s.percpu cpu).freeList)

/-- `jlos_list_del` of a frame's `u.free_list`: unlinks it from whichever list holds it. -/
def listDel (s : State) (frame : Nat) : State :=
  { s with
    freeArea := fun order => (s.freeArea order).erase frame
    percpu := fun cpu => { s.percpu cpu with freeList := (s.percpu cpu).freeList.erase frame } }

def buddyRemove (s : State) (frame order : Nat) : M State :=
  let block := orderToFrames order
  if frame ≥ s.totalFrames ∨ frame + block > s.totalFrames then throw .removeOob
  else if (s.pages frame).order ≠ order ∨ (s.pages frame).order = orderInvalid ∨
      linked s frame = false then
    throw .removeBad
  else
    let s := listDel s frame
    let s := if s.freeArea order = [] then
        { s with freeOrderBitmap := s.freeOrderBitmap.clearBit order } else s
    pure (s.modPage frame fun pg => { pg with order := orderInvalid })

/-- `jlos_page_frame_order_split`: gives back the upper halves from `order` down to
`targetOrder`. -/
def orderSplit (s : State) (frame : Nat) : Nat → Nat → M State
  | 0, _ => pure s
  | order + 1, targetOrder =>
    if order + 1 > targetOrder then do
      let s ← buddyInsert s (frame ||| orderToFrames order) order
      orderSplit s frame order targetOrder
    else pure s

def markRecycle (s : State) (frame : Nat) : State :=
  if frame ≥ s.totalFrames then s
  else s.modPage frame fun pg =>
    { pg with occupied := false, refcount := 0, order := orderInvalid }

def markReserve (s : State) (frame : Nat) : State :=
  if frame ≥ s.totalFrames then s
  else s.modPage frame fun pg =>
    { pg with occupied := true, refcount := 1, order := orderInvalid, type := .free,
              ptPresentCount := 0 }

/-- The merge loop of `buddy_free_nolock`. -/
def buddyMergeUp (s : State) (frame order : Nat) : Nat → M (State × Nat × Nat)
  | 0 => pure (s, frame, order)
  | fuel + 1 =>
    if order < maxOrder ∧ buddyMergeable s frame order then do
      let buddy := frame ^^^ orderToFrames order
      let s ← buddyRemove s buddy order
      buddyMergeUp s (if buddy < frame then buddy else frame) (order + 1) fuel
    else pure (s, frame, order)

def buddyFreeNolock (s : State) (frame order : Nat) : M State := do
  let freedFrames := orderToFrames order
  let (s, frame, order) ← buddyMergeUp s frame order maxOrder
  let s ← buddyInsert s frame order
  pure { s with freeFrames := s.freeFrames + BitVec.ofNat 32 freedFrames }

def percpuPop (s : State) (cpu : Nat) : M (Nat × State) :=
  match (s.percpu cpu).freeList with
  | [] => throw .wildPointer
  | first :: rest => pure (first, s.setPercpu cpu ⟨rest, (s.percpu cpu).count - 1⟩)

def percpuPush (s : State) (cpu frame : Nat) : State :=
  s.setPercpu cpu ⟨frame :: (s.percpu cpu).freeList, (s.percpu cpu).count + 1⟩

def percpuDrainLoop (s : State) (cpu : Nat) : Nat → M State
  | 0 => pure s
  | n + 1 => do
    let (frame, s) ← percpuPop s cpu
    let s ← buddyFreeNolock s frame 0
    percpuDrainLoop s cpu n

def percpuDrain (s : State) (cpu : Nat) : M State :=
  let drainCount := if percpuBatch > (s.percpu cpu).count then (s.percpu cpu).count else percpuBatch
  percpuDrainLoop s cpu drainCount

def firstFree (s : State) (order : Nat) : M Nat :=
  match s.freeArea order with
  | [] => throw .wildPointer
  | frame :: _ => pure frame

/-- The loop of `percpu_refill`; each round adds one frame, so `percpuBatch` rounds fill
the list. -/
def percpuRefillLoop (s : State) (cpu : Nat) : Nat → M State
  | 0 => pure s
  | fuel + 1 =>
    if (s.percpu cpu).count < percpuBatch then
      if s.freeOrderBitmap = 0 then pure s
      else do
        let order := s.freeOrderBitmap.lowest
        let frame ← firstFree s order
        let s ← buddyRemove s frame order
        let s ← orderSplit s frame order 0
        let s := s.modPage frame fun pg =>
          { pg with occupied := false, type := .free, order := orderInvalid, refcount := 0 }
        let s := percpuPush s cpu frame
        percpuRefillLoop { s with freeFrames := s.freeFrames - 1 } cpu fuel
    else pure s

def percpuRefill (s : State) (cpu : Nat) : M State := percpuRefillLoop s cpu percpuBatch

/-- `jlos_page_frame_malloc` on `cpu`: the physical address of the frame, or none. -/
def pageFrameMalloc (s : State) (cpu : Nat) : M (Option Nat × State) := do
  let s ← (if (s.percpu cpu).count = 0 then percpuRefill s cpu else pure s)
  if (s.percpu cpu).count > 0 then
    let (frame, s) ← percpuPop s cpu
    let s := s.modPage frame fun pg => { pg with occupied := true, refcount := 1 }
    pure (some (framePhys s frame), s)
  else pure (none, s)

/-- The largest order whose block starts at `base` and fits into `len` frames, found by
raising `order` from zero. -/
def rangeOrder (base len : Nat) : Nat → Nat → Nat
  | 0, order => order
  | fuel + 1, order =>
    if orderToFrames (order + 1) ≤ len ∧ base &&& (orderToFrames (order + 1) - 1) = 0 then
      rangeOrder base len fuel (order + 1)
    else order

/-- `buddy_free_range`. The rounds of the outer loop are bounded by `len`, since each
frees at least one frame; an order cannot pass 32. -/
def buddyFreeRangeLoop (s : State) : Nat → Nat → Nat → M State
  | 0, _, _ => pure s
  | fuel + 1, baseFrame, len =>
    if len = 0 then pure s
    else do
      let order := rangeOrder baseFrame len 32 0
      let block := orderToFrames order
      let s := s.modPages baseFrame block fun pg =>
        { pg with occupied := false, order := orderInvalid, type := .free, ptPresentCount := 0 }
      let s ← buddyFreeNolock s baseFrame order
      buddyFreeRangeLoop s fuel (baseFrame + block) (len - block)

def buddyFreeRange (s : State) (baseFrame len : Nat) : M State :=
  buddyFreeRangeLoop s len baseFrame len

def pageFrameRefcountDec (s : State) (cpu phys : Nat) : M State :=
  let frame := pfaPhysToFrame s phys
  if frame ≥ s.totalFrames then pure s
  else
    let old := (s.pages frame).refcount
    if old > 0 then
      let s := s.modPage frame fun pg => { pg with refcount := old - 1 }
      if old = 1 then
        let s := s.modPage frame fun pg =>
          { pg with occupied := false, order := orderInvalid, type := .free,
                    ptPresentCount := 0, refcount := 0 }
        let s := percpuPush s cpu frame
        if (s.percpu cpu).count > percpuHigh then percpuDrain s cpu else pure s
      else pure s
    else throw .refcountUnderflow

def pageFrameFree (s : State) (cpu phys : Nat) : M State := pageFrameRefcountDec s cpu phys

def pageFrameRefcountInc (s : State) (phys : Nat) : M State :=
  let frame := pfaPhysToFrame s phys
  if frame ≥ s.totalFrames then pure s
  else
    let old := (s.pages frame).refcount
    if old > 0 ∧ old < refcountMax then
      pure (s.modPage frame fun pg => { pg with refcount := old + 1 })
    else throw .refcountOverflow

/-- The first loop of `jlos_page_frame_free_n`: drops one reference of each frame of the
range and collects, newest last, those that lost their last one. -/
def dropRange (s : State) (physStart : Nat) : List Nat → List Nat → M (State × List Nat)
  | [], frames => pure (s, frames)
  | i :: is, frames =>
    let frame := pfaPhysToFrame s ((physStart + i * pageSize) % 2 ^ 32)
    if frame ≥ s.totalFrames then dropRange s physStart is frames
    else
      let old := (s.pages frame).refcount
      if old = 0 then throw .doubleFree
      else
        let s := s.modPage frame fun pg => { pg with refcount := old - 1 }
        if old = 1 then
          if frames.length = freeNMax then throw .freeBulkOverflow
          else dropRange s physStart is (frames ++ [frame])
        else dropRange s physStart is frames

/-- The last loop of `jlos_page_frame_free_n`: frees each maximal run of consecutive
frames of a sorted list. -/
def freeRuns (s : State) (start len : Nat) : List Nat → M State
  | [] => buddyFreeRange s start len
  | frame :: frames =>
    if frame = start + len then freeRuns s start (len + 1) frames
    else do
      let s ← buddyFreeRange s start len
      freeRuns s frame 1 frames

def pageFrameFreeN (s : State) (physStart numFrames : Nat) : M State := do
  let headFrame := pfaPhysToFrame s physStart
  let (s, frames) ← dropRange s physStart (List.range numFrames) []
  if frames = [] then pure s
  else
    let headOrder := (s.pages headFrame).order
    if headFrame < s.totalFrames ∧ headOrder ≠ orderInvalid ∧
        orderToFrames headOrder < numFrames then
      throw .freeBulkOverRelease
    else
      match frames.insertionSort (· ≤ ·) with
      | [] => throw .wildPointer
      | start :: rest => freeRuns s start 1 rest

/-- `jlos_page_frame_alloc_n`: the physical address of the first frame, or none. -/
def pageFrameAllocN (s : State) (numFrames : Nat) : M (Option Nat × State) :=
  if numFrames = 0 ∨ numFrames > s.totalFrames then pure (none, s)
  else
    let targetOrder := framesToOrder numFrames
    let masked := s.freeOrderBitmap &&& Bitmap.maskFrom targetOrder
    if masked = 0 then pure (none, s)
    else do
      let order := Bitmap.lowest masked
      let frame ← firstFree s order
      let s ← buddyRemove s frame order
      let s ← (if order > targetOrder then orderSplit s frame order targetOrder else pure s)
      let extra := orderToFrames targetOrder - numFrames
      let s ← (if extra ≠ 0 then buddyFreeRange s (frame + numFrames) extra else pure s)
      let s := (List.range numFrames).foldl (fun s i => markReserve s (frame + i)) s
      let s := s.modPage frame fun pg => { pg with order := targetOrder }
      pure (some (framePhys s frame), { s with freeFrames := s.freeFrames - BitVec.ofNat 32 numFrames })

def pageFrameGetType (s : State) (phys : Nat) : FrameType :=
  if phys < s.startAddr then .free
  else
    let f := pfaPhysToFrame s phys
    if f < s.totalFrames then (s.pages f).type else .free

def pageFrameGetOwner (s : State) (phys : Nat) : Nat :=
  if phys < s.startAddr then 0
  else
    let f := pfaPhysToFrame s phys
    if f < s.totalFrames then (s.pages f).owner else 0

def pageFrameSetOwnerType (s : State) (phys owner : Nat) (type : FrameType) : M State :=
  if phys < s.startAddr then pure s
  else
    let f := pfaPhysToFrame s phys
    if f ≥ s.totalFrames then pure s
    else if ¬(s.pages f).occupied then throw .ownerOnFreeFrame
    else pure (s.modPage f fun pg => { pg with type := type, owner := owner })

def pageFramePtPresentCountSet (s : State) (phys : Nat) (count : BitVec 8) : State :=
  let f := pfaPhysToFrame s phys
  if f ≥ s.totalFrames then s else s.modPage f fun pg => { pg with ptPresentCount := count }

def pageFramePtPresentCountGet (s : State) (phys : Nat) : BitVec 8 :=
  let f := pfaPhysToFrame s phys
  if f ≥ s.totalFrames then 0 else (s.pages f).ptPresentCount

/-- The counter is a `uint8_t`: the increment wraps. -/
def pageFramePtPresentCountInc (s : State) (phys : Nat) : State :=
  let f := pfaPhysToFrame s phys
  if f ≥ s.totalFrames then s
  else s.modPage f fun pg => { pg with ptPresentCount := pg.ptPresentCount + 1 }

def pageFramePtPresentCountDec (s : State) (phys : Nat) : State :=
  let f := pfaPhysToFrame s phys
  if f < s.totalFrames ∧ (s.pages f).ptPresentCount ≠ 0 then
    s.modPage f fun pg => { pg with ptPresentCount := pg.ptPresentCount - 1 }
  else s

/-! ### Initialisation -/

def markOccupied (s : State) (physStart physEnd : Nat) : M State :=
  if physEnd ≤ physStart then pure s
  else
    let startFrame := pfaPhysToFrame s physStart
    let endFrame := ((physEnd + 2 ^ 32 - s.startAddr) % 2 ^ 32 + pageSize - 1) / pageSize
    if startFrame ≥ s.totalFrames then pure s
    else
      let endFrame := if endFrame > s.totalFrames then s.totalFrames else endFrame
      (List.range' startFrame (endFrame - startFrame)).foldlM (fun s i => do
        if (s.pages i).occupied then pure s
        else
          let s ← (if (s.pages i).order ≠ orderInvalid then do
              let ord := (s.pages i).order
              let s ← buddyRemove s i ord
              pure { s with freeFrames := s.freeFrames - BitVec.ofNat 32 (orderToFrames ord) }
            else pure s)
          pure (markReserve s i)) s

/-- One entry of the boot memory map. -/
structure BootMem where
  addr : Nat
  size : Nat
  usable : Bool

/-- What initialisation reads: the width of `uintptr_t`, the device's memory range and
map, the linker's and the boot allocator's ends, the boot page table given back at the end
(none on arm64), the boot cpu, and whatever the descriptor memory held before. -/
structure Boot where
  wordBits : Nat
  physStart : Nat
  physEnd : Nat
  kernelEndPhys : Nat
  bootEndPhys : Nat
  bootAllocEndPhys : Nat
  mem : List BootMem
  bootTable : Option Nat
  cpu : Nat
  stale : Nat → Page

/-- The number of whole frames between the start of memory and `addr`, as the
`uint32_t` it is stored in. -/
def Boot.framesBelow (b : Boot) (addr : Nat) : Nat :=
  ((addr + 2 ^ b.wordBits - b.physStart) % 2 ^ b.wordBits / pageSize) % 2 ^ 32

def Boot.totalFrames (b : Boot) : Nat := b.framesBelow b.physEnd

def initState (b : Boot) : State where
  totalFrames := b.totalFrames
  startAddr := b.physStart
  freeFrames := 0
  freeOrderBitmap := 0
  pages f := { b.stale f with occupied := false, type := .free, order := orderInvalid, refcount := 0 }
  freeArea _ := []
  percpu _ := ⟨[], 0⟩

/-- Marks one non-usable entry of the boot memory map. -/
def markBootMem (b : Boot) (s : State) (m : BootMem) : M State :=
  if m.usable then pure s
  else
    let start := m.addr
    let stop := (start + m.size) % 2 ^ 64
    if stop ≤ b.physStart ∨ start ≥ b.physEnd then pure s
    else
      let s32 := if start < b.physStart then b.physStart else start % 2 ^ 32
      let e32 := if stop > b.physEnd then b.physEnd else stop % 2 ^ 32
      if s32 < e32 then markOccupied s s32 e32 else pure s

/-- Everything initialisation reserves before it builds the free lists. -/
def initReserved (b : Boot) : M State := do
  let kernelFrames := b.framesBelow b.kernelEndPhys
  let s := initState b
  let s := (List.range (min kernelFrames s.totalFrames)).foldl markReserve s
  let bootFrames := b.framesBelow b.bootEndPhys
  let s := (List.range' kernelFrames (min bootFrames s.totalFrames - kernelFrames)).foldl markRecycle s
  let bootAllocEndFrame :=
    (((b.bootAllocEndPhys + 2 ^ b.wordBits - b.physStart) % 2 ^ b.wordBits + pageSize - 1) %
      2 ^ b.wordBits / pageSize) % 2 ^ 32
  let s := (List.range' kernelFrames
    (min bootAllocEndFrame s.totalFrames - kernelFrames)).foldl markReserve s
  let s ← (if b.physStart > 0 then markOccupied s 0 b.physStart else pure s)
  b.mem.foldlM (markBootMem b) s

/-- Links one frame at order 0 if it is vacant and in no list yet. -/
def initInsertFrame (s : State) (frame : Nat) : M State :=
  if ¬(s.pages frame).occupied ∧ (s.pages frame).order = orderInvalid then buddyInsert s frame 0
  else pure s

def initInsert (s : State) : M State :=
  (List.range s.totalFrames).foldlM initInsertFrame s

/-- One step of the bottom-up merge of initialisation. -/
def initMergePair (s : State) (frame order : Nat) : M State :=
  if (s.pages frame).order ≠ order then pure s
  else if ¬buddyMergeable s frame order then pure s
  else do
    let buddy := frame ^^^ orderToFrames order
    let s ← buddyRemove s buddy order
    let s ← buddyRemove s frame order
    buddyInsert s (if buddy < frame then buddy else frame) (order + 1)

/-- All pairs of one order: `frame` steps through the multiples of two blocks while a
pair still fits. -/
def initMergeOrder (s : State) (order : Nat) : M State :=
  let block := orderToFrames order
  (List.range (s.totalFrames / (block * 2))).foldlM
    (fun s i => initMergePair s (i * (block * 2)) order) s

def initMerge (s : State) : M State :=
  (List.range maxOrder).foldlM initMergeOrder s

/-- The final count of `s_free_frames`. -/
def initCount (s : State) : State :=
  { s with freeFrames := (List.range (maxOrder + 1)).foldl (fun acc order =>
      (s.freeArea order).foldl (fun acc _ => acc + BitVec.ofNat 32 (orderToFrames order)) acc) 0 }

def pageFrameAllocatorInit (b : Boot) : M State := do
  let s ← initReserved b
  let s ← initInsert s
  let s ← initMerge s
  let s := initCount s
  match b.bootTable with
  | some phys => pageFrameRefcountDec s b.cpu phys
  | none => pure s

end Jlos.Pfa
