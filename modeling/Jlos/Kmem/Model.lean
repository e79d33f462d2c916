import Jlos.Heap.Runs
import Jlos.Pfa.Clients
import Jlos.Slab.Model

/-!
# kalloc, kvalloc and kvfree

A shallow embedding of the general allocators of `kernel/memory_manager.c`, over the models of the
page frame allocator, the two heaps and the slab caches. `jlos_kalloc` and `jlos_kvalloc` choose one
of the three, `jlos_kvfree` finds out from the address and the type of the page frame where a
pointer came from. Pointers are returned together with that origin, which the code does not record.

Slab caches are known by the address of their descriptor, which is what the owner field of a page
frame holds.
-/
namespace Jlos.Kmem

open Lib Function

def pageSize : Nat := 4096

def contigMagic : Nat := 0x4B564354

def contigMaxPages : Nat := 0xFFFFFFFE

/-- `sizeof(jlos_kv_contig_hdr_t)` -/
def contigHdr : Nat := 8

/-- `sizeof(jlos_memory_slab_cache_t)` -/
def cacheSize : Arch → Nat
  | .x86_64 | .arm64 => 256
  | .i386 => 180

section addresses

variable (a : Arch)

def physToVirt (phys : Nat) : Nat := (phys + a.directMapBase) % 2 ^ a.wordBits

def virtToPhys (addr : Nat) : Nat :=
  if addr ≥ a.virtualBase then addr - a.virtualBase
  else (addr + 2 ^ a.wordBits - a.directMapBase) % 2 ^ a.wordBits

/-- `(uint32_t)VIRT_TO_PHYS` -/
def physOf (addr : Nat) : Nat := virtToPhys a addr % 2 ^ 32

/-- The range test `kvfree` makes first; the sum is one of `uintptr_t`. -/
def DirectMapped (addr : Nat) : Prop :=
  addr ≥ a.virtualBase ∧ addr < (a.virtualBase + a.directMapSize) % 2 ^ a.wordBits
  deriving Decidable

end addresses

/-! ### State -/

/-- `jlos_low_memory_manager` and `jlos_main_memory_manager` -/
inductive Manager
  | low
  | main
  deriving DecidableEq, Repr

/-- Where a pointer comes from: the cache at an address, a run of page frames, or a heap. -/
inductive Origin
  | slab (cache : Nat)
  | contig (frame n : Nat)
  | heap (manager : Manager)
  deriving DecidableEq, Repr

/-- What `jlos_memory_slab_cache_create` leaves at the address of a cache. -/
structure Cache where
  geometry : Slab.Geometry
  st : Slab.State

structure State where
  frames : Pfa.Sys
  heaps : Manager → Heap.Sys
  active : Option Manager
  caches : Nat → Option Cache
  /-- `s_kalloc_caches`; zero is null -/
  kallocCaches : Nat → Nat
  /-- The memory at an address, read as the header of a contiguous run: magic and pages. -/
  hdr : Nat → Nat × Nat

inductive Fault
  | pfa (halt : Pfa.Halt)
  | heap (fault : Heap.Fault)
  | slab (fault : Slab.Fault)
  | wildCache
  /-- `bad type ptr` -/
  | badType
  deriving DecidableEq, Repr

abbrev M := Except Fault

def onPfa {α : Type} (x : Pfa.M α) : M α := x.mapError .pfa

def onHeap {α : Type} (x : Heap.M α) : M α := x.mapError .heap

def onSlab {α : Type} (x : Slab.M α) : M α := x.mapError .slab

@[simp] theorem onPfa_ok {α : Type} (x : α) : onPfa (.ok x) = .ok x := rfl

@[simp] theorem onHeap_ok {α : Type} (x : α) : onHeap (.ok x) = .ok x := rfl

@[simp] theorem onSlab_ok {α : Type} (x : α) : onSlab (.ok x) = .ok x := rfl

def State.setFrames (s : State) (frames : Pfa.Sys) : State := { s with frames := frames }

def State.setHeap (s : State) (w : Manager) (heap : Heap.Sys) : State :=
  { s with heaps := update s.heaps w heap }

def State.setCache (s : State) (c : Nat) (k : Cache) : State :=
  { s with caches := update s.caches c (some k) }

/-- A pointer and where it comes from, or null. -/
abbrev Result := Option (Nat × Origin)

/-- Whether the rest of the kernel is willing to let the heap grow for a request. -/
abbrev Grants := Heap.State → Nat → Bool

section

variable (m : Machine)

/-! ### kvalloc -/

/-- What `expand_heap` is answered: only the main heap grows, since the pages behind the low one
belong to the direct map and are mapped already. -/
def offer (s : State) (w : Manager) (size : Nat) (grants : Grants) : Heap.Env :=
  let heap := (s.heaps w).heap
  ⟨w = .main ∧ grants heap size = true ∧ Heap.Grant m heap (Heap.pagesNeeded m (Heap.roundUp size)), true, true⟩

/-- `jlos_memory_manager_malloc` -/
def heapMalloc (s : State) (w : Manager) (size : Nat) (grants : Grants) : M (Result × State) := do
  let (ptr, heap) ← onHeap ((s.heaps w).malloc m size (offer m s w size grants))
  pure (ptr.map (·, .heap w), s.setHeap w heap)

/-- The number of pages of a contiguous run, header included. -/
def contigPages (size : Nat) : Nat :=
  ((size + contigHdr) % 2 ^ m.arch.wordBits + pageSize - 1) % 2 ^ m.arch.wordBits / pageSize

def contigTag (frames : Pfa.Sys) (addr npages : Nat) : M Pfa.Sys :=
  (List.range npages).foldlM (fun (frames : Pfa.Sys) i =>
    onPfa (frames.setOwnerType ((physOf m.arch addr + i * pageSize) % 2 ^ 32) 0 .kvContig)) frames

/-- The contiguous run of `kvalloc`. -/
def contigAlloc (s : State) (npages : Nat) : M (Result × State) :=
  if npages ≤ contigMaxPages then do
    let (phys, frames) ← onPfa (s.frames.allocN npages)
    match phys with
    | none => pure (none, s.setFrames frames)
    | some phys => do
      let addr := physToVirt m.arch phys
      let frames ← contigTag m frames addr npages
      pure (some (addr + contigHdr, .contig (Pfa.pfaPhysToFrame frames.pfa phys) npages),
        { s.setFrames frames with hdr := update s.hdr addr (contigMagic, npages) })
  else pure (none, s)

def kvalloc (s : State) (size : Nat) (grants : Grants) : M (Result × State) :=
  match s.active with
  | none => pure (none, s)
  | some w =>
    if size = 0 then pure (none, s)
    else do
      let (run, s) ← (if size ≥ pageSize then contigAlloc m s (contigPages m size) else pure (none, s))
      match run with
      | some _ => pure (run, s)
      | none => heapMalloc m s w size grants

/-! ### kalloc -/

/-- `jlos_memory_slab_cache_create`; zero is null. -/
def cacheCreate (s : State) (size align : Nat) (grants : Grants) : M (Nat × State) :=
  match Slab.slabCacheCreate m.arch size align with
  | none => pure (0, s)
  | some g => do
    let (ptr, s) ← kvalloc m s (cacheSize m.arch) grants
    match ptr with
    | none => pure (0, s)
    | some (c, _) => pure (c, s.setCache c ⟨g, Slab.State.fresh⟩)

def kallocMaxSmall : Nat := pageSize - m.arch.slabHeader

def kallocCachesEnsure (s : State) (grants : Grants) : M State :=
  if s.kallocCaches 0 ≠ 0 then pure s
  else (List.range Heap.classCount).foldlM (fun s i => do
    let size := Heap.minAlloc * 2 ^ i % 2 ^ m.arch.wordBits
    let (c, s) ← (if size > kallocMaxSmall m then pure (0, s) else cacheCreate m s size m.arch.pointerSize grants)
    pure { s with kallocCaches := update s.kallocCaches i c }) s

def kallocSizeToBucket (n : Nat) : Nat :=
  if n ≤ Heap.minAlloc then 0
  else
    let n := (n + Heap.minAlloc - 1) % 2 ^ m.arch.wordBits / Heap.minAlloc
    let r := 32 - Heap.clz m ((n - 1) % 2 ^ 32)
    if r ≥ Heap.classCount then Heap.classCount - 1 else r.toNat

def cacheAt (s : State) (c : Nat) : M Cache :=
  match s.caches c with
  | some k => pure k
  | none => throw .wildCache

/-- The page `slab_page_alloc` gets, with its owner and type. -/
def slabFrame (s : State) (cpu c : Nat) : M (Option Nat × State) := do
  let (phys, frames) ← onPfa (s.frames.malloc cpu)
  match phys with
  | none => pure (none, s.setFrames frames)
  | some phys => do
    let page := physToVirt m.arch phys
    let frames ← onPfa (frames.setOwnerType (physOf m.arch page) c .slabObj)
    pure (some page, s.setFrames frames)

/-- `jlos_memory_slab_cache_alloc` -/
def slabAlloc (s : State) (cpu c : Nat) : M (Result × State) := do
  let k ← cacheAt s c
  let wants ← onSlab (Slab.wantsPage k.st cpu)
  let (frame, s) ← (if wants then slabFrame m s cpu c else pure (none, s))
  let (obj, st) ← onSlab (Slab.slabCacheAlloc m.arch k.geometry k.st cpu frame)
  pure (obj.map (·, .slab c), s.setCache c { k with st := st })

/-- The part of `kalloc` that uses the slab caches. -/
def kallocSmall (s : State) (cpu size : Nat) (grants : Grants) : M (Result × State) := do
  let s ← kallocCachesEnsure m s grants
  let c := s.kallocCaches (kallocSizeToBucket m size)
  if c = 0 then pure (none, s) else slabAlloc m s cpu c

def kalloc (s : State) (cpu size : Nat) (grants : Grants) : M (Result × State) :=
  if size = 0 then pure (none, s)
  else do
    let (obj, s) ← (if size ≤ kallocMaxSmall m then kallocSmall m s cpu size grants else pure (none, s))
    match obj with
    | some _ => pure (obj, s)
    | none => kvalloc m s size grants

/-! ### kvfree -/

/-- `slab_page_free`, apart from what it does to the cache. -/
def slabFrameFree (s : State) (cpu page : Nat) : M State := do
  let frames ← onPfa (s.frames.clearOwnerType (physOf m.arch page))
  let frames ← onPfa (frames.free cpu (physOf m.arch page))
  pure (s.setFrames frames)

/-- The pages `slab_reclaim_empty` gave back in a free: of the page of the object and the pages that
were empty before, those that are slab pages no longer. -/
def reclaimed (old new : Slab.State) (page : Nat) : List Nat :=
  (page :: old.lists .empty).filter fun p => new.pages p = none

/-- `jlos_memory_slab_cache_free` -/
def slabFree (s : State) (cpu c obj : Nat) : M State := do
  let k ← cacheAt s c
  let st ← onSlab (Slab.slabCacheFree m.arch k.st cpu obj)
  (reclaimed k.st st (Slab.pageOf m.arch obj)).foldlM (fun s page => slabFrameFree m s cpu page)
    (s.setCache c { k with st := st })

def contigUntag (frames : Pfa.Sys) (phys npages : Nat) : M Pfa.Sys :=
  (List.range npages).foldlM (fun (frames : Pfa.Sys) i =>
    onPfa (frames.clearOwnerType ((phys + i * pageSize) % 2 ^ 32))) frames

/-- The end of `kvfree` for a run of page frames. -/
def contigFree (s : State) (ptr : Nat) : M State :=
  let addr := ptr - contigHdr
  let phys := physOf m.arch addr
  let (magic, npages) := s.hdr addr
  if magic = contigMagic ∧ npages ≠ 0 ∧ npages ≤ contigMaxPages ∧ phys % pageSize = 0 then do
    let frames ← contigUntag s.frames phys npages
    let frames ← onPfa (frames.freeN phys npages)
    pure { s.setFrames frames with hdr := update s.hdr addr (0, npages) }
  else pure s

/-- `jlos_kvfree`, and `jlos_kfree` as well. -/
def kvfree (s : State) (cpu ptr : Nat) : M State :=
  if ptr = 0 then pure s
  else if DirectMapped m.arch ptr then do
    let phys := Slab.alignDown m.arch (virtToPhys m.arch ptr) pageSize % 2 ^ 32
    let type := Pfa.pageFrameGetType s.frames.pfa phys
    let owner := Pfa.pageFrameGetOwner s.frames.pfa phys
    if type = .slabObj ∧ owner ≠ 0 then do
      let k ← cacheAt s owner
      let pg ← onSlab (Slab.pageAt k.st (Slab.pageOf m.arch ptr))
      if pg.inuse ≠ 0 ∧ pg.inuse ≤ k.geometry.pg1Num then slabFree m s cpu owner ptr else pure s
    else if type = .kvContig then contigFree m s ptr
    else throw .badType
  else if ptr ≥ m.arch.heapVirtBase then
    match s.active with
    | none => pure s
    | some w => do
      let heap ← onHeap ((s.heaps w).exec m (.free ptr))
      pure (s.setHeap w heap)
  else pure s

end

end Jlos.Kmem
