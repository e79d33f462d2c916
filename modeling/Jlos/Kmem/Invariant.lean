import Jlos.Kmem.Model
import Jlos.Slab.Sections

/-!
# What the general allocators keep

Every slab page of a cache is a page frame with one reference that leads back to the cache, a
contiguous run is still described by its header, and a heap pointer is one the heap has handed out.
All page frames lie in the direct map, the heaps elsewhere or below them.
-/
namespace Jlos.Kmem

open Lib Function Arch

variable {m : Machine} {a : Arch} {live' : List (Nat × Origin)} {ptr : Nat} {w : Manager}

/-! ### Addresses -/

/-- Where the low heap ends, as a physical address. -/
def lowEnd : Nat := 0xA0000

/-- The page frames lie in the direct map, behind the low heap. -/
structure Memory (a : Arch) (pfa : Pfa.State) : Prop where
  direct : pfa.startAddr + pfa.totalFrames * pageSize ≤ a.directMapSize
  aligned : pageSize ∣ pfa.startAddr
  above : lowEnd ≤ pfa.startAddr

/-- The address of a page frame. -/
def virt (a : Arch) (pfa : Pfa.State) (f : Nat) : Nat := physToVirt a (Pfa.framePhys pfa f)

theorem not_directMapped_of_heap {addr : Nat} (lower : a.heapVirtBase ≤ addr) : ¬DirectMapped a addr := by
  cases a <;> simp only [DirectMapped, directMapSize, virtualBase, heapVirtBase, wordBits] at * <;>
    omega

theorem directMap_le_heap (a : Arch) : a.directMapBase + a.directMapSize ≤ a.heapVirtBase := by
  cases a <;> decide

theorem virtToPhys_direct {phys : Nat} (lt : phys < a.directMapSize) :
    virtToPhys a (phys + a.directMapBase) = phys := by
  unfold virtToPhys
  split <;> cases a <;>
    simp only [directMapBase, directMapSize, virtualBase, wordBits] at * <;> omega

section frames

variable {pfa : Pfa.State} {f : Nat}

section

variable (h : Memory a pfa)
include h

section

variable (lt : f < pfa.totalFrames)
include lt

theorem Memory.framePhys_lt : Pfa.framePhys pfa f + pageSize ≤ a.directMapSize := by
  have direct := h.direct
  simp only [Pfa.framePhys, Pfa.pageSize, pageSize] at *
  omega

theorem Memory.virt_eq : virt a pfa f = Pfa.framePhys pfa f + a.directMapBase := by
  have inside := h.framePhys_lt lt
  have top : a.directMapBase + a.directMapSize < 2 ^ a.wordBits := by cases a <;> decide
  rw [virt, physToVirt, Nat.mod_eq_of_lt (by omega)]

theorem Memory.frame : Slab.Frame a (virt a pfa f) := by
  have inside := h.framePhys_lt lt
  have base : pageSize ∣ a.directMapBase := by cases a <;> decide
  rw [h.virt_eq lt]
  refine ⟨Nat.le_add_left _ _, ?_, ?_⟩
  · simp only [pageSize, Slab.pageSize] at *
    omega
  · exact Nat.dvd_add (Nat.dvd_add h.aligned (Nat.dvd_mul_left _ _)) base

theorem Memory.virt_inj {f' : Nat} (lt' : f' < pfa.totalFrames) (eq : virt a pfa f = virt a pfa f') : f = f' := by
  rw [h.virt_eq lt, h.virt_eq lt'] at eq
  simp only [Pfa.framePhys, Pfa.pageSize] at eq
  omega

theorem Memory.virt_below :
    a.directMapBase + lowEnd ≤ virt a pfa f ∧ virt a pfa f + pageSize ≤ a.directMapBase + a.directMapSize := by
  have inside := h.framePhys_lt lt
  have above := h.above
  have start : pfa.startAddr ≤ Pfa.framePhys pfa f := Nat.le_add_right _ _
  rw [h.virt_eq lt]
  omega

theorem Memory.physOf_virt
    (narrow : pfa.startAddr + pfa.totalFrames * Pfa.pageSize ≤ 2 ^ 32) :
    physOf a (virt a pfa f) = Pfa.framePhys pfa f := by
  have inside := h.framePhys_lt lt
  have small : Pfa.framePhys pfa f < 2 ^ 32 := by
    simp only [Pfa.framePhys, Pfa.pageSize] at *
    omega
  rw [physOf, h.virt_eq lt, virtToPhys_direct (by simp only [pageSize] at inside; omega), Nat.mod_eq_of_lt small]

end

/-- The physical addresses of a run, as the loops over it compute them. -/
theorem Memory.run_phys {n i : Nat} (inside : f + n ≤ pfa.totalFrames) (lt : i < n)
    (narrow : pfa.startAddr + pfa.totalFrames * Pfa.pageSize ≤ 2 ^ 32) :
    (physOf a (virt a pfa f) + i * pageSize) % 2 ^ 32 = Pfa.framePhys pfa (f + i) := by
  rw [h.physOf_virt (by omega) narrow]
  simp only [Pfa.framePhys, Pfa.pageSize, pageSize] at *
  omega

end

end frames

/-! ### The invariant -/

/-- The page at an address is a page frame that belongs to the cache `c`. -/
def SlabFrame (a : Arch) (s : State) (c page : Nat) : Prop :=
  ∃ f, page = virt a s.frames.pfa f ∧ s.frames.refs f = 1 ∧
    (s.frames.pfa.pages f).type = .slabObj ∧ (s.frames.pfa.pages f).owner = c

/-- The frames of a run, and its header. -/
structure ContigRun (a : Arch) (s : State) (ptr f n : Nat) : Prop where
  ptr : ptr = virt a s.frames.pfa f + contigHdr
  pos : 0 < n
  most : n ≤ contigMaxPages
  hdr : s.hdr (virt a s.frames.pfa f) = (contigMagic, n)
  frames : ∀ i, InRange f n i → s.frames.refs i = 1 ∧ s.frames.run i = (f, n) ∧
    (s.frames.pfa.pages i).type = .kvContig

/-- The allocator a pointer came from has not got it back. -/
def Holds (a : Arch) (s : State) (out : Nat → Nat → List Nat) (ptr : Nat) : Origin → Prop
  | .slab c => s.caches c ≠ none ∧ ptr ∈ out c (Slab.pageOf a ptr)
  | .contig f n => ContigRun a s ptr f n
  | .heap w => ptr ∈ (s.heaps w).live.map Prod.fst ∧ s.caches ptr = none

/-- The cache at an address, on pages of its own. -/
structure CacheOk (a : Arch) (s : State) (c : Nat) (k : Cache) (place : Nat → Option Slab.ListId)
    (out : Nat → List Nat) : Prop where
  geometry : k.geometry.Ok a
  rep : Slab.Rep a k.geometry k.st place out
  pages : ∀ p, k.st.pages p ≠ none → SlabFrame a s c p

structure Inv (m : Machine) (s : State) (live : List (Nat × Origin)) (loc : Nat → Pfa.Loc)
    (place : Nat → Nat → Option Slab.ListId) (out : Nat → Nat → List Nat) : Prop where
  memory : Memory m.arch s.frames.pfa
  frames : Pfa.SysInv s.frames loc
  heaps : ∀ w, Heap.SysInv m (s.heaps w)
  low : (s.heaps .low).heap.heapStart = m.arch.directMapBase + 0x50000 ∧
    (s.heaps .low).heap.heapCurrent = m.arch.directMapBase + lowEnd
  main : (s.heaps .main).heap.heapStart = m.arch.heapVirtBase
  caches : ∀ c k, s.caches c = some k → CacheOk m.arch s c k (place c) (out c)
  stored : ∀ c, s.caches c ≠ none → ∃ w, c ∈ (s.heaps w).live.map Prod.fst
  buckets : ∀ b, s.kallocCaches b ≠ 0 → s.caches (s.kallocCaches b) ≠ none
  live : ∀ ptr origin, (ptr, origin) ∈ live → Holds m.arch s out ptr origin

variable {s : State} {live : List (Nat × Origin)} {loc : Nat → Pfa.Loc}
  {place : Nat → Nat → Option Slab.ListId} {out : Nat → Nat → List Nat} {f n : Nat}

theorem ContigRun.first (run : ContigRun a s ptr f n) : InRange f n f :=
  ⟨le_refl f, Nat.lt_add_of_pos_right run.pos⟩

theorem ContigRun.held {f n i : Nat} (run : ContigRun a s ptr f n) (ini : InRange f n i) : 0 < s.frames.refs i := by
  rw [(run.frames i ini).1]
  exact one_pos

section

variable (h : Inv m s live loc place out)
include h

theorem Inv.held_lt {f : Nat} (held : 0 < s.frames.refs f) : f < s.frames.pfa.totalFrames := (h.frames.held f held).1

theorem Inv.physOf_virt {f : Nat} (lt : f < s.frames.pfa.totalFrames) :
    physOf m.arch (virt m.arch s.frames.pfa f) = Pfa.framePhys s.frames.pfa f :=
  h.memory.physOf_virt lt h.frames.represents.in_phys

theorem Inv.run (member : (ptr, .contig f n) ∈ live) : ContigRun m.arch s ptr f n := h.live ptr _ member

/-- The frame of a slab page leads back to its cache. -/
theorem Inv.page_frame {c f : Nat} {k : Cache} (cache : s.caches c = some k) (lt : f < s.frames.pfa.totalFrames)
    (there : k.st.pages (virt m.arch s.frames.pfa f) ≠ none) :
    s.frames.refs f = 1 ∧ (s.frames.pfa.pages f).type = .slabObj ∧ (s.frames.pfa.pages f).owner = c := by
  obtain ⟨f', eq, refs, tagged⟩ := (h.caches c k cache).pages _ there
  rw [h.memory.virt_inj lt (h.held_lt (by omega)) eq]
  exact ⟨refs, tagged⟩

end

/-! ### Changes -/

section changes

variable {frames : Pfa.Sys} {loc' : Nat → Pfa.Loc} {R : Nat → Prop}

theorem virt_leaves (leaves : s.frames.Leaves frames R) (f : Nat) : virt a frames.pfa f = virt a s.frames.pfa f := by
  rw [virt, leaves.framePhys, virt]

theorem SlabFrame.reframe {c page : Nat} (h : SlabFrame a s c page) (leaves : s.frames.Leaves frames R)
    (away : ∀ f, page = virt a s.frames.pfa f → 0 < s.frames.refs f → ¬R f) :
    SlabFrame a (s.setFrames frames) c page := by
  obtain ⟨f, rfl, refs, type, owner⟩ := h
  obtain ⟨refs', -, page⟩ := leaves.same f (away f rfl (by omega)) (by omega)
  refine ⟨f, (virt_leaves leaves f).symm, refs'.trans refs, ?_⟩
  simp only [State.setFrames, page]
  exact ⟨type, owner⟩

theorem ContigRun.reframe (h : ContigRun a s ptr f n) (leaves : s.frames.Leaves frames R)
    (away : ∀ i, InRange f n i → ¬R i) : ContigRun a (s.setFrames frames) ptr f n := by
  have same := virt_leaves (a := a) leaves f
  refine ⟨?_, h.pos, h.most, ?_, fun i ini => ?_⟩
  · simp only [State.setFrames, same]
    exact h.ptr
  · simp only [State.setFrames, same]
    exact h.hdr
  · obtain ⟨refs, run, type⟩ := h.frames i ini
    obtain ⟨refs', run', page⟩ := leaves.same i (away i ini) (by omega)
    exact ⟨refs'.trans refs, run'.trans run, by simp only [State.setFrames, page]; exact type⟩

theorem Memory.leaves (h : Memory a s.frames.pfa) (leaves : s.frames.Leaves frames R) : Memory a frames.pfa := by
  refine ⟨?_, ?_, ?_⟩
  · rw [leaves.start, leaves.total]
    exact h.direct
  · rw [leaves.start]
    exact h.aligned
  · rw [leaves.start]
    exact h.above

section

variable (h : Inv m s live loc place out)
include h

/-- The page frames change, but for those of slab pages and of runs that stay live. -/
theorem Inv.reframe (frames' : Pfa.SysInv frames loc') (leaves : s.frames.Leaves frames R) (sub : ∀ x ∈ live', x ∈ live)
    (slabs : ∀ c k f, s.caches c = some k → k.st.pages (virt m.arch s.frames.pfa f) ≠ none →
      0 < s.frames.refs f → ¬R f) (runs : ∀ ptr f n, (ptr, .contig f n) ∈ live' → ∀ i, InRange f n i → ¬R i) :
    Inv m (s.setFrames frames) live' loc' place out := by
  refine { h with
    memory := h.memory.leaves leaves
    frames := frames'
    caches := fun c k cache => ?_
    live := fun ptr origin member => ?_ }
  · obtain ⟨geometry, rep, pages⟩ := h.caches c k cache
    refine ⟨geometry, rep, fun p there => (pages p there).reframe leaves fun f eq held => ?_⟩
    exact slabs c k f cache (by rwa [← eq]) held
  · have holds := h.live ptr origin (sub _ member)
    cases origin with
    | slab c => exact holds
    | heap w => exact holds
    | contig f n =>
      exact (h.run (sub _ member)).reframe leaves (runs ptr f n member)

theorem Inv.recache {c : Nat} {k : Cache}
    {place' : Nat → Option Slab.ListId} {out' : Nat → List Nat} (home : ∃ w, c ∈ (s.heaps w).live.map Prod.fst)
    (ok : CacheOk m.arch s c k place' out') (slabs : ∀ ptr c', (ptr, .slab c') ∈ live' →
      if c' = c then ptr ∈ out' (Slab.pageOf m.arch ptr) else (ptr, .slab c') ∈ live)
    (others : ∀ ptr origin, (ptr, origin) ∈ live' → (∀ c', origin ≠ .slab c') → (ptr, origin) ∈ live)
    (kept : s.caches c = none → ∀ w, (c, .heap w) ∉ live') : Inv m (s.setCache c k) live' loc (update place c place')
      (update out c out') := by
  have found : ∀ {c'}, c' ≠ c → (s.setCache c k).caches c' = s.caches c' := fun ne => update_of_ne ne ..
  have self : (s.setCache c k).caches c = some k := update_self ..
  refine { h with
    caches := fun c' k' cache => ?_
    stored := fun c' there => ?_
    buckets := fun b some => ?_
    live := fun ptr origin member => ?_ }
  · obtain rfl | same := eq_or_ne c' c
    · cases self.symm.trans cache
      rw [update_self, update_self]
      exact { ok with }
    · rw [update_of_ne same, update_of_ne same]
      exact { h.caches c' k' ((found same).symm.trans cache) with }
  · obtain rfl | same := eq_or_ne c' c
    · exact home
    · exact h.stored c' (by rwa [found same] at there)
  · show (s.setCache c k).caches (s.kallocCaches b) ≠ none
    by_cases same : s.kallocCaches b = c
    · rw [same, self]
      exact nofun
    · rw [found same]
      exact h.buckets b some
  · cases origin with
    | slab c' =>
      -- Objects of the other caches are as before.
      have which := slabs ptr c' member
      obtain rfl | same := eq_or_ne c' c
      · rw [if_pos rfl] at which
        exact ⟨by rw [self]; exact nofun, by rwa [update_self]⟩
      · rw [if_neg same] at which
        obtain ⟨there, inOut⟩ := h.live ptr _ which
        exact ⟨by rwa [found same], by rwa [update_of_ne same]⟩
    | contig f n =>
      exact { h.run (others ptr _ member nofun) with }
    | heap w =>
      obtain ⟨held, apart⟩ := h.live ptr _ (others ptr _ member nofun)
      exact ⟨held, (found fun same => kept (same ▸ apart) w (same ▸ member)).trans apart⟩

theorem Inv.reheap {heap : Heap.Sys}
    (inv : Heap.SysInv m heap) (start : heap.heap.heapStart = (s.heaps w).heap.heapStart)
    (current : w = .low → heap.heap.heapCurrent = (s.heaps w).heap.heapCurrent)
    (stored : ∀ c, s.caches c ≠ none → c ∈ (s.heaps w).live.map Prod.fst → c ∈ heap.live.map Prod.fst)
    (lives : ∀ ptr origin, (ptr, origin) ∈ live' →
      if origin = .heap w then ptr ∈ heap.live.map Prod.fst ∧ s.caches ptr = none else (ptr, origin) ∈ live) :
    Inv m (s.setHeap w heap) live' loc place out := by
  have self : (s.setHeap w heap).heaps w = heap := update_self ..
  have away : ∀ {v}, v ≠ w → (s.setHeap w heap).heaps v = s.heaps v := fun ne => update_of_ne ne ..
  refine ⟨h.memory, h.frames, fun v => ?_, ?_, ?_, fun c k cache => ?_, fun c there => ?_, h.buckets,
    fun ptr origin member => ?_⟩
  · by_cases same : v = w
    · rw [same, self]
      exact inv
    · rw [away same]
      exact h.heaps v
  · obtain rfl | same := eq_or_ne Manager.low w
    · rw [self, start, current rfl]
      exact h.low
    · rw [away same]
      exact h.low
  · obtain rfl | same := eq_or_ne Manager.main w
    · rw [self, start]
      exact h.main
    · rw [away same]
      exact h.main
  · exact { h.caches c k cache with }
  · obtain ⟨v, member⟩ := h.stored c there
    refine ⟨v, ?_⟩
    obtain rfl | same := eq_or_ne v w
    · rw [self]
      exact stored c there member
    · rw [away same]
      exact member
  -- Pointers of the other heap and other origins are as before.
  · have which := lives ptr origin member
    cases origin with
    | slab c =>
      exact h.live ptr _ which
    | contig f n =>
      exact { h.run which with }
    | heap v =>
      obtain rfl | same := eq_or_ne v w
      · rw [if_pos rfl] at which
        exact ⟨by rw [self]; exact which.1, which.2⟩
      · rw [if_neg (by simpa using same)] at which
        obtain ⟨held, apart⟩ := h.live ptr _ which
        exact ⟨by rwa [away same], apart⟩

theorem Inv.rewrite {active : Option Manager} {hdr : Nat → Nat × Nat}
    (runs : ∀ ptr f n, (ptr, .contig f n) ∈ live → ContigRun m.arch s ptr f n →
      ContigRun m.arch { s with active, hdr } ptr f n) : Inv m { s with active, hdr } live loc place out := by
  refine { h with caches := fun c k cache => ?_, live := fun ptr origin member => ?_ }
  · exact { h.caches c k cache with }
  · have holds := h.live ptr origin member
    cases origin with
    | slab c => exact holds
    | heap w => exact holds
    | contig f n => exact runs ptr f n member holds

/-- A header is written where no run that is live starts. -/
theorem Inv.rehdr {addr : Nat} (hdr : Nat × Nat)
    (apart : ∀ ptr f n, (ptr, .contig f n) ∈ live → virt m.arch s.frames.pfa f ≠ addr) :
    Inv m { s with hdr := update s.hdr addr hdr } live loc place out := by
  refine h.rewrite fun ptr f n member run => ⟨run.ptr, run.pos, run.most, ?_, run.frames⟩
  simp only [update_of_ne (apart ptr f n member)]
  exact run.hdr

theorem Inv.cons {origin : Origin}
    (holds : Holds m.arch s out ptr origin) : Inv m s ((ptr, origin) :: live) loc place out := by
  refine { h with live := fun ptr' origin' member => ?_ }
  rcases List.mem_cons.mp member with new | earlier
  · cases new
    exact holds
  · exact h.live ptr' origin' earlier

end

end changes

/-! ### Heap pointers -/

theorem Inv.heap_bounds (h : Inv m s live loc place out) (held : ptr ∈ (s.heaps w).live.map Prod.fst) : match w with
    | .low => m.arch.directMapBase ≤ ptr ∧ ptr < m.arch.directMapBase + lowEnd
    | .main => m.arch.heapVirtBase < ptr := by
  have bounds : (s.heaps w).heap.heapStart < ptr ∧ ptr < (s.heaps w).heap.heapCurrent := (h.heaps w).bounds held
  cases w with
  | low =>
    have low : (s.heaps .low).heap.heapStart = _ ∧ (s.heaps .low).heap.heapCurrent = _ := h.low
    rw [low.1, low.2] at bounds
    exact ⟨by omega, bounds.2⟩
  | main =>
    have main : (s.heaps .main).heap.heapStart = _ := h.main
    rw [main] at bounds
    exact bounds.1

theorem low_lt_heap (a : Arch) : a.directMapBase + lowEnd < a.heapVirtBase := by
  cases a <;> decide

theorem Inv.heap_apart (h : Inv m s live loc place out) {v : Manager}
    (inV : ptr ∈ (s.heaps v).live.map Prod.fst) (inW : ptr ∈ (s.heaps w).live.map Prod.fst) : v = w := by
  have boundsV := h.heap_bounds inV
  have boundsW := h.heap_bounds inW
  have apart := low_lt_heap m.arch
  cases v <;> cases w <;> simp only [reduceCtorEq] at * <;> omega

end Jlos.Kmem
