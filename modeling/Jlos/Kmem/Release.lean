import Jlos.Kmem.Calls

/-!
# Giving pointers back

What `jlos_kvfree` does with a pointer that is live, by the allocator it came from; `Reaches` says
when the pointer gets there.
-/
namespace Jlos.Kmem

open Lib Function List Option Slab

variable {m : Machine} {s : State} {live : List (Nat × Origin)} {loc : Nat → Pfa.Loc}
  {place : Nat → Nat → Option Slab.ListId} {out : Nat → Nat → List Nat} {ptr c f : Nat} {origin : Origin} {k : Cache}

def Released (a : Arch) (s : State) (ptr : Nat) : Origin → Prop
  | .slab c => ∀ k, s.caches c = some k → ∀ pg, k.st.pages (Slab.pageOf a ptr) = some pg → ptr ∈ pg.freelist
  | .contig f n => ∀ i, InRange f n i → (s.frames.pfa.pages i).occupied = false
  | .heap w => ∀ c ∈ (s.heaps w).heap.chunks, c.addr + a.chunkHeader = ptr → c.allocated = false

/-- `kvfree` hands the pointer to the allocator it came from. -/
def Reaches (a : Arch) (s : State) (ptr : Nat) : Origin → Prop
  | .slab _ | .contig _ _ => DirectMapped a ptr
  | .heap w => ¬DirectMapped a ptr ∧ a.heapVirtBase ≤ ptr ∧ s.active = some w

instance (a : Arch) (s : State) (ptr : Nat) (origin : Origin) : Decidable (Reaches a s ptr origin) := by
  cases origin <;> unfold Reaches <;> infer_instance

def without (live : List (Nat × Origin)) (ptr : Nat) : List (Nat × Origin) := live.filter fun x => x.1 ≠ ptr

theorem mem_without {x : Nat × Origin} : x ∈ without live ptr ↔ x ∈ live ∧ x.1 ≠ ptr := by
  simp [without]

theorem Inv.drop (h : Inv m s live loc place out) (ptr : Nat) : Inv m s (without live ptr) loc place out :=
  { h with live := fun p origin member => h.live p origin (mem_without.mp member).1 }

/-! ### Where pointers lie -/

/-- What `kvfree` computes from a pointer into a page frame. -/
theorem Memory.page_phys {a : Arch} {pfa : Pfa.State} (h : Memory a pfa) (lt : f < pfa.totalFrames)
    (narrow : pfa.startAddr + pfa.totalFrames * Pfa.pageSize ≤ 2 ^ 32) (lower : virt a pfa f ≤ ptr)
    (upper : ptr < virt a pfa f + pageSize) :
    alignDown a (virtToPhys a ptr) pageSize % 2 ^ 32 = Pfa.framePhys pfa f := by
  have inside := h.framePhys_lt lt
  have wide : a.directMapSize ≤ 2 ^ a.wordBits := by cases a <;> decide
  obtain ⟨q, aligned⟩ := h.aligned
  rw [h.virt_eq lt] at lower upper
  obtain ⟨d, rfl⟩ := Nat.exists_eq_add_of_le lower
  rw [show Pfa.framePhys pfa f + a.directMapBase + d = Pfa.framePhys pfa f + d + a.directMapBase by omega,
    virtToPhys_direct (by omega), show pageSize = Slab.pageSize from rfl, Slab.alignDown_page (by omega)]
  simp only [Pfa.framePhys, Pfa.pageSize, pageSize, Slab.pageSize] at *
  omega

theorem ContigRun.bounds {a : Arch} {n : Nat} (run : ContigRun a s ptr f n) :
    virt a s.frames.pfa f ≤ ptr ∧ ptr < virt a s.frames.pfa f + pageSize := by
  rw [run.ptr]
  exact ⟨Nat.le_add_right _ _, Nat.add_lt_add_left (by decide) _⟩

theorem kvfree_between (cpu : Nat) (nonnull : ptr ≠ 0) (notDirect : ¬DirectMapped m.arch ptr)
    (below : ptr < m.arch.heapVirtBase) : kvfree m s cpu ptr = .ok s := by
  simp only [kvfree, if_neg nonnull, if_neg notDirect, if_neg (Nat.not_le.mpr below)]
  rfl

/-- The pages of a cache that no cache uses any more go back to the page frame allocator. -/
theorem Inv.slabFramesFree (cpu : Nat) : ∀ (l : List Nat) {s : State} {loc : Nat → Pfa.Loc},
    Inv m s live loc place out → l.Nodup → (∀ p ∈ l, SlabFrame m.arch s c p) →
    (∀ p ∈ l, ∀ c' k, s.caches c' = some k → k.st.pages p = none) →
    ∃ s' loc', l.foldlM (fun s page => slabFrameFree m s cpu page) s = .ok s' ∧ s'.caches = s.caches ∧
      Inv m s' live loc' place out := by
  intro l
  induction l with
  | nil => exact fun {s loc} h _ _ _ => ⟨s, loc, rfl, rfl, h⟩
  | cons p l ih =>
    intro s loc h nodup mine unused
    rw [nodup_cons] at nodup
    obtain ⟨f, rfl, refs, type, -⟩ := mine p mem_cons_self
    have held : 0 < s.frames.refs f := by omega
    have phys := h.physOf_virt (h.held_lt held)
    obtain ⟨frames₁, cleared, inv₁, leaves₁, refs₁, -, -⟩ := h.frames.setOwnerType held 0 .free
    obtain ⟨frames₂, loc₂, freed, inv₂, leaves₂⟩ := inv₁.free cpu (f := f) (by rw [refs₁]; exact held)
    rw [leaves₁.framePhys] at freed
    have leaves := leaves₁.trans leaves₂
    have first : slabFrameFree m s cpu (virt m.arch s.frames.pfa f) = .ok (s.setFrames frames₂) := by
      simp [slabFrameFree, phys, Pfa.Sys.clearOwnerType, cleared, freed, onPfa_ok, ok_bind]
    have h₂ : Inv m (s.setFrames frames₂) live loc₂ place out := by
      refine h.reframe inv₂ leaves (fun _ => id) (fun c' k f' cache there _ same => ?_)
        fun ptr f' n member i ini same => ?_
      · rw [same] at there
        exact there (unused _ mem_cons_self c' k cache)
      · have contig := ((h.run member).frames i ini).2.2
        rw [same, type] at contig
        cases contig
    -- The pages of the list are distinct frames.
    have mine' : ∀ p' ∈ l, SlabFrame m.arch (s.setFrames frames₂) c p' := by
      intro p' later
      refine (mine p' (mem_cons_of_mem _ later)).reframe leaves fun f' eq _ same => ?_
      rw [eq, same] at later
      exact nodup.1 later
    obtain ⟨s', loc', rest, caches, inv⟩ :=
      ih h₂ nodup.2 mine' fun p' later => unused p' (mem_cons_of_mem _ later)
    refine ⟨s', loc', ?_, caches, inv⟩
    rw [foldlM_cons, first]
    exact rest

/-- A pointer came back: the invariant holds without it, and its allocator has it. -/
def Returns (m : Machine) (live : List (Nat × Origin)) (ptr : Nat) (origin : Origin) (call : M State) : Prop :=
  ∃ s' loc' place' out', call = .ok s' ∧ Released m.arch s' ptr origin ∧ Inv m s' (without live ptr) loc' place' out'

section

variable (h : Inv m s live loc place out)
include h

theorem Inv.slab_frame (cache : s.caches c = some k) (held : ptr ∈ out c (pageOf m.arch ptr)) :
    ∃ f pg, s.frames.refs f = 1 ∧ (s.frames.pfa.pages f).type = .slabObj ∧ (s.frames.pfa.pages f).owner = c ∧
      virt m.arch s.frames.pfa f ≤ ptr ∧ ptr < virt m.arch s.frames.pfa f + pageSize ∧
      k.st.pages (pageOf m.arch ptr) = some pg := by
  obtain ⟨geometry, rep, pages⟩ := h.caches c k cache
  obtain ⟨pg, page⟩ := rep.page held
  obtain ⟨-, lower, upper⟩ := (rep.ok _ pg page).inside ptr (mem_append_right _ held)
  obtain ⟨f, eq, refs, type, owner⟩ := pages _ (by rw [page]; exact nofun)
  rw [eq] at lower upper
  exact ⟨f, pg, refs, type, owner, lower, upper, page⟩

theorem Inv.heap_pos {w : Manager} (held : ptr ∈ (s.heaps w).live.map Prod.fst) : ptr ≠ 0 :=
  Nat.ne_zero_of_lt ((h.heaps w).bounds held).1

theorem Inv.frame_ptr (held : 0 < s.frames.refs f)
    (lower : virt m.arch s.frames.pfa f ≤ ptr) (upper : ptr < virt m.arch s.frames.pfa f + pageSize) :
    ptr ≠ 0 ∧ ptr < m.arch.heapVirtBase := by
  obtain ⟨above, below⟩ := h.memory.virt_below (h.held_lt held)
  have base : 0 < m.arch.directMapBase := by cases m.arch <;> decide
  have top := directMap_le_heap m.arch
  omega

/-! ### Slab objects -/

/-- A page the free gave back belongs to no cache. -/
theorem Inv.reclaimed_unused {st : Slab.State} {p : Nat}
    (mine : SlabFrame m.arch s c p) (gone : st.pages p = none) {c' : Nat} {k' : Cache}
    (cache : (s.setCache c ⟨k.geometry, st⟩).caches c' = some k') : k'.st.pages p = none := by
  obtain rfl | same := eq_or_ne c' c
  · have self : (s.setCache c' ⟨k.geometry, st⟩).caches c' = some ⟨k.geometry, st⟩ := update_self ..
    cases self.symm.trans cache
    exact gone
  · by_contra there
    have found : (s.setCache c ⟨k.geometry, st⟩).caches c' = s.caches c' := update_of_ne same ..
    obtain ⟨f, rfl, refs, -, owner⟩ := mine
    exact same ((h.page_frame (found.symm.trans cache) (h.held_lt (by omega)) there).2.2.symm.trans owner)

theorem Inv.slabFree (cpu : Nat) (cache : s.caches c = some k)
    (held : ptr ∈ out c (pageOf m.arch ptr)) : Returns m live ptr (.slab c) (slabFree m s cpu c ptr) := by
  obtain ⟨geometry, rep, pages⟩ := h.caches c k cache
  obtain ⟨pg, page⟩ := rep.page held
  obtain ⟨st', place', freed, rep', kept, back⟩ := rep.slabCacheFree cpu rfl held
  set p := pageOf m.arch ptr with hp
  have before : ∀ q, st'.pages q ≠ none → k.st.pages q ≠ none := by
    intro q there
    by_cases here : q = p
    · rw [here, page]
      exact nofun
    · by_cases empty : place c q = some .empty
      · exact rep.listed q _ empty
      · rwa [← (kept q here empty).2]
  have h₁ : Inv m (s.setCache c ⟨k.geometry, st'⟩) (without live ptr) loc (update place c place')
      (update out c (update (out c) p ((out c p).erase ptr))) := by
    have stored : s.caches c ≠ none := by rw [cache]; exact nofun
    refine h.recache (h.stored c stored) ⟨geometry, rep', fun q there => pages q (before q there)⟩
      (fun ptr' c' member => ?_) (fun ptr' origin member _ => (mem_without.mp member).1)
      fun none => absurd none stored
    obtain ⟨earlier, ne⟩ := mem_without.mp member
    split
    next eq =>
      have holds : s.caches c' ≠ none ∧ ptr' ∈ out c' _ := h.live ptr' _ earlier
      rw [rep.mem_out_erase rfl]
      exact ⟨ne, eq ▸ holds.2⟩
    · exact earlier
  -- the page itself comes first, then the pages that were empty before
  have listed : ∀ q ∈ reclaimed k.st st' p, SlabFrame m.arch s c q ∧ st'.pages q = none := by
    intro q member
    simp only [reclaimed, mem_filter, mem_cons, decide_eq_true_eq] at member
    refine ⟨pages q ?_, member.2⟩
    rcases member.1 with rfl | empty
    · rw [page]
      exact nofun
    · exact rep.listed q _ ((rep.placed.mem _ q).mp empty)
  have nodup : (reclaimed k.st st' p).Nodup := by
    refine List.Nodup.filter _ (nodup_cons.mpr ⟨fun empty => ?_, rep.placed.nodup _⟩)
    have state := (rep.ok p pg page).state
    rw [(rep.placed.mem _ p).mp empty] at state
    exact ne_nil_of_mem held state
  obtain ⟨s', loc', eq, caches, inv⟩ := Inv.slabFramesFree cpu (c := c) _ h₁ nodup
    (fun q member => (listed q member).1) fun q member c' k' found =>
      h.reclaimed_unused (listed q member).1 (listed q member).2 found
  refine ⟨s', loc', _, _, ?_, fun k' found pg' there => ?_, inv⟩
  · simp only [Kmem.slabFree, cacheAt, cache, freed, onSlab_ok, ok_bind, pure, Except.pure, ← hp]
    exact eq
  · have self : (s.setCache c ⟨k.geometry, st'⟩).caches c = some ⟨k.geometry, st'⟩ := update_self ..
    rw [caches, self] at found
    cases found
    exact back pg' there

theorem Inv.kvfree_slab (cpu : Nat) (member : (ptr, .slab c) ∈ live)
    (direct : DirectMapped m.arch ptr) : Returns m live ptr (.slab c) (kvfree m s cpu ptr) := by
  obtain ⟨there, held⟩ : s.caches c ≠ none ∧ ptr ∈ out c (pageOf m.arch ptr) := h.live ptr _ member
  obtain ⟨k, cache⟩ := ne_none_iff_exists'.mp there
  obtain ⟨f, pg, refs, type, owner, lower, upper, page⟩ := h.slab_frame cache held
  have lt := h.held_lt (f := f) (by omega)
  have nonnull := (h.frame_ptr (f := f) (by omega) lower upper).1
  have phys := h.memory.page_phys lt h.frames.represents.in_phys lower upper
  have ok := (h.caches c k cache).rep.ok _ pg page
  have busy : pg.inuse ≠ 0 ∧ pg.inuse ≤ k.geometry.pg1Num := by
    have some := length_pos_of_mem held
    have inuse := ok.inuse
    have count := ok.count
    have most := ok.most
    omega
  obtain ⟨w, stored⟩ := h.stored c there
  have tagged : True ∧ c ≠ 0 := ⟨trivial, h.heap_pos stored⟩
  simp only [Returns, kvfree, if_neg nonnull, if_pos direct, phys, h.frames.getType lt,
    h.frames.getOwner lt, type, owner,
    if_pos tagged, cacheAt, cache, pageAt_eq page, onSlab_ok, if_pos busy, ok_bind, pure, Except.pure]
  exact h.slabFree cpu cache held

/-! ### Contiguous runs -/

theorem Inv.contigFree {n : Nat} (run : ContigRun m.arch s ptr f n) :
    Returns m live ptr (.contig f n) (contigFree m s ptr) := by
  have last : InRange f n (f + n - 1) := by
    have pos := run.pos
    exact ⟨by omega, by omega⟩
  have inside : f + n ≤ s.frames.pfa.totalFrames := by
    have lt := h.held_lt (run.held last)
    omega
  have lt := h.held_lt (run.held run.first)
  have phys := h.physOf_virt lt
  have aligned : Pfa.framePhys s.frames.pfa f % pageSize = 0 :=
    Nat.mod_eq_zero_of_dvd (Nat.dvd_add h.memory.aligned (Nat.dvd_mul_left _ _))
  have wellFormed : True ∧ n ≠ 0 ∧ n ≤ contigMaxPages ∧ Pfa.framePhys s.frames.pfa f % pageSize = 0 :=
    ⟨trivial, run.pos.ne', run.most, aligned⟩
  have addrs : ∀ i, i < n → (Pfa.framePhys s.frames.pfa f + i * pageSize) % 2 ^ 32 =
      Pfa.framePhys s.frames.pfa (f + i) := by
    intro i below
    rw [← phys]
    exact h.memory.run_phys inside below h.frames.represents.in_phys
  obtain ⟨frames₁, untagged, inv₁, leaves₁, refs₁, run₁, -⟩ := tagRun (f := f) h.frames
    (fun i => (Pfa.framePhys s.frames.pfa f + i * pageSize) % 2 ^ 32) 0 .free n (fun i => run.held) addrs
  obtain ⟨frames₂, loc₂, freed, inv₂, leaves₂, gone⟩ := inv₁.freeN run.pos fun i ini => by
    rw [refs₁, run₁]
    exact ⟨(run.frames i ini).1, (run.frames i ini).2.1⟩
  rw [leaves₁.framePhys] at freed
  have leaves := leaves₁.trans leaves₂
  -- a frame is in one run only
  have other : ∀ ptr' f' n', (ptr', .contig f' n') ∈ without live ptr → ∀ i, InRange f' n' i → ¬InRange f n i := by
    intro ptr' f' n' member i ini' ini
    obtain ⟨earlier, ne⟩ := mem_without.mp member
    have run' := h.run earlier
    have same := (run'.frames i ini').2.1.symm.trans (run.frames i ini).2.1
    cases same
    exact ne (run'.ptr.trans run.ptr.symm)
  have h₂ : Inv m (s.setFrames frames₂) (without live ptr) loc₂ place out := by
    refine h.reframe inv₂ leaves (fun x member => (mem_without.mp member).1) (fun c k i cache there _ ini => ?_) other
    have contig := (run.frames i ini).2.2
    rw [(h.page_frame cache (h.held_lt (run.held ini)) there).2.1] at contig
    cases contig
  have apart : ∀ ptr' f' n', (ptr', .contig f' n') ∈ without live ptr →
      virt m.arch frames₂.pfa f' ≠ virt m.arch s.frames.pfa f := by
    intro ptr' f' n' member same
    have run' := h.run (mem_without.mp member).1
    have eq := h.memory.virt_inj (h.held_lt (run'.held run'.first)) lt ((virt_leaves leaves f').symm.trans same)
    exact other ptr' f' n' member f' run'.first (eq ▸ run.first)
  refine ⟨_, loc₂, place, out, ?_, ?_, h₂.rehdr (0, n) apart⟩
  · simp only [Kmem.contigFree, run.ptr, Nat.add_sub_cancel, phys, run.hdr, if_pos wellFormed, contigUntag,
      Pfa.Sys.clearOwnerType, untagged, freed, onPfa_ok, ok_bind]
    rfl
  · exact gone

theorem Inv.kvfree_contig (cpu : Nat) {n : Nat} (member : (ptr, .contig f n) ∈ live)
    (direct : DirectMapped m.arch ptr) : Returns m live ptr (.contig f n) (kvfree m s cpu ptr) := by
  have run := h.run member
  obtain ⟨refs, -, type⟩ := run.frames f run.first
  have lt := h.held_lt (f := f) (by omega)
  obtain ⟨lower, upper⟩ := run.bounds
  have nonnull := (h.frame_ptr (f := f) (by omega) lower upper).1
  have phys := h.memory.page_phys lt h.frames.represents.in_phys lower upper
  have notSlab : ∀ owner : Nat, ¬(Pfa.FrameType.kvContig = .slabObj ∧ owner ≠ 0) := fun _ => nofun
  simp only [Returns, kvfree, if_neg nonnull, if_pos direct, phys, h.frames.getType lt, type, if_neg (notSlab _),
    if_true]
  exact h.contigFree run

/-! ### Heap chunks -/

theorem Inv.kvfree_heap (cpu : Nat) {w : Manager} (member : (ptr, .heap w) ∈ live)
    (reaches : Reaches m.arch s ptr (.heap w)) : Returns m live ptr (.heap w) (kvfree m s cpu ptr) := by
  obtain ⟨notDirect, above, active⟩ := reaches
  obtain ⟨held, unused⟩ : ptr ∈ (s.heaps w).live.map Prod.fst ∧ s.caches ptr = none := h.live ptr _ member
  obtain ⟨heap, freed, inv, start⟩ := (h.heaps w).free held
  have nonnull := h.heap_pos held
  have remains : ∀ p, p ≠ ptr → p ∈ (s.heaps w).live.map Prod.fst →
      p ∈ ((s.heaps w).live.filter fun x => x.1 ≠ ptr).map Prod.fst := by
    intro p ne member
    obtain ⟨x, inLive, rfl⟩ := mem_map.mp member
    exact mem_map_of_mem (mem_filter.mpr ⟨inLive, by simpa using ne⟩)
  have main : w = .main := by
    cases w with
    | main => rfl
    | low =>
      have bounds := h.heap_bounds held
      have apart := low_lt_heap m.arch
      omega
  refine ⟨_, loc, place, out, ?_, fun c member behind => ?_, h.reheap (w := w) inv start (by simp [main])
    (fun c there => remains c fun eq => there (eq ▸ unused)) fun p origin member => ?_⟩
  · simp [kvfree, if_neg nonnull, if_neg notDirect, if_pos above, active, freed, onHeap_ok]
  · by_contra allocated
    have chunk : c ∈ Heap.allocs heap.chunks := mem_filter.mpr
      ⟨by simpa [State.setHeap] using member, by simpa using allocated⟩
    have back := inv.live.symm.subset (mem_map_of_mem (f := fun c => c.addr + m.arch.chunkHeader) chunk)
    obtain ⟨x, inLive, eq⟩ := mem_map.mp back
    have ne := (mem_filter.mp inLive).2
    simp only [eq, behind, ne_eq, not_true_eq_false, decide_false, Bool.false_eq_true] at ne
  · obtain ⟨earlier, ne⟩ := mem_without.mp member
    split
    next eq =>
      subst eq
      obtain ⟨held', unused'⟩ : p ∈ (s.heaps w).live.map Prod.fst ∧ s.caches p = none := h.live p _ earlier
      exact ⟨remains p ne held', unused'⟩
    · exact earlier

/-! ### All pointers -/

theorem Inv.kvfree_returns (cpu : Nat) (member : (ptr, origin) ∈ live) (reaches : Reaches m.arch s ptr origin) :
    Returns m live ptr origin (kvfree m s cpu ptr) := by
  cases origin with
  | slab c => exact h.kvfree_slab cpu member reaches
  | contig f n => exact h.kvfree_contig cpu member reaches
  | heap w => exact h.kvfree_heap cpu member reaches

theorem Inv.not_released (member : (ptr, origin) ∈ live) : ¬Released m.arch s ptr origin := by
  intro released
  have holds := h.live ptr origin member
  cases origin with
  | slab c =>
    obtain ⟨there, held⟩ := holds
    obtain ⟨k, cache⟩ := ne_none_iff_exists'.mp there
    have rep := (h.caches c k cache).rep
    obtain ⟨pg, page⟩ := rep.page held
    exact (rep.ok _ pg page).free_not_out (released k cache pg page) held
  | contig f n =>
    have run := h.run member
    obtain ⟨lt, used, -⟩ := h.frames.held f (run.held run.first)
    have ok := h.frames.represents.page f lt
    rw [used] at ok
    exact Bool.noConfusion ((released f run.first).symm.trans ok.1)
  | heap w =>
    obtain ⟨c, inChunks, allocated, rfl⟩ := (h.heaps w).held holds.1
    exact Bool.noConfusion ((released c inChunks rfl).symm.trans allocated)

theorem Inv.other_heap {v : Manager} (held : ptr ∈ (s.heaps .main).live.map Prod.fst) (other : v ≠ .main) :
    (s.heaps v).exec m (.free ptr) = .ok (s.heaps v) := by
  cases v with
  | main => exact absurd rfl other
  | low =>
    have notHeld : ptr ∉ (s.heaps .low).live.map Prod.fst := fun low => nomatch h.heap_apart low held
    have bounds := h.heap_bounds held
    have apart := low_lt_heap m.arch
    have low : (s.heaps .low).heap.heapStart = _ ∧ (s.heaps .low).heap.heapCurrent = _ := h.low
    have outside : ptr < (s.heaps .low).heap.heapStart ∨ ptr ≥ (s.heaps .low).heap.heapCurrent := by
      omega
    have kept : (s.heaps .low).live.filter (fun x => x.1 ≠ ptr) = (s.heaps .low).live :=
      filter_eq_self.mpr fun x member => by
        simp only [ne_eq, decide_eq_true_eq]
        exact fun eq => notHeld (eq ▸ mem_map_of_mem member)
    simp only [Heap.Sys.exec, Heap.free, if_neg (h.heap_pos held), if_pos outside, kept]
    rfl

/-- A pointer `kvfree` does not hand on is ignored, or it halts the kernel. -/
theorem Inv.kvfree_ignored (cpu : Nat) (member : (ptr, origin) ∈ live) (unreached : ¬Reaches m.arch s ptr origin) :
    kvfree m s cpu ptr = .ok s ∨ kvfree m s cpu ptr = .error .badType := by
  have holds := h.live ptr origin member
  cases origin with
  | slab c =>
    obtain ⟨there, held⟩ := holds
    obtain ⟨k, cache⟩ := ne_none_iff_exists'.mp there
    obtain ⟨f, pg, refs, -, -, lower, upper, -⟩ := h.slab_frame cache held
    obtain ⟨nonnull, below⟩ := h.frame_ptr (f := f) (by omega) lower upper
    exact Or.inl (kvfree_between cpu nonnull unreached below)
  | contig f n =>
    have run := h.run member
    obtain ⟨nonnull, below⟩ := h.frame_ptr (run.held run.first) run.bounds.1 run.bounds.2
    exact Or.inl (kvfree_between cpu nonnull unreached below)
  | heap w =>
    obtain ⟨held, -⟩ := holds
    have nonnull := h.heap_pos held
    have bounds := h.heap_bounds held
    unfold kvfree
    rw [if_neg nonnull]
    split
    next direct =>
      -- a pointer of the low heap, whose page is no page frame
      cases w with
      | main => exact absurd direct (not_directMapped_of_heap (le_of_lt bounds))
      | low =>
        have small : alignDown m.arch (virtToPhys m.arch ptr) pageSize % 2 ^ 32 < s.frames.pfa.startAddr := by
          refine lt_of_le_of_lt (Nat.mod_le _ _) (lt_of_le_of_lt Nat.and_le_left ?_)
          have above := h.memory.above
          obtain ⟨d, rfl⟩ := Nat.exists_eq_add_of_le bounds.1
          have wide : lowEnd ≤ m.arch.directMapSize := by cases m.arch <;> decide
          rw [add_comm, virtToPhys_direct (by omega)]
          omega
        right
        simp only [Pfa.pageFrameGetType, Pfa.pageFrameGetOwner, if_pos small, ne_eq, not_true_eq_false, and_false,
          if_false, reduceCtorEq]
        rfl
    next notDirect =>
      split
      next above =>
        left
        cases active : s.active with
        | none => rfl
        | some v =>
          have other : v ≠ w := fun same => unreached ⟨notDirect, above, active.trans (congrArg some same)⟩
          cases w with
          | low =>
            have apart := low_lt_heap m.arch
            omega
          | main =>
            simp [h.other_heap held other, onHeap_ok, State.setHeap]
      · exact Or.inl rfl

theorem Inv.kvfree_iff (cpu : Nat) (member : (ptr, origin) ∈ live) :
    (∃ s', kvfree m s cpu ptr = .ok s' ∧ Released m.arch s' ptr origin) ↔ Reaches m.arch s ptr origin := by
  constructor
  · rintro ⟨s', eq, released⟩
    by_contra unreached
    rcases h.kvfree_ignored cpu member unreached with same | halts
    · cases same.symm.trans eq
      exact h.not_released member released
    · cases halts.symm.trans eq
  · intro reaches
    obtain ⟨s', -, -, -, eq, released, -⟩ := h.kvfree_returns cpu member reaches
    exact ⟨s', eq, released⟩

end

end Jlos.Kmem
