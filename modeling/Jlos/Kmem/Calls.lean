import Jlos.Kmem.Invariant

/-!
# The calls of the general allocators

Each call of `jlos_kalloc` and `jlos_kvalloc` on a state that satisfies the invariant: it does not
fail, and what it returns belongs to the allocator it names.
-/
namespace Jlos.Kmem

open Lib Function List Option

variable {m : Machine} {s : State} {live : List (Nat × Origin)} {loc : Nat → Pfa.Loc}
  {place : Nat → Nat → Option Slab.ListId} {out : Nat → Nat → List Nat} {size : Nat}

/-- A call returns, and the invariant holds with what it returned. -/
def Serves (m : Machine) (live : List (Nat × Origin)) (call : M (Result × State)) : Prop :=
  ∃ result s' loc' place' out', call = .ok (result, s') ∧ Inv m s' (result.toList ++ live) loc' place' out'

/-! ### The heaps -/

theorem offer_sound (s : State) (w : Manager) (size : Nat) (grants : Grants) :
    (offer m s w size grants).Sound m (s.heaps w).heap size := by
  intro granted
  simp only [offer, Heap.Env.granted, Bool.and_true, decide_eq_true_eq] at granted
  exact granted.2.2

theorem offer_low (s : State) (size : Nat) (grants : Grants) : (offer m s .low size grants).granted = false := by
  simp [offer, Heap.Env.granted]

theorem Inv.fresh_ptr (h : Inv m s live loc place out) {w : Manager} {heap : Heap.Sys} {ptr size : Nat}
    (inv : Heap.SysInv m heap) (start : heap.heap.heapStart = (s.heaps w).heap.heapStart)
    (current : w = .low → heap.heap.heapCurrent = (s.heaps w).heap.heapCurrent)
    (handedOut : heap.live = (ptr, size) :: (s.heaps w).live) (v : Manager) : ptr ∉ (s.heaps v).live.map Prod.fst := by
  intro held
  have new : ptr ∈ heap.live.map Prod.fst := by simp [handedOut]
  have bounds := inv.bounds new
  have old := h.heap_bounds held
  have apart := low_lt_heap m.arch
  have low : (s.heaps .low).heap.heapStart = _ ∧ (s.heaps .low).heap.heapCurrent = _ := h.low
  have main : (s.heaps .main).heap.heapStart = _ := h.main
  obtain rfl | same := eq_or_ne v w
  · have nodup := inv.nodup
    rw [handedOut, map_cons, nodup_cons] at nodup
    exact nodup.1 held
  · cases w with
    | low =>
      have below := current rfl
      cases v with
      | low => exact same rfl
      | main =>
        omega
    | main =>
      cases v with
      | low =>
        omega
      | main => exact same rfl

theorem Inv.no_cache (h : Inv m s live loc place out) {ptr : Nat}
    (fresh : ∀ v, ptr ∉ (s.heaps v).live.map Prod.fst) : s.caches ptr = none := by
  by_contra some
  obtain ⟨v, member⟩ := h.stored ptr some
  exact fresh v member

theorem Inv.heapMalloc (h : Inv m s live loc place out) (w : Manager) (grants : Grants)
    (fits : Heap.Fits m size) : ∃ result s', heapMalloc m s w size grants = .ok (result, s') ∧
      (∀ x ∈ result, x.2 = .heap w ∧ ∀ v, x.1 ∉ (s.heaps v).live.map Prod.fst) ∧
      Inv m s' (result.toList ++ live) loc place out := by
  obtain ⟨result, heap, eq, inv, start, outcome⟩ := (h.heaps w).malloc fits (offer_sound s w size grants)
  -- The low heap never grows.
  have current : w = .low → heap.heap.heapCurrent = (s.heaps w).heap.heapCurrent := by
    rintro rfl
    simp only [Heap.Sys.malloc, bind, Except.bind] at eq
    split at eq
    · cases eq
    next r malloced =>
      have same := Heap.malloc_heapCurrent (offer_low s size grants) malloced
      obtain ⟨result', heap'⟩ := r
      cases eq
      cases result' <;> exact same
  have old : ∀ ptr origin, (ptr, origin) ∈ live → (∀ p ∈ (s.heaps w).live.map Prod.fst, p ∈ heap.live.map Prod.fst) →
      if origin = .heap w then ptr ∈ heap.live.map Prod.fst ∧ s.caches ptr = none else (ptr, origin) ∈ live := by
    intro ptr origin member grows
    split
    next eq =>
      subst eq
      obtain ⟨held, apart⟩ := h.live ptr _ member
      exact ⟨grows ptr held, apart⟩
    · exact member
  have ok : Kmem.heapMalloc m s w size grants = .ok (result.map (·, .heap w), s.setHeap w heap) := by
    simp [Kmem.heapMalloc, eq, onHeap_ok]
  rcases outcome with ⟨rfl, rfl⟩ | ⟨ptr, rfl, handedOut⟩
  · exact ⟨none, _, ok, by simp, h.reheap inv start current (fun _ _ => id)
      fun ptr origin member => old ptr origin member fun _ => id⟩
  · have grows : ∀ p ∈ (s.heaps w).live.map Prod.fst, p ∈ heap.live.map Prod.fst := by
      intro p held
      rw [handedOut]
      exact mem_cons_of_mem _ held
    have fresh := h.fresh_ptr inv start current handedOut
    refine ⟨_, _, ok, by simpa using fresh, ?_⟩
    refine h.reheap inv start current (fun c _ held => grows c held) fun p origin member => ?_
    simp only [map_some, toList_some, cons_append, nil_append, mem_cons, Prod.mk.injEq] at member
    rcases member with ⟨rfl, rfl⟩ | earlier
    · rw [if_pos rfl]
      exact ⟨by simp [handedOut], h.no_cache fresh⟩
    · exact old p origin earlier grows

/-! ### Contiguous runs -/

/-- A loop over a run of held frames that sets their type and owner. -/
theorem tagRun {frames : Pfa.Sys} (h : Pfa.SysInv frames loc) {f : Nat} (addr : Nat → Nat) (owner : Nat)
    (type : Pfa.FrameType) :
    ∀ n, (∀ i, InRange f n i → 0 < frames.refs i) → (∀ i, i < n → addr i = Pfa.framePhys frames.pfa (f + i)) →
    ∃ frames', (List.range n).foldlM (fun (frames : Pfa.Sys) i =>
        onPfa (frames.setOwnerType (addr i) owner type)) frames = .ok frames' ∧
      Pfa.SysInv frames' loc ∧ frames.Leaves frames' (InRange f n) ∧ frames'.refs = frames.refs ∧
      frames'.run = frames.run ∧
      ∀ i, InRange f n i → frames'.pfa.pages i = { frames.pfa.pages i with type := type, owner := owner } := by
  intro n held addrs
  refine foldlM_range_ok (I := fun k frames' => Pfa.SysInv frames' loc ∧ frames.Leaves frames' (InRange f k) ∧
    frames'.refs = frames.refs ∧ frames'.run = frames.run ∧ ∀ i, InRange f k i →
      frames'.pfa.pages i = { frames.pfa.pages i with type := type, owner := owner })
    ⟨h, Pfa.Sys.Leaves.refl .., rfl, rfl, fun i ini => absurd ini.2 (by have := ini.1; omega)⟩ n ?_
  rintro k lt frames₁ ⟨inv, leaves, refs, run, tagged⟩
  have here : InRange f n (f + k) := ⟨by omega, by omega⟩
  have notYet : ¬InRange f k (f + k) := fun ini => by have := ini.2; omega
  obtain ⟨frames₂, eq, inv₂, leaves₂, refs₂, run₂, page⟩ :=
    inv.setOwnerType (f := f + k) (by rw [refs]; exact held _ here) owner type
  have before := (leaves.same (f + k) notYet (held _ here)).2.2
  refine ⟨frames₂, ?_, inv₂, ?_, refs₂.trans refs, run₂.trans run, fun i ini => ?_⟩
  · rw [addrs k lt, ← leaves.framePhys, eq]
    rfl
  · refine (leaves.mono fun i ini => ⟨ini.1, by have := ini.2; omega⟩).trans (leaves₂.mono ?_)
    rintro i rfl
    exact ⟨by omega, by omega⟩
  · by_cases last : i = f + k
    · rw [last, page, before]
    · have ini' : InRange f k i := ⟨ini.1, by have := ini.2; omega⟩
      have pos : 0 < frames₁.refs i := by
        rw [refs]
        exact held i ⟨ini'.1, by have := ini'.2; omega⟩
      rw [(leaves₂.same i last pos).2.2, tagged i ini']

theorem Inv.contigAlloc (h : Inv m s live loc place out) (n : Nat) : Serves m live (contigAlloc m s n) := by
  unfold Kmem.contigAlloc
  split
  next most =>
    obtain ⟨result, frames, loc', eq, inv, outcome⟩ := h.frames.allocN n
    simp only [eq, onPfa_ok, bind, Except.bind]
    rcases outcome with ⟨rfl, rfl⟩ | ⟨f, rfl, pos, grants⟩
    · exact ⟨none, s, loc, place, out, rfl, h⟩
    have room := grants.inside
    have inside : f + n ≤ frames.pfa.totalFrames := by rwa [grants.total]
    have first : InRange f n f := ⟨le_refl f, by omega⟩
    have memory := h.memory.leaves grants.toLeaves
    obtain ⟨frames₂, tagged, inv₂, leaves₂, refs₂, run₂, pages₂⟩ := tagRun (f := f) inv
      (fun i => (physOf m.arch (virt m.arch frames.pfa f) + i * pageSize) % 2 ^ 32) 0 .kvContig n
      (fun i ini => by rw [(grants.held i ini).1]; exact one_pos)
      (fun i lt => memory.run_phys inside lt inv.represents.in_phys)
    have leaves := grants.leaves leaves₂
    have addr : physToVirt m.arch (Pfa.framePhys s.frames.pfa f) = virt m.arch frames₂.pfa f := by
      rw [virt_leaves leaves, virt]
    have tagged : contigTag m frames (virt m.arch frames₂.pfa f) n = .ok frames₂ := by
      rw [virt_leaves leaves, ← virt_leaves grants.toLeaves]
      exact tagged
    have frame : Pfa.pfaPhysToFrame frames₂.pfa (Pfa.framePhys s.frames.pfa f) = f := by
      rw [← leaves.framePhys]
      exact Pfa.pfaPhysToFrame_framePhys inv₂.represents (by rw [leaves₂.total]; omega)
    -- the frames are new, so nothing that is live loses one
    have h₂ : Inv m (s.setFrames frames₂) live loc' place out :=
      h.reframe inv₂ leaves (fun _ => id) (fun _ _ _ _ _ _ => id) fun _ _ _ _ _ _ => id
    have apart : ∀ ptr f' n', (ptr, .contig f' n') ∈ live → virt m.arch frames₂.pfa f' ≠ virt m.arch frames₂.pfa f := by
      intro ptr f' n' member same
      have run := h.run member
      have held := run.held run.first
      rw [virt_leaves leaves, virt_leaves leaves] at same
      rw [h.memory.virt_inj (h.held_lt held) (by omega) same, grants.fresh f first] at held
      cases held
    refine ⟨some (virt m.arch frames₂.pfa f + contigHdr, .contig f n), _, loc', place, out, ?_,
      (h₂.rehdr (contigMagic, n) apart).cons ⟨rfl, pos, most, update_self .., fun i ini => ?_⟩⟩
    · simp only [addr, tagged, frame]
      rfl
    · simp only [State.setFrames, refs₂, run₂, pages₂ i ini]
      exact ⟨(grants.held i ini).1, (grants.held i ini).2.1, trivial⟩
  next => exact ⟨none, s, loc, place, out, rfl, h⟩

theorem Inv.kvalloc (h : Inv m s live loc place out) (grants : Grants) (fits : Heap.Fits m size) :
    Serves m live (kvalloc m s size grants) := by
  unfold Kmem.kvalloc
  cases s.active with
  | none => exact ⟨none, s, loc, place, out, rfl, h⟩
  | some w =>
    simp only
    split
    · exact ⟨none, s, loc, place, out, rfl, h⟩
    · obtain ⟨result, s₁, loc₁, place₁, out₁, eq, inv⟩ : Serves m live
          (if size ≥ pageSize then Kmem.contigAlloc m s (contigPages m size) else pure (none, s)) := by
        split
        · exact h.contigAlloc _
        · exact ⟨none, s, loc, place, out, rfl, h⟩
      simp only [eq, ok_bind]
      cases result with
      | some x => exact ⟨some x, s₁, loc₁, place₁, out₁, rfl, inv⟩
      | none =>
        obtain ⟨result, s', eq', -, inv'⟩ := Inv.heapMalloc inv w grants fits
        exact ⟨result, s', loc₁, place₁, out₁, eq', inv'⟩

/-! ### The caches of kalloc -/

theorem Inv.addCache {c : Nat} {w : Manager} (h : Inv m s ((c, .heap w) :: live) loc place out) {g : Slab.Geometry}
    (ok : g.Ok m.arch) (fresh : ∀ v, (c, .heap v) ∉ live) :
    Inv m (s.setCache c ⟨g, Slab.State.fresh⟩) live loc (update place c fun _ => none) (update out c fun _ => []) := by
  obtain ⟨held, unused⟩ := h.live c _ mem_cons_self
  refine h.recache ⟨w, held⟩ ⟨ok, Slab.rep_fresh, fun _ there => absurd rfl there⟩ (fun ptr c' member => ?_)
    (fun ptr origin member _ => mem_cons_of_mem _ member) fun _ => fresh
  obtain ⟨there, -⟩ := h.live ptr _ (mem_cons_of_mem _ member)
  rw [if_neg fun same : c' = c => there (same ▸ unused)]
  exact mem_cons_of_mem _ member

theorem fits_cache (m : Machine) : Heap.Fits m (cacheSize m.arch) := by
  unfold Heap.Fits
  cases m.arch <;> decide

theorem Inv.cacheCreate (h : Inv m s live loc place out) {size align : Nat} (grants : Grants)
    (power : align = 0 ∨ ∃ k < m.arch.wordBits, align = 2 ^ k) :
    ∃ c s' place' out', cacheCreate m s size align grants = .ok (c, s') ∧ (c ≠ 0 → s'.caches c ≠ none) ∧
      Inv m s' live loc place' out' := by
  unfold Kmem.cacheCreate
  cases created : Slab.slabCacheCreate m.arch size align with
  | none => exact ⟨0, s, place, out, rfl, fun ne => absurd rfl ne, h⟩
  | some g =>
    have small : ¬cacheSize m.arch ≥ pageSize ∧ cacheSize m.arch ≠ 0 := by cases m.arch <;> decide
    simp only [Kmem.kvalloc, if_neg small.1, if_neg small.2, bind, Except.bind]
    cases s.active with
    | none => exact ⟨0, s, place, out, rfl, fun ne => absurd rfl ne, h⟩
    | some w =>
      obtain ⟨result, s', eq, from_heap, inv⟩ := h.heapMalloc w grants (fits_cache m)
      simp only [pure, Except.pure, eq]
      cases result with
      | none => exact ⟨0, s', place, out, rfl, fun ne => absurd rfl ne, inv⟩
      | some x =>
        obtain ⟨c, origin⟩ := x
        obtain ⟨rfl, fresh⟩ := from_heap _ rfl
        refine ⟨c, _, _, _, rfl, fun _ => ?_, inv.addCache (Slab.slabCacheCreate_ok power created) fun v member => ?_⟩
        · simp [State.setCache]
        · exact fresh v (h.live c _ member).1

theorem pointerSize_power (a : Arch) : ∃ k < a.wordBits, a.pointerSize = 2 ^ k := by
  cases a
  · exact ⟨3, by decide, rfl⟩
  · exact ⟨3, by decide, rfl⟩
  · exact ⟨2, by decide, rfl⟩

theorem Inv.kallocCachesEnsure (h : Inv m s live loc place out) (grants : Grants) :
    ∃ s', kallocCachesEnsure m s grants = .ok s' ∧ ∃ place' out', Inv m s' live loc place' out' := by
  unfold Kmem.kallocCachesEnsure
  split
  · exact ⟨s, rfl, place, out, h⟩
  · refine foldlM_ok (I := fun s => ∃ place out, Inv m s live loc place out) _ ?_ s ⟨place, out, h⟩
    rintro i - s ⟨place, out, h⟩
    obtain ⟨c, s', place', out', eq, there, inv⟩ : ∃ c s' place' out',
        (if Heap.minAlloc * 2 ^ i % 2 ^ m.arch.wordBits > kallocMaxSmall m then pure (0, s)
          else Kmem.cacheCreate m s (Heap.minAlloc * 2 ^ i % 2 ^ m.arch.wordBits) m.arch.pointerSize grants) =
            .ok (c, s') ∧ (c ≠ 0 → s'.caches c ≠ none) ∧ Inv m s' live loc place' out' := by
      split
      · exact ⟨0, s, place, out, rfl, fun ne => absurd rfl ne, h⟩
      · exact h.cacheCreate grants (Or.inr (pointerSize_power m.arch))
    simp only [eq, ok_bind]
    refine ⟨_, rfl, place', out', { inv with
      caches := fun c k cache => ?_
      buckets := fun b some => ?_
      live := fun ptr origin member => ?_ }⟩
    · exact { inv.caches c k cache with }
    · obtain rfl | same := eq_or_ne b i
      · simp only [update_self] at some ⊢
        exact there some
      · simp only [update_of_ne same] at some ⊢
        exact inv.buckets b some
    · have holds := inv.live ptr origin member
      cases origin with
      | slab c => exact holds
      | heap w => exact holds
      | contig f n =>
        exact { inv.run member with }

/-! ### Slab objects -/

section

variable (h : Inv m s live loc place out)
include h

theorem Inv.no_page {f : Nat} (lt : f < s.frames.pfa.totalFrames)
    (fresh : s.frames.refs f = 0) {c : Nat} {k : Cache} (cache : s.caches c = some k) :
    k.st.pages (virt m.arch s.frames.pfa f) = none := by
  by_contra there
  rw [(h.page_frame cache lt there).1] at fresh
  cases fresh

theorem Inv.slabFrame (cpu c : Nat) :
    ∃ frame s' loc', slabFrame m s cpu c = .ok (frame, s') ∧ s'.caches = s.caches ∧ Inv m s' live loc' place out ∧
      ∀ page ∈ frame, Slab.Frame m.arch page ∧ SlabFrame m.arch s' c page ∧
        ∀ c k, s.caches c = some k → k.st.pages page = none := by
  obtain ⟨result, frames, loc', eq, inv, outcome⟩ := h.frames.malloc cpu
  simp only [Kmem.slabFrame, eq, onPfa_ok, ok_bind]
  rcases outcome with ⟨rfl, leaves⟩ | ⟨f, rfl, grants⟩
  · exact ⟨none, _, loc', rfl, rfl, h.reframe inv leaves (fun _ => id) (fun _ _ _ _ _ _ => id) fun _ _ _ _ _ _ => id,
      by simp⟩
  have one : InRange f 1 f := ⟨le_refl f, Nat.lt_succ_self f⟩
  have lt : f < s.frames.pfa.totalFrames := grants.inside
  obtain ⟨refs, -, -⟩ := grants.held f one
  obtain ⟨frames₂, tagged, inv₂, leaves₂, refs₂, run₂, page₂⟩ :=
    inv.setOwnerType (by rw [refs]; exact one_pos) c .slabObj
  have leaves := grants.leaves (leaves₂.mono fun i eq => (Pfa.inRange_one f i).mpr eq)
  rw [grants.framePhys, ← h.physOf_virt lt, virt] at tagged
  simp only [tagged, onPfa_ok]
  refine ⟨some (virt m.arch s.frames.pfa f), s.setFrames frames₂, loc', rfl, rfl,
    h.reframe inv₂ leaves (fun _ => id) (fun _ _ _ _ _ _ => id) fun _ _ _ _ _ _ => id, ?_⟩
  rintro _ ⟨rfl⟩
  refine ⟨h.memory.frame lt, ⟨f, (virt_leaves leaves f).symm, ?_⟩, fun c k => h.no_page lt (grants.fresh f one)⟩
  simp only [State.setFrames, refs₂, refs, page₂]
  exact ⟨trivial, trivial, trivial⟩

theorem Inv.slabAlloc (cpu : Nat) {c : Nat} (there : s.caches c ≠ none) : Serves m live (slabAlloc m s cpu c) := by
  obtain ⟨k, cache⟩ := ne_none_iff_exists'.mp there
  obtain ⟨geometry, rep, pages⟩ := h.caches c k cache
  have asked : ∃ wants, Slab.wantsPage k.st cpu = .ok wants := by
    rcases rep.allocFast cpu with ⟨eq, -⟩ | ⟨p, obj, done, slot, st', eq, -⟩ <;>
      exact ⟨_, by simp only [Slab.wantsPage, eq, ok_bind]; rfl⟩
  obtain ⟨wants, asked⟩ := asked
  obtain ⟨frame, s₁, loc₁, eq, same, inv, new⟩ : ∃ frame s₁ loc₁,
      (if wants then Kmem.slabFrame m s cpu c else pure (none, s)) = .ok (frame, s₁) ∧ s₁.caches = s.caches ∧
      Inv m s₁ live loc₁ place out ∧ ∀ page ∈ frame, Slab.Frame m.arch page ∧ SlabFrame m.arch s₁ c page ∧
        ∀ c k, s.caches c = some k → k.st.pages page = none := by
    split
    · exact h.slabFrame cpu c
    · exact ⟨none, s, loc, rfl, rfl, h, by simp⟩
  have found : cacheAt s c = .ok k := by simp only [cacheAt, cache]; rfl
  have cache₁ : s₁.caches c = some k := by rw [same, cache]
  have stored : s₁.caches c ≠ none := by rw [cache₁]; exact nofun
  have old := inv.caches c k cache₁
  simp only [Serves, Kmem.slabAlloc, found, asked, onSlab_ok, eq, ok_bind]
  -- No object is left, or one of a page of the cache or of the new frame.
  rcases rep.slabCacheAlloc geometry cpu fun page member => ⟨(new page member).1, (new page member).2.2 c k cache⟩
    with ⟨nothing, -⟩ | ⟨p, obj, slot, st', eq', origin, onPage, -, rep', pg, pages'⟩
  · refine ⟨none, s₁.setCache c k, loc₁, _, _, by simp only [nothing, onSlab_ok]; rfl,
      inv.recache (inv.stored c stored) ⟨geometry, rep, old.pages⟩ (fun ptr c' member => ?_)
        (fun ptr origin member _ => member) fun none => absurd none stored⟩
    split
    next eq =>
      have holds : s₁.caches c' ≠ none ∧ ptr ∈ out c' _ := inv.live ptr _ member
      exact eq ▸ holds.2
    · exact member
  · have ok : CacheOk m.arch s₁ c ⟨k.geometry, st'⟩ (update (place c) p slot) (update (out c) p (obj :: out c p)) := by
      refine ⟨geometry, rep', fun q some => ?_⟩
      simp only [pages'] at some
      by_cases here : q = p
      · rcases origin with before | handed
        · exact here ▸ old.pages p before
        · exact here ▸ (new p handed).2.1
      · rw [update_of_ne here] at some
        exact old.pages q some
    refine ⟨some (obj, .slab c), s₁.setCache c ⟨k.geometry, st'⟩, loc₁, _, _, by simp only [eq', onSlab_ok]; rfl,
      inv.recache (inv.stored c stored) ok (fun ptr c' member => ?_) (fun ptr origin member apart => ?_)
        fun none => absurd none stored⟩
    · rw [Slab.mem_out_cons onPage]
      simp only [toList_some, cons_append, nil_append, mem_cons, Prod.mk.injEq, Origin.slab.injEq] at member
      split
      next eq =>
        rcases member with ⟨new, -⟩ | earlier
        · exact Or.inl new
        · have holds : s₁.caches c' ≠ none ∧ ptr ∈ out c' _ := inv.live ptr _ earlier
          exact Or.inr (eq ▸ holds.2)
      next ne => exact member.resolve_left fun new => ne new.2
    · exact (mem_cons.mp member).resolve_left fun new => apart c (congrArg Prod.snd new)

theorem Inv.kallocSmall (cpu size : Nat) (grants : Grants) : Serves m live (kallocSmall m s cpu size grants) := by
  obtain ⟨s₁, eq, place₁, out₁, inv⟩ := h.kallocCachesEnsure grants
  simp only [Kmem.kallocSmall, eq, ok_bind]
  split
  · exact ⟨none, s₁, loc, place₁, out₁, rfl, inv⟩
  next some => exact inv.slabAlloc cpu (inv.buckets _ some)

theorem Inv.kalloc (cpu : Nat) (grants : Grants)
    (fits : Heap.Fits m size) : Serves m live (kalloc m s cpu size grants) := by
  unfold Kmem.kalloc
  split
  · exact ⟨none, s, loc, place, out, rfl, h⟩
  · obtain ⟨result, s₁, loc₁, place₁, out₁, eq, inv⟩ : Serves m live
        (if size ≤ kallocMaxSmall m then Kmem.kallocSmall m s cpu size grants else pure (none, s)) := by
      split
      · exact h.kallocSmall cpu size grants
      · exact ⟨none, s, loc, place, out, rfl, h⟩
    simp only [eq, ok_bind]
    cases result with
    | some x => exact ⟨some x, s₁, loc₁, place₁, out₁, rfl, inv⟩
    | none => exact Inv.kvalloc inv grants fits

end

end Jlos.Kmem
