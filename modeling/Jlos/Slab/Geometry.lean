import Jlos.Lib.Align
import Jlos.Slab.Model

/-!
# How objects lie on a slab page

A cache that `jlos_memory_slab_cache_create` accepts has room for an object on every page, whatever
colour the page gets, and the objects of a page lie behind its header and in front of its
end.
-/
namespace Jlos.Slab

open Lib Function List

variable {a : Arch} {g : Geometry}

/-- A page frame of the direct map, where `jlos_page_frame_malloc` returns pages. -/
@[mk_iff]
structure Frame (a : Arch) (page : Nat) : Prop where
  lower : a.directMapBase ≤ page
  upper : page + pageSize ≤ a.directMapBase + a.directMapSize
  aligned : pageSize ∣ page

instance (page : Nat) : Decidable (Frame a page) :=
  decidable_of_iff' _ (frame_iff ..)

theorem Frame.below {page : Nat} (frame : Frame a page) : page + 2 * pageSize < 2 ^ a.wordBits := by
  have upper := frame.upper
  have top : a.directMapBase + a.directMapSize + pageSize < 2 ^ a.wordBits := by
    cases a <;> decide
  omega

theorem pageSize_eq : pageSize = 2 ^ 12 := rfl

theorem twelve_le (a : Arch) : 12 ≤ a.wordBits := by
  cases a <;> decide

theorem alignDown_page {x : Nat} (lt : x < 2 ^ a.wordBits) : alignDown a x pageSize = x / pageSize * pageSize := by
  rw [alignDown, pageSize_eq, land_two_pow_sub lt (twelve_le a)]

theorem Frame.pageOf {page obj : Nat} (frame : Frame a page) (lower : page ≤ obj) (upper : obj < page + pageSize) :
    pageOf a obj = page := by
  have below := frame.below
  obtain ⟨q, rfl⟩ := frame.aligned
  rw [Slab.pageOf, alignDown_page (by omega)]
  simp only [pageSize] at *
  omega

/-! ### Carving -/

section carving

variable {stop start fuel align : Nat}

section

variable (pos : 0 < g.objSize)
include pos

/-- The loop links the objects that fit, one behind the other, with the last one first. -/
theorem carve_eq : ∀ fuel p fhead, stop - p ≤ fuel → carve g stop fuel p fhead =
    ((List.range ((stop - p) / g.objSize)).map fun i => p + i * g.objSize).reverse ++ fhead := by
  intro fuel
  induction fuel with
  | zero =>
    intro p fhead enough
    rw [Nat.le_zero.mp enough, Nat.zero_div]
    rfl
  | succ fuel ih =>
    intro p fhead enough
    simp only [carve]
    split
    next fits =>
      have more : (stop - p) / g.objSize = (stop - (p + g.objSize)) / g.objSize + 1 := by
        rw [← Nat.add_div_right _ pos]
        congr 1
        omega
      rw [ih _ _ (by omega), more, range_succ_eq_map]
      simp [comp_def, Nat.succ_mul, add_assoc, add_comm g.objSize]
    next full =>
      rw [Nat.div_eq_of_lt (by omega)]
      rfl

section

variable (enough : stop - start ≤ fuel)
include enough

theorem length_carve : (carve g stop fuel start []).length = (stop - start) / g.objSize := by
  simp [carve_eq pos fuel start [] enough]

theorem carve_inside {o : Nat} (member : o ∈ carve g stop fuel start []) :
    start ≤ o ∧ o + g.objSize ≤ stop ∧ ∃ i, o = start + i * g.objSize := by
  simp only [carve_eq pos fuel start [] enough, append_nil, mem_reverse, mem_map, mem_range] at member
  obtain ⟨i, lt, rfl⟩ := member
  have last : (i + 1) * g.objSize ≤ stop - start :=
    (Nat.mul_le_mul_right _ lt).trans (Nat.div_mul_le_self _ _)
  have room : 0 < (stop - start) / g.objSize := by omega
  rw [Nat.succ_mul] at last
  exact ⟨by omega, by omega, i, rfl⟩

theorem carve_apart : (carve g stop fuel start []).Pairwise fun o o' => o' + g.objSize ≤ o := by
  rw [carve_eq pos fuel start [] enough, append_nil, pairwise_reverse, pairwise_map]
  refine pairwise_lt_range.imp fun {i j} lt => ?_
  have next : (i + 1) * g.objSize ≤ j * g.objSize := Nat.mul_le_mul_right _ lt
  rw [Nat.succ_mul] at next
  omega

theorem carve_nodup : (carve g stop fuel start []).Nodup :=
  (carve_apart pos enough).imp fun apart => by omega

end

end

end carving

/-! ### Caches -/

/-- A cache whose pages have room for an object, whatever their colour, and for no more than it
counts with. -/
structure Geometry.Ok (a : Arch) (g : Geometry) : Prop where
  pos : 0 < g.objSize
  most : ∀ page colourNext n, Frame a page →
    alignUp a (page + a.slabHeader + colourNext * cachelineSize) g.align + n * g.objSize ≤ page + pageSize →
    colourNext ≤ g.colour → n ≤ g.pg1Num
  room : ∀ page colourNext, Frame a page → colourNext ≤ g.colour →
    page ≤ alignUp a (page + a.slabHeader + colourNext * cachelineSize) g.align ∧
      alignUp a (page + a.slabHeader + colourNext * cachelineSize) g.align + g.objSize ≤ page + pageSize

theorem alignUp_eq {x k : Nat} (lt : x + 2 ^ k ≤ 2 ^ a.wordBits) (le : k ≤ a.wordBits) :
    alignUp a x (2 ^ k) = (x + 2 ^ k - 1) / 2 ^ k * 2 ^ k := by
  have pos : 0 < 2 ^ k := Nat.two_pow_pos k
  have small : x + 2 ^ k - 1 < 2 ^ a.wordBits := by omega
  rw [alignUp, Nat.mod_eq_of_lt small, land_two_pow_sub small le]

theorem le_ceil_mul {x u : Nat} (pos : 0 < u) : x ≤ (x + u - 1) / u * u := by
  have split := Nat.div_add_mod (x + u - 1) u
  have rest := Nat.mod_lt (x + u - 1) pos
  rw [mul_comm]
  omega

theorem ceil_le {x u n : Nat} (pos : 0 < u) (le : x ≤ n * u) : (x + u - 1) / u ≤ n := by
  rw [← Nat.lt_succ_iff, Nat.div_lt_iff_lt_mul pos, Nat.succ_mul]
  omega

/-- What a cache of objects of `obj` bytes, a multiple of the alignment, leaves of a page is a
multiple of the alignment as well; that is why colouring never costs an object. -/
theorem room_of_colour {k header obj num offset page : Nat} (le : k ≤ 12) (mult : 2 ^ k ∣ obj) (pageMult : 2 ^ k ∣ page)
    (fits : (header + 2 ^ k - 1) / 2 ^ k * 2 ^ k + num * obj + offset ≤ pageSize) :
    (page + (header + offset) + 2 ^ k - 1) / 2 ^ k * 2 ^ k + num * obj ≤ page + pageSize := by
  have whole : pageSize = 2 ^ k * 2 ^ (12 - k) := by
    rw [← pow_add, Nat.add_sub_cancel' le, pageSize_eq]
  have unit : 0 < 2 ^ k := Nat.two_pow_pos k
  obtain ⟨q, rfl⟩ := mult
  obtain ⟨r, rfl⟩ := pageMult
  generalize 2 ^ (12 - k) = n at whole
  generalize 2 ^ k = u at *
  have headerFits := le_ceil_mul (x := header) unit
  generalize (header + u - 1) / u = s at *
  -- everything in units of the alignment
  have left : s + num * q ≤ n := by
    refine Nat.le_of_mul_le_mul_left ?_ unit
    rw [← whole]
    refine le_trans ?_ fits
    rw [mul_add, mul_comm u s, mul_left_comm]
    exact Nat.le_add_right _ _
  have offsetFits : offset ≤ (n - (s + num * q)) * u := by
    have total : (n - (s + num * q)) * u + (s * u + num * (u * q)) = pageSize := by
      rw [whole, show s * u + num * (u * q) = (s + num * q) * u by ring, ← add_mul, Nat.sub_add_cancel left, mul_comm]
    omega
  have bound : (u * r + (header + offset) + u - 1) / u ≤ r + s + (n - (s + num * q)) := by
    refine ceil_le unit ?_
    calc u * r + (header + offset) ≤ u * r + (s * u + (n - (s + num * q)) * u) := by omega
      _ = (r + s + (n - (s + num * q))) * u := by ring
  calc (u * r + (header + offset) + u - 1) / u * u + num * (u * q)
      ≤ (r + s + (n - (s + num * q))) * u + num * (u * q) := Nat.add_le_add_right (Nat.mul_le_mul_right u bound) _
    _ = u * (r + (s + (n - (s + num * q)) + num * q)) := by ring
    _ ≤ u * (r + n) := Nat.mul_le_mul_left u (by omega)
    _ = u * r + pageSize := by rw [whole]; ring

theorem slabHeader_bounds (a : Arch) : 0 < a.slabHeader ∧ a.slabHeader ≤ 56 := by
  cases a <;> decide

theorem slabPageFrame1Num_ne_zero {obj : Nat} (some : slabPageFrame1Num a obj align ≠ 0) :
    0 < obj ∧ alignUp a a.slabHeader align < pageSize ∧
      alignUp a a.slabHeader align + slabPageFrame1Num a obj align * obj ≤ pageSize ∧
      pageSize < alignUp a a.slabHeader align + (slabPageFrame1Num a obj align + 1) * obj := by
  by_cases zero : obj = 0
  · simp [slabPageFrame1Num, zero] at some
  by_cases late : alignUp a a.slabHeader align ≥ pageSize
  · simp [slabPageFrame1Num, late] at some
  have num : slabPageFrame1Num a obj align = (pageSize - alignUp a a.slabHeader align) / obj := by
    simp [slabPageFrame1Num, if_neg zero, if_neg late]
  have taken := Nat.div_mul_le_self (pageSize - alignUp a a.slabHeader align) obj
  have full := Nat.lt_div_mul_add (pos_of_ne_zero zero) (a := pageSize - alignUp a a.slabHeader align)
  rw [num, Nat.succ_mul]
  omega

theorem header_le_colour {u page : Nat} (header offset : Nat) (unit : 0 < u) (pageMult : u ∣ page) :
    page + (header + u - 1) / u * u ≤ (page + (header + offset) + u - 1) / u * u := by
  obtain ⟨r, rfl⟩ := pageMult
  rw [show u * r + (header + offset) + u - 1 = u * r + (header + offset + u - 1) by omega, Nat.mul_add_div unit,
    add_mul, mul_comm r]
  exact Nat.add_le_add_left (Nat.mul_le_mul_right u (Nat.div_le_div_right (by omega))) _

/-- Where the first object of a page lies, and that all of them fit behind it. -/
theorem start_of_colour {k obj num page colourNext : Nat} (lt : k < a.wordBits) (mult : 2 ^ k ∣ obj)
    (early : alignUp a a.slabHeader (2 ^ k) < pageSize) (taken : alignUp a a.slabHeader (2 ^ k) + num * obj ≤ pageSize)
    (frame : Frame a page)
    (colour : colourNext ≤ (pageSize - alignUp a a.slabHeader (2 ^ k) - num * obj) / cachelineSize) :
    2 ^ k ∣ alignUp a (page + a.slabHeader + colourNext * cachelineSize) (2 ^ k) ∧
      a.slabHeader ≤ alignUp a a.slabHeader (2 ^ k) ∧
      page + alignUp a a.slabHeader (2 ^ k) ≤ alignUp a (page + a.slabHeader + colourNext * cachelineSize) (2 ^ k) ∧
      alignUp a (page + a.slabHeader + colourNext * cachelineSize) (2 ^ k) + num * obj ≤ page + pageSize := by
  obtain ⟨headerPos, headerSmall⟩ := slabHeader_bounds a
  have unit : 0 < 2 ^ k := Nat.two_pow_pos k
  have half : 2 ^ k + 2 ^ k ≤ 2 ^ a.wordBits := by
    rw [← two_mul, ← Nat.pow_succ']
    exact Nat.pow_le_pow_right Nat.two_pos lt
  have wide : 8192 ≤ 2 ^ a.wordBits := by
    cases a <;> decide
  have start : alignUp a a.slabHeader (2 ^ k) = (a.slabHeader + 2 ^ k - 1) / 2 ^ k * 2 ^ k :=
    alignUp_eq (by omega) lt.le
  have headerFits := le_ceil_mul (x := a.slabHeader) unit
  have unitFits : 2 ^ k ≤ (a.slabHeader + 2 ^ k - 1) / 2 ^ k * 2 ^ k :=
    Nat.le_mul_of_pos_left _ (Nat.div_pos (by omega) unit)
  have offset : colourNext * cachelineSize ≤ pageSize - alignUp a a.slabHeader (2 ^ k) - num * obj :=
    le_trans (Nat.mul_le_mul_right _ colour) (Nat.div_mul_le_self _ _)
  rw [start] at early taken offset ⊢
  have small : k ≤ 12 :=
    (Nat.pow_le_pow_iff_right Nat.one_lt_two).mp (le_of_lt (lt_of_le_of_lt unitFits early))
  have pageMult : 2 ^ k ∣ page := (pow_dvd_pow 2 small).trans frame.aligned
  have below := frame.below
  generalize colourNext * cachelineSize = shift at *
  rw [add_assoc page, alignUp_eq (by omega) lt.le]
  exact ⟨Nat.dvd_mul_left _ _, headerFits, header_le_colour a.slabHeader shift unit pageMult,
    room_of_colour small mult pageMult (by omega)⟩

/-- What `jlos_memory_slab_cache_create` has computed when it returns a cache, for an alignment that
is a power of two or zero. -/
theorem slabCacheCreate_some {size : Nat} (power : align = 0 ∨ ∃ k < a.wordBits, align = 2 ^ k)
    (created : slabCacheCreate a size align = some g) :
    ∃ k < a.wordBits, (if align < a.pointerSize then a.pointerSize else align) = 2 ^ k ∧
      g.objSize = (size + 2 ^ k - 1) % 2 ^ a.wordBits / 2 ^ k * 2 ^ k % 2 ^ a.wordBits ∧ 2 ^ k ∣ g.objSize ∧
      0 < g.objSize ∧ 0 < g.pg1Num ∧ alignUp a a.slabHeader (2 ^ k) < pageSize ∧
      alignUp a a.slabHeader (2 ^ k) + g.pg1Num * g.objSize ≤ pageSize ∧
      pageSize < alignUp a a.slabHeader (2 ^ k) + (g.pg1Num + 1) * g.objSize ∧ g.align = 2 ^ k ∧
      g.colour = (pageSize - alignUp a a.slabHeader (2 ^ k) - g.pg1Num * g.objSize) / cachelineSize := by
  unfold slabCacheCreate at created
  split at created
  · cases created
  -- the alignment that is used is a power of two
  have aligned : ∃ k < a.wordBits, (if align < a.pointerSize then a.pointerSize else align) = 2 ^ k := by
    split
    · cases a
      · exact ⟨3, by decide, rfl⟩
      · exact ⟨3, by decide, rfl⟩
      · exact ⟨2, by decide, rfl⟩
    next large =>
      rcases power with rfl | power
      · exact absurd (by cases a <;> decide) large
      · exact power
  obtain ⟨k, lt, eq⟩ := aligned
  simp only [eq] at created
  split at created
  · cases created
  next some =>
    cases created
    obtain ⟨objPos, early, taken, full⟩ := slabPageFrame1Num_ne_zero some
    refine ⟨k, lt, eq, rfl, ?_, objPos, pos_of_ne_zero some, early, taken, full, rfl, rfl⟩
    rw [Nat.dvd_mod_iff (pow_dvd_pow 2 lt.le)]
    exact Nat.dvd_mul_left _ _

theorem slabCacheCreate_ok {size : Nat} (power : align = 0 ∨ ∃ k < a.wordBits, align = 2 ^ k)
    (created : slabCacheCreate a size align = some g) : g.Ok a := by
  obtain ⟨k, lt, -, -, mult, objPos, numPos, early, taken, full, align, colours⟩ := slabCacheCreate_some power created
  refine ⟨objPos, fun page colourNext n frame ends colour => ?_, fun page colourNext frame colour => ?_⟩
  all_goals
    rw [colours] at colour
    obtain ⟨-, header, above, room⟩ := start_of_colour lt mult early taken frame colour
  · rw [align] at ends
    have bound : n * g.objSize < (g.pg1Num + 1) * g.objSize := by omega
    exact Nat.le_of_lt_succ (Nat.lt_of_mul_lt_mul_right bound)
  · have once : g.objSize ≤ g.pg1Num * g.objSize := Nat.le_mul_of_pos_left _ numPos
    rw [align]
    omega

/-! ### The layout of a page -/

/-- The size of an object is rounded up; a size for which the rounding wraps around gives no
cache. -/
theorem size_le_objSize {size k : Nat} (lt : k < a.wordBits) (word : size < 2 ^ a.wordBits)
    (pos : 0 < (size + 2 ^ k - 1) % 2 ^ a.wordBits / 2 ^ k * 2 ^ k % 2 ^ a.wordBits) :
    size ≤ (size + 2 ^ k - 1) % 2 ^ a.wordBits / 2 ^ k * 2 ^ k % 2 ^ a.wordBits := by
  have unit : 0 < 2 ^ k := Nat.two_pow_pos k
  have less : 2 ^ k < 2 ^ a.wordBits := Nat.pow_lt_pow_right Nat.one_lt_two lt
  by_cases fits : size + 2 ^ k - 1 < 2 ^ a.wordBits
  · have ceil := le_ceil_mul (x := size) unit
    have floor := Nat.div_mul_le_self (size + 2 ^ k - 1) (2 ^ k)
    rw [Nat.mod_eq_of_lt fits, Nat.mod_eq_of_lt (by omega)]
    exact ceil
  · have wraps : (size + 2 ^ k - 1) % 2 ^ a.wordBits / 2 ^ k = 0 := by
      rw [Nat.mod_eq_sub_mod (by omega), Nat.mod_eq_of_lt (by omega)]
      exact Nat.div_eq_of_lt (by omega)
    simp [wraps] at pos

/-- Every page of a cache has as many objects as the cache counts with, whatever its colour:
aligned, as large as asked for, behind the header, inside the page and apart from each other, each
of them once in the free list. -/
theorem slab_layout {size align page : Nat} (word : size < 2 ^ a.wordBits) (power : ∃ k ≤ 12, align = 2 ^ k)
    (created : slabCacheCreate a size align = some g) {st : State} (colour : st.colourNext ≤ g.colour)
    (frame : Frame a page) : ∃ pg st', slabPageAlloc a g st (some page) = (some page, st') ∧ st'.pages page = some pg ∧
      pg.objCount = g.pg1Num ∧ pg.freelist.length = g.pg1Num ∧
      (∀ o ∈ pg.freelist, align ∣ o ∧ page + a.slabHeader ≤ o ∧ o + size ≤ page + pageSize) ∧
      pg.freelist.Pairwise (fun o o' => o' + size ≤ o) ∧ pg.freelist.Nodup ∧ st'.colourNext ≤ g.colour := by
  obtain ⟨n, le, rfl⟩ := power
  have nLt : n < a.wordBits := by cases a <;> exact lt_of_le_of_lt le (by decide)
  obtain ⟨k, lt, eq, obj, mult, objPos, -, early, taken, full, aligned, colours⟩ :=
    slabCacheCreate_some (.inr ⟨n, nLt, rfl⟩) created
  -- The cache rounds the alignment up to that of a pointer.
  have divides : 2 ^ n ∣ 2 ^ k := by
    rw [← eq]
    split
    next small =>
      have pointer : a.pointerSize = 2 ^ 2 ∨ a.pointerSize = 2 ^ 3 := by cases a <;> simp [Arch.pointerSize]
      rcases pointer with four | eight
      · rw [four] at small ⊢
        exact pow_dvd_pow 2 ((Nat.pow_lt_pow_iff_right Nat.one_lt_two).mp small).le
      · rw [eight] at small ⊢
        exact pow_dvd_pow 2 ((Nat.pow_lt_pow_iff_right Nat.one_lt_two).mp small).le
    next => exact dvd_rfl
  have sizeLe : size ≤ g.objSize := by
    rw [obj] at objPos ⊢
    exact size_le_objSize lt word objPos
  rw [colours] at colour
  obtain ⟨startMult, header, above, room⟩ := start_of_colour lt mult early taken frame colour
  rw [← aligned] at startMult header above room full
  generalize startEq : alignUp a (page + a.slabHeader + st.colourNext * cachelineSize) g.align = start at *
  have enough : page + pageSize - start ≤ pageSize := by omega
  have count : (page + pageSize - start) / g.objSize = g.pg1Num :=
    Nat.div_eq_of_lt_le (by omega) (by omega)
  refine ⟨_, _, rfl, update_self .., ?_, ?_, ?_, ?_, ?_, Nat.le_of_lt_succ (Nat.mod_lt _ (Nat.succ_pos _))⟩
  all_goals simp only [startEq]
  · exact (length_carve objPos enough).trans count
  · exact (length_carve objPos enough).trans count
  · intro o member
    obtain ⟨lower, upper, i, place⟩ := carve_inside objPos enough member
    refine ⟨divides.trans ?_, by omega, by omega⟩
    rw [place, ← aligned]
    exact Nat.dvd_add startMult ((aligned ▸ mult).trans (Nat.dvd_mul_left _ _))
  · exact (carve_apart objPos enough).imp fun apart => by omega
  · exact carve_nodup objPos enough

/-- A page of 320-byte objects, with the last of four colours. -/
theorem layout_of_coloured_page : ∃ pg st', slabCacheCreate .x86_64 320 8 = some ⟨320, 8, 12, 3⟩ ∧
    slabPageAlloc .x86_64 ⟨320, 8, 12, 3⟩ { State.fresh with colourNext := 3 } (some 0xFFFF800000000000) =
      (some 0xFFFF800000000000, st') ∧
    st'.pages 0xFFFF800000000000 = some pg ∧ pg.objCount = 12 ∧ pg.freelist.Pairwise fun o o' => o' + 320 ≤ o := by
  have created : slabCacheCreate .x86_64 320 8 = some ⟨320, 8, 12, 3⟩ := by decide
  obtain ⟨pg, st', ran, placed, count, -, -, apart, -⟩ :=
    slab_layout (by decide) ⟨3, by decide, rfl⟩ created
      (show { State.fresh with colourNext := 3 }.colourNext ≤ 3 from le_refl 3)
      (show Frame .x86_64 0xFFFF800000000000 by decide)
  exact ⟨pg, st', created, ran, placed, count, apart⟩

end Jlos.Slab
