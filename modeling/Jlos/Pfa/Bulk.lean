import Jlos.Pfa.Percpu

/-!
# Runs of frames

`alloc_n` and `free_n`. A served request takes one block, gives its tail back and reserves the rest.
`free_n` gives the frames that lost their last reference back run by run.
-/
namespace Jlos.Pfa

open Lib List Bitmap

variable {s : State} {loc : Nat → Loc} {n f : Nat}

/-! ### Rounding up to an order -/

theorem bitLength_le_iff (fuel : Nat) : ∀ (v k : Nat), v < 2 ^ fuel → (bitLength fuel v ≤ k ↔ v < 2 ^ k) := by
  induction fuel with
  | zero =>
    intro v k lt
    have zero : v = 0 := by omega
    simp [bitLength, zero]
  | succ fuel ih =>
    intro v k lt
    by_cases zero : v = 0
    · simp [bitLength, zero]
    · have half : v >>> 1 = v / 2 := by simp [Nat.shiftRight_eq_div_pow]
      have below : v / 2 < 2 ^ fuel := by
        omega
      simp only [bitLength, if_neg zero, half]
      cases k with
      | zero =>
        omega
      | succ k =>
        rw [Nat.add_le_add_iff_right, ih (v / 2) k below, two_mul_pow]
        omega

theorem framesToOrder_le_iff (wide : n ≤ 2 ^ 32) (k : Nat) : framesToOrder n ≤ k ↔ n ≤ 2 ^ k := by
  have pos := Nat.two_pow_pos k
  by_cases small : n ≤ 1
  · simp only [framesToOrder, if_pos small]
    omega
  · rw [framesToOrder, if_neg small, bitLength_le_iff 32 (n - 1) k (by omega)]
    omega

theorem le_two_pow_framesToOrder (wide : n ≤ 2 ^ 32) : n ≤ 2 ^ framesToOrder n :=
  (framesToOrder_le_iff wide _).mp (le_refl _)

theorem framesToOrder_two_pow {o : Nat} (wide : o ≤ 32) : framesToOrder (2 ^ o) = o := by
  have bound : (2 : Nat) ^ o ≤ 2 ^ 32 := Nat.pow_le_pow_right (by omega) wide
  have iff := framesToOrder_le_iff bound
  have up : framesToOrder (2 ^ o) ≤ o := (iff o).mpr (le_refl _)
  have down : o ≤ framesToOrder (2 ^ o) :=
    (Nat.pow_le_pow_iff_right (by omega)).mp ((iff _).mp (le_refl _))
  omega

/-! ### Frames and addresses -/

theorem pfaPhysToFrame_framePhys (h : Represents s loc) (lt : f < s.totalFrames) :
    pfaPhysToFrame s (framePhys s f) = f := by
  have fits := h.in_phys
  simp only [pfaPhysToFrame, framePhys, pageSize] at *
  omega

theorem pfaPhysToFrame_offset (h : Represents s loc) {i : Nat} (lt : f + i < s.totalFrames) :
    pfaPhysToFrame s ((framePhys s f + i * pageSize) % 2 ^ 32) = f + i := by
  have fits := h.in_phys
  simp only [pfaPhysToFrame, framePhys, pageSize] at *
  omega

theorem Represents.totalFrames_le (h : Represents s loc) : s.totalFrames ≤ 2 ^ 20 := by
  have fits := h.in_phys
  simp only [pageSize] at fits
  omega

/-! ### Allocating a run -/

/-- `alloc_n` finds a block for a request of `n` frames. -/
def Served (s : State) (n : Nat) : Prop :=
  n ≠ 0 ∧ n ≤ s.totalFrames ∧ ∃ o, o ≤ maxOrder ∧ framesToOrder n ≤ o ∧ s.freeArea o ≠ []
  deriving Decidable

/-- What `frame_mark_reserve` writes into a descriptor. -/
def Page.reserved (pg : Page) : Page :=
  { pg with occupied := true, refcount := 1, order := orderInvalid, type := .free, ptPresentCount := 0 }

open Page

theorem foldl_markReserve (s : State) (f : Nat) : ∀ n, f + n ≤ s.totalFrames →
    (List.range n).foldl (fun s i => markReserve s (f + i)) s = s.modPages f n reserved := by
  intro n
  induction n with
  | zero => exact fun _ => rfl
  | succ n ih =>
    intro inside
    have below : ¬f + n ≥ (s.modPages f n reserved).totalFrames := by
      rw [modPages_eq]
      simp only
      omega
    rw [range_succ, foldl_append, ih (by omega), modPages_succ]
    simp only [foldl_cons, foldl_nil, markReserve, if_neg below]
    rfl

/-- The bitmap search of `alloc_n` succeeds exactly when some long enough list is not
empty, and then it finds a block. -/
theorem Represents.masked_eq_zero_iff (h : Represents s loc) (t : Nat) :
    s.freeOrderBitmap &&& maskFrom t = 0 ↔ ∀ o, t ≤ o → s.freeArea o = [] := by
  rw [eq_zero_iff]
  refine forall_congr' fun o => ?_
  rw [getLsbD_and_maskFrom, Bool.and_eq_false_iff, decide_eq_false_iff_not, ← Bool.not_eq_true, h.bitmap o, not_not]
  exact or_comm.trans imp_iff_not_or.symm

theorem orderSplit_self (s : State) (f o : Nat) : orderSplit s f o o = .ok s := by
  cases o with
  | zero => rfl
  | succ o => simp [orderSplit, pure, Except.pure]

/-- The descriptors a served request leaves in its run of frames. -/
def Page.runPage (pg : Page) (head : Bool) (order : Nat) : Page :=
  { pg.reserved with order := if head then order else orderInvalid }

/-- Reserving a detached run and writing the order into its head. -/
theorem Represents.reserveRun (h : Represents s loc) {o : Nat} (pos : 0 < n)
    (detached : ∀ i, InRange f n i → loc i = .detached) :
    let s' := (s.modPages f n reserved).modPage f fun pg => { pg with order := o }
    let loc' := relocate loc (InRange f n) .used
    Represents s' loc' ∧ Keeps (InRange f n) s s' loc loc' ∧
      ∀ i, InRange f n i → s'.pages i = (s.pages i).runPage (i = f) o := by
  have pages : (s.modPages f n reserved).modPage f (fun pg => { pg with order := o }) =
      { s with pages := fun i =>
          if InRange f n i then (s.pages i).runPage (i = f) o else s.pages i } := by
    have first : InRange f n f := ⟨le_refl f, by omega⟩
    rw [modPages_eq]
    simp only [State.modPage, State.mk.injEq, true_and, and_true]
    funext i
    obtain rfl | head := eq_or_ne i f
    · simp [first, runPage]
    · by_cases ini : InRange f n i
      · simp [head, ini, runPage, reserved]
      · simp [head, ini]
  simp only [pages]
  refine ⟨h.rewritePages fun i lt => ?_, .of_outside rfl rfl fun i out => ⟨relocate_neg out, if_neg out⟩, ?_⟩
  · by_cases ini : InRange f n i
    · right
      simp only [relocate_pos ini, if_pos ini, detached i ini]
      exact ⟨rfl, rfl, rfl, one_pos⟩
    · left
      simp [relocate_neg ini, if_neg ini]
  · intro i ini
    simp [if_pos ini]

theorem pageFrameAllocN_refused (h : Represents s loc) (refused : ¬Served s n) :
    pageFrameAllocN s n = .ok (none, s) := by
  by_cases range : n = 0 ∨ n > s.totalFrames
  · simp only [pageFrameAllocN, if_pos range]
    rfl
  · have masked : s.freeOrderBitmap &&& maskFrom (framesToOrder n) = 0 := by
      rw [h.masked_eq_zero_iff]
      intro o le
      by_contra nonempty
      obtain ⟨f, member⟩ := exists_mem_of_ne_nil _ nonempty
      exact refused ⟨by omega, by omega, o, h.order_le member, le, nonempty⟩
    simp only [pageFrameAllocN, if_neg range, masked, if_true]
    rfl

/-- A served request hands out a run and puts the counter ahead by the length of the tail
it gave back. -/
theorem pageFrameAllocN_served (h : Represents s loc) (served : Served s n) :
    ∃ f s' loc', pageFrameAllocN s n = .ok (some (framePhys s f), s') ∧
      HandsOut s s' loc loc' f n (framesToOrder n) ∧ n ≤ 2 ^ framesToOrder n ∧
      framesToOrder n ≤ maxOrder ∧
      s'.drift = s.drift + BitVec.ofNat 32 (2 ^ framesToOrder n - n) := by
  obtain ⟨nonzero, fits, o, -, le, nonempty⟩ := served
  have total := h.totalFrames_le
  have range : ¬(n = 0 ∨ n > s.totalFrames) := by omega
  have room : n ≤ 2 ^ framesToOrder n := le_two_pow_framesToOrder (by omega)
  generalize ht : framesToOrder n = t at le room
  have masked : s.freeOrderBitmap &&& maskFrom t ≠ 0 :=
    fun zero => nonempty ((h.masked_eq_zero_iff t).mp zero o le)
  have found := lowest_set _ masked
  generalize hlow : lowest (s.freeOrderBitmap &&& maskFrom t) = low at found
  rw [getLsbD_and_maskFrom, Bool.and_eq_true, decide_eq_true_eq] at found
  obtain ⟨f, first, member⟩ := h.firstFree_eq found.1
  obtain ⟨s₁, loc₁, removed, split, tk⟩ := take_spec h member found.2
  have splitIf : (if low > t then orderSplit (s.unlink f low) f low t else pure (s.unlink f low)) =
      .ok s₁ := by
    by_cases longer : low > t
    · rw [if_pos longer, split]
    · obtain rfl : low = t := by omega
      rw [if_neg longer, ← split, orderSplit_self]
      rfl
  have inside := tk.taken.inside
  have orderLe := tk.taken.order_le
  have small : 2 ^ t ≤ freeNMax := Nat.pow_le_pow_right (n := 2) (by omega) orderLe
  have block : ∀ i, InBlock f t i ↔ InRange f n i ∨ InRange (f + n) (2 ^ t - n) i :=
    inBlock_trim room
  -- the tail goes back to the free area
  obtain ⟨s₂, loc₂, trim, p, on⟩ : ∃ s₂ loc₂,
    (if 2 ^ t - n ≠ 0 then buddyFreeRange s₁ (f + n) (2 ^ t - n) else pure s₁) =
      .ok s₂ ∧ Preserves (InRange (f + n) (2 ^ t - n)) s₁ s₂ loc₁ loc₂ ∧
      ∀ i, InRange (f + n) (2 ^ t - n) i → (loc₂ i).listed = true := by
    by_cases exact : 2 ^ t - n ≠ 0
    · rw [if_pos exact]
      obtain ⟨s₂, loc₂, run, p, on⟩ := buddyFreeRange_spec tk.represents (by omega) (by omega)
        fun i ini => .inr (tk.taken.detached i ((block i).mpr (.inr ini)))
      exact ⟨s₂, loc₂, run, p, on⟩
    · rw [if_neg exact]
      refine ⟨s₁, loc₁, rfl, Preserves.refl _ tk.represents, fun i ini => ?_⟩
      simp only [InRange] at ini
      omega
  have run : ∀ i, InRange f n i → loc₂ i = .detached := by
    intro i ini
    have was := tk.taken.detached i ((block i).mpr (.inl ini))
    have out : ¬InRange (f + n) (2 ^ t - n) i := fun tail => by
      simp only [InRange] at ini tail
      omega
    rw [(p.unlisted i out (by rw [was]; rfl)).1, was]
  obtain ⟨h₃, keeps₃, pages₃⟩ := p.represents.reserveRun (f := f) (n := n) (o := t) (by omega) run
  refine ⟨f, { (s₂.modPages f n reserved).modPage f (fun pg => { pg with order := t }) with
      freeFrames := s₂.freeFrames - BitVec.ofNat 32 n }, relocate loc₂ (InRange f n) .used,
    ?_, ⟨?_, h₃.setFreeFrames _, ?_, ?_, fun i ini => relocate_pos ini, ?_⟩, room, orderLe, ?_⟩
  · have marked := foldl_markReserve s₂ f n (by rw [p.total]; omega)
    simp only [pageFrameAllocN, if_neg range, ht, if_neg masked, hlow, first, removed, ok_bind,
      splitIf, orderToFrames, trim, marked]
    rw [modPages_eq]
    simp [pure, Except.pure, framePhys, State.modPage, p.start, tk.start]
  · have whole := tk.toKeeps.trans (p.toKeeps.mono fun i ini => (block i).mpr (.inr ini))
    have run : Keeps (InRange f n) s s₂ loc loc₂ := by
      refine whole.shrink (fun i ini _ => tk.free i ini) (fun i ini out => ?_)
      exact on i (((block i).mp ini).resolve_left out)
    exact (run.trans keeps₃).setFreeFrames _
  · rw [← tk.total]
    omega
  · exact fun i ini => tk.free i ((block i).mpr (.inl ini))
  · intro i ini
    have page := pages₃ i ini
    refine ⟨congrArg refcount page, congrArg type page, (congrArg order page).trans ?_⟩
    simp [runPage]
  · have size : BitVec.ofNat 32 (2 ^ t) = BitVec.ofNat 32 (2 ^ t - n) + BitVec.ofNat 32 n := by
      rw [← BitVec.ofNat_add, Nat.sub_add_cancel room]
    have same : State.drift ((s₂.modPages f n reserved).modPage f fun pg => { pg with order := t }) =
        s₂.drift := by
      rw [modPages_eq]
      rfl
    rw [drift_setFreeFrames, same, p.drift, tk.drift, size, modPages_eq]
    simp only [State.modPage]
    ring

/-! ### Freeing a run -/

/-- A descriptor that lost one reference. -/
def Page.dropped (pg : Page) : Page := { pg with refcount := pg.refcount - 1 }

/-- The first loop of `free_n` over live frames: every frame loses one reference, and those
whose last one it was are collected in order. -/
theorem dropRange_eq (phys f : Nat) : ∀ (offsets frames : List Nat) (s : State), offsets.Nodup →
    (∀ i ∈ offsets, pfaPhysToFrame s ((phys + i * pageSize) % 2 ^ 32) = f + i ∧
      f + i < s.totalFrames ∧ 0 < (s.pages (f + i)).refcount) → frames.length + offsets.length ≤ freeNMax →
    dropRange s phys offsets frames = .ok
      ({ s with pages := fun k =>
          if k ∈ offsets.map (f + ·) then (s.pages k).dropped else s.pages k },
        frames ++ (offsets.filter fun i => (s.pages (f + i)).refcount = 1).map (f + ·)) := by
  intro offsets
  induction offsets with
  | nil =>
    intro frames s _ _ _
    simp [dropRange, pure, Except.pure]
  | cons i rest ih =>
    intro frames s nodup live room
    obtain ⟨fresh, nodup⟩ := nodup_cons.mp nodup
    obtain ⟨frame, lt, pos⟩ := live i mem_cons_self
    have other : ∀ j ∈ rest, (s.modPage (f + i) dropped).pages (f + j) = s.pages (f + j) := by
      intro j member
      have ne : f + j ≠ f + i := fun eq => fresh ((add_left_cancel eq) ▸ member)
      exact Function.update_of_ne ne _ _
    have next := fun frames' => ih frames' (s.modPage (f + i) dropped) nodup (by
      intro j member
      rw [other j member]
      exact live j (mem_cons_of_mem i member))
    have pages : (fun k => if k ∈ rest.map (f + ·) then
          ((s.modPage (f + i) dropped).pages k).dropped
        else (s.modPage (f + i) dropped).pages k) =
        fun k => if k ∈ (i :: rest).map (f + ·) then (s.pages k).dropped else s.pages k := by
      funext k
      obtain rfl | here := eq_or_ne k (f + i)
      · simp [fresh, State.modPage]
      · simp [here, State.modPage]
    have kept : (rest.filter fun j =>
          decide (((s.modPage (f + i) dropped).pages (f + j)).refcount = 1)) =
        rest.filter fun j => decide ((s.pages (f + j)).refcount = 1) :=
      filter_congr fun j member => by rw [other j member]
    rw [pages, kept] at next
    have reach : ¬f + i ≥ s.totalFrames := by omega
    have dead : ¬(s.pages (f + i)).refcount = 0 := by omega
    rw [length_cons] at room
    by_cases last : (s.pages (f + i)).refcount = 1
    · -- the frame lost its last reference and joins the list
      have space : ¬frames.length = freeNMax := by omega
      have run := next (frames ++ [f + i]) (by
        rw [length_append, length_singleton]
        omega)
      simp only [dropRange, frame, if_neg reach, if_neg dead, if_pos last, if_neg space]
      refine run.trans ?_
      simp [last, State.modPage]
    · have run := next frames (by omega)
      simp only [dropRange, frame, if_neg reach, if_neg dead, if_neg last]
      refine run.trans ?_
      simp [last, State.modPage]

theorem inRun_one {start k : Nat} {rest : List Nat} : InRange start 1 k ∨ k ∈ rest ↔ k ∈ start :: rest := by
  rw [inRange_one, mem_cons]

/-- The last loop of `free_n`: a strictly increasing list of dropped frames is freed run by
run, the run in hand included. -/
theorem freeRuns_spec : ∀ (rest : List Nat) (start len : Nat) {s : State} {loc : Nat → Loc}, Represents s loc →
    (∀ k, InRange start len k ∨ k ∈ rest → k < s.totalFrames ∧ loc k = .dropped) → (∀ k ∈ rest, start + len ≤ k) →
    rest.Pairwise (· < ·) → 0 < len → len + rest.length ≤ freeNMax → ∃ s' loc', freeRuns s start len rest = .ok s' ∧
      Preserves (fun k => InRange start len k ∨ k ∈ rest) s s' loc loc' ∧
      ∀ k, InRange start len k ∨ k ∈ rest → (loc' k).listed = true := by
  intro rest
  induction rest with
  | nil =>
    intro start len s loc h dropped _ _ pos small
    rw [length_nil, add_zero] at small
    have last := (dropped (start + len - 1) (.inl ⟨by omega, by omega⟩)).1
    obtain ⟨s', loc', freed, p, on⟩ := buddyFreeRange_spec h small (by omega) fun k ini => .inl (dropped k (.inl ini)).2
    simp only [not_mem_nil, or_false]
    exact ⟨s', loc', freed, p, on⟩
  | cons frame rest ih =>
    intro start len s loc h dropped far sorted pos small
    obtain ⟨above, sorted⟩ := pairwise_cons.mp sorted
    rw [length_cons] at small
    by_cases adjacent : frame = start + len
    · -- the run in hand grows by one frame
      have same : ∀ k, (InRange start (len + 1) k ∨ k ∈ rest) ↔ (InRange start len k ∨ k ∈ frame :: rest) := by
        intro k
        have grown : InRange start (len + 1) k ↔ InRange start len k ∨ k = frame := by
          simp only [InRange]
          omega
        rw [grown, mem_cons, or_assoc]
      obtain ⟨s', loc', freed, p, on⟩ := ih start (len + 1) h (fun k ini => dropped k ((same k).mp ini))
        (fun k member => by have := above k member; omega) sorted (by omega) (by omega)
      simp only [same] at p on
      refine ⟨s', loc', ?_, p, on⟩
      simp only [freeRuns, if_pos adjacent]
      exact freed
    · -- a gap: the run in hand is freed and a new one starts
      have last := (dropped (start + len - 1) (.inl ⟨by omega, by omega⟩)).1
      obtain ⟨s₁, loc₁, freed₁, p₁, on₁⟩ := buddyFreeRange_spec h (by omega) (by omega)
        fun k ini => .inl (dropped k (.inl ini)).2
      have dropped₁ : ∀ k ∈ frame :: rest, k < s₁.totalFrames ∧ loc₁ k = .dropped := by
        intro k member
        obtain ⟨below, was⟩ := dropped k (.inr member)
        have out : ¬InRange start len k := fun ini => absurd ini.2 (Nat.not_lt.mpr (far k member))
        exact ⟨p₁.total ▸ below, (p₁.unlisted k out (by rw [was]; rfl)).1.trans was⟩
      obtain ⟨s', loc', freed, p, on⟩ := ih frame 1 p₁.represents (fun k ini => dropped₁ k (inRun_one.mp ini)) above
        sorted one_pos (by omega)
      simp only [inRun_one] at p on
      refine ⟨s', loc', ?_, (p₁.mono fun _ => .inl).trans (p.mono fun _ => .inr), fun k ini => ?_⟩
      · simp only [freeRuns, if_neg adjacent, freed₁]
        exact freed
      · by_cases later : k ∈ frame :: rest
        · exact on k later
        · exact p.listed k later (on₁ k (ini.resolve_right later))

/-- The state after the first loop of `free_n`. -/
def State.dropRun (s : State) (f n : Nat) : State :=
  { s with pages := fun k => if InRange f n k then (s.pages k).dropped else s.pages k }

/-- The frames of a run that hold their last reference, in order. -/
def lastRefs (s : State) (f n : Nat) : List Nat :=
  ((List.range n).filter fun i => (s.pages (f + i)).refcount = 1).map (f + ·)

theorem mem_map_range (f n k : Nat) : k ∈ (List.range n).map (f + ·) ↔ InRange f n k := by
  rw [← range'_eq_map_range]
  exact mem_range'_1

theorem mem_lastRefs (s : State) (f n k : Nat) : k ∈ lastRefs s f n ↔ InRange f n k ∧ (s.pages k).refcount = 1 := by
  rw [← mem_map_range]
  simp only [lastRefs, mem_map, mem_filter, decide_eq_true_eq]
  constructor
  · rintro ⟨i, ⟨member, one⟩, rfl⟩
    exact ⟨⟨i, member, rfl⟩, one⟩
  · rintro ⟨⟨i, member, rfl⟩, one⟩
    exact ⟨i, ⟨member, one⟩, rfl⟩

theorem lastRefs_sorted (s : State) (f n : Nat) : (lastRefs s f n).Pairwise (· < ·) := by
  rw [lastRefs, pairwise_map]
  exact (pairwise_lt_range.filter _).imp fun lt => by omega

theorem lastRefs_length (s : State) (f n : Nat) : (lastRefs s f n).length ≤ n := by
  rw [lastRefs, length_map]
  exact (length_filter_le _ _).trans_eq length_range

section run

variable {f n : Nat} (h : Represents s loc)
  (live : ∀ i, InRange f n i → i < s.totalFrames ∧ loc i = .used)

include h live

theorem dropRange_run (small : n ≤ freeNMax) :
    dropRange s (framePhys s f) (List.range n) [] = .ok (s.dropRun f n, lastRefs s f n) := by
  have reach : ∀ i ∈ List.range n, pfaPhysToFrame s ((framePhys s f + i * pageSize) % 2 ^ 32) = f + i ∧
      f + i < s.totalFrames ∧ 0 < (s.pages (f + i)).refcount := by
    intro i member
    obtain ⟨lt, used⟩ := live (f + i) ((mem_map_range f n _).mp (mem_map_of_mem member))
    have ok := h.page _ lt
    rw [used] at ok
    exact ⟨pfaPhysToFrame_offset h lt, lt, ok.2⟩
  have run := dropRange_eq (framePhys s f) f (List.range n) [] s nodup_range reach
    (by simpa using small)
  simp only [mem_map_range, nil_append] at run
  exact run

theorem Represents.dropRun : Represents (s.dropRun f n) (relocate loc (· ∈ lastRefs s f n) .dropped) := by
  refine h.rewritePages fun i lt => ?_
  by_cases ini : InRange f n i
  · right
    have used := (live i ini).2
    have ok := h.page i lt
    rw [used] at ok
    obtain ⟨occupied, pos⟩ := ok
    by_cases last : i ∈ lastRefs s f n
    · have one := ((mem_lastRefs s f n i).mp last).2
      simp only [relocate_pos last, if_pos ini, used]
      exact ⟨rfl, rfl, occupied, by simp [dropped, one]⟩
    · have many : (s.pages i).refcount ≠ 1 := fun one => last ((mem_lastRefs s f n i).mpr ⟨ini, one⟩)
      simp only [relocate_neg last, if_pos ini, used]
      exact ⟨rfl, rfl, occupied, by simp only [dropped]; omega⟩
  · left
    have absent : i ∉ lastRefs s f n := fun member => ini ((mem_lastRefs s f n i).mp member).1
    simp [relocate_neg absent, if_neg ini]

end run

theorem Keeps.of_dropRun : Keeps (InRange f n) s (s.dropRun f n) loc (relocate loc (· ∈ lastRefs s f n) .dropped) := by
  have absent : ∀ i, ¬InRange f n i → i ∉ lastRefs s f n :=
    fun i out member => out ((mem_lastRefs s f n i).mp member).1
  exact of_outside rfl rfl fun i out => ⟨relocate_neg (absent i out), if_neg out⟩

/-- The second half of `free_n` gives the collected frames back. -/
theorem freeRuns_sorted {frames : List Nat} (h : Represents s loc)
    (dropped : ∀ k ∈ frames, k < s.totalFrames ∧ loc k = .dropped)
    (sorted : frames.Pairwise (· < ·)) (small : frames.length ≤ freeNMax) (some : frames ≠ []) :
    ∃ s' loc', (match frames.insertionSort (· ≤ ·) with
        | [] => throw .wildPointer
        | start :: rest => freeRuns s start 1 rest : M State) = .ok s' ∧
      Preserves (· ∈ frames) s s' loc loc' ∧ ∀ k ∈ frames, (loc' k).listed = true := by
  have already : frames.insertionSort (· ≤ ·) = frames :=
    (sorted.imp fun lt => le_of_lt lt).insertionSort_eq
  rw [already]
  cases frames with
  | nil => exact absurd rfl some
  | cons start rest =>
    obtain ⟨above, sorted⟩ := pairwise_cons.mp sorted
    rw [length_cons] at small
    obtain ⟨s', loc', run, p, on⟩ := freeRuns_spec rest start 1 h (fun k ini => dropped k (inRun_one.mp ini)) above
      sorted one_pos (by omega)
    simp only [inRun_one] at p on
    exact ⟨s', loc', run, p, on⟩

/-- `free_n` on a run of live frames whose head does not claim to be shorter: every frame
loses one reference, and those that lose the last one become free. -/
theorem pageFrameFreeN_spec (h : Represents s loc)
    (live : ∀ i, InRange f n i → i < s.totalFrames ∧ loc i = .used) (small : n ≤ freeNMax)
    (head : 0 < n → (s.pages f).order = orderInvalid ∨ n ≤ 2 ^ (s.pages f).order) :
    ∃ s' loc', pageFrameFreeN s (framePhys s f) n = .ok s' ∧
      Preserves (InRange f n) s s' loc loc' ∧
      ∀ i, InRange f n i → if (s.pages i).refcount = 1 then (loc' i).listed = true
        else loc' i = .used ∧ s'.pages i = (s.pages i).dropped := by
  have drop := dropRange_run h live small
  have h₁ := h.dropRun live
  have member := mem_lastRefs s f n
  have used₁ : ∀ i, InRange f n i → (s.pages i).refcount ≠ 1 →
      relocate loc (· ∈ lastRefs s f n) .dropped i = .used ∧
        (s.dropRun f n).pages i = (s.pages i).dropped := by
    intro i ini many
    rw [relocate_neg fun last => many ((member i).mp last).2]
    exact ⟨(live i ini).2, if_pos ini⟩
  by_cases none : lastRefs s f n = []
  · refine ⟨_, _, ?_, ⟨Keeps.of_dropRun, h₁, rfl⟩, fun i ini => ?_⟩
    · simp only [pageFrameFreeN, drop, ok_bind, none, if_true]
      rfl
    · have many : (s.pages i).refcount ≠ 1 := fun one => by
        have last := (member i).mpr ⟨ini, one⟩
        rw [none] at last
        exact not_mem_nil last
      rw [if_neg many]
      exact used₁ i ini many
  · have pos : 0 < n := by
      by_contra zero
      have length := lastRefs_length s f n
      exact none (eq_nil_of_length_eq_zero (by omega))
    have first : InRange f n f := ⟨le_refl f, by omega⟩
    have order : ((s.dropRun f n).pages f).order = (s.pages f).order := by
      simp [State.dropRun, if_pos first, dropped]
    -- The check of the order of the first frame lets the call pass.
    have pass : ¬(pfaPhysToFrame s (framePhys s f) < (s.dropRun f n).totalFrames ∧
        ((s.dropRun f n).pages (pfaPhysToFrame s (framePhys s f))).order ≠ orderInvalid ∧
        orderToFrames ((s.dropRun f n).pages (pfaPhysToFrame s (framePhys s f))).order < n) := by
      rw [pfaPhysToFrame_framePhys h (live f first).1, order, orderToFrames]
      rintro ⟨-, valid, short⟩
      rcases head pos with invalid | long
      · exact valid invalid
      · omega
    obtain ⟨s', loc', run, p, on⟩ := freeRuns_sorted h₁
      (fun k last => ⟨(live k ((member k).mp last).1).1, relocate_pos last⟩)
      (lastRefs_sorted s f n) ((lastRefs_length s f n).trans small) none
    refine ⟨s', loc', ?_, ⟨?_, p.represents, p.drift⟩, fun i ini => ?_⟩
    · simp only [pageFrameFreeN, drop, ok_bind, if_neg none, if_neg pass]
      exact run
    · exact Keeps.of_dropRun.trans (p.toKeeps.mono fun k last => ((member k).mp last).1)
    · by_cases one : (s.pages i).refcount = 1
      · rw [if_pos one]
        exact on i ((member i).mpr ⟨ini, one⟩)
      · rw [if_neg one]
        obtain ⟨was, page⟩ := used₁ i ini one
        obtain ⟨same, page'⟩ := p.unlisted i (fun last => one ((member i).mp last).2) (by rw [was]; rfl)
        exact ⟨same.trans was, page'.trans page⟩

end Jlos.Pfa
