import Jlos.Pfa.Bulk

/-!
# Initialisation

For every memory size, reserved map and content of the descriptor memory, the initialisation ends
without a halt in a state where every frame has one location and the counter is right.
-/
namespace Jlos.Pfa

open Lib List Keeps

/-- What the loader and the device code provide: a memory range below 4 GB, and a boot
table, if there is one, inside the kernel image. -/
structure Boot.Sane (b : Boot) : Prop where
  word : 32 ≤ b.wordBits
  ordered : b.physStart ≤ b.physEnd
  narrow : b.physEnd < 2 ^ 32
  table : ∀ phys, b.bootTable = some phys → phys + pageSize ≤ b.kernelEndPhys
  image : b.kernelEndPhys < 2 ^ 32

variable {b : Boot} {s : State} {loc : Nat → Loc}

theorem Boot.framesBelow_eq (sane : b.Sane) {addr : Nat} (above : b.physStart ≤ addr)
    (narrow : addr < 2 ^ 32) : b.framesBelow addr = (addr - b.physStart) / pageSize := by
  have wide : 2 ^ 32 ≤ 2 ^ b.wordBits := Nat.pow_le_pow_right (by omega) sane.word
  have sub : (addr + 2 ^ b.wordBits - b.physStart) % 2 ^ b.wordBits = addr - b.physStart := by
    rw [show addr + 2 ^ b.wordBits - b.physStart = addr - b.physStart + 2 ^ b.wordBits by omega,
      Nat.add_mod_right, Nat.mod_eq_of_lt (by omega)]
  rw [Boot.framesBelow, sub, pageSize]
  omega

/-! ### Reserving -/

/-- Before the free lists are built a frame is reserved or vacant. -/
def bootLoc (s : State) (i : Nat) : Loc := if (s.pages i).occupied then .used else .detached

/-- The state while initialisation reserves frames: no list holds anything, and the
frames of the kernel image are reserved. -/
structure Booting (b : Boot) (s : State) : Prop where
  total : s.totalFrames = b.totalFrames
  start : s.startAddr = b.physStart
  area : ∀ o, s.freeArea o = []
  bitmap : s.freeOrderBitmap = 0
  percpu : ∀ c, s.percpu c = ⟨[], 0⟩
  page : ∀ i, i < s.totalFrames → (bootLoc s i).PageOk i (s.pages i)
  blank : ∀ i, i < s.totalFrames → (s.pages i).order = orderInvalid ∧ (s.pages i).type = .free
  image : ∀ i, i < b.framesBelow b.kernelEndPhys → i < s.totalFrames → (s.pages i).occupied = true

theorem Booting.represents (sane : b.Sane) (h : Booting b s) : Represents s (bootLoc s) := by
  have off : ∀ i, (bootLoc s i).listed = false := by
    intro i
    simp only [bootLoc]
    split <;> rfl
  have empty : ∀ {f o}, f ∉ s.freeArea o := by
    intro f o member
    rw [h.area o] at member
    exact not_mem_nil member
  -- Nothing is listed yet, so most clauses are about empty lists.
  constructor
  · rw [h.total, h.start, Boot.totalFrames, Boot.framesBelow_eq sane sane.ordered sane.narrow]
    have narrow := sane.narrow
    have ordered := sane.ordered
    simp only [pageSize]
    omega
  · exact fun member => absurd member empty
  · exact fun member => absurd member empty
  · exact fun member => absurd member empty
  · exact fun member => absurd member empty
  · intro f o i _ hl
    have on := off i
    rw [hl] at on
    cases on
  · intro o
    rw [h.area o]
    exact nodup_nil
  · intro o
    simp [h.bitmap, h.area o]
  · intro c f
    rw [h.percpu c]
    constructor
    · exact fun member => absurd member not_mem_nil
    · rintro ⟨-, hl⟩
      have on := off f
      rw [hl] at on
      cases on
  · intro c
    rw [h.percpu c]
    exact nodup_nil
  · intro c
    rw [h.percpu c]
    rfl
  · exact h.page

/-- Rewriting one descriptor keeps the booting state if the new descriptor is a reserved
one, or a vacant one outside the kernel image. -/
theorem Booting.modPage (h : Booting b s) {f : Nat} {g : Page → Page} (blank : f < s.totalFrames →
      (g (s.pages f)).order = orderInvalid ∧ (g (s.pages f)).type = .free)
    (ok : f < s.totalFrames → (g (s.pages f)).occupied = true ∧ 0 < (g (s.pages f)).refcount ∨
      b.framesBelow b.kernelEndPhys ≤ f ∧ (g (s.pages f)).Vacant orderInvalid) : Booting b (s.modPage f g) := by
  refine ⟨h.total, h.start, h.area, h.bitmap, h.percpu, fun i lt => ?_, fun i lt => ?_, fun i below lt => ?_⟩
  · obtain rfl | eq := eq_or_ne i f
    · rcases ok lt with ⟨occupied, counted⟩ | ⟨-, vacant⟩
      · simp only [bootLoc, State.modPage, Function.update_self, occupied, if_true]
        exact ⟨occupied, counted⟩
      · have free := vacant.1
        simp only [bootLoc, State.modPage, Function.update_self, free]
        exact vacant
    · simpa only [bootLoc, State.modPage, Function.update_of_ne eq] using h.page i lt
  · obtain rfl | eq := eq_or_ne i f
    · simpa only [State.modPage, Function.update_self] using blank lt
    · simpa only [State.modPage, Function.update_of_ne eq] using h.blank i lt
  · obtain rfl | eq := eq_or_ne i f
    · rcases ok lt with ⟨occupied, -⟩ | ⟨above, -⟩
      · simpa only [State.modPage, Function.update_self] using occupied
      · omega
    · simpa only [State.modPage, Function.update_of_ne eq] using h.image i below lt

theorem Booting.markReserve (h : Booting b s) (i : Nat) : Booting b (markReserve s i) := by
  unfold Pfa.markReserve
  split
  · exact h
  · exact h.modPage (fun _ => ⟨rfl, rfl⟩) fun _ => .inl ⟨rfl, one_pos⟩

theorem Booting.markRecycle (h : Booting b s) {i : Nat} (above : b.framesBelow b.kernelEndPhys ≤ i) :
    Booting b (markRecycle s i) := by
  unfold Pfa.markRecycle
  split
  · exact h
  · exact h.modPage (fun lt => ⟨rfl, (h.blank i lt).2⟩) fun lt => .inr ⟨above, rfl, rfl, (h.blank i lt).2, rfl⟩

/-- `frame_mark_occupied` reserves; the free lists are still empty, so it removes nothing. -/
theorem Booting.markOccupied (h : Booting b s) (physStart physEnd : Nat) :
    ∃ s', markOccupied s physStart physEnd = .ok s' ∧ Booting b s' := by
  have total := h.total
  unfold Pfa.markOccupied
  split
  · exact ⟨s, rfl, h⟩
  simp only
  split
  · exact ⟨s, rfl, h⟩
  next reach =>
    refine foldlM_ok _ (fun i member t ht => ?_) s h
    have lt : i < t.totalFrames := by
      have bound := (mem_range'_1.mp member).2
      rw [ht.total, ← total]
      split at bound <;> omega
    by_cases occupied : (t.pages i).occupied = true
    · exact ⟨t, by simp only [occupied, if_true]; rfl, ht⟩
    · refine ⟨Pfa.markReserve t i, ?_, ht.markReserve i⟩
      simp only [if_neg occupied, (ht.blank i lt).1, ne_eq, not_true_eq_false, if_false]
      rfl

theorem Booting.markBootMem (h : Booting b s) (m : BootMem) : ∃ s', markBootMem b s m = .ok s' ∧ Booting b s' := by
  unfold Pfa.markBootMem
  split
  · exact ⟨s, rfl, h⟩
  · simp only
    split
    · exact ⟨s, rfl, h⟩
    · generalize (if m.addr < b.physStart then b.physStart else m.addr % 2 ^ 32) = s32
      generalize (if (m.addr + m.size) % 2 ^ 64 > b.physEnd then b.physEnd
        else (m.addr + m.size) % 2 ^ 64 % 2 ^ 32) = e32
      split
      · exact h.markOccupied s32 e32
      · exact ⟨s, rfl, h⟩

/-- The first loop: the frames of the kernel image. -/
theorem booting_image (b : Boot) :
    Booting b ((List.range (min (b.framesBelow b.kernelEndPhys) (initState b).totalFrames)).foldl
      markReserve (initState b)) := by
  have run := foldl_markReserve (initState b) 0
    (min (b.framesBelow b.kernelEndPhys) (initState b).totalFrames) (by omega)
  simp only [zero_add] at run
  rw [run, modPages_eq]
  generalize hn : min (b.framesBelow b.kernelEndPhys) (initState b).totalFrames = n
  refine ⟨rfl, rfl, fun _ => rfl, rfl, fun _ => rfl, fun i lt => ?_, fun i lt => ?_, fun i below lt => ?_⟩
  · by_cases ini : InRange 0 n i
    · simp only [bootLoc, if_pos ini, Page.reserved, if_true]
      exact ⟨rfl, one_pos⟩
    · simp only [bootLoc, if_neg ini, initState]
      exact ⟨rfl, rfl, rfl, rfl⟩
  · by_cases ini : InRange 0 n i
    · simp only [if_pos ini]
      exact ⟨rfl, rfl⟩
    · simp only [if_neg ini]
      exact ⟨rfl, rfl⟩
  · have ini : InRange 0 n i := ⟨Nat.zero_le i, by simp only at lt; omega⟩
    simp only [if_pos ini]
    rfl

theorem initReserved_spec (b : Boot) : ∃ s, initReserved b = .ok s ∧ Booting b s := by
  have h₁ := booting_image b
  unfold initReserved
  simp only
  generalize (List.range (min (b.framesBelow b.kernelEndPhys) (initState b).totalFrames)).foldl
    markReserve (initState b) = s₁ at h₁
  -- boot frames above the image are recycled, what the boot allocator took is reserved again
  have h₂ := List.foldlRecOn (motive := Booting b) (List.range' (b.framesBelow b.kernelEndPhys)
      (min (b.framesBelow b.bootEndPhys) s₁.totalFrames - b.framesBelow b.kernelEndPhys)) markRecycle h₁
    fun s h i member => h.markRecycle (mem_range'_1.mp member).1
  generalize (List.range' (b.framesBelow b.kernelEndPhys)
      (min (b.framesBelow b.bootEndPhys) s₁.totalFrames - b.framesBelow b.kernelEndPhys)).foldl
    markRecycle s₁ = s₂ at h₂
  have h₃ := fun l => List.foldlRecOn (motive := Booting b) l markReserve h₂ fun s h i _ => h.markReserve i
  generalize hs₃ : (List.range' (b.framesBelow b.kernelEndPhys) _).foldl markReserve s₂ = s₃
  replace h₃ : Booting b s₃ := hs₃ ▸ h₃ _
  have below : ∃ s₄, (if b.physStart > 0 then markOccupied s₃ 0 b.physStart else pure s₃) = .ok s₄ ∧ Booting b s₄ := by
    split
    · exact h₃.markOccupied _ _
    · exact ⟨s₃, rfl, h₃⟩
  obtain ⟨s₄, run, h₄⟩ := below
  rw [run]
  exact foldlM_ok b.mem (fun m _ s h => h.markBootMem m) s₄ h₄

/-! ### Building the free lists -/

/-- Every frame is in use or in some list. -/
def Settled (s : State) (loc : Nat → Loc) : Prop :=
  ∀ i, i < s.totalFrames → loc i = .used ∨ (loc i).listed = true

/-- The state `t` of the insertion loop, started in `s`, when it comes to frame `k`. -/
structure Inserting (s t : State) (loc : Nat → Loc) (k : Nat) : Prop
    extends Keeps (fun i => bootLoc s i = .detached) s t (bootLoc s) loc where
  represents : Represents t loc
  ahead : ∀ i, k ≤ i → loc i = bootLoc s i
  done : ∀ i, i < k → bootLoc s i = .detached → (loc i).listed = true

theorem Inserting.step {t : State} {k : Nat} (h : Inserting s t loc k) (lt : k < s.totalFrames) :
    ∃ t' loc', initInsertFrame t k = .ok t' ∧ Inserting s t' loc' (k + 1) := by
  have inside : k + 2 ^ 0 ≤ t.totalFrames := by
    rw [h.total]
    exact lt
  have here := h.ahead k (le_refl k)
  have ok := h.represents.page k inside
  by_cases occupied : (s.pages k).occupied = true
  · -- a reserved frame is passed over
    have used : bootLoc s k = .used := if_pos occupied
    rw [here, used] at ok
    refine ⟨t, loc, ?_, h.toKeeps, h.represents, fun i le => h.ahead i (by omega), fun i lt' vacant => ?_⟩
    · simp only [initInsertFrame, ok.1, not_true_eq_false, false_and, if_false]
      rfl
    · rcases Nat.lt_succ_iff_lt_or_eq.mp lt' with before | rfl
      · exact h.done i before vacant
      · exact Loc.noConfusion (used.symm.trans vacant)
  · have vacant : bootLoc s k = .detached := if_neg occupied
    rw [here, vacant] at ok
    have d : Detached t loc k 0 := by
      refine ⟨Nat.zero_le _, Nat.one_dvd k, inside, fun i ini => ?_⟩
      rw [(inBlock_zero k i).mp ini, here, vacant]
    obtain ⟨inserted, represents⟩ := d.insert h.represents
    have outside : ∀ i, i ≠ k → ¬InBlock k 0 i := fun i ne ini => ne ((inBlock_zero k i).mp ini)
    refine ⟨_, _, ?_, ?_, represents, fun i le => ?_, fun i lt' was => ?_⟩
    · have free : ¬(t.pages k).occupied = true ∧ (t.pages k).order = orderInvalid := ⟨by simp [ok.1], ok.2.2.2⟩
      rw [initInsertFrame, if_pos free, inserted]
    · refine h.toKeeps.trans (of_link.mono fun i ini => ?_)
      rw [(inBlock_zero k i).mp ini, vacant]
    · rw [relocate_neg (outside i (by omega))]
      exact h.ahead i (by omega)
    · rcases Nat.lt_succ_iff_lt_or_eq.mp lt' with before | rfl
      · rw [relocate_neg (outside i (by omega))]
        exact h.done i before was
      · rw [relocate_pos (InBlock.self i 0)]
        rfl

/-- The insertion loop links every vacant frame and leaves the reserved ones alone. -/
theorem initInsert_spec (sane : b.Sane) (h : Booting b s) :
    ∃ s' loc', initInsert s = .ok s' ∧ Represents s' loc' ∧ s'.totalFrames = s.totalFrames ∧
      s'.startAddr = s.startAddr ∧
      ∀ i, i < s.totalFrames → if (s.pages i).occupied then loc' i = .used ∧ s'.pages i = s.pages i
        else (loc' i).listed = true := by
  have start : Inserting s s (bootLoc s) 0 :=
    ⟨refl _ s _, h.represents sane, fun _ _ => rfl, fun _ lt => absurd lt (Nat.not_lt_zero _)⟩
  obtain ⟨s', run, loc', last⟩ := foldlM_range_ok (I := fun k t => ∃ loc, Inserting s t loc k)
    ⟨bootLoc s, start⟩ s.totalFrames fun k lt t holds => by
      obtain ⟨loc, inserting⟩ := holds
      obtain ⟨t', loc', run, next⟩ := inserting.step lt
      exact ⟨t', run, loc', next⟩
  refine ⟨s', loc', run, last.represents, last.total, last.start, fun i lt => ?_⟩
  by_cases occupied : (s.pages i).occupied = true
  · have used : bootLoc s i = .used := if_pos occupied
    rw [if_pos occupied, ← used]
    exact last.unlisted i (by simp [used]) (by rw [used]; rfl)
  · rw [if_neg occupied]
    exact last.done i lt (if_neg occupied)

/-! ### Merging bottom-up -/

/-- One pair of the bottom-up merge. Reserved frames carry no order, so a frame whose order
byte matches heads a free block. -/
theorem initMergePair_spec {f o : Nat} (h : Represents s loc) (settled : Settled s loc)
    (blank : ∀ i, i < s.totalFrames → loc i = .used → (s.pages i).order = orderInvalid)
    (lt : o < maxOrder) (aligned : 2 ^ o ∣ f) (inside : f < s.totalFrames) :
    ∃ s' loc', initMergePair s f o = .ok s' ∧ Represents s' loc' ∧ Keeps noFrame s s' loc loc' := by
  unfold initMergePair
  split
  · exact ⟨s, loc, rfl, h, refl _ s loc⟩
  next order =>
    split
    · exact ⟨s, loc, rfl, h, refl _ s loc⟩
    next mergeable =>
      simp only [ne_eq, not_not] at order mergeable
      have valid : o ≠ orderInvalid := by
        simp only [maxOrder, orderInvalid] at *
        omega
      have member : f ∈ s.freeArea o := by
        refine h.mem_of_page inside (le_of_lt lt) order ?_
        rcases settled f inside with used | listed
        · exact absurd (order.symm.trans (blank f inside used)) valid
        · obtain ⟨_, vacant⟩ := h.vacant_of_listed inside listed
          exact vacant.1
      obtain ⟨buddy, fits⟩ := h.buddy_mem lt mergeable
      obtain ⟨alignedUp, union⟩ := buddy_union aligned
      have apart : f ≠ f ^^^ 2 ^ o := by
        rcases xor_two_pow_cases f o aligned with ⟨above, -⟩ | ⟨below, -⟩ <;> omega
      have still : f ∈ (s.unlink (f ^^^ 2 ^ o) o).freeArea o := by
        simpa [State.unlink] using (mem_erase_of_ne apart).mpr member
      -- Both halves leave their lists and the whole block is linked.
      have h₁ := h.unlink buddy
      have h₂ := h₁.unlink still
      generalize hm : (if f ^^^ 2 ^ o < f then f ^^^ 2 ^ o else f) = merged at fits alignedUp union
      have d : Detached ((s.unlink (f ^^^ 2 ^ o) o).unlink f o)
          (relocate (relocate loc (InBlock (f ^^^ 2 ^ o) o) .detached) (InBlock f o) .detached) merged (o + 1) := by
        refine ⟨lt, alignedUp, fits, fun i ini => ?_⟩
        by_cases own : InBlock f o i
        · exact relocate_pos own
        · rw [relocate_neg own]
          exact relocate_pos (((union i).mp ini).resolve_left own)
      obtain ⟨inserted, h₃⟩ := d.insert h₂
      refine ⟨_, _, ?_, h₃, shrink (R := InBlock merged (o + 1)) ?_ ?_ ?_⟩
      · have size : orderToFrames o = 2 ^ o := rfl
        rw [size]
        simp only [h.buddyRemove_eq buddy, h₁.buddyRemove_eq still, ok_bind, hm]
        exact inserted
      · have other : Keeps (InBlock merged (o + 1)) s (s.unlink (f ^^^ 2 ^ o) o) loc
            (relocate loc (InBlock (f ^^^ 2 ^ o) o) .detached) :=
          of_unlink.mono fun i ini => (union i).mpr (.inr ini)
        have own : Keeps (InBlock merged (o + 1)) (s.unlink (f ^^^ 2 ^ o) o) ((s.unlink (f ^^^ 2 ^ o) o).unlink f o) _
            (relocate (relocate loc (InBlock (f ^^^ 2 ^ o) o) .detached) (InBlock f o) .detached) :=
          of_unlink.mono fun i ini => (union i).mpr (.inl ini)
        exact (other.trans own).trans of_link
      · intro i ini _
        rcases (union i).mp ini with own | other
        · rw [h.loc_of_mem member own]
          rfl
        · rw [h.loc_of_mem buddy other]
          rfl
      · intro i ini _
        rw [relocate_pos ini]
        rfl

/-- What the merge rounds keep. -/
structure Merging (s t : State) (loc loc' : Nat → Loc) : Prop
    extends Keeps noFrame s t loc loc' where
  represents : Represents t loc'
  settled : Settled t loc'
  blank : ∀ i, i < t.totalFrames → loc' i = .used → (t.pages i).order = orderInvalid

theorem Merging.step {t : State} {loc' : Nat → Loc} (m : Merging s t loc loc') {f o : Nat}
    (lt : o < maxOrder) (aligned : 2 ^ o ∣ f) (inside : f < t.totalFrames) :
    ∃ t' loc'', initMergePair t f o = .ok t' ∧ Merging s t' loc loc'' := by
  obtain ⟨t', loc'', run, h, keeps⟩ := initMergePair_spec m.represents m.settled m.blank lt aligned inside
  have was : ∀ i, i < t'.totalFrames → loc'' i = .used → loc' i = .used := by
    intro i lt' used
    rcases m.settled i (keeps.total ▸ lt') with same | listed
    · exact same
    · have on := keeps.listed i id listed
      rw [used] at on
      cases on
  refine ⟨t', loc'', run, m.toKeeps.trans keeps, h, fun i lt' => ?_, fun i lt' used => ?_⟩
  · rcases m.settled i (keeps.total ▸ lt') with used | listed
    · left
      rw [(keeps.unlisted i id (by rw [used]; rfl)).1, used]
    · exact .inr (keeps.listed i id listed)
  · have used' := was i lt' used
    rw [(keeps.unlisted i id (by rw [used']; rfl)).2]
    exact m.blank i (keeps.total ▸ lt') used'

theorem initMerge_spec (m : Merging s s loc loc) : ∃ s' loc', initMerge s = .ok s' ∧ Merging s s' loc loc' := by
  have rounds : ∃ s', initMerge s = .ok s' ∧ ∃ loc', Merging s s' loc loc' :=
    foldlM_ok (List.range maxOrder) (fun o small t holds => by
      have lt := mem_range.mp small
      refine foldlM_ok _ (fun i member u holds' => ?_) t holds
      obtain ⟨loc', merging⟩ := holds'
      have lower := mem_range.mp member
      have first : i * (2 ^ o * 2) < u.totalFrames := by
        obtain ⟨loc₀, before⟩ := holds
        rw [merging.total, ← before.total]
        have pos : 0 < 2 ^ o * 2 := mul_pos (Nat.two_pow_pos o) two_pos
        exact lt_of_lt_of_le (Nat.mul_lt_mul_of_pos_right lower pos) (Nat.div_mul_le_self _ _)
      obtain ⟨u', loc'', run, next⟩ := merging.step lt (Nat.dvd_mul_left_of_dvd (dvd_mul_right _ _) i) first
      exact ⟨u', run, loc'', next⟩)
    s ⟨loc, m⟩
  obtain ⟨s', run, loc', merged⟩ := rounds
  exact ⟨s', loc', run, merged⟩

/-! ### The counter and the boot table -/

theorem initCount_drift (s : State) : (initCount s).drift = 0 := by
  have list : ∀ (l : List Nat) (n : Nat) (acc : BitVec 32),
      l.foldl (fun acc _ => acc + BitVec.ofNat 32 n) acc = acc + BitVec.ofNat 32 (l.length * n) := by
    intro l n
    induction l with
    | nil => simp
    | cons f rest ih =>
      intro acc
      rw [foldl_cons, ih, length_cons, Nat.succ_mul, BitVec.ofNat_add]
      ring
  have orders : ∀ n, (List.range n).foldl (fun acc order =>
      (s.freeArea order).foldl (fun acc _ => acc + BitVec.ofNat 32 (orderToFrames order)) acc) 0 =
        BitVec.ofNat 32 (∑ order ∈ Finset.range n, (s.freeArea order).length * orderToFrames order) := by
    intro n
    induction n with
    | zero => rfl
    | succ n ih =>
      rw [range_succ, foldl_append, ih, Finset.sum_range_succ, BitVec.ofNat_add]
      exact list _ _ _
  simp only [State.drift, initCount, orders, State.freeTotal]
  exact sub_self _

/-- The free lists initialisation builds: reserved frames stay in use, all others are in
free blocks. -/
theorem initMerge_initInsert (sane : b.Sane) (booting : Booting b s) :
    ∃ s₁ s₂ loc, initInsert s = .ok s₁ ∧ initMerge s₁ = .ok s₂ ∧ Represents s₂ loc ∧ Settled s₂ loc ∧
      s₂.totalFrames = s.totalFrames ∧ s₂.startAddr = s.startAddr ∧
      ∀ i, i < s.totalFrames → (s.pages i).occupied = true → loc i = .used := by
  obtain ⟨s₁, loc₁, inserted, h₁, total, start, placed⟩ := initInsert_spec sane booting
  have merging : Merging s₁ s₁ loc₁ loc₁ := by
    refine ⟨refl _ s₁ loc₁, h₁, fun i lt => ?_, fun i lt used => ?_⟩
    · have at_i := placed i (total ▸ lt)
      split at at_i
      · exact .inl at_i.1
      · exact .inr at_i
    · have at_i := placed i (total ▸ lt)
      split at at_i
      · rw [at_i.2]
        exact (booting.blank i (total ▸ lt)).1
      · rw [used] at at_i
        cases at_i
  obtain ⟨s₂, loc₂, merged, m⟩ := initMerge_spec merging
  refine ⟨s₁, s₂, loc₂, inserted, merged, m.represents, m.settled, m.total.trans total,
    m.start.trans start, fun i lt occupied => ?_⟩
  have at_i := placed i lt
  rw [if_pos occupied] at at_i
  rw [(m.unlisted i id (by rw [at_i.1]; rfl)).1, at_i.1]

/-- Initialisation succeeds and leaves a represented, settled state whose counter agrees
with the free area. -/
theorem pageFrameAllocatorInit_spec (sane : b.Sane) :
    ∃ s loc, pageFrameAllocatorInit b = .ok s ∧ Represents s loc ∧ Settled s loc ∧ s.drift = 0 := by
  obtain ⟨s₁, reserved, booting⟩ := initReserved_spec b
  obtain ⟨s₂, s₃, loc₃, inserted, merged, h₃, settled, total, start, used⟩ := initMerge_initInsert sane booting
  have counted : Represents (initCount s₃) loc₃ := h₃.setFreeFrames _
  simp only [pageFrameAllocatorInit, reserved, inserted, merged, ok_bind]
  cases table : b.bootTable with
  | none => exact ⟨initCount s₃, loc₃, rfl, counted, settled, initCount_drift s₃⟩
  | some phys =>
    by_cases reach : pfaPhysToFrame (initCount s₃) phys < s₃.totalFrames
    · -- the table's frame lies in the kernel image, so it is reserved
      have frame : loc₃ (pfaPhysToFrame (initCount s₃) phys) = .used := by
        refine used _ (total ▸ reach) (booting.image _ ?_ (total ▸ reach))
        have fits := h₃.in_phys
        have inside := sane.table phys table
        have image := sane.image
        have first : s₃.startAddr = b.physStart := start.trans booting.start
        simp only [pfaPhysToFrame, initCount, pageSize, first] at *
        rw [Boot.framesBelow_eq sane (by omega) image, pageSize]
        omega
      obtain ⟨s', loc', run, p, gone⟩ := pageFrameRefcountDec_spec b.cpu counted rfl reach frame
      refine ⟨s', loc', run, p.represents, fun i lt => ?_, p.drift.trans (initCount_drift s₃)⟩
      obtain rfl | same := eq_or_ne i (pfaPhysToFrame (initCount s₃) phys)
      · split at gone
        · exact .inr gone
        · exact .inl gone.1
      · rw [p.total] at lt
        rcases settled i lt with was | listed
        · exact .inl ((p.unlisted i same (by rw [was]; rfl)).1.trans was)
        · exact .inr (p.listed i same listed)
    · refine ⟨initCount s₃, loc₃, ?_, counted, settled, initCount_drift s₃⟩
      have out : pfaPhysToFrame (initCount s₃) phys ≥ (initCount s₃).totalFrames := le_of_not_gt reach
      simp only [pageFrameRefcountDec, if_pos out]
      rfl

end Jlos.Pfa
