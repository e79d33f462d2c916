import Jlos.Lib.Loop
import Jlos.Pfa.Represents

/-!
# Splitting, merging and freeing blocks

What the buddy half of the allocator does to the location of frames. A block being moved
is `Detached`: aligned, inside memory and in no list.
-/
namespace Jlos.Pfa

open Lib Bool

/-- A block of `2 ^ o` frames that no list holds. -/
structure Detached (s : State) (loc : Nat → Loc) (f o : Nat) : Prop where
  order_le : o ≤ maxOrder
  aligned : 2 ^ o ∣ f
  inside : f + 2 ^ o ≤ s.totalFrames
  detached : ∀ i, InBlock f o i → loc i = .detached

variable {s : State} {loc : Nat → Loc} {f o : Nat}

theorem Detached.insert (d : Detached s loc f o) (h : Represents s loc) :
    buddyInsert s f o = .ok (s.link f o) ∧ Represents (s.link f o) (relocate loc (InBlock f o) (.block f o)) :=
  ⟨h.buddyInsert_eq d.aligned d.inside (d.detached f (InBlock.self f o)),
    h.link d.order_le d.aligned d.inside d.detached⟩

/-! ### Splitting -/

/-- What `order_split` leaves: the lower block of the target order is still detached, the
rest of the block is linked. -/
structure SplitTo (s s' : State) (loc loc' : Nat → Loc) (f o t : Nat) : Prop
    extends Keeps (InBlock f o) s s' loc loc' where
  represents : Represents s' loc'
  lower : Detached s' loc' f t
  upper : ∀ i, InBlock f o i → ¬InBlock f t i → (loc' i).listed = true
  percpu : s'.percpu = s.percpu
  freeFrames : s'.freeFrames = s.freeFrames
  drift : s'.drift + BitVec.ofNat 32 (2 ^ o) = s.drift + BitVec.ofNat 32 (2 ^ t)

theorem orderSplit_spec (f t : Nat) : ∀ (o : Nat) {s : State} {loc : Nat → Loc},
    Represents s loc → Detached s loc f o → t ≤ o →
    ∃ s' loc', orderSplit s f o t = .ok s' ∧ SplitTo s s' loc loc' f o t := by
  intro o
  induction o with
  | zero =>
    intro s loc h d le
    obtain rfl : t = 0 := by omega
    exact ⟨s, loc, rfl, Keeps.refl _ s loc, h, d, fun i inl out => absurd inl out, rfl, rfl, rfl⟩
  | succ o ih =>
    intro s loc h d le
    by_cases stop : o + 1 > t
    · -- the upper half goes back, the lower half is split further
      have double := two_mul_pow o
      have upperHead : f ||| orderToFrames o = f + 2 ^ o := or_two_pow_of_dvd f o d.aligned
      have alignedLow : 2 ^ o ∣ f := dvd_of_succ_dvd d.aligned
      have inside := d.inside
      have small := d.order_le
      have halves := inBlock_succ f o
      have upperD : Detached s loc (f + 2 ^ o) o := ⟨by omega, Nat.dvd_add alignedLow (Nat.dvd_refl _), by omega,
          fun i up => d.detached i ((halves i).mpr (.inr up))⟩
      obtain ⟨inserted, h₁⟩ := upperD.insert h
      have lowerD : Detached (s.link (f + 2 ^ o) o)
          (relocate loc (InBlock (f + 2 ^ o) o) (.block (f + 2 ^ o) o)) f o := by
        refine ⟨by omega, alignedLow, by simp only [link_totalFrames]; omega, ?_⟩
        intro i low
        rw [relocate_neg low.not_upper]
        exact d.detached i ((halves i).mpr (.inl low))
      obtain ⟨s', loc', run, sp⟩ := ih h₁ lowerD (by omega)
      refine ⟨s', loc', ?_, ?_⟩
      · simp only [orderSplit, if_pos stop, upperHead, inserted]
        exact run
      · have keepsUpper : Keeps (InBlock f (o + 1)) s (s.link (f + 2 ^ o) o) loc
            (relocate loc (InBlock (f + 2 ^ o) o) (.block (f + 2 ^ o) o)) :=
          Keeps.of_link.mono fun i up => (halves i).mpr (.inr up)
        refine ⟨keepsUpper.trans (sp.toKeeps.mono fun i low => (halves i).mpr (.inl low)),
          sp.represents, sp.lower, ?_, sp.percpu, sp.freeFrames, ?_⟩
        · intro i inl out
          by_cases low : InBlock f o i
          · exact sp.upper i low out
          · have up := ((halves i).mp inl).resolve_left low
            refine sp.listed i low ?_
            rw [relocate_pos up]
            rfl
        · have step := sp.drift
          rw [drift_link s (f + 2 ^ o) (by omega)] at step
          calc s'.drift + BitVec.ofNat 32 (2 ^ (o + 1))
              = (s'.drift + BitVec.ofNat 32 (2 ^ o)) + BitVec.ofNat 32 (2 ^ o) := by
                rw [double, two_mul, BitVec.ofNat_add]
                ring
            _ = s.drift + BitVec.ofNat 32 (2 ^ t) := by
                rw [step]
                ring
    · obtain rfl : t = o + 1 := by omega
      refine ⟨s, loc, ?_, Keeps.refl _ s loc, h, d, fun i inl out => absurd inl out, rfl, rfl, rfl⟩
      simp [orderSplit, pure, Except.pure]

/-- What taking a block off its list and splitting it leaves: the block of the target
order is detached, and every frame of it was free. -/
structure Takes (s s' : State) (loc loc' : Nat → Loc) (f t : Nat) : Prop
    extends Keeps (InBlock f t) s s' loc loc' where
  represents : Represents s' loc'
  taken : Detached s' loc' f t
  free : ∀ i, InBlock f t i → (loc i).listed = true
  percpu : s'.percpu = s.percpu
  freeFrames : s'.freeFrames = s.freeFrames
  drift : s'.drift = s.drift + BitVec.ofNat 32 (2 ^ t)

/-- The common part of `percpu_refill` and `alloc_n`. -/
theorem take_spec {f o t : Nat} (h : Represents s loc) (member : f ∈ s.freeArea o) (le : t ≤ o) :
    ∃ s' loc', buddyRemove s f o = .ok (s.unlink f o) ∧
      orderSplit (s.unlink f o) f o t = .ok s' ∧ Takes s s' loc loc' f t := by
  have h₁ := h.unlink member
  have d : Detached (s.unlink f o) (relocate loc (InBlock f o) .detached) f o :=
    ⟨h.order_le member, h.aligned member, h.inside member, fun i ini => relocate_pos ini⟩
  obtain ⟨s', loc', run, sp⟩ := orderSplit_spec f t o h₁ d le
  have free : ∀ i, InBlock f o i → (loc i).listed = true := by
    intro i ini
    rw [h.loc_of_mem member ini]
    rfl
  have sub : ∀ i, InBlock f t i → InBlock f o i := by
    intro i ini
    have grow : 2 ^ t ≤ 2 ^ o := Nat.pow_le_pow_right (by omega) le
    exact ⟨ini.1, lt_of_lt_of_le ini.2 (Nat.add_le_add_left grow f)⟩
  have keeps := (Keeps.of_unlink (s := s) (l := .detached)).trans sp.toKeeps
  refine ⟨s', loc', h.buddyRemove_eq member, run,
    keeps.shrink (fun i ini _ => free i ini) sp.upper, sp.represents, sp.lower,
    fun i ini => free i (sub i ini), sp.percpu, sp.freeFrames, ?_⟩
  have step := sp.drift
  rw [h.drift_unlink member] at step
  linear_combination step

/-! ### Merging -/

/-- `buddy_mergeable` reads the descriptor of the buddy; under the invariant it says that
the buddy is a free block of the same order. -/
theorem Represents.buddy_mem (h : Represents s loc) (lt : o < maxOrder)
    (mergeable : buddyMergeable s f o = true) : f ^^^ 2 ^ o ∈ s.freeArea o ∧
      (if f ^^^ 2 ^ o < f then f ^^^ 2 ^ o else f) + 2 ^ (o + 1) ≤ s.totalFrames := by
  have block : orderToFrames o = 2 ^ o := rfl
  simp only [buddyMergeable, if_false_left, and_eq_true, not_eq_true',
    decide_eq_false_iff_not, decide_eq_true_eq, not_eq_true] at mergeable
  rw [block] at mergeable
  obtain ⟨inside, fits, order, vacant⟩ := mergeable
  exact ⟨h.mem_of_page (by omega) (by omega) order vacant, by omega⟩

/-- What the merge loop leaves: the detached block has absorbed free blocks and nothing
else has changed. -/
structure MergedTo (s s' : State) (loc loc' : Nat → Loc) (f o f' o' : Nat) : Prop where
  represents : Represents s' loc'
  merged : Detached s' loc' f' o'
  total : s'.totalFrames = s.totalFrames
  start : s'.startAddr = s.startAddr
  covers : ∀ i, InBlock f o i → InBlock f' o' i
  absorbed : ∀ i, InBlock f' o' i → ¬InBlock f o i → (loc i).listed = true
  outside : ∀ i, ¬InBlock f' o' i → loc' i = loc i ∧ s'.pages i = s.pages i
  percpu : s'.percpu = s.percpu
  freeFrames : s'.freeFrames = s.freeFrames
  drift : s'.drift + BitVec.ofNat 32 (2 ^ o) = s.drift + BitVec.ofNat 32 (2 ^ o')

theorem buddyMergeUp_spec : ∀ (fuel : Nat) {s : State} {loc : Nat → Loc} {f o : Nat},
    Represents s loc → Detached s loc f o → ∃ s' f' o' loc', buddyMergeUp s f o fuel = .ok (s', f', o') ∧
      MergedTo s s' loc loc' f o f' o' := by
  intro fuel
  induction fuel with
  | zero =>
    intro s loc f o h d
    exact ⟨s, f, o, loc, rfl, h, d, rfl, rfl, fun _ inl => inl, fun _ inl out => absurd inl out,
      fun _ _ => ⟨rfl, rfl⟩, rfl, rfl, rfl⟩
  | succ fuel ih =>
    intro s loc f o h d
    by_cases go : o < maxOrder ∧ buddyMergeable s f o = true
    · obtain ⟨member, fits⟩ := h.buddy_mem go.1 go.2
      obtain ⟨alignedUp, union⟩ := buddy_union d.aligned
      have removed := h.buddyRemove_eq member
      have h₁ := h.unlink member
      -- Together with its buddy the block is a detached block of the next order.
      have grown : Detached (s.unlink (f ^^^ 2 ^ o) o) (relocate loc (InBlock (f ^^^ 2 ^ o) o) .detached)
          (if f ^^^ 2 ^ o < f then f ^^^ 2 ^ o else f) (o + 1) := by
        refine ⟨go.1, alignedUp, fits, ?_⟩
        intro i ini
        by_cases inb : InBlock (f ^^^ 2 ^ o) o i
        · exact relocate_pos inb
        · rw [relocate_neg inb]
          exact d.detached i (((union i).mp ini).resolve_right inb)
      obtain ⟨s', f', o', loc', run, m⟩ := ih h₁ grown
      refine ⟨s', f', o', loc', ?_, ?_⟩
      · simp only [buddyMergeUp, if_pos go, orderToFrames, removed]
        exact run
      · have covers : ∀ i, InBlock f o i ∨ InBlock (f ^^^ 2 ^ o) o i → InBlock f' o' i :=
          fun i ini => m.covers i ((union i).mpr ini)
        refine ⟨m.represents, m.merged, m.total, m.start, fun i inl => covers i (.inl inl),
          ?_, ?_, m.percpu, m.freeFrames, ?_⟩
        · intro i inl out
          by_cases inb : InBlock (f ^^^ 2 ^ o) o i
          · rw [h.loc_of_mem member inb]
            rfl
          · have old := m.absorbed i inl (fun ini => ((union i).mp ini).elim out inb)
            rwa [relocate_neg inb] at old
        · intro i out
          have inb : ¬InBlock (f ^^^ 2 ^ o) o i := fun ini => out (covers i (.inr ini))
          obtain ⟨same, page⟩ := m.outside i out
          rw [relocate_neg inb] at same
          exact ⟨same, page.trans (unlink_pages_of_ne fun eq => inb (eq ▸ InBlock.self _ o))⟩
        · have step := m.drift
          rw [h.drift_unlink member, two_mul_pow o, two_mul, BitVec.ofNat_add] at step
          linear_combination step
    · refine ⟨s, f, o, loc, ?_, h, d, rfl, rfl, fun _ inl => inl, fun _ inl out => absurd inl out,
        fun _ _ => ⟨rfl, rfl⟩, rfl, rfl, rfl⟩
      simp only [buddyMergeUp, if_neg go]
      rfl

/-! ### Freeing -/

/-- Freeing a detached block links every frame of it and moves the counter along. -/
theorem buddyFreeNolock_spec (h : Represents s loc) (d : Detached s loc f o) :
    ∃ s' loc', buddyFreeNolock s f o = .ok s' ∧ Preserves (InBlock f o) s s' loc loc' ∧
      (∀ i, InBlock f o i → (loc' i).listed = true) ∧ s'.percpu = s.percpu := by
  obtain ⟨s₁, f', o', loc₁, merge, m⟩ := buddyMergeUp_spec maxOrder h d
  obtain ⟨inserted, h₂⟩ := m.merged.insert m.represents
  have linked (i : Nat) (new : InBlock f' o' i) :
      (relocate loc₁ (InBlock f' o') (.block f' o') i).listed = true := by
    rw [relocate_pos new]
    rfl
  have keeps := ((Keeps.of_outside m.total m.start m.outside).trans Keeps.of_link).shrink m.absorbed
    fun i new _ => linked i new
  refine ⟨{ s₁.link f' o' with freeFrames := s₁.freeFrames + BitVec.ofNat 32 (2 ^ o) }, _, ?_,
    ⟨keeps.setFreeFrames _, h₂.setFreeFrames _, ?_⟩, fun i inl => linked i (m.covers i inl), m.percpu⟩
  · simp only [buddyFreeNolock, merge, ok_bind, inserted]
    rfl
  · have linked := drift_link s₁ f' m.merged.order_le
    have step := m.drift
    simp only [State.drift, State.freeTotal, link_freeFrames] at linked step ⊢
    linear_combination linked + step

/-! ### Freeing a range -/

theorem modPages_succ (s : State) (base n : Nat) (g : Page → Page) :
    s.modPages base (n + 1) g = (s.modPages base n g).modPage (base + n) g := by
  simp [State.modPages, List.range_succ]

theorem modPages_eq (s : State) (base n : Nat) (g : Page → Page) : s.modPages base n g =
      { s with pages := fun i => if InRange base n i then g (s.pages i) else s.pages i } := by
  induction n with
  | zero =>
    have none : ∀ i, ¬InRange base 0 i := fun i ini => by
      simp only [InRange] at ini
      omega
    simp [State.modPages, none]
  | succ n ih =>
    rw [modPages_succ, ih]
    simp only [State.modPage]
    congr 1
    funext i
    obtain rfl | last := eq_or_ne i (base + n)
    · have new : InRange base (n + 1) (base + n) := ⟨by omega, by omega⟩
      have old : ¬InRange base n (base + n) := fun ini => by
        simp only [InRange] at ini
        omega
      simp [new, old]
    · have same : InRange base (n + 1) i ↔ InRange base n i := by
        simp only [InRange]
        omega
      simp [last, same]

theorem rangeOrder_spec (base len : Nat) : ∀ (fuel order : Nat), 2 ^ order ≤ len → 2 ^ order ∣ base →
    2 ^ rangeOrder base len fuel order ≤ len ∧ 2 ^ rangeOrder base len fuel order ∣ base := by
  intro fuel
  induction fuel with
  | zero => exact fun order fits aligned => ⟨fits, aligned⟩
  | succ fuel ih =>
    intro order fits aligned
    simp only [rangeOrder]
    split
    next grow =>
      simp only [orderToFrames, and_pred_eq_zero_iff] at grow
      exact ih (order + 1) grow.1 grow.2
    next stop => exact ⟨fits, aligned⟩

/-- What `buddy_free_range` writes into each descriptor before it frees a block. -/
def Page.recycled (pg : Page) : Page :=
  { pg with occupied := false, order := orderInvalid, type := .free, ptPresentCount := 0 }

theorem Represents.recycle (h : Represents s loc) {base n : Nat}
    (gone : ∀ i, InRange base n i → loc i = .dropped ∨ loc i = .detached) :
    Represents (s.modPages base n Page.recycled) (relocate loc (InRange base n) .detached) := by
  rw [modPages_eq]
  refine h.rewritePages fun i lt => ?_
  by_cases ini : InRange base n i
  · right
    have off : (loc i).listed = false ∧ (s.pages i).refcount = 0 := by
      have ok := h.page i lt
      rcases gone i ini with eq | eq
      · rw [eq] at ok ⊢
        exact ⟨rfl, ok.2⟩
      · rw [eq] at ok ⊢
        exact ⟨rfl, ok.2.1⟩
    simp only [relocate_pos ini, if_pos ini]
    exact ⟨off.1, rfl, rfl, off.2, rfl, rfl⟩
  · left
    simp [relocate_neg ini, if_neg ini]

theorem Keeps.of_recycle {base n : Nat} : Keeps (InRange base n) s (s.modPages base n Page.recycled) loc
      (relocate loc (InRange base n) .detached) := by
  rw [modPages_eq]
  exact of_outside rfl rfl fun i out => ⟨relocate_neg out, if_neg out⟩

theorem buddyFreeRangeLoop_spec : ∀ (fuel base len : Nat) {s : State} {loc : Nat → Loc},
    Represents s loc → len ≤ fuel → len ≤ freeNMax → base + len ≤ s.totalFrames →
    (∀ i, InRange base len i → loc i = .dropped ∨ loc i = .detached) →
    ∃ s' loc', buddyFreeRangeLoop s fuel base len = .ok s' ∧ Preserves (InRange base len) s s' loc loc' ∧
      ∀ i, InRange base len i → (loc' i).listed = true := by
  intro fuel
  induction fuel with
  | zero =>
    intro base len s loc h enough _ _ _
    refine ⟨s, loc, rfl, Preserves.refl _ h, fun i ini => ?_⟩
    simp only [InRange] at ini
    omega
  | succ fuel ih =>
    intro base len s loc h enough small inside gone
    by_cases done : len = 0
    · refine ⟨s, loc, ?_, Preserves.refl _ h, fun i ini => ?_⟩
      · simp only [buddyFreeRangeLoop, if_pos done]
        rfl
      · simp only [InRange] at ini
        omega
    · obtain ⟨fits, aligned⟩ := rangeOrder_spec base len 32 0 (by omega) (one_dvd base)
      generalize hr : rangeOrder base len 32 0 = order at fits aligned
      have split : ∀ i, InRange base len i ↔
          InBlock base order i ∨ InRange (base + 2 ^ order) (len - 2 ^ order) i := inRange_split fits
      have orderLe : order ≤ maxOrder := by
        have bound : 2 ^ order ≤ 2 ^ 10 := by
          simp only [freeNMax] at small
          omega
        exact (Nat.pow_le_pow_iff_right (by omega)).mp bound
      -- the block's descriptors are recycled, the block is freed, the rest follows
      have h₁ : Represents (s.modPages base (2 ^ order) Page.recycled)
          (relocate loc (InRange base (2 ^ order)) .detached) :=
        h.recycle fun i ini => gone i ((split i).mpr (.inl ini))
      have block : Detached (s.modPages base (2 ^ order) Page.recycled)
          (relocate loc (InRange base (2 ^ order)) .detached) base order :=
        ⟨orderLe, aligned, by rw [modPages_eq]; simp only; omega, fun i ini => relocate_pos ini⟩
      obtain ⟨s₂, loc₂, freed, p, on, -⟩ := buddyFreeNolock_spec h₁ block
      have upTo : Keeps (InRange base (2 ^ order)) s s₂ loc loc₂ := Keeps.of_recycle.trans p.toKeeps
      obtain ⟨s', loc', run, p', on'⟩ := ih (base + 2 ^ order) (len - 2 ^ order) p.represents
        (by omega) (by omega) (by rw [upTo.total]; omega) (by
          intro i rest
          have out : ¬InRange base (2 ^ order) i := fun ini => by
            simp only [InRange] at ini rest
            omega
          have old := gone i ((split i).mpr (.inr rest))
          have off : (loc i).listed = false := by
            rcases old with eq | eq <;> rw [eq] <;> rfl
          rwa [(upTo.unlisted i out off).1])
      refine ⟨s', loc', ?_, ⟨?_, p'.represents, ?_⟩, ?_⟩
      · simp only [buddyFreeRangeLoop, if_neg done, hr, orderToFrames]
        change (buddyFreeNolock (s.modPages base (2 ^ order) Page.recycled) base order).bind _ = _
        rw [freed]
        exact run
      · exact (upTo.mono fun i ini => (split i).mpr (.inl ini)).trans
          (p'.toKeeps.mono fun i ini => (split i).mpr (.inr ini))
      · rw [p'.drift, p.drift, modPages_eq]
        rfl
      · intro i ini
        by_cases rest : InRange (base + 2 ^ order) (len - 2 ^ order) i
        · exact on' i rest
        · exact p'.listed i rest (on i (((split i).mp ini).resolve_right rest))

/-- `buddy_free_range` on dropped or detached frames links all of them. -/
theorem buddyFreeRange_spec {base len : Nat} (h : Represents s loc) (small : len ≤ freeNMax)
    (inside : base + len ≤ s.totalFrames) (gone : ∀ i, InRange base len i → loc i = .dropped ∨ loc i = .detached) :
    ∃ s' loc', buddyFreeRange s base len = .ok s' ∧ Preserves (InRange base len) s s' loc loc' ∧
      ∀ i, InRange base len i → (loc' i).listed = true :=
  buddyFreeRangeLoop_spec len base len h (le_refl len) small inside gone

end Jlos.Pfa
