import Jlos.Pfa.Buddy

/-!
# Single frames

The calls that work on one frame through the per-cpu lists: draining and refilling a
list, `malloc`, and the two reference count calls. On a frame that is in use none of
them halts.
-/
namespace Jlos.Pfa

open Lib List State Preserves Keeps
open Function (update update_eq_self update_self)

variable {s : State} {loc : Nat → Loc}

abbrev noFrame : Nat → Prop := fun _ => False

theorem inBlock_zero (f i : Nat) : InBlock f 0 i ↔ i = f := by
  simp only [InBlock, pow_zero]
  omega

/-! ### Draining and refilling -/

theorem percpuDrainLoop_spec (c : Nat) : ∀ (n : Nat) {s : State} {loc : Nat → Loc},
    Represents s loc → n ≤ (s.percpu c).count →
    ∃ s' loc', percpuDrainLoop s c n = .ok s' ∧ Preserves noFrame s s' loc loc' := by
  intro n
  induction n with
  | zero => exact fun {s loc} h _ => ⟨s, loc, rfl, refl _ h⟩
  | succ n ih =>
    intro s loc h enough
    cases list : (s.percpu c).freeList with
    | nil =>
      rw [h.percpu_count c, list] at enough
      exact absurd enough (Nat.not_succ_le_zero n)
    | cons f rest =>
      have cached : f < s.totalFrames ∧ loc f = .cached c := by
        rw [← h.mem_percpu c f, list]
        exact mem_cons_self
      have h₁ := h.percpuPop list
      have d : Detached (s.setPercpu c ⟨rest, (s.percpu c).count - 1⟩) (update loc f .detached) f 0 := by
        refine ⟨Nat.zero_le _, Nat.one_dvd f, cached.1, fun i ini => ?_⟩
        rw [(inBlock_zero f i).mp ini, update_self]
      obtain ⟨s₂, loc₂, freed, p, on, cpus⟩ := buddyFreeNolock_spec h₁ d
      -- The merge leaves the lists of the processors alone.
      have left : n ≤ (s₂.percpu c).count := by
        rw [cpus]
        simp only [setPercpu, update_self]
        omega
      obtain ⟨s', loc', run, p'⟩ := ih p.represents left
      refine ⟨s', loc', ?_, Preserves.trans ⟨?_, p.represents, p.drift⟩ p'⟩
      · simp only [percpuDrainLoop, percpuPop, list]
        change (buddyFreeNolock _ f 0).bind _ = _
        rw [freed]
        exact run
      · have moved := (of_setPercpu c ⟨rest, (s.percpu c).count - 1⟩).trans
          (p.toKeeps.mono fun i ini => (inBlock_zero f i).mp ini)
        refine moved.shrink ?_ ?_
        · rintro i rfl -
          rw [cached.2]
          rfl
        · rintro i rfl -
          exact on i (InBlock.self i 0)

theorem percpuDrain_spec (c : Nat) (h : Represents s loc) :
    ∃ s' loc', percpuDrain s c = .ok s' ∧ Preserves noFrame s s' loc loc' := by
  refine percpuDrainLoop_spec c _ h ?_
  split
  · exact le_refl _
  · omega

/-- The lowest set bit of the order bitmap names a non-empty list. -/
theorem Represents.firstFree_eq (h : Represents s loc) {o : Nat} (set : s.freeOrderBitmap.getLsbD o = true) :
    ∃ f, firstFree s o = .ok f ∧ f ∈ s.freeArea o := by
  have nonempty := (h.bitmap o).mp set
  cases list : s.freeArea o with
  | nil => exact absurd list nonempty
  | cons f rest => exact ⟨f, by simp [firstFree, list, pure, Except.pure], mem_cons_self⟩

theorem percpuRefillLoop_spec (c : Nat) : ∀ (fuel : Nat) {s : State} {loc : Nat → Loc}, Represents s loc →
    ∃ s' loc', percpuRefillLoop s c fuel = .ok s' ∧ Preserves noFrame s s' loc loc' := by
  intro fuel
  induction fuel with
  | zero => exact fun {s loc} h => ⟨s, loc, rfl, refl _ h⟩
  | succ fuel ih =>
    intro s loc h
    by_cases more : (s.percpu c).count < percpuBatch
    · by_cases empty : s.freeOrderBitmap = 0
      · refine ⟨s, loc, ?_, refl _ h⟩
        simp [percpuRefillLoop, more, empty, pure, Except.pure]
      · obtain ⟨f, first, member⟩ := h.firstFree_eq (Bitmap.lowest_set _ empty)
        obtain ⟨s₁, loc₁, removed, split, tk⟩ := take_spec h member (Nat.zero_le _)
        have detached : loc₁ f = .detached := tk.taken.detached f (InBlock.self f 0)
        have lt : f < s₁.totalFrames := tk.taken.inside
        -- the descriptor is vacant already; the refill writes the same bytes again
        have page : (s₁.modPage f fun pg =>
            { pg with occupied := false, type := .free, order := orderInvalid, refcount := 0 }) = s₁ := by
          have ok := tk.represents.page f lt
          rw [detached] at ok
          obtain ⟨occupied, refcount, type, order⟩ := ok
          have same : ({ s₁.pages f with
              occupied := false, type := .free, order := orderInvalid, refcount := 0 } : Page) =
              s₁.pages f := by
            rw [← occupied, ← type, ← order, ← refcount]
          simp [modPage, same]
        have h₂ := (tk.represents.percpuPush c lt detached).setFreeFrames (s₁.freeFrames - 1)
        obtain ⟨s', loc', run, p'⟩ := ih h₂
        refine ⟨s', loc', ?_, Preserves.trans ⟨?_, h₂, ?_⟩ p'⟩
        · simp only [percpuRefillLoop, if_pos more, if_neg empty, first, removed, split, ok_bind, page]
          exact run
        · have keeps : Keeps (· = f) s { percpuPush s₁ c f with freeFrames := s₁.freeFrames - 1 } loc
              (update loc₁ f (.cached c)) := by
            have taken := tk.toKeeps.mono fun i ini => (inBlock_zero f i).mp ini
            exact taken.trans ((of_percpuPush c).setFreeFrames _)
          refine keeps.shrink ?_ ?_
          · rintro i rfl -
            exact tk.free i (InBlock.self i 0)
          · rintro i rfl -
            rw [update_self]
            rfl
        · have pushed : (percpuPush s₁ c f).drift = s.drift + 1 := tk.drift
          rw [drift_setFreeFrames, pushed]
          change s.drift + 1 + (s₁.freeFrames - 1 - s₁.freeFrames) = s.drift
          ring
    · refine ⟨s, loc, ?_, refl _ h⟩
      simp [percpuRefillLoop, more, pure, Except.pure]

theorem percpuRefill_spec (c : Nat) (h : Represents s loc) :
    ∃ s' loc', percpuRefill s c = .ok s' ∧ Preserves noFrame s s' loc loc' := percpuRefillLoop_spec c percpuBatch h

/-! ### Handing out -/

/-- A run of `n` free frames from `f` on has been handed out with one reference each. -/
structure HandsOut (s s' : State) (loc loc' : Nat → Loc) (f n headOrder : Nat) : Prop
    extends Keeps (InRange f n) s s' loc loc' where
  represents : Represents s' loc'
  inside : f + n ≤ s.totalFrames
  free : ∀ i, InRange f n i → (loc i).listed = true
  used : ∀ i, InRange f n i → loc' i = .used
  page : ∀ i, InRange f n i → (s'.pages i).refcount = 1 ∧ (s'.pages i).type = .free ∧
    (s'.pages i).order = if i = f then headOrder else orderInvalid

theorem inRange_one (f i : Nat) : InRange f 1 i ↔ i = f := by
  simp only [InRange]
  omega

/-- What `malloc` writes into the descriptor of the frame it returns. -/
def Page.handedOut (pg : Page) : Page := { pg with occupied := true, refcount := 1 }

theorem pageFrameMalloc_spec (c : Nat) (h : Represents s loc) :
    ∃ r s' loc', pageFrameMalloc s c = .ok (r, s') ∧ s'.drift = s.drift ∧
      ((r = none ∧ Preserves noFrame s s' loc loc') ∨
        ∃ f, r = some (framePhys s f) ∧ HandsOut s s' loc loc' f 1 orderInvalid) := by
  have refilled : ∃ s₁ loc₁, (if (s.percpu c).count = 0 then percpuRefill s c else pure s) = .ok s₁ ∧
      Preserves noFrame s s₁ loc loc₁ := by
    split
    · exact percpuRefill_spec c h
    · exact ⟨s, loc, rfl, refl _ h⟩
  obtain ⟨s₁, loc₁, refill, p⟩ := refilled
  have h₁ := p.represents
  cases list : (s₁.percpu c).freeList with
  | nil =>
    have empty : ¬(s₁.percpu c).count > 0 := by simp [h₁.percpu_count c, list]
    refine ⟨none, s₁, loc₁, ?_, p.drift, Or.inl ⟨rfl, p⟩⟩
    simp only [pageFrameMalloc, refill, ok_bind, if_neg empty]
    rfl
  | cons f rest =>
    have some : (s₁.percpu c).count > 0 := by simp [h₁.percpu_count c, list]
    have cached : f < s₁.totalFrames ∧ loc₁ f = .cached c := by
      rw [← h₁.mem_percpu c f, list]
      exact mem_cons_self
    have vacant := h₁.page f cached.1
    rw [cached.2] at vacant
    have popped : Keeps (· = f) s₁ (s₁.setPercpu c ⟨rest, (s₁.percpu c).count - 1⟩) loc₁
        (update loc₁ f .detached) := of_setPercpu c _
    have taken : Represents ((s₁.setPercpu c ⟨rest, (s₁.percpu c).count - 1⟩).modPage f Page.handedOut)
        (update (update loc₁ f .detached) f .used) :=
      (h₁.percpuPop list).modPage (by rw [update_self]; rfl) rfl ⟨rfl, one_pos⟩
    -- A refill moves listed frames only, so the frame was free before it.
    have free : (loc f).listed = true := by
      cases was : (loc f).listed with
      | true => rfl
      | false =>
        have same := (p.unlisted f id was).1
        rw [← same, cached.2] at was
        cases was
    refine ⟨Option.some (framePhys s f), _, _, ?_, ?_, Or.inr ⟨f, rfl, ?_, taken, ?_, ?_, ?_, ?_⟩⟩
    · simp only [pageFrameMalloc, refill, bind, Except.bind, if_pos some, percpuPop, list]
      simp [pure, Except.pure, framePhys, modPage, setPercpu, p.start, Page.handedOut]
    · exact p.drift
    · exact ((p.toKeeps.mono fun i none => none.elim).trans (popped.trans of_modPage)).mono
        fun i eq => (inRange_one f i).mpr eq
    · rw [← p.total]
      exact cached.1
    · intro i ini
      rwa [(inRange_one f i).mp ini]
    · intro i ini
      rw [(inRange_one f i).mp ini, update_self]
    · intro i ini
      have eq := (inRange_one f i).mp ini
      subst eq
      simpa [modPage, setPercpu, Page.handedOut] using vacant.2.2

/-! ### Reference counts -/

/-- What the last `refcount_dec` writes into the descriptor. -/
def Page.vacated (pg : Page) : Page :=
  { pg with occupied := false, order := orderInvalid, type := .free, ptPresentCount := 0, refcount := 0 }

theorem modPage_modPage (s : State) (f : Nat) (g g' : Page → Page) :
    (s.modPage f g).modPage f g' = s.modPage f fun pg => g' (g pg) := by
  simp [modPage]

/-- A live frame loses a reference: with its last one it becomes free, otherwise only its
count changes. -/
theorem pageFrameRefcountDec_spec (c : Nat) {phys f : Nat} (h : Represents s loc)
    (frame : pfaPhysToFrame s phys = f) (lt : f < s.totalFrames) (used : loc f = .used) :
    ∃ s' loc', pageFrameRefcountDec s c phys = .ok s' ∧ Preserves (· = f) s s' loc loc' ∧
      (if (s.pages f).refcount = 1 then (loc' f).listed = true
        else loc' f = .used ∧ s'.pages f = { s.pages f with refcount := (s.pages f).refcount - 1 }) := by
  have ok := h.page f lt
  rw [used] at ok
  obtain ⟨occupied, live⟩ := ok
  have off : (loc f).listed = false := by
    rw [used]
    rfl
  have reach : ¬f ≥ s.totalFrames := by omega
  by_cases last : (s.pages f).refcount = 1
  · -- the frame is vacated and pushed on the list of the cpu, which may then be drained
    have vacated : Represents (s.modPage f Page.vacated) (update loc f .detached) :=
      h.modPage off rfl ⟨rfl, rfl, rfl, rfl⟩
    have pushed := vacated.percpuPush c lt (update_self ..)
    have moved : Keeps (· = f) s (percpuPush (s.modPage f Page.vacated) c f) loc
        (update (update loc f .detached) f (.cached c)) := of_modPage.trans (of_percpuPush c)
    have drained : ∃ s' loc', (if ((percpuPush (s.modPage f Page.vacated) c f).percpu c).count > percpuHigh then
          percpuDrain (percpuPush (s.modPage f Page.vacated) c f) c
          else pure (percpuPush (s.modPage f Page.vacated) c f)) = .ok s' ∧
        Preserves noFrame (percpuPush (s.modPage f Page.vacated) c f) s'
          (update (update loc f .detached) f (.cached c)) loc' := by
      split
      · exact percpuDrain_spec c pushed
      · exact ⟨_, _, rfl, refl _ pushed⟩
    obtain ⟨s', loc', run, p⟩ := drained
    refine ⟨s', loc', ?_, ⟨?_, p.represents, p.drift⟩, ?_⟩
    · simp only [pageFrameRefcountDec, frame, if_neg reach, last, gt_iff_lt, one_pos, if_true, modPage_modPage]
      exact run
    · exact moved.trans (p.toKeeps.mono fun i none => none.elim)
    · rw [if_pos last]
      refine p.listed f id ?_
      rw [update_self]
      rfl
  · have more : 0 < (s.pages f).refcount - 1 := by omega
    have kept : Represents (s.modPage f fun pg => { pg with refcount := (s.pages f).refcount - 1 })
        (update loc f .used) := h.modPage off rfl ⟨occupied, more⟩
    refine ⟨_, _, ?_, ⟨of_modPage, kept, rfl⟩, ?_⟩
    · simp only [pageFrameRefcountDec, frame, if_neg reach, gt_iff_lt, if_pos live, if_neg last]
      rfl
    · simp [last, modPage]

theorem pageFrameRefcountInc_spec {phys f : Nat} (h : Represents s loc)
    (frame : pfaPhysToFrame s phys = f) (lt : f < s.totalFrames) (used : loc f = .used)
    (below : (s.pages f).refcount < refcountMax) :
    ∃ s', pageFrameRefcountInc s phys = .ok s' ∧ Preserves (· = f) s s' loc loc ∧
      s'.pages f = { s.pages f with refcount := (s.pages f).refcount + 1 } := by
  have ok := h.page f lt
  rw [used] at ok
  have off : (loc f).listed = false := by
    rw [used]
    rfl
  have reach : ¬f ≥ s.totalFrames := by omega
  have counted : Represents (s.modPage f fun pg => { pg with refcount := (s.pages f).refcount + 1 })
      (update loc f .used) := h.modPage off rfl ⟨ok.1, Nat.succ_pos _⟩
  have same : update loc f .used = loc := by rw [← used, update_eq_self]
  have keeps : Keeps (· = f) s (s.modPage f fun pg => { pg with refcount := (s.pages f).refcount + 1 })
      loc (update loc f .used) := of_modPage
  rw [same] at counted keeps
  refine ⟨_, ?_, ⟨keeps, counted, rfl⟩, ?_⟩
  · simp only [pageFrameRefcountInc, frame, if_neg reach, gt_iff_lt, if_pos (And.intro ok.2 below)]
    rfl
  · simp [modPage]

end Jlos.Pfa
