import Jlos.Slab.Invariant

/-!
# The sections of alloc and free

Each section, on a state that represents a placement, does not fail, changes one page, and leaves a
state that represents the changed placement.
-/
namespace Jlos.Slab

open Lib Function List

variable {a : Arch} {g : Geometry} {st st₁ st' : State} {place : Nat → Option ListId} {out : Nat → List Nat} {p : Nat}
  {pg : Page} {obj : Nat} {owner : Int}

/-- Apart from the page `p`, a section changes at most pages of the empty list. -/
def Kept (p : Nat) (st st' : State) (place place' : Nat → Option ListId) : Prop :=
  ∀ q, q ≠ p → place q ≠ some .empty → place' q = place q ∧ st'.pages q = st.pages q

theorem Kept.update {slot : Option ListId} (pages : st'.pages = update st.pages p (some pg)) :
    Kept p st st' place (update place p slot) := by
  intro q ne _
  rw [pages]
  exact ⟨update_of_ne ne _ _, update_of_ne ne _ _⟩

theorem Kept.trans {st'' : State} {place' place'' : Nat → Option ListId}
    (h : Kept p st st' place place') (h' : Kept p st' st'' place' place'') : Kept p st st'' place place'' := by
  intro q ne notEmpty
  obtain ⟨samePlace, samePage⟩ := h q ne notEmpty
  obtain ⟨samePlace', samePage'⟩ := h' q ne (by rwa [samePlace])
  exact ⟨samePlace'.trans samePlace, samePage'.trans samePage⟩

/-- A free has put `obj` back on the page `p`, which may have been given back since. -/
structure Freed (a : Arch) (g : Geometry) (st : State) (place : Nat → Option ListId) (out : Nat → List Nat)
    (p obj : Nat) (st' : State) (place' : Nat → Option ListId) : Prop where
  rep : Rep a g st' place' (update out p ((out p).erase obj))
  kept : Kept p st st' place place'
  back : ∀ pg, st'.pages p = some pg → obj ∈ pg.freelist

section

variable (h : Rep a g st place out)
include h

theorem Rep.page (member : obj ∈ out p) : ∃ pg, st.pages p = some pg := by
  cases page : st.pages p with
  | none =>
    rw [h.gone p page] at member
    cases member
  | some pg => exact ⟨pg, rfl⟩

theorem Rep.retire {objs : List Nat} (pages : st₁.pages = update st.pages p (some pg))
    (placed : Placed st₁.lists (update place p none)) (colour : st₁.colourNext ≤ g.colour)
    (ok : PageOk a g p pg (some .empty) objs) :
    ∃ st' place', retire st₁ p = .ok st' ∧ Rep a g st' place' (update out p objs) ∧
      Kept p st st' place place' ∧ ∀ pg', st'.pages p = some pg' → pg' = pg := by
  have rep : Rep a g (slabListInsert st₁ .empty p) _ _ := h.change pages placed.insert_update colour ok
  obtain ⟨st', place', eq, rep', others, same⟩ := reclaimLoop_spec _ _ _ rep
  refine ⟨st', place', eq, rep', fun q ne notEmpty => ?_, fun pg' page => ?_⟩
  · obtain ⟨samePlace, samePage⟩ := others q (by rwa [update_of_ne ne])
    rw [update_of_ne ne] at samePlace
    simp only [slabListInsert, pages, update_of_ne ne] at samePage
    exact ⟨samePlace, samePage⟩
  · have before := same p pg' page
    simp only [slabListInsert, pages, update_self, Option.some.injEq] at before
    exact before.symm

/-- Putting the last object back and retiring the page. -/
theorem Rep.retireFreed (pages : st₁.pages = update st.pages p (some { pg.put obj with owner := owner }))
    (placed : Placed st₁.lists (update place p none)) (colour : st₁.colourNext ≤ g.colour)
    (ok : PageOk a g p { pg.put obj with owner := owner } (some .empty) ((out p).erase obj)) :
    ∃ st' place', Slab.retire st₁ p = .ok st' ∧ Freed a g st place out p obj st' place' := by
  obtain ⟨st', place', eq, rep, kept, same⟩ := h.retire pages placed colour ok
  refine ⟨st', place', eq, rep, kept, fun pg' page => ?_⟩
  rw [same pg' page]
  exact mem_cons_self

theorem Rep.changeFreed
    {slot : Option ListId} (pages : st'.pages = update st.pages p (some { pg.put obj with owner := owner }))
    (placed : Placed st'.lists (update place p slot)) (colour : st'.colourNext ≤ g.colour)
    (ok : PageOk a g p { pg.put obj with owner := owner } slot ((out p).erase obj)) :
    Freed a g st place out p obj st' (update place p slot) := by
  refine ⟨h.change pages placed colour ok, Kept.update pages, fun pg' page => ?_⟩
  rw [pages, update_self] at page
  cases page
  exact mem_cons_self

end

/-! ### alloc -/

section

variable (h : Rep a g st place out) {frame : Option Nat}
include h

/-- Under the lock of a CPU `alloc` finds nothing, or takes an object from the first page of the
CPU, which leaves the list if that was its last. -/
theorem Rep.allocFast (cpu : Nat) : (allocFast st cpu = .ok (none, st) ∧ st.lists (.cpu cpu) = []) ∨
      ∃ p obj done slot st', allocFast st cpu = .ok (some (obj, done), st') ∧ place p = some (.cpu cpu) ∧
        pageOf a obj = p ∧ obj ∉ out p ∧ Rep a g st' (update place p slot) (update out p (obj :: out p)) ∧
        (∃ pg, st'.pages = update st.pages p (some pg)) ∧
        (done = none ∧ slot = some (.cpu cpu) ∨ done = some p ∧ slot = none) := by
  unfold Slab.allocFast
  split
  next none => exact .inl ⟨rfl, none⟩
  next p _ first =>
    obtain ⟨at_cpu, pg, page, ok⟩ := h.of_mem (first ▸ mem_cons_self)
    simp only [pageAt_eq page, ok_bind]
    cases list : pg.freelist with
    | nil => exact absurd list ok.state
    | cons obj rest =>
      have onPage : pageOf a obj = p := (ok.inside obj (by simp [list])).1
      have fresh : obj ∉ out p := ok.free_not_out (by simp [list])
      right
      by_cases full : rest = []
      · have filled := (ok.full_iff list).mpr full
        have taken : PageOk a g p _ none (obj :: out p) := ok.take list (-2) rfl (.inl full)
        refine ⟨p, obj, some p, none, (st.unlist (.cpu cpu) p).setPage p _, ?_, at_cpu, onPage, fresh,
          h.change rfl (h.placed.remove at_cpu) h.colour taken, ⟨_, rfl⟩, .inr ⟨rfl, rfl⟩⟩
        simp [if_pos filled, slabListRemove_eq _ h.placed at_cpu]
      · have notFilled := mt (ok.full_iff list).mp full
        have taken : PageOk a g p _ (some (.cpu cpu)) (obj :: out p) := ok.take list pg.owner ok.owner full
        refine ⟨p, obj, none, some (.cpu cpu), st.setPage p _, ?_, at_cpu, onPage, fresh,
          h.change rfl (h.placed.stay at_cpu) h.colour taken, ⟨_, rfl⟩, .inl ⟨rfl, rfl⟩⟩
        simp only [if_neg notFilled]
        rfl

/-- Under the slab lock `alloc` puts the page it filled on the full list, unless a free came
first. -/
theorem Rep.allocFinish (member : obj ∈ out p) :
    ∃ st' slot, allocFinish st p = .ok st' ∧ Rep a g st' (update place p slot) out ∧
      ∃ pg, st'.pages = update st.pages p (some pg) := by
  obtain ⟨pg, page⟩ := h.page member
  have ok := h.ok p pg page
  simp only [Slab.allocFinish, pageAt_eq page, ok_bind]
  by_cases transit : pg.owner = -2
  · have nowhere := ok.owner_transit.mp transit
    have state := ok.state
    rw [nowhere] at state
    -- an object is out, so the page in transit is a full one
    have full : pg.freelist = [] := state.resolve_right (ne_nil_of_mem member)
    have moved : PageOk a g p _ (some .full) (out p) := ok.move (-1) rfl full
    have rep : Rep a g (slabListInsert (st.setPage p _) .full p) _ _ :=
      h.change rfl (h.placed.insert nowhere) h.colour moved
    rw [update_eq_self] at rep
    exact ⟨_, _, if_pos transit, rep, _, rfl⟩
  · refine ⟨st, place p, if_neg transit, by rwa [update_eq_self], pg, ?_⟩
    rw [← page, update_eq_self]

/-- The page the slow path works on has a free object and is in no list. -/
theorem Rep.slowPage (ok : g.Ok a) (fresh : ∀ page ∈ frame, Frame a page ∧ st.pages page = none) :
    (slowPage a g st frame = .ok (none, st) ∧ frame = none ∧ st.lists .partials = []) ∨
      ∃ p pg st₁, slowPage a g st frame = .ok (some p, st₁) ∧
        (st.pages p = none ∧ p ∈ frame ∨ place p = some .partials) ∧ st₁.pages p = some pg ∧
        (∀ x, update st₁.pages p x = update st.pages p x) ∧
        Placed st₁.lists (update place p none) ∧ st₁.colourNext ≤ g.colour ∧
        PageOk a g p pg (some .partials) (out p) := by
  unfold Slab.slowPage
  split
  next p _ first =>
    obtain ⟨at_partials, pg, page, pageOk⟩ := h.of_mem (first ▸ mem_cons_self)
    right
    refine ⟨p, pg, st.unlist .partials p, ?_, .inr at_partials, page, fun _ => rfl,
      h.placed.remove at_partials, h.colour, pageOk⟩
    simp [slabListRemove_eq _ h.placed at_partials]
  next nothing =>
    cases frame with
    | none => exact .inl ⟨rfl, rfl, nothing⟩
    | some p =>
      obtain ⟨frame, unused⟩ := fresh p rfl
      -- A new frame is in no list of the cache.
      have nowhere : place p = none := by
        cases at_id : place p with
        | none => rfl
        | some id => exact absurd unused (h.listed p id at_id)
      obtain ⟨lower, upper⟩ := ok.room p st.colourNext frame h.colour
      generalize startEq : alignUp a (p + a.slabHeader + st.colourNext * cachelineSize) g.align = start at lower upper
      have enough : p + pageSize - start ≤ pageSize := by omega
      have length := length_carve ok.pos enough
      have some : 0 < (carve g (p + pageSize) pageSize start []).length := by
        rw [length]
        exact Nat.div_pos (by omega) ok.pos
      right
      refine ⟨p, _, _, rfl, .inl ⟨unused, rfl⟩, update_self .., fun x => update_idem .., h.placed.stay nowhere,
        Nat.le_of_lt_succ (Nat.mod_lt _ (Nat.succ_pos _)), ?_⟩
      · rw [h.gone p unused]
        have most : start + (carve g (p + pageSize) pageSize start []).length * g.objSize ≤ p + pageSize := by
          have fits := Nat.div_mul_le_self (p + pageSize - start) g.objSize
          rw [length]
          omega
        rw [startEq]
        refine ⟨rfl, rfl, rfl, some, ok.most p st.colourNext _ frame (startEq ▸ most) h.colour, by
          simpa using carve_nodup ok.pos enough, fun o member => ?_, ne_nil_of_length_pos some⟩
        rw [append_nil] at member
        have bounds := carve_inside ok.pos enough member
        have pos := ok.pos
        have start : p ≤ o := by omega
        have stop : o < p + pageSize := by omega
        exact ⟨frame.pageOf start stop, start, stop⟩

/-- The slow path of `alloc` fails if there is no page, or takes an object from a page that is now
the CPU's, or full. -/
theorem Rep.allocSlow (ok : g.Ok a) (cpu : Nat) (fresh : ∀ page ∈ frame, Frame a page ∧ st.pages page = none) :
    (allocSlow a g st cpu frame = .ok (none, st) ∧ frame = none ∧ st.lists .partials = []) ∨
      ∃ p obj slot st', allocSlow a g st cpu frame = .ok (some obj, st') ∧
        (st.pages p = none ∧ p ∈ frame ∨ place p = some .partials) ∧ pageOf a obj = p ∧ obj ∉ out p ∧
        Rep a g st' (update place p slot) (update out p (obj :: out p)) ∧
        ∃ pg, st'.pages = update st.pages p (some pg) := by
  rcases h.slowPage ok fresh with ⟨none, short⟩ | ⟨p, pg, st₁, found, origin, page, others, placed, colour, pageOk⟩
  · refine .inl ⟨?_, short⟩
    simp only [Slab.allocSlow, none, ok_bind]
    rfl
  simp only [Slab.allocSlow, found, ok_bind, pageAt_eq page]
  cases list : pg.freelist with
  | nil => exact absurd list pageOk.state
  | cons obj rest =>
    have onPage : pageOf a obj = p := (pageOk.inside obj (by simp [list])).1
    have notOut : obj ∉ out p := pageOk.free_not_out (by simp [list])
    have inserted := placed.insert_update (c := .cpu cpu)
    right
    by_cases full : rest = []
    · have filled := (pageOk.full_iff list).mpr full
      have taken : PageOk a g p _ (some .full) (obj :: out p) := pageOk.take list (-1) rfl full
      have removed := slabListRemove_eq (slabListInsert st₁ (.cpu cpu) p) inserted (update_self ..)
      refine ⟨p, obj, some .full, slabListInsert (((slabListInsert st₁ (.cpu cpu) p).unlist (.cpu cpu) p).setPage p _)
        .full p, ?_, origin, onPage, notOut, h.change
          (others _) inserted.remove_update.insert_update colour taken, _, others _⟩
      simp [if_pos filled, removed]
    · have notFilled := mt (pageOk.full_iff list).mp full
      have taken : PageOk a g p _ (some (.cpu cpu)) (obj :: out p) := pageOk.take list cpu rfl full
      refine ⟨p, obj, some (.cpu cpu), (slabListInsert st₁ (.cpu cpu) p).setPage p _, ?_, origin, onPage, notOut,
        h.change (others _) inserted colour taken, _, others _⟩
      simp only [if_neg notFilled]
      rfl

/-- An uninterrupted `alloc` takes an object from one page, which is a new one if it had to ask for
one. -/
theorem Rep.slabCacheAlloc (ok : g.Ok a) (cpu : Nat) (fresh : ∀ page ∈ frame, Frame a page ∧ st.pages page = none) :
    (slabCacheAlloc a g st cpu frame = .ok (none, st) ∧ frame = none ∧ st.lists (.cpu cpu) = [] ∧
    st.lists .partials = []) ∨
      ∃ p obj slot st', slabCacheAlloc a g st cpu frame = .ok (some obj, st') ∧
        (st.pages p ≠ none ∨ p ∈ frame) ∧ pageOf a obj = p ∧ obj ∉ out p ∧
        Rep a g st' (update place p slot) (update out p (obj :: out p)) ∧
        ∃ pg, st'.pages = update st.pages p (some pg) := by
  rcases h.allocFast cpu with ⟨none, own⟩ | ⟨p, obj, done, slot, st', eq, at_cpu, onPage, notOut,
    rep, ⟨pg, pages⟩, result⟩
  · simp only [Slab.slabCacheAlloc, none, ok_bind]
    rcases h.allocSlow ok cpu fresh with ⟨none, short, partials⟩ | ⟨p, obj, slot, st', eq, origin,
      onPage, notOut, rep, pages⟩
    · exact .inl ⟨none, short, own, partials⟩
    · refine .inr ⟨p, obj, slot, st', eq, ?_, onPage, notOut, rep, pages⟩
      rcases origin with ⟨-, new⟩ | at_partials
      · exact .inr new
      · exact .inl (h.listed p _ at_partials)
  right
  simp only [Slab.slabCacheAlloc, eq, ok_bind]
  have there : st.pages p ≠ none ∨ p ∈ frame := .inl (h.listed p _ at_cpu)
  rcases result with ⟨rfl, rfl⟩ | ⟨rfl, rfl⟩
  · exact ⟨p, obj, _, st', rfl, there, onPage, notOut, rep, pg, pages⟩
  · have member : obj ∈ update out p (obj :: out p) p := by simp
    obtain ⟨st'', slot, finished, rep', pg', pages'⟩ := rep.allocFinish member
    rw [update_idem] at rep'
    refine ⟨p, obj, slot, st'', by simp only [finished]; rfl, there, onPage, notOut, rep', pg', ?_⟩
    rw [pages', pages, update_idem]

end

/-! ### free -/

section

variable (h : Rep a g st place out)
include h

/-- Under the lock of its CPU `free` leaves a page of another CPU alone, or puts the object back; a
page it empties leaves the list. -/
theorem Rep.freeFast (cpu : Nat) (onPage : pageOf a obj = p) (member : obj ∈ out p) :
    freeFast a st cpu obj = .ok (.moved, st) ∨
      ∃ r slot st', freeFast a st cpu obj = .ok (r, st') ∧ place p = some (.cpu cpu) ∧
        Freed a g st place out p obj st' (update place p slot) ∧ st'.pages p ≠ none ∧
        (r = .done ∧ slot = some (.cpu cpu) ∨ r = .emptied p ∧ slot = none ∧ (out p).erase obj = []) := by
  obtain ⟨pg, page⟩ := h.page member
  have ok := h.ok p pg page
  simp only [Slab.freeFast, onPage, pageAt_eq page, ok_bind]
  by_cases mine : pg.owner = cpu
  · have at_cpu := (ok.owner_cpu cpu).mp mine
    have there (pg' : Page) : update st.pages p (some pg') p ≠ none := by simp
    right
    by_cases empty : (pg.put obj).inuse = 0
    · have last := (ok.emptied_iff member).mp empty
      have put : PageOk a g p _ none _ := ok.put member (-2) rfl (.inr last)
      refine ⟨.emptied p, none, (st.unlist (.cpu cpu) p).setPage p _, ?_, at_cpu,
        h.changeFreed rfl (h.placed.remove at_cpu) h.colour put, there _, .inr ⟨rfl, rfl, last⟩⟩
      simp [if_pos mine, if_pos empty, slabListRemove_eq _ h.placed at_cpu]
    · rw [at_cpu] at ok
      have put : PageOk a g p _ (some (.cpu cpu)) _ := ok.put member pg.owner ok.owner (cons_ne_nil _ _)
      refine ⟨.done, some (.cpu cpu), st.setPage p _, ?_, at_cpu,
        h.changeFreed rfl (h.placed.stay at_cpu) h.colour put, there _, .inl ⟨rfl, rfl⟩⟩
      simp only [if_pos mine, if_neg empty]
      rfl
  · left
    simp only [if_neg mine]
    rfl

theorem Rep.freeFinish (nowhere : place p = none) (empty : out p = []) (there : st.pages p ≠ none) :
    ∃ st' place', freeFinish st p = .ok st' ∧ Rep a g st' place' out ∧ Kept p st st' place place' ∧
      ∀ pg', st'.pages p = some pg' → ∃ pg, st.pages p = some pg ∧ pg'.freelist = pg.freelist := by
  obtain ⟨pg, page⟩ := Option.ne_none_iff_exists'.mp there
  have ok := h.ok p pg page
  have moved : PageOk a g p _ (some .empty) (out p) := ok.move (-1) rfl empty
  have pages : (st.setPage p { pg with owner := -1 }).pages = update st.pages p _ := rfl
  obtain ⟨st', place', eq, rep, kept, same⟩ := h.retire pages (h.placed.stay nowhere) h.colour moved
  rw [update_eq_self] at rep
  refine ⟨st', place', ?_, rep, kept, fun pg' page' => ⟨pg, page, by rw [same pg' page']⟩⟩
  simp only [Slab.freeFinish, pageAt_eq page, ok_bind, if_pos (ok.owner_transit.mpr nowhere)]
  exact eq

/-- A page that no CPU owns, once an object is back and the page is in no list, goes to the empty or
the partial list. -/
theorem Rep.settle (page : st.pages p = some pg) (member : obj ∈ out p) (owned : owner = -1)
    (pages : st₁.pages = update st.pages p (some { pg.put obj with owner := owner }))
    (placed : Placed st₁.lists (update place p none)) (colour : st₁.colourNext ≤ g.colour) :
    ∃ st' place', (if (pg.put obj).inuse = 0 then Slab.retire st₁ p else pure (slabListInsert st₁ .partials p)) =
        .ok st' ∧ Freed a g st place out p obj st' place' := by
  have ok := h.ok p pg page
  by_cases empty : (pg.put obj).inuse = 0
  · have last := (ok.emptied_iff member).mp empty
    have put : PageOk a g p _ (some .empty) _ := ok.put member owner owned last
    rw [if_pos empty]
    exact h.retireFreed pages placed colour put
  · have put : PageOk a g p _ (some .partials) _ := ok.put member owner owned (cons_ne_nil _ _)
    rw [if_neg empty]
    exact ⟨_, _, rfl, h.changeFreed pages placed.insert_update colour put⟩

theorem Rep.freeRest (onPage : pageOf a obj = p)
    (page : st.pages p = some pg) (member : obj ∈ out p) (unowned : ∀ i, place p ≠ some (.cpu i)) :
    ∃ st' place', freeRest a st obj pg.owner = .ok st' ∧ Freed a g st place out p obj st' place' := by
  have ok := h.ok p pg page
  have state := ok.state
  simp only [Slab.freeRest, onPage, pageAt_eq page, ok_bind]
  cases slot : place p with
  | none =>
    -- in transit
    have transit := ok.owner_transit.mpr slot
    simp only [if_pos transit]
    exact h.settle page member rfl rfl (h.placed.stay slot) h.colour
  | some id =>
    have settled : pg.owner ≠ -2 := mt ok.owner_transit.mp (by simp [slot])
    rw [slot] at ok state
    simp only [if_neg settled]
    cases id with
    | cpu i => exact absurd slot (unowned i)
    | empty =>
      rw [show out p = [] from state] at member
      cases member
    | full =>
      have full : pg.inuse = (pg.put obj).objCount := ok.full_iff_inuse.mpr state
      have removed := slabListRemove_eq (st.setPage p (pg.put obj)) h.placed slot
      rw [if_pos full]
      simp only [removed]
      exact h.settle page member ok.owner rfl (h.placed.remove slot) h.colour
    | partials =>
      have notFull : pg.inuse ≠ (pg.put obj).objCount := mt ok.full_iff_inuse.mp state
      rw [if_neg notFull]
      by_cases empty : (pg.put obj).inuse = 0
      · have last := (ok.emptied_iff member).mp empty
        have removed := slabListRemove_eq (st.setPage p (pg.put obj)) h.placed slot
        have put : PageOk a g p _ (some .empty) _ := ok.put member pg.owner ok.owner last
        rw [if_pos empty]
        simp only [removed]
        exact h.retireFreed rfl (h.placed.remove slot) h.colour put
      · have put : PageOk a g p _ (some .partials) _ := ok.put member pg.owner ok.owner (cons_ne_nil _ _)
        rw [if_neg empty]
        exact ⟨_, _, rfl, h.changeFreed rfl (h.placed.stay slot) h.colour put⟩

/-- The slow path of `free` finds a page that a CPU owns, or is done. -/
theorem Rep.freeSlow (onPage : pageOf a obj = p) (member : obj ∈ out p) :
    (∃ i, freeSlow a st obj = .ok (some i, st) ∧ place p = some (.cpu i)) ∨
      ∃ st' place', freeSlow a st obj = .ok (none, st') ∧ Freed a g st place out p obj st' place' := by
  obtain ⟨pg, page⟩ := h.page member
  have ok := h.ok p pg page
  simp only [Slab.freeSlow, onPage, pageAt_eq page, ok_bind]
  by_cases owned : 0 ≤ pg.owner
  · left
    refine ⟨pg.owner.toNat, ?_, (ok.owner_cpu _).mp (Int.toNat_of_nonneg owned).symm⟩
    rw [if_pos owned]
    rfl
  · have unowned : ∀ i, place p ≠ some (.cpu i) := fun i at_cpu => by
      have eq := (ok.owner_cpu i).mpr at_cpu
      omega
    obtain ⟨st', place', eq, freed⟩ := h.freeRest onPage page member unowned
    right
    refine ⟨st', place', ?_, freed⟩
    rw [if_neg owned, eq]
    rfl

/-- With both locks `free` puts the object back, whether the CPU still owns the page or has filled
it since. -/
theorem Rep.freeLocked {obj i : Nat} (onPage : pageOf a obj = p)
    (member : obj ∈ out p) (slot : place p = some (.cpu i) ∨ place p = none) :
    ∃ st' place', freeLocked a st obj i = .ok st' ∧ Freed a g st place out p obj st' place' := by
  obtain ⟨pg, page⟩ := h.page member
  have ok := h.ok p pg page
  simp only [Slab.freeLocked, onPage, pageAt_eq page, ok_bind]
  rcases slot with at_cpu | nowhere
  · rw [if_pos ((ok.owner_cpu i).mpr at_cpu)]
    by_cases empty : (pg.put obj).inuse = 0
    · have last := (ok.emptied_iff member).mp empty
      have put : PageOk a g p _ (some .empty) _ := ok.put member (-1) rfl last
      simp only [if_pos empty, slabListRemove_eq _ h.placed at_cpu]
      exact h.retireFreed rfl (h.placed.remove at_cpu) h.colour put
    · rw [at_cpu] at ok
      have put : PageOk a g p _ (some (.cpu i)) _ := ok.put member pg.owner ok.owner (cons_ne_nil _ _)
      rw [if_neg empty]
      exact ⟨_, _, rfl, h.changeFreed rfl (h.placed.stay at_cpu) h.colour put⟩
  · have moved : pg.owner ≠ i := mt (ok.owner_cpu i).mp (by simp [nowhere])
    rw [if_neg moved]
    exact h.freeRest onPage page member (by simp [nowhere])

theorem Rep.slabCacheFree (cpu : Nat) (onPage : pageOf a obj = p) (member : obj ∈ out p) :
    ∃ st' place', slabCacheFree a st cpu obj = .ok st' ∧ Freed a g st place out p obj st' place' := by
  obtain ⟨pg, page⟩ := h.page member
  have fast : (∃ st' place', Slab.slabCacheFree a st cpu obj = .ok st' ∧ Freed a g st place out p obj st' place') ∨
      (if pg.owner = cpu then Slab.freeFast a st cpu obj else pure (.moved, st)) = .ok (.moved, st) := by
    by_cases mine : pg.owner = cpu
    · rw [if_pos mine]
      rcases h.freeFast cpu onPage member with moved | ⟨r, slot, st', eq, -, freed, there, result⟩
      · exact .inr moved
      · left
        simp only [Slab.slabCacheFree, onPage, pageAt_eq page, ok_bind, if_pos mine, eq]
        rcases result with ⟨rfl, rfl⟩ | ⟨rfl, rfl, last⟩
        · exact ⟨st', _, rfl, freed⟩
        · obtain ⟨st'', place'', finished, rep', kept', same⟩ := freed.rep.freeFinish (update_self ..)
            (by rw [update_self]; exact last) there
          refine ⟨st'', place'', finished, rep', freed.kept.trans kept', fun pg' page' => ?_⟩
          obtain ⟨pg₁, page₁, list⟩ := same pg' page'
          rw [list]
          exact freed.back pg₁ page₁
    · exact .inr (if_neg mine)
  rcases fast with done | moved
  · exact done
  · -- the slow path
    simp only [Slab.slabCacheFree, onPage, pageAt_eq page, ok_bind, moved]
    rcases h.freeSlow onPage member with ⟨i, eq, at_cpu⟩ | ⟨st', place', eq, freed⟩
    · simp only [eq, ok_bind]
      exact h.freeLocked onPage member (.inl at_cpu)
    · exact ⟨st', place', by simp only [eq, ok_bind]; rfl, freed⟩

end

end Jlos.Slab
