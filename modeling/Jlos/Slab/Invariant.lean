import Jlos.Lib.Loop
import Jlos.Lib.Placed
import Jlos.Slab.Geometry

/-!
# The slab invariant

`place` says in which list a page is, and a page that is in none is in transit; `out` lists the
objects of a page that are not on its free list. Both are ghosts: `Rep` says that a state represents
them.
-/
namespace Jlos.Slab

open Lib Function List State

variable {a : Arch} {g : Geometry} {slot' : Option ListId}

/-- The owner field of a page, by the list it is in. -/
def ownerOf : Option ListId → Int
  | none => -2
  | some (.cpu i) => i
  | some .partials | some .full | some .empty => -1

/-- What the list a page is in says about its objects. -/
def SlotState : Option ListId → List Nat → List Nat → Prop
  | none, freelist, out => freelist = [] ∨ out = []
  | some (.cpu _), freelist, _ | some .partials, freelist, _ => freelist ≠ []
  | some .full, freelist, _ => freelist = []
  | some .empty, _, out => out = []

structure PageOk (a : Arch) (g : Geometry) (p : Nat) (pg : Page) (slot : Option ListId) (out : List Nat) :
    Prop where
  owner : pg.owner = ownerOf slot
  inuse : pg.inuse = out.length
  count : pg.freelist.length + out.length = pg.objCount
  pos : 0 < pg.objCount
  most : pg.objCount ≤ g.pg1Num
  nodup : (pg.freelist ++ out).Nodup
  inside : ∀ o ∈ pg.freelist ++ out, pageOf a o = p ∧ p ≤ o ∧ o < p + pageSize
  state : SlotState slot pg.freelist out

/-- The state represents the placement of the pages and the objects that are out. -/
structure Rep (a : Arch) (g : Geometry) (st : State) (place : Nat → Option ListId) (out : Nat → List Nat) :
    Prop where
  placed : Placed st.lists place
  listed : ∀ p id, place p = some id → st.pages p ≠ none
  ok : ∀ p pg, st.pages p = some pg → PageOk a g p pg (place p) (out p)
  gone : ∀ p, st.pages p = none → out p = []
  colour : st.colourNext ≤ g.colour

/-! ### Objects of one page -/

section page

variable {p : Nat} {pg : Page} {slot : Option ListId} {out : List Nat} {obj : Nat}

section

variable (h : PageOk a g p pg slot out)
include h

theorem PageOk.take {rest : List Nat} (first : pg.freelist = obj :: rest) (owner : Int) (owned : owner = ownerOf slot')
    (state : SlotState slot' rest (obj :: out)) :
    PageOk a g p { pg with freelist := rest, inuse := pg.inuse + 1, owner := owner } slot' (obj :: out) := by
  have count := h.count
  have nodup := h.nodup
  have inside := h.inside
  simp only [first, cons_append, length_cons] at count nodup inside
  refine ⟨owned, by rw [h.inuse, length_cons], by simp only [length_cons]; omega, h.pos, h.most,
    nodup_middle.mpr nodup, fun o member => inside o ?_, state⟩
  exact perm_middle.subset member

theorem PageOk.put (member : obj ∈ out) (owner : Int)
    (owned : owner = ownerOf slot') (state : SlotState slot' (obj :: pg.freelist) (out.erase obj)) :
    PageOk a g p { pg.put obj with owner := owner } slot' (out.erase obj) := by
  have count := h.count
  have pos := length_pos_of_mem member
  have length := length_erase_of_mem member
  have perm : (pg.freelist ++ out).Perm (obj :: pg.freelist ++ out.erase obj) :=
    ((perm_cons_erase member).append_left pg.freelist).trans perm_middle
  refine ⟨owned, by simp [Page.put, h.inuse, length], ?_, h.pos, h.most, perm.nodup h.nodup,
    fun o inPage => h.inside o (perm.symm.subset inPage), state⟩
  simp only [Page.put, length_cons, length]
  omega

theorem PageOk.move (owner : Int) (owned : owner = ownerOf slot') (state : SlotState slot' pg.freelist out) :
    PageOk a g p { pg with owner := owner } slot' out :=
  ⟨owned, h.inuse, h.count, h.pos, h.most, h.nodup, h.inside, state⟩

theorem PageOk.full_iff {rest : List Nat} (first : pg.freelist = obj :: rest) :
    pg.inuse + 1 = pg.objCount ↔ rest = [] := by
  have count := h.count
  simp only [first, length_cons] at count
  rw [h.inuse, ← length_eq_zero_iff]
  omega

theorem PageOk.emptied_iff (member : obj ∈ out) : (pg.put obj).inuse = 0 ↔ out.erase obj = [] := by
  rw [← length_eq_zero_iff, length_erase_of_mem member, Page.put, h.inuse]

theorem PageOk.full_iff_inuse : pg.inuse = pg.objCount ↔ pg.freelist = [] := by
  have count := h.count
  rw [h.inuse, ← length_eq_zero_iff]
  omega

theorem PageOk.free_not_out (free : obj ∈ pg.freelist) : obj ∉ out :=
  fun member => (nodup_append.mp h.nodup).2.2 obj free obj member rfl

theorem PageOk.owner_cpu (cpu : Nat) : pg.owner = cpu ↔ slot = some (.cpu cpu) := by
  rw [h.owner]
  cases slot with
  | none => simp [ownerOf, reduceCtorEq]
  | some id =>
    cases id with
    | cpu i => simp [ownerOf]
    | partials | full | empty => simp [ownerOf, reduceCtorEq]

theorem PageOk.owner_transit : pg.owner = -2 ↔ slot = none := by
  rw [h.owner]
  cases slot with
  | none => simp [ownerOf]
  | some id =>
    cases id with
    | cpu i => simp [ownerOf, reduceCtorEq]
    | partials | full | empty => simp [ownerOf]

end

end page

/-! ### Changing one page -/

section change

variable {st st' : State} {place : Nat → Option ListId} {out : Nat → List Nat} {p obj : Nat}

theorem rep_fresh : Rep a g fresh (fun _ => none) fun _ => [] :=
  ⟨Placed.empty, nofun, nofun, fun _ _ => rfl, Nat.zero_le _⟩

theorem mem_out_cons (onPage : pageOf a obj = p) (x : Nat) :
    x ∈ update out p (obj :: out p) (pageOf a x) ↔ x = obj ∨ x ∈ out (pageOf a x) := by
  by_cases same : pageOf a x = p
  · rw [same, update_self, mem_cons]
  · rw [update_of_ne same]
    constructor
    · exact Or.inr
    · rintro (rfl | member)
      · exact absurd onPage same
      · exact member

theorem Rep.mem_out_erase (h : Rep a g st place out) (onPage : pageOf a obj = p) (x : Nat) :
    x ∈ update out p ((out p).erase obj) (pageOf a x) ↔ x ≠ obj ∧ x ∈ out (pageOf a x) := by
  have nodup : (out p).Nodup := by
    cases page : st.pages p with
    | none => rw [h.gone p page]; exact nodup_nil
    | some pg => exact (nodup_append.mp (h.ok p pg page).nodup).2.1
  by_cases same : pageOf a x = p
  · rw [same, update_self, nodup.mem_erase_iff]
  · rw [update_of_ne same]
    constructor
    · refine fun member => ⟨?_, member⟩
      rintro rfl
      exact same onPage
    · exact And.right

theorem Rep.of_mem (h : Rep a g st place out) {id : ListId} (member : p ∈ st.lists id) :
    place p = some id ∧ ∃ pg, st.pages p = some pg ∧ PageOk a g p pg (some id) (out p) := by
  have at_id := (h.placed.mem id p).mp member
  obtain ⟨pg, page⟩ := Option.ne_none_iff_exists'.mp (h.listed p id at_id)
  exact ⟨at_id, pg, page, at_id ▸ h.ok p pg page⟩

/-- A section that changes one page and its place. -/
theorem Rep.change (h : Rep a g st place out) {pg : Page} {slot : Option ListId} {objs : List Nat}
    (pages : st'.pages = update st.pages p (some pg))
    (placed : Placed st'.lists (update place p slot)) (colour : st'.colourNext ≤ g.colour)
    (ok : PageOk a g p pg slot objs) : Rep a g st' (update place p slot) (update out p objs) := by
  refine ⟨placed, fun q id at_id => ?_, fun q qg page => ?_, fun q none => ?_, colour⟩
  · rw [pages]
    obtain rfl | same := eq_or_ne q p
    · rw [update_self]
      exact nofun
    · rw [update_of_ne same] at at_id ⊢
      exact h.listed q id at_id
  · rw [pages] at page
    obtain rfl | same := eq_or_ne q p
    · rw [update_self] at page ⊢
      rw [update_self]
      cases page
      exact ok
    · rw [update_of_ne same] at page ⊢
      rw [update_of_ne same]
      exact h.ok q qg page
  · rw [pages] at none
    obtain rfl | same := eq_or_ne q p
    · rw [update_self] at none
      cases none
    · rw [update_of_ne same] at none ⊢
      exact h.gone q none

theorem Rep.drop (h : Rep a g st place out) (at_empty : place p = some .empty) :
    Rep a g (slabPageFree (st.unlist .empty p) p) (update place p none) out := by
  obtain ⟨pg, page⟩ := Option.ne_none_iff_exists'.mp (h.listed p .empty at_empty)
  have state := (h.ok p pg page).state
  rw [at_empty] at state
  refine ⟨h.placed.remove at_empty, fun q id at_id => ?_, fun q qg there => ?_, fun q none => ?_, h.colour⟩
  · obtain rfl | same := eq_or_ne q p
    · rw [update_self] at at_id
      cases at_id
    · rw [update_of_ne same] at at_id
      simp only [slabPageFree, unlist, update_of_ne same]
      exact h.listed q id at_id
  · obtain rfl | same := eq_or_ne q p
    · simp only [slabPageFree, update_self] at there
      cases there
    · simp only [slabPageFree, unlist, update_of_ne same] at there ⊢
      exact h.ok q qg there
  · obtain rfl | same := eq_or_ne q p
    · exact state
    · simp only [slabPageFree, unlist, update_of_ne same] at none
      exact h.gone q none

theorem slabListRemove_eq (st : State) (h : Placed st.lists place) {id : ListId} (at_id : place p = some id) :
    slabListRemove st id p = .ok (st.unlist id p) := by
  simp only [slabListRemove, if_pos ((h.mem id p).mpr at_id)]
  rfl

theorem pageAt_eq {pg : Page} (page : st.pages p = some pg) : pageAt st p = .ok pg := by
  simp only [pageAt, page]
  rfl

/-- Reclaiming gives back empty pages, touches no other, and changes none. -/
theorem reclaimLoop_spec : ∀ fuel (st : State) (place : Nat → Option ListId), Rep a g st place out →
    ∃ st' place', reclaimLoop fuel st = .ok st' ∧ Rep a g st' place' out ∧
      (∀ q, place q ≠ some .empty → place' q = place q ∧ st'.pages q = st.pages q) ∧
      ∀ q pg, st'.pages q = some pg → st.pages q = some pg := by
  intro fuel
  induction fuel with
  | zero => exact fun st place h => ⟨st, place, rfl, h, fun q _ => ⟨rfl, rfl⟩, fun _ _ => id⟩
  | succ fuel ih =>
    intro st place h
    unfold reclaimLoop
    split
    · exact ⟨st, place, rfl, h, fun q _ => ⟨rfl, rfl⟩, fun _ _ => id⟩
    next victim rest first =>
      split
      · have at_empty : place victim = some .empty := (h.of_mem (first ▸ mem_cons_self)).1
        obtain ⟨st', place', eq, rep, others, same⟩ := ih _ _ (h.drop at_empty)
        refine ⟨st', place', ?_, rep, fun q kept => ?_, fun q pg page => ?_⟩
        · simp only [slabListRemove_eq _ h.placed at_empty, ok_bind]
          exact eq
        · have ne : q ≠ victim := by
            rintro rfl
            exact kept at_empty
          obtain ⟨samePlace, samePage⟩ := others q (by rwa [update_of_ne ne])
          rw [update_of_ne ne] at samePlace
          simp only [slabPageFree, unlist, update_of_ne ne] at samePage
          exact ⟨samePlace, samePage⟩
        · have before := same q pg page
          obtain rfl | gone := eq_or_ne q victim
          · simp only [slabPageFree, update_self] at before
            cases before
          · simpa only [slabPageFree, unlist, update_of_ne gone] using before
      · exact ⟨st, place, rfl, h, fun q _ => ⟨rfl, rfl⟩, fun _ _ => id⟩

end change

end Jlos.Slab
