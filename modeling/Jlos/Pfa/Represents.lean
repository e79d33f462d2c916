import Jlos.Pfa.Model

/-!
# The representation invariant of the page frame allocator

A location function says for every frame where it is: in a free block, on a per-cpu list, in use,
dropped (its last reference is gone, the frame not yet given back) or detached (while an operation
moves it). `Represents` ties the lists, the per-page bytes and the bitmap to one such function.
-/
namespace Jlos.Pfa

open Lib List InBlock
open Function (update update_of_ne update_self)

inductive Loc
  | block (head order : Nat)
  | cached (cpu : Nat)
  | used
  | dropped
  | detached
  deriving DecidableEq

/-- The frame is in a free block or on a per-cpu list. -/
def Loc.listed : Loc → Bool
  | .block _ _ | .cached _ => true
  | _ => false

/-- A descriptor of a free frame, with the given order byte. -/
def Page.Vacant (pg : Page) (order : Nat) : Prop :=
  pg.occupied = false ∧ pg.refcount = 0 ∧ pg.type = .free ∧ pg.order = order

/-- What the descriptor of frame `i` says when the frame is at a location. -/
def Loc.PageOk : Loc → Nat → Page → Prop
  | .block head order, i, pg => pg.Vacant (if i = head then order else orderInvalid)
  | .cached _, _, pg => pg.Vacant orderInvalid
  | .used, _, pg => pg.occupied = true ∧ 0 < pg.refcount
  | .dropped, _, pg => pg.occupied = true ∧ pg.refcount = 0
  | .detached, _, pg => pg.Vacant orderInvalid

/-- The location function `loc` with the frames of `P` moved to `l`. -/
def relocate (loc : Nat → Loc) (P : Nat → Prop) [DecidablePred P] (l : Loc) : Nat → Loc :=
  fun i => if P i then l else loc i

variable {l : Loc} {f i o : Nat} {loc : Nat → Loc}

theorem relocate_pos {P : Nat → Prop} [DecidablePred P] (h : P i) : relocate loc P l i = l := if_pos h

theorem relocate_neg {P : Nat → Prop} [DecidablePred P] (h : ¬P i) : relocate loc P l i = loc i := if_neg h

structure Represents (s : State) (loc : Nat → Loc) : Prop where
  in_phys : s.startAddr + s.totalFrames * pageSize ≤ 2 ^ 32
  order_le : ∀ {f o}, f ∈ s.freeArea o → o ≤ maxOrder
  aligned : ∀ {f o}, f ∈ s.freeArea o → 2 ^ o ∣ f
  inside : ∀ {f o}, f ∈ s.freeArea o → f + 2 ^ o ≤ s.totalFrames
  loc_of_mem : ∀ {f o i}, f ∈ s.freeArea o → InBlock f o i → loc i = .block f o
  mem_of_loc : ∀ {f o i}, i < s.totalFrames → loc i = .block f o → f ∈ s.freeArea o ∧ InBlock f o i
  area_nodup : ∀ o, (s.freeArea o).Nodup
  bitmap : ∀ o, s.freeOrderBitmap.getLsbD o = true ↔ s.freeArea o ≠ []
  mem_percpu : ∀ c f, f ∈ (s.percpu c).freeList ↔ f < s.totalFrames ∧ loc f = .cached c
  percpu_nodup : ∀ c, (s.percpu c).freeList.Nodup
  percpu_count : ∀ c, (s.percpu c).count = (s.percpu c).freeList.length
  page : ∀ i, i < s.totalFrames → (loc i).PageOk i (s.pages i)

/-! ### Linking and unlinking a block -/

/-- The state after `buddy_insert` has passed its checks. -/
def State.link (s : State) (f o : Nat) : State :=
  { s with
    freeOrderBitmap :=
      if s.freeArea o = [] then s.freeOrderBitmap.setBit o else s.freeOrderBitmap
    freeArea := update s.freeArea o (f :: s.freeArea o)
    pages := update s.pages f { s.pages f with order := o } }

/-- The state after `buddy_remove` has passed its checks on a block of the free area. -/
def State.unlink (s : State) (f o : Nat) : State :=
  { s with
    freeOrderBitmap :=
      if (s.freeArea o).erase f = [] then s.freeOrderBitmap.clearBit o else s.freeOrderBitmap
    freeArea := update s.freeArea o ((s.freeArea o).erase f)
    pages := update s.pages f { s.pages f with order := orderInvalid } }

section fields

variable (s : State) (f o : Nat)

@[simp] theorem link_totalFrames : (s.link f o).totalFrames = s.totalFrames := rfl

@[simp] theorem link_freeFrames : (s.link f o).freeFrames = s.freeFrames := rfl

@[simp] theorem unlink_freeFrames : (s.unlink f o).freeFrames = s.freeFrames := rfl

variable {s f o}

theorem link_pages_of_ne (ne : i ≠ f) : (s.link f o).pages i = s.pages i := update_of_ne ne _ _

theorem unlink_pages_of_ne (ne : i ≠ f) : (s.unlink f o).pages i = s.pages i := update_of_ne ne _ _

end fields

variable {s : State} {loc : Nat → Loc} {f o : Nat}

attribute [local simp] State.setPercpu State.link State.unlink

open State

namespace Represents

section

variable (h : Represents s loc)
include h

theorem mem_head (member : f ∈ s.freeArea o) : loc f = .block f o := h.loc_of_mem member (self f o)

theorem head_lt (member : f ∈ s.freeArea o) : f < s.totalFrames := by
  have bound := h.inside member
  have pos := Nat.two_pow_pos o
  omega

theorem head_page (member : f ∈ s.freeArea o) : (s.pages f).Vacant o := by
  have ok := h.page f (h.head_lt member)
  rw [h.mem_head member] at ok
  simpa [Loc.PageOk] using ok

theorem mem_of_page (lt : f < s.totalFrames) (le : o ≤ maxOrder)
    (order : (s.pages f).order = o) (vacant : (s.pages f).occupied = false) : f ∈ s.freeArea o := by
  have ne : o ≠ orderInvalid := by
    simp only [maxOrder, orderInvalid] at *
    omega
  have ok := h.page f lt
  cases hl : loc f with
  | block head order' =>
    rw [hl] at ok
    obtain ⟨-, -, -, eq⟩ := ok
    by_cases first : f = head
    · rw [if_pos first] at eq
      subst first
      rw [← order, eq]
      exact (h.mem_of_loc lt hl).1
    · rw [if_neg first, order] at eq
      exact absurd eq ne
  | cached c =>
    rw [hl] at ok
    exact absurd (order.symm.trans ok.2.2.2) ne
  | detached =>
    rw [hl] at ok
    exact absurd (order.symm.trans ok.2.2.2) ne
  | used | dropped =>
    rw [hl] at ok
    rw [ok.1] at vacant
    exact absurd vacant (by decide)

theorem vacant_of_listed (lt : f < s.totalFrames)
    (listed : (loc f).listed = true) : ∃ order, (s.pages f).Vacant order := by
  have ok := h.page f lt
  cases hl : loc f with
  | block head size =>
    rw [hl] at ok
    exact ⟨_, ok⟩
  | cached c =>
    rw [hl] at ok
    exact ⟨_, ok⟩
  | used | dropped | detached =>
    rw [hl] at listed
    cases listed

theorem not_mem_other (member : f ∈ s.freeArea o) {o' : Nat} (ne : o' ≠ o) : f ∉ s.freeArea o' := by
  intro other
  have eq := (h.mem_head member).symm.trans (h.mem_head other)
  exact ne (Loc.block.inj eq).2.symm

theorem not_mem_percpu (member : f ∈ s.freeArea o) (c : Nat) : f ∉ (s.percpu c).freeList := by
  intro other
  have cached := ((h.mem_percpu c f).mp other).2
  rw [h.mem_head member] at cached
  exact Loc.noConfusion cached

theorem buddyInsert_eq (aligned : 2 ^ o ∣ f) (inside : f + 2 ^ o ≤ s.totalFrames) (detached : loc f = .detached) :
    buddyInsert s f o = .ok (s.link f o) := by
  have page := h.page f (by omega)
  rw [detached] at page
  obtain ⟨vacant, -, -, invalid⟩ := page
  have bounds : ¬(f ≥ s.totalFrames ∨ f + orderToFrames o > s.totalFrames) := by
    simp only [orderToFrames]
    omega
  have mask : ¬(f &&& (orderToFrames o - 1) ≠ 0) := by
    simpa only [orderToFrames, ne_eq, not_not] using (and_pred_eq_zero_iff f o).mpr aligned
  simp only [buddyInsert, if_neg bounds, if_neg mask, vacant, invalid, ne_eq, not_true_eq_false,
    false_and, if_false, Bool.false_eq_true]
  by_cases empty : s.freeArea o = []
  · simp [empty, setFreeArea, modPage, pure, Except.pure]
  · simp [empty, setFreeArea, modPage, pure, Except.pure]

theorem listDel_eq (member : f ∈ s.freeArea o) : listDel s f = s.setFreeArea o ((s.freeArea o).erase f) := by
  have area : (fun order => (s.freeArea order).erase f) = update s.freeArea o ((s.freeArea o).erase f) := by
    funext o'
    obtain rfl | eq := eq_or_ne o' o
    · simp
    · rw [update_of_ne eq, erase_of_not_mem (h.not_mem_other member eq)]
  have cpus : (fun cpu => { s.percpu cpu with freeList := (s.percpu cpu).freeList.erase f }) = s.percpu := by
    funext c
    rw [erase_of_not_mem (h.not_mem_percpu member c)]
  simp [listDel, setFreeArea, area, cpus]

theorem buddyRemove_eq (member : f ∈ s.freeArea o) : buddyRemove s f o = .ok (s.unlink f o) := by
  have bound := h.inside member
  have pos := Nat.two_pow_pos o
  have small := h.order_le member
  have page := h.head_page member
  have bounds : ¬(f ≥ s.totalFrames ∨ f + orderToFrames o > s.totalFrames) := by
    simp only [orderToFrames]
    omega
  have link : linked s f = true := by
    simp only [linked, Bool.or_eq_true, any_eq_true, mem_range, decide_eq_true_eq]
    exact Or.inl ⟨o, by omega, member⟩
  have valid : ¬((s.pages f).order ≠ o ∨ (s.pages f).order = orderInvalid ∨ linked s f = false) := by
    simp only [page.2.2.2, link, orderInvalid, maxOrder] at small ⊢
    simp only [ne_eq, not_true_eq_false, Bool.true_eq_false, or_false, false_or]
    omega
  simp only [buddyRemove, if_neg bounds, if_neg valid, h.listDel_eq member]
  by_cases empty : (s.freeArea o).erase f = []
  · simp [empty, setFreeArea, modPage, pure, Except.pure]
  · simp [empty, setFreeArea, modPage, pure, Except.pure]

theorem block_unique (member : f ∈ s.freeArea o) {f' o' : Nat}
    (other : f' ∈ s.freeArea o') (inl : InBlock f o i) (inr : InBlock f' o' i) : f' = f ∧ o' = o := by
  have eq := (h.loc_of_mem other inr).symm.trans (h.loc_of_mem member inl)
  exact Loc.block.inj eq

/-- A block whose frames are all on the free list of its order, or all detached, goes to the other
side. -/
theorem moveBlock {area : Nat → List Nat} {bitmap : BitVec 32} (on : Bool) (le : o ≤ maxOrder) (aligned : 2 ^ o ∣ f)
    (inside : f + 2 ^ o ≤ s.totalFrames) (all : ∀ i, InBlock f o i → loc i = if on then .detached else .block f o)
    (mem : ∀ f' o', f' ∈ area o' ↔ if f' = f ∧ o' = o then on = true else f' ∈ s.freeArea o')
    (nodup : ∀ o', (area o').Nodup) (bits : ∀ o', bitmap.getLsbD o' = true ↔ area o' ≠ []) : Represents { s with
        freeArea := area
        freeOrderBitmap := bitmap
        pages := update s.pages f { s.pages f with order := if on then o else orderInvalid } }
      (relocate loc (InBlock f o) (if on then .block f o else .detached)) := by
  have old : ∀ {f' o'}, f' ∈ area o' → ¬(f' = f ∧ o' = o) → f' ∈ s.freeArea o' := fun {f' o'} member away =>
    (if_neg away).mp ((mem f' o').mp member)
  -- No other block of a list meets this one.
  have apart : ∀ {f' o' i}, f' ∈ s.freeArea o' → ¬(f' = f ∧ o' = o) → InBlock f' o' i → ¬InBlock f o i := by
    intro f' o' i member away inr inl
    have eq := (all i inl).symm.trans (h.loc_of_mem member inr)
    cases on <;> cases eq
    exact away ⟨rfl, rfl⟩
  have bounds : ∀ {f' o'}, f' ∈ area o' → o' ≤ maxOrder ∧ 2 ^ o' ∣ f' ∧ f' + 2 ^ o' ≤ s.totalFrames := by
    intro f' o' member
    by_cases here : f' = f ∧ o' = o
    · obtain ⟨rfl, rfl⟩ := here
      exact ⟨le, aligned, inside⟩
    · have old := old member here
      exact ⟨h.order_le old, h.aligned old, h.inside old⟩
  refine ⟨h.in_phys, fun member => (bounds member).1, fun member => (bounds member).2.1,
    fun member => (bounds member).2.2, fun {f' o' i} member inr => ?_, fun {f' o' i} lt hl => ?_, nodup, bits,
    fun c i => ?_, h.percpu_nodup, h.percpu_count, fun i lt => ?_⟩
  · by_cases here : f' = f ∧ o' = o
    · have listed := (mem f' o').mp member
      rw [if_pos here] at listed
      obtain ⟨rfl, rfl⟩ := here
      rw [relocate_pos inr, if_pos listed]
    · rw [relocate_neg (apart (old member here) here inr)]
      exact h.loc_of_mem (old member here) inr
  · by_cases inl : InBlock f o i
    · rw [relocate_pos inl] at hl
      cases on <;> cases hl
      exact ⟨(mem f o).mpr (by simp), inl⟩
    · rw [relocate_neg inl] at hl
      obtain ⟨old, inr⟩ := h.mem_of_loc lt hl
      refine ⟨(mem f' o').mpr ?_, inr⟩
      rwa [if_neg (by rintro ⟨rfl, rfl⟩; exact inl inr)]
  all_goals by_cases inl : InBlock f o i
  · have old := h.mem_percpu c i
    rw [all i inl] at old
    rw [relocate_pos inl]
    cases on <;> simpa using old
  · rw [relocate_neg inl]
    exact h.mem_percpu c i
  · have ok := h.page i lt
    rw [all i inl] at ok
    rw [relocate_pos inl]
    obtain rfl | first := eq_or_ne i f <;> cases on <;> simp_all [Loc.PageOk, Page.Vacant]
  · have ne : i ≠ f := fun eq => inl (eq ▸ self f o)
    rw [relocate_neg inl]
    simpa [update_of_ne ne] using h.page i lt

theorem link (le : o ≤ maxOrder) (aligned : 2 ^ o ∣ f)
    (inside : f + 2 ^ o ≤ s.totalFrames) (detached : ∀ i, InBlock f o i → loc i = .detached) :
    Represents (s.link f o) (relocate loc (InBlock f o) (.block f o)) := by
  have absent : f ∉ s.freeArea o := fun member => by
    have eq := (detached f (self f o)).symm.trans (h.mem_head member)
    cases eq
  have bound : o < 32 := by
    simp only [maxOrder] at le
    omega
  refine h.moveBlock true le aligned inside detached (fun f' o' => ?_) (fun o' => ?_) fun o' => ?_
  all_goals obtain rfl | eq := eq_or_ne o' o
  · by_cases here : f' = f <;> simp [here]
  · simp [eq]
  · simpa [absent] using h.area_nodup o'
  · simpa [update_of_ne eq] using h.area_nodup o'
  · by_cases empty : s.freeArea o' = []
    · simp [empty, Bitmap.getLsbD_setBit _ _ _ bound]
    · simpa [empty] using h.bitmap o'
  · by_cases empty : s.freeArea o = []
    · simpa [empty, Bitmap.getLsbD_setBit _ _ _ bound, update_of_ne eq, eq] using h.bitmap o'
    · simpa [empty, update_of_ne eq] using h.bitmap o'

theorem unlink (member : f ∈ s.freeArea o) : Represents (s.unlink f o) (relocate loc (InBlock f o) .detached) := by
  have le := h.order_le member
  have bound : o < 32 := by
    simp only [maxOrder] at le
    omega
  refine h.moveBlock false le (h.aligned member) (h.inside member) (fun i => h.loc_of_mem member)
    (fun f' o' => ?_) (fun o' => ?_) fun o' => ?_
  all_goals obtain rfl | eq := eq_or_ne o' o
  · by_cases here : f' = f <;> simp [here, (h.area_nodup o').mem_erase_iff]
  · simp [eq]
  · simpa using (h.area_nodup o').erase f
  · simpa [update_of_ne eq] using h.area_nodup o'
  · by_cases empty : (s.freeArea o').erase f = []
    · simp [empty, Bitmap.getLsbD_clearBit _ _ _ bound]
    · simpa [empty, ne_nil_of_mem member] using h.bitmap o'
  · by_cases empty : (s.freeArea o).erase f = []
    · simpa [empty, Bitmap.getLsbD_clearBit _ _ _ bound, update_of_ne eq, eq] using h.bitmap o'
    · simpa [empty, update_of_ne eq] using h.bitmap o'

end

/-! ### Moving single frames -/

section

variable (h : Represents s loc)
include h

/-- Descriptors of unlisted frames may change with the location, within what the new
location allows. -/
theorem rewritePages {pages : Nat → Page} {loc' : Nat → Loc}
    (change : ∀ i, i < s.totalFrames → (loc' i = loc i ∧ pages i = s.pages i) ∨
      ((loc i).listed = false ∧ (loc' i).listed = false ∧ (loc' i).PageOk i (pages i))) :
    Represents { s with pages := pages } loc' := by
  have on : ∀ {i}, i < s.totalFrames → (loc i).listed = true ∨ (loc' i).listed = true → loc' i = loc i := by
    intro i lt listed
    rcases change i lt with same | moved
    · exact same.1
    · simp [moved.1, moved.2.1] at listed
  refine { h with loc_of_mem := ?_, mem_of_loc := ?_, mem_percpu := ?_, page := ?_ }
  · intro f o i member inr
    have old := h.loc_of_mem member inr
    have bound := h.inside member
    have lt : i < s.totalFrames := by
      have := inr.2
      omega
    rw [on lt (by simp [old, Loc.listed])]
    exact old
  · intro f o i lt hl
    exact h.mem_of_loc lt ((on lt (by simp [hl, Loc.listed])).symm.trans hl)
  · intro c f
    rw [h.mem_percpu c f]
    constructor
    · rintro ⟨lt, hl⟩
      exact ⟨lt, (on lt (by simp [hl, Loc.listed])).trans hl⟩
    · rintro ⟨lt, hl⟩
      exact ⟨lt, (on lt (by simp [hl, Loc.listed])).symm.trans hl⟩
  · intro i lt
    rcases change i lt with ⟨same, page⟩ | ⟨-, -, ok⟩
    · simpa only [same, page] using h.page i lt
    · exact ok

/-- The one-frame case: an unlisted frame moves to an unlisted location. -/
theorem modPage {g : Page → Page}
    (off : (loc f).listed = false) (off' : l.listed = false) (ok : l.PageOk f (g (s.pages f))) :
    Represents (s.modPage f g) (update loc f l) := by
  refine h.rewritePages fun i _ => ?_
  obtain rfl | eq := eq_or_ne i f
  · right
    simpa only [update_self] using ⟨off, off', ok⟩
  · left
    simp [update_of_ne eq]

theorem setFreeFrames (n : BitVec 32) : Represents { s with freeFrames := n } loc := { h with }

/-- A frame moves between a per-cpu list and no list, with its descriptor as it is. -/
theorem setPercpu {c : Nat} {pc : PerCpu} (before : ∀ head o, loc f ≠ .block head o)
    (after : ∀ head o, l ≠ .block head o) (vacant : ∀ pg, (loc f).PageOk f pg → l.PageOk f pg)
    (mem : ∀ c' f', f' ∈ ((s.setPercpu c pc).percpu c').freeList ↔ f' < s.totalFrames ∧ update loc f l f' = .cached c')
    (nodup : pc.freeList.Nodup) (count : pc.count = pc.freeList.length) :
    Represents (s.setPercpu c pc) (update loc f l) := by
  refine { h with
    loc_of_mem := ?_, mem_of_loc := ?_, mem_percpu := mem, percpu_nodup := ?_, percpu_count := ?_,
    page := ?_ }
  · intro f' o i member inr
    have old := h.loc_of_mem member inr
    rw [update_of_ne]
    · exact old
    · rintro rfl
      exact before f' o old
  · intro f' o i lt hl
    by_cases eq : i = f
    · rw [eq, update_self] at hl
      exact absurd hl (after f' o)
    · rw [update_of_ne eq] at hl
      exact h.mem_of_loc lt hl
  · intro c'
    obtain rfl | same := eq_or_ne c' c
    · simpa using nodup
    · simpa [same] using h.percpu_nodup c'
  · intro c'
    obtain rfl | same := eq_or_ne c' c
    · simpa using count
    · simpa [same] using h.percpu_count c'
  · intro i lt
    obtain rfl | eq := eq_or_ne i f
    · rw [update_self]
      exact vacant _ (h.page i lt)
    · rw [update_of_ne eq]
      exact h.page i lt

theorem percpuPush (c : Nat) (lt : f < s.totalFrames) (detached : loc f = .detached) :
    Represents (percpuPush s c f) (update loc f (.cached c)) := by
  have absent : ∀ c', f ∉ (s.percpu c').freeList := by
    intro c' member
    have cached := ((h.mem_percpu c' f).mp member).2
    rw [detached] at cached
    exact Loc.noConfusion cached
  refine h.setPercpu (by simp [detached]) (by simp) (by rw [detached]; exact fun _ => id) (fun c' f' => ?_) ?_ ?_
  · have old := h.mem_percpu c' f'
    obtain rfl | same := eq_or_ne c' c
    · by_cases eq : f' = f
      · subst eq
        simp [lt]
      · simpa [eq] using old
    · obtain rfl | eq := eq_or_ne f' f
      · have ne : c ≠ c' := Ne.symm same
        simp [same, absent c', ne]
      · simpa [eq, same] using old
  · exact nodup_cons.mpr ⟨absent c, h.percpu_nodup c⟩
  · rw [length_cons, h.percpu_count]

theorem percpuPop {c : Nat} {rest : List Nat} (list : (s.percpu c).freeList = f :: rest) :
    Represents (s.setPercpu c ⟨rest, (s.percpu c).count - 1⟩) (update loc f .detached) := by
  have cached : f < s.totalFrames ∧ loc f = .cached c := by
    rw [← h.mem_percpu c f, list]
    exact mem_cons_self
  have nodup : f ∉ rest ∧ rest.Nodup := by
    have old := h.percpu_nodup c
    rw [list] at old
    exact nodup_cons.mp old
  refine h.setPercpu (by simp [cached.2]) (by simp) (by rw [cached.2]; exact fun _ => id) (fun c' f' => ?_) nodup.2 ?_
  · have old := h.mem_percpu c' f'
    obtain rfl | eq := eq_or_ne f' f
    · by_cases same : c' = c
      · subst same
        simp [nodup.1]
      · have ne : c ≠ c' := Ne.symm same
        simpa [same, cached.2, ne] using old
    · obtain rfl | same := eq_or_ne c' c
      · simpa [eq, list] using old
      · simpa [eq, same] using old
  · simp [h.percpu_count c, list]

end

end Represents

/-! ### What the counter should say -/

/-- The number of frames in the blocks of the free area. -/
def State.freeTotal (s : State) : Nat :=
  ∑ order ∈ Finset.range (maxOrder + 1), (s.freeArea order).length * orderToFrames order

/-- How far `s_free_frames` is ahead of the free area. -/
def State.drift (s : State) : BitVec 32 := s.freeFrames - BitVec.ofNat 32 s.freeTotal

theorem freeTotal_update (s s' : State) (le : o ≤ maxOrder) {l : List Nat}
    (area : s'.freeArea = update s.freeArea o l) : s'.freeTotal + (s.freeArea o).length * orderToFrames o =
      s.freeTotal + l.length * orderToFrames o := by
  have member : o ∈ Finset.range (maxOrder + 1) := Finset.mem_range.mpr (by omega)
  have summand : (fun order => (s'.freeArea order).length * orderToFrames order) =
      update (fun order => (s.freeArea order).length * orderToFrames order) o (l.length * orderToFrames o) := by
    funext order
    rw [area]
    obtain rfl | eq := eq_or_ne order o
    · simp
    · simp [eq]
  unfold freeTotal
  rw [summand, Finset.sum_update_of_mem member, Finset.sdiff_singleton_eq_erase,
    ← Finset.add_sum_erase _ (fun order => (s.freeArea order).length * orderToFrames order) member]
  ring

theorem drift_setFreeFrames (s : State) (n : BitVec 32) :
    drift { s with freeFrames := n } = s.drift + (n - s.freeFrames) := by
  simp only [drift, freeTotal]
  ring

theorem drift_link (s : State) (f : Nat) (le : o ≤ maxOrder) :
    (s.link f o).drift = s.drift - BitVec.ofNat 32 (2 ^ o) := by
  have total : (s.link f o).freeTotal = s.freeTotal + 2 ^ o := by
    have moved := freeTotal_update s (s.link f o) le rfl
    simp only [length_cons, orderToFrames, add_mul] at moved
    omega
  simp only [drift, total, BitVec.ofNat_add, link_freeFrames]
  ring

theorem Represents.drift_unlink {s : State} (h : Represents s loc) (member : f ∈ s.freeArea o) :
    (s.unlink f o).drift = s.drift + BitVec.ofNat 32 (2 ^ o) := by
  have total : s.freeTotal = (s.unlink f o).freeTotal + 2 ^ o := by
    have moved := freeTotal_update s (s.unlink f o) (h.order_le member) rfl
    have length : (s.freeArea o).length = ((s.freeArea o).erase f).length + 1 := by
      have pos := length_pos_of_mem member
      rw [length_erase_of_mem member]
      omega
    rw [length, orderToFrames, add_mul] at moved
    omega
  simp only [drift, total, BitVec.ofNat_add, unlink_freeFrames]
  ring

/-! ### What an operation leaves alone -/

/-- Between two states no frame outside `R` is handed out, given back or rewritten: frames
in no list keep their location and descriptor, listed frames stay listed. -/
structure Keeps (R : Nat → Prop) (s s' : State) (loc loc' : Nat → Loc) : Prop where
  total : s'.totalFrames = s.totalFrames
  start : s'.startAddr = s.startAddr
  unlisted : ∀ i, ¬R i → (loc i).listed = false → loc' i = loc i ∧ s'.pages i = s.pages i
  listed : ∀ i, ¬R i → (loc i).listed = true → (loc' i).listed = true

namespace Keeps

variable {R R' : Nat → Prop} {s s' s'' : State} {loc loc' loc'' : Nat → Loc}

theorem refl (R : Nat → Prop) (s : State) (loc : Nat → Loc) : Keeps R s s loc loc :=
  ⟨rfl, rfl, fun _ _ _ => ⟨rfl, rfl⟩, fun _ _ h => h⟩

theorem mono (h : Keeps R s s' loc loc') (sub : ∀ i, R i → R' i) : Keeps R' s s' loc loc' :=
  ⟨h.total, h.start, fun i out => h.unlisted i (fun r => out (sub i r)),
    fun i out => h.listed i (fun r => out (sub i r))⟩

theorem trans (h : Keeps R s s' loc loc') (h' : Keeps R s' s'' loc' loc'') : Keeps R s s'' loc loc'' := by
  refine ⟨h'.total.trans h.total, h'.start.trans h.start, ?_, ?_⟩
  · intro i out off
    obtain ⟨same, page⟩ := h.unlisted i out off
    obtain ⟨same', page'⟩ := h'.unlisted i out (same ▸ off)
    exact ⟨same'.trans same, page'.trans page⟩
  · intro i out on
    exact h'.listed i out (h.listed i out on)

/-- Frames that are listed before and after need not be named. -/
theorem shrink (h : Keeps R s s' loc loc') (before : ∀ i, R i → ¬R' i → (loc i).listed = true)
    (after : ∀ i, R i → ¬R' i → (loc' i).listed = true) : Keeps R' s s' loc loc' := by
  classical
  refine ⟨h.total, h.start, ?_, ?_⟩
  · intro i out off
    by_cases moved : R i
    · exact absurd (off.symm.trans (before i moved out)) (by decide)
    · exact h.unlisted i moved off
  · intro i out on
    by_cases moved : R i
    · exact after i moved out
    · exact h.listed i moved on

theorem of_outside (total : s'.totalFrames = s.totalFrames) (start : s'.startAddr = s.startAddr)
    (same : ∀ i, ¬R i → loc' i = loc i ∧ s'.pages i = s.pages i) : Keeps R s s' loc loc' :=
  ⟨total, start, fun i out _ => same i out, fun i out on => (same i out).1 ▸ on⟩

theorem of_link : Keeps (InBlock f o) s (s.link f o) loc (relocate loc (InBlock f o) l) :=
  of_outside rfl rfl fun _ out => ⟨relocate_neg out, link_pages_of_ne fun eq => out (eq ▸ self f o)⟩

theorem of_unlink : Keeps (InBlock f o) s (s.unlink f o) loc (relocate loc (InBlock f o) l) :=
  of_outside rfl rfl fun _ out => ⟨relocate_neg out, unlink_pages_of_ne fun eq => out (eq ▸ self f o)⟩

theorem of_modPage {g : Page → Page} : Keeps (· = f) s (s.modPage f g) loc (update loc f l) :=
  of_outside rfl rfl fun _ out => ⟨update_of_ne out _ _, update_of_ne out _ _⟩

theorem of_percpuPush (c : Nat) : Keeps (· = f) s (percpuPush s c f) loc (update loc f l) :=
  of_outside rfl rfl fun _ out => ⟨update_of_ne out _ _, rfl⟩

theorem of_setPercpu (c : Nat) (pc : PerCpu) : Keeps (· = f) s (s.setPercpu c pc) loc (update loc f l) :=
  of_outside rfl rfl fun _ out => ⟨update_of_ne out _ _, rfl⟩

theorem setFreeFrames (h : Keeps R s s' loc loc') (n : BitVec 32) : Keeps R s { s' with freeFrames := n } loc loc' :=
  { h with }

end Keeps

/-- An operation that moves the frames of `R` only, keeps the invariant and keeps the
counter as far from the free area as it was. -/
structure Preserves (R : Nat → Prop) (s s' : State) (loc loc' : Nat → Loc) : Prop
    extends Keeps R s s' loc loc' where
  represents : Represents s' loc'
  drift : s'.drift = s.drift

namespace Preserves

variable {R R' : Nat → Prop} {s s' s'' : State} {loc loc' loc'' : Nat → Loc}

theorem refl (R : Nat → Prop) (h : Represents s loc) : Preserves R s s loc loc := ⟨Keeps.refl R s loc, h, rfl⟩

theorem mono (h : Preserves R s s' loc loc') (sub : ∀ i, R i → R' i) : Preserves R' s s' loc loc' :=
  ⟨h.toKeeps.mono sub, h.represents, h.drift⟩

theorem trans (h : Preserves R s s' loc loc') (h' : Preserves R s' s'' loc' loc'') : Preserves R s s'' loc loc'' :=
  ⟨h.toKeeps.trans h'.toKeeps, h'.represents, h'.drift.trans h.drift⟩

end Preserves

end Jlos.Pfa
