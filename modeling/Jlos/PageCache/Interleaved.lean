import Jlos.Lib.Loop
import Jlos.PageCache.Model

/-!
# Gets, puts and evictions of several threads

The critical sections of `jlos_fs_page_get`, `jlos_fs_page_put` and `jlos_fs_page_cache_shrink` as
steps of threads that interleave. A get finds its page under one lock and takes its reference under
another, and an eviction takes a page out of the list under one lock and out of the tree under
another.
-/
namespace Jlos.PageCache.Interleaved

open Lib Function List Option State

variable {σ : Type} {t p : Nat} {x : Page σ} {r' : Role}

/-- Where a thread is between two critical sections. A call that a hook makes is a thread of its
own. -/
inductive Pc
  | idle
  /-- `jlos_fs_page_get` has not found the page. -/
  | missed (m i : Nat)
  /-- It has read the page into a frame of its own. -/
  | filled (p m i : Nat)
  /-- It has found the page, before `page_ref_acquire`. -/
  | acquiring (p : Nat)
  /-- `jlos_fs_page_cache_shrink` begins a round. -/
  | shrinking
  /-- It has taken a page out of the list, before `page_writeback`. -/
  | evicted (v : Nat)
  | written (v : Nat)
  /-- It has taken the page out of its tree, before `page_free`. -/
  | removed (v : Nat)
  deriving DecidableEq, Repr

structure Sys (σ : Type) where
  state : State σ
  pc : Nat → Pc
  /-- The gets of a page that have returned and that no put has matched yet. -/
  held : Nat → Nat

inductive Op
  | get (t m i : Nat)
  | fill (t : Nat) (frame : Option Nat) (bufs : Bool)
  | insert (t : Nat)
  | acquire (t : Nat)
  | put (t p : Nat)
  | shrink (t : Nat)
  | evict (t : Nat)
  | writeback (t : Nat)
  | remove (t : Nat)
  | free (t : Nat)
  deriving DecidableEq, Repr

namespace Sys

def goto (sys : Sys σ) (t : Nat) (pc : Pc) : Sys σ := { sys with pc := update sys.pc t pc }

/-- `jlos_fs_page_get` returns a page. -/
def returns (sys : Sys σ) (t p : Nat) : Sys σ :=
  { sys with pc := update sys.pc t .idle, held := update sys.held p (sys.held p + 1) }

def start (disk : Nat → Nat → σ) (pages : Nat → Page σ) : Sys σ :=
  { state :=
      { pages := fun p => { pages p with refcount := 0 }
        tree := fun _ _ => none
        lru := ⟨id, id⟩
        count := 0
        disk := disk }
    pc := fun _ => .idle
    held := fun _ => 0 }

/-- The next section of a thread, none if the thread is not before one. -/
def exec (sys : Sys σ) : Op → M (Sys σ)
  | .get t m i =>
    match sys.state.tree m i with
    | some p => pure (sys.goto t (.acquiring p))
    | none => pure (sys.goto t (.missed m i))
  | .fill t frame bufs =>
    match sys.pc t with
    | .missed m i => do
      let (new, s) ← PageCache.fill sys.state m i frame bufs
      match new with
      | none => pure ({ sys with state := s }.goto t .idle)
      | some p => pure ({ sys with state := s }.goto t (.filled p m i))
    | _ => pure sys
  | .insert t =>
    match sys.pc t with
    | .filled p m i =>
      match insertSection sys.state m i p with
      | (none, s) => pure ({ sys with state := s }.returns t p)
      | (some existing, s) => do
        let s := s.setPage p { s.pages p with refcount := (s.pages p).refcount - 1 }
        let s ← pageFree s p
        pure ({ sys with state := s }.goto t (.acquiring existing))
    | _ => pure sys
  | .acquire t =>
    match sys.pc t with
    | .acquiring p => pure ({ sys with state := refAcquire sys.state p }.returns t p)
    | _ => pure sys
  | .put t p =>
    let (shrinkNow, s) := putSection sys.state p
    let sys := { sys with state := s, held := update sys.held p (sys.held p - 1) }
    pure (if shrinkNow then sys.goto t .shrinking else sys)
  | .shrink t => pure (sys.goto t .shrinking)
  | .evict t =>
    match evictSection sys.state with
    | (none, s) => pure ({ sys with state := s }.goto t .idle)
    | (some v, s) => pure ({ sys with state := s }.goto t (.evicted v))
  | .writeback t =>
    match sys.pc t with
    | .evicted v => pure ({ sys with state := PageCache.writeback sys.state v }.goto t (.written v))
    | _ => pure sys
  | .remove t =>
    match sys.pc t with
    | .written v => pure ({ sys with state := removeSection sys.state v }.goto t (.removed v))
    | _ => pure sys
  | .free t =>
    match sys.pc t with
    | .removed v => do
      let s ← pageFree sys.state v
      pure ({ sys with state := s }.goto t .shrinking)
    | _ => pure sys

/-- The thread is one of `n` and is before the section, new pages are free frames, and a put matches
a get. -/
def Legal (n : Nat) (sys : Sys σ) : Op → Prop
  | .get t _ _ | .shrink t => t < n ∧ sys.pc t = .idle
  | .fill t frame _ => t < n ∧ (∃ m i, sys.pc t = .missed m i) ∧ ∀ p ∈ frame, (sys.state.pages p).refcount = 0
  | .insert t => t < n ∧ ∃ p m i, sys.pc t = .filled p m i
  | .acquire t => t < n ∧ ∃ p, sys.pc t = .acquiring p
  | .put t p => t < n ∧ sys.pc t = .idle ∧ 0 < sys.held p
  | .evict t => t < n ∧ sys.pc t = .shrinking
  | .writeback t => t < n ∧ ∃ v, sys.pc t = .evicted v
  | .remove t => t < n ∧ ∃ v, sys.pc t = .written v
  | .free t => t < n ∧ ∃ v, sys.pc t = .removed v

def step (n : Nat) (sys : Sys σ) (op : Op) (sys' : Sys σ) : Prop := sys.Legal n op ∧ sys.exec op = .ok sys'

/-- A page is in its tree, has its buffer heads, and its frame is not free. -/
def Intact (sys : Sys σ) (p : Nat) : Prop :=
  sys.state.tree (sys.state.pages p).mapping (sys.state.pages p).index = some p ∧
    (sys.state.pages p).bufs.isSome = true ∧ (sys.state.pages p).refcount ≠ 0

end Sys

/-! ### The invariant -/

/-- Whose a page is. -/
inductive Role
  | free
  /-- A thread has read it and nobody else knows it. -/
  | new (t : Nat)
  | cached
  /-- A thread evicts it, and it is still in its tree. -/
  | leaving (t : Nat)
  | gone (t : Nat)
  deriving DecidableEq, Repr

def Role.owner : Role → Option Nat
  | .free | .cached => none
  | .new t | .leaving t | .gone t => some t

def Role.inTree : Role → Bool
  | .cached | .leaving _ => true
  | .free | .new _ | .gone _ => false

/-- The page a thread answers for, and what it is. -/
def Pc.duty (t : Nat) : Pc → Option (Nat × Role)
  | .filled p _ _ => some (p, .new t)
  | .evicted v | .written v => some (v, .leaving t)
  | .removed v => some (v, .gone t)
  | .idle | .missed _ _ | .acquiring _ | .shrinking => none

/-- The reference count and the buffer heads of a page with `k` gets outstanding. -/
def RoleOk (k : Nat) (x : Page σ) : Role → Prop
  | .free => x.refcount = 0 ∧ k = 0
  | .new _ => x.refcount = 2 ∧ k = 0 ∧ x.bufs.isSome = true
  | .cached => x.refcount.toNat = 1 + k ∧ x.bufs.isSome = true
  | .leaving _ | .gone _ => x.refcount = 1 ∧ k = 0

structure Inv (n : Nat) (sys : Sys σ) (q : List Nat) (role : Nat → Role) : Prop where
  ring : sys.state.lru.Ring none (q.map some)
  mem : ∀ p, p ∈ q ↔ role p = .cached ∧ sys.held p = 0
  tree : ∀ m i p, sys.state.tree m i = some p ↔
    (role p).inTree = true ∧ (sys.state.pages p).mapping = m ∧ (sys.state.pages p).index = i
  page : ∀ p, RoleOk (sys.held p) (sys.state.pages p) (role p)
  owns : ∀ t p r, r.owner = some t → (role p = r ↔ (sys.pc t).duty t = some (p, r))
  filled : ∀ {t p m i}, sys.pc t = .filled p m i → (sys.state.pages p).mapping = m ∧ (sys.state.pages p).index = i
  acquiring : ∀ {t p}, sys.pc t = .acquiring p → role p = .cached
  small : ∀ {t}, sys.pc t ≠ .idle → t < n

variable {n : Nat} {sys sys' : Sys σ} {q q' : List Nat} {role : Nat → Role} {r : Role}

theorem Pc.duty_owner {v : Nat} {pc : Pc} (duty : pc.duty t = some (v, r)) : r.owner = some t := by
  cases pc <;> cases duty <;> rfl

/-- The section succeeds and keeps the invariant. -/
def Sys.Steps (n : Nat) (sys : Sys σ) (op : Op) : Prop :=
  ∃ sys' q' role', sys.exec op = .ok sys' ∧ Inv n sys' q' role'

open Interleaved.Sys

theorem Inv.start (n : Nat) (disk : Nat → Nat → σ) (pages : Nat → Page σ) :
    Inv n (start disk pages) [] fun _ => .free := by
  refine ⟨⟨nodup_singleton _, rfl, rfl⟩, fun p => ⟨nofun, fun both => nomatch both.1⟩,
    fun m i p => ⟨nofun, fun both => nomatch both.1⟩, fun p => ⟨rfl, rfl⟩, fun t p r owner => ⟨?_, nofun⟩, nofun, nofun,
    fun busy => absurd rfl busy⟩
  rintro rfl
  cases owner

/-- A thread that answers for no page goes to a place where it does not either. -/
theorem Inv.goto (h : Inv n sys q role) (lt : t < n) {pc' : Pc} (before : (sys.pc t).duty t = none)
    (after : pc'.duty t = none) (acquiring : ∀ p, pc' = .acquiring p → role p = .cached) :
    Inv n (sys.goto t pc') q role := by
  refine { h with owns := ?owns, filled := ?filled, acquiring := ?acquiring, small := ?small }
  all_goals simp only [Sys.goto]
  case owns =>
    intro u p r owner
    obtain rfl | here := eq_or_ne u t
    · rw [h.owns u p r owner, before, update_self, after]
    · rw [update_of_ne here]
      exact h.owns u p r owner
  case filled =>
    intro u p m i
    rw [update_apply]
    split
    · rintro rfl
      cases after
    · exact h.filled
  case acquiring =>
    intro u p
    rw [update_apply]
    split
    · exact acquiring p
    · exact h.acquiring
  case small =>
    intro u
    by_cases here : u = t
    · exact fun _ => here ▸ lt
    · rw [update_of_ne here]
      exact h.small

/-- A section of a thread about one page: what the page becomes, and where the thread goes. -/
structure Move (sys sys' : Sys σ) (q q' : List Nat) (role : Nat → Role) (t p : Nat) (pc' : Pc) (r' : Role) (x : Page σ)
    (k' : Nat) : Prop where
  pages : sys'.state.pages = update sys.state.pages p x
  pc : sys'.pc = update sys.pc t pc'
  held : sys'.held = update sys.held p k'
  page : RoleOk k' x r'
  /-- The page is the thread's or nobody's before. -/
  mine : ∀ u, (role p).owner = some u → u = t
  before : ∀ v r, (sys.pc t).duty t = some (v, r) → v = p
  after : ∀ v r, pc'.duty t = some (v, r) → v = p ∧ r = r'
  owner : ∀ u, r'.owner = some u → pc'.duty u = some (p, r') ∧ u = t
  filled : ∀ m i, pc' = .filled p m i → x.mapping = m ∧ x.index = i
  acquiring : ∀ v, pc' = .acquiring v → update role p r' v = .cached
  others : ∀ u, sys.pc u = .acquiring p → u ≠ t → r' = .cached
  tree : ∀ m i v, sys'.state.tree m i = some v ↔
    if v = p then r'.inTree = true ∧ x.mapping = m ∧ x.index = i else sys.state.tree m i = some v
  ring : sys'.state.lru.Ring none (q'.map some)
  mem : ∀ v, v ∈ q' ↔ if v = p then r' = .cached ∧ k' = 0 else v ∈ q

theorem Inv.move (h : Inv n sys q role) (lt : t < n) {pc' : Pc} {k' : Nat}
    (moved : Move sys sys' q q' role t p pc' r' x k') : Inv n sys' q' (update role p r') := by
  obtain ⟨pages, pc, held, page, mine, before, after, owner, filled, acquiring, others, tree, ring, mem⟩ := moved
  constructor
  case ring => exact ring
  case mem =>
    intro v
    simp only [mem, held, update_apply]
    split
    · rfl
    · exact h.mem v
  case tree =>
    intro m i v
    simp only [tree, pages, update_apply]
    split
    · rfl
    · exact h.tree m i v
  case page =>
    intro v
    simp only [pages, held, update_apply]
    split
    · exact page
    · exact h.page v
  -- Duties change for the thread that moves and the page it moves only.
  case owns =>
    intro u v r owns
    rw [pc]
    obtain rfl | here := eq_or_ne u t
    · rw [update_self]
      constructor
      · intro now
        rcases of_update now with ⟨rfl, rfl⟩ | ⟨at_p, now⟩
        · exact (owner u owns).1
        · exact absurd (before v r ((h.owns u v r owns).mp now)) at_p
      · intro duty
        obtain ⟨rfl, rfl⟩ := after v r duty
        rw [update_self]
    · rw [update_of_ne here]
      obtain rfl | at_p := eq_or_ne v p
      · rw [update_self]
        constructor
        · intro now
          subst now
          exact absurd (owner u owns).2 here
        · intro duty
          have was := (h.owns u v r owns).mpr duty
          exact absurd (mine u (by rw [was]; exact owns)) here
      · rw [update_of_ne at_p]
        exact h.owns u v r owns
  case filled =>
    intro u v m i at_u
    rw [pc] at at_u
    rw [pages]
    rcases of_update at_u with ⟨rfl, rfl⟩ | ⟨here, at_u⟩
    · obtain ⟨rfl, -⟩ := after v _ rfl
      rw [update_self]
      exact filled m i rfl
    · have role_v : role v = .new u := (h.owns u v (.new u) rfl).mpr (by rw [at_u]; rfl)
      have at_p : v ≠ p := by
        rintro rfl
        exact here (mine u (by rw [role_v]; rfl))
      rw [update_of_ne at_p]
      exact h.filled at_u
  case acquiring =>
    intro u v at_u
    rw [pc] at at_u
    rcases of_update at_u with ⟨-, at_t⟩ | ⟨here, at_u⟩
    · exact acquiring v at_t
    · obtain rfl | at_p := eq_or_ne v p
      · rw [update_self]
        exact others u at_u here
      · rw [update_of_ne at_p]
        exact h.acquiring at_u
  case small =>
    intro u busy
    rw [pc] at busy
    by_cases here : u = t
    · exact here ▸ lt
    · rw [update_of_ne here] at busy
      exact h.small busy

/-! ### Sections -/

/-- A thread evicts a page that is still in its tree. -/
def Pc.Leaves (pc : Pc) (p : Nat) : Prop := pc = .evicted p ∨ pc = .written p
  deriving Decidable

/-- A get does not find a page that a thread evicts, a thread does not evict a page that a get has
found and not acquired yet, and the reference count of a page does not wrap around. -/
def Op.Apart (n : Nat) (sys : Sys σ) : Op → Prop
  | .get _ m i => ∀ p ∈ sys.state.tree m i, ∀ u < n, ¬(sys.pc u).Leaves p
  | .insert t =>
    match sys.pc t with
    | .filled _ m i => ∀ p ∈ sys.state.tree m i, ∀ u < n, ¬(sys.pc u).Leaves p
    | _ => True
  | .acquire t =>
    match sys.pc t with
    | .acquiring p => (sys.state.pages p).refcount ≠ BitVec.allOnes 32
    | _ => True
  | .evict _ => cacheMax < sys.state.count.toNat → ∀ v ∈ sys.state.lru.next none, ∀ u < n, sys.pc u ≠ .acquiring v
  | .fill .. | .put .. | .shrink _ | .writeback _ | .remove _ | .free _ => True

section

variable (h : Inv n sys q role)
include h

theorem Inv.found {m i : Nat} (found : sys.state.tree m i = some p)
    (apart : ∀ u < n, ¬(sys.pc u).Leaves p) : role p = .cached := by
  have inTree := ((h.tree m i p).mp found).1
  cases eq : role p with
  | cached => rfl
  | leaving u =>
    have duty := (h.owns u p _ rfl).mp eq
    have leaves : (sys.pc u).Leaves p := by
      cases at_u : sys.pc u <;> rw [at_u] at duty <;> cases duty
      · exact Or.inl rfl
      · exact Or.inr rfl
    have busy : sys.pc u ≠ .idle := by
      intro idle
      rw [idle] at duty
      cases duty
    exact absurd leaves (apart u (h.small busy))
  | free | new _ | gone _ =>
    rw [eq] at inTree
    cases inTree

theorem Inv.get {m i : Nat} (legal : sys.Legal n (.get t m i))
    (apart : (Op.get t m i).Apart n sys) : sys.Steps n (.get t m i) := by
  obtain ⟨lt, idle⟩ := legal
  have none_before : (sys.pc t).duty t = none := by rw [idle]; rfl
  cases found : sys.state.tree m i with
  | some p =>
    refine ⟨sys.goto t (.acquiring p), q, role, by simp only [exec, found]; rfl, h.goto lt none_before rfl ?_⟩
    intro v eq
    cases eq
    exact h.found found (apart p found)
  | none =>
    exact ⟨sys.goto t (.missed m i), q, role, by simp only [exec, found]; rfl, h.goto lt none_before rfl nofun⟩

theorem Inv.role_free (zero : (sys.state.pages p).refcount = 0) : role p = .free := by
  have page := h.page p
  cases eq : role p with
  | free => rfl
  | cached =>
    rw [eq] at page
    have count := page.1
    rw [zero, show (0 : BitVec 32).toNat = 0 from rfl] at count
    omega
  | new _ | leaving _ | gone _ =>
    rw [eq] at page
    exact absurd (zero.symm.trans page.1) (by decide)

theorem Inv.out_of_role (other : role p ≠ .cached) : p ∉ q := fun mem => other ((h.mem p).mp mem).1

theorem Inv.tree_same (old : role p = r) (same : r.inTree = r'.inTree) (place : r'.inTree = true →
      x.mapping = (sys.state.pages p).mapping ∧ x.index = (sys.state.pages p).index) (m i v : Nat) :
    sys.state.tree m i = some v ↔
      if v = p then r'.inTree = true ∧ x.mapping = m ∧ x.index = i else sys.state.tree m i = some v := by
  obtain rfl | here := eq_or_ne v p
  · rw [if_pos rfl, h.tree, old, same]
    exact and_congr_right fun inside => by rw [(place inside).1, (place inside).2]
  · rw [if_neg here]

theorem Inv.mem_same {k' : Nat} (out : role p ≠ .cached) (out' : r' ≠ .cached) (v : Nat) :
    v ∈ q ↔ if v = p then r' = .cached ∧ k' = 0 else v ∈ q := by
  obtain rfl | here := eq_or_ne v p
  · rw [if_pos rfl]
    exact ⟨fun mem => absurd mem (h.out_of_role out), fun both => absurd both.1 out'⟩
  · rw [if_neg here]

theorem Inv.fill {frame : Option Nat} {bufs : Bool} (legal : sys.Legal n (.fill t frame bufs)) :
    sys.Steps n (.fill t frame bufs) := by
  obtain ⟨lt, ⟨m, i, at_t⟩, unused⟩ := legal
  have none_before : (sys.pc t).duty t = none := by rw [at_t]; rfl
  cases frame with
  | none =>
    refine ⟨sys.goto t .idle, q, role, ?_, h.goto lt none_before rfl nofun⟩
    simp only [exec, at_t]
    rfl
  | some p =>
    have free := h.role_free (unused p rfl)
    have unlisted : role p ≠ .cached := by rw [free]; exact nofun
    have unheld : sys.held p = 0 := by
      have page := h.page p
      rw [free] at page
      exact page.2
    have held : sys.held = update sys.held p 0 := by rw [← unheld, update_eq_self]
    have mine : ∀ u, (role p).owner = some u → u = t := by
      rw [free]
      exact nofun
    have before : ∀ v r, (sys.pc t).duty t = some (v, r) → v = p := by
      rw [none_before]
      exact nofun
    have others : ∀ u r, sys.pc u = .acquiring p → u ≠ t → r = Role.cached := fun u r at_u =>
      absurd ((h.acquiring at_u).symm.trans free) nofun
    -- Without memory for the buffer heads the frame is given back at once.
    cases bufs with
    | false =>
      refine ⟨_, q, _, by simp only [exec, at_t, fill_fails, ok_bind]; rfl, h.move lt (x := ⟨m, i, 0, none, false,
        deviceData sys.state m i p⟩) (?_ : Move sys _ q q role t p .idle .free _ 0)⟩
      exact ⟨rfl, rfl, held, ⟨rfl, rfl⟩, mine, before, nofun, nofun, nofun, nofun, fun u => others u _,
        h.tree_same free rfl nofun, ring_init h.ring (h.out_of_role unlisted), h.mem_same unlisted nofun⟩
    | true =>
      refine ⟨_, q, _, by simp only [exec, at_t, fill_some, ok_bind]; rfl, h.move lt (x := filledPage sys.state m i p)
        (?_ : Move sys _ q q role t p (.filled p m i) (.new t) _ 0)⟩
      refine ⟨rfl, rfl, held, ⟨rfl, rfl, rfl⟩, mine, before, ?after, ?owner, ?filled, nofun, fun u => others u _,
        h.tree_same free rfl nofun, ring_init h.ring (h.out_of_role unlisted), h.mem_same unlisted nofun⟩
      case after | filled =>
        rintro _ _ ⟨⟩
        exact ⟨rfl, rfl⟩
      case owner =>
        rintro _ ⟨⟩
        exact ⟨rfl, rfl⟩

theorem Inv.duty (duty : (sys.pc t).duty t = some (p, r)) :
    role p = r ∧ (∀ u, (role p).owner = some u → u = t) ∧ ∀ v r', (sys.pc t).duty t = some (v, r') → v = p := by
  have owner := Pc.duty_owner duty
  have eq := (h.owns t p r owner).mpr duty
  refine ⟨eq, fun u other => ?_, fun v r' again => ?_⟩
  · rw [eq, owner] at other
    exact (some.inj other).symm
  · rw [duty] at again
    cases again
    rfl

/-- A section about the page a thread answers for, which is not in the list. -/
theorem Inv.move_duty (lt : t < n) (duty : (sys.pc t).duty t = some (p, r)) (s' : State σ) (pc' : Pc) (r' : Role)
    (pages : s'.pages = update sys.state.pages p x) (lru : s'.lru = sys.state.lru) (page : RoleOk (sys.held p) x r')
    (unlisted : r' ≠ .cached) (after : pc'.duty t = r'.owner.map fun _ => (p, r')) (filled : ∀ m i, pc' ≠ .filled p m i)
    (acquiring : ∀ v, pc' = .acquiring v → v ≠ p ∧ role v = .cached) (tree : ∀ m i v, s'.tree m i = some v ↔
      if v = p then r'.inTree = true ∧ x.mapping = m ∧ x.index = i else sys.state.tree m i = some v) :
    Inv n ({ sys with state := s' }.goto t pc') q (update role p r') := by
  obtain ⟨old, mine, before⟩ := h.duty duty
  have unlisted' : role p ≠ .cached := by
    rw [old]
    rintro rfl
    cases Pc.duty_owner duty
  refine h.move lt ⟨pages, rfl, (update_eq_self ..).symm, page, mine, before, fun v r now => ?_, fun u owner => ?_,
    fun m i eq => absurd eq (filled m i), fun v eq => ?_, fun u at_u =>
      absurd (h.acquiring at_u) unlisted', tree, lru ▸ h.ring,
    h.mem_same unlisted' unlisted⟩
  · rw [after] at now
    obtain ⟨u, -, eq⟩ := map_eq_some_iff.mp now
    cases eq
    exact ⟨rfl, rfl⟩
  · rw [owner] at after
    obtain rfl : u = t := some.inj (owner.symm.trans (Pc.duty_owner after))
    exact ⟨after, rfl⟩
  · rw [update_of_ne (acquiring v eq).1]
    exact (acquiring v eq).2

theorem Inv.insert (legal : sys.Legal n (.insert t)) (apart : (Op.insert t).Apart n sys) : sys.Steps n (.insert t) := by
  obtain ⟨lt, p, m, i, at_t⟩ := legal
  simp only [Op.Apart, at_t] at apart
  have duty : (sys.pc t).duty t = some (p, .new t) := by rw [at_t]; rfl
  obtain ⟨new, mine, before⟩ := h.duty duty
  have page := h.page p
  rw [new] at page
  obtain ⟨two, unheld, bufs⟩ := page
  have place := h.filled at_t
  have unlisted : role p ≠ .cached := by rw [new]; simp
  have others : ∀ u r, sys.pc u = .acquiring p → u ≠ t → r = Role.cached := fun u r at_u =>
    absurd ((h.acquiring at_u).symm.trans new) (by simp)
  have outside : (role p).inTree = false := by rw [new]; rfl
  cases found : sys.state.tree m i with
  | none =>
    refine ⟨_, q, _, by simp only [exec, at_t, insertSection, found]; rfl, h.move lt (x := sys.state.pages p)
      (?_ : Move sys _ q q role t p .idle .cached _ (sys.held p + 1))⟩
    refine ⟨(update_eq_self ..).symm, rfl, rfl, ⟨by rw [two, unheld]; rfl, bufs⟩, mine, before, by simp [Pc.duty],
      by simp [Role.owner], by simp, by simp, fun u => others u _, ?tree, h.ring, ?mem⟩
    case tree =>
      intro m' i' v
      show (sys.state.setTree m i (some p)).tree m' i' = some v ↔ _
      rw [tree_setTree]
      obtain rfl | here := eq_or_ne v p
      · rw [if_pos rfl, place.1, place.2]
        split
        next same => exact iff_of_true rfl ⟨rfl, same.1.symm, same.2.symm⟩
        next other =>
          rw [h.tree, outside]
          exact iff_of_false (by simp) fun all => other ⟨all.2.1.symm, all.2.2.symm⟩
      · rw [if_neg here]
        split
        next same =>
          rw [same.1, same.2, found]
          simp [Ne.symm here]
        next => exact Iff.rfl
    case mem =>
      intro v
      obtain rfl | here := eq_or_ne v p
      · rw [if_pos rfl]
        exact ⟨fun mem => absurd mem (h.out_of_role unlisted), fun both => absurd both.2 (Nat.succ_ne_zero _)⟩
      · rw [if_neg here]
  | some e =>
    -- Another thread has inserted the page: this copy is freed.
    have cached := h.found found (apart e found)
    have ne : e ≠ p := by
      rintro rfl
      exact unlisted cached
    have freed : pageFree (sys.state.setPage p { sys.state.pages p with
      refcount := (sys.state.pages p).refcount - 1 }) p =
        .ok (sys.state.setPage p { sys.state.pages p with refcount := 0, bufs := none }) := by
      simp only [pageFree, setPage, update_self, update_idem, two]
      rfl
    refine ⟨_, q, _, by simp only [exec, at_t, insertSection, found, freed, ok_bind]; rfl,
      h.move_duty lt duty
        (sys.state.setPage p { sys.state.pages p with refcount := 0, bufs := none }) (.acquiring e) .free
        rfl rfl ⟨rfl, unheld⟩ (by simp) rfl (by simp) (fun v eq => ?_) (h.tree_same new rfl (by simp))⟩
    cases eq
    exact ⟨ne, cached⟩

theorem Inv.listed_iff (cached : role p = .cached) : (sys.state.pages p).refcount = 1 ↔ p ∈ q := by
  have page := h.page p
  rw [cached] at page
  rw [eq_one_iff, page.1, h.mem]
  exact ⟨fun one => ⟨cached, by omega⟩, fun both => by rw [both.2]⟩

theorem Inv.acquire (legal : sys.Legal n (.acquire t)) (apart : (Op.acquire t).Apart n sys) :
    sys.Steps n (.acquire t) := by
  obtain ⟨lt, p, at_t⟩ := legal
  simp only [Op.Apart, at_t] at apart
  have cached := h.acquiring at_t
  have page := h.page p
  rw [cached] at page
  obtain ⟨q', lru, count, acquired, ring, mem, -⟩ := refAcquire_list h.ring (h.listed_iff cached)
  refine ⟨_, q', _, by simp only [exec, at_t, acquired]; rfl, h.move lt (x := { sys.state.pages p with
    refcount := (sys.state.pages p).refcount + 1 }) (?_ : Move sys _ q q' role t p .idle .cached _ (sys.held p + 1))⟩
  refine ⟨rfl, rfl, rfl, ⟨refcount_succ page.1 apart, page.2⟩, cached ▸ nofun, at_t ▸ nofun, nofun, nofun, nofun, nofun,
    fun _ _ _ => rfl, h.tree_same cached rfl fun _ => ⟨rfl, rfl⟩, ring, fun v => ?_⟩
  rw [mem]
  by_cases here : v = p <;> simp [here]

theorem Inv.cached_of_held (pos : 0 < sys.held p) : role p = .cached := by
  have page := h.page p
  cases eq : role p with
  | cached => rfl
  | free | leaving _ | gone _ =>
    rw [eq] at page
    exact absurd page.2 (Nat.ne_of_gt pos)
  | new _ =>
    rw [eq] at page
    exact absurd page.2.1 (Nat.ne_of_gt pos)

theorem Inv.put (legal : sys.Legal n (.put t p)) : sys.Steps n (.put t p) := by
  obtain ⟨lt, idle, pos⟩ := legal
  have page := h.page p
  have cached := h.cached_of_held pos
  rw [cached] at page
  have refs : ((sys.state.pages p).refcount - 1).toNat = 1 + (sys.held p - 1) := by
    rw [pred_toNat (n := sys.held p) (by rw [page.1]; omega)]
    omega
  have out : p ∉ q := fun mem => by rw [((h.mem p).mp mem).2] at pos; cases pos
  -- the thread goes on to shrink the cache, or is done
  obtain ⟨pc', after, there⟩ : ∃ pc' : Pc, pc'.duty t = none ∧ (∀ v, pc' ≠ .acquiring v) ∧
      sys.exec (.put t p) = .ok ⟨(putSection sys.state p).2, update sys.pc t pc',
        update sys.held p (sys.held p - 1)⟩ := by
    cases shrink : (putSection sys.state p).1 with
    | true =>
      refine ⟨.shrinking, rfl, by simp, ?_⟩
      simp only [exec, shrink, if_true]
      rfl
    | false =>
      refine ⟨.idle, rfl, by simp, ?_⟩
      simp only [exec, shrink, Bool.false_eq_true, if_false]
      rw [← idle, update_eq_self]
      rfl
  obtain ⟨settled, ran⟩ := there
  obtain ⟨q', ring, mem⟩ : ∃ q' : List Nat, (putSection sys.state p).2.lru.Ring none (q'.map some) ∧
      ∀ v, v ∈ q' ↔ if v = p then Role.cached = .cached ∧ sys.held p - 1 = 0 else v ∈ q := by
    simp only [putSection, setPage, update_self, eq_one_iff, refs]
    split
    next last =>
      refine ⟨q ++ [p], lruAddTail_list h.ring out, fun v => ?_⟩
      rw [mem_append, mem_singleton]
      obtain rfl | here := eq_or_ne v p
      · simp only [or_true, if_true, true_iff, true_and]
        omega
      · simp [here]
    next more =>
      refine ⟨q, h.ring, fun v => ?_⟩
      obtain rfl | here := eq_or_ne v p
      · rw [if_pos rfl]
        exact ⟨fun member => absurd member out, fun both => by omega⟩
      · rw [if_neg here]
  refine ⟨_, q', _, ran, h.move lt (x := { sys.state.pages p with refcount := (sys.state.pages p).refcount - 1 })
    (?_ : Move sys _ q q' role t p pc' .cached _ (sys.held p - 1))⟩
  refine ⟨?pages, rfl, rfl, ⟨refs, page.2⟩, by simp [cached, Role.owner], by simp [idle, Pc.duty], by simp [after],
    by simp [Role.owner], ?filled, fun v eq => absurd eq (settled v), fun _ _ _ => rfl, ?tree, ring, mem⟩
  case pages =>
    simp only [putSection]
    split <;> rfl
  case filled =>
    rintro m i rfl
    cases after
  case tree =>
    intro m i v
    have same : (putSection sys.state p).2.tree = sys.state.tree := by
      simp only [putSection]
      split <;> rfl
    rw [same]
    exact h.tree_same cached rfl (fun _ => ⟨rfl, rfl⟩) m i v

theorem Inv.evict (legal : sys.Legal n (.evict t)) (apart : (Op.evict t).Apart n sys) : sys.Steps n (.evict t) := by
  obtain ⟨lt, at_t⟩ := legal
  have none_before : (sys.pc t).duty t = none := by rw [at_t]; rfl
  by_cases exceeds : cacheMax < sys.state.count.toNat
  · cases q with
    | nil =>
      have empty : lruEvict sys.state = (none, sys.state) := by
        rw [lruEvict, h.ring.next_eq_iff.mpr rfl]
      refine ⟨sys.goto t .idle, [], role, ?_, h.goto lt none_before rfl (by simp)⟩
      simp only [exec, evictSection, if_pos exceeds, empty]
      rfl
    | cons v rest =>
      have first : sys.state.lru.next none = some v := h.ring.first
      have evicts := lruEvict_first h.ring
      obtain ⟨cached, unheld⟩ := (h.mem v).mp mem_cons_self
      have page := h.page v
      rw [cached, unheld] at page
      have ring : sys.state.lru.Ring none ([] ++ some v :: rest.map some) := h.ring
      have fresh : v ∉ rest := fun mem =>
        (nodup_cons.mp (nodup_cons.mp ring.nodup).2).1 (mem_map_of_mem mem)
      refine ⟨_, rest, _, by simp only [exec, evictSection, if_pos exceeds, evicts]; rfl,
        h.move lt (x := sys.state.pages v)
        (?_ : Move sys _ (v :: rest) rest role t v (.evicted v) (.leaving t) _ 0)⟩
      refine ⟨(update_eq_self ..).symm, rfl, ?held, ⟨eq_one_iff.mpr page.1, rfl⟩, by simp [cached, Role.owner],
        by simp [none_before], ?after, ?owner, by simp, by simp, ?others, h.tree_same cached rfl fun _ => ⟨rfl, rfl⟩,
        ring.delInit, ?mem⟩
      case held =>
        show sys.held = _
        rw [← unheld, update_eq_self]
      case after =>
        rintro _ _ ⟨⟩
        exact ⟨rfl, rfl⟩
      case owner =>
        rintro _ ⟨⟩
        exact ⟨rfl, rfl⟩
      case others =>
        -- nobody is about to acquire the page
        intro u at_u
        exact absurd at_u (apart exceeds v first u (h.small (by rw [at_u]; simp)))
      case mem =>
        intro u
        obtain rfl | here := eq_or_ne u v
        · rw [if_pos rfl]
          exact ⟨fun mem => absurd mem fresh, fun both => absurd both.1 (by simp)⟩
        · rw [if_neg here, mem_cons]
          exact ⟨Or.inr, fun mem => mem.resolve_left here⟩
  · refine ⟨sys.goto t .idle, q, role, ?_, h.goto lt none_before rfl (by simp)⟩
    simp only [exec, evictSection, if_neg exceeds]
    rfl

end

/-- What a writeback leaves of a state. -/
structure Framed (s s' : State σ) (v : Nat) : Prop where
  tree : s'.tree = s.tree
  lru : s'.lru = s.lru
  others : ∀ p, p ≠ v → s'.pages p = s.pages p
  mapping : (s'.pages v).mapping = (s.pages v).mapping
  index : (s'.pages v).index = (s.pages v).index
  refcount : (s'.pages v).refcount = (s.pages v).refcount

theorem Framed.setPage {s s' : State σ} {v : Nat} (h : Framed s s' v) {y : Page σ}
    (mapping : y.mapping = (s'.pages v).mapping)
    (index : y.index = (s'.pages v).index) (refcount : y.refcount = (s'.pages v).refcount) :
    Framed s (s'.setPage v y) v := by
  have page : (s'.setPage v y).pages v = y := update_self ..
  exact ⟨h.tree, h.lru, fun p ne => (update_of_ne ne ..).trans (h.others p ne), by rw [page, mapping, h.mapping],
    by rw [page, index, h.index], by rw [page, refcount, h.refcount]⟩

theorem Framed.setSector {s s' : State σ} {v : Nat} (h : Framed s s' v) (m b : Nat) (x : σ) :
    Framed s (s'.setSector m b x) v :=
  { h with }

/-- A writeback touches the buffer heads and the dirty flag of its page, and the device. -/
theorem writeback_framed (s : State σ) (v : Nat) : Framed s (PageCache.writeback s v) v := by
  have start : Framed s s v := ⟨rfl, rfl, fun _ _ => rfl, rfl, rfl, rfl⟩
  rw [PageCache.writeback]
  split
  · refine Framed.setPage ?_ (by rfl) (by rfl) (by rfl)
    split
    · refine List.foldlRecOn (motive := fun s' => Framed s s' v) _ _ start fun s' h j _ => ?_
      rw [writeSector]
      split
      · exact h
      · split
        · exact Framed.setPage (h.setSector ..) rfl rfl rfl
        · exact h
    · exact List.foldlRecOn (motive := fun s' => Framed s s' v) _ _ start fun s' h j _ => h.setSector ..
  · exact start

section

variable (h : Inv n sys q role)
include h

theorem Inv.writeback (legal : sys.Legal n (.writeback t)) : sys.Steps n (.writeback t) := by
  obtain ⟨lt, v, at_t⟩ := legal
  have duty : (sys.pc t).duty t = some (v, .leaving t) := by rw [at_t]; rfl
  have leaving := (h.duty duty).1
  have page := h.page v
  rw [leaving] at page
  have wrote := writeback_framed sys.state v
  refine ⟨_, q, _, by simp only [exec, at_t]; rfl, h.move_duty lt duty (PageCache.writeback sys.state v) (.written v)
    (.leaving t) (x := (PageCache.writeback sys.state v).pages v) (funext fun p => ?_) wrote.lru
    ⟨wrote.refcount.trans page.1, page.2⟩ nofun rfl nofun nofun fun m i u => ?_⟩
  · obtain rfl | here := eq_or_ne p v
    · rw [update_self]
    · rw [update_of_ne here]
      exact wrote.others p here
  · rw [wrote.tree]
    exact h.tree_same leaving rfl (fun _ => ⟨wrote.mapping, wrote.index⟩) m i u

theorem Inv.remove (legal : sys.Legal n (.remove t)) : sys.Steps n (.remove t) := by
  obtain ⟨lt, v, at_t⟩ := legal
  have duty : (sys.pc t).duty t = some (v, .leaving t) := by rw [at_t]; rfl
  have leaving := (h.duty duty).1
  have page := h.page v
  rw [leaving] at page
  refine ⟨_, q, _, by simp only [exec, at_t]; rfl, h.move_duty lt duty (removeSection sys.state v) (.removed v)
    (.gone t) (update_eq_self ..).symm rfl page nofun rfl nofun nofun fun m i u => ?_⟩
  have at_v := (h.tree (sys.state.pages v).mapping (sys.state.pages v).index v).mpr ⟨by rw [leaving]; rfl, rfl, rfl⟩
  rw [removeSection, tree_setTree]
  split
  next same =>
    rw [same.1, same.2, at_v]
    by_cases here : u = v
    · simp [here, Role.inTree]
    · simp [here, Ne.symm here]
  next same =>
    obtain rfl | here := eq_or_ne u v
    · rw [if_pos rfl, h.tree]
      constructor
      · rintro ⟨-, rfl, rfl⟩
        exact absurd ⟨rfl, rfl⟩ same
      · exact fun both => nomatch both.1
    · rw [if_neg here]

theorem Inv.free (legal : sys.Legal n (.free t)) : sys.Steps n (.free t) := by
  obtain ⟨lt, v, at_t⟩ := legal
  have duty : (sys.pc t).duty t = some (v, .gone t) := by rw [at_t]; rfl
  have gone := (h.duty duty).1
  have page := h.page v
  rw [gone] at page
  have freed : pageFree sys.state v = .ok (sys.state.setPage v { sys.state.pages v with
    bufs := none, refcount := 0 }) := by
    simp only [pageFree, page.1]
    rfl
  exact ⟨_, q, _, by simp only [exec, at_t, freed, ok_bind]; rfl,
    h.move_duty lt duty (sys.state.setPage v { sys.state.pages v with bufs := none, refcount := 0 }) .shrinking .free
      rfl rfl ⟨rfl, page.2⟩ (by simp) rfl (by simp) (by simp) (h.tree_same gone rfl (by simp))⟩

/-! ### Every interleaving -/

theorem Inv.step {op : Op} (legal : sys.Legal n op) (apart : op.Apart n sys) : sys.Steps n op := by
  cases op with
  | get t m i => exact h.get legal apart
  | fill t frame bufs => exact h.fill legal
  | insert t => exact h.insert legal apart
  | acquire t => exact h.acquire legal apart
  | put t p => exact h.put legal
  | shrink t =>
    obtain ⟨lt, idle⟩ := legal
    exact ⟨_, q, role, rfl, h.goto lt (by rw [idle]; rfl) rfl nofun⟩
  | evict t => exact h.evict legal apart
  | writeback t => exact h.writeback legal
  | remove t => exact h.remove legal
  | free t => exact h.free legal

theorem Inv.intact (pos : 0 < sys.held p) : sys.Intact p := by
  have page := h.page p
  have cached := h.cached_of_held pos
  rw [cached] at page
  refine ⟨(h.tree _ _ p).mpr ⟨by rw [cached]; rfl, rfl, rfl⟩, page.2, fun zero => ?_⟩
  have count := page.1
  rw [zero, show (0 : BitVec 32).toNat = 0 from rfl] at count
  omega

end

/-- In every interleaving whose lookups and evictions stay out of each other's gaps, a page for
which a get has returned without a matching put is in its tree and is not freed, and no thread is
stuck. -/
theorem got_pages_stay {disk : Nat → Nat → σ} {pages : Nat → Page σ} {es : List (Sys σ × Op)} {sys : Sys σ}
    (run : Run (Sys.step n) (Sys.start disk pages) es sys) (apart : ∀ e ∈ es, e.2.Apart n e.1) :
    (∀ p, 0 < sys.held p → sys.Intact p) ∧ ∀ op, sys.Legal n op → op.Apart n sys → ∃ sys', sys.step n op sys' := by
  have reached : ∃ q role, Inv n sys q role := by
    apply (Run.invariant_of_guard (I := fun sys => ∃ q role, Inv n sys q role) (G := fun sys op => op.Apart n sys)
      ⟨_, _, Inv.start n disk pages⟩ _ run apart).1
    rintro s op s' ⟨q, role, h⟩ met ⟨legal, ran⟩
    obtain ⟨s'', q', role', ran', inv⟩ := h.step legal met
    cases ran.symm.trans ran'
    exact ⟨q', role', inv⟩
  obtain ⟨q, role, h⟩ := reached
  refine ⟨fun p pos => h.intact pos, fun op legal met => ?_⟩
  obtain ⟨sys', -, -, ran, -⟩ := h.step legal met
  exact ⟨sys', legal, ran⟩

/-! ### A get in the gap of an eviction -/

def noPages : Nat → Page Nat := fun _ => ⟨0, 0, 0, none, false, fun _ => 0⟩

/-- Thread 0 has got and put the first `k` pages of a device, into the frames of the same
numbers. -/
structure Parked (sys : Sys Nat) (k : Nat) : Prop where
  first : sys.pc 0 = if cacheMax < k then .shrinking else .idle
  second : sys.pc 1 = .idle
  held : ∀ p, sys.held p = 0
  tree : ∀ i, sys.state.tree 0 i = if i < k then some i else none
  page : ∀ i, i < k → (sys.state.pages i).mapping = 0 ∧ (sys.state.pages i).index = i ∧ (sys.state.pages i).refcount = 1
  free : ∀ i, k ≤ i → (sys.state.pages i).refcount = 0
  ring : sys.state.lru.Ring none ((List.range k).map some)
  count : sys.state.count = BitVec.ofNat 32 k

/-- The state after a get and a put of the next page. -/
def parkNext (sys : Sys Nat) (k : Nat) : Sys Nat :=
  { state :=
      { pages := update sys.state.pages k { filledPage sys.state 0 k k with refcount := 1 }
        tree := update sys.state.tree 0 (update (sys.state.tree 0) k (some k))
        lru := (sys.state.lru.init (some k)).addTail (some k) none
        count := sys.state.count + 1
        disk := sys.state.disk }
    pc := update sys.pc 0 (if cacheMax < k + 1 then .shrinking else .idle)
    held := sys.held }

theorem Parked.run_next {sys : Sys Nat} {k : Nat} (h : Parked sys k) (low : k ≤ cacheMax) :
    ∃ es, Run (step 2) sys es (parkNext sys k) ∧ ∀ e ∈ es, e.2.Apart 2 e.1 := by
  have idle : sys.pc 0 = .idle := by rw [h.first, if_neg (Nat.not_lt_of_le low)]
  have miss : sys.state.tree 0 k = none := by rw [h.tree, if_neg (Nat.lt_irrefl k)]
  have get : sys.step 2 (.get 0 0 k) (sys.goto 0 (.missed 0 k)) := by
    refine ⟨⟨by omega, idle⟩, ?_⟩
    simp only [exec, miss]
    rfl
  obtain ⟨sys₂, eq₂⟩ : ∃ sys₂ : Sys Nat, sys₂ = ⟨{ sys.state.setPage k (filledPage sys.state 0 k k) with
    lru := sys.state.lru.init (some k) }, update sys.pc 0 (.filled k 0 k), sys.held⟩ := ⟨_, rfl⟩
  have fill : (sys.goto 0 (.missed 0 k)).step 2 (.fill 0 (some k) true) sys₂ := by
    refine ⟨⟨by omega, ⟨0, k, rfl⟩, fun p mem => ?_⟩, ?_⟩
    · cases mem
      exact h.free k (Nat.le_refl k)
    · simp only [exec, Sys.goto, update_self, fill_some, ok_bind, eq₂, update_idem]
      rfl
  obtain ⟨sys₃, eq₃⟩ : ∃ sys₃ : Sys Nat, sys₃ = ⟨sys₂.state.setTree 0 k (some k), update sys.pc 0 .idle,
    update sys.held k 1⟩ := ⟨_, rfl⟩
  have insert : sys₂.step 2 (.insert 0) sys₃ := by
    have at_0 : sys₂.pc 0 = .filled k 0 k := by rw [eq₂]; rfl
    have miss₂ : sys₂.state.tree 0 k = none := by rw [eq₂]; exact miss
    refine ⟨⟨by omega, k, 0, k, at_0⟩, ?_⟩
    simp only [exec, at_0, insertSection, miss₂, returns, eq₃]
    rw [eq₂]
    simp only [update_idem, h.held k]
    rfl
  have put : sys₃.step 2 (.put 0 k) (parkNext sys k) := by
    have page : sys₃.state.pages k = filledPage sys.state 0 k k := by
      rw [eq₃, eq₂]
      exact update_self ..
    have count : (sys₃.state.count + 1).toNat = k + 1 := by
      have old : sys₃.state.count.toNat = k := by
        rw [eq₃, eq₂]
        show sys.state.count.toNat = k
        rw [h.count, BitVec.toNat_ofNat]
        rw [cacheMax] at low
        omega
      rw [cacheMax] at low
      rw [succ_toNat (by omega), old]
    have section_eq : putSection sys₃.state k = (decide (cacheMax < k + 1), (parkNext sys k).state) := by
      have one : (filledPage sys.state 0 k k).refcount - 1 = 1 := show (2 : BitVec 32) - 1 = 1 by decide
      simp only [putSection, page, setPage, update_self, one, if_true, lruAddTail, count]
      rw [eq₃, eq₂]
      simp only [setTree, setPage, update_idem]
      rfl
    refine ⟨⟨by omega, by rw [eq₃]; rfl, ?_⟩, ?_⟩
    · rw [eq₃]
      show 0 < update sys.held k 1 k
      rw [update_self]
      omega
    · have held : update sys₃.held k (sys₃.held k - 1) = sys.held := by
        rw [eq₃]
        show update (update sys.held k 1) k (update sys.held k 1 k - 1) = sys.held
        rw [update_self, update_idem, Nat.sub_self, ← h.held k, update_eq_self]
      have pc : sys₃.pc = update sys.pc 0 .idle := by rw [eq₃]
      simp only [exec, section_eq, held, Sys.goto, pc, update_idem, parkNext, decide_eq_true_eq]
      split <;> rfl
  refine ⟨_, (((Run.start.snoc get).snoc fill).snoc insert).snoc put, ?_⟩
  -- neither section of the get finds a page
  simp only [nil_append, cons_append, forall_mem_cons, Op.Apart, true_and]
  refine ⟨?_, ?_, by simp⟩
  · rw [miss]
    simp
  · rw [eq₂]
    show ∀ p ∈ sys.state.tree 0 k, _
    rw [miss]
    simp

theorem Parked.next {sys : Sys Nat} {k : Nat} (h : Parked sys k) : Parked (parkNext sys k) (k + 1) := by
  refine ⟨rfl, h.second, h.held, ?tree, ?page, ?free, ?ring, ?count⟩
  case tree =>
    intro i
    show update (sys.state.tree 0) k (some k) i = _
    obtain rfl | here := eq_or_ne i k
    · rw [update_self, if_pos (Nat.lt_succ_self i)]
    · rw [update_of_ne here, h.tree]
      by_cases below : i < k
      · rw [if_pos below, if_pos (by omega)]
      · rw [if_neg below, if_neg (by omega)]
  case page =>
    intro i lt
    simp only [parkNext]
    obtain rfl | here := eq_or_ne i k
    · rw [update_self]
      exact ⟨rfl, rfl, rfl⟩
    · rw [update_of_ne here]
      exact h.page i (by omega)
  case free =>
    intro i le
    simp only [parkNext]
    rw [update_of_ne (by omega)]
    exact h.free i (by omega)
  case ring =>
    have out : k ∉ List.range k := fun mem => Nat.lt_irrefl k (mem_range.mp mem)
    rw [range_succ]
    exact lruAddTail_list (s := { sys.state with lru := sys.state.lru.init (some k) }) (ring_init h.ring out) out
  case count =>
    show sys.state.count + 1 = _
    rw [h.count]
    exact (BitVec.ofNat_add k 1).symm

theorem Parked.start : Parked (start (fun _ _ => 0) noPages) 0 :=
  ⟨rfl, rfl, fun _ => rfl, fun _ => rfl, nofun, fun _ _ => rfl, ⟨nodup_singleton _, rfl, rfl⟩, rfl⟩

theorem parked {k : Nat} (low : k ≤ cacheMax + 1) :
    ∃ es sys, Run (step 2) (start (fun _ _ => 0) noPages) es sys ∧ Parked sys k := by
  induction k with
  | zero =>
    exact ⟨[], _, Run.start, Parked.start⟩
  | succ k ih =>
    obtain ⟨es, sys, run, h⟩ := ih (by omega)
    obtain ⟨es', more, -⟩ := h.run_next (by omega)
    exact ⟨_, _, run.trans more, h.next⟩

/-- One page too many is in the list. Thread 0 has taken page 0 out of the list to evict it; thread
1 gets page 0, which it finds in the tree; then thread 0 takes it out of the tree. -/
theorem got_page_removed : ∃ es sys, Run (Sys.step 2) (Sys.start (fun _ _ => 0) noPages) es sys ∧
    0 < sys.held 0 ∧ ¬sys.Intact 0 := by
  obtain ⟨es, sys, run, h⟩ := parked (k := cacheMax + 1) (Nat.le_refl _)
  have shrinking : sys.pc 0 = .shrinking := by rw [h.first, if_pos (Nat.lt_succ_self _)]
  have found : sys.state.tree 0 0 = some 0 := by rw [h.tree, if_pos (Nat.succ_pos _)]
  have evicts : evictSection sys.state = (some 0, lruDel sys.state 0) := by
    have exceeds : cacheMax < sys.state.count.toNat := by rw [h.count]; decide
    have split : List.range (cacheMax + 1) = 0 :: (List.range cacheMax).map Nat.succ := range_succ_eq_map
    rw [evictSection, if_pos exceeds, lruEvict_first (split ▸ h.ring)]
  -- the section of thread 0, then the two of thread 1, then thread 0 goes on
  obtain ⟨sys₁, evict, at_0, at_1, found⟩ : ∃ sys₁, sys.step 2 (.evict 0) sys₁ ∧ sys₁.pc 0 = .evicted 0 ∧
      sys₁.pc 1 = .idle ∧ sys₁.state.tree 0 0 = some 0 := by
    refine ⟨⟨lruDel sys.state 0, update sys.pc 0 (.evicted 0), sys.held⟩, ⟨⟨by omega, shrinking⟩, ?_⟩, rfl, h.second,
      found⟩
    simp only [exec, evicts]
    rfl
  obtain ⟨sys₂, get, at_0, at_1⟩ : ∃ sys₂, sys₁.step 2 (.get 1 0 0) sys₂ ∧ sys₂.pc 0 = .evicted 0 ∧
      sys₂.pc 1 = .acquiring 0 := by
    refine ⟨sys₁.goto 1 (.acquiring 0), ⟨⟨by omega, at_1⟩, ?_⟩, at_0, rfl⟩
    simp only [exec, found]
    rfl
  obtain ⟨sys₃, acquire, at_0, held⟩ : ∃ sys₃, sys₂.step 2 (.acquire 1) sys₃ ∧ sys₃.pc 0 = .evicted 0 ∧
      0 < sys₃.held 0 := by
    refine ⟨({ sys₂ with state := refAcquire sys₂.state 0 } : Sys Nat).returns 1 0, ⟨⟨by omega, 0, at_1⟩, ?_⟩, at_0,
      Nat.succ_pos _⟩
    simp only [exec, at_1]
    rfl
  obtain ⟨sys₄, writes, at_0, held⟩ : ∃ sys₄, sys₃.step 2 (.writeback 0) sys₄ ∧ sys₄.pc 0 = .written 0 ∧
      0 < sys₄.held 0 := by
    refine ⟨⟨PageCache.writeback sys₃.state 0, update sys₃.pc 0 (.written 0), sys₃.held⟩,
      ⟨⟨by omega, 0, at_0⟩, ?_⟩, rfl,
      held⟩
    simp only [exec, at_0]
    rfl
  have removes : sys₄.step 2 (.remove 0) ⟨removeSection sys₄.state 0, update sys₄.pc 0 (.removed 0), sys₄.held⟩ := by
    refine ⟨⟨by omega, 0, at_0⟩, ?_⟩
    simp only [exec, at_0]
    rfl
  refine ⟨_, _, ((((run.snoc evict).snoc get).snoc acquire).snoc writes).snoc removes, held, ?_⟩
  rintro ⟨there, -, -⟩
  simp only [removeSection, setTree, update_self] at there
  cases there

/-- A page is got, put and got once more, by two threads. -/
theorem got_page_stays : ∃ es sys, Run (Sys.step 2) (Sys.start (fun _ _ => 0) noPages) es sys ∧
    (∀ e ∈ es, e.2.Apart 2 e.1) ∧ 0 < sys.held 0 ∧ sys.Intact 0 := by
  obtain ⟨es, run, apart⟩ := Parked.start.run_next (Nat.zero_le _)
  have h := Parked.start.next
  obtain ⟨sys, eq⟩ : ∃ sys, parkNext (start (fun _ _ => 0) noPages) 0 = sys := ⟨_, rfl⟩
  rw [eq] at run h
  have found : sys.state.tree 0 0 = some 0 := by rw [h.tree, if_pos Nat.one_pos]
  have idle : ∀ u, u < 2 → sys.pc u = .idle := by
    intro u lt
    obtain rfl | rfl : u = 0 ∨ u = 1 := by omega
    · rw [h.first, if_neg (by decide)]
    · exact h.second
  have get : sys.step 2 (.get 1 0 0) (sys.goto 1 (.acquiring 0)) := by
    refine ⟨⟨by omega, h.second⟩, ?_⟩
    simp only [exec, found]
    rfl
  have acquire : (sys.goto 1 (.acquiring 0)).step 2 (.acquire 1)
      (({ sys.goto 1 (.acquiring 0) with state := refAcquire sys.state 0 } : Sys Nat).returns 1 0) :=
    ⟨⟨by omega, 0, rfl⟩, rfl⟩
  have more := (run.snoc get).snoc acquire
  have apart' : ∀ e ∈ es ++ [(sys, Op.get 1 0 0)] ++ [(sys.goto 1 (.acquiring 0), .acquire 1)], e.2.Apart 2 e.1 := by
    rw [append_assoc]
    intro e mem
    rcases mem_append.mp mem with old | new
    · exact apart e old
    · simp only [cons_append, nil_append, mem_cons, not_mem_nil, or_false] at new
      rcases new with rfl | rfl
      · intro p there u lt leaves
        rw [idle u lt] at leaves
        rcases leaves with eq | eq <;> cases eq
      · show (sys.state.pages 0).refcount ≠ _
        rw [(h.page 0 Nat.one_pos).2.2]
        decide
  refine ⟨_, _, more, apart', Nat.succ_pos _, (got_pages_stay more apart').1 0 (Nat.succ_pos _)⟩

end Jlos.PageCache.Interleaved
