import Jlos.Lib.Tokens
import Jlos.Slab.Sections

/-!
# Slab caches on several CPUs

Threads call `alloc` and `free` on any CPU; between the sections of one call, sections of the others
run. The section of `free` that finds a page owned by a CPU keeps `s_slab_lock` while it waits for
the lock of that CPU, so its holder is recorded. The slow path of `alloc` is one section: what it
does before it takes the lock of its CPU concerns pages that no section without the slab lock looks
at.

An object that is out is live or carried by one thread. A page in transit that has no objects out is
about to be retired by one thread, and no other can find it.
-/
namespace Jlos.Slab

open Lib Function List Option

/-- Where a thread is inside a call. -/
inductive Pc
  | idle
  /-- `alloc` has taken the last object of the page -/
  | allocFinish (page obj : Nat)
  /-- the list of the CPU had nothing -/
  | allocSlow (cpu : Nat)
  /-- `free` has seen its own CPU own the page -/
  | freeFast (cpu obj : Nat)
  /-- `free` has emptied the page -/
  | freeFinish (page : Nat)
  | freeSlow (obj : Nat)
  /-- `free` holds the slab lock and has seen another CPU own the page -/
  | freeLocked (obj owner : Nat)
  deriving DecidableEq

def Pc.obj : Pc → Option Nat
  | .idle | .allocSlow _ | .freeFinish _ => none
  | .allocFinish _ obj | .freeFast _ obj | .freeSlow obj | .freeLocked obj _ => some obj

structure Sys where
  st : State
  pc : Nat → Pc
  live : List Nat
  /-- The thread that holds `s_slab_lock` between two of its sections. -/
  lock : Option Nat

inductive Op
  | alloc (thread cpu : Nat)
  | free (thread cpu obj : Nat)
  /-- The next section of the call the thread is in; `frame` is what `jlos_page_frame_malloc`
  returns if the section asks for a page. -/
  | advance (thread : Nat) (frame : Option Nat)

namespace Sys

variable (a : Arch) (g : Geometry)

def start : Sys := ⟨State.fresh, fun _ => .idle, [], none⟩

/-- The thread leaves the cache in `st` and goes to `pc`. -/
def goto (s : Sys) (t : Nat) (st : State) (pc : Pc) : Sys :=
  { s with st := st, pc := update s.pc t pc }

def handOut (s : Sys) (t : Nat) (st : State) (obj : Nat) : Sys :=
  { s.goto t st .idle with live := obj :: s.live }

def exec (s : Sys) : Op → M Sys
  | .alloc t cpu => do
    let (taken, st) ← allocFast s.st cpu
    match taken with
    | none => pure (s.goto t st (.allocSlow cpu))
    | some (obj, none) => pure (s.handOut t st obj)
    | some (obj, some sp) => pure (s.goto t st (.allocFinish sp obj))
  | .free t cpu obj => do
    -- the owner is read without a lock
    let pg ← pageAt s.st (pageOf a obj)
    let pc := if pg.owner = cpu then Pc.freeFast cpu obj else Pc.freeSlow obj
    pure { s.goto t s.st pc with live := s.live.erase obj }
  | .advance t frame =>
    match s.pc t with
    | .idle => pure s
    | .allocFinish sp obj => do
      let st ← allocFinish s.st sp
      pure (s.handOut t st obj)
    | .allocSlow cpu => do
      let (taken, st) ← allocSlow a g s.st cpu frame
      match taken with
      | none => pure (s.goto t st .idle)
      | some obj => pure (s.handOut t st obj)
    | .freeFast cpu obj => do
      let (r, st) ← freeFast a s.st cpu obj
      match r with
      | .done => pure (s.goto t st .idle)
      | .emptied sp => pure (s.goto t st (.freeFinish sp))
      | .moved => pure (s.goto t st (.freeSlow obj))
    | .freeFinish sp => do
      let st ← freeFinish s.st sp
      pure (s.goto t st .idle)
    | .freeSlow obj => do
      let (owner, st) ← freeSlow a s.st obj
      match owner with
      | none => pure (s.goto t st .idle)
      | some owner => pure { s.goto t st (.freeLocked obj owner) with lock := some t }
    | .freeLocked obj owner => do
      let st ← freeLocked a s.st obj owner
      pure { s.goto t st .idle with lock := none }

/-- Whether the next section of a thread at this point can get `s_slab_lock`, if it needs it. -/
def Enabled (s : Sys) (t : Nat) : Pc → Prop
  | .idle | .freeFast .. => True
  | .allocFinish .. | .allocSlow _ | .freeFinish _ | .freeSlow _ => s.lock = none
  | .freeLocked .. => s.lock = some t

instance (s : Sys) (t : Nat) (pc : Pc) : Decidable (s.Enabled t pc) := by
  cases pc <;> unfold Enabled <;> infer_instance

/-- A thread in no call may start one; frees are of live objects, and the page frame allocator
returns frames of the direct map that are not in use. -/
def Legal (s : Sys) : Op → Prop
  | .alloc t _ => s.pc t = .idle
  | .free t _ obj => s.pc t = .idle ∧ obj ∈ s.live
  | .advance t frame => s.Enabled t (s.pc t) ∧ ∀ page ∈ frame, Frame a page ∧ s.st.pages page = none

instance (s : Sys) (op : Op) : Decidable (s.Legal a op) := by
  cases op <;> unfold Legal <;> infer_instance

def step (s : Sys) (op : Op) (s' : Sys) : Prop := s.Legal a op ∧ s.exec a g op = .ok s'

/-- The page is in this list, once, and in no other. -/
def OnlyIn (st : State) (p : Nat) (id : ListId) : Prop :=
  ∀ id', (st.lists id').count p = if id' = id then 1 else 0

/-- What the pages of a list are like. -/
def Suits (pg : Page) : ListId → Prop
  | .cpu _ | .partials => pg.freelist ≠ []
  | .full => pg.inuse = pg.objCount
  | .empty => pg.inuse = 0

structure Consistent (s : Sys) : Prop where
  place : ∀ p pg, s.st.pages p = some pg →
    (∃ i, OnlyIn s.st p (.cpu i) ∧ pg.owner = i) ∨
      (∃ id ∈ [ListId.partials, .full, .empty], OnlyIn s.st p id ∧ pg.owner = -1) ∨
      (∀ id, p ∉ s.st.lists id) ∧ pg.owner = -2
  listed : ∀ id, ∀ p ∈ s.st.lists id, ∃ pg, s.st.pages p = some pg ∧ Suits pg id
  count : ∀ p pg, s.st.pages p = some pg → pg.inuse + pg.freelist.length = pg.objCount
  once : s.live.Nodup
  held : ∀ o ∈ s.live, ∃ pg, s.st.pages (pageOf a o) = some pg ∧ o ∉ pg.freelist

end Sys

/-! ### The invariant -/

def Emptied (st : State) (place : Nat → Option ListId) (out : Nat → List Nat) (p : Nat) : Prop :=
  place p = none ∧ out p = [] ∧ st.pages p ≠ none

structure SysInv (a : Arch) (g : Geometry) (s : Sys) (place : Nat → Option ListId) (out : Nat → List Nat) :
    Prop where
  rep : Rep a g s.st place out
  owned : Owned (fun o => o ∈ out (pageOf a o)) s.live (Pc.obj ∘ s.pc)
  filling : ∀ t p o, s.pc t = .allocFinish p o → pageOf a o = p
  emptying : ∀ t p, s.pc t = .freeFinish p → Emptied s.st place out p
  one : ∀ t t' p, s.pc t = .freeFinish p → s.pc t' = .freeFinish p → t = t'
  locked : ∀ t o i, s.pc t = .freeLocked o i →
    s.lock = some t ∧ (place (pageOf a o) = some (.cpu i) ∨ place (pageOf a o) = none)

variable {a : Arch} {g : Geometry} {s : Sys} {place place' : Nat → Option ListId}
  {out : Nat → List Nat} {p obj t cpu : Nat} {st' st : State} {frame : Option Nat}

section

variable (h : SysInv a g s place out) {out' : Nat → List Nat}
include h

/-- A thread goes to `pc`: what its section has to leave behind. -/
theorem SysInv.move {pc : Pc} {live : List Nat} {lock : Option Nat} (rep : Rep a g st' place' out')
    (owned : Owned (fun o => o ∈ out' (pageOf a o)) live (update (Pc.obj ∘ s.pc) t pc.obj))
    (filling : ∀ p o, pc = .allocFinish p o → pageOf a o = p)
    (emptying : ∀ p, pc = .freeFinish p → Emptied st' place' out' p ∧ ∀ t', s.pc t' ≠ .freeFinish p)
    (others : ∀ t' q, t' ≠ t → s.pc t' = .freeFinish q → Emptied st' place' out' q)
    (locking : ∀ o i, pc = .freeLocked o i →
      lock = some t ∧ (place' (pageOf a o) = some (.cpu i) ∨ place' (pageOf a o) = none))
    (waiting : ∀ t' o i, t' ≠ t → s.pc t' = .freeLocked o i →
      lock = some t' ∧ (place' (pageOf a o) = some (.cpu i) ∨ place' (pageOf a o) = none)) :
    SysInv a g ⟨st', update s.pc t pc, live, lock⟩ place' out' := by
  refine ⟨rep, by rwa [Function.comp_update], ?_, ?_, ?_, ?_⟩
  · intro t' p o at_pc
    simp only [update_apply] at at_pc
    split at at_pc
    · exact filling p o at_pc
    · exact h.filling t' p o at_pc
  · intro t' p at_pc
    simp only [update_apply] at at_pc
    split at at_pc
    · exact (emptying p at_pc).1
    next ne => exact others t' p ne at_pc
  · intro t₁ t₂ p first second
    simp only [update_apply] at first second
    split at first <;> split at second
    next eq₁ eq₂ => rw [eq₁, eq₂]
    · exact absurd second ((emptying p first).2 t₂)
    · exact absurd first ((emptying p second).2 t₁)
    · exact h.one t₁ t₂ p first second
  · intro t' o i at_pc
    simp only [update_apply] at at_pc
    split at at_pc
    next eq =>
      rw [eq]
      exact locking o i at_pc
    next ne => exact waiting t' o i ne at_pc

/-- A thread goes on without a change to the cache. -/
theorem SysInv.goes {pc : Pc} {live : List Nat}
    (owned : Owned (fun o => o ∈ out (pageOf a o)) live (update (Pc.obj ∘ s.pc) t pc.obj))
    (filling : ∀ p o, pc ≠ .allocFinish p o) (emptying : ∀ p, pc ≠ .freeFinish p)
    (locking : ∀ o i, pc ≠ .freeLocked o i) : SysInv a g ⟨s.st, update s.pc t pc, live, s.lock⟩ place out :=
  h.move h.rep owned (fun p o is => absurd is (filling p o)) (fun p is => absurd is (emptying p))
    (fun t' q _ => h.emptying t' q) (fun o i is => absurd is (locking o i)) fun t' o i _ => h.locked t' o i

/-- A section that changes a page no other thread is about to retire. -/
theorem SysInv.others (kept : Kept p s.st st' place place') (same : ∀ q, q ≠ p → out' q = out q)
    (busy : ∀ t', t' ≠ t → s.pc t' ≠ .freeFinish p) :
    ∀ t' q, t' ≠ t → s.pc t' = .freeFinish q → Emptied st' place' out' q := by
  intro t' q ne at_pc
  have apart : q ≠ p := by
    rintro rfl
    exact busy t' ne at_pc
  obtain ⟨nowhere, empty, there⟩ := h.emptying t' q at_pc
  obtain ⟨samePlace, samePage⟩ := kept q apart (by simp [nowhere])
  exact ⟨samePlace.trans nowhere, (same q apart).trans empty, by rwa [samePage]⟩

/-- A thread that has the slab lock is the only one that can be between two sections with it. -/
theorem SysInv.alone (mine : s.lock = none ∨ s.lock = some t) {P : Nat → Nat → Nat → Prop}
    (t' o i : Nat) (ne : t' ≠ t) (at_pc : s.pc t' = .freeLocked o i) : P t' o i := by
  obtain ⟨held, -⟩ := h.locked t' o i at_pc
  rcases mine with free | mine
  · rw [free] at held
    cases held
  · exact absurd (some.inj (held.symm.trans mine)) ne

/-- A section under the lock of a CPU leaves a page where it is or takes it off its list. -/
theorem SysInv.waits {slot : Option ListId} (fall : slot = place p ∨ slot = none)
    {t' o i : Nat} (at_pc : s.pc t' = .freeLocked o i) :
    s.lock = some t' ∧ (update place p slot (pageOf a o) = some (.cpu i) ∨
      update place p slot (pageOf a o) = none) := by
  obtain ⟨held, slots⟩ := h.locked t' o i at_pc
  refine ⟨held, ?_⟩
  by_cases same : pageOf a o = p
  · rw [same] at slots ⊢
    rw [update_self]
    rcases fall with rfl | rfl
    · exact slots
    · exact .inr rfl
  · rwa [update_of_ne same]

theorem SysInv.busy (used : ¬Emptied s.st place out p) (t : Nat) : s.pc t ≠ .freeFinish p :=
  fun at_pc => used (h.emptying t p at_pc)

end

theorem not_emptied_of_place {id : ListId} (at_id : place p = some id) : ¬Emptied st place out p := by
  rintro ⟨nowhere, -⟩
  rw [at_id] at nowhere
  cases nowhere

theorem not_emptied_of_mem (member : obj ∈ out p) : ¬Emptied st place out p :=
  fun emptied => ne_nil_of_mem member emptied.2.1

/-! ### Who has which object -/

theorem SysInv.owned_same (h : SysInv a g s place out) (pc : Pc) (same : pc.obj = (s.pc t).obj) :
    Owned (fun o => o ∈ out (pageOf a o)) s.live (update (Pc.obj ∘ s.pc) t pc.obj) := by
  rw [same, show (s.pc t).obj = (Pc.obj ∘ s.pc) t from rfl, update_eq_self]
  exact h.owned

theorem SysInv.owned_new (h : SysInv a g s place out) (nothing : (s.pc t).obj = none)
    (onPage : pageOf a obj = p) (fresh : obj ∉ out p) :
    Owned (fun o => o ∈ update out p (obj :: out p) (pageOf a o)) (obj :: s.live)
      (update (Pc.obj ∘ s.pc) t Pc.idle.obj) := by
  rw [show Pc.idle.obj = (Pc.obj ∘ s.pc) t from nothing.symm, update_eq_self]
  exact h.owned.mint (by rwa [onPage]) (mem_out_cons onPage)

theorem SysInv.carried (h : SysInv a g s place out) (carries : (s.pc t).obj = some obj) : obj ∈ out (pageOf a obj) :=
  h.owned.carried carries

/-! ### Steps -/

/-- The step can be taken, and what it leaves satisfies the invariant. -/
def Steps (a : Arch) (g : Geometry) (s : Sys) (op : Op) : Prop :=
  ∃ s' place' out', s.exec a g op = .ok s' ∧ SysInv a g s' place' out'

open Sys

section

variable (h : SysInv a g s place out)
include h

theorem SysInv.alloc (idle : s.pc t = .idle) : Steps a g s (.alloc t cpu) := by
  have nothing : (s.pc t).obj = none := by rw [idle]; rfl
  rcases h.rep.allocFast cpu with ⟨none, -⟩ | ⟨p, obj, done, slot, st', eq, at_cpu, onPage, fresh,
    rep, ⟨pg, pages⟩, result⟩
  · refine ⟨_, place, out, ?_, h.goes (h.owned_same (.allocSlow cpu) nothing.symm) nofun nofun nofun⟩
    simp only [exec, none, ok_bind]
    rfl
  have same : ∀ q, q ≠ p → update out p (obj :: out p) q = out q := fun q ne => update_of_ne ne ..
  have kept : Kept p s.st st' place (update place p slot) := Kept.update pages
  have others := h.others (t := t) kept same fun t' _ => h.busy (not_emptied_of_place at_cpu) t'
  rcases result with ⟨rfl, rfl⟩ | ⟨rfl, rfl⟩
  · refine ⟨s.handOut t st' obj, _, _, ?_, h.move rep (h.owned_new nothing onPage fresh) nofun nofun others nofun
      fun t' o i _ => h.waits (.inl at_cpu.symm)⟩
    simp only [exec, eq, ok_bind]
    rfl
  · have owned := h.owned.mintCarry (by rwa [onPage]) nothing (mem_out_cons onPage)
    refine ⟨s.goto t st' (.allocFinish p obj), _, _, ?_, h.move rep owned (by rintro _ _ ⟨⟩; exact onPage) nofun others
      nofun fun t' o i _ => h.waits (.inr rfl)⟩
    simp only [exec, eq, ok_bind]
    rfl

theorem SysInv.free (idle : s.pc t = .idle) (live : obj ∈ s.live) : Steps a g s (.free t cpu obj) := by
  have nothing : (s.pc t).obj = none := by rw [idle]; rfl
  obtain ⟨pg, page⟩ := h.rep.page ((h.owned.held obj).mpr (.inl live))
  have owned := h.owned.collect live nothing
  refine ⟨_, place, out, by simp only [exec, pageAt_eq page, ok_bind]; rfl, ?_⟩
  split
  · exact h.goes owned nofun nofun nofun
  · exact h.goes owned nofun nofun nofun

theorem SysInv.allocFinish (at_pc : s.pc t = .allocFinish p obj)
    (free : s.lock = none) : Steps a g s (.advance t frame) := by
  have onPage := h.filling t p obj at_pc
  have carries : (s.pc t).obj = some obj := by rw [at_pc]; rfl
  have member := h.carried carries
  rw [onPage] at member
  obtain ⟨st', slot, eq, rep, pg, pages⟩ := h.rep.allocFinish member
  refine ⟨s.handOut t st' obj, _, out, ?_, h.move rep (h.owned.deliver carries) nofun nofun
    (h.others (Kept.update pages) (fun _ _ => rfl) fun t' _ => h.busy (not_emptied_of_mem member) t') nofun
    (h.alone (.inl free))⟩
  simp [exec, at_pc, eq]

theorem SysInv.allocSlow (ok : g.Ok a) (at_pc : s.pc t = .allocSlow cpu) (free : s.lock = none)
    (fresh : ∀ page ∈ frame, Frame a page ∧ s.st.pages page = none) : Steps a g s (.advance t frame) := by
  have nothing : (s.pc t).obj = none := by rw [at_pc]; rfl
  rcases h.rep.allocSlow ok cpu fresh with ⟨none, -⟩ | ⟨p, obj, slot, st', eq, origin, onPage, notOut, rep, pg, pages⟩
  · refine ⟨_, place, out, ?_, h.goes (h.owned_same .idle nothing.symm) nofun nofun nofun⟩
    simp only [exec, at_pc, none, ok_bind]
    rfl
  · have unused : ¬Emptied s.st place out p := by
      rcases origin with ⟨new, -⟩ | at_partials
      · exact fun emptied => emptied.2.2 new
      · exact not_emptied_of_place at_partials
    refine ⟨s.handOut t st' obj, _, _, ?_, h.move rep (h.owned_new nothing onPage notOut) nofun nofun
      (h.others (Kept.update pages) (fun q ne => update_of_ne ne ..) fun t' _ => h.busy unused t') nofun
      (h.alone (.inl free))⟩
    simp only [exec, at_pc, eq, ok_bind]
    rfl

theorem SysInv.freeFast (at_pc : s.pc t = .freeFast cpu obj) : Steps a g s (.advance t frame) := by
  have carries : (s.pc t).obj = some obj := by rw [at_pc]; rfl
  have member := h.carried carries
  rcases h.rep.freeFast cpu rfl member with moved | ⟨r, slot, st', eq, at_cpu, ⟨rep, kept, -⟩, there, result⟩
  · refine ⟨_, place, out, ?_, h.goes (h.owned_same (.freeSlow obj) carries.symm) nofun nofun nofun⟩
    simp only [exec, at_pc, moved, ok_bind]
    rfl
  have owned := h.owned.burn carries (h.rep.mem_out_erase rfl)
  have same : ∀ q, q ≠ pageOf a obj → update out (pageOf a obj) ((out (pageOf a obj)).erase obj) q = out q :=
    fun q ne => update_of_ne ne ..
  have used := h.busy (not_emptied_of_place at_cpu)
  have others := h.others (t := t) kept same fun t' _ => used t'
  rcases result with ⟨rfl, rfl⟩ | ⟨rfl, rfl, last⟩
  · refine ⟨s.goto t st' .idle, _, _, ?_, h.move rep owned nofun nofun others nofun
      fun t' o i _ => h.waits (.inl at_cpu.symm)⟩
    simp only [exec, at_pc, eq, ok_bind]
    rfl
  · have emptied : Emptied st' (update place (pageOf a obj) none)
        (update out (pageOf a obj) ((out (pageOf a obj)).erase obj)) (pageOf a obj) :=
      ⟨update_self .., by rw [update_self]; exact last, there⟩
    refine ⟨s.goto t st' (.freeFinish (pageOf a obj)), _, _, ?_, h.move rep owned nofun
      (by rintro _ ⟨⟩; exact ⟨emptied, used⟩) others nofun fun t' o i _ => h.waits (.inr rfl)⟩
    simp only [exec, at_pc, eq, ok_bind]
    rfl

theorem SysInv.freeFinish (at_pc : s.pc t = .freeFinish p) (free : s.lock = none) : Steps a g s (.advance t frame) := by
  have nothing : (s.pc t).obj = none := by rw [at_pc]; rfl
  obtain ⟨nowhere, empty, there⟩ := h.emptying t p at_pc
  obtain ⟨st', place', eq, rep, kept, -⟩ := h.rep.freeFinish nowhere empty there
  refine ⟨s.goto t st' .idle, place', out, ?_, h.move rep (h.owned_same .idle nothing.symm) nofun nofun
    (h.others kept (fun _ _ => rfl) fun t' ne other => ne (h.one t' t p other at_pc)) nofun (h.alone (.inl free))⟩
  simp [exec, at_pc, eq]

theorem SysInv.freeSlow (at_pc : s.pc t = .freeSlow obj) (free : s.lock = none) : Steps a g s (.advance t frame) := by
  have carries : (s.pc t).obj = some obj := by rw [at_pc]; rfl
  have member := h.carried carries
  rcases h.rep.freeSlow rfl member with ⟨i, eq, at_cpu⟩ | ⟨st', place', eq, rep, kept⟩
  · refine ⟨{ s.goto t s.st (.freeLocked obj i) with lock := some t }, place, out, ?_,
      h.move h.rep (h.owned_same _ carries.symm) nofun nofun (fun t' q _ => h.emptying t' q)
        (by rintro _ _ ⟨⟩; exact ⟨rfl, .inl at_cpu⟩) (h.alone (.inl free))⟩
    simp only [exec, at_pc, eq, ok_bind]
    rfl
  · refine ⟨s.goto t st' .idle, place', _, ?_, h.move rep (h.owned.burn carries (h.rep.mem_out_erase rfl)) nofun nofun
      (h.others kept (fun q ne => update_of_ne ne ..) fun t' _ => h.busy (not_emptied_of_mem member) t') nofun
      (h.alone (.inl free))⟩
    simp only [exec, at_pc, eq, ok_bind]
    rfl

theorem SysInv.freeLocked {i : Nat} (at_pc : s.pc t = .freeLocked obj i) : Steps a g s (.advance t frame) := by
  have carries : (s.pc t).obj = some obj := by rw [at_pc]; rfl
  have member := h.carried carries
  obtain ⟨mine, slot⟩ := h.locked t obj i at_pc
  obtain ⟨st', place', eq, rep, kept⟩ := h.rep.freeLocked rfl member slot
  refine ⟨{ s.goto t st' .idle with lock := none }, place', _, ?_,
    h.move rep (h.owned.burn carries (h.rep.mem_out_erase rfl)) nofun nofun
      (h.others kept (fun q ne => update_of_ne ne ..) fun t' _ => h.busy (not_emptied_of_mem member) t') nofun
      (h.alone (.inr mine))⟩
  simp [exec, at_pc, eq]

theorem SysInv.step (ok : g.Ok a) {op : Op} (legal : s.Legal a op) : Steps a g s op := by
  cases op with
  | alloc t cpu => exact h.alloc legal
  | free t cpu obj => exact h.free legal.1 legal.2
  | advance t frame =>
    obtain ⟨enabled, fresh⟩ := legal
    cases at_pc : s.pc t with
    | idle => exact ⟨s, place, out, by simp only [exec, at_pc]; rfl, h⟩
    | allocFinish p obj => exact h.allocFinish at_pc (by rwa [at_pc] at enabled)
    | allocSlow cpu => exact h.allocSlow ok at_pc (by rwa [at_pc] at enabled) fresh
    | freeFast cpu obj => exact h.freeFast at_pc
    | freeFinish p => exact h.freeFinish at_pc (by rwa [at_pc] at enabled)
    | freeSlow obj => exact h.freeSlow at_pc (by rwa [at_pc] at enabled)
    | freeLocked obj i => exact h.freeLocked at_pc

end

theorem sysInv_start : SysInv a g Sys.start (fun _ => none) fun _ => [] := ⟨rep_fresh,
    ⟨nodup_nil, by simp [Sys.start, Pc.obj], nofun, nofun⟩, nofun, nofun, nofun, nofun⟩

/-! ### Consistency -/

theorem Rep.onlyIn (h : Rep a g st place out) {id : ListId} (at_id : place p = some id) : Sys.OnlyIn st p id := by
  intro id'
  split
  next eq =>
    rw [eq]
    exact count_eq_one_of_mem (h.placed.nodup id) ((h.placed.mem id p).mpr at_id)
  next ne =>
    refine count_eq_zero_of_not_mem (h.placed.not_mem ?_)
    rw [at_id]
    exact fun eq => ne (some.inj eq).symm

theorem SysInv.consistent (h : SysInv a g s place out) : s.Consistent a := by
  refine ⟨fun p pg page => ?_, fun id p member => ?_, fun p pg page => ?_, h.owned.nodup, fun o live => ?_⟩
  · have owner := (h.rep.ok p pg page).owner
    cases slot : place p with
    | none =>
      rw [slot] at owner
      exact .inr (.inr ⟨fun id => h.rep.placed.not_mem (by simp [slot]), owner⟩)
    | some id =>
      rw [slot] at owner
      have only := h.rep.onlyIn slot
      cases id with
      | cpu i => exact .inl ⟨i, only, owner⟩
      | partials | full | empty => exact .inr (.inl ⟨_, by simp, only, owner⟩)
  · obtain ⟨-, pg, page, ok⟩ := h.rep.of_mem member
    have state := ok.state
    refine ⟨pg, page, ?_⟩
    cases id with
    | cpu i | partials => exact state
    | full => exact ok.full_iff_inuse.mpr state
    | empty => rw [Sys.Suits, ok.inuse, show out p = [] from state, length_nil]
  · have ok := h.rep.ok p pg page
    have count := ok.count
    rw [ok.inuse]
    omega
  · have member := (h.owned.held o).mpr (.inl live)
    obtain ⟨pg, page⟩ := h.rep.page member
    exact ⟨pg, page, fun free => (h.rep.ok _ pg page).free_not_out free member⟩

theorem SysInv.of_run (ok : g.Ok a) {es : List (Sys × Op)} (run : Run (Sys.step a g) Sys.start es s) :
    (∃ place out, SysInv a g s place out) ∧ ∀ e ∈ es, ∃ place out, SysInv a g e.1 place out := by
  refine Run.invariant (I := fun s => ∃ place out, SysInv a g s place out) ⟨_, _, sysInv_start⟩ ?_ run
  rintro s op s' ⟨place, out, h⟩ ⟨legal, eq⟩
  obtain ⟨s'', place', out', eq', after⟩ := h.step ok legal
  cases eq.symm.trans eq'
  exact ⟨place', out', after⟩

/-- In every run of the sections of `alloc` and `free` on any number of CPUs, every page is in one
list or in transit, as its owner says, its free list and count fit the list, and no object is handed
out while it is live; and no section that may run fails. -/
theorem slab_consistent {size align : Nat} (power : align = 0 ∨ ∃ k < a.wordBits, align = 2 ^ k)
    (created : slabCacheCreate a size align = some g) {es : List (Sys × Op)} {s : Sys}
    (run : Run (Sys.step a g) Sys.start es s) :
    (s.Consistent a ∧ ∀ e ∈ es, e.1.Consistent a) ∧ ∀ op, s.Legal a op → ∃ s', s.exec a g op = .ok s' := by
  have ok := slabCacheCreate_ok power created
  obtain ⟨⟨place, out, h⟩, before⟩ := SysInv.of_run ok run
  refine ⟨⟨h.consistent, fun e taken => ?_⟩, fun op legal => ?_⟩
  · obtain ⟨_, _, earlier⟩ := before e taken
    exact earlier.consistent
  · obtain ⟨s', _, _, eq, -⟩ := h.step ok legal
    exact ⟨s', eq⟩

/-- Two objects to a page. CPU 0 takes both, and while it is about to put the page on the full list
CPU 1 frees the first, which puts the page on the partial list; CPU 0 finds it there. Then CPU 1
takes the page over. -/
theorem slab_consistent_handover : slabCacheCreate .x86_64 2000 8 = some ⟨2000, 8, 2, 0⟩ ∧
      ∃ es s, Run (Sys.step .x86_64 ⟨2000, 8, 2, 0⟩) Sys.start es s ∧
        es.map Prod.snd = [.alloc 0 0, .advance 0 (some 0xFFFF800000100000), .alloc 0 0,
          .free 1 1 0xFFFF800000100808, .advance 1 none, .advance 0 none, .alloc 1 1, .advance 1 none] ∧
        s.live = [0xFFFF800000100808, 0xFFFF800000100038] ∧ s.Consistent .x86_64 := by
  have created : slabCacheCreate .x86_64 2000 8 = some ⟨2000, 8, 2, 0⟩ := by decide
  obtain ⟨-, es, s, -, run, ops, -, live⟩ := exists_run_of_trace (ε := Fault) (G := fun _ _ => True)
    (g := live) (v := [0xFFFF800000100808, 0xFFFF800000100038])
    (show (Except.ok ()).toOption.bind (fun _ => (trace (exec .x86_64 ⟨2000, 8, 2, 0⟩) (Sys.Legal .x86_64)
      Sys.start [.alloc 0 0, .advance 0 (some 0xFFFF800000100000), .alloc 0 0, .free 1 1 0xFFFF800000100808,
        .advance 1 none, .advance 0 none, .alloc 1 1, .advance 1 none]).map _) = _ by decide +kernel)
  exact ⟨created, es, s, run, ops, live, (slab_consistent (.inr ⟨3, by decide, rfl⟩) created run).1.1⟩

/-! ### Running out of memory -/

/-- There is no page frame, and no page of the lists of the CPU and of the partial and empty lists
has a free object. -/
def Exhausted (st : State) (cpu : Nat) (frame : Option Nat) : Prop :=
  frame = none ∧ ∀ id ∈ [ListId.cpu cpu, .partials, .empty], ∀ p ∈ st.lists id, ∀ pg,
    st.pages p = some pg → pg.freelist = []

/-- In every state of every run, an `alloc` that returns no object has found no page frame and
nothing in the lists of its CPU and of partial pages. It does not look at the empty list, whose
pages all have free objects. -/
theorem null_alloc_exhausted_iff {size align : Nat} (power : align = 0 ∨ ∃ k < a.wordBits, align = 2 ^ k)
    (created : slabCacheCreate a size align = some g) {es : List (Sys × Op)} {s : Sys}
    (run : Run (Sys.step a g) Sys.start es s) (cpu : Nat) {frame : Option Nat}
    (fresh : ∀ page ∈ frame, Frame a page ∧ s.st.pages page = none)
    (null : (slabCacheAlloc a g s.st cpu frame).toOption.map Prod.fst = some none) :
    Exhausted s.st cpu frame ↔ s.st.lists .empty = [] := by
  have ok := slabCacheCreate_ok power created
  obtain ⟨⟨place, out, h⟩, -⟩ := SysInv.of_run ok run
  rcases h.rep.slabCacheAlloc ok cpu fresh with ⟨-, short, own, partials⟩ | ⟨_, _, _, _, served, -⟩
  · constructor
    · rintro ⟨-, exhausted⟩
      refine eq_nil_iff_forall_not_mem.mpr fun p member => ?_
      obtain ⟨-, pg, page, pageOk⟩ := h.rep.of_mem member
      have count := pageOk.count
      rw [exhausted .empty (by simp) p member pg page, show out p = [] from pageOk.state] at count
      exact absurd pageOk.pos (Nat.not_lt.mpr (le_of_eq count.symm))
    · intro empty
      refine ⟨short, fun id among p member => ?_⟩
      simp only [mem_cons, not_mem_nil, or_false] at among
      rcases among with rfl | rfl | rfl
      · rw [own] at member
        cases member
      · rw [partials] at member
        cases member
      · rw [empty] at member
        cases member
  · rw [served] at null
    cases null

/-- A cache with one object to a page. -/
def oneObject : Geometry := ⟨4000, 8, 1, 0⟩

/-- The only page of the cache is full, and there is no frame for another one. -/
theorem null_alloc_exhausted : ∃ es s, Run (Sys.step .x86_64 oneObject) Sys.start es s ∧
    s.live = [0xFFFF800000100038] ∧ Exhausted s.st 0 none := by
  obtain ⟨es, s, run, -, state⟩ := exists_run_from (ε := Fault) (G := fun _ _ => True)
    (g := fun s : Sys => (s.live, s.st.lists .empty,
      (slabCacheAlloc .x86_64 oneObject s.st 0 none).toOption.map Prod.fst))
    (v := ([0xFFFF800000100038], [], some none)) (exec .x86_64 oneObject) (Sys.Legal .x86_64) Sys.start
    [.alloc 0 0, .advance 0 (some 0xFFFF800000100000)] (by decide +kernel)
  simp only [Prod.mk.injEq] at state
  obtain ⟨live, empty, null⟩ := state
  have created : slabCacheCreate .x86_64 4000 8 = some oneObject := by decide
  exact ⟨es, s, run, live, (null_alloc_exhausted_iff (.inr ⟨3, by decide, rfl⟩) created run 0 (by simp) null).mpr empty⟩

/-- The object is freed again, and its page goes to the empty list. -/
theorem null_alloc_empty_page : ∃ es s, Run (Sys.step .x86_64 oneObject) Sys.start es s ∧
    (slabCacheAlloc .x86_64 oneObject s.st 0 none).toOption.map Prod.fst = some none ∧ ¬Exhausted s.st 0 none := by
  obtain ⟨es, s, run, -, state⟩ := exists_run_from (ε := Fault) (G := fun _ _ => True)
    (g := fun s : Sys => ((slabCacheAlloc .x86_64 oneObject s.st 0 none).toOption.map Prod.fst, s.st.lists .empty,
      (s.st.pages 0xFFFF800000100000).map (·.freelist)))
    (v := (some none, [0xFFFF800000100000], some [0xFFFF800000100038])) (exec .x86_64 oneObject)
    (Sys.Legal .x86_64) Sys.start
    [.alloc 0 0, .advance 0 (some 0xFFFF800000100000), .free 0 0 0xFFFF800000100038,
      .advance 0 none] (by decide +kernel)
  simp only [Prod.mk.injEq] at state
  obtain ⟨null, empty, free⟩ := state
  refine ⟨es, s, run, null, fun exhausted => ?_⟩
  obtain ⟨pg, page, objects⟩ := map_eq_some_iff.mp free
  rw [exhausted.2 .empty (by simp) _ (by rw [empty]; exact mem_cons_self) pg page] at objects
  cases objects

end Jlos.Slab
