import Jlos.Kmem.Release

/-!
# kvfree in every reachable state

Calls of the general allocators, switches of the active heap and the calls of the other clients of
the page frame allocator, as steps of a system that records the pointers handed out and their
origins.
-/
namespace Jlos.Kmem

open Lib List Heap

/-- The allocators, and the pointers the rest of the kernel holds. -/
structure Sys where
  state : State
  live : List (Nat × Origin)

inductive Op
  | kalloc (cpu size : Nat) (grants : Grants)
  | kvalloc (size : Nat) (grants : Grants)
  | kvfree (cpu ptr : Nat)
  /-- `jlos_memory_manager_switch_low`, `jlos_memory_manager_switch_main`, or
  `jlos_memory_manager_destroy` of the active heap -/
  | switch (active : Option Manager)
  /-- A call of another client of the page frame allocator. -/
  | other (call : Pfa.Op)

/-- A request whose size does not wrap around in the heap. -/
def Op.Fits (m : Machine) : Op → Prop
  | .kalloc _ size _ | .kvalloc size _ => Heap.Fits m size
  | .kvfree _ _ | .switch _ | .other _ => True

namespace Sys

variable (m : Machine)

def exec (sys : Sys) : Op → M Sys
  | .kalloc cpu size grants => do
    let (result, s) ← kalloc m sys.state cpu size grants
    pure ⟨s, result.toList ++ sys.live⟩
  | .kvalloc size grants => do
    let (result, s) ← kvalloc m sys.state size grants
    pure ⟨s, result.toList ++ sys.live⟩
  | .kvfree cpu ptr => do
    let s ← kvfree m sys.state cpu ptr
    pure ⟨s, without sys.live ptr⟩
  | .switch active => pure { sys with state := { sys.state with active := active } }
  | .other call => do
    let frames ← onPfa (sys.state.frames.exec call)
    pure { sys with state := sys.state.setFrames frames }

/-- Pointers are given back by those who hold them, and other clients keep to their own frames. -/
def Legal (sys : Sys) : Op → Prop
  | .kalloc cpu _ _ => cpu < Pfa.maxCpus
  | .kvalloc _ _ | .switch _ => True
  | .kvfree cpu ptr => cpu < Pfa.maxCpus ∧ ptr ∈ sys.live.map Prod.fst
  | .other call => sys.state.frames.Legal call ∧ ∀ f, call.Touches sys.state.frames.pfa f →
    (sys.state.frames.pfa.pages f).type ≠ .slabObj ∧ (sys.state.frames.pfa.pages f).type ≠ .kvContig

def step (sys : Sys) (op : Op) (sys' : Sys) : Prop := sys.Legal op ∧ sys.exec m op = .ok sys'

end Sys

/-- The allocators after `jlos_page_frame_allocator_init` and `jlos_memory_manager_init`; `memory`
is what the memory behind the headers of runs holds before. -/
def boot (m : Machine) (b : Pfa.Boot) (memory : Nat → Nat × Nat) : M State := do
  let pfa ← onPfa (Pfa.pageFrameAllocatorInit b)
  let low ← onHeap (Heap.initLow m)
  let main ← onHeap (Heap.initMain m)
  pure
    { frames := Pfa.Sys.start pfa
      heaps := fun
        | .low => ⟨low, []⟩
        | .main => ⟨main, []⟩
      active := some .main
      caches := fun _ => none
      kallocCaches := fun _ => 0
      hdr := memory }

variable {m : Machine} {sys : Sys}

/-- The invariant, for some placement of page frames and slab pages. -/
def Sys.Ok (m : Machine) (sys : Sys) : Prop := ∃ loc place out, Inv m sys.state sys.live loc place out

theorem boot_ok {b : Pfa.Boot} (sane : b.Sane) {memory : Nat → Nat × Nat} {s₀ : State}
    (init : boot m b memory = .ok s₀) (inside : Memory m.arch s₀.frames.pfa) : Sys.Ok m ⟨s₀, []⟩ := by
  obtain ⟨pfa, loc, pfaOk, represents, settled, -⟩ := Pfa.pageFrameAllocatorInit_spec sane
  obtain ⟨low, lowOk, -, lowStart, lowEnds, -⟩ := mmInit_inv (area_low m)
  obtain ⟨main, mainOk, -, mainStart, -, -⟩ := mmInit_inv (area_main m)
  simp only [boot, initLow, initMain, pfaOk, lowOk, mainOk, onPfa_ok, onHeap_ok, ok_bind] at init
  cases init
  refine ⟨loc, fun _ _ => none, fun _ _ => [], inside, Pfa.SysInv.start represents settled, fun w => ?_,
    ⟨lowStart, lowEnds.trans (add_assoc ..)⟩, mainStart, nofun, fun _ there => absurd rfl there,
      fun _ some => absurd rfl some, nofun⟩
  cases w with
  | low => exact Heap.SysInv.start (area_low m) lowOk
  | main => exact Heap.SysInv.start (area_main m) mainOk

/-! ### Steps -/

section steps

variable {s : State} {live : List (Nat × Origin)} {loc : Nat → Pfa.Loc}
  {place : Nat → Nat → Option Slab.ListId} {out : Nat → Nat → List Nat}

theorem Inv.switch (h : Inv m s live loc place out) (active : Option Manager) :
    Inv m { s with active := active } live loc place out :=
  h.rewrite fun _ _ _ _ run => { run with }

theorem Inv.other (h : Inv m s live loc place out) {call : Pfa.Op} (legal : s.frames.Legal call)
    (apart : ∀ f, call.Touches s.frames.pfa f →
      (s.frames.pfa.pages f).type ≠ .slabObj ∧ (s.frames.pfa.pages f).type ≠ .kvContig) :
    ∃ frames loc', s.frames.exec call = .ok frames ∧ Inv m (s.setFrames frames) live loc' place out := by
  obtain ⟨frames, loc', eq, inv, leaves⟩ := h.frames.exec_leaves legal
  refine ⟨frames, loc', eq, h.reframe inv leaves (fun _ => id) (fun c k f cache there held touched => ?_)
    fun ptr f n member i ini touched => ?_⟩
  · exact (apart f touched).1 (h.page_frame cache (h.held_lt held) there).2.1
  · exact (apart i touched).2 ((h.run member).frames i ini).2.2

end steps

/-- A call of a client keeps the invariant, unless it halts the kernel. -/
theorem Sys.Ok.step (h : sys.Ok m) {op : Op} {sys' : Sys} (fits : op.Fits m) (taken : sys.step m op sys') :
    sys'.Ok m := by
  obtain ⟨loc, place, out, inv⟩ := h
  obtain ⟨legal, eq⟩ := taken
  cases op with
  | kalloc cpu size grants =>
    obtain ⟨result, s', loc', place', out', ok, inv'⟩ := inv.kalloc cpu grants fits
    simp only [Sys.exec, ok, ok_bind] at eq
    cases eq
    exact ⟨loc', place', out', inv'⟩
  | kvalloc size grants =>
    obtain ⟨result, s', loc', place', out', ok, inv'⟩ := inv.kvalloc grants fits
    simp only [Sys.exec, ok, ok_bind] at eq
    cases eq
    exact ⟨loc', place', out', inv'⟩
  | kvfree cpu ptr =>
    obtain ⟨⟨ptr, origin⟩, member, rfl⟩ := mem_map.mp legal.2
    by_cases reaches : Reaches m.arch sys.state ptr origin
    · obtain ⟨s', loc', place', out', ok, -, inv'⟩ := inv.kvfree_returns cpu member reaches
      simp only [Sys.exec, ok, ok_bind] at eq
      cases eq
      exact ⟨loc', place', out', inv'⟩
    · rcases inv.kvfree_ignored cpu member reaches with same | halts
      · simp only [Sys.exec, same, ok_bind] at eq
        cases eq
        exact ⟨loc, place, out, inv.drop ptr⟩
      · simp only [Sys.exec, halts] at eq
        cases eq
  | switch active =>
    cases eq
    exact ⟨loc, place, out, inv.switch active⟩
  | other call =>
    obtain ⟨frames, loc', ok, inv'⟩ := inv.other legal.1 legal.2
    simp only [Sys.exec, ok, onPfa_ok, ok_bind] at eq
    cases eq
    exact ⟨loc', place, out, inv'⟩

/-! ### Every run -/

/-- In every state that calls with sizes that fit reach, and for every pointer that is live in it:
`kvfree` returns with the pointer released exactly if a slab object or a run lies in the range that
is taken for the direct map, and a heap pointer outside of it and in the heap that is active. -/
theorem kvfree_releases_iff {b : Pfa.Boot} (sane : b.Sane) {memory : Nat → Nat × Nat} {s₀ : State}
    (init : boot m b memory = .ok s₀) (inside : Memory m.arch s₀.frames.pfa) {es : List (Sys × Op)}
    (run : Run (Sys.step m) ⟨s₀, []⟩ es sys) (fits : ∀ e ∈ es, e.2.Fits m) {ptr : Nat} {origin : Origin}
    (held : (ptr, origin) ∈ sys.live) (cpu : Nat) :
    (∃ s', kvfree m sys.state cpu ptr = .ok s' ∧ Released m.arch s' ptr origin) ↔
      Reaches m.arch sys.state ptr origin := by
  obtain ⟨⟨loc, place, out, inv⟩, -⟩ := Run.invariant_of_guard (G := fun _ op => op.Fits m) (boot_ok sane init inside)
    (fun _ _ _ ok opFits taken => ok.step opFits taken) run fits
  exact inv.kvfree_iff cpu held

/-- The heaps do not grow. -/
def noGrants : Grants := fun _ _ => false

/-- Memory that holds no header of a run. -/
def blank : Nat → Nat × Nat := fun _ => (0, 0)

/-- What a page of a cache says about an object: whether it is on its free list. -/
def State.isFree (a : Arch) (s : State) (c ptr : Nat) : Option Bool :=
  ((s.caches c).bind fun k => k.st.pages (Slab.pageOf a ptr)).map fun pg => ptr ∈ pg.freelist

theorem not_released_of_isFree {a : Arch} {s : State} {c ptr : Nat} (out : s.isFree a c ptr = some false) :
    ¬Released a s ptr (.slab c) := by
  intro released
  simp only [State.isFree, Option.map_eq_some_iff, Option.bind_eq_some_iff] at out
  obtain ⟨pg, ⟨k, cache, page⟩, notFree⟩ := out
  exact of_decide_eq_false notFree (released k cache pg page)

/-- On x86_64 `kvfree` ignores what `kalloc` returned for 16 bytes. -/
theorem kvfree_ignores_slab : ∃ s₀ sys, boot Heap.machine64 Pfa.smallBoot blank = .ok s₀ ∧
      Run (Sys.step Heap.machine64) ⟨s₀, []⟩ [(⟨s₀, []⟩, .kalloc 0 16 noGrants)] sys ∧
      sys.live = [(0xFFFF800000100FE8, .slab 0xFFFFFFFF00000030)] ∧
      kvfree Heap.machine64 sys.state 0 0xFFFF800000100FE8 = .ok sys.state ∧
      ¬Released .x86_64 sys.state 0xFFFF800000100FE8 (.slab 0xFFFFFFFF00000030) := by
  have values : ((boot machine64 Pfa.smallBoot blank).bind fun s =>
      (Sys.mk s []).exec machine64 (.kalloc 0 16 noGrants)).map (fun sys =>
        (sys.live, sys.state.isFree .x86_64 0xFFFFFFFF00000030 0xFFFF800000100FE8)) =
      .ok ([(0xFFFF800000100FE8, .slab 0xFFFFFFFF00000030)], some false) := by decide +kernel
  obtain ⟨sys, ran, value⟩ := exists_ok_of_map values
  obtain ⟨live, out⟩ := Prod.mk.inj value
  cases init : boot machine64 Pfa.smallBoot blank with
  | error fault => simp [init, Except.bind] at ran
  | ok s₀ =>
    rw [init] at ran
    have run : Run (Sys.step machine64) ⟨s₀, []⟩ ([] ++ [(⟨s₀, []⟩, .kalloc 0 16 noGrants)]) sys :=
      Run.snoc Run.start ⟨(by decide : 0 < Pfa.maxCpus), ran⟩
    exact ⟨s₀, sys, rfl, run, live, kvfree_between 0 (by decide) (by decide) (by decide), not_released_of_isFree out⟩

def machine32 : Machine := ⟨.i386, 31⟩

/-- On i386 the object goes back to its cache. -/
theorem kvfree_releases_iff_i386 : ∃ s₀ sys s', boot machine32 Pfa.smallBoot blank = .ok s₀ ∧
      Run (Sys.step machine32) ⟨s₀, []⟩ [(⟨s₀, []⟩, .kalloc 0 16 noGrants)] sys ∧
      sys.live = [(0xC0100FF0, .slab 0xF8000020)] ∧ kvfree machine32 sys.state 0 0xC0100FF0 = .ok s' ∧
      Released .i386 s' 0xC0100FF0 (.slab 0xF8000020) := by
  have values : ((boot machine32 Pfa.smallBoot blank).bind fun s =>
      ((Sys.mk s []).exec machine32 (.kalloc 0 16 noGrants)).map fun sys => (s, sys)).map (fun (s, sys) =>
        (s.frames.pfa.startAddr, s.frames.pfa.totalFrames, sys.live)) =
      .ok (0x100000, 8, [(0xC0100FF0, .slab 0xF8000020)]) := by decide +kernel
  obtain ⟨⟨s₀, sys⟩, ran, value⟩ := exists_ok_of_map values
  simp only [Prod.mk.injEq] at value
  obtain ⟨start, total, live⟩ := value
  cases init : boot machine32 Pfa.smallBoot blank with
  | error fault => simp [init, Except.bind] at ran
  | ok s =>
    cases took : (Sys.mk s []).exec machine32 (.kalloc 0 16 noGrants) with
    | error fault => simp [init, took, Except.bind, Except.map] at ran
    | ok sys' =>
      simp only [init, took, Except.bind, Except.map, Except.ok.injEq, Prod.mk.injEq] at ran
      obtain ⟨rfl, rfl⟩ := ran
      have run : Run (Sys.step machine32) ⟨s, []⟩ ([] ++ [(⟨s, []⟩, .kalloc 0 16 noGrants)]) sys' :=
        Run.snoc Run.start ⟨(by decide : 0 < Pfa.maxCpus), took⟩
      have inside : Memory machine32.arch s.frames.pfa :=
        ⟨by rw [start, total]; decide, by rw [start]; decide, by rw [start]; decide⟩
      have held : (0xC0100FF0, Origin.slab 0xF8000020) ∈ sys'.live := by simp [live]
      obtain ⟨s', eq, released⟩ := (kvfree_releases_iff Pfa.smallBoot_sane init inside run
        (by simp only [nil_append, mem_singleton, forall_eq, Op.Fits]; decide) held 0).mpr
        (by decide : DirectMapped .i386 0xC0100FF0)
      exact ⟨s, sys', s', rfl, run, live, eq, released⟩

end Jlos.Kmem
