import Jlos.Lib.Run
import Jlos.Pfa.Init

/-!
# The allocator and its clients

The calls of the page frame allocator as steps of a system that records what its clients hold: how
many references to each frame, and in which run of frames each was handed out.
-/
namespace Jlos.Pfa

open Lib Function List BitVec

/-- The allocator and the references its clients hold. -/
structure Sys where
  pfa : State
  refs : Nat → Nat
  /-- First frame and length of the run a frame was handed out in. -/
  run : Nat → Nat × Nat

inductive Op
  | malloc (cpu : Nat)
  | free (cpu phys : Nat)
  | allocN (numFrames : Nat)
  | freeN (physStart numFrames : Nat)
  | refcountInc (phys : Nat)
  | refcountDec (cpu phys : Nat)

namespace Sys

def start (s : State) : Sys := ⟨s, fun _ => 0, fun _ => (0, 0)⟩

/-- The clients receive one reference to each frame of a run, if the call returned one. -/
def handOut (sys : Sys) (s : State) (result : Option Nat) (n : Nat) : Sys :=
  match result with
  | none => { sys with pfa := s }
  | some phys =>
    let f := pfaPhysToFrame s phys
    { pfa := s
      refs := fun i => if InRange f n i then sys.refs i + 1 else sys.refs i
      run := fun i => if InRange f n i then (f, n) else sys.run i }

def giveUp (sys : Sys) (s : State) (f n : Nat) : Sys :=
  { sys with pfa := s, refs := fun i => if InRange f n i then sys.refs i - 1 else sys.refs i }

def exec (sys : Sys) : Op → M Sys
  | .malloc cpu => do
    let (result, s) ← pageFrameMalloc sys.pfa cpu
    pure (sys.handOut s result 1)
  | .free cpu phys => do
    let s ← pageFrameFree sys.pfa cpu phys
    pure (sys.giveUp s (pfaPhysToFrame sys.pfa phys) 1)
  | .allocN numFrames => do
    let (result, s) ← pageFrameAllocN sys.pfa numFrames
    pure (sys.handOut s result numFrames)
  | .freeN physStart numFrames => do
    let s ← pageFrameFreeN sys.pfa physStart numFrames
    pure (sys.giveUp s (pfaPhysToFrame sys.pfa physStart) numFrames)
  | .refcountInc phys => do
    let s ← pageFrameRefcountInc sys.pfa phys
    let f := pfaPhysToFrame sys.pfa phys
    pure { sys with pfa := s, refs := update sys.refs f (sys.refs f + 1) }
  | .refcountDec cpu phys => do
    let s ← pageFrameRefcountDec sys.pfa cpu phys
    pure (sys.giveUp s (pfaPhysToFrame sys.pfa phys) 1)

/-- A call a client may make: it passes addresses of frames it holds, `free_n` stays inside
one run that was handed out, and no reference count passes its maximum. -/
def Legal (sys : Sys) : Op → Prop
  | .malloc cpu => cpu < maxCpus
  | .free cpu phys | .refcountDec cpu phys =>
    cpu < maxCpus ∧ ∃ f, phys = framePhys sys.pfa f ∧ 0 < sys.refs f
  | .allocN _ => True
  | .freeN physStart numFrames => ∃ f, physStart = framePhys sys.pfa f ∧ f < sys.pfa.totalFrames ∧
    ∀ i, InRange f numFrames i → 0 < sys.refs i ∧ sys.run i = sys.run f
  | .refcountInc phys =>
    ∃ f, phys = framePhys sys.pfa f ∧ 0 < sys.refs f ∧ sys.refs f < refcountMax

def step (sys : Sys) (op : Op) (sys' : Sys) : Prop := sys.Legal op ∧ sys.exec op = .ok sys'

end Sys

/-! ### The invariant of the system -/

structure SysInv (sys : Sys) (loc : Nat → Loc) : Prop where
  represents : Represents sys.pfa loc
  settled : Settled sys.pfa loc
  held : ∀ i, 0 < sys.refs i →
    i < sys.pfa.totalFrames ∧ loc i = .used ∧ (sys.pfa.pages i).refcount = sys.refs i
  inside : ∀ i, 0 < sys.refs i →
    InRange (sys.run i).1 (sys.run i).2 i ∧ (sys.run i).2 ≤ freeNMax
  head : ∀ i, 0 < sys.refs i → (sys.pfa.pages i).order = orderInvalid ∨
    i = (sys.run i).1 ∧ (sys.run i).2 ≤ 2 ^ (sys.pfa.pages i).order

/-- What the invariant says of a frame that is held. -/
def Sys.HeldOk (sys : Sys) (loc : Nat → Loc) (i : Nat) : Prop :=
  (i < sys.pfa.totalFrames ∧ loc i = .used ∧ (sys.pfa.pages i).refcount = sys.refs i) ∧
  (InRange (sys.run i).1 (sys.run i).2 i ∧ (sys.run i).2 ≤ freeNMax) ∧
  ((sys.pfa.pages i).order = orderInvalid ∨ i = (sys.run i).1 ∧ (sys.run i).2 ≤ 2 ^ (sys.pfa.pages i).order)

variable {sys : Sys} {loc loc' : Nat → Loc} {s s' : State} {i : Nat} {f n headOrder : Nat} {R : Nat → Prop}

theorem HandsOut.frame (out : HandsOut s s' loc loc' f n headOrder) (pos : 0 < n) :
    pfaPhysToFrame s' (framePhys s f) = f := by
  have inside := out.inside
  have same : framePhys s f = framePhys s' f := by simp [framePhys, out.start]
  rw [same, pfaPhysToFrame_framePhys out.represents (by rw [out.total]; omega)]

theorem Settled.keeps (settled : Settled s loc) (keeps : Keeps R s s' loc loc')
    (moved : ∀ i, R i → loc' i = .used ∨ (loc' i).listed = true) : Settled s' loc' := by
  classical
  intro i lt
  by_cases ini : R i
  · exact moved i ini
  · rw [keeps.total] at lt
    rcases settled i lt with used | listed
    · exact .inl ((keeps.unlisted i ini (by rw [used]; rfl)).1.trans used)
    · exact .inr (keeps.listed i ini listed)

section

variable (h : SysInv sys loc)
include h

theorem SysInv.outside (keeps : Keeps R sys.pfa s' loc loc') (out : ¬R i) (pos : 0 < sys.refs i) :
    i < s'.totalFrames ∧ loc' i = .used ∧ s'.pages i = sys.pfa.pages i := by
  obtain ⟨lt, used, -⟩ := h.held i pos
  obtain ⟨same, page⟩ := keeps.unlisted i out (by rw [used]; rfl)
  exact ⟨by rwa [keeps.total], same.trans used, page⟩

theorem SysInv.unheld (listed : (loc i).listed = true) : sys.refs i = 0 := by
  by_contra held
  rw [(h.held i (pos_of_ne_zero held)).2.1] at listed
  cases listed

/-- The frames of a set change hands; for the others, location, descriptor and references stay. -/
theorem SysInv.move {sys' : Sys} (represents : Represents sys'.pfa loc') (keeps : Keeps R sys.pfa sys'.pfa loc loc')
    (same : ∀ i, ¬R i → sys'.refs i = sys.refs i ∧ sys'.run i = sys.run i)
    (settled : ∀ i, R i → loc' i = .used ∨ (loc' i).listed = true)
    (moved : ∀ i, R i → 0 < sys'.refs i → sys'.HeldOk loc' i) : SysInv sys' loc' := by
  classical
  have held : ∀ i, 0 < sys'.refs i → sys'.HeldOk loc' i := by
    intro i pos
    by_cases ini : R i
    · exact moved i ini pos
    · obtain ⟨refs, run⟩ := same i ini
      rw [refs] at pos
      obtain ⟨lt, used, page⟩ := h.outside keeps ini pos
      rw [Sys.HeldOk, refs, run, page]
      exact ⟨⟨lt, used, (h.held i pos).2.2⟩, h.inside i pos, h.head i pos⟩
  exact ⟨represents, h.settled.keeps keeps settled, fun i pos => (held i pos).1, fun i pos => (held i pos).2.1,
    fun i pos => (held i pos).2.2⟩

theorem SysInv.handOut_none (n : Nat)
    (p : Preserves noFrame sys.pfa s' loc loc') : SysInv (sys.handOut s' none n) loc' :=
  h.move p.represents p.toKeeps (fun _ _ => ⟨rfl, rfl⟩) (fun _ none => none.elim) fun _ none => none.elim

theorem SysInv.handOut_some (out : HandsOut sys.pfa s' loc loc' f n headOrder) (small : n ≤ freeNMax) (pos : 0 < n)
    (order : headOrder = orderInvalid ∨ n ≤ 2 ^ headOrder) :
    SysInv (sys.handOut s' (some (framePhys sys.pfa f)) n) loc' := by
  simp only [Sys.handOut, out.frame pos]
  refine h.move (R := InRange f n) out.represents out.toKeeps (fun i away => ⟨if_neg away, if_neg away⟩)
    (fun i ini => .inl (out.used i ini)) fun i ini _ => ?_
  obtain ⟨count, -, orders⟩ := out.page i ini
  simp only [Sys.HeldOk, if_pos ini, h.unheld (out.free i ini), count, orders]
  refine ⟨⟨?_, out.used i ini, trivial⟩, ⟨ini, small⟩, ?_⟩
  · have inside := out.inside
    have below := ini.2
    rw [out.total]
    omega
  · by_cases first : i = f
    · rw [if_pos first]
      exact order.imp id fun long => ⟨first, long⟩
    · exact .inl (if_neg first)

theorem SysInv.giveUp {f n : Nat}
    (p : Preserves (InRange f n) sys.pfa s' loc loc') (held : ∀ i, InRange f n i → 0 < sys.refs i)
    (gone : ∀ i, InRange f n i → if (sys.pfa.pages i).refcount = 1 then (loc' i).listed = true
      else loc' i = .used ∧ s'.pages i = (sys.pfa.pages i).dropped) : SysInv (sys.giveUp s' f n) loc' := by
  refine h.move p.represents p.toKeeps (fun i away => ⟨if_neg away, rfl⟩) (fun i ini => ?_) fun i ini pos => ?_
  · have state := gone i ini
    split at state
    · exact .inr state
    · exact .inl state.1
  · -- a frame that is still held had another reference
    simp only [Sys.HeldOk, Sys.giveUp, if_pos ini] at pos ⊢
    obtain ⟨lt, -, count⟩ := h.held i (held i ini)
    have state := gone i ini
    rw [if_neg (by omega)] at state
    obtain ⟨used, page⟩ := state
    rw [page]
    exact ⟨⟨by rwa [p.total], used, by rw [Page.dropped, count]⟩, h.inside i (held i ini), h.head i (held i ini)⟩

end

/-- How far a call puts the counter ahead of the free area: by the tail a served `alloc_n`
gives back. -/
def Sys.overcount (sys : Sys) : Op → Nat
  | .allocN n => if Served sys.pfa n then 2 ^ framesToOrder n - n else 0
  | _ => 0

/-- What one legal call does to the system. -/
structure Sys.Took (sys : Sys) (op : Op) (sys' : Sys) : Prop where
  ok : sys.exec op = .ok sys'
  inv : ∃ loc', SysInv sys' loc'
  drift : sys'.pfa.drift = sys.pfa.drift + BitVec.ofNat 32 (sys.overcount op)

section

variable (h : SysInv sys loc)
include h

theorem SysInv.exec_malloc (cpu : Nat) : ∃ sys', sys.Took (.malloc cpu) sys' := by
  obtain ⟨result, s', loc', run, drift, outcome⟩ := pageFrameMalloc_spec cpu h.represents
  have ok : sys.exec (.malloc cpu) = .ok (sys.handOut s' result 1) := by
    simp [Sys.exec, run]
  rcases outcome with ⟨rfl, p⟩ | ⟨f, rfl, out⟩
  · exact ⟨_, ok, ⟨loc', h.handOut_none 1 p⟩, by simpa [Sys.overcount, Sys.handOut] using drift⟩
  · refine ⟨_, ok, ⟨loc', h.handOut_some out (by decide) one_pos (.inl rfl)⟩, ?_⟩
    simpa [Sys.overcount, Sys.handOut] using drift

theorem SysInv.exec_allocN (n : Nat) : ∃ sys', sys.Took (.allocN n) sys' := by
  by_cases served : Served sys.pfa n
  · obtain ⟨f, s', loc', run, out, room, order, drift⟩ := pageFrameAllocN_served h.represents served
    have small : n ≤ freeNMax := room.trans (Nat.pow_le_pow_right (n := 2) (by omega) order)
    refine ⟨sys.handOut s' (some (framePhys sys.pfa f)) n, ?_,
      ⟨loc', h.handOut_some out small (pos_of_ne_zero served.1) (.inr room)⟩, ?_⟩
    · simp [Sys.exec, run]
    · simpa [Sys.overcount, served, Sys.handOut] using drift
  · refine ⟨sys.handOut sys.pfa none n, ?_, ⟨loc, h.handOut_none n (Preserves.refl _ h.represents)⟩, ?_⟩
    · simp [Sys.exec, pageFrameAllocN_refused h.represents served]
    · simp [Sys.overcount, served, Sys.handOut]

theorem SysInv.refcountDec (cpu : Nat) {f : Nat} (held : 0 < sys.refs f) :
    ∃ s' loc', pageFrameRefcountDec sys.pfa cpu (framePhys sys.pfa f) = .ok s' ∧
      pfaPhysToFrame sys.pfa (framePhys sys.pfa f) = f ∧
      SysInv (sys.giveUp s' f 1) loc' ∧ s'.drift = sys.pfa.drift := by
  obtain ⟨lt, used, -⟩ := h.held f held
  have frame := pfaPhysToFrame_framePhys h.represents lt
  obtain ⟨s', loc', run, p, gone⟩ := pageFrameRefcountDec_spec cpu h.represents frame lt used
  refine ⟨s', loc', run, frame, h.giveUp (p.mono fun i eq => (inRange_one f i).mpr eq) ?_ ?_, p.drift⟩
  · intro i ini
    rwa [(inRange_one f i).mp ini]
  · intro i ini
    rw [(inRange_one f i).mp ini]
    exact gone

theorem SysInv.freeN_range {f n : Nat} (held : ∀ i, InRange f n i → 0 < sys.refs i ∧ sys.run i = sys.run f) :
    ∃ s' loc', pageFrameFreeN sys.pfa (framePhys sys.pfa f) n = .ok s' ∧ Preserves (InRange f n) sys.pfa s' loc loc' ∧
      ∀ i, InRange f n i → if (sys.pfa.pages i).refcount = 1 then (loc' i).listed = true
        else loc' i = .used ∧ s'.pages i = (sys.pfa.pages i).dropped := by
  have whole : 0 < n → n ≤ (sys.run f).2 - (f - (sys.run f).1) ∧ (sys.run f).1 ≤ f := by
    intro pos
    -- first and last frame of the range lie in the run of the first one
    have first := (h.inside f (held f ⟨by omega, by omega⟩).1).1
    have last := h.inside (f + n - 1) (held _ ⟨by omega, by omega⟩).1
    rw [(held (f + n - 1) ⟨by omega, by omega⟩).2] at last
    have := last.1.2
    have := first.1
    omega
  have small : n ≤ freeNMax := by
    by_cases zero : n = 0
    · omega
    · have bound := (h.inside f (held f ⟨by omega, by omega⟩).1).2
      omega
  refine pageFrameFreeN_spec h.represents
    (fun i ini => ⟨(h.held i (held i ini).1).1, (h.held i (held i ini).1).2.1⟩) small fun pos => ?_
  rcases h.head f (held f ⟨by omega, by omega⟩).1 with invalid | ⟨first, long⟩
  · exact .inl invalid
  · exact .inr (by omega)

theorem SysInv.exec_freeN {physStart n : Nat}
    (legal : sys.Legal (.freeN physStart n)) : ∃ sys', sys.Took (.freeN physStart n) sys' := by
  obtain ⟨f, rfl, lt, held⟩ := legal
  have frame := pfaPhysToFrame_framePhys h.represents lt
  obtain ⟨s', loc', run, p, gone⟩ := h.freeN_range held
  refine ⟨sys.giveUp s' f n, ?_, ⟨loc', h.giveUp p (fun i ini => (held i ini).1) gone⟩, ?_⟩
  · simp [Sys.exec, run, frame]
  · simpa [Sys.overcount, Sys.giveUp] using p.drift

theorem SysInv.exec_refcountInc {phys : Nat}
    (legal : sys.Legal (.refcountInc phys)) : ∃ sys', sys.Took (.refcountInc phys) sys' := by
  obtain ⟨f, rfl, held, below⟩ := legal
  obtain ⟨lt, used, count⟩ := h.held f held
  have frame := pfaPhysToFrame_framePhys h.represents lt
  obtain ⟨s', run, p, page⟩ := pageFrameRefcountInc_spec h.represents frame lt used (by rwa [count])
  refine ⟨{ sys with pfa := s', refs := update sys.refs f (sys.refs f + 1) }, ?_,
    ⟨loc, h.move p.represents p.toKeeps (fun i ne => ⟨update_of_ne ne .., rfl⟩)
      (fun i eq => .inl (eq ▸ used)) ?_⟩, ?_⟩
  · simp [Sys.exec, run, frame]
  · rintro i rfl -
    simp only [Sys.HeldOk, page, count, update_self]
    exact ⟨⟨p.total ▸ lt, used, trivial⟩, h.inside i held, h.head i held⟩
  · simpa [Sys.overcount] using p.drift

/-- No legal call halts; each keeps the invariant and moves the counter as far as it
should, but for the tail of a trimmed block. -/
theorem SysInv.exec {op : Op} (legal : sys.Legal op) : ∃ sys', sys.Took op sys' := by
  cases op with
  | malloc cpu => exact h.exec_malloc cpu
  | allocN n => exact h.exec_allocN n
  | freeN physStart n => exact h.exec_freeN legal
  | refcountInc phys => exact h.exec_refcountInc legal
  | free cpu phys | refcountDec cpu phys =>
    obtain ⟨-, f, rfl, held⟩ := legal
    obtain ⟨s', loc', run, frame, inv, drift⟩ := h.refcountDec cpu held
    refine ⟨sys.giveUp s' f 1, ?_, ⟨loc', inv⟩, by simpa [Sys.overcount, Sys.giveUp] using drift⟩
    simp [Sys.exec, pageFrameFree, run, frame]

end

/-! ### Every run -/

theorem SysInv.start (h : Represents s loc) (settled : Settled s loc) : SysInv (Sys.start s) loc :=
  ⟨h, settled, fun _ pos => absurd pos (lt_irrefl 0), fun _ pos => absurd pos (lt_irrefl 0),
    fun _ pos => absurd pos (lt_irrefl 0)⟩

theorem SysInv.step (h : ∃ loc, SysInv sys loc) {op : Op} {sys' : Sys} (taken : sys.step op sys') :
    ∃ loc', SysInv sys' loc' := by
  obtain ⟨loc, inv⟩ := h
  obtain ⟨sys₁, took⟩ := inv.exec taken.1
  have same := took.ok.symm.trans taken.2
  cases same
  exact took.inv

theorem SysInv.run {b : Boot} (sane : b.Sane) {s₀ : State} (init : pageFrameAllocatorInit b = .ok s₀)
    {es : List (Sys × Op)} (run : Run Sys.step (Sys.start s₀) es sys) : ∃ loc, SysInv sys loc := by
  obtain ⟨s, loc, ok, h, settled, -⟩ := pageFrameAllocatorInit_spec sane
  have same := ok.symm.trans init
  cases same
  exact (Run.invariant (I := fun sys => ∃ loc, SysInv sys loc) ⟨loc, SysInv.start h settled⟩
    (fun _ _ _ holds taken => SysInv.step holds taken) run).1

/-! ### The representation invariant -/

def InFreeArea (s : State) (i : Nat) : Prop := ∃ f o, f ∈ s.freeArea o ∧ InBlock f o i

def InPercpu (s : State) (i : Nat) : Prop := ∃ cpu, i ∈ (s.percpu cpu).freeList

/-- The lists, the descriptors and the bitmap agree, in terms of the allocator's own
variables. -/
structure WellFormed (s : State) : Prop where
  one_place : ∀ i, i < s.totalFrames →
    (InFreeArea s i ∧ ¬InPercpu s i ∧ (s.pages i).occupied = false) ∨
    (¬InFreeArea s i ∧ InPercpu s i ∧ (s.pages i).occupied = false) ∨
    (¬InFreeArea s i ∧ ¬InPercpu s i ∧ (s.pages i).occupied = true)
  order_le : ∀ f o, f ∈ s.freeArea o → o ≤ maxOrder
  aligned : ∀ f o, f ∈ s.freeArea o → 2 ^ o ∣ f
  inside : ∀ f o, f ∈ s.freeArea o → f + 2 ^ o ≤ s.totalFrames
  disjoint : ∀ f o f' o' i, f ∈ s.freeArea o → f' ∈ s.freeArea o' → InBlock f o i → InBlock f' o' i →
    f' = f ∧ o' = o
  linked_once : ∀ o, (s.freeArea o).Nodup
  head_order : ∀ f o, f ∈ s.freeArea o → (s.pages f).order = o
  interior_order : ∀ f o i, f ∈ s.freeArea o → InBlock f o i → i ≠ f → (s.pages i).order = orderInvalid
  one_cpu : ∀ i c c', i ∈ (s.percpu c).freeList → i ∈ (s.percpu c').freeList → c = c'
  percpu_inside : ∀ i c, i ∈ (s.percpu c).freeList → i < s.totalFrames
  percpu_once : ∀ c, (s.percpu c).freeList.Nodup
  percpu_count : ∀ c, (s.percpu c).count = (s.percpu c).freeList.length
  bitmap : ∀ o, s.freeOrderBitmap.getLsbD o = true ↔ s.freeArea o ≠ []

theorem Represents.inFreeArea_iff (h : Represents s loc) (lt : i < s.totalFrames) :
    InFreeArea s i ↔ ∃ f o, loc i = .block f o := by
  constructor
  · rintro ⟨f, o, member, ini⟩
    exact ⟨f, o, h.loc_of_mem member ini⟩
  · rintro ⟨f, o, hl⟩
    obtain ⟨member, ini⟩ := h.mem_of_loc lt hl
    exact ⟨f, o, member, ini⟩

theorem Represents.inPercpu_iff (h : Represents s loc) (lt : i < s.totalFrames) :
    InPercpu s i ↔ ∃ c, loc i = .cached c := by
  simp [InPercpu, h.mem_percpu, lt]

theorem Represents.wellFormed (h : Represents s loc) (settled : Settled s loc) : WellFormed s := by
  refine ⟨fun i lt => ?_, fun _ _ => h.order_le, fun _ _ => h.aligned, fun _ _ => h.inside,
    fun f o f' o' i member other => h.block_unique member other, h.area_nodup,
    fun f o member => (h.head_page member).2.2.2, fun f o i member ini ne => ?_, fun i c c' here there => ?_,
    fun i c here => ((h.mem_percpu c i).mp here).1, h.percpu_nodup, h.percpu_count, h.bitmap⟩
  · have ok := h.page i lt
    rw [h.inFreeArea_iff lt, h.inPercpu_iff lt]
    cases hl : loc i with
    | block f o =>
      rw [hl] at ok
      exact .inl ⟨⟨f, o, rfl⟩, by simp, ok.1⟩
    | cached c =>
      rw [hl] at ok
      exact .inr (.inl ⟨by simp, ⟨c, rfl⟩, ok.1⟩)
    | used =>
      rw [hl] at ok
      exact .inr (.inr ⟨by simp, by simp, ok.1⟩)
    | dropped | detached =>
      have place := settled i lt
      rw [hl] at place
      rcases place with used | listed
      · cases used
      · cases listed
  · have bound := h.inside member
    have ok := h.page i (lt_of_lt_of_le ini.2 bound)
    rw [h.loc_of_mem member ini] at ok
    simpa [ne] using ok.2.2.2
  · have eq := ((h.mem_percpu c i).mp here).2.symm.trans ((h.mem_percpu c' i).mp there).2
    exact Loc.cached.inj eq

/-- `phys` starts a run of `n` frames of the allocator that no client holds and that are
not reserved. -/
def Sys.Fresh (sys : Sys) (phys n : Nat) : Prop :=
  ∃ f, phys = framePhys sys.pfa f ∧ f + n ≤ sys.pfa.totalFrames ∧
    ∀ i, InRange f n i → sys.refs i = 0 ∧ (sys.pfa.pages i).occupied = false

theorem SysInv.fresh (h : SysInv sys loc)
    (out : HandsOut sys.pfa s' loc loc' f n headOrder) : sys.Fresh (framePhys sys.pfa f) n := by
  refine ⟨f, rfl, out.inside, fun i ini => ?_⟩
  have lt : i < sys.pfa.totalFrames := lt_of_lt_of_le ini.2 out.inside
  obtain ⟨_, vacant⟩ := h.represents.vacant_of_listed lt (out.free i ini)
  exact ⟨h.unheld (out.free i ini), vacant.1⟩

/-- For every memory size and reserved map: initialisation does not halt, and in every
state reached by legal calls the representation invariant holds, no legal call halts, and
what `malloc` and `alloc_n` return is held by nobody. -/
theorem buddy_representation {b : Boot} (sane : b.Sane) : ∃ s₀, pageFrameAllocatorInit b = .ok s₀ ∧
      ∀ es sys, Run Sys.step (Sys.start s₀) es sys → WellFormed sys.pfa ∧
        (∀ op, sys.Legal op → ∃ sys', sys.exec op = .ok sys') ∧
        (∀ cpu phys s', pageFrameMalloc sys.pfa cpu = .ok (some phys, s') → sys.Fresh phys 1) ∧
        (∀ n phys s', pageFrameAllocN sys.pfa n = .ok (some phys, s') → sys.Fresh phys n) := by
  obtain ⟨s₀, -, init, -⟩ := pageFrameAllocatorInit_spec sane
  refine ⟨s₀, init, fun es sys run => ?_⟩
  obtain ⟨loc, inv⟩ := SysInv.run sane init run
  refine ⟨inv.represents.wellFormed inv.settled, fun op legal => ?_, fun cpu phys s' ok => ?_, fun n phys s' ok => ?_⟩
  · obtain ⟨sys', took⟩ := inv.exec legal
    exact ⟨sys', took.ok⟩
  · obtain ⟨result, s₁, loc₁, ran, -, outcome⟩ := pageFrameMalloc_spec cpu inv.represents
    have same := ran.symm.trans ok
    rcases outcome with ⟨rfl, -⟩ | ⟨f, rfl, out⟩
    · cases same
    · cases same
      exact inv.fresh out
  · by_cases served : Served sys.pfa n
    · obtain ⟨f, s₁, loc₁, ran, out, -⟩ := pageFrameAllocN_served inv.represents served
      have same := ran.symm.trans ok
      cases same
      exact inv.fresh out
    · have same := (pageFrameAllocN_refused inv.represents served).symm.trans ok
      cases same

/-- Eight frames of memory, the first two of them the kernel image with the boot table. -/
def smallBoot : Boot where
  wordBits := 64
  physStart := 0x100000
  physEnd := 0x108000
  kernelEndPhys := 0x102000
  bootEndPhys := 0x101000
  bootAllocEndPhys := 0x102000
  mem := []
  bootTable := some 0x100000
  cpu := 0
  stale _ := ⟨true, .filePage, 3, 7, 9, 0⟩

theorem smallBoot_sane : smallBoot.Sane :=
  ⟨by decide, by decide, by decide, fun phys eq => by cases eq; decide, by decide⟩

theorem buddy_representation_small : smallBoot.Sane ∧ ∃ s₀, pageFrameAllocatorInit smallBoot = .ok s₀ ∧
      ∀ es sys, Run Sys.step (Sys.start s₀) es sys → WellFormed sys.pfa ∧
        (∀ op, sys.Legal op → ∃ sys', sys.exec op = .ok sys') ∧
        (∀ cpu phys s', pageFrameMalloc sys.pfa cpu = .ok (some phys, s') → sys.Fresh phys 1) ∧
        (∀ n phys s', pageFrameAllocN sys.pfa n = .ok (some phys, s') → sys.Fresh phys n) :=
  ⟨smallBoot_sane, buddy_representation smallBoot_sane⟩

/-! ### The counter -/

/-- `s_free_frames` is the number of frames in the blocks of the free area. -/
def CounterRight (s : State) : Prop := s.freeFrames.toNat = s.freeTotal

/-- The blocks of the free area are disjoint, so they hold no more frames than there are. -/
theorem Represents.freeTotal_le (h : Represents s loc) : s.freeTotal ≤ s.totalFrames := by
  have block_iff : ∀ f o i, i ∈ Finset.Ico f (f + 2 ^ o) ↔ InBlock f o i := by
    intro f o i
    rw [Finset.mem_Ico, InBlock]
  let covered (o : Nat) : Finset Nat := (s.freeArea o).toFinset.biUnion fun f => Finset.Ico f (f + 2 ^ o)
  have covered_iff : ∀ o i, i ∈ covered o ↔ ∃ f ∈ s.freeArea o, InBlock f o i := by
    intro o i
    simp [covered, block_iff]
  have size : ∀ o, (covered o).card = (s.freeArea o).length * orderToFrames o := by
    intro o
    have apart : Set.PairwiseDisjoint (s.freeArea o).toFinset fun f => Finset.Ico f (f + 2 ^ o) := by
      intro f member f' other ne
      refine Finset.disjoint_left.mpr fun i ini ini' => ne ?_
      exact (h.block_unique (mem_toFinset.mp other) (mem_toFinset.mp member)
        ((block_iff f' o i).mp ini') ((block_iff f o i).mp ini)).1
    rw [Finset.card_biUnion apart]
    simp [toFinset_card_of_nodup (h.area_nodup o), orderToFrames]
  have orders : Set.PairwiseDisjoint (Finset.range (maxOrder + 1)) covered := by
    intro o _ o' _ ne
    refine Finset.disjoint_left.mpr fun i ini ini' => ne ?_
    obtain ⟨f, member, inf⟩ := (covered_iff o i).mp ini
    obtain ⟨f', member', inf'⟩ := (covered_iff o' i).mp ini'
    exact (h.block_unique member' member inf' inf).2
  have whole : (Finset.range (maxOrder + 1)).biUnion covered ⊆ Finset.range s.totalFrames := by
    intro i ini
    obtain ⟨o, -, inside⟩ := Finset.mem_biUnion.mp ini
    obtain ⟨f, member, inf⟩ := (covered_iff o i).mp inside
    exact Finset.mem_range.mpr (lt_of_lt_of_le inf.2 (h.inside member))
  calc s.freeTotal = ((Finset.range (maxOrder + 1)).biUnion covered).card := by
        rw [Finset.card_biUnion orders]
        exact Finset.sum_congr rfl fun o _ => (size o).symm
    _ ≤ (Finset.range s.totalFrames).card := Finset.card_le_card whole
    _ = s.totalFrames := Finset.card_range _

theorem Represents.counterRight_iff (h : Represents s loc) : CounterRight s ↔ s.drift = 0 := by
  have small : s.freeTotal < 2 ^ 32 := by
    have le := h.freeTotal_le
    have total := h.totalFrames_le
    omega
  rw [State.drift, sub_eq_zero, CounterRight]
  constructor
  · intro eq
    rw [← eq, ofNat_toNat, setWidth_eq]
  · intro eq
    rw [eq, toNat_ofNat, Nat.mod_eq_of_lt small]

/-- A trimmed tail is too short to make the 32-bit counter wrap around. -/
theorem overcount_eq_zero_iff (h : Represents sys.pfa loc) (op : Op) : BitVec.ofNat 32 (sys.overcount op) = 0 ↔
      ∀ n, op = .allocN n → Served sys.pfa n → ∃ o, n = 2 ^ o := by
  cases op with
  | allocN n =>
    by_cases served : Served sys.pfa n
    · have total := h.totalFrames_le
      have wide : n ≤ 2 ^ 32 := by
        have := served.2.1
        omega
      have room := le_two_pow_framesToOrder wide
      have bound : 2 ^ framesToOrder n ≤ 2 ^ 10 := by
        obtain ⟨-, -, o, small, le, -⟩ := served
        exact Nat.pow_le_pow_right (by omega) (le.trans small)
      simp only [Sys.overcount, served, if_true, Op.allocN.injEq, forall_eq', true_imp_iff]
      constructor
      · intro zero
        have exact_fit : 2 ^ framesToOrder n - n = 0 := by
          have value := congrArg BitVec.toNat zero
          rw [toNat_ofNat, Nat.mod_eq_of_lt (by omega)] at value
          exact value
        exact ⟨framesToOrder n, by omega⟩
      · rintro ⟨k, rfl⟩
        have narrow : k ≤ 32 := by
          by_contra long
          have := Nat.pow_lt_pow_right (a := 2) (by omega) (Nat.lt_of_not_le long)
          omega
        rw [framesToOrder_two_pow narrow, Nat.sub_self]
        rfl
    · simp [Sys.overcount, served]
  | malloc | free | freeN | refcountInc | refcountDec => simp [Sys.overcount]

/-- In a run from initialisation the counter is right in every state exactly if every
`alloc_n` that was served asked for a power of two. -/
theorem free_counter_iff {b : Boot} (sane : b.Sane) {s₀ : State}
    (init : pageFrameAllocatorInit b = .ok s₀) {es : List (Sys × Op)} (run : Run Sys.step (Sys.start s₀) es sys) :
    (CounterRight sys.pfa ∧ ∀ e ∈ es, CounterRight e.1.pfa) ↔
      ∀ e ∈ es, ∀ n, e.2 = .allocN n → Served e.1.pfa n → ∃ o, n = 2 ^ o := by
  obtain ⟨s, loc, ok, h, settled, drift⟩ := pageFrameAllocatorInit_spec sane
  have same := ok.symm.trans init
  cases same
  refine Run.forall_states_iff (I := fun sys => ∃ loc, SysInv sys loc) (P := fun sys => CounterRight sys.pfa)
    (G := fun sys op => ∀ n, op = .allocN n → Served sys.pfa n → ∃ o, n = 2 ^ o)
    ⟨loc, SysInv.start h settled⟩ (fun _ _ _ holds taken => SysInv.step holds taken)
    (h.counterRight_iff.mpr drift) (fun sys op sys' holds right taken => ?_) run
  obtain ⟨loc, inv⟩ := holds
  obtain ⟨sys₁, took⟩ := inv.exec taken.1
  have same := took.ok.symm.trans taken.2
  cases same
  obtain ⟨loc', inv'⟩ := took.inv
  rw [inv'.represents.counterRight_iff, took.drift, inv.represents.counterRight_iff.mp right, zero_add,
    overcount_eq_zero_iff inv.represents]

/-- A run that takes one frame and then a whole block of four keeps the counter right. -/
theorem free_counter_iff_small : ∃ s₀ sys₁ sys₂, pageFrameAllocatorInit smallBoot = .ok s₀ ∧
      Run Sys.step (Sys.start s₀) [(Sys.start s₀, .malloc 0), (sys₁, .allocN 4)] sys₂ ∧
      ((CounterRight sys₂.pfa ∧ ∀ e ∈ [(Sys.start s₀, Op.malloc 0), (sys₁, .allocN 4)], CounterRight e.1.pfa) ↔
        ∀ e ∈ [(Sys.start s₀, Op.malloc 0), (sys₁, .allocN 4)],
          ∀ n, e.2 = .allocN n → Served e.1.pfa n → ∃ o, n = 2 ^ o) ∧ CounterRight sys₂.pfa := by
  obtain ⟨s₀, init, -⟩ := exists_ok_of_map
    (show (pageFrameAllocatorInit smallBoot).map State.freeTotal = .ok 6 by decide +kernel)
  have first : ((pageFrameAllocatorInit smallBoot).bind fun s => (Sys.start s).exec (.malloc 0)).map
      (fun sys => sys.pfa.freeTotal) = .ok 6 := by decide +kernel
  have second : (((pageFrameAllocatorInit smallBoot).bind fun s => (Sys.start s).exec (.malloc 0)).bind
      fun sys => sys.exec (.allocN 4)).map (fun sys => sys.pfa.freeTotal) = .ok 2 := by decide +kernel
  rw [init] at first second
  obtain ⟨sys₁, ran₁, -⟩ := exists_ok_of_map first
  rw [ran₁] at second
  obtain ⟨sys₂, ran₂, -⟩ := exists_ok_of_map second
  have run : Run Sys.step (Sys.start s₀) (([] ++ [(Sys.start s₀, .malloc 0)]) ++ [(sys₁, .allocN 4)]) sys₂ :=
    Run.snoc (Run.snoc Run.start ⟨(by decide : 0 < maxCpus), ran₁⟩) ⟨trivial, ran₂⟩
  have exactly := free_counter_iff smallBoot_sane init run
  refine ⟨s₀, sys₁, sys₂, init, run, exactly, (exactly.mpr ?_).1⟩
  intro e member n eq _
  rcases mem_append.mp member with old | new
  · rw [mem_singleton.mp old] at eq
    cases eq
  · rw [mem_singleton.mp new] at eq
    cases eq
    exact ⟨2, rfl⟩

/-- Three frames out of a block of four: the counter says four, the free area holds three. -/
theorem free_counter_ahead : ∃ s₀ sys, pageFrameAllocatorInit smallBoot = .ok s₀ ∧
      Run Sys.step (Sys.start s₀) [(Sys.start s₀, .allocN 3)] sys ∧
      sys.pfa.freeFrames.toNat = 4 ∧ sys.pfa.freeTotal = 3 := by
  obtain ⟨s₀, init, -⟩ := exists_ok_of_map
    (show (pageFrameAllocatorInit smallBoot).map State.freeTotal = .ok 6 by decide +kernel)
  have counts : ((pageFrameAllocatorInit smallBoot).bind fun s => (Sys.start s).exec (.allocN 3)).map
      (fun sys => (sys.pfa.freeFrames.toNat, sys.pfa.freeTotal)) = .ok (4, 3) := by decide +kernel
  rw [init] at counts
  obtain ⟨sys, ran, values⟩ := exists_ok_of_map counts
  have run : Run Sys.step (Sys.start s₀) ([] ++ [(Sys.start s₀, .allocN 3)]) sys := Run.snoc Run.start ⟨trivial, ran⟩
  exact ⟨s₀, sys, init, run, congrArg Prod.fst values, congrArg Prod.snd values⟩

end Jlos.Pfa
