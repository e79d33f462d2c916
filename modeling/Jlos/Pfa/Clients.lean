import Jlos.Pfa.Runs

/-!
# The allocator as its clients see it

The calls the rest of the kernel makes, on the allocator together with the references its clients
hold. `Leaves` says that a call does not change what a client sees of the other frames it holds.
-/
namespace Jlos.Pfa

open Lib

/-- A client that holds a frame outside `R` sees no difference. -/
structure Sys.Leaves (sys sys' : Sys) (R : Nat → Prop) : Prop where
  total : sys'.pfa.totalFrames = sys.pfa.totalFrames
  start : sys'.pfa.startAddr = sys.pfa.startAddr
  same : ∀ i, ¬R i → 0 < sys.refs i →
    sys'.refs i = sys.refs i ∧ sys'.run i = sys.run i ∧ sys'.pfa.pages i = sys.pfa.pages i

variable {f n : Nat} {loc' : Nat → Loc} {s' : State}

namespace Sys

variable {sys sys' sys'' : Sys} {R R' : Nat → Prop}

theorem Leaves.refl (sys : Sys) (R : Nat → Prop) : sys.Leaves sys R := ⟨rfl, rfl, fun _ _ _ => ⟨rfl, rfl, rfl⟩⟩

theorem Leaves.mono (h : sys.Leaves sys' R) (sub : ∀ i, R i → R' i) : sys.Leaves sys' R' :=
  ⟨h.total, h.start, fun i out => h.same i fun inR => out (sub i inR)⟩

theorem Leaves.trans (h : sys.Leaves sys' R) (h' : sys'.Leaves sys'' R) : sys.Leaves sys'' R := by
  refine ⟨h'.total.trans h.total, h'.start.trans h.start, fun i out held => ?_⟩
  obtain ⟨refs, run, page⟩ := h.same i out held
  obtain ⟨refs', run', page'⟩ := h'.same i out (by rwa [refs])
  exact ⟨refs'.trans refs, run'.trans run, page'.trans page⟩

theorem Leaves.framePhys (h : sys.Leaves sys' R) (f : Nat) : framePhys sys'.pfa f = framePhys sys.pfa f := by
  simp [Pfa.framePhys, h.start]

def malloc (sys : Sys) (cpu : Nat) : M (Option Nat × Sys) := do
  let (result, s) ← pageFrameMalloc sys.pfa cpu
  pure (result, sys.handOut s result 1)

def allocN (sys : Sys) (n : Nat) : M (Option Nat × Sys) := do
  let (result, s) ← pageFrameAllocN sys.pfa n
  pure (result, sys.handOut s result n)

def free (sys : Sys) (cpu phys : Nat) : M Sys := do
  let s ← pageFrameFree sys.pfa cpu phys
  pure (sys.giveUp s (pfaPhysToFrame sys.pfa phys) 1)

def freeN (sys : Sys) (phys n : Nat) : M Sys := do
  let s ← pageFrameFreeN sys.pfa phys n
  pure (sys.giveUp s (pfaPhysToFrame sys.pfa phys) n)

def setOwnerType (sys : Sys) (phys owner : Nat) (type : FrameType) : M Sys := do
  let s ← pageFrameSetOwnerType sys.pfa phys owner type
  pure { sys with pfa := s }

def clearOwnerType (sys : Sys) (phys : Nat) : M Sys := sys.setOwnerType phys 0 .free

/-- The clients have received a run of frames nobody held. -/
structure Grants (sys sys' : Sys) (f n : Nat) : Prop extends sys.Leaves sys' noFrame where
  inside : f + n ≤ sys.pfa.totalFrames
  fresh : ∀ i, InRange f n i → sys.refs i = 0
  held : ∀ i, InRange f n i → sys'.refs i = 1 ∧ sys'.run i = (f, n) ∧ (sys'.pfa.pages i).type = .free

theorem Grants.leaves (granted : sys.Grants sys' f n) (h : sys'.Leaves sys'' (InRange f n)) :
    sys.Leaves sys'' noFrame := by
  refine ⟨h.total.trans granted.total, h.start.trans granted.start, fun i out held => ?_⟩
  obtain ⟨refs, run, page⟩ := granted.same i out held
  have away : ¬InRange f n i := fun ini => by
    rw [granted.fresh i ini] at held
    exact lt_irrefl 0 held
  obtain ⟨refs', run', page'⟩ := h.same i away (by rwa [refs])
  exact ⟨refs'.trans refs, run'.trans run, page'.trans page⟩

end Sys

variable {sys : Sys} {loc : Nat → Loc}

theorem startAddr_le (s : State) (f : Nat) : s.startAddr ≤ framePhys s f := Nat.le_add_right _ _

section

variable (h : SysInv sys loc)
include h

theorem SysInv.leaves_none (p : Preserves noFrame sys.pfa s' loc loc') : sys.Leaves (sys.handOut s' none n) noFrame :=
  ⟨p.total, p.start, fun _ out held => ⟨rfl, rfl, (h.outside p.toKeeps out held).2.2⟩⟩

theorem SysInv.grants {headOrder : Nat} (out : HandsOut sys.pfa s' loc loc' f n headOrder) (pos : 0 < n) :
    sys.Grants (sys.handOut s' (some (framePhys sys.pfa f)) n) f n := by
  have fresh : ∀ i, InRange f n i → sys.refs i = 0 := fun i ini => h.unheld (out.free i ini)
  simp only [Sys.handOut, out.frame pos]
  refine ⟨⟨out.total, out.start, fun i _ held => ?_⟩, out.inside, fresh, fun i ini => ?_⟩
  · have away : ¬InRange f n i := fun ini => by
      rw [fresh i ini] at held
      exact lt_irrefl 0 held
    simp only [if_neg away]
    exact ⟨trivial, trivial, (h.outside out.toKeeps away held).2.2⟩
  · simp only [if_pos ini, fresh i ini]
    exact ⟨trivial, trivial, (out.page i ini).2.1⟩

theorem SysInv.malloc (cpu : Nat) : ∃ result sys' loc', sys.malloc cpu = .ok (result, sys') ∧ SysInv sys' loc' ∧
      (result = none ∧ sys.Leaves sys' noFrame ∨ ∃ f, result = some (framePhys sys.pfa f) ∧ sys.Grants sys' f 1) := by
  obtain ⟨result, s', loc', run, -, outcome⟩ := pageFrameMalloc_spec cpu h.represents
  have ok : sys.malloc cpu = .ok (result, sys.handOut s' result 1) := by
    simp [Sys.malloc, run]
  rcases outcome with ⟨rfl, p⟩ | ⟨f, rfl, out⟩
  · exact ⟨_, _, loc', ok, h.handOut_none 1 p, .inl ⟨rfl, h.leaves_none p⟩⟩
  · exact ⟨_, _, loc', ok, h.handOut_some out (by decide) one_pos (.inl rfl), .inr ⟨f, rfl, h.grants out one_pos⟩⟩

theorem SysInv.allocN (n : Nat) : ∃ result sys' loc', sys.allocN n = .ok (result, sys') ∧ SysInv sys' loc' ∧
      (result = none ∧ sys' = sys ∨ ∃ f, result = some (framePhys sys.pfa f) ∧ 0 < n ∧ sys.Grants sys' f n) := by
  by_cases served : Served sys.pfa n
  · obtain ⟨f, s', loc', run, out, room, order, -⟩ := pageFrameAllocN_served h.represents served
    have pos : 0 < n := pos_of_ne_zero served.1
    have small : n ≤ freeNMax := room.trans (Nat.pow_le_pow_right (n := 2) (by omega) order)
    refine ⟨_, sys.handOut s' (some (framePhys sys.pfa f)) n, loc', ?_,
      h.handOut_some out small pos (.inr room), .inr ⟨f, rfl, pos, h.grants out pos⟩⟩
    simp [Sys.allocN, run]
  · refine ⟨none, sys, loc, ?_, h, .inl ⟨rfl, rfl⟩⟩
    simp only [Sys.allocN, pageFrameAllocN_refused h.represents served, ok_bind]
    rfl

theorem SysInv.leaves_giveUp
    (p : Preserves (InRange f n) sys.pfa s' loc loc') : sys.Leaves (sys.giveUp s' f n) (InRange f n) := by
  refine ⟨p.total, p.start, fun i out held => ?_⟩
  simp only [Sys.giveUp, if_neg out]
  exact ⟨trivial, trivial, (h.outside p.toKeeps out held).2.2⟩

/-- `free` and `refcount_dec` of a held frame. -/
theorem SysInv.free (cpu : Nat) (held : 0 < sys.refs f) :
    ∃ sys' loc', sys.free cpu (framePhys sys.pfa f) = .ok sys' ∧ SysInv sys' loc' ∧ sys.Leaves sys' (· = f) := by
  obtain ⟨lt, used, -⟩ := h.held f held
  have frame := pfaPhysToFrame_framePhys h.represents lt
  obtain ⟨s', loc', run, p, gone⟩ := pageFrameRefcountDec_spec cpu h.represents frame lt used
  have one : ∀ i, i = f ↔ InRange f 1 i := fun i => (inRange_one f i).symm
  have moved : Preserves (InRange f 1) sys.pfa s' loc loc' := p.mono fun i => (one i).mp
  have inv : SysInv (sys.giveUp s' f 1) loc' := by
    refine h.giveUp moved (fun i ini => ?_) fun i ini => ?_
    · rwa [(one i).mpr ini]
    · rw [(one i).mpr ini]
      exact gone
  refine ⟨sys.giveUp s' f 1, loc', ?_, inv, (h.leaves_giveUp moved).mono fun i => (one i).mpr⟩
  simp [Sys.free, pageFrameFree, run, frame]

/-- `free_n` of a whole run whose frames are held once each: they are free. -/
theorem SysInv.freeN (pos : 0 < n) (held : ∀ i, InRange f n i → sys.refs i = 1 ∧ sys.run i = (f, n)) :
    ∃ sys' loc', sys.freeN (framePhys sys.pfa f) n = .ok sys' ∧ SysInv sys' loc' ∧
      sys.Leaves sys' (InRange f n) ∧ ∀ i, InRange f n i → (sys'.pfa.pages i).occupied = false := by
  have first : InRange f n f := ⟨le_refl f, by omega⟩
  have live : ∀ i, InRange f n i → 0 < sys.refs i := fun i ini => by rw [(held i ini).1]; exact one_pos
  have frame := pfaPhysToFrame_framePhys h.represents (h.held f (live f first)).1
  obtain ⟨s', loc', run, p, gone⟩ :=
    h.freeN_range fun i ini => ⟨live i ini, (held i ini).2.trans (held f first).2.symm⟩
  refine ⟨sys.giveUp s' f n, loc', ?_, h.giveUp p live gone, h.leaves_giveUp p, fun i ini => ?_⟩
  · simp [Sys.freeN, run, frame]
  · obtain ⟨inside, -, count⟩ := h.held i (live i ini)
    have listed := gone i ini
    rw [if_pos (count.trans (held i ini).1)] at listed
    obtain ⟨_, vacant⟩ := p.represents.vacant_of_listed (by rwa [p.total]) listed
    exact vacant.1

end

/-! ### One frame at a time -/

/-- A call about single frames: held frames other than `f` keep their descriptors. -/
structure Sys.Moves (sys sys' : Sys) (f : Nat → Prop) : Prop where
  inv : ∃ loc, SysInv sys' loc
  total : sys'.pfa.totalFrames = sys.pfa.totalFrames
  start : sys'.pfa.startAddr = sys.pfa.startAddr
  pages : ∀ i, ¬f i → 0 < sys.refs i → sys'.pfa.pages i = sys.pfa.pages i

theorem Sys.Moves.refl (inv : ∃ loc, SysInv sys loc) (R : Nat → Prop) : sys.Moves sys R :=
  ⟨inv, rfl, rfl, fun _ _ _ => rfl⟩

theorem Sys.Moves.trans {sys₁ sys₂ : Sys} {R R₁ R₂ : Nat → Prop} (first : sys.Moves sys₁ R₁)
    (second : sys₁.Moves sys₂ R₂)
    (kept : ∀ i, ¬R i → 0 < sys.refs i → ¬R₁ i ∧ ¬R₂ i ∧ 0 < sys₁.refs i) : sys.Moves sys₂ R := by
  refine ⟨second.inv, second.total.trans first.total, second.start.trans first.start, fun i out held => ?_⟩
  obtain ⟨out₁, out₂, held₁⟩ := kept i out held
  exact (second.pages i out₂ held₁).trans (first.pages i out₁ held)

section

variable (h : SysInv sys loc)
include h

theorem SysInv.moves {sys₀ : Sys} {R : Nat → Prop} (leaves : sys₀.Leaves sys R) : sys₀.Moves sys R :=
  ⟨⟨loc, h⟩, leaves.total, leaves.start, fun i out held => (leaves.same i out held).2.2⟩

theorem SysInv.grab (cpu : Nat) : ∃ result sys', sys.malloc cpu = .ok (result, sys') ∧ sys.Moves sys' noFrame ∧
      (result = none ∧ sys'.refs = sys.refs ∨
        ∃ f, result = some (framePhys sys.pfa f) ∧ f < sys.pfa.totalFrames ∧ sys.refs f = 0 ∧
          ∀ i, sys'.refs i = if i = f then 1 else sys.refs i) := by
  obtain ⟨result, s', loc', run, -, outcome⟩ := pageFrameMalloc_spec cpu h.represents
  have ok : sys.malloc cpu = .ok (result, sys.handOut s' result 1) := by
    simp [Sys.malloc, run]
  rcases outcome with ⟨rfl, p⟩ | ⟨f, rfl, out⟩
  · exact ⟨_, _, ok, (h.handOut_none 1 p).moves (h.leaves_none p), .inl ⟨rfl, rfl⟩⟩
  · have granted := h.grants out one_pos
    have lt : f < sys.pfa.totalFrames := granted.inside
    have unheld : sys.refs f = 0 := granted.fresh f ((inRange_one f f).mpr rfl)
    refine ⟨_, _, ok, ⟨⟨loc', h.handOut_some out (by decide) one_pos (.inl rfl)⟩, out.total, out.start,
      fun i away held => (granted.same i away held).2.2⟩, .inr ⟨f, rfl, lt, unheld, fun i => ?_⟩⟩
    simp only [Sys.handOut, out.frame one_pos, inRange_one]
    by_cases same : i = f
    · simp [same, unheld]
    · simp [if_neg same]

/-- `free` and `refcount_dec` of any address; memory the allocator does not have is left alone. -/
theorem SysInv.release (cpu : Nat) {phys : Nat} (frame : pfaPhysToFrame sys.pfa phys = f)
    (held : f < sys.pfa.totalFrames → 0 < sys.refs f) : ∃ sys', sys.free cpu phys = .ok sys' ∧ sys.Moves sys' (· = f) ∧
      ∀ i, sys'.refs i = if i = f then sys.refs i - 1 else sys.refs i := by
  by_cases lt : f < sys.pfa.totalFrames
  · have same : sys.free cpu phys = sys.free cpu (framePhys sys.pfa f) := by
      simp [Sys.free, pageFrameFree, pageFrameRefcountDec, pfaPhysToFrame_framePhys h.represents lt, frame]
    obtain ⟨sys', loc', run, inv, leaves⟩ := h.free cpu (held lt)
    refine ⟨sys', same.trans run, inv.moves leaves, fun i => ?_⟩
    obtain ⟨_, -, ⟨⟩⟩ := ok_of_bind run
    simp [Sys.giveUp, pfaPhysToFrame_framePhys h.represents lt, inRange_one]
  · have unheld : sys.refs f = 0 := Nat.eq_zero_of_not_pos fun pos => lt (h.held f pos).1
    have refs : (sys.giveUp sys.pfa f 1).refs = sys.refs := by
      funext i
      simp only [Sys.giveUp, inRange_one]
      split
      next same => rw [same, unheld]
      · rfl
    have nothing : sys.giveUp sys.pfa f 1 = sys := by
      calc sys.giveUp sys.pfa f 1 = { sys with refs := (sys.giveUp sys.pfa f 1).refs } := rfl
        _ = sys := by rw [refs]
    refine ⟨sys.giveUp sys.pfa f 1, ?_, nothing.symm ▸ .refl ⟨loc, h⟩ _, fun i => ?_⟩
    · simp [Sys.free, pageFrameFree, pageFrameRefcountDec, frame, if_pos (le_of_not_gt lt), ok_bind, pure, Except.pure]
    · simp [Sys.giveUp, inRange_one]

/-- Fields the allocator itself does not use change in the descriptor of a held frame. -/
theorem SysInv.modHeld (held : 0 < sys.refs f) {g : Page → Page}
    (occupied : (g (sys.pfa.pages f)).occupied = (sys.pfa.pages f).occupied)
    (order : (g (sys.pfa.pages f)).order = (sys.pfa.pages f).order)
    (refcount : (g (sys.pfa.pages f)).refcount = (sys.pfa.pages f).refcount) :
    SysInv { sys with pfa := sys.pfa.modPage f g } loc ∧ sys.Leaves { sys with pfa := sys.pfa.modPage f g } (· = f) ∧
      (sys.pfa.modPage f g).pages f = g (sys.pfa.pages f) := by
  obtain ⟨lt, used, -⟩ := h.held f held
  have ok := h.represents.page f lt
  rw [used] at ok
  have represents : Represents (sys.pfa.modPage f g) loc := by
    have moved := h.represents.modPage (g := g) (l := .used) (f := f) (by rw [used]; rfl) rfl
      ⟨occupied.trans ok.1, by rw [refcount]; exact ok.2⟩
    rwa [← used, Function.update_eq_self] at moved
  have other : ∀ i, i ≠ f → (sys.pfa.modPage f g).pages i = sys.pfa.pages i := fun i ne => Function.update_of_ne ne ..
  have self : (sys.pfa.modPage f g).pages f = g (sys.pfa.pages f) := Function.update_self ..
  have keeps : Keeps (· = f) sys.pfa (sys.pfa.modPage f g) loc loc :=
    ⟨rfl, rfl, fun i ne _ => ⟨rfl, other i ne⟩, fun _ _ on => on⟩
  refine ⟨h.move represents keeps (fun _ _ => ⟨rfl, rfl⟩) (fun i eq => .inl (eq ▸ used)) ?_,
    ⟨rfl, rfl, fun i ne _ => ⟨rfl, rfl, other i ne⟩⟩, self⟩
  rintro i rfl -
  simp only [Sys.HeldOk, self, order, refcount]
  exact ⟨h.held i held, h.inside i held, h.head i held⟩

theorem SysInv.setOwnerType (held : 0 < sys.refs f) (owner : Nat) (type : FrameType) :
    ∃ sys', sys.setOwnerType (framePhys sys.pfa f) owner type = .ok sys' ∧ SysInv sys' loc ∧
      sys.Leaves sys' (· = f) ∧ sys'.refs = sys.refs ∧ sys'.run = sys.run ∧
      sys'.pfa.pages f = { sys.pfa.pages f with type := type, owner := owner } := by
  obtain ⟨lt, used, count⟩ := h.held f held
  have ok := h.represents.page f lt
  rw [used] at ok
  have frame := pfaPhysToFrame_framePhys h.represents lt
  obtain ⟨inv, leaves, page⟩ := h.modHeld held (g := fun pg => { pg with type := type, owner := owner }) rfl rfl rfl
  refine ⟨_, ?_, inv, leaves, rfl, rfl, page⟩
  simp only [Sys.setOwnerType, pageFrameSetOwnerType, if_neg (Nat.not_lt.mpr (startAddr_le ..)),
    frame, if_neg (Nat.not_le.mpr lt), ok.1,
    not_true_eq_false, if_false]
  rfl

theorem SysInv.getType (lt : f < sys.pfa.totalFrames) :
    pageFrameGetType sys.pfa (framePhys sys.pfa f) = (sys.pfa.pages f).type := by
  simp [pageFrameGetType, if_neg (Nat.not_lt.mpr (startAddr_le ..)),
    pfaPhysToFrame_framePhys h.represents lt, if_pos lt]

theorem SysInv.getOwner (lt : f < sys.pfa.totalFrames) :
    pageFrameGetOwner sys.pfa (framePhys sys.pfa f) = (sys.pfa.pages f).owner := by
  simp [pageFrameGetOwner, if_neg (Nat.not_lt.mpr (startAddr_le ..)),
    pfaPhysToFrame_framePhys h.represents lt, if_pos lt]

end

/-- The frames a call is about. -/
def Op.Touches (s : State) : Op → Nat → Prop
  | .malloc _ | .allocN _ => noFrame
  | .free _ phys | .refcountInc phys | .refcountDec _ phys => (· = pfaPhysToFrame s phys)
  | .freeN phys n => InRange (pfaPhysToFrame s phys) n

/-- A call takes at most one reference of a frame away, and only of a frame it is about. -/
theorem Sys.exec_refs {op : Op} {sys' : Sys} (ok : sys.exec op = .ok sys') (i : Nat) :
    sys.refs i ≤ sys'.refs i ∨ op.Touches sys.pfa i ∧ sys.refs i = sys'.refs i + 1 := by
  have given : ∀ (s : State) (r : Option Nat) (n : Nat), sys.refs i ≤ (sys.handOut s r n).refs i := by
    intro s r n
    cases r with
    | none => exact le_refl _
    | some phys =>
      simp only [Sys.handOut]
      split <;> omega
  -- A reference that is not held cannot be given up.
  have taken : ∀ (s : State) (f n : Nat), sys.refs i ≤ (sys.giveUp s f n).refs i ∨
      InRange f n i ∧ sys.refs i = (sys.giveUp s f n).refs i + 1 := by
    intro s f n
    simp only [Sys.giveUp]
    split
    next inside =>
      by_cases zero : sys.refs i = 0
      · exact .inl (by omega)
      · exact .inr ⟨inside, by omega⟩
    · exact .inl (le_refl _)
  cases op with
  | malloc _ | allocN _ =>
    obtain ⟨_, -, ⟨⟩⟩ := ok_of_bind ok
    exact .inl (given _ _ _)
  | free _ _ | refcountDec _ _ =>
    obtain ⟨_, -, ⟨⟩⟩ := ok_of_bind ok
    simpa only [Op.Touches, inRange_one] using taken _ _ 1
  | freeN _ n =>
    obtain ⟨_, -, ⟨⟩⟩ := ok_of_bind ok
    exact taken _ _ n
  | refcountInc phys =>
    obtain ⟨_, -, ⟨⟩⟩ := ok_of_bind ok
    left
    simp only [Function.update_apply]
    split
    next same => rw [same]; exact Nat.le_succ _
    · exact le_refl _

theorem SysInv.refcountInc (h : SysInv sys loc) (held : 0 < sys.refs f) (below : sys.refs f < refcountMax) :
    ∃ s', pageFrameRefcountInc sys.pfa (framePhys sys.pfa f) = .ok s' ∧ sys.Leaves
      { sys with pfa := s', refs := Function.update sys.refs f (sys.refs f + 1) } (· = f) := by
  obtain ⟨lt, used, count⟩ := h.held f held
  have frame := pfaPhysToFrame_framePhys h.represents lt
  obtain ⟨s', run, p, -⟩ := pageFrameRefcountInc_spec h.represents frame lt used (by rwa [count])
  refine ⟨s', run, p.total, p.start, fun i ne pos => ⟨Function.update_of_ne ne .., rfl, ?_⟩⟩
  exact (h.outside p.toKeeps ne pos).2.2

/-- No call changes what a client sees of frames the call is not about. -/
theorem SysInv.exec_leaves (h : SysInv sys loc) {op : Op} (legal : sys.Legal op) :
    ∃ sys' loc', sys.exec op = .ok sys' ∧ SysInv sys' loc' ∧ sys.Leaves sys' (op.Touches sys.pfa) := by
  obtain ⟨sys', took⟩ := h.exec legal
  obtain ⟨loc', inv⟩ := took.inv
  refine ⟨sys', loc', took.ok, inv, ?_⟩
  have ok := took.ok
  -- Each call is specified on its own; only its frames are touched.
  cases op with
  | malloc cpu =>
    obtain ⟨result, after, -, run, -, outcome⟩ := h.malloc cpu
    obtain ⟨_, got, ⟨⟩⟩ := ok_of_bind run
    cases (bind_of_ok got _).symm.trans ok
    rcases outcome with ⟨-, leaves⟩ | ⟨f, -, grants⟩
    · exact leaves
    · exact grants.toLeaves
  | allocN n =>
    obtain ⟨result, after, -, run, -, outcome⟩ := h.allocN n
    obtain ⟨_, got, ⟨⟩⟩ := ok_of_bind run
    cases (bind_of_ok got _).symm.trans ok
    rcases outcome with ⟨-, same⟩ | ⟨f, -, -, grants⟩
    · rw [same]
      exact Sys.Leaves.refl ..
    · exact grants.toLeaves
  | freeN physStart n =>
    obtain ⟨f, rfl, lt, held⟩ := legal
    have frame := pfaPhysToFrame_framePhys h.represents lt
    obtain ⟨s', _, run, p, -⟩ := h.freeN_range held
    have same : sys.exec (.freeN (framePhys sys.pfa f) n) = .ok (sys.giveUp s' f n) := by
      simp [Sys.exec, run, frame]
    cases same.symm.trans ok
    rw [Op.Touches, frame]
    exact h.leaves_giveUp p
  | refcountInc phys =>
    obtain ⟨f, rfl, held, below⟩ := legal
    have frame := pfaPhysToFrame_framePhys h.represents (h.held f held).1
    obtain ⟨s', run, leaves⟩ := h.refcountInc held below
    have same : sys.exec (.refcountInc (framePhys sys.pfa f)) =
        .ok { sys with pfa := s', refs := Function.update sys.refs f (sys.refs f + 1) } := by
      simp [Sys.exec, run, frame]
    cases same.symm.trans ok
    rw [Op.Touches, frame]
    exact leaves
  | free cpu phys | refcountDec cpu phys =>
    obtain ⟨-, f, rfl, held⟩ := legal
    have frame := pfaPhysToFrame_framePhys h.represents (h.held f held).1
    obtain ⟨after, _, run, -, leaves⟩ := h.free cpu held
    cases run.symm.trans ok
    rw [Op.Touches, frame]
    exact leaves

end Jlos.Pfa
