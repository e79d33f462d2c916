import Jlos.Paging.Entries

/-!
# Page tables as a finite map

Calls of `jlos_arch_map_entry` and `jlos_arch_unmap_entry` on user pages and those of the other
clients of the page frame allocator, as steps of a system that records the finite map the tables
stand for.
-/
namespace Jlos.Paging

open Lib Option Entry

structure Sys where
  state : State
  /-- The references to frames that callers hold and can hand over to an entry. -/
  mine : Nat → Nat
  /-- The finite map from pages to physical addresses, for each context. -/
  abs : Nat → Nat → Option Nat

inductive Op
  /-- A call of another client of the page frame allocator. -/
  | client (call : Pfa.Op)
  | map (cpu c v pa : Nat) (prot : Prot)
  | unmap (cpu c v : Nat)

def setPage (abs : Nat → Nat → Option Nat) (c v : Nat) (x : Option Nat) : Nat → Nat → Option Nat :=
  fun d w => if d = c ∧ w = v then x else abs d w

namespace Sys

variable (a : Arch)

def start (s : Pfa.State) : Sys :=
  ⟨⟨Pfa.Sys.start s, fun _ _ => none, fun _ => none, none⟩, fun _ => 0, fun _ _ => none⟩

def exec (sys : Sys) : Op → M Sys
  | .client call => do
    let frames ← sys.state.frames.exec call
    pure { sys with
      state := { sys.state with frames := frames }
      mine := fun f => sys.mine f + frames.refs f - sys.state.frames.refs f }
  | .map cpu c v pa prot => do
    let (done, st) ← mapEntry a sys.state cpu c (v * pageSize) pa prot
    if done then
      -- the reference of the caller is now the entry's
      pure ⟨st, fun f => if frameOf sys.state pa = f then sys.mine f - 1 else sys.mine f,
        setPage sys.abs c v (some pa)⟩
    else pure { sys with state := st }
  | .unmap cpu c v => do
    let (_, st) ← unmapEntry a sys.state cpu c (v * pageSize)
    pure { sys with state := st, abs := setPage sys.abs c v none }

/-- Pages are the user's, addresses are page-aligned and fit an entry, and who maps or gives back a
frame of the allocator holds a reference to it. -/
def Legal (sys : Sys) : Op → Prop
  | .client call => sys.state.frames.Legal call ∧ ∀ f, call.Touches sys.state.frames.pfa f → 0 < sys.mine f
  | .map _ _ v pa _ => UserPage a v ∧ maskAddr a pa = pa ∧
    (frameOf sys.state pa < sys.state.frames.pfa.totalFrames → 0 < sys.mine (frameOf sys.state pa))
  | .unmap _ _ v => UserPage a v

def step (sys : Sys) (op : Op) (sys' : Sys) : Prop := sys.Legal a op ∧ sys.exec a op = .ok sys'

/-- The invariant of the tables, for some places of tables and owners of references. -/
def Ok (sys : Sys) : Prop := ∃ place own, Inv a sys.state place own ∧ ∀ f, sys.mine f ≤ own f

/-- The entries are those of the finite map. -/
def Agrees (sys : Sys) : Prop :=
  ∀ c v, UserPage a v → (entryAt a sys.state c v).map Entry.addr = sys.abs c v

end Sys

/-- An unmap whose table is not given back with entries of other pages in it. -/
def Op.Safe (a : Arch) (sys : Sys) : Op → Prop
  | .unmap _ c v => ¬Loses a sys.state c v
  | .client _ | .map .. => True

variable {a : Arch} {sys sys' : Sys} {n : Nat} {st : State}

instance (op : Op) : Decidable (op.Safe a sys) := by
  cases op <;> unfold Op.Safe <;> infer_instance

/-! ### Steps -/

open Sys

theorem Sys.start_ok {s₀ : Pfa.State} {loc : Nat → Pfa.Loc} (represents : Pfa.Represents s₀ loc)
    (settled : Pfa.Settled s₀ loc) (aligned : pageSize ∣ s₀.startAddr) : (start s₀).Ok a := by
  have no_pages : ∀ f, mapped a (start s₀).state f = ∅ := by
    intro f
    refine Set.eq_empty_iff_forall_notMem.mpr fun x mem => ?_
    obtain ⟨user, e, entry, -⟩ := mem
    rw [entryAt_eq user] at entry
    cases entry
  refine ⟨fun _ => none, fun _ => 0, ⟨⟨loc, Pfa.SysInv.start represents settled⟩, aligned, nofun,
    ⟨nofun, nofun⟩, nofun, nofun,
    nofun, nofun, fun f _ => ?_⟩, fun _ => le_refl 0⟩
  rw [no_pages]
  exact ⟨Set.finite_empty, by rw [Set.ncard_empty]; rfl⟩

theorem Sys.start_agrees (s₀ : Pfa.State) : (start s₀).Agrees a := by
  intro c v user
  rw [entryAt_eq user]
  rfl

/-- Who else uses the allocator keeps to frames he has, and so away from the tables. -/
theorem Sys.Ok.client (h : sys.Ok a) {call : Pfa.Op} (legal : sys.Legal a (.client call))
    (ok : sys.exec a (.client call) = .ok sys') : sys'.Ok a ∧ ∀ c v, UserPage a v →
      entryAt a sys'.state c v = entryAt a sys.state c v := by
  obtain ⟨place, own, inv, mine⟩ := h
  obtain ⟨allowed, touched⟩ := legal
  obtain ⟨loc, alloc⟩ := inv.alloc
  obtain ⟨frames', loc', run, alloc', leaves⟩ := alloc.exec_leaves allowed
  have refs := Pfa.Sys.exec_refs run
  have eq : sys' = ⟨{ sys.state with frames := frames' },
      fun f => sys.mine f + frames'.refs f - sys.state.frames.refs f, sys.abs⟩ := by
    simp only [exec, run, ok_bind] at ok
    cases ok
    rfl
  rw [eq]
  refine ⟨⟨place, fun f => own f + frames'.refs f - sys.state.frames.refs f, ?_, fun f => ?_⟩,
    fun c v user => entryAt_congr rfl rfl user⟩
  · -- a table's frame is held by the table alone, so no other client can name it
    have away : ∀ {f x}, place (Pfa.framePhys sys.state.frames.pfa f) = some x →
        0 < sys.state.frames.refs f ∧ ¬call.Touches sys.state.frames.pfa f := by
      intro f x placed
      have one := inv.refs_eq_one placed
      have sum := (inv.acct f (inv.frame_lt one)).2
      rw [placed, one] at sum
      refine ⟨by omega, fun touches => ?_⟩
      have pos := touched f touches
      have le := mine f
      simp only [isSome_some, Bool.toNat_true] at sum
      omega
    apply inv.reframe _ (alloc'.moves leaves)
    · intro f x placed
      obtain ⟨held, out⟩ := away placed
      obtain ⟨same, -, page⟩ := leaves.same f out held
      exact ⟨same, by rw [page]⟩
    · intro f lt
      show own f + frames'.refs f - sys.state.frames.refs f + sys.state.frames.refs f = frames'.refs f + own f
      rcases refs f with grows | ⟨touches, one⟩
      · omega
      · have pos := touched f touches
        have le := mine f
        omega
    · rfl
    · rfl
  · have le := mine f
    show sys.mine f + frames'.refs f - sys.state.frames.refs f ≤ own f + frames'.refs f - sys.state.frames.refs f
    omega

theorem Sys.Ok.map (h : sys.Ok a) (agrees : sys.Agrees a) {cpu c v pa : Nat} {prot : Prot}
    (legal : sys.Legal a (.map cpu c v pa prot)) (ok : sys.exec a (.map cpu c v pa prot) = .ok sys') :
    sys'.Ok a ∧ sys'.Agrees a := by
  obtain ⟨place, own, inv, mine⟩ := h
  obtain ⟨user, aligned, owned⟩ := legal
  have has : ∀ f, f < sys.state.frames.pfa.totalFrames → frameOf sys.state (maskAddr a pa) = f → 0 < own f := by
    intro f lt frame
    rw [aligned] at frame
    subst frame
    exact lt_of_lt_of_le (owned lt) (mine _)
  obtain ⟨done, st', place', run, outcome⟩ := inv.mapEntry cpu c user pa prot has
  simp only [exec, run, ok_bind] at ok
  cases done with
  | false =>
    obtain ⟨quiet, inv'⟩ := outcome
    cases ok
    refine ⟨⟨place', own, inv', mine⟩, fun d w user' => ?_⟩
    exact (congrArg _ (quiet.same d w user')).trans (agrees d w user')
  | true =>
    obtain ⟨took, inv'⟩ := outcome
    cases ok
    refine ⟨⟨place', _, inv', fun f => ?_⟩, fun d w user' => ?_⟩
    · have le := mine f
      show (if frameOf sys.state pa = f then sys.mine f - 1 else sys.mine f) ≤ _
      split
      next hit =>
        rw [maps_hit (by rw [page_addr, aligned, hit])]
        omega
      next miss =>
        rw [maps_miss (by rwa [page_addr, aligned])]
        exact le
    · show (entryAt a st' d w).map addr = setPage sys.abs c v (some pa) d w
      rw [took.same d w user', setPage]
      split
      · rw [map_some, page_addr, aligned]
      · exact agrees d w user'

/-- An unmap takes the page out of the map, and of the tables that page and no other. -/
theorem Sys.Ok.unmap (h : sys.Ok a) (agrees : sys.Agrees a) {cpu c v : Nat} (legal : sys.Legal a (.unmap cpu c v))
    (safe : ¬Loses a sys.state c v) (ok : sys.exec a (.unmap cpu c v) = .ok sys') : sys'.Ok a ∧ sys'.Agrees a := by
  obtain ⟨place, own, inv, mine⟩ := h
  have user : UserPage a v := legal
  obtain ⟨done, st', place', own', run, inv', took⟩ := inv.unmapEntry user cpu c safe
  simp only [exec, run, ok_bind] at ok
  cases ok
  refine ⟨⟨place', own', inv', fun f => (mine f).trans (took.kept f)⟩, fun d w user' => ?_⟩
  show (entryAt a st' d w).map addr = setPage sys.abs c v none d w
  rw [took.same d w user', entryAt_of_safe user user' safe, setPage]
  split
  · rfl
  · exact agrees d w user'

/-! ### Translations -/

theorem Inv.getPhys_eq {place : Nat → Option (Nat × List Nat)} {own : Nat → Nat} (h : Inv a st place own)
    {c v : Nat} (user : UserPage a v) (rooted : (st.roots c).isSome) :
    getPhys a st c (v * pageSize) = ((entryAt a st c v).map addr).getD 0 := by
  obtain ⟨r, root⟩ := isSome_iff_exists.mp rooted
  have walks : pteWalk a st c (v * pageSize) = (lastDir a st c (v * pageSize)).bind fun dir =>
      (st.tables dir (dirIndex a (v * pageSize))).bind Entry.child := pteWalk_split user st c
  simp only [getPhys, user.tableRoot, root, entryAt, pte, walks]
  cases found : lastDir a st c (v * pageSize) with
  | none => rfl
  | some dir =>
    simp only [bind_some]
    cases entry : st.tables dir (dirIndex a (v * pageSize)) with
    | none => rfl
    | some e =>
      have small : e.large = false := h.small (h.place_lastDir user found) user.path entry
      simp only [bind_some, Entry.child, small, Bool.false_eq_true, if_false]
      cases st.tables e.addr (pteIndex a (v * pageSize)) with
      | none => rfl
      | some p => simp

theorem Sys.Ok.step (h : sys.Ok a ∧ sys.Agrees a) {op : Op} (safe : op.Safe a sys) (taken : sys.step a op sys') :
    sys'.Ok a ∧ sys'.Agrees a := by
  obtain ⟨ok, agrees⟩ := h
  obtain ⟨legal, ran⟩ := taken
  cases op with
  | client call =>
    obtain ⟨ok', same⟩ := ok.client legal ran
    have abs : sys'.abs = sys.abs := by
      obtain ⟨_, -, ⟨⟩⟩ := ok_of_bind ran
      rfl
    refine ⟨ok', fun c v user => ?_⟩
    rw [same c v user, abs]
    exact agrees c v user
  | map cpu c v pa prot => exact ok.map agrees legal ran
  | unmap cpu c v => exact ok.unmap agrees legal safe ran

/-- In every run whose unmaps are safe, the translation of a page is the address of its last
successful map that no unmap followed, and 0 without one. -/
theorem getPhys_of_run {b : Pfa.Boot} (sane : b.Sane) {s₀ : Pfa.State} (init : Pfa.pageFrameAllocatorInit b = .ok s₀)
    (aligned : pageSize ∣ s₀.startAddr) {es : List (Sys × Op)} {sys : Sys}
    (run : Run (Sys.step a) (Sys.start s₀) es sys) (safe : ∀ e ∈ es, e.2.Safe a e.1) {c v : Nat} (user : UserPage a v)
    (rooted : (sys.state.roots c).isSome) : getPhys a sys.state c (v * pageSize) = (sys.abs c v).getD 0 := by
  obtain ⟨pfa, loc, pfaOk, represents, settled, -⟩ := Pfa.pageFrameAllocatorInit_spec sane
  cases init.symm.trans pfaOk
  have reached := Run.invariant_of_guard (I := fun sys => sys.Ok a ∧ sys.Agrees a) (G := fun sys op => op.Safe a sys)
    ⟨start_ok represents settled aligned, start_agrees s₀⟩ (fun _ _ _ h met taken => Sys.Ok.step h met taken) run safe
  obtain ⟨⟨place, own, inv, -⟩, agrees⟩ := reached.1
  rw [inv.getPhys_eq user rooted, agrees c v user]

/-! ### A full table -/

theorem descend_walked (cpu : Nat) (user : Bool) {t : Nat} (p : List Nat) {root : Nat}
    (walked : Radix.walk Entry.child st.tables root p = some t) : descend a cpu user st root p = .ok (some t, st) := by
  induction p generalizing root with
  | nil =>
    cases walked
    rfl
  | cons i rest ih =>
    obtain ⟨child, next, walked⟩ := bind_eq_some_iff.mp walked
    obtain ⟨e, entry, leads⟩ := bind_eq_some_iff.mp next
    have small : e.large = false ∧ e.addr = child := by
      rw [Entry.child] at leads
      split at leads
      · cases leads
      next no => exact ⟨by simpa using no, Option.some.inj leads⟩
    have ensured : levelEnsure a st cpu root i rest.isEmpty user = .ok (some child, st) := by
      simp only [levelEnsure, entry, small.1, small.2, Bool.false_eq_true, and_false, if_false]
      rfl
    rw [descend, bind_of_ok ensured]
    exact ih walked

theorem mapEntry_walked {c v t : Nat} (user : UserPage a v) (walked : pteWalk a st c (v * pageSize) = some t)
    (cpu pa : Nat) (prot : Prot) :
    mapEntry a st cpu c (v * pageSize) pa prot = .ok (setPte a st t (v * pageSize) pa prot) := by
  rw [pteWalk_eq user] at walked
  obtain ⟨r, root, walked⟩ := bind_eq_some_iff.mp walked
  have ensured : rootEnsure a st cpu c (v * pageSize) = .ok (some r, st) := by
    rw [rootEnsure, user.tableRoot, root]
    rfl
  rw [mapEntry, bind_of_ok ensured]
  show (descend a cpu prot.user st r (path a (v * pageSize)) >>= _) = _
  rw [bind_of_ok (descend_walked cpu prot.user _ walked)]
  rfl

theorem Sys.exec_map_abs {cpu c v pa : Nat} {prot : Prot}
    (ok : sys.exec a (.map cpu c v pa prot) = .ok sys') {d w : Nat}
    (other : ¬(d = c ∧ w = v)) : sys'.abs d w = sys.abs d w := by
  obtain ⟨⟨done, _⟩, -, ok⟩ := ok_of_bind ok
  cases done with
  | true =>
    cases ok
    exact if_neg other
  | false =>
    cases ok
    rfl

theorem i386_first {w : Nat} (low : w < 1024) :
    UserPage .i386 w ∧ path .i386 (w * pageSize) = path .i386 (0 * pageSize) ∧
    pteIndex .i386 (w * pageSize) = w := by
  refine ⟨?_, ?_, ?_⟩
  · simp only [UserPage, pageSize, Arch.userSpaceLimit]
    omega
  · have zero : dirIndex .i386 (w * pageSize) = dirIndex .i386 (0 * pageSize) := by
      simp only [dirIndex, index, levels, indexBits, entries, pageSize]
      omega
    simp [path, dirPath, levels, zero]
  · simp only [pteIndex, index, levels, indexBits, entries, pageSize]
    omega

/-- The first pages of context 0 are mapped to addresses behind the frames of the allocator. -/
structure Filled (sys : Sys) (n : Nat) : Prop where
  ok : sys.Ok .i386
  agrees : sys.Agrees .i386
  pos : 0 < n
  start : sys.state.frames.pfa.startAddr = 0x100000
  total : sys.state.frames.pfa.totalFrames = 8
  abs : ∀ w, w < 1024 → sys.abs 0 w = if w < n then some (0x400000 + w * pageSize) else none

/-- The call that maps one more page. -/
def nextMap (n : Nat) : Op := .map 0 0 n (0x400000 + n * pageSize) .userRw

theorem nextMap_legal (low : n < 1024) (start : sys.state.frames.pfa.startAddr = 0x100000)
    (total : sys.state.frames.pfa.totalFrames = 8) : sys.Legal .i386 (nextMap n) := by
  refine ⟨(i386_first low).1, ?_, fun lt => ?_⟩
  · simp only [maskAddr, pageSize]
    omega
  · simp only [frameOf, Pfa.pfaPhysToFrame, start, pageSize, Pfa.pageSize] at lt
    omega

theorem Filled.walked (h : Filled sys n) : ∃ t, ∀ w, w < 1024 → pteWalk .i386 sys.state 0 (w * pageSize) = some t ∧
      (sys.state.tables t w).isSome = decide (w < n) := by
  have user₀ := (i386_first (by omega : 0 < 1024)).1
  have entry₀ := h.agrees 0 0 user₀
  rw [h.abs 0 (by omega), if_pos h.pos] at entry₀
  cases walked : pteWalk .i386 sys.state 0 (0 * pageSize) with
  | none =>
    rw [entryAt, pte, walked] at entry₀
    cases entry₀
  | some t =>
    refine ⟨t, fun w low => ?_⟩
    obtain ⟨user, same, index⟩ := i386_first low
    have reached : pteWalk .i386 sys.state 0 (w * pageSize) = some t := by
      rw [pteWalk_eq user, same, ← pteWalk_eq user₀]
      exact walked
    refine ⟨reached, ?_⟩
    have entry := h.agrees 0 w user
    rw [entryAt_walked reached, index, h.abs w low] at entry
    rw [← isSome_map, entry]
    split
    next below => simp [below]
    next above => simp [above]

theorem State.countInc_frames (st : State) (t : Nat) : (st.countInc t).frames.pfa.startAddr = st.frames.pfa.startAddr ∧
      (st.countInc t).frames.pfa.totalFrames = st.frames.pfa.totalFrames := by
  simp only [State.countInc, Pfa.pageFramePtPresentCountInc]
  split <;> exact ⟨rfl, rfl⟩

theorem Filled.next (h : Filled sys n) (low : n < 1024) :
    ∃ sys', sys.step .i386 (nextMap n) sys' ∧ Filled sys' (n + 1) := by
  obtain ⟨user, -, index⟩ := i386_first low
  obtain ⟨t, inside⟩ := h.walked
  obtain ⟨walked, empty⟩ := inside n low
  have legal := nextMap_legal low h.start h.total
  have vacant : sys.state.tables t (pteIndex .i386 (n * pageSize)) = none := by
    rw [index]
    simpa using empty
  have ran := mapEntry_walked user walked 0 (0x400000 + n * pageSize) .userRw
  simp only [setPte, vacant] at ran
  have kept := State.countInc_frames (sys.state.setEntry t (pteIndex .i386 (n * pageSize))
    (some (page .i386 (0x400000 + n * pageSize) .userRw))) t
  obtain ⟨st', eq⟩ : ∃ st', ((sys.state.setEntry t (pteIndex .i386 (n * pageSize))
      (some (page .i386 (0x400000 + n * pageSize) .userRw))).countInc t) = st' := ⟨_, rfl⟩
  rw [eq] at ran kept
  have stepped : sys.exec .i386 (nextMap n) = .ok ⟨st', fun f => if frameOf sys.state (0x400000 + n * pageSize) = f then
      sys.mine f - 1 else sys.mine f, setPage sys.abs 0 n (some (0x400000 + n * pageSize))⟩ := by
    rw [nextMap, exec, bind_of_ok ran]
    rfl
  obtain ⟨ok', agrees'⟩ := h.ok.map h.agrees legal stepped
  refine ⟨_, ⟨legal, stepped⟩, ok', agrees', Nat.succ_pos n, kept.1.trans h.start, kept.2.trans h.total, fun w lt => ?_⟩
  show setPage sys.abs 0 n (some (0x400000 + n * pageSize)) 0 w = _
  rw [setPage, h.abs w lt]
  by_cases at_n : w = n
  · rw [if_pos ⟨rfl, at_n⟩, if_pos (by omega), at_n]
  · rw [if_neg (fun both => at_n both.2)]
    by_cases below : w < n
    · rw [if_pos below, if_pos (by omega)]
    · rw [if_neg below, if_neg (by omega)]

theorem Filled.fill (h : Filled sys 1) (pos : 0 < n) (low : n ≤ 1024) :
    ∃ es sys', Run (step .i386) sys es sys' ∧ Filled sys' n := by
  induction n with
  | zero => exact absurd pos (lt_irrefl 0)
  | succ n ih =>
    rcases Nat.eq_zero_or_pos n with rfl | more
    · exact ⟨[], sys, Run.start, h⟩
    · obtain ⟨es, sys₁, run, filled⟩ := ih more (by omega)
      obtain ⟨sys₂, taken, filled'⟩ := filled.next (by omega)
      exact ⟨_, sys₂, run.snoc taken, filled'⟩

theorem Filled.tableCount (h : Filled sys n) (low : n ≤ 1024) : tableCount .i386 sys.state 0 0 = n := by
  obtain ⟨t, inside⟩ := h.walked
  have range : present .i386 sys.state t = Finset.range n := by
    ext i
    simp only [present, Finset.mem_filter, Finset.mem_range]
    constructor
    · rintro ⟨lt, there⟩
      rw [(inside i lt).2] at there
      exact of_decide_eq_true there
    · intro lt
      have first : i < 1024 := by omega
      exact ⟨first, by rw [(inside i first).2]; exact decide_eq_true lt⟩
  simp only [Paging.tableCount, (inside 0 (by omega)).1, range, Finset.card_range]

theorem Filled.rooted (h : Filled sys n) : (sys.state.roots 0).isSome := by
  obtain ⟨t, inside⟩ := h.walked
  have walked := (inside 0 (by omega)).1
  rw [pteWalk_eq (i386_first (by omega)).1] at walked
  obtain ⟨r, root, -⟩ := bind_eq_some_iff.mp walked
  rw [root]
  rfl

theorem Filled.unmap_first (h : Filled sys n) (safe : ¬Loses .i386 sys.state 0 0) :
    ∃ sys', sys.step .i386 (.unmap 0 0 0) sys' ∧ (sys'.state.roots 0).isSome ∧ sys'.abs = setPage sys.abs 0 0 none := by
  obtain ⟨user, -, -⟩ := i386_first (by omega : 0 < 1024)
  obtain ⟨place, own, inv, -⟩ := h.ok
  obtain ⟨done, st', place', own', ran, -, took⟩ := inv.unmapEntry user 0 0 safe
  refine ⟨⟨st', sys.mine, setPage sys.abs 0 0 none⟩, ⟨user, ?_⟩, ?_, rfl⟩
  · rw [exec, bind_of_ok ran]
    rfl
  · rw [took.roots]
    exact h.rooted

/-- Of a table with 256 pages the counter says zero, and the unmap of one page unmaps them all. -/
theorem Filled.unmap_all (h : Filled sys 256) :
    ∃ sys', sys.step .i386 (.unmap 0 0 0) sys' ∧ (sys'.state.roots 0).isSome ∧
      sys'.abs 0 1 = some 0x401000 ∧ getPhys .i386 sys'.state 0 (1 * pageSize) = 0 := by
  obtain ⟨user, -, -⟩ := i386_first (by omega : 0 < 1024)
  obtain ⟨place, own, inv, -⟩ := h.ok
  obtain ⟨root, rooted⟩ := isSome_iff_exists.mp h.rooted
  have reached : lastDir .i386 sys.state 0 (0 * pageSize) = some root := by
    rw [lastDir_eq user, rooted]
    rfl
  obtain ⟨t, inside⟩ := h.walked
  obtain ⟨walked, there⟩ := inside 0 (by omega)
  obtain ⟨e, found, -⟩ : ∃ e, sys.state.tables root (dirIndex .i386 (0 * pageSize)) = some e ∧ e.child = some t := by
    rw [pteWalk_split user, reached] at walked
    exact bind_eq_some_iff.mp walked
  obtain ⟨f, at_t⟩ := inv.tableOf user reached found
  obtain ⟨old, mapped⟩ : ∃ old, entryAt .i386 sys.state 0 0 = some old := by
    rw [entryAt_walked walked]
    exact isSome_iff_exists.mp there
  obtain ⟨sys₁, sys₂, freed, counted, released, -, others, kept, counter⟩ := inv.releasePage user 0 at_t mapped
  obtain ⟨loc, inv₂⟩ := released.inv
  have phys : Pfa.framePhys sys₂.pfa f = e.addr := (framePhys_congr released.start f).trans at_t.frame.symm
  -- 256 entries count as none, so the table is given back with 255 of them.
  have zero : Pfa.pageFramePtPresentCountGet sys₂.pfa (e.addr % 2 ^ 32) = 0 := by
    rw [← phys, countGet_spec inv₂ (by rw [released.total]; exact inv.frame_lt at_t.one), counter,
      h.tableCount (by omega)]
    rfl
  obtain ⟨sys₃, sys₄, cleared, gone, -⟩ :=
    giveBack_spec inv₂ 0 ((kept f (others f _ (at_t.frame ▸ at_t.place))).trans at_t.one)
  rw [phys] at cleared gone
  have mid := congrArg (State.setEntry · e.addr (pteIndex .i386 (0 * pageSize)) none) counted
  obtain ⟨st', ran, roots, empty⟩ : ∃ st', unmapEntry .i386 sys.state 0 0 (0 * pageSize) = .ok (true, st') ∧
      st'.roots = sys.state.roots ∧ st'.tables root (dirIndex .i386 (0 * pageSize)) = none :=
    ⟨_, unmapEntry_present reached found at_t.small (at_t.entry ▸ mapped) freed mid
      (dropTable_drop user zero cleared gone), rfl, Radix.update_self⟩
  refine ⟨⟨st', sys.mine, setPage sys.abs 0 0 none⟩, ⟨user, by rw [exec, bind_of_ok ran]; rfl⟩, ?_, ?_, ?_⟩
  · rw [roots]
    exact h.rooted
  · show setPage sys.abs 0 0 none 0 1 = _
    rw [setPage, if_neg (by omega), h.abs 1 (by omega)]
    rfl
  · obtain ⟨user₁, -, -⟩ := i386_first (by omega : 1 < 1024)
    have reached' : lastDir .i386 st' 0 (1 * pageSize) = some root := by
      rw [lastDir_eq user₁, roots, rooted]
      rfl
    have index : dirIndex .i386 (1 * pageSize) = dirIndex .i386 (0 * pageSize) := by decide
    simp only [getPhys, user₁.tableRoot, roots, rooted, reached', bind_some, index, empty]

theorem first_filled : ∃ s₀ sys, Pfa.pageFrameAllocatorInit Pfa.smallBoot = .ok s₀ ∧ pageSize ∣ s₀.startAddr ∧
    (start s₀).step .i386 (nextMap 0) sys ∧ Filled sys 1 := by
  obtain ⟨s₀, loc, init, represents, settled, -⟩ := Pfa.pageFrameAllocatorInit_spec Pfa.smallBoot_sane
  have values : ((Pfa.pageFrameAllocatorInit Pfa.smallBoot).bind fun s => (start s).exec .i386 (nextMap 0)).map
      (fun sys => (sys.abs 0 0, sys.state.frames.pfa.startAddr, sys.state.frames.pfa.totalFrames)) =
        .ok (some 0x400000, 0x100000, 8) := by
    decide +kernel
  have boots : (Pfa.pageFrameAllocatorInit Pfa.smallBoot).map (fun s => (s.startAddr, s.totalFrames)) =
      .ok (0x100000, 8) := by
    decide +kernel
  rw [init] at values boots
  obtain ⟨sys, ran, value⟩ := exists_ok_of_map values
  have start₀ : s₀.startAddr = 0x100000 ∧ s₀.totalFrames = 8 := by
    rw [← Prod.mk.injEq]
    exact Except.ok.inj boots
  simp only [Prod.mk.injEq] at value
  have aligned : pageSize ∣ s₀.startAddr := by
    rw [start₀.1]
    exact ⟨256, rfl⟩
  have legal : (start s₀).Legal .i386 (nextMap 0) := nextMap_legal (by omega) start₀.1 start₀.2
  obtain ⟨ok, agrees⟩ := (start_ok represents settled aligned).map (start_agrees s₀) legal ran
  refine ⟨s₀, sys, init, aligned, ⟨legal, ran⟩, ok, agrees, one_pos, value.2.1, value.2.2, fun w _ => ?_⟩
  by_cases zero : w = 0
  · rw [zero, value.1]
    rfl
  · rw [exec_map_abs ran fun both => zero both.2, if_neg (by omega)]
    rfl

/-- 256 pages in one table, then the unmap of the first: the second has lost its translation. -/
theorem getPhys_lost : ∃ s₀ es sys, Pfa.pageFrameAllocatorInit Pfa.smallBoot = .ok s₀ ∧
    Run (Sys.step .i386) (Sys.start s₀) es sys ∧ (sys.state.roots 0).isSome ∧
    sys.abs 0 1 = some 0x401000 ∧ getPhys .i386 sys.state 0 (1 * pageSize) = 0 := by
  obtain ⟨s₀, sys₁, init, -, first, one⟩ := first_filled
  obtain ⟨es, sys₂, fills, full⟩ := one.fill (by omega : 0 < 256) (by omega)
  obtain ⟨sys₃, last, lost⟩ := full.unmap_all
  exact ⟨s₀, _, sys₃, init, (fills.snoc last).cons first, lost⟩

/-- Two pages mapped and the first unmapped: the second keeps its translation. -/
theorem getPhys_kept : ∃ s₀ es sys, Pfa.pageFrameAllocatorInit Pfa.smallBoot = .ok s₀ ∧
    Run (Sys.step .i386) (Sys.start s₀) es sys ∧ (∀ e ∈ es, e.2.Safe .i386 e.1) ∧
    getPhys .i386 sys.state 0 (1 * pageSize) = 0x401000 ∧ getPhys .i386 sys.state 0 (0 * pageSize) = 0 := by
  obtain ⟨s₀, sys₁, init, aligned, first, one⟩ := first_filled
  obtain ⟨sys₂, second, two⟩ := one.next (by omega)
  obtain ⟨user, -, -⟩ := i386_first (by omega : 0 < 1024)
  obtain ⟨user₁, -, -⟩ := i386_first (by omega : 1 < 1024)
  have safe : ¬Loses .i386 sys₂.state 0 0 := by
    rintro ⟨⟨-, drops⟩, -⟩
    rw [two.tableCount (by omega)] at drops
    split at drops <;> omega
  obtain ⟨sys₃, third, rooted, abs⟩ := two.unmap_first safe
  have run := ((Run.start.snoc first).snoc second).snoc third
  have all_safe : ∀ e ∈ (([] ++ [(start s₀, nextMap 0)]) ++ [(sys₁, nextMap 1)]) ++ [(sys₂, .unmap 0 0 0)],
      e.2.Safe .i386 e.1 := by
    simp only [List.nil_append, List.cons_append, List.forall_mem_cons]
    exact ⟨trivial, trivial, safe, nofun⟩
  refine ⟨s₀, _, sys₃, init, run, all_safe, ?_, ?_⟩
  · rw [getPhys_of_run Pfa.smallBoot_sane init aligned run all_safe user₁ rooted, abs, setPage, if_neg (by omega),
      two.abs 1 (by omega)]
    rfl
  · rw [getPhys_of_run Pfa.smallBoot_sane init aligned run all_safe user rooted, abs, setPage, if_pos ⟨rfl, rfl⟩]
    rfl

/-! ### Protections and frames -/

/-- A change of an entry that keeps its address. -/
theorem Sys.Ok.modPte (h : sys.Ok a ∧ sys.Agrees a) {c v : Nat} (user : UserPage a v) {g : Entry → Entry}
    (keeps : ∀ e, (g e).addr = e.addr) (eq : sys' = { sys with state := modPte a sys.state c (v * pageSize) g }) :
    sys'.Ok a ∧ sys'.Agrees a := by
  unfold Paging.modPte at eq
  split at eq
  · exact eq ▸ h
  next t walked =>
    split at eq
    · exact eq ▸ h
    next e found =>
      have entry := (entryAt_walked walked).trans found
      obtain ⟨⟨place, own, inv, mine⟩, agrees⟩ := h
      subst eq
      refine ⟨⟨place, own, inv.setLeaf user walked (some (g e)) (.refl inv.alloc Pfa.noFrame)
        (fun _ => rfl) (fun _ _ => id)
        (fun f at_t n sum => ?_) fun f _ => ?_, mine⟩, fun d w user' => ?_⟩
      · rw [entry, isSome_some, isSome_some, Nat.add_right_cancel_iff] at sum
        rw [sum, ← at_t]
        exact inv.count (at_t ▸ inv.place_pteWalk user walked) (path_length a _)
      · rw [entry, add_right_comm, add_comm (own f)]
        simp [maps, keeps]
      · rw [← agrees d w user']
        refine (congrArg _ (inv.entryAt_setLeaf user walked (by rfl) (by rfl) user')).trans ?_
        split
        next here => rw [here.1, here.2, entry, map_some, map_some, keeps]
        · rfl

/-- The calls, with those that change the protection of a page. -/
inductive Call
  | entry (op : Op)
  | changeFlags (c v : Nat) (prot : Prot)
  | makeRo (c v : Nat)

def Sys.call (a : Arch) (sys : Sys) : Call → Sys → Prop
  | .entry op, sys' => sys.step a op sys'
  | .changeFlags c v prot, sys' =>
    UserPage a v ∧ sys' = { sys with state := changeFlagsEntry a sys.state c (v * pageSize) prot }
  | .makeRo c v, sys' => UserPage a v ∧ sys' = { sys with state := pteMakeRo a sys.state c (v * pageSize) }

def Call.Safe (a : Arch) (sys : Sys) : Call → Prop
  | .entry op => op.Safe a sys
  | _ => True

theorem Sys.Ok.call {call : Call} (h : sys.Ok a ∧ sys.Agrees a) (safe : call.Safe a sys)
    (taken : sys.call a call sys') :
    sys'.Ok a ∧ sys'.Agrees a := by
  cases call with
  | entry op => exact Sys.Ok.step h safe taken
  | changeFlags c v prot => exact Sys.Ok.modPte h taken.1 (fun e => by split <;> rfl) taken.2
  | makeRo c v => exact Sys.Ok.modPte h taken.1 (fun _ => by rfl) taken.2

/-- In every run whose unmaps are safe, changes of protections included, the translations are those
of the finite map, every page that maps a frame and every caller has a reference to it, and no page
maps a table on the way to a page. -/
theorem calls_of_run {b : Pfa.Boot} (sane : b.Sane) {s₀ : Pfa.State} (init : Pfa.pageFrameAllocatorInit b = .ok s₀)
    (aligned : pageSize ∣ s₀.startAddr) {es : List (Sys × Call)} (run : Run (Sys.call a) (start s₀) es sys)
    (safe : ∀ e ∈ es, e.2.Safe a e.1) :
    (∀ c v, UserPage a v → (sys.state.roots c).isSome → getPhys a sys.state c (v * pageSize) = (sys.abs c v).getD 0) ∧
    (∀ f < sys.state.frames.pfa.totalFrames, (mapped a sys.state f).Finite ∧
      sys.mine f + (mapped a sys.state f).ncard ≤ sys.state.frames.refs f) ∧
    ∀ c v r p q t, UserPage a v → sys.state.roots c = some r → path a (v * pageSize) = p ++ q →
      Radix.walk child sys.state.tables r p = some t → mapped a sys.state (frameOf sys.state t) = ∅ := by
  obtain ⟨pfa, loc, pfaOk, represents, settled, -⟩ := Pfa.pageFrameAllocatorInit_spec sane
  cases init.symm.trans pfaOk
  have reached := Run.invariant_of_guard (I := fun sys => sys.Ok a ∧ sys.Agrees a)
    (G := fun sys call => call.Safe a sys)
    ⟨start_ok represents settled aligned, start_agrees s₀⟩ (fun _ _ _ => Sys.Ok.call) run safe
  obtain ⟨⟨place, own, inv, mine⟩, agrees⟩ := reached.1
  refine ⟨fun c v user rooted => ?_, fun f lt => ?_, fun c v r p q t user root way walked => ?_⟩
  · rw [inv.getPhys_eq user rooted, agrees c v user]
  · obtain ⟨finite, sum⟩ := inv.acct f lt
    have := mine f
    exact ⟨finite, by omega⟩
  · -- a table has the one reference that its frame has
    have covered : UserPath a (p ++ q) := way ▸ user.path
    have placed := inv.place_walk root (UserPath.closed a p q covered) walked
    obtain ⟨f, rfl, one⟩ := inv.held placed
    obtain ⟨loc, alloc⟩ := inv.alloc
    have lt := inv.frame_lt one
    rw [frameOf, phys_mod alloc lt, Pfa.pfaPhysToFrame_framePhys alloc.represents lt]
    obtain ⟨finite, sum⟩ := inv.acct f lt
    rw [placed, one, isSome_some, Bool.toNat_true] at sum
    exact (Set.ncard_eq_zero finite).mp (by omega)

/-- A page that is made read-only keeps its translation. -/
theorem read_only_page : ∃ s₀ es sys, Pfa.pageFrameAllocatorInit Pfa.smallBoot = .ok s₀ ∧
    Run (Sys.call .i386) (start s₀) es sys ∧ getPhys .i386 sys.state 0 (0 * pageSize) = 0x400000 := by
  obtain ⟨s₀, sys, init, aligned, first, one⟩ := first_filled
  have user := (i386_first (by omega : 0 < 1024)).1
  have mapped : Sys.call .i386 (start s₀) (.entry (nextMap 0)) sys := first
  have closed : Sys.call .i386 sys (.makeRo 0 0) _ := ⟨user, rfl⟩
  have run := (Run.start.snoc mapped).snoc closed
  have rooted : ((pteMakeRo .i386 sys.state 0 (0 * pageSize)).roots 0).isSome := by
    unfold pteMakeRo modPte
    split <;> [skip; split] <;> exact one.rooted
  refine ⟨s₀, _, _, init, run, ?_⟩
  rw [(calls_of_run Pfa.smallBoot_sane init aligned run (by simp [Call.Safe, nextMap, Op.Safe])).1 0 0 user rooted]
  exact congrArg (getD · 0) (one.abs 0 (by omega))

end Jlos.Paging
