import Jlos.Paging.Invariant

/-!
# Mapping and unmapping one page

The specifications of `jlos_arch_map_entry` and `jlos_arch_unmap_entry` on user pages. An unmap
gives the table back when its counter is zero, whatever the table still holds.
-/
namespace Jlos.Paging

open Lib Function List Option BitVec Entry Pfa
open Pfa (framePhys SysInv Loc pfaPhysToFrame)

variable {a : Arch} {st st' : State} {place : Nat → Option (Nat × List Nat)} {own : Nat → Nat}
  {loc : Nat → Loc} {f c : Nat}
  {v : Nat} {sys frames' : Pfa.Sys} {old e : Entry}

/-! ### Frames that are tables -/

theorem phys_mod (inv : SysInv sys loc)
    (lt : f < sys.pfa.totalFrames) : framePhys sys.pfa f % 2 ^ 32 = framePhys sys.pfa f := by
  refine Nat.mod_eq_of_lt (lt_of_lt_of_le ?_ inv.represents.in_phys)
  exact Nat.add_lt_add_left (Nat.mul_lt_mul_of_pos_right lt (by decide)) _

theorem setCount (inv : SysInv sys loc) (held : 0 < sys.refs f) (n : BitVec 8) {s' : Pfa.State}
    (eq : s' = sys.pfa.modPage f fun pg => { pg with ptPresentCount := n }) :
    sys.Moves { sys with pfa := s' } (· = f) ∧ (s'.pages f).ptPresentCount = n := by
  subst eq
  obtain ⟨inv', leaves, page⟩ := inv.modHeld held (g := fun pg => { pg with ptPresentCount := n }) rfl rfl rfl
  exact ⟨inv'.moves leaves, by rw [page]⟩

theorem tag_spec (inv : SysInv st.frames loc) (held : 0 < st.frames.refs f) :
    ∃ frames', st.tag (framePhys st.frames.pfa f) = .ok { st with frames := frames' } ∧
      st.frames.Moves frames' (· = f) ∧ frames'.refs = st.frames.refs ∧ (frames'.pfa.pages f).ptPresentCount = 0 := by
  have lt := (inv.held f held).1
  obtain ⟨sys, run, inv', leaves, refs, -⟩ := inv.setOwnerType held 0 .pageTable
  have frame : pfaPhysToFrame sys.pfa (framePhys st.frames.pfa f) = f := by
    rw [← leaves.framePhys f]
    exact pfaPhysToFrame_framePhys inv'.represents (by rw [leaves.total]; exact lt)
  have held' : 0 < sys.refs f := by rwa [refs]
  have counted : pageFramePtPresentCountSet sys.pfa (framePhys st.frames.pfa f) 0 =
      sys.pfa.modPage f fun pg => { pg with ptPresentCount := 0 } := by
    simp [pageFramePtPresentCountSet, frame, leaves.total, if_neg (Nat.not_le.mpr lt)]
  obtain ⟨moves, count⟩ := setCount inv' held' 0 counted
  refine ⟨{ sys with pfa := pageFramePtPresentCountSet sys.pfa (framePhys st.frames.pfa f) 0 }, ?_,
    (inv'.moves leaves).trans moves fun i ne pos => ⟨ne, ne, by rwa [refs]⟩, refs, count⟩
  simp only [State.tag, phys_mod inv lt, run, ok_bind]
  rfl

theorem tag_if (st : State) (inv : SysInv st.frames loc) (held : 0 < st.frames.refs f)
    (b : Prop) [Decidable b] {t : Nat} (at_f : t = framePhys st.frames.pfa f) :
    ∃ frames', (if b then st.tag t else pure st) = .ok { st with frames := frames' } ∧
      st.frames.Moves frames' (· = f) ∧ frames'.refs = st.frames.refs ∧
      (b → (frames'.pfa.pages f).ptPresentCount = 0) := by
  subst at_f
  by_cases yes : b
  · obtain ⟨frames', ok, moves, refs, count⟩ := tag_spec inv held
    exact ⟨frames', by rw [if_pos yes, ok], moves, refs, fun _ => count⟩
  · exact ⟨st.frames, by rw [if_neg yes]; rfl, .refl ⟨loc, inv⟩ _, rfl, fun b => absurd b yes⟩

/-! ### Ensuring the tables of a path -/

/-- No translation of a user page has changed. -/
structure Quiet (a : Arch) (st st' : State) : Prop where
  total : st'.frames.pfa.totalFrames = st.frames.pfa.totalFrames
  start : st'.frames.pfa.startAddr = st.frames.pfa.startAddr
  same : ∀ d w, UserPage a w → entryAt a st' d w = entryAt a st d w

theorem Quiet.trans {st st'' : State} (h : Quiet a st st') (h' : Quiet a st' st'') : Quiet a st st'' :=
  ⟨h'.total.trans h.total, h'.start.trans h.start, fun d w user => (h'.same d w user).trans (h.same d w user)⟩

theorem Quiet.of_frames {R : Nat → Prop} (moves : st.frames.Moves frames' R) :
    Quiet a st { st with frames := frames' } :=
  ⟨moves.total, moves.start, fun _ _ user => entryAt_congr rfl rfl user⟩

theorem Inv.refused (h : Inv a st place own) (moves : st.frames.Moves frames' noFrame)
    (refs : frames'.refs = st.frames.refs) : Inv a { st with frames := frames' } place own :=
  h.reframe { st with frames := frames' } moves
    (fun placed => ⟨by rw [refs], h.counts_of_moves moves placed id⟩) (fun f _ => by rw [refs, add_comm]) rfl rfl

theorem Inv.levelEnsure (h : Inv a st place own) {r parent i : Nat} {p : List Nat} (cpu : Nat) {last : Bool}
    (user : Bool) (root : st.roots c = some r) (reach : Radix.walk child st.tables r p = some parent)
    (inner : UserPath a (p ++ [i])) (leaf : p.length + 2 = levels a → last = true) :
    ∃ result st' place', levelEnsure a st cpu parent i last user = .ok (result, st') ∧ Inv a st' place' own ∧
      Quiet a st st' ∧ st'.roots = st.roots ∧
      ∀ t, result = some t → Radix.walk child st'.tables r (p ++ [i]) = some t := by
  have closed := UserPath.closed a
  have at_parent := h.place_walk root (closed _ _ inner) reach
  cases found : st.tables parent i with
  | some e =>
    have small := h.small at_parent inner found
    refine ⟨some e.addr, st, place, ?_, h, ⟨rfl, rfl, fun _ _ _ => rfl⟩, rfl, fun t eq => ?_⟩
    · simp only [Paging.levelEnsure, found, small, Bool.false_eq_true, and_false, if_false]
      rfl
    · cases eq
      rw [Radix.walk_append, reach]
      simp [Radix.walk, found, child, small]
  | none =>
    obtain ⟨loc, inv⟩ := h.alloc
    obtain ⟨result, frames', run, moves, outcome⟩ := inv.grab cpu
    rcases outcome with ⟨rfl, refs⟩ | ⟨f, rfl, lt, unheld, refs⟩
    · refine ⟨none, { st with frames := frames' }, place, ?_, h.refused moves refs, .of_frames moves, rfl, by simp⟩
      simp [Paging.levelEnsure, found, tableAlloc, run, ok_bind, pure, Except.pure]
    · obtain ⟨t, at_f⟩ : ∃ t, t = framePhys st.frames.pfa f := ⟨_, rfl⟩
      have apart : parent ≠ t := fun same => by
        rw [same, at_f, h.place_unheld unheld] at at_parent
        cases at_parent
      set T := update st.tables t fun _ => none with hT
      obtain ⟨loc', inv'⟩ := moves.inv
      have held : 0 < frames'.refs f := by rw [refs, if_pos rfl]; exact one_pos
      set hung : State := { st with frames := frames', tables := Radix.update T parent i (some (table a t user)) }
      obtain ⟨frames'', tag, moves', refs', count⟩ : ∃ frames'', _ :=
        tag_if hung inv' held (a = .arm64 ∨ last = true) (at_f.trans (framePhys_congr moves.start f).symm)
      -- first the empty table, then the entry that leads to it
      have present_none : ∀ st' : State, st'.tables = T → present a st' t = ∅ := fun st' eq => by
        simp [present, eq, hT]
      have both : st.frames.Moves frames'' (· = f) :=
        moves.trans moves' fun g ne pos => ⟨id, ne, by rw [refs, if_neg ne]; exact pos⟩
      obtain ⟨made, translations, orphan⟩ := h.newTable { st with frames := frames'', tables := T }
        (x := (c, p ++ [i])) inner unheld at_f both (fun g => by rw [refs', refs]) (fun isLeaf => by
          have short : p.length + 2 = levels a := by simpa using isLeaf
          rw [count (.inr (leaf short)), present_none _ rfl]
          rfl)
        rfl rfl fun _ _ => rfl
      obtain ⟨linked, translations', walked⟩ := made.link { hung with frames := frames'' } root
        ((h.forest.walk_fresh closed _ (at_f ▸ h.place_unheld unheld) p (h.root root) (closed _ _ inner)).trans reach)
        inner ((congrFun (update_of_ne apart ..) i).trans found)
        (update_self ..) (fun j => by simp [hT]) orphan rfl rfl rfl
      refine ⟨some t, { hung with frames := frames'' }, _, ?_, linked,
        ⟨both.total, both.start, fun d w user' => (translations' d w user').trans (translations d w user')⟩, rfl,
        fun t' eq => ?_⟩
      · simp only [Paging.levelEnsure, found, tableAlloc, run, ← at_f, ok_bind, pure, Except.pure]
        change ((if a = .arm64 ∨ last = true then hung.tag t else pure hung) >>= fun v => pure (some t, v)) = _
        rw [tag]
        rfl
      · cases eq
        exact walked

theorem Inv.descend {r : Nat} (cpu : Nat) (user : Bool) (q : List Nat) :
    ∀ {st : State} {place : Nat → Option (Nat × List Nat)} {t : Nat} {p : List Nat}, Inv a st place own →
      st.roots c = some r → Radix.walk child st.tables r p = some t → UserPath a (p ++ q) →
      (p ++ q).length + 1 = levels a →
      ∃ result st' place', descend a cpu user st t q = .ok (result, st') ∧ Inv a st' place' own ∧ Quiet a st st' ∧
        st'.roots = st.roots ∧ ∀ u, result = some u → Radix.walk child st'.tables r (p ++ q) = some u := by
  induction q with
  | nil =>
    intro st place t p h _ reach _ _
    refine ⟨some t, st, place, rfl, h, ⟨rfl, rfl, fun _ _ _ => rfl⟩, rfl, fun u eq => ?_⟩
    cases eq
    rwa [append_nil]
  | cons i q ih =>
    intro st place t p h root reach covered full
    have split : p ++ i :: q = (p ++ [i]) ++ q := by simp
    rw [split] at covered full ⊢
    have leaf : p.length + 2 = levels a → q.isEmpty = true := fun eq => by
      simp only [length_append, length_singleton] at full
      rw [List.isEmpty_iff, ← List.length_eq_zero_iff]
      omega
    obtain ⟨result, st₁, place₁, run, inv, quiet, roots, reached⟩ :=
      h.levelEnsure cpu user root reach (UserPath.closed a _ _ covered) leaf
    cases result with
    | none =>
      refine ⟨none, st₁, place₁, ?_, inv, quiet, roots, nofun⟩
      simp only [Paging.descend, run, ok_bind]
      rfl
    | some u =>
      obtain ⟨result, st', place', run', inv', quiet', roots', reached'⟩ :=
        ih inv (roots ▸ root) (reached u rfl) covered full
      refine ⟨result, st', place', ?_, inv', quiet.trans quiet', roots'.trans roots, reached'⟩
      simp only [Paging.descend, run, ok_bind]
      exact run'

theorem Inv.rootEnsure (h : Inv a st place own) (cpu c : Nat) (user : UserPage a v) :
    ∃ result st' place', rootEnsure a st cpu c (v * pageSize) = .ok (result, st') ∧ Inv a st' place' own ∧
      Quiet a st st' ∧ st'.roots c = result := by
  cases root : st.roots c with
  | some r =>
    refine ⟨some r, st, place, ?_, h, ⟨rfl, rfl, fun _ _ _ => rfl⟩, root⟩
    simp only [Paging.rootEnsure, user.tableRoot, root]
    rfl
  | none =>
    obtain ⟨loc, inv⟩ := h.alloc
    obtain ⟨result, frames', run, moves, outcome⟩ := inv.grab cpu
    rcases outcome with ⟨rfl, refs⟩ | ⟨f, rfl, lt, unheld, refs⟩
    · have kept : update st.roots c none = st.roots := by rw [← root, update_eq_self]
      refine ⟨none, { st with frames := frames' }, place, ?_, h.refused moves refs, .of_frames moves, root⟩
      simp [Paging.rootEnsure, user.tableRoot, root, if_neg user.low, tableAlloc, run, ok_bind, pure, Except.pure, kept]
    · obtain ⟨t, at_f⟩ : ∃ t, t = framePhys st.frames.pfa f := ⟨_, rfl⟩
      set T := update st.tables t fun _ => none with hT
      have top : UserPath a [] := ⟨by cases a <;> decide, nofun, nofun⟩
      obtain ⟨made, translations, -⟩ := h.newTable { st with frames := frames', tables := T } (x := (c, []))
        top unheld at_f (moves.trans (.refl moves.inv _) fun g ne pos => ⟨id, ne, by rw [refs, if_neg ne]; exact pos⟩)
        refs (fun isLeaf => by cases a <;> cases isLeaf) rfl rfl fun _ _ => rfl
      obtain ⟨linked, translations'⟩ :=
        made.linkRoot { st with frames := frames', tables := T, roots := update st.roots c (some t) } root
          (update_self ..) (fun j _ => by simp [hT]) rfl rfl rfl
      refine ⟨some t, _, _, ?_, linked, ⟨moves.total, moves.start,
        fun d w user' => (translations' d w user').trans (translations d w user')⟩, update_self ..⟩
      simp [Paging.rootEnsure, user.tableRoot, root, if_neg user.low, tableAlloc, run, ← at_f,
        ok_bind, pure, Except.pure, hT]

/-! ### Mapping -/

theorem countInc_spec (st : State) (inv : SysInv st.frames loc) (held : 0 < st.frames.refs f) :
    ∃ frames', st.countInc (framePhys st.frames.pfa f) = { st with frames := frames' } ∧
      st.frames.Moves frames' (· = f) ∧ frames'.refs = st.frames.refs ∧
      (frames'.pfa.pages f).ptPresentCount = (st.frames.pfa.pages f).ptPresentCount + 1 := by
  have lt := (inv.held f held).1
  have counted : pageFramePtPresentCountInc st.frames.pfa (framePhys st.frames.pfa f) =
      st.frames.pfa.modPage f fun pg =>
        { pg with ptPresentCount := (st.frames.pfa.pages f).ptPresentCount + 1 } := by
    simp only [pageFramePtPresentCountInc, pfaPhysToFrame_framePhys inv.represents lt,
      if_neg (Nat.not_le.mpr lt)]
    rfl
  obtain ⟨moves, count⟩ := setCount inv held _ counted
  refine ⟨_, ?_, moves, rfl, count⟩
  simp only [State.countInc, phys_mod inv lt]

/-- What a successful map of a page leaves behind. -/
structure Mapped (a : Arch) (st st' : State) (c v : Nat) (e : Entry) : Prop where
  total : st'.frames.pfa.totalFrames = st.frames.pfa.totalFrames
  start : st'.frames.pfa.startAddr = st.frames.pfa.startAddr
  before : entryAt a st c v = none
  same : ∀ d w, UserPage a w → entryAt a st' d w = if d = c ∧ w = v then some e else entryAt a st d w

/-- The entry of a page goes into its table unless there is one. -/
theorem Inv.setPte (h : Inv a st place own) {t : Nat} (user : UserPage a v)
    (walked : pteWalk a st c (v * pageSize) = some t) (pa : Nat) (prot : Prot)
    (owned : ∀ f, f < st.frames.pfa.totalFrames → frameOf st (maskAddr a pa) = f → 0 < own f) :
    Paging.setPte a st t (v * pageSize) pa prot = (false, st) ∨
      ∃ st', Paging.setPte a st t (v * pageSize) pa prot = (true, st') ∧ Mapped a st st' c v (page a pa prot) ∧
        Inv a st' place fun f => own f - maps st f (some (page a pa prot)) := by
  have entry := entryAt_walked walked
  cases found : st.tables t (pteIndex a (v * pageSize)) with
  | some e =>
    exact .inl (by simp [Paging.setPte, found])
  | none =>
    right
    rw [found] at entry
    have at_t := h.place_pteWalk user walked
    obtain ⟨f, at_f, one⟩ := h.held at_t
    obtain ⟨loc, inv⟩ := h.alloc
    set filled := st.setEntry t (pteIndex a (v * pageSize)) (some (page a pa prot)) with hfilled
    have held : 0 < filled.frames.refs f := by
      change 0 < st.frames.refs f
      rw [one]
      exact one_pos
    obtain ⟨frames', counted, moves, refs, count⟩ := countInc_spec filled inv held
    have result : Paging.setPte a st t (v * pageSize) pa prot = (true, { filled with frames := frames' }) := by
      have phys : framePhys filled.frames.pfa f = t := at_f.symm
      rw [phys] at counted
      simp [Paging.setPte, found, ← hfilled, counted]
    have kept : Inv a ({ st with frames := frames' }.setEntry t (pteIndex a (v * pageSize))
        (some (page a pa prot))) place fun g => own g - maps st g (some (page a pa prot)) := by
      refine h.setLeaf user walked _ moves (fun _ => by rw [refs]; rfl)
        (fun _ ne same => ne (by rw [same, at_f])) (fun g at_g n sum => ?_) fun g lt => ?_
      · rw [framePhys_inj (at_g.trans at_f), count]
        rw [entry] at sum
        simp only [isSome_none, isSome_some, Bool.toNat_false, Bool.toNat_true, add_zero] at sum
        rw [sum, ofNat_add]
        congr 1
        have := h.count (f := f) (by rw [← at_f]; exact at_t) (path_length a _)
        rw [← at_f] at this
        exact this
      · rw [entry, refs]
        -- The caller gives up the reference that the entry now has.
        have covered : maps st g (some (page a pa prot)) ≤ own g := by
          by_cases hit : frameOf st (page a pa prot).addr = g
          · rw [maps_hit hit]
            exact owned g lt hit
          · rw [maps_miss hit]
            exact Nat.zero_le _
        rw [maps_none, Nat.sub_add_cancel covered, add_zero, add_comm]
        rfl
    refine ⟨{ filled with frames := frames' }, result, ⟨moves.total, moves.start, entry, fun d w user' => ?_⟩, kept⟩
    exact h.entryAt_setLeaf user walked (by rfl) (by rfl) user'

theorem Inv.mapEntry (h : Inv a st place own) (cpu c : Nat) (user : UserPage a v) (pa : Nat) (prot : Prot)
    (owned : ∀ f, f < st.frames.pfa.totalFrames → frameOf st (maskAddr a pa) = f → 0 < own f) :
    ∃ done st' place', Paging.mapEntry a st cpu c (v * pageSize) pa prot = .ok (done, st') ∧
      if done then Mapped a st st' c v (page a pa prot) ∧
        Inv a st' place' fun f => own f - maps st f (some (page a pa prot))
      else Quiet a st st' ∧ Inv a st' place' own := by
  obtain ⟨result, st₁, place₁, run₁, inv₁, quiet₁, root₁⟩ := h.rootEnsure cpu c user
  cases result with
  | none =>
    refine ⟨false, st₁, place₁, ?_, quiet₁, inv₁⟩
    simp only [Paging.mapEntry, run₁, ok_bind]
    rfl
  | some r =>
    obtain ⟨result, st₂, place₂, run₂, inv₂, quiet₂, roots₂, reached⟩ :=
      inv₁.descend cpu prot.user (path a (v * pageSize)) (p := []) root₁ rfl user.path (path_length a _)
    have quiet := quiet₁.trans quiet₂
    cases result with
    | none =>
      refine ⟨false, st₂, place₂, ?_, quiet, inv₂⟩
      simp only [Paging.mapEntry, run₁, run₂, ok_bind]
      rfl
    | some t =>
      have walked : pteWalk a st₂ c (v * pageSize) = some t := by
        rw [pteWalk_eq user, roots₂, root₁]
        exact reached t rfl
      -- The tables on the way are built without a change of any translation.
      have frames : ∀ addr, frameOf st₂ addr = frameOf st addr := fun addr => by
        simp [frameOf, pfaPhysToFrame, quiet.start]
      have ran : Paging.mapEntry a st cpu c (v * pageSize) pa prot = .ok
        (Paging.setPte a st₂ t (v * pageSize) pa prot) := by
        simp only [Paging.mapEntry, run₁, run₂, ok_bind]
        rfl
      rcases inv₂.setPte user walked pa prot (by rw [quiet.total]; intro f; rw [frames]; exact owned f) with
        failed | ⟨st', set, mapped, inv'⟩
      · exact ⟨false, st₂, place₂, by rw [ran, failed], quiet, inv₂⟩
      · refine ⟨true, st', place₂, by rw [ran, set],
          ⟨mapped.total.trans quiet.total, mapped.start.trans quiet.start, ?_, fun d w user' => ?_⟩, ?_⟩
        · rw [← quiet.same c v user, mapped.before]
        · rw [mapped.same d w user', quiet.same d w user']
        · have same : ∀ f, maps st₂ f (some (page a pa prot)) = maps st f (some (page a pa prot)) :=
            fun f => by simp [maps, frames]
          simpa only [same] using inv'

/-! ### Unmapping -/

theorem countDec_eq {s : Pfa.State} {phys : Nat} (frame : pfaPhysToFrame s phys = f) (lt : f < s.totalFrames) :
    pageFramePtPresentCountDec s phys = s.modPage f fun pg => { pg with ptPresentCount :=
      if (s.pages f).ptPresentCount = 0 then 0 else (s.pages f).ptPresentCount - 1 } := by
  by_cases zero : (s.pages f).ptPresentCount = 0
  · have same : { s.pages f with ptPresentCount := 0 } = s.pages f := by rw [← zero]
    simp only [pageFramePtPresentCountDec, frame, zero, ne_eq, not_true_eq_false, and_false, if_false, if_true,
      Pfa.State.modPage, same, update_eq_self]
  · simp only [pageFramePtPresentCountDec, frame, if_pos (And.intro lt zero), if_neg zero]
    rfl

theorem countDec_spec (st : State) (inv : SysInv st.frames loc) (held : 0 < st.frames.refs f) :
    ∃ frames', st.countDec (framePhys st.frames.pfa f) = { st with frames := frames' } ∧
      st.frames.Moves frames' (· = f) ∧ frames'.refs = st.frames.refs ∧ (frames'.pfa.pages f).ptPresentCount =
        if (st.frames.pfa.pages f).ptPresentCount = 0 then 0 else (st.frames.pfa.pages f).ptPresentCount - 1 := by
  have lt := (inv.held f held).1
  obtain ⟨s', counted⟩ : ∃ s', pageFramePtPresentCountDec st.frames.pfa (framePhys st.frames.pfa f) = s' :=
    ⟨_, rfl⟩
  obtain ⟨moves, count⟩ :=
    setCount inv held _ (counted.symm.trans (countDec_eq (pfaPhysToFrame_framePhys inv.represents lt) lt))
  refine ⟨{ st.frames with pfa := s' }, ?_, moves, rfl, count⟩
  simp only [State.countDec, phys_mod inv lt, counted]

theorem clearOwnerType_spec (inv : SysInv sys loc) (held : 0 < sys.refs f) :
    ∃ sys', sys.clearOwnerType (framePhys sys.pfa f % 2 ^ 32) = .ok sys' ∧ sys.Moves sys' (· = f) ∧
      sys'.refs = sys.refs := by
  obtain ⟨sys', run, inv', leaves, refs, -⟩ := inv.setOwnerType held 0 .free
  rw [phys_mod inv (inv.held f held).1]
  exact ⟨sys', run, inv'.moves leaves, refs⟩

theorem giveBack_spec (inv : SysInv sys loc) (cpu : Nat) (one : sys.refs f = 1) :
    ∃ sys₁ sys₂, sys.clearOwnerType (framePhys sys.pfa f % 2 ^ 32) = .ok sys₁ ∧
      sys₁.free cpu (framePhys sys.pfa f) = .ok sys₂ ∧ sys.Moves sys₂ (· = f) ∧
      ∀ g, sys₂.refs g = if g = f then 0 else sys.refs g := by
  have held : 0 < sys.refs f := by rw [one]; exact one_pos
  have lt := (inv.held f held).1
  obtain ⟨sys₁, cleared, moves₁, refs₁⟩ := clearOwnerType_spec inv held
  obtain ⟨loc₁, inv₁⟩ := moves₁.inv
  have frame : pfaPhysToFrame sys₁.pfa (framePhys sys.pfa f) = f := by
    rw [← framePhys_congr moves₁.start f]
    exact pfaPhysToFrame_framePhys inv₁.represents (by rw [moves₁.total]; exact lt)
  obtain ⟨sys₂, freed, moves₂, refs₂⟩ := inv₁.release cpu frame (fun _ => by rw [refs₁]; exact held)
  refine ⟨sys₁, sys₂, cleared, freed, moves₁.trans moves₂ fun i ne pos => ⟨ne, ne, by rwa [refs₁]⟩, fun g => ?_⟩
  rw [refs₂, refs₁]
  split
  next same => rw [same, one]
  · rfl

/-- The pages of the table that has the entry of a page. -/
def SameTable (a : Arch) (v w : Nat) : Prop := path a (w * pageSize) = path a (v * pageSize)
  deriving Decidable

/-- The number of present entries of the table a page has its entry in. -/
def tableCount (a : Arch) (st : State) (c v : Nat) : Nat :=
  match pteWalk a st c (v * pageSize) with
  | none => 0
  | some t => (present a st t).card

/-- An unmap of a page finds the counter of the table at zero. -/
def Drops (a : Arch) (st : State) (c v : Nat) : Prop :=
  (pteWalk a st c (v * pageSize)).isSome = true ∧
    if (entryAt a st c v).isSome then tableCount a st c v % 256 ≤ 1
    else a ≠ .arm64 ∧ tableCount a st c v % 256 = 0
  deriving Decidable

/-- The table an unmap gives back has the entries of other pages. -/
def Loses (a : Arch) (st : State) (c v : Nat) : Prop :=
  Drops a st c v ∧ (entryAt a st c v).isSome.toNat < tableCount a st c v
  deriving Decidable

/-- What an unmap of a page leaves behind. -/
structure Unmapped (a : Arch) (st st' : State) (own own' : Nat → Nat) (c v : Nat) : Prop where
  total : st'.frames.pfa.totalFrames = st.frames.pfa.totalFrames
  start : st'.frames.pfa.startAddr = st.frames.pfa.startAddr
  roots : st'.roots = st.roots
  same : ∀ d w, UserPage a w → entryAt a st' d w =
    if d = c ∧ (w = v ∨ Drops a st c v ∧ SameTable a v w) then none else entryAt a st d w
  kept : ∀ f, own f ≤ own' f
  settled : ¬Loses a st c v → own' = own

theorem lastDir_eq (user : UserPage a v) (st : State) (c : Nat) : lastDir a st c (v * pageSize) =
      (st.roots c).bind fun r => Radix.walk child st.tables r (dirPath a (v * pageSize)) := by
  rw [lastDir, user.tableRoot]

theorem pteWalk_split (user : UserPage a v) (st : State) (c : Nat) :
    pteWalk a st c (v * pageSize) = (lastDir a st c (v * pageSize)).bind fun dir =>
      (st.tables dir (dirIndex a (v * pageSize))).bind child := by
  rw [pteWalk_eq user, lastDir_eq user]
  cases st.roots c with
  | none => rfl
  | some r =>
    simp only [bind_some, path, Radix.walk_append, Radix.walk]
    congr 1
    funext u
    cases (st.tables u (dirIndex a (v * pageSize))).bind child <;> rfl

theorem pteWalk_of_lastDir {dir : Nat} (user : UserPage a v) (reached : lastDir a st c (v * pageSize) = some dir)
    (found : st.tables dir (dirIndex a (v * pageSize)) = some e) (small : e.large = false) :
    pteWalk a st c (v * pageSize) = some e.addr := by
  rw [pteWalk_split user, reached]
  simp [found, child, small]

/-- The table with the entry of a page, as an unmap finds it. -/
structure TableOf (a : Arch) (st : State) (place : Nat → Option (Nat × List Nat)) (c v dir : Nat) (e : Entry)
    (f : Nat) : Prop where
  reached : lastDir a st c (v * pageSize) = some dir
  found : st.tables dir (dirIndex a (v * pageSize)) = some e
  small : e.large = false
  place : place e.addr = some (c, path a (v * pageSize))
  frame : e.addr = framePhys st.frames.pfa f
  one : st.frames.refs f = 1
  counter : (st.frames.pfa.pages f).ptPresentCount = BitVec.ofNat 8 (tableCount a st c v)
  entry : entryAt a st c v = st.tables e.addr (pteIndex a (v * pageSize))
  drops : Drops a st c v ↔ if (entryAt a st c v).isSome then tableCount a st c v % 256 ≤ 1
    else a ≠ .arm64 ∧ tableCount a st c v % 256 = 0

theorem mem_present (t w : Nat) :
    pteIndex a (w * pageSize) ∈ present a st t ↔ (st.tables t (pteIndex a (w * pageSize))).isSome = true := by
  simp only [present, Finset.mem_filter, Finset.mem_range]
  exact and_iff_right (index_lt a _ _)

section empty

variable {w : Nat} (user : UserPage a v) (user' : UserPage a w)
include user user'

theorem pteWalk_same (same : SameTable a v w) : pteWalk a st c (w * pageSize) = pteWalk a st c (v * pageSize) := by
  rw [pteWalk_eq user', pteWalk_eq user, same]

theorem entryAt_empty (empty : tableCount a st c v = 0) (same : SameTable a v w) : entryAt a st c w = none := by
  have walks : pteWalk a st c (w * pageSize) = _ := pteWalk_same user user' same
  cases walked : pteWalk a st c (v * pageSize) with
  | none =>
    rw [entryAt, pte, walks, walked]
    rfl
  | some t =>
    simp only [tableCount, walked, Finset.card_eq_zero] at empty
    rw [entryAt_walked (walks.trans walked)]
    by_contra there
    have mem := (mem_present t w).mpr (isSome_iff_ne_none.mpr there)
    simp [empty] at mem

theorem entry_only (few : ¬(entryAt a st c v).isSome.toNat < tableCount a st c v) (same : SameTable a v w) {e' : Entry}
    (mapped : entryAt a st c w = some e') : w = v := by
  cases entry : entryAt a st c v with
  | none =>
    rw [entry] at few
    rw [entryAt_empty user user' (Nat.eq_zero_of_not_pos few) same] at mapped
    cases mapped
  | some e'' =>
    have walks : pteWalk a st c (w * pageSize) = _ := pteWalk_same user user' same
    obtain ⟨t, walked, at_v⟩ := bind_eq_some_iff.mp entry
    have at_w := entryAt_walked (walks.trans walked)
    have mem_w : pteIndex a (w * pageSize) ∈ present a st t := by
      rw [mem_present, ← at_w, mapped]
      rfl
    have mem_v : pteIndex a (v * pageSize) ∈ present a st t := by
      rw [mem_present, at_v]
      rfl
    simp only [entry, tableCount, walked] at few
    have one : (present a st t).card ≤ 1 := Nat.not_lt.mp few
    exact user'.ext user same (Finset.card_le_one.mp one _ mem_w _ mem_v)

/-- If the table is given back without entries of others, the page is the only one that loses its
entry. -/
theorem entryAt_of_safe (safe : ¬Loses a st c v) (d : Nat) :
    (if d = c ∧ (w = v ∨ Drops a st c v ∧ SameTable a v w) then none else entryAt a st d w) =
      if d = c ∧ w = v then none else entryAt a st d w := by
  by_cases here : d = c ∧ w = v
  · rw [if_pos here, if_pos ⟨here.1, .inl here.2⟩]
  · rw [if_neg here]
    split
    next gone =>
      obtain ⟨rfl, rfl | ⟨drops, same⟩⟩ := gone
      · exact absurd ⟨rfl, rfl⟩ here
      · cases entry : entryAt a st d w with
        | none => rfl
        | some e => exact absurd ⟨rfl, entry_only user user' (fun many => safe ⟨drops, many⟩) same entry⟩ here
    · rfl

end empty

theorem countGet_spec (inv : SysInv sys loc) (lt : f < sys.pfa.totalFrames) :
    pageFramePtPresentCountGet sys.pfa (framePhys sys.pfa f % 2 ^ 32) = (sys.pfa.pages f).ptPresentCount := by
  simp only [phys_mod inv lt, pageFramePtPresentCountGet, pfaPhysToFrame_framePhys inv.represents lt,
    if_neg (Nat.not_le.mpr lt)]

theorem ofNat_eq_zero_iff (n : Nat) : BitVec.ofNat 8 n = 0 ↔ n % 256 = 0 := by
  rw [← toNat_inj, toNat_ofNat]
  rfl

section run

variable {cpu c v dir t : Nat} {sys₁ sys₂ : Pfa.Sys}

theorem dropTable_keep (counter : pageFramePtPresentCountGet st.frames.pfa (t % 2 ^ 32) ≠ 0) :
    dropTable a st cpu (v * pageSize) dir t = .ok st := if_neg counter

theorem dropTable_drop (user : UserPage a v) (counter : pageFramePtPresentCountGet st.frames.pfa (t % 2 ^ 32) = 0)
    (cleared : st.frames.clearOwnerType (t % 2 ^ 32) = .ok sys₁) (freed : sys₁.free cpu t = .ok sys₂) :
    dropTable a st cpu (v * pageSize) dir t =
      .ok ({ st with frames := sys₂ }.setEntry dir (dirIndex a (v * pageSize)) none) := by
  have user' : v * pageSize < a.userSpaceLimit := user
  simp only [dropTable, if_pos counter, cleared, if_pos user', freed, ok_bind]
  rfl

theorem unmapEntry_present (reached : lastDir a st c (v * pageSize) = some dir)
    (found : st.tables dir (dirIndex a (v * pageSize)) = some e) (small : e.large = false)
    (leaf : st.tables e.addr (pteIndex a (v * pageSize)) = some old)
    (freed : st.frames.free cpu (old.addr % 2 ^ 32) = .ok sys₁) {mid : State}
    (counted : ({ st with frames := sys₁ }.countDec e.addr).setEntry e.addr (pteIndex a (v * pageSize)) none = mid)
    (dropped : dropTable a mid cpu (v * pageSize) dir e.addr = .ok st') :
    Paging.unmapEntry a st cpu c (v * pageSize) = .ok (true, st') := by
  simp only [Paging.unmapEntry, reached, found, small, Bool.false_eq_true, if_false, leaf]
  rw [bind_of_ok freed, counted, bind_of_ok dropped]
  rfl

end run

theorem Unmapped.of_safe (user : UserPage a v) (safe : ¬Loses a st c v) {mid : State} (quiet : Quiet a mid st')
    (total : mid.frames.pfa.totalFrames = st.frames.pfa.totalFrames)
    (start : mid.frames.pfa.startAddr = st.frames.pfa.startAddr) (roots : st'.roots = st.roots)
    (same : ∀ d w, UserPage a w → entryAt a mid d w = if d = c ∧ w = v then none else entryAt a st d w) :
    Unmapped a st st' own own c v := by
  refine ⟨quiet.total.trans total, quiet.start.trans start, roots, fun d w user' => ?_, fun _ => le_refl _,
    fun _ => rfl⟩
  rw [quiet.same d w user', same d w user', entryAt_of_safe user user' safe]

theorem Unmapped.nothing (user : UserPage a v) (safe : ¬Loses a st c v) (vacant : entryAt a st c v = none)
    (quiet : Quiet a st st') (roots : st'.roots = st.roots) : Unmapped a st st' own own c v := by
  refine .of_safe user safe quiet rfl rfl roots fun d w _ => ?_
  split
  next here =>
    obtain ⟨rfl, rfl⟩ := here
    exact vacant
  · rfl

/-- An unmap of a page runs and keeps the invariant. -/
def Unmaps (a : Arch) (st : State) (own : Nat → Nat) (cpu c v : Nat) : Prop :=
  ∃ done st' place' own', unmapEntry a st cpu c (v * pageSize) = .ok (done, st') ∧
    Inv a st' place' own' ∧ Unmapped a st st' own own' c v

theorem counter_down {n : Nat} (counts : n % 256 ≠ 0) :
    (if BitVec.ofNat 8 n = 0 then 0 else BitVec.ofNat 8 n - 1) = BitVec.ofNat 8 (n - 1) := by
  obtain ⟨m, rfl⟩ : ∃ m, n = m + 1 := ⟨n - 1, by omega⟩
  rw [if_neg fun zero => counts ((ofNat_eq_zero_iff _).mp zero), ofNat_add]
  exact add_sub_cancel _ _

section unmap

variable {dir : Nat} (h : Inv a st place own) (user : UserPage a v)
include h user

theorem Inv.place_lastDir (reached : lastDir a st c (v * pageSize) = some dir) :
    place dir = some (c, dirPath a (v * pageSize)) := by
  rw [lastDir_eq user] at reached
  obtain ⟨r, root, reach⟩ := bind_eq_some_iff.mp reached
  exact h.place_walk root (UserPath.closed a _ _ user.path) reach

theorem Inv.lastDir_setLeaf {t : Nat} (walked : pteWalk a st c (v * pageSize) = some t)
    (tables : st'.tables = Radix.update st.tables t (pteIndex a (v * pageSize)) none) (roots : st'.roots = st.roots) :
    lastDir a st' c (v * pageSize) = lastDir a st c (v * pageSize) := by
  rw [lastDir_eq user, lastDir_eq user, roots]
  cases root : st.roots c with
  | none => rfl
  | some r => exact h.walk_setLeaf user walked tables root (UserPath.closed a _ _ user.path)

theorem Inv.tableOf (reached : lastDir a st c (v * pageSize) = some dir)
    (found : st.tables dir (dirIndex a (v * pageSize)) = some e) : ∃ f, TableOf a st place c v dir e f := by
  have small := h.small (h.place_lastDir user reached) user.path found
  have walked := pteWalk_of_lastDir user reached found small
  have at_t := h.place_pteWalk user walked
  obtain ⟨f, at_f, one⟩ := h.held at_t
  have counter := h.count (f := f) (by rw [← at_f]; exact at_t) (path_length a _)
  rw [← at_f] at counter
  have count : tableCount a st c v = (present a st e.addr).card := by simp [tableCount, walked]
  exact ⟨f, reached, found, small, at_t, at_f, one, by rw [count, counter], entryAt_walked walked,
    and_iff_right (by rw [walked]; rfl)⟩

theorem Inv.entryAt_unhang (reached : lastDir a st c (v * pageSize) = some dir) (roots : st'.roots = st.roots)
    (tables : st'.tables = Radix.update st.tables dir (dirIndex a (v * pageSize)) none) {d w : Nat}
    (user' : UserPage a w) :
    entryAt a st' d w = if d = c ∧ path a (w * pageSize) = path a (v * pageSize) then none else entryAt a st d w := by
  rw [lastDir_eq user] at reached
  obtain ⟨r, root, reach⟩ := bind_eq_some_iff.mp reached
  obtain ⟨away, through⟩ := h.entryAt_setDir root reach user.path roots tables (d := d) user'
  by_cases below : d = c ∧ path a (w * pageSize) = path a (v * pageSize)
  · rw [if_pos below, through [] below.1 below.2]
    rfl
  · rw [if_neg below]
    refine away fun passes => below ⟨passes.1, ?_⟩
    have lengths := path_length a (v * pageSize)
    have lengths' := path_length a (w * pageSize)
    exact (List.IsPrefix.eq_of_length passes.2 (by change (path a (v * pageSize)).length = _; omega)).symm

/-- The frame of a table is nobody's page. -/
theorem Inv.maps_table {g : Nat} {x : Nat × List Nat}
    (placed : place (framePhys st.frames.pfa g) = some x) : maps st g (entryAt a st c v) = 0 := by
  have one := h.refs_eq_one placed
  obtain ⟨finite, sum⟩ := h.acct g (h.frame_lt one)
  rw [placed, one] at sum
  simp only [isSome_some, Bool.toNat_true] at sum
  have empty : mapped a st g = ∅ := (Set.ncard_eq_zero finite).mp (by omega)
  refine if_neg fun hit => ?_
  have mem : (c, v) ∈ mapped a st g := (mem_mapped user).mpr hit
  rw [empty] at mem
  exact mem

/-- An empty table is taken out of its directory and given back. -/
theorem Inv.unhang (table : TableOf a st place c v dir e f) (empty : tableCount a st c v = 0) (st' : State)
    (moves : st.frames.Moves st'.frames (· = f)) (refs : ∀ g, st'.frames.refs g = if g = f then 0 else st.frames.refs g)
    (roots : st'.roots = st.roots) (tables : st'.tables = Radix.update st.tables dir (dirIndex a (v * pageSize)) none) :
    Inv a st' (update place e.addr none) own ∧ SameEntries a st st' := by
  have at_t := table.place
  have at_dir := h.place_lastDir user table.reached
  have child : e.child = some e.addr := by simp [child, table.small]
  have translations : SameEntries a st st' := by
    intro d w user'
    rw [h.entryAt_unhang user table.reached roots tables user']
    split
    next below =>
      obtain ⟨rfl, same⟩ := below
      exact (entryAt_empty user user' empty same).symm
    · rfl
  have old_place : ∀ {u y}, update place e.addr none u = some y → u ≠ e.addr ∧ place u = some y := by
    intro u y placed
    rcases of_update placed with ⟨-, here⟩ | before
    · cases here
    · exact before
  have old_entry : ∀ {u i x}, st'.tables u i = some x →
      ¬(u = dir ∧ i = dirIndex a (v * pageSize)) ∧ st.tables u i = some x := by
    intro u i x found
    rcases Radix.of_update (tables ▸ found) with ⟨-, -, gone⟩ | before
    · cases gone
    · exact before
  refine ⟨h.change st' moves (fun root => ?_) (fun placed _ found => ⟨(old_place placed).2, (old_entry found).2⟩) ?_
    (fun placed => ?_) fun g lt => ?_, translations⟩
  · have placed := h.root (roots ▸ root)
    rwa [update_of_ne fun same => by rw [same, at_t] at placed; simp [path] at placed]
  · -- only the entry that is gone has led to the table
    rintro u u' ⟨k, q, j, e', placed, inner, found, child'⟩ -
    refine update_of_ne ?_ ..
    rintro rfl
    obtain ⟨here, before⟩ := old_entry found
    have at_u := (old_place placed).2
    have same : u = dir := h.forest.single ⟨k, q, j, e', at_u, inner, before, child'⟩
      ⟨c, _, _, e, at_dir, user.path, table.found, child⟩
    have placed := h.forest.down at_u inner before child'
    rw [at_t, Option.some.injEq, Prod.mk.injEq, path] at placed
    have last := (append_inj' placed.2 rfl).2
    simp only [List.cons.injEq, and_true] at last
    exact here ⟨same, last.symm⟩
  · obtain ⟨ne, before⟩ := old_place placed
    obtain ⟨g, rfl, one⟩ := h.held before
    have away : g ≠ f := fun same => ne (by rw [same, table.frame])
    refine ⟨h.user before, g, rfl, by rw [refs, if_neg away, one], fun leaf => ?_⟩
    have not_dir : framePhys st.frames.pfa g ≠ dir := fun same => by
      rw [same, at_dir] at before
      cases before
      have lengths := path_length a (v * pageSize)
      rw [path, length_append, length_singleton] at lengths
      omega
    rw [present_other tables not_dir, h.counts_of_moves moves before away]
    exact h.count before leaf
  · obtain ⟨finite, sum⟩ := h.acct g lt
    rw [mapped_congr moves.start translations, refs]
    refine ⟨finite, ?_⟩
    obtain rfl | other := eq_or_ne g f
    · rw [← table.frame, at_t, table.one] at sum
      rw [← table.frame, update_self, if_pos rfl]
      simp only [isSome_none, isSome_some, Bool.toNat_false, Bool.toNat_true] at sum ⊢
      omega
    · rw [update_of_ne fun eq => other (framePhys_inj (eq.trans table.frame)), if_neg other]
      exact sum

/-- What is done about the counter of a table that says zero only when the table is empty. -/
theorem Inv.dropTable (cpu : Nat) (at_t : TableOf a st place c v dir e f)
    (few : tableCount a st c v % 256 = 0 → tableCount a st c v = 0) :
    ∃ st' place', Paging.dropTable a st cpu (v * pageSize) dir e.addr = .ok st' ∧ Inv a st' place' own ∧
      Quiet a st st' ∧ st'.roots = st.roots := by
  obtain ⟨loc, inv⟩ := h.alloc
  have counter : pageFramePtPresentCountGet st.frames.pfa (e.addr % 2 ^ 32) = 0 ↔
      tableCount a st c v % 256 = 0 := by
    rw [at_t.frame, countGet_spec inv (h.frame_lt at_t.one), at_t.counter, ofNat_eq_zero_iff]
  by_cases zero : tableCount a st c v % 256 = 0
  · obtain ⟨sys₁, sys₂, cleared, freed, moves, refs⟩ := giveBack_spec inv cpu at_t.one
    rw [← at_t.frame] at cleared freed
    obtain ⟨inv', same⟩ := h.unhang user at_t (few zero)
      ({ st with frames := sys₂ }.setEntry dir (dirIndex a (v * pageSize)) none) moves refs rfl rfl
    exact ⟨_, _, dropTable_drop user (counter.mpr zero) cleared freed, inv', ⟨moves.total, moves.start, same⟩, rfl⟩
  · exact ⟨st, place, dropTable_keep fun eq => zero (counter.mp eq), h, ⟨rfl, rfl, fun _ _ _ => rfl⟩, rfl⟩

theorem Inv.unmap_vacant (cpu : Nat) (at_t : TableOf a st place c v dir e f) (vacant : entryAt a st c v = none)
    (safe : ¬Loses a st c v) : Unmaps a st own cpu c v := by
  have leaf : st.tables e.addr (pteIndex a (v * pageSize)) = none := at_t.entry ▸ vacant
  by_cases arm : a = .arm64
  · refine ⟨false, st, place, own, ?_, h, .nothing user safe vacant ⟨rfl, rfl, fun _ _ _ => rfl⟩ rfl⟩
    simp only [Paging.unmapEntry, at_t.reached, at_t.found, at_t.small, Bool.false_eq_true, if_false, leaf, if_pos arm]
    rfl
  · have few : tableCount a st c v % 256 = 0 → tableCount a st c v = 0 := fun zero => by
      by_contra many
      have drops := at_t.drops
      rw [vacant] at drops
      exact safe ⟨drops.mpr ⟨arm, zero⟩, by rw [vacant]; exact pos_of_ne_zero many⟩
    obtain ⟨st', place', dropped, inv', quiet, roots⟩ := h.dropTable user cpu at_t few
    refine ⟨true, st', place', own, ?_, inv', .nothing user safe vacant quiet roots⟩
    simp only [Paging.unmapEntry, at_t.reached, at_t.found, at_t.small, Bool.false_eq_true, if_false, leaf, if_neg arm]
    rw [bind_of_ok dropped]
    rfl

/-- The frame of a page's entry is released and the counter of its table goes down. -/
theorem Inv.releasePage (cpu : Nat) (at_t : TableOf a st place c v dir e f) (mapped : entryAt a st c v = some old) :
    ∃ sys₁ sys₂, st.frames.free cpu (old.addr % 2 ^ 32) = .ok sys₁ ∧
      { st with frames := sys₁ }.countDec e.addr = { st with frames := sys₂ } ∧
      st.frames.Moves sys₂ (fun g => g = f ∨ g = frameOf st old.addr) ∧
      (∀ g, g < st.frames.pfa.totalFrames → sys₂.refs g + maps st g (some old) = st.frames.refs g) ∧
      (∀ g x, place (framePhys st.frames.pfa g) = some x → g ≠ frameOf st old.addr) ∧
      (∀ g, g ≠ frameOf st old.addr → sys₂.refs g = st.frames.refs g) ∧
      (sys₂.pfa.pages f).ptPresentCount = if BitVec.ofNat 8 (tableCount a st c v) = 0 then 0
        else BitVec.ofNat 8 (tableCount a st c v) - 1 := by
  obtain ⟨loc, inv⟩ := h.alloc
  have held_f : 0 < st.frames.refs f := by rw [at_t.one]; exact one_pos
  obtain ⟨g₀, hit⟩ : ∃ g₀, frameOf st old.addr = g₀ := ⟨_, rfl⟩
  -- the entry itself is a reference of its frame, and the frame is no table
  have held : g₀ < st.frames.pfa.totalFrames → 0 < st.frames.refs g₀ := fun lt => by
    obtain ⟨finite, sum⟩ := h.acct g₀ lt
    have pos := (Set.ncard_pos finite).mpr ⟨(c, v), (mem_mapped user).mpr ⟨old, mapped, hit⟩⟩
    omega
  have not_table : ∀ g x, place (framePhys st.frames.pfa g) = some x → g ≠ g₀ := fun g x placed same => by
    have none_maps := h.maps_table (c := c) user placed
    rw [mapped, same, maps_hit hit] at none_maps
    cases none_maps
  have apart : f ≠ g₀ := not_table f _ (at_t.frame ▸ at_t.place)
  obtain ⟨sys₁, freed, moves₁, refs₁⟩ := inv.release cpu hit held
  obtain ⟨loc₁, inv₁⟩ := moves₁.inv
  have held₁ : 0 < sys₁.refs f := by rw [refs₁, if_neg apart]; exact held_f
  obtain ⟨sys₂, counted, moves₂, refs₂, count₂⟩ := countDec_spec { st with frames := sys₁ } inv₁ held₁
  have phys : framePhys sys₁.pfa f = e.addr := (framePhys_congr moves₁.start f).trans at_t.frame.symm
  simp only [phys] at counted
  rw [hit]
  refine ⟨sys₁, sys₂, freed, counted, moves₁.trans moves₂ fun g ne pos => ?_, fun g lt => ?_, not_table,
    fun g ne => ?_, ?_⟩
  · obtain ⟨ne₂, ne₁⟩ := not_or.mp ne
    exact ⟨ne₁, ne₂, by rwa [refs₁, if_neg ne₁]⟩
  · rw [refs₂]
    rw [refs₁]
    by_cases same : g = g₀
    · rw [if_pos same, same, maps_hit hit]
      omega
    · rw [if_neg same, maps_miss fun eq => same (hit.symm.trans eq).symm, add_zero]
  · rw [refs₂]
    exact (refs₁ g).trans (if_neg ne)
  · have before : (sys₁.pfa.pages f).ptPresentCount = BitVec.ofNat 8 (tableCount a st c v) := by
      rw [moves₁.pages f apart held_f, at_t.counter]
    rw [count₂]
    simp [before]

theorem Inv.unmap_present (cpu : Nat) (at_t : TableOf a st place c v dir e f) (mapped : entryAt a st c v = some old)
    (safe : ¬Loses a st c v) : Unmaps a st own cpu c v := by
  have leaf : st.tables e.addr (pteIndex a (v * pageSize)) = some old := at_t.entry ▸ mapped
  have walked := pteWalk_of_lastDir user at_t.reached at_t.found at_t.small
  have count : tableCount a st c v = (present a st e.addr).card := by simp [tableCount, walked]
  have pos : 0 < tableCount a st c v := by
    rw [count]
    exact Finset.card_pos.mpr ⟨_, (mem_present e.addr v).mpr (by rw [leaf]; rfl)⟩
  -- a counter that says one or zero is right
  have few : tableCount a st c v % 256 ≤ 1 → tableCount a st c v = 1 := fun low => by
    by_contra many
    have drops := at_t.drops
    rw [mapped] at drops
    exact safe ⟨drops.mpr low, by rw [mapped]; change 1 < _; omega⟩
  obtain ⟨sys₁, sys₂, freed, counted, released, refs, others, kept, counter⟩ := h.releasePage user cpu at_t mapped
  obtain ⟨mid, hmid, midFrames, midRoots, midTables⟩ : ∃ mid,
      { st with frames := sys₂ }.setEntry e.addr (pteIndex a (v * pageSize)) none = mid ∧ mid.frames = sys₂ ∧
        mid.roots = st.roots ∧ mid.tables = Radix.update st.tables e.addr (pteIndex a (v * pageSize)) none :=
    ⟨_, rfl, rfl, rfl, rfl⟩
  have inv' : Inv a mid place own := by
    rw [← hmid]
    refine h.setLeaf user walked none released (fun placed => kept _ (others _ _ placed))
      (fun {g x} placed ne => ?_) (fun g at_g n sum => ?_)
      fun g inside => ?_
    · exact not_or.mpr ⟨fun same => ne (by rw [same, at_t.frame]), others g x placed⟩
    · rw [framePhys_inj (at_g.trans at_t.frame), counter, counter_down (by omega), count]
      rw [mapped] at sum
      simp only [isSome_none, isSome_some, Bool.toNat_false, Bool.toNat_true, add_zero] at sum
      rw [← sum, Nat.add_sub_cancel]
    · have := refs g inside
      rw [mapped, maps_none]
      omega
  have apart : dir ≠ e.addr := fun same => by
    have at_dir := h.place_lastDir user at_t.reached
    rw [same, at_t.place] at at_dir
    simp [path] at at_dir
  have reached' : lastDir a mid c (v * pageSize) = some dir :=
    (h.lastDir_setLeaf user walked midTables midRoots).trans at_t.reached
  have found' : mid.tables dir (dirIndex a (v * pageSize)) = some e := by
    rw [midTables, Radix.update_of_ne (.inl apart), at_t.found]
  obtain ⟨f', at_t'⟩ := inv'.tableOf user reached' found'
  have count' : tableCount a mid c v + 1 = tableCount a st c v := by
    have sum := card_present_update (a := a) midTables (index_lt a _ _)
    rw [leaf] at sum
    simpa [tableCount, walked, pteWalk_of_lastDir user reached' found' at_t.small] using sum
  obtain ⟨st', place', dropped, inv'', quiet, roots⟩ := inv'.dropTable user cpu at_t' (by omega)
  refine ⟨true, st', place', own, unmapEntry_present at_t.reached at_t.found at_t.small leaf freed
    (by rw [counted, hmid])
    dropped, inv'', .of_safe user safe quiet (midFrames ▸ released.total) (midFrames ▸ released.start)
    (roots.trans midRoots) fun d w user' => h.entryAt_setLeaf user walked midTables midRoots user'⟩

theorem Inv.unmapEntry (cpu c : Nat) (safe : ¬Loses a st c v) : Unmaps a st own cpu c v := by
  have bare : pteWalk a st c (v * pageSize) = none → Unmapped a st st own own c v := fun no =>
    .nothing user safe (by rw [entryAt, pte, no]; rfl) ⟨rfl, rfl, fun _ _ _ => rfl⟩ rfl
  have walk_split := pteWalk_split user st c
  cases reached : lastDir a st c (v * pageSize) with
  | none =>
    refine ⟨false, st, place, own, ?_, h, bare (by rw [walk_split, reached]; rfl)⟩
    simp only [Paging.unmapEntry, reached]
    rfl
  | some dir =>
    cases found : st.tables dir (dirIndex a (v * pageSize)) with
    | none =>
      refine ⟨false, st, place, own, ?_, h, bare (by rw [walk_split, reached, bind_some, found]; rfl)⟩
      simp only [Paging.unmapEntry, reached, found]
      rfl
    | some e =>
      obtain ⟨f, at_t⟩ := h.tableOf user reached found
      cases mapped : entryAt a st c v with
      | none => exact h.unmap_vacant user cpu at_t mapped safe
      | some old => exact h.unmap_present user cpu at_t mapped safe

end unmap

end Jlos.Paging
