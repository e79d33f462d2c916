import Jlos.Paging.Model

/-!
# The invariant of the user's tables

The tables of the user halves form a forest: every table has a place, its context and the indices
that lead to it. The references of a frame are the entries that map it, the one a table itself
needs, and those that somebody else owns.
-/
namespace Jlos.Paging

open Lib Function List Option Entry
open Radix (Leads walk)
open Pfa (framePhys SysInv)

variable {v t c f i parent : Nat} {x : Option Entry} {row : Nat → Option Entry} {p : List Nat} {st : State}

section format

variable (a : Arch)

/-- The paths of user addresses, and their initial parts. -/
def UserPath (p : List Nat) : Prop :=
  p.length < levels a ∧ (∀ i ∈ p, i < entries a) ∧ ∀ i, p.head? = some i → i < userEntries a

theorem UserPath.closed : Radix.Closed (UserPath a) := by
  intro p q h
  refine ⟨?_, fun i mem => h.2.1 i (mem_append_left q mem), fun i first => h.2.2 i ?_⟩
  · have := h.1
    rw [length_append] at this
    omega
  · rw [head?_append, first]
    rfl

@[simp] theorem path_length (va : Nat) : (path a va).length + 1 = levels a := by
  cases a <;> rfl

theorem index_lt (va level : Nat) : index a va level < entries a := Nat.mod_lt _ (Nat.two_pow_pos _)

/-- The pages of the user's half. -/
def UserPage (v : Nat) : Prop := v * pageSize < a.userSpaceLimit

variable {a}

theorem UserPage.index_root (user : UserPage a v) : index a (v * pageSize) 0 < userEntries a := by
  cases a <;>
    simp only [UserPage, Arch.userSpaceLimit, pageSize, index, levels, indexBits, entries, userEntries] at * <;> omega

theorem UserPage.path (user : UserPage a v) : UserPath a (path a (v * pageSize)) := by
  refine ⟨?_, fun i mem => ?_, fun i first => ?_⟩
  · have := path_length a (v * pageSize)
    omega
  · simp only [Paging.path, dirPath, dirIndex, List.mem_append, List.mem_map, List.mem_singleton] at mem
    rcases mem with ⟨level, -, rfl⟩ | rfl
    · exact index_lt a _ _
    · exact index_lt a _ _
  · have root : (Paging.path a (v * pageSize)).head? = some (index a (v * pageSize) 0) := by
      cases a <;> rfl
    rw [root] at first
    cases first
    exact user.index_root

theorem UserPage.ext {w : Nat} (user : UserPage a v) (user' : UserPage a w)
    (paths : Paging.path a (v * pageSize) = Paging.path a (w * pageSize))
    (last : pteIndex a (v * pageSize) = pteIndex a (w * pageSize)) : v = w := by
  cases a with
  | x86_64 | arm64 =>
    simp only [Paging.path, dirPath, dirIndex, pteIndex, index, levels, indexBits, entries, List.range, List.range.loop,
      map_cons, map_nil, cons_append, nil_append, List.cons.injEq, and_true, UserPage,
      Arch.userSpaceLimit, pageSize] at *
    omega
  | i386 =>
    have dirs : dirIndex .i386 (v * pageSize) = dirIndex .i386 (w * pageSize) := by
      simpa [Paging.path, dirPath, levels] using paths
    clear paths
    simp only [dirIndex, pteIndex, index, levels, indexBits, entries, UserPage, Arch.userSpaceLimit, pageSize] at *
    omega

theorem UserPage.low (user : UserPage a v) : ¬(a = .arm64 ∧ v * pageSize ≥ a.directMapBase) := by
  rintro ⟨rfl, high⟩
  simp only [UserPage, Arch.userSpaceLimit, Arch.directMapBase] at *
  omega

theorem UserPage.tableRoot (user : UserPage a v) (st : State) (c : Nat) :
    tableRoot a st c (v * pageSize) = st.roots c := by
  rw [Paging.tableRoot, if_neg user.low]

end format

/-- The frame number an address has for the allocator. -/
def frameOf (st : State) (addr : Nat) : Nat := Pfa.pfaPhysToFrame st.frames.pfa (addr % 2 ^ 32)

variable (a : Arch) {d w : Nat}

def present (st : State) (t : Nat) : Finset Nat := (Finset.range (entries a)).filter fun i => (st.tables t i).isSome

def entryAt (st : State) (c v : Nat) : Option Entry := pte a st c (v * pageSize)

/-- The user pages, over all contexts, whose entry maps a frame. -/
def mapped (st : State) (f : Nat) : Set (Nat × Nat) :=
  {x | UserPage a x.2 ∧ ∃ e, entryAt a st x.1 x.2 = some e ∧ frameOf st e.addr = f}

structure Inv (st : State) (place : Nat → Option (Nat × List Nat)) (own : Nat → Nat) : Prop where
  alloc : ∃ loc, SysInv st.frames loc
  aligned : pageSize ∣ st.frames.pfa.startAddr
  root : ∀ {c r}, st.roots c = some r → place r = some (c, [])
  forest : Radix.Forest Entry.child st.tables place (UserPath a)
  small : ∀ {t c p i e}, place t = some (c, p) → UserPath a (p ++ [i]) → st.tables t i = some e → e.large = false
  user : ∀ {t c p}, place t = some (c, p) → UserPath a p
  held : ∀ {t x}, place t = some x → ∃ f, t = framePhys st.frames.pfa f ∧ st.frames.refs f = 1
  count : ∀ {f c p}, place (framePhys st.frames.pfa f) = some (c, p) → p.length + 1 = levels a →
    (st.frames.pfa.pages f).ptPresentCount = BitVec.ofNat 8 (present a st (framePhys st.frames.pfa f)).card
  acct : ∀ f, f < st.frames.pfa.totalFrames → (mapped a st f).Finite ∧
    own f + (mapped a st f).ncard + (place (framePhys st.frames.pfa f)).isSome.toNat = st.frames.refs f

/-- The pages of the user are translated as before. -/
def SameEntries (st st' : State) : Prop := ∀ d w, UserPage a w → entryAt a st' d w = entryAt a st d w

open UserPath

section

variable {a} {st' : State}

theorem entryAt_eq (user : UserPage a v) (st : State) (c : Nat) : entryAt a st c v = (st.roots c).bind fun r =>
      (walk child st.tables r (path a (v * pageSize))).bind fun t =>
        st.tables t (pteIndex a (v * pageSize)) := by
  rw [entryAt, pte, pteWalk, user.tableRoot]
  cases st.roots c <;> rfl

theorem pteWalk_eq (user : UserPage a v) (st : State) (c : Nat) : pteWalk a st c (v * pageSize) =
      (st.roots c).bind fun r => walk child st.tables r (path a (v * pageSize)) := by
  rw [pteWalk, user.tableRoot]

theorem entryAt_congr (tables : st'.tables = st.tables) (roots : st'.roots = st.roots)
    (user : UserPage a v) : entryAt a st' c v = entryAt a st c v := by
  rw [entryAt_eq user, entryAt_eq user, tables, roots]

variable {st : State} {place : Nat → Option (Nat × List Nat)} {own : Nat → Nat}

theorem Inv.place_walk (h : Inv a st place own) {r : Nat} (root : st.roots c = some r)
    (covered : UserPath a p) (reached : walk child st.tables r p = some t) : place t = some (c, p) :=
  h.forest.walk_place (closed a) p (h.root root) covered reached

theorem Inv.place_pteWalk (h : Inv a st place own) (user : UserPage a v)
    (walked : pteWalk a st c (v * pageSize) = some t) : place t = some (c, path a (v * pageSize)) := by
  rw [pteWalk_eq user] at walked
  obtain ⟨r, root, walked⟩ := bind_eq_some_iff.mp walked
  exact h.place_walk root user.path walked

theorem entryAt_walked (walked : pteWalk a st c (v * pageSize) = some t) :
    entryAt a st c v = st.tables t (pteIndex a (v * pageSize)) := by
  rw [entryAt, pte, walked]
  rfl

/-- A page whose entries on all levels are the same is translated as before. -/
theorem Inv.entryAt_kept (h : Inv a st place own) (user : UserPage a w) (roots : st'.roots d = st.roots d)
    (same : ∀ {u p i}, place u = some (d, p) → p ++ [i] <+: path a (w * pageSize) ++ [pteIndex a (w * pageSize)] →
      st'.tables u i = st.tables u i) : entryAt a st' d w = entryAt a st d w := by
  rw [entryAt_eq user, entryAt_eq user, roots]
  cases root : st.roots d with
  | none => rfl
  | some r =>
    simp only [bind_some]
    rw [h.forest.walk_congr (closed a) (path a (w * pageSize)) (h.root root) user.path fun at_u inner =>
      same at_u (inner.trans (prefix_append _ _))]
    cases reached : walk child st.tables r (path a (w * pageSize)) with
    | none => rfl
    | some u => exact same (h.place_walk root user.path reached) (prefix_refl _)

theorem Inv.walk_setLeaf (h : Inv a st place own) (user : UserPage a v)
    (walked : pteWalk a st c (v * pageSize) = some t)
    (tables : st'.tables = Radix.update st.tables t (pteIndex a (v * pageSize)) x) {d r : Nat}
    (root : st.roots d = some r) (covered : UserPath a p) :
    walk child st'.tables r p = walk child st.tables r p := by
  refine h.forest.walk_congr (closed a) p (h.root root) covered fun {u q i} at_u inner => ?_
  -- a leaf's entry is below every path
  rw [tables]
  refine Radix.update_of_ne (.inl ?_)
  rintro rfl
  rw [h.place_pteWalk user walked] at at_u
  cases at_u
  have lengths := path_length a (v * pageSize)
  have short := covered.1
  have long := inner.length_le
  simp only [nil_append, length_append, length_singleton] at long
  omega

theorem Inv.entryAt_setLeaf (h : Inv a st place own) (user : UserPage a v)
    (walked : pteWalk a st c (v * pageSize) = some t)
    (tables : st'.tables = Radix.update st.tables t (pteIndex a (v * pageSize)) x) (roots : st'.roots = st.roots)
    (user' : UserPage a w) : entryAt a st' d w = if d = c ∧ w = v then x else entryAt a st d w := by
  split
  next here =>
    obtain ⟨rfl, rfl⟩ := here
    obtain ⟨r, root, reached⟩ := bind_eq_some_iff.mp (pteWalk_eq user st d ▸ walked)
    rw [entryAt_eq user, roots, root, bind_some, h.walk_setLeaf user walked tables root user.path, reached, tables]
    exact Radix.update_self
  next away =>
    refine h.entryAt_kept user' (by rw [roots]) fun {u p i} at_u inner => ?_
    rw [tables]
    refine Radix.update_of_ne (not_and_or.mp ?_)
    rintro ⟨rfl, rfl⟩
    rw [h.place_pteWalk user walked] at at_u
    cases at_u
    have lengths := path_length a (v * pageSize)
    have lengths' := path_length a (w * pageSize)
    have whole := inner.eq_of_length (by simp only [length_append, length_singleton]; omega)
    obtain ⟨paths, last⟩ := append_inj whole (by omega)
    exact away ⟨rfl, user'.ext user paths.symm (singleton_inj.mp last).symm⟩

end

open Classical in
/-- Whether an entry maps a frame, as a number of references. -/
noncomputable def maps (st : State) (f : Nat) (x : Option Entry) : Nat :=
  if ∃ e, x = some e ∧ frameOf st e.addr = f then 1 else 0

theorem maps_none (st : State) (f : Nat) : maps st f none = 0 := if_neg (by rintro ⟨e, eq, -⟩; cases eq)

theorem maps_hit {e : Entry} (hit : frameOf st e.addr = f) : maps st f (some e) = 1 := if_pos ⟨e, rfl, hit⟩

theorem maps_miss {e : Entry} (miss : frameOf st e.addr ≠ f) : maps st f (some e) = 0 :=
  if_neg (by rintro ⟨e', eq, hit⟩; cases eq; exact miss hit)

section

variable {a} {st st' : State} {place : Nat → Option (Nat × List Nat)} {own own' : Nat → Nat}

theorem mem_mapped (user : UserPage a v) :
    (c, v) ∈ mapped a st f ↔ ∃ e, entryAt a st c v = some e ∧ frameOf st e.addr = f := and_iff_right user

theorem ncard_mapped (user : UserPage a v) (c : Nat) (finite : (mapped a st f).Finite) :
    (mapped a st f).ncard = (mapped a st f \ {(c, v)}).ncard + maps st f (entryAt a st c v) := by
  by_cases mem : (c, v) ∈ mapped a st f
  · rw [maps, if_pos ((mem_mapped user).mp mem), Set.ncard_sdiff_singleton_add_one mem finite]
  · rw [maps, if_neg fun yes => mem ((mem_mapped user).mpr yes), Set.sdiff_singleton_eq_self mem, add_zero]

/-- One entry moves a frame's count by what it maps before and after. -/
theorem ncard_mapped_update (user : UserPage a v) (start : st'.frames.pfa.startAddr = st.frames.pfa.startAddr)
    (changed : ∀ d w, UserPage a w → entryAt a st' d w = if d = c ∧ w = v then x else entryAt a st d w)
    (finite : (mapped a st f).Finite) : (mapped a st' f).Finite ∧
      (mapped a st' f).ncard + maps st f (entryAt a st c v) = (mapped a st f).ncard + maps st f x := by
  have frames : ∀ addr, frameOf st' addr = frameOf st addr := fun addr => by
    simp [frameOf, Pfa.pfaPhysToFrame, start]
  have others : ∀ y, y ≠ (c, v) → (y ∈ mapped a st' f ↔ y ∈ mapped a st f) := by
    rintro ⟨d, w⟩ ne
    have away : ¬(d = c ∧ w = v) := fun same => ne (by rw [same.1, same.2])
    simp only [mapped, Set.mem_ofPred_eq, frames]
    refine and_congr_right fun user' => ?_
    rw [changed d w user', if_neg away]
  have rest : mapped a st' f \ {(c, v)} = mapped a st f \ {(c, v)} := by
    ext y
    exact and_congr_left fun ne => others y ne
  have finite' : (mapped a st' f).Finite := (finite.insert (c, v)).subset fun y mem => by
      by_cases same : y = (c, v)
      · exact .inl same
      · exact .inr ((others y same).mp mem)
  have same : maps st' f x = maps st f x := by simp [maps, frames]
  have after := ncard_mapped user c finite'
  rw [rest, changed c v user, if_pos ⟨rfl, rfl⟩, same] at after
  have before := ncard_mapped user c finite
  exact ⟨finite', by omega⟩

theorem framePhys_congr {s s' : Pfa.State} (start : s'.startAddr = s.startAddr) (f : Nat) :
    framePhys s' f = framePhys s f := by
  simp [framePhys, start]

theorem framePhys_inj {s : Pfa.State} {g : Nat} (same : framePhys s f = framePhys s g) : f = g := by
  simp only [framePhys, Pfa.pageSize] at same
  omega

theorem mapped_congr (start : st'.frames.pfa.startAddr = st.frames.pfa.startAddr)
    (translations : SameEntries a st st') (f : Nat) : mapped a st' f = mapped a st f := by
  ext ⟨c, v⟩
  simp only [mapped, Set.mem_ofPred_eq, frameOf, Pfa.pfaPhysToFrame, start]
  exact and_congr_right fun user => by rw [translations c v user]

theorem present_other {u : Nat} (tables : st'.tables = Radix.update st.tables t i x)
    (ne : u ≠ t) : present a st' u = present a st u := by
  simp only [present, tables]
  exact Finset.filter_congr fun j _ => by rw [Radix.update_of_ne (.inl ne)]

theorem card_present_update (tables : st'.tables = Radix.update st.tables t i x) (lt : i < entries a) :
    (present a st' t).card + (st.tables t i).isSome.toNat = (present a st t).card + x.isSome.toNat := by
  have rest : (present a st' t).erase i = (present a st t).erase i := by
    ext j
    simp only [present, Finset.mem_erase, Finset.mem_filter, tables]
    exact and_congr_right fun ne => by rw [Radix.update_of_ne (.inr ne)]
  have count : ∀ (s : Finset Nat) (b : Bool), (i ∈ s ↔ b = true) → s.card = (s.erase i).card + b.toNat := by
    intro s b iff
    by_cases mem : i ∈ s
    · rw [iff.mp mem, Bool.toNat_true, Finset.card_erase_add_one mem]
    · have no : b = false := by simpa using fun yes => mem (iff.mpr yes)
      rw [no, Finset.erase_eq_of_notMem mem, Bool.toNat_false, add_zero]
  rw [count (present a st' t) x.isSome (by simp [present, tables, lt]),
    count (present a st t) (st.tables t i).isSome (by simp [present, lt]), rest]
  omega

/-! ### Changes that keep the invariant -/

section

variable {R : Nat → Prop} (h : Inv a st place own)
include h

/-- A change after which the user's entries of the tables are some of the old ones. -/
theorem Inv.change (st' : State) {place' : Nat → Option (Nat × List Nat)} (moves : st.frames.Moves st'.frames R)
    (root : ∀ {c r}, st'.roots c = some r → place' r = some (c, []))
    (old : ∀ {t c p i e}, place' t = some (c, p) → UserPath a (p ++ [i]) → st'.tables t i = some e →
      place t = some (c, p) ∧ st.tables t i = some e)
    (kept : ∀ {t u}, Leads child st'.tables place' (UserPath a) t u →
      Leads child st.tables place (UserPath a) t u → place' u = place u)
    (table : ∀ {t c p}, place' t = some (c, p) → UserPath a p ∧ ∃ f, t = framePhys st.frames.pfa f ∧
      st'.frames.refs f = 1 ∧ (p.length + 1 = levels a →
        (st'.frames.pfa.pages f).ptPresentCount = BitVec.ofNat 8 (present a st' t).card))
    (acct : ∀ f, f < st.frames.pfa.totalFrames → (mapped a st' f).Finite ∧ own' f + (mapped a st' f).ncard +
      (place' (framePhys st.frames.pfa f)).isSome.toNat = st'.frames.refs f) : Inv a st' place' own' := by
  have phys := framePhys_congr moves.start
  refine ⟨moves.inv, moves.start ▸ h.aligned, root, h.forest.of_old old kept, fun placed inner found => ?_,
    fun placed => (table placed).1, fun placed => ?_, fun {f c p} placed leaf => ?_, fun f lt => ?_⟩
  · obtain ⟨before, entry⟩ := old placed inner found
    exact h.small before inner entry
  · obtain ⟨-, f, rfl, one, -⟩ := table placed
    exact ⟨f, (phys f).symm, one⟩
  · obtain ⟨-, g, same, -, count⟩ := table placed
    obtain rfl := framePhys_inj ((phys f).symm.trans same)
    exact count leaf
  · rw [phys]
    exact acct f (moves.total ▸ lt)

/-- The allocator moves on, and the references of the frames that are not tables with it. -/
theorem Inv.reframe (st' : State) (moves : st.frames.Moves st'.frames R)
    (same : ∀ {f x}, place (framePhys st.frames.pfa f) = some x → st'.frames.refs f = st.frames.refs f ∧
      (st'.frames.pfa.pages f).ptPresentCount = (st.frames.pfa.pages f).ptPresentCount)
    (acct : ∀ f, f < st.frames.pfa.totalFrames → own' f + st.frames.refs f = st'.frames.refs f + own f)
    (roots : st'.roots = st.roots) (tables : st'.tables = st.tables) : Inv a st' place own' := by
  refine h.change st' moves (fun root => h.root (roots ▸ root))
    (fun placed _ found => ⟨placed, tables ▸ found⟩) (fun _ _ => rfl) (fun placed => ⟨h.user placed, ?_⟩) fun f lt => ?_
  · obtain ⟨f, rfl, one⟩ := h.held placed
    refine ⟨f, rfl, (same placed).1.trans one, fun leaf => ?_⟩
    rw [(same placed).2, h.count placed leaf]
    simp [present, tables]
  · rw [mapped_congr moves.start fun c v user => entryAt_congr tables roots user]
    obtain ⟨finite, sum⟩ := h.acct f lt
    have := acct f lt
    exact ⟨finite, by omega⟩

theorem Inv.refs_eq_one {x : Nat × List Nat}
    (placed : place (framePhys st.frames.pfa f) = some x) : st.frames.refs f = 1 := by
  obtain ⟨g, same, one⟩ := h.held placed
  rw [framePhys_inj same, one]

/-- The frames of tables are held, so a call about other frames leaves their descriptors alone. -/
theorem Inv.counts_of_moves {frames' : Pfa.Sys} (moves : st.frames.Moves frames' R) {x : Nat × List Nat}
    (placed : place (framePhys st.frames.pfa f) = some x) (away : ¬R f) :
    (frames'.pfa.pages f).ptPresentCount = (st.frames.pfa.pages f).ptPresentCount := by
  rw [moves.pages f away (by rw [h.refs_eq_one placed]; exact one_pos)]

/-- The entry of a page changes, in a last-level table. -/
theorem Inv.setLeaf (user : UserPage a v)
    (walked : pteWalk a st c (v * pageSize) = some t) (x : Option Entry) {frames' : Pfa.Sys}
    (moves : st.frames.Moves frames' R)
    (refs : ∀ {f y}, place (framePhys st.frames.pfa f) = some y → frames'.refs f = st.frames.refs f)
    (others : ∀ {f y}, place (framePhys st.frames.pfa f) = some y → framePhys st.frames.pfa f ≠ t → ¬R f)
    (count : ∀ f, framePhys st.frames.pfa f = t → ∀ n,
      n + (entryAt a st c v).isSome.toNat = (present a st t).card + x.isSome.toNat →
      (frames'.pfa.pages f).ptPresentCount = BitVec.ofNat 8 n) (acct : ∀ f, f < st.frames.pfa.totalFrames →
      own' f + maps st f x + st.frames.refs f = frames'.refs f + own f + maps st f (entryAt a st c v)) :
    Inv a ({ st with frames := frames' }.setEntry t (pteIndex a (v * pageSize)) x) place own' := by
  have at_t := h.place_pteWalk user walked
  have leaf := path_length a (v * pageSize)
  set st' := { st with frames := frames' }.setEntry t (pteIndex a (v * pageSize)) x with hst'
  have tables : st'.tables = Radix.update st.tables t (pteIndex a (v * pageSize)) x := rfl
  refine h.change st' moves h.root (fun {u k p j e} at_u inner found => ⟨at_u, ?_⟩) (fun _ _ => rfl)
    (fun {u k p} placed => ⟨h.user placed, ?_⟩) fun f lt => ?_
  · -- a directory's entry is never the one that changes
    rwa [tables, Radix.update_of_ne (.inl ?_)] at found
    rintro rfl
    rw [at_t] at at_u
    cases at_u
    have short := inner.1
    rw [length_append, length_singleton] at short
    omega
  · obtain ⟨f, rfl, one⟩ := h.held placed
    refine ⟨f, rfl, (refs placed).trans one, fun isLeaf => ?_⟩
    by_cases same : framePhys st.frames.pfa f = t
    · refine count f same _ ?_
      rw [same, entryAt_walked walked]
      exact card_present_update tables (index_lt a _ _)
    · rw [present_other tables same]
      exact (h.counts_of_moves moves placed (others placed same)).trans (h.count placed isLeaf)
  · obtain ⟨finite, sum⟩ := h.acct f lt
    have changed : ∀ d w, UserPage a w → entryAt a st' d w = if d = c ∧ w = v then x else entryAt a st d w :=
      fun d w user' => h.entryAt_setLeaf user walked tables rfl user'
    obtain ⟨finite', moved⟩ := ncard_mapped_update user moves.start changed finite
    have := acct f lt
    refine ⟨finite', ?_⟩
    show _ = frames'.refs f
    omega

theorem Inv.frame_lt (one : st.frames.refs f = 1) : f < st.frames.pfa.totalFrames := by
  obtain ⟨loc, inv⟩ := h.alloc
  exact (inv.held f (by rw [one]; exact one_pos)).1

/-- The frame of a place is in use, so a frame that is not is no table. -/
theorem Inv.place_unheld (unheld : st.frames.refs f = 0) : place (framePhys st.frames.pfa f) = none := by
  cases placed : place (framePhys st.frames.pfa f) with
  | none => rfl
  | some x =>
    rw [h.refs_eq_one placed] at unheld
    cases unheld

theorem Inv.entryAt_scribble (unplaced : place t = none)
    (roots : st'.roots = st.roots) (tables : st'.tables = update st.tables t row) : SameEntries a st st' := by
  intro d w user
  refine h.entryAt_kept user (by rw [roots]) fun at_u _ => ?_
  rw [tables, update_of_ne fun same => by simp [same, unplaced] at at_u]

/-- A frame nobody holds becomes a table, with no entry for the user yet. -/
theorem Inv.newTable (st' : State) {x : Nat × List Nat} (covered : UserPath a x.2)
    (unheld : st.frames.refs f = 0) (at_f : t = framePhys st.frames.pfa f)
    (moves : st.frames.Moves st'.frames (· = f)) (refs : ∀ g, st'.frames.refs g = if g = f then 1 else st.frames.refs g)
    (count : x.2.length + 1 = levels a →
      (st'.frames.pfa.pages f).ptPresentCount = BitVec.ofNat 8 (present a st' t).card) (roots : st'.roots = st.roots)
    (tables : st'.tables = update st.tables t row) (empty : ∀ j, UserPath a (x.2 ++ [j]) → row j = none) :
    Inv a st' (update place t (some x)) own ∧ SameEntries a st st' ∧
      ∀ u, ¬Leads child st'.tables (update place t (some x)) (UserPath a) u t := by
  have fresh : place t = none := at_f ▸ h.place_unheld unheld
  have oldRow : ∀ {u y}, place u = some y → st'.tables u = st.tables u := fun {u y} placed => by
    rw [tables, update_of_ne fun same => by simp [same, fresh] at placed]
  have placeOther : ∀ {u y}, place u = some y → update place t (some x) u = some y := by
    intro u y placed
    rwa [update_of_ne fun same => by simp [same, fresh] at placed]
  -- the entries the user can have are those of the old tables
  have row_cases : ∀ {u k q j e}, update place t (some x) u = some (k, q) → UserPath a (q ++ [j]) →
      st'.tables u j = some e → place u = some (k, q) ∧ st.tables u j = some e := by
    intro u k q j e placed inner found
    rcases of_update placed with ⟨rfl, here⟩ | ⟨-, before⟩
    · cases here
      rw [tables, update_self, empty j inner] at found
      cases found
    · exact ⟨before, by rwa [oldRow before] at found⟩
  have translations := h.entryAt_scribble fresh roots tables
  have down : ∀ {u u'}, Leads child st.tables place (UserPath a) u u' → ∃ y, place u' = some y := by
    rintro u u' ⟨k, q, j, e, placed, inner, found, child⟩
    exact ⟨_, h.forest.down placed inner found child⟩
  have orphan : ∀ u, ¬Leads child st'.tables (update place t (some x)) (UserPath a) u t := by
    rintro u ⟨k, q, j, e, placed, inner, found, child⟩
    obtain ⟨before, found⟩ := row_cases placed inner found
    obtain ⟨y, placed'⟩ := down ⟨k, q, j, e, before, inner, found, child⟩
    rw [fresh] at placed'
    cases placed'
  refine ⟨h.change st' moves (fun root => placeOther (h.root (roots ▸ root))) row_cases
    (fun _ leads => ?_) (fun {u k q} placed => ?_) fun g lt => ?_, translations, orphan⟩
  · obtain ⟨y, placed⟩ := down leads
    rw [placed, placeOther placed]
  · rcases of_update placed with ⟨rfl, here⟩ | ⟨-, before⟩
    · cases here
      exact ⟨covered, f, at_f, by rw [refs, if_pos rfl], count⟩
    · obtain ⟨g, rfl, one⟩ := h.held before
      have ne : g ≠ f := fun same => by
        rw [same, unheld] at one
        cases one
      refine ⟨h.user before, g, rfl, by rw [refs, if_neg ne, one], fun leaf => ?_⟩
      rw [h.counts_of_moves moves before ne, h.count before leaf]
      simp [present, oldRow before]
  · obtain ⟨finite, sum⟩ := h.acct g lt
    rw [mapped_congr moves.start translations, refs]
    refine ⟨finite, ?_⟩
    obtain rfl | new := eq_or_ne g f
    · rw [← at_f, fresh] at sum
      rw [← at_f, update_self, if_pos rfl]
      simp only [isSome_none, isSome_some, Bool.toNat_false, Bool.toNat_true] at sum ⊢
      omega
    · have ne : framePhys st.frames.pfa g ≠ t := fun eq => new (framePhys_inj (eq.trans at_f))
      rw [update_of_ne ne, if_neg new]
      exact sum

/-- A directory's entry leads to a table from now on, and nothing is translated differently. -/
theorem Inv.setDir (st' : State) {user : Bool} (at_parent : place parent = some (c, p)) (inner : UserPath a (p ++ [i]))
    (at_t : place t = some (c, p ++ [i])) (orphan : ∀ u, ¬Leads child st.tables place (UserPath a) u t)
    (frames : st'.frames = st.frames) (roots : st'.roots = st.roots)
    (tables : st'.tables = Radix.update st.tables parent i (some (table a t user)))
    (translations : SameEntries a st st') : Inv a st' place own := by
  have leads_cases : ∀ {u u'}, Leads child st'.tables place (UserPath a) u u' →
      Leads child st.tables place (UserPath a) u u' ∨ u = parent ∧ t = u' := by
    rintro u u' ⟨k, q, j, e, placed, covered, found, child⟩
    rcases Radix.of_update (tables ▸ found) with ⟨rfl, rfl, ⟨⟩⟩ | ⟨-, before⟩
    · exact .inr ⟨rfl, some.inj child⟩
    · exact .inl ⟨k, q, j, e, placed, covered, before, child⟩
  -- The new entry is the only one that leads to the table.
  have single : ∀ {t t' u}, Leads child st'.tables place (UserPath a) t u →
      Leads child st'.tables place (UserPath a) t' u → t = t' := by
    intro _ _ u one two
    rcases leads_cases one with old | ⟨rfl, rfl⟩ <;> rcases leads_cases two with old' | ⟨rfl, same⟩
    · exact h.forest.single old old'
    · exact absurd (same ▸ old) (orphan _)
    · exact absurd old' (orphan _)
    · rfl
  refine ⟨frames ▸ h.alloc, frames ▸ h.aligned, fun root => h.root (roots ▸ root), ⟨single, ?_⟩, ?_, h.user,
    frames ▸ h.held, ?_, ?_⟩
  · intro u k q j e u' placed covered found child
    rcases Radix.of_update (tables ▸ found) with ⟨rfl, rfl, ⟨⟩⟩ | ⟨-, before⟩
    · rw [at_parent] at placed
      cases placed
      rw [← some.inj child]
      exact at_t
    · exact h.forest.down placed covered before child
  · intro u k q j e placed covered found
    rcases Radix.of_update (tables ▸ found) with ⟨-, -, ⟨⟩⟩ | ⟨-, before⟩
    · rfl
    · exact h.small placed covered before
  · intro g k q placed leaf
    rw [frames] at placed ⊢
    -- A directory has no counter.
    have not_parent : framePhys st.frames.pfa g ≠ parent := fun same => by
      rw [same, at_parent] at placed
      simp only [some.injEq, Prod.mk.injEq] at placed
      have short := inner.1
      rw [length_append, length_singleton, placed.2] at short
      omega
    rw [present_other tables not_parent]
    exact h.count placed leaf
  · rw [frames]
    intro f lt
    rw [mapped_congr (frames ▸ rfl) translations]
    exact h.acct f lt

/-- What a page's translation becomes when an entry of a directory changes. -/
theorem Inv.entryAt_setDir {r : Nat} (root : st.roots c = some r)
    (reach : walk child st.tables r p = some parent) (inner : UserPath a (p ++ [i]))
    (roots : st'.roots = st.roots) (tables : st'.tables = Radix.update st.tables parent i x)
    (user : UserPage a w) : (¬(d = c ∧ p ++ [i] <+: path a (w * pageSize)) → entryAt a st' d w = entryAt a st d w) ∧
      ∀ q, d = c → path a (w * pageSize) = p ++ i :: q → entryAt a st' d w =
        ((x.bind child).bind fun u => walk child st'.tables u q).bind fun u =>
          st'.tables u (pteIndex a (w * pageSize)) := by
  have closed := closed a
  have at_parent := h.place_walk root (closed _ _ inner) reach
  constructor
  · intro away
    refine h.entryAt_kept user (by rw [roots]) fun {u p' j} at_u prefixed => ?_
    rw [tables]
    refine Radix.update_of_ne (not_and_or.mp ?_)
    rintro ⟨rfl, rfl⟩
    rw [at_parent] at at_u
    cases at_u
    have short := inner.1
    have := path_length a (w * pageSize)
    exact away ⟨rfl, prefix_of_prefix_length_le prefixed (prefix_append _ _) (by omega)⟩
  · rintro q rfl eq
    rw [entryAt_eq user, roots, root]
    simp only [bind_some]
    rw [eq, tables, h.forest.walk_through closed i x (h.root root) (closed _ _ inner) reach q]

/-- An empty table is hung into a directory: nothing is translated through it yet. -/
theorem Inv.link (st' : State) {r : Nat} {user : Bool}
    (root : st.roots c = some r) (reach : walk child st.tables r p = some parent)
    (inner : UserPath a (p ++ [i])) (vacant : st.tables parent i = none) (at_t : place t = some (c, p ++ [i]))
    (empty : ∀ j, st.tables t j = none) (orphan : ∀ u, ¬Leads child st.tables place (UserPath a) u t)
    (frames : st'.frames = st.frames) (roots : st'.roots = st.roots)
    (tables : st'.tables = Radix.update st.tables parent i (some (table a t user))) :
    Inv a st' place own ∧ SameEntries a st st' ∧ walk child st'.tables r (p ++ [i]) = some t := by
  have closed := closed a
  have at_parent := h.place_walk root (closed _ _ inner) reach
  have apart : t ≠ parent := fun same => by
    rw [same, at_parent] at at_t
    simp at at_t
  have newRow : ∀ j, st'.tables t j = none := fun j => by
    rw [tables, Radix.update_of_ne (.inl apart), empty]
  have translations : SameEntries a st st' := by
    intro d w user'
    obtain ⟨away, through⟩ := h.entryAt_setDir root reach inner roots tables (d := d) user'
    by_cases passes : d = c ∧ p ++ [i] <+: path a (w * pageSize)
    · obtain ⟨rfl, q, eq⟩ := passes
      rw [append_assoc, singleton_append] at eq
      have before : entryAt a st d w = none := by
        rw [entryAt_eq user', root]
        simp only [bind_some]
        rw [← eq, Radix.walk_append, reach]
        simp [walk, vacant]
      rw [before, through q rfl eq.symm]
      have leads : (table a t user).child = some t := rfl
      simp only [bind_some, leads]
      cases q with
      | nil => simp [walk, newRow]
      | cons j q => simp [walk, newRow]
    · exact away passes
  refine ⟨h.setDir st' at_parent inner at_t orphan frames roots tables translations, translations, ?_⟩
  rw [tables, h.forest.walk_through closed i _ (h.root root) (closed _ _ inner) reach []]
  rfl

/-- A context without tables gets a root, still without an entry for the user. -/
theorem Inv.linkRoot (st' : State) (bare : st.roots c = none) (at_t : place t = some (c, []))
    (empty : ∀ j, j < userEntries a → st.tables t j = none) (frames : st'.frames = st.frames)
    (tables : st'.tables = st.tables) (roots : st'.roots = update st.roots c (some t)) :
    Inv a st' place own ∧ SameEntries a st st' := by
  have translations : SameEntries a st st' := by
    intro d w user
    rw [entryAt_eq user, entryAt_eq user, roots, tables]
    by_cases same : d = c
    · rw [same, update_self, bare]
      have first : ∃ q, path a (w * pageSize) = index a (w * pageSize) 0 :: q := by
        cases a <;> exact ⟨_, rfl⟩
      obtain ⟨q, eq⟩ := first
      simp [eq, walk, empty _ user.index_root]
    · rw [update_of_ne same]
  refine ⟨⟨frames ▸ h.alloc, frames ▸ h.aligned, fun {d r} root => ?_, tables ▸ h.forest, tables ▸ h.small, h.user,
    frames ▸ h.held, fun placed leaf => ?_, fun f lt => ?_⟩, translations⟩
  · rw [roots] at root
    rcases of_update root with ⟨rfl, here⟩ | ⟨-, root⟩
    · cases here
      exact at_t
    · exact h.root root
  · simp only [present, tables, frames] at placed ⊢
    exact h.count placed leaf
  · rw [mapped_congr (frames ▸ rfl) translations]
    rw [frames] at lt ⊢
    exact h.acct f lt

end

end

end Jlos.Paging
