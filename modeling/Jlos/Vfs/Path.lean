import Jlos.Lib.Parts
import Jlos.Vfs.Runs

/-!
# Paths and their components

`jlos_vfs_lookup` takes a path apart while it walks, and `path_parent_leaf` once more for the
creation of a file. Both should see the parts of the path between its slashes.
-/
namespace Jlos.Vfs

open Fat32 Lib List

/-- The lookup of one more component, if there was none that failed. -/
def lookupNext (found : Option Nat × State) (name : List Byte) : Option Nat × State :=
  match found with
  | (none, s) => (none, s)
  | (some cur, s) => lookupComponent s cur name

theorem walk_eq_foldl (names : List (List Byte)) (s : State) (cur : Nat) :
    walk s cur names = names.foldl lookupNext (some cur, s) := by
  have failed : ∀ (names : List (List Byte)) (s : State), names.foldl lookupNext (none, s) = (none, s) := by
    intro names s
    induction names with
    | nil => rfl
    | cons name rest ih => exact ih
  induction names generalizing s cur with
  | nil => rfl
  | cons name rest ih =>
    rw [walk, foldl_cons, lookupNext]
    split
    next s' eq => rw [eq, failed]
    next child s' eq => rw [eq, ih]

theorem components_eq {rounds : Nat} {p : List Byte} (enough : p.length < rounds)
    (short : ∀ part ∈ parts 0x2F p, part.length ≤ nameMax) : components rounds p = parts 0x2F p := by
  induction rounds generalizing p with
  | zero => omega
  | succ rounds ih =>
    have most : (p.dropWhile (· = 0x2F)).length ≤ p.length := (dropWhile_suffix _).length_le
    have head := head?_dropWhile_not (· = (0x2F : Byte)) p
    rw [← parts_skip] at short ⊢
    rw [components]
    generalize p.dropWhile (· = 0x2F) = q at *
    cases q with
    | nil => rfl
    | cons b q =>
      have plain : b ≠ 0x2F := by simpa using head
      obtain ⟨rest, whole, first, split⟩ := parts_cons plain
      rw [split] at short ⊢
      rw [pathNextComponent, take_of_length_le (short _ mem_cons_self)]
      generalize (b :: q).takeWhile (· ≠ 0x2F) = c at *
      have lengths := congrArg List.length whole
      have pos := length_pos_of_ne_nil first
      rw [length_append] at lengths
      simp only [List.isEmpty_iff, first, if_false, ← whole, List.drop_left]
      rw [ih (by omega) fun part mem => short part (mem_cons_of_mem _ mem)]

theorem pathParentLeaf_eq {front leaf : List Byte} (plain : 0x2F ∉ leaf) (nonempty : leaf ≠ []) :
    pathParentLeaf (front ++ 0x2F :: leaf) =
      if front.isEmpty then .split [0x2F] (leaf.take nameMax)
      else if pathMax ≤ front.length then .overrun else .split front (leaf.take nameMax) := by
  have last : ((front ++ 0x2F :: leaf).reverse.takeWhile (· ≠ 0x2F)).reverse = leaf := by
    rw [reverse_append, reverse_cons, append_assoc, takeWhile_append_of_pos]
    · simp
    · intro b mem
      simpa using ne_of_mem_of_not_mem (mem_reverse.mp mem) plain
  have length : (front ++ 0x2F :: leaf).length - leaf.length - 1 = front.length := by
    simp only [length_append, length_cons]
    omega
  rw [pathParentLeaf, last, length, take_left]
  simp [nonempty]

theorem pathParentLeaf_slash {path : List Byte} (last : path.getLast? = some 0x2F) :
    pathParentLeaf path = .failed := by
  have none : path.reverse.takeWhile (· ≠ 0x2F) = [] := by
    rw [← head?_reverse] at last
    obtain ⟨rest, eq⟩ := head?_eq_some_iff.mp last
    rw [eq]
    rfl
  rw [pathParentLeaf, none]
  simp

/-- The walk over a list of names from the root of the tree. -/
def lookupParts (s : State) (names : List (List Byte)) : Option Nat × State :=
  match s.rootDentry with
  | none => (none, s)
  | some root => names.foldl lookupNext (some root, dentryGet s root)

/-- The creation of a file with a name in the directory a walk has found. -/
def createIn (leaf : List Byte) : Option Nat × State → Option Nat × Bool × State
  | (none, s) => (none, false, s)
  | (some parent, s) =>
    match (s.dentries parent).bind fun x => (s.inodes x.inode).map fun n => (x.inode, n.isDir) with
    | some (dir, true) => (some parent, fatCreate s dir leaf)
    | _ => (some parent, false, s)

theorem lookup_eq {path : List Byte} (absolute : path.head? = some 0x2F)
    (short : ∀ part ∈ parts 0x2F path, part.length ≤ nameMax) (s : State) :
    lookup s path = lookupParts s (parts 0x2F path) := by
  cases path with
  | nil => cases absolute
  | cons b rest =>
    cases absolute
    rw [parts_sep] at short ⊢
    cases mounted : s.rootDentry with
    | none => simp only [lookup, lookupParts, mounted]
    | some root =>
      have walks : lookup s (0x2F :: rest) = walk (dentryGet s root) root (components (rest.length + 1) rest) := by
        simp only [lookup, mounted]
        rfl
      rw [walks, components_eq (Nat.lt_succ_self _) short, walk_eq_foldl]
      simp only [lookupParts, mounted]

theorem lookup_root (s : State) : lookup s [0x2F] = lookupParts s [] := lookup_eq rfl (by decide) s

/-! ### A tree for any path -/

/-- The names lead from the root down, each dentry in the cache and in use. -/
structure Chained (names : List (List Byte)) (s : State) : Prop where
  root : s.rootDentry = some 0
  count : s.dentryCount = names.length + 1
  lru : s.lru = []
  dentry : ∀ d ≤ names.length, ∃ x, s.dentries d = some x ∧ x.unhashed = false ∧ 1 ≤ x.refCount ∧
    ∀ e, x.parent = some e ↔ d = e + 1
  name : ∀ e x, s.dentries (e + 1) = some x → names[e]? = some x.name

namespace Chained

variable {names : List (List Byte)} {s : State}

/-- The count of a dentry changes, but does not come to zero. -/
theorem recount (h : Chained names s) {d : Nat} {x : Dentry} (found : s.dentries d = some x)
    {count : Int} (used : 1 ≤ count) :
    Chained names (s.setDentry d (some { x with refCount := count })) where
  root := h.root
  count := h.count
  lru := h.lru
  dentry e le := by
    obtain ⟨y, there, hashed, held, parent⟩ := h.dentry e le
    obtain rfl | other := eq_or_ne e d
    · rw [found] at there
      cases there
      exact ⟨_, Function.update_self .., hashed, used, parent⟩
    · exact ⟨y, (Function.update_of_ne other ..).trans there, hashed, held, parent⟩
  name e y there := by
    rcases of_update there with ⟨same, eq⟩ | ⟨-, old⟩
    · cases eq
      exact h.name e x (same ▸ found)
    · exact h.name e y old

theorem get_eq {d : Nat} {x : Dentry} (found : s.dentries d = some x)
    (used : 1 ≤ x.refCount) :
    dentryGet s d = s.setDentry d (some { x with refCount := x.refCount + 1 }) := by
  simp only [dentryGet, found]
  rw [if_neg (by omega)]

theorem put_eq (h : Chained names s) {d : Nat} {x : Dentry} (found : s.dentries d = some x)
    (held : 2 ≤ x.refCount) :
    dentryPut s d = s.setDentry d (some { x with refCount := x.refCount - 1 }) := by
  have drops : dentryDrop s d = s.setDentry d (some { x with refCount := x.refCount - 1 }) := by
    simp only [dentryDrop, found]
    rw [if_neg (by omega)]
  rw [dentryPut, drops]
  cases s.dentryCount with
  | zero => rfl
  | succ rounds =>
    rw [dentryShrink, show (s.setDentry d _).lru = [] from h.lru]

theorem child_eq (h : Chained names s) {cur : Nat} {name : List Byte}
    (at' : names[cur]? = some name) : dentryLookupChild s cur name = some (cur + 1) := by
  obtain ⟨lt, -⟩ := List.getElem?_eq_some_iff.mp at'
  obtain ⟨y, child, hashed, -, parent⟩ := h.dentry (cur + 1) lt
  have named := h.name cur y child
  rw [at'] at named
  cases named
  rw [dentryLookupChild, find?_range_eq_some]
  refine ⟨?_, mem_range.mpr (by rw [h.count]; omega), fun d before => ?_⟩
  · rw [child]
    simp [hashed, (parent cur).mpr rfl]
  · -- no dentry above has the parent
    obtain ⟨z, there, -, -, parent'⟩ := h.dentry d (by omega)
    have other : z.parent ≠ some cur := fun eq => by
      have := (parent' cur).mp eq
      omega
    rw [there]
    simp [other]

/-- The walk goes down one dentry after the other. -/
theorem walk (h : Chained names s) {cur : Nat} {x : Dentry} (found : s.dentries cur = some x)
    (held : 2 ≤ x.refCount) (rest : List (List Byte)) (below : names.drop cur = rest) :
    (Vfs.walk s cur rest).1.isSome := by
  induction rest generalizing s cur x with
  | nil => rfl
  | cons name rest ih =>
    have at' : names[cur]? = some name := by
      rw [← head?_drop, below]
      rfl
    obtain ⟨lt, -⟩ := List.getElem?_eq_some_iff.mp at'
    obtain ⟨y, child, -, used, -⟩ := h.dentry (cur + 1) lt
    have got := h.recount child (show 1 ≤ y.refCount + 1 by omega)
    have kept : (s.setDentry (cur + 1) (some { y with refCount := y.refCount + 1 })).dentries cur = some x :=
      (Function.update_of_ne (by omega) ..).trans found
    have next : lookupComponent s cur name = (some (cur + 1), (s.setDentry (cur + 1)
        (some { y with refCount := y.refCount + 1 })).setDentry cur
        (some { x with refCount := x.refCount - 1 })) := by
      rw [lookupComponent, h.child_eq at', ← got.put_eq kept held, ← get_eq child used]
    rw [Vfs.walk, next]
    refine ih (got.recount kept (by omega)) (x := { y with refCount := y.refCount + 1 }) ?_ ?_ ?_
    · exact (Function.update_of_ne (by omega) ..).trans (Function.update_self ..)
    · show 2 ≤ y.refCount + 1
      omega
    · rw [← tail_drop, below]
      rfl

theorem walk_root (h : Chained names s) : (Vfs.walk (dentryGet s 0) 0 names).1.isSome := by
  obtain ⟨x, found, -, used, -⟩ := h.dentry 0 (Nat.zero_le _)
  rw [get_eq found used]
  refine (h.recount found (by omega)).walk (Function.update_self ..) ?_ names rfl
  show 2 ≤ x.refCount + 1
  omega

end Chained

/-- The dentries of a chain: each one is the only child of the one before it. -/
def chainDentries (names : List (List Byte)) : Nat → Option Dentry
  | 0 => some ⟨[], 0, none, 1, false⟩
  | e + 1 => names[e]?.map fun name => ⟨name, 0, some e, 1, false⟩

/-- For every list of names there is a tree in which they can be walked down. -/
theorem exists_chained (names : List (List Byte)) : ∃ s, Chained names s := by
  refine ⟨{ initState [] with
    rootDentry := some 0
    dentryCount := names.length + 1
    dentries := chainDentries names }, rfl, rfl, rfl, ?_, ?_⟩
  · intro d le
    cases d with
    | zero => exact ⟨_, rfl, rfl, le_refl _, fun e => iff_of_false nofun (by omega)⟩
    | succ e =>
      have lt : e < names.length := le
      refine ⟨⟨names[e], 0, some e, 1, false⟩, ?_, rfl, le_refl _, fun e' => ?_⟩
      · simp [chainDentries, getElem?_eq_getElem lt]
      · simp
  · intro e x found
    obtain ⟨name, there, eq⟩ := Option.map_eq_some_iff.mp found
    rw [there, ← eq]

theorem exists_lookupParts (names : List (List Byte)) :
    ∃ s d s', lookupParts s names = (some d, s') := by
  obtain ⟨s, chained⟩ := exists_chained names
  have walked := chained.walk_root
  rw [walk_eq_foldl] at walked
  obtain ⟨d, first⟩ := Option.isSome_iff_exists.mp walked
  refine ⟨s, d, (names.foldl lookupNext (some 0, dentryGet s 0)).2, ?_⟩
  rw [lookupParts, chained.root]
  exact Prod.ext first rfl

/-! ### The claims about a path -/

/-- The lookup of a path is the walk over its parts, and fails if a part is too long; what an open
creates is the last part, in the directory that the others lead to. -/
structure Faithful (path : List Byte) : Prop where
  lookup : (∀ part ∈ parts 0x2F path, part.length ≤ nameMax) → ∀ s,
    Vfs.lookup s path = lookupParts s (parts 0x2F path)
  long : (∃ part ∈ parts 0x2F path, nameMax < part.length) → ∀ s, (Vfs.lookup s path).1 = none
  create : ∀ front leaf, parts 0x2F path = front ++ [leaf] → ∀ s,
    openCreate s path = createIn leaf (lookupParts s front)

/-- A lookup of any path succeeds in some tree. -/
theorem exists_lookup {path : List Byte} (absolute : path.head? = some 0x2F) :
    ∃ s, (lookup s path).1.isSome := by
  cases path with
  | nil => cases absolute
  | cons b rest =>
    cases absolute
    obtain ⟨s, chained⟩ := exists_chained (components (rest.length + 1) rest)
    refine ⟨s, ?_⟩
    have walked := chained.walk_root
    simp only [lookup, chained.root]
    exact walked

/-- An open does not give up the creation of a file whatever the tree is. -/
theorem Faithful.create_reached {path leaf : List Byte} {front : List (List Byte)} (faithful : Faithful path)
    (split : parts 0x2F path = front ++ [leaf]) : ¬∀ s, openCreate s path = (none, false, s) := by
  intro fails
  obtain ⟨s, d, s', walked⟩ := exists_lookupParts front
  have creates := faithful.create front leaf split s
  rw [fails s, walked, createIn] at creates
  have first := congrArg Prod.fst creates
  split at first <;> cases first

theorem openCreate_eq {path : List Byte} (absolute : path.head? = some 0x2F)
    (short : ∀ part ∈ parts 0x2F path, part.length ≤ nameMax) (slash : path.getLast? ≠ some 0x2F)
    (fits : ∀ front leaf, path = front ++ 0x2F :: leaf → 0x2F ∉ leaf → front.length < pathMax)
    {others : List (List Byte)} {last : List Byte} (split : parts 0x2F path = others ++ [last]) (s : State) :
    openCreate s path = createIn last (lookupParts s others) := by
  obtain ⟨front, leaf, rfl, plain, nonempty⟩ := exists_last_part (mem_of_mem_head? absolute) slash
  have bound := fits front leaf rfl plain
  rw [parts_append, parts_single nonempty plain] at split short
  obtain ⟨rfl, eq⟩ := append_inj' split rfl
  obtain rfl := List.singleton_inj.mp eq
  have whole : leaf.take nameMax = leaf := take_of_length_le (short _ (mem_append_right _ mem_cons_self))
  rw [openCreate, pathParentLeaf_eq plain nonempty, whole, if_neg (Nat.not_le.mpr bound)]
  cases front with
  | nil =>
    simp only [isEmpty_nil, if_true, lookup_root]
    rfl
  | cons b front =>
    have head : (b :: front).head? = some 0x2F := absolute
    have parent := lookup_eq head (fun part mem => short part (mem_append_left _ mem)) s
    simp only [isEmpty_cons, Bool.false_eq_true, if_false, parent]
    rfl

/-- An absolute path is treated like that exactly if none of its parts is longer than
`JLOS_VFS_NAME_MAX` and, unless it has no parts, it does not end with a slash and what stands in
front of its last slash is shorter than `JLOS_VFS_PATH_MAX`. -/
theorem path_parts_iff (path : List Byte) (absolute : path.head? = some 0x2F) :
    Faithful path ↔ (∀ part ∈ parts 0x2F path, part.length ≤ nameMax) ∧
      (parts 0x2F path ≠ [] → path.getLast? ≠ some 0x2F ∧
        ∀ front leaf, path = front ++ 0x2F :: leaf → 0x2F ∉ leaf → front.length < pathMax) := by
  constructor
  · intro faithful
    refine ⟨fun part mem => Nat.le_of_not_lt fun long => ?_, fun some' => ?_⟩
    · obtain ⟨s, found⟩ := exists_lookup absolute
      rw [faithful.long ⟨part, mem, long⟩ s] at found
      cases found
    · obtain ⟨front, leaf, split⟩ := (eq_nil_or_concat _).resolve_left some'
      rw [concat_eq_append] at split
      have slash : path.getLast? ≠ some 0x2F := fun last =>
        faithful.create_reached split fun s => by rw [openCreate, pathParentLeaf_slash last]
      refine ⟨slash, fun front' leaf' eq plain => Nat.lt_of_not_le fun long => ?_⟩
      have nonempty : leaf' ≠ [] := by
        rintro rfl
        exact slash (by rw [eq]; simp)
      have behind : pathParentLeaf path = .overrun := by
        have filled : front'.isEmpty = false := by
          cases front' with
          | nil => exact absurd long (by decide)
          | cons _ _ => rfl
        rw [eq, pathParentLeaf_eq plain nonempty, filled, if_neg Bool.false_ne_true, if_pos long]
      exact faithful.create_reached split fun s => by rw [openCreate, behind]
  · rintro ⟨short, creates⟩
    refine ⟨fun _ => lookup_eq absolute short, fun tooLong => ?_, fun first last split s => ?_⟩
    · obtain ⟨part, mem, long⟩ := tooLong
      exact absurd (short part mem) (by omega)
    · obtain ⟨slash, fits⟩ := creates (by rw [split]; simp)
      exact openCreate_eq absolute short slash fits split s

/-- Two parts with an empty one between them; and a path that ends with a slash. -/
theorem path_parts_nested : (parts 0x2F [0x2F, 0x61, 0x2F, 0x2F, 0x62] = [[0x61], [0x62]] ∧
    ∀ s, lookup s [0x2F, 0x61, 0x2F, 0x2F, 0x62] = lookupParts s [[0x61], [0x62]]) ∧
    ¬Faithful [0x2F, 0x61, 0x2F] := by
  refine ⟨⟨by decide, ?_⟩, fun faithful => ?_⟩
  · refine ((path_parts_iff [0x2F, 0x61, 0x2F, 0x2F, 0x62] rfl).mpr ⟨by decide, fun _ => ⟨by decide, ?_⟩⟩).lookup
      (by decide)
    intro front leaf eq plain
    have lengths := congrArg List.length eq
    rw [length_append, length_cons] at lengths
    have : 5 < pathMax := by decide
    simp only [length_cons, length_nil] at lengths
    omega
  · exact (((path_parts_iff [0x2F, 0x61, 0x2F] rfl).mp faithful).2 (by decide)).1 (by decide)

/-- A directory below the root with the longest name there is, and a file in it, both in the dentry
cache. -/
def longDirectory : State :=
  { initState [] with
    rootDentry := some 0
    dentryCount := 3
    dentries := fun d =>
      [⟨[], 0, none, 1, false⟩, ⟨List.replicate nameMax 0x61, 1, some 0, 1, false⟩, ⟨[0x61], 2, some 1, 1, false⟩][d]? }

/-- A part of 256 letters is looked up as two components, and what is created in its place has one
letter less. -/
theorem long_part_accepted : parts 0x2F (0x2F :: List.replicate 256 0x61) = [List.replicate 256 0x61] ∧ nameMax < 256 ∧
    (lookup longDirectory (0x2F :: List.replicate 256 0x61)).1 = some 2 ∧
    ∀ s, openCreate s (0x2F :: List.replicate 256 0x61) = createIn (List.replicate 255 0x61) (lookupParts s []) := by
  have cut : pathParentLeaf (0x2F :: List.replicate 256 0x61) = .split [0x2F] (List.replicate 255 0x61) := by
    decide +kernel
  refine ⟨by decide +kernel, by decide, by decide +kernel, fun s => ?_⟩
  simp only [openCreate, cut, lookup_root]
  rfl

end Jlos.Vfs
