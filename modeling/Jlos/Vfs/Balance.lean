import Jlos.Vfs.Unmount

/-!
# The balance of references

When no reference is outstanding, the dentries in the cache should have no references and each inode
as many as there are dentries and child inodes that point to it.
-/
namespace Jlos.Vfs

open Fat32 Lib Function List Option

/-- The dentries in the cache that refer to an inode. -/
def cachedTo (s : State) (i : Nat) : Nat :=
  countBelow (fun d => (s.dentries d).any fun x => !x.unhashed && x.inode = i) s.dentryCount

/-- The dentry is the root of a mounted volume. -/
def MountRoot (s : State) (d : Nat) : Prop := ∃ m x, s.mounts m = some x ∧ x.root = d

/-- The references are balanced. -/
structure Balanced (s : State) : Prop where
  dentries : ∀ d x, s.dentries d = some x → ¬MountRoot s d → x.unhashed = false →
    x.refCount = 0 ∧ d ∈ s.lru
  inodes : ∀ i n, s.inodes i = some n → n.refCount = (cachedTo s i + childrenOf s i : Nat)

private theorem cachedTo_le (s : State) (i : Nat) : cachedTo s i ≤ dentriesTo s i := by
  refine countBelow_le fun d _ met => ?_
  obtain ⟨x, entry, met⟩ := (Option.any_eq_true ..).mp met
  rw [entry, any_some]
  exact (Bool.and_eq_true _ _ ▸ met).2

/-- One inode is enough to have a reference that nothing accounts for. -/
theorem Held.not_balanced {s : State} (held : Held s) {i : Nat} {n : Inode}
    (inode : s.inodes i = some n) : ¬Balanced s := by
  intro balanced
  have exactly := balanced.inodes i n inode
  have spare := held.spare i n inode
  have cached := cachedTo_le s i
  omega

/-! ### Before the first mount -/

/-- There are no dentries and no inodes. -/
structure Bare (s : State) : Prop where
  inodes : ∀ i, s.inodes i = none
  dentries : ∀ d, s.dentries d = none
  dentryCount : s.dentryCount = 0

namespace Bare

variable {s : State}

theorem balanced (bare : Bare s) : Balanced s where
  dentries d x found := by
    rw [bare.dentries d] at found
    cases found
  inodes i n found := by
    rw [bare.inodes i] at found
    cases found

/-- Nothing can be looked up, and there is no dentry to get or to put. -/
theorem keeps : Keeps (fun _ _ _ => true) Bare where
  component s cur name bare _ := by
    have uncached : dentryLookupChild s cur name = none := by
      rw [dentryLookupChild, bare.dentryCount]
      rfl
    rw [lookupComponent, uncached, bare.dentries cur]
    exact bare
  get s d bare := by
    rw [dentryGet, bare.dentries d]
    exact bare
  put s d bare := by
    rw [dentryPut, bare.dentryCount, dentryDrop, bare.dentries d]
    exact bare
  remove s d x p bare found := by
    rw [bare.dentries d] at found
    cases found
  data s s' same bare := by
    refine ⟨fun i => ?_, fun d => ?_, same.dentryCount.trans bare.dentryCount⟩
    · have values := same.inodes i
      rw [bare.inodes i] at values
      exact map_eq_none_iff.mp values
    · rw [same.dentries, bare.dentries]

end Bare

/-! ### All histories -/

/-- A mount leaves an inode behind, and no later event takes it away. -/
private theorem mounted_or_bare {kallocs : List Bool} {es : List (State × Event)} {s : State}
    (run : Run Happens (initState kallocs) es s) :
    (∃ i n, s.inodes i = some n) ∧ (∃ e ∈ es, ∃ dev path, e.2 = .mount dev path) ∨
      Bare s ∧ ∀ e ∈ es, ∃ op, e.2 = .call op := by
  induction run with
  | start => exact .inr ⟨⟨fun _ => rfl, fun _ => rfl, rfl⟩, nofun⟩
  | @snoc es s event s' before happens ih =>
    have rooted := rooted_of_run before
    cases event with
    | mount dev path =>
      rw [happens.2]
      have inode := (vfsMount_rooted rooted dev path happens.1).2.2
      exact .inl ⟨inode, (s, .mount dev path), by simp, dev, path, rfl⟩
    | call op =>
      obtain rfl : s' = exec s op := happens
      rcases ih with ⟨inode, e, happened, mount⟩ | ⟨bare, calls⟩
      · have kept := (Held.keeps (I := fun s => ∃ i n, s.inodes i = some n) fun _ _ old grows => by
          obtain ⟨i, n, found⟩ := old
          obtain ⟨n', found', -⟩ := grows.inodes i n found
          exact ⟨i, n', found'⟩).exec ⟨rooted.1, inode⟩ (meets_true s op)
        exact .inl ⟨kept.2, e, mem_append_left _ happened, mount⟩
      · refine .inr ⟨Bare.keeps.exec bare (meets_true s op), fun e happened => ?_⟩
        rcases mem_append.mp happened with old | new
        · exact calls e old
        · exact ⟨op, by rw [mem_singleton.mp new]⟩

/-- Whatever was done before, and whether references are outstanding or not: the references are
balanced exactly if no volume has been mounted. -/
theorem references_balanced_iff (kallocs : List Bool) (es : List (State × Event)) (s : State)
    (run : Run Happens (initState kallocs) es s) :
    Balanced s ↔ ∀ e ∈ es, ∃ op, e.2 = .call op := by
  rcases mounted_or_bare run with ⟨⟨i, n, inode⟩, e, happened, dev, path, mount⟩ | ⟨bare, calls⟩
  · refine iff_of_false ((rooted_of_run run).1.not_balanced inode) fun calls => ?_
    obtain ⟨op, call⟩ := calls e happened
    rw [mount] at call
    cases call
  · exact iff_of_true bare.balanced calls

/-- The small volume with the file `/A` closed again. -/
def smallClosed : State := exec smallOpened (.close 0)

private theorem smallClosed_run : ∃ es, Run Happens (initState []) es smallClosed ∧
    es.map Prod.snd = [.mount smallDevice [0x2F], .call (.open (rootFile 0x41) creating), .call (.close 0)] := by
  have mounted : (vfsMount (initState []) smallDevice [0x2F]).1.isSome := by decide +kernel
  have run : Run Happens (initState []) [(initState [], .mount smallDevice [0x2F]),
      (smallMount, .call (.open (rootFile 0x41) creating)), (smallOpened, .call (.close 0))] smallClosed :=
    ((Run.start.snoc ⟨mounted, rfl⟩).snoc rfl).snoc rfl
  exact ⟨_, run, rfl⟩

theorem closed_file_unbalanced : ¬Balanced smallClosed ∧ Balanced (initState []) := by
  obtain ⟨es, run, events⟩ := smallClosed_run
  constructor
  · intro balanced
    have calls := (references_balanced_iff [] es smallClosed run).mp balanced
    have mount : Event.mount smallDevice [0x2F] ∈ es.map Prod.snd := by
      rw [events]
      exact mem_cons_self
    obtain ⟨e, happened, eq⟩ := mem_map.mp mount
    obtain ⟨op, call⟩ := calls e happened
    rw [eq] at call
    cases call
  · exact (references_balanced_iff [] [] _ Run.start).mpr nofun

/-- A file is created, opened and closed. Nothing is outstanding, but its dentry has a reference and
is not on the list of unused dentries, and its inode has two references for one dentry. -/
theorem unbalanced_after_close : (∃ es, Run Happens (initState []) es smallClosed ∧ es.map Prod.snd =
      [.mount smallDevice [0x2F], .call (.open (rootFile 0x41) creating), .call (.close 0)]) ∧
    smallClosed.fileCount = 1 ∧ smallClosed.files 0 = none ∧ ∃ x n,
    smallClosed.dentries 1 = some x ∧ x.unhashed = false ∧ x.refCount = 1 ∧ 1 ∉ smallClosed.lru ∧
    smallClosed.inodes 1 = some n ∧ n.refCount = 2 ∧ cachedTo smallClosed 1 = 1 ∧
    childrenOf smallClosed 1 = 0 := by
  have dentry : (smallClosed.dentries 1).map (fun x => (x.unhashed, x.refCount)) = some (false, 1) := by
    decide +kernel
  have inode : (smallClosed.inodes 1).map (·.refCount) = some 2 := by decide +kernel
  obtain ⟨x, found, values⟩ := map_eq_some_iff.mp dentry
  obtain ⟨hashed, count⟩ := Prod.mk.inj values
  obtain ⟨n, found', refs⟩ := map_eq_some_iff.mp inode
  have gone : (smallClosed.files 0).isNone := by decide +kernel
  exact ⟨smallClosed_run, by decide +kernel, isNone_iff_eq_none.mp gone, x, n, found, hashed, count,
    by decide +kernel, found', refs, by decide +kernel, by decide +kernel⟩

end Jlos.Vfs
