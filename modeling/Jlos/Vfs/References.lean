import Jlos.Lib.Count
import Jlos.Vfs.Runs

/-!
# References to inodes

The reference count of an inode exceeds the number of dentries and child inodes that point to it:
`fat32_lookup_inner` drops neither of the references that it leaves behind.
-/
namespace Jlos.Vfs

open Fat32 Lib Function Option Bool

def dentriesTo (s : State) (i : Nat) : Nat := countBelow (fun d => (s.dentries d).any (·.inode = i)) s.dentryCount

def childrenOf (s : State) (i : Nat) : Nat := countBelow (fun j => (s.inodes j).any (·.parent = some i)) s.inodeCount

/-- Every reference count is larger than the number of pointers that it counts. -/
structure Held (s : State) : Prop where
  dentry_lt : ∀ d x, s.dentries d = some x → d < s.dentryCount
  inode_lt : ∀ i n, s.inodes i = some n → i < s.inodeCount
  dentry_inode : ∀ d x, s.dentries d = some x → ∃ n, s.inodes x.inode = some n
  parent_inode : ∀ i n p, s.inodes i = some n → n.parent = some p → ∃ n', s.inodes p = some n'
  spare : ∀ i n, s.inodes i = some n → dentriesTo s i + childrenOf s i + 1 ≤ n.refCount

/-- Every inode is still there, of the same volume, and the mounts are the same. -/
structure Grows (s s' : State) : Prop where
  inodes : ∀ i n, s.inodes i = some n → ∃ n', s'.inodes i = some n' ∧ n'.sb = n.sb
  mounts : s'.mounts = s.mounts

theorem Grows.refl (s : State) : Grows s s := ⟨fun _ n found => ⟨n, found, rfl⟩, rfl⟩

theorem Grows.trans {s s' s'' : State} (h : Grows s s') (h' : Grows s' s'') : Grows s s'' where
  inodes i n found := by
    obtain ⟨n', found', same⟩ := h.inodes i n found
    obtain ⟨n'', found'', same'⟩ := h'.inodes i n' found'
    exact ⟨n'', found'', same'.trans same⟩
  mounts := h'.mounts.trans h.mounts

namespace Held

variable {s s' : State}

/-- The pointers stay, and the counts do not get smaller. -/
structure Raises (s s' : State) : Prop where
  dentries : ∀ d, (s'.dentries d).map (·.inode) = (s.dentries d).map (·.inode)
  dentryCount : s'.dentryCount = s.dentryCount
  inodeCount : s'.inodeCount = s.inodeCount
  none : ∀ i, s.inodes i = none → s'.inodes i = none
  some : ∀ i n, s.inodes i = some n → ∃ n', s'.inodes i = some n' ∧ n'.sb = n.sb ∧
    n'.parent = n.parent ∧ n.refCount ≤ n'.refCount
  mounts : s'.mounts = s.mounts

namespace Raises

theorem of_inodes (dentries : ∀ d, (s'.dentries d).map (·.inode) = (s.dentries d).map (·.inode))
    (dentryCount : s'.dentryCount = s.dentryCount) (inodeCount : s'.inodeCount = s.inodeCount)
    (inodes : s'.inodes = s.inodes) (mounts : s'.mounts = s.mounts) : Raises s s' :=
  ⟨dentries, dentryCount, inodeCount, fun _ found => inodes ▸ found, fun _ n found =>
    ⟨n, inodes ▸ found, rfl, rfl, Int.le_refl _⟩, mounts⟩

theorem trans {s'' : State} (h : Raises s s') (h' : Raises s' s'') : Raises s s'' where
  dentries d := (h'.dentries d).trans (h.dentries d)
  dentryCount := h'.dentryCount.trans h.dentryCount
  inodeCount := h'.inodeCount.trans h.inodeCount
  none i found := h'.none i (h.none i found)
  some i n found := by
    obtain ⟨n', found', sb, parent, le⟩ := h.some i n found
    obtain ⟨n'', found'', sb', parent', le'⟩ := h'.some i n' found'
    exact ⟨n'', found'', sb'.trans sb, parent'.trans parent, Int.le_trans le le'⟩
  mounts := h'.mounts.trans h.mounts

theorem of_same (h : SameObjects s s') : Raises s s' where
  dentries d := by rw [h.dentries]
  dentryCount := h.dentryCount
  inodeCount := h.inodeCount
  none i found := by
    have same := h.inodes i
    rw [found] at same
    exact map_eq_none_iff.mp same
  some i n found := by
    have same := h.inodes i
    rw [found] at same
    obtain ⟨n', found', eq⟩ := map_eq_some_iff.mp same
    simp only [Inode.identity, Prod.mk.injEq] at eq
    exact ⟨n', found', eq.2.1, eq.2.2.2, Int.le_of_eq eq.2.2.1.symm⟩
  mounts := h.mounts

theorem setLru (lru : List Nat) : Raises s { s with lru := lru } := of_inodes (fun _ => rfl) rfl rfl rfl rfl

theorem modDentry (d : Nat) {f : Dentry → Dentry} (keeps : ∀ x, (f x).inode = x.inode) :
    Raises s (s.modDentry d f) := by
  refine of_inodes (fun e => ?_) rfl rfl rfl rfl
  show (update s.dentries d ((s.dentries d).map f) e).map _ = _
  obtain rfl | same := eq_or_ne e d
  · rw [update_self, map_map]
    exact congrArg (fun g => (s.dentries e).map g) (funext keeps)
  · rw [update_of_ne same]

theorem inodes_inodeGet (i j : Nat) : (Vfs.inodeGet s i).inodes j =
    (s.inodes j).map fun n => { n with refCount := n.refCount + if j = i then 1 else 0 } := by
  show update s.inodes i _ j = _
  obtain rfl | same := eq_or_ne j i
  · simp
  · simp [update_of_ne same, if_neg same, map_id']

theorem inodeGet (i : Nat) : Raises s (Vfs.inodeGet s i) := by
  refine ⟨fun _ => rfl, rfl, rfl, fun j found => ?_, fun j n found => ?_, rfl⟩
  · rw [inodes_inodeGet, found, map_none]
  · rw [inodes_inodeGet, found, map_some]
    refine ⟨_, rfl, rfl, rfl, ?_⟩
    dsimp only
    split <;> omega

theorem grows (h : Raises s s') : Grows s s' := by
  refine ⟨fun i n found => ?_, h.mounts⟩
  obtain ⟨n', found', sb, -, -⟩ := h.some i n found
  exact ⟨n', found', sb⟩

theorem dentriesTo_eq (h : Raises s s') (i : Nat) : dentriesTo s' i = dentriesTo s i := by
  unfold dentriesTo
  rw [h.dentryCount]
  refine countBelow_congr fun d _ => ?_
  have same := h.dentries d
  cases before : s.dentries d with
  | none =>
    rw [before, map_none, map_eq_none_iff] at same
    rw [same]
  | some x =>
    rw [before, map_some] at same
    obtain ⟨x', after, eq⟩ := map_eq_some_iff.mp same
    rw [after, any_some, any_some, eq]

theorem childrenOf_eq (h : Raises s s') (i : Nat) : childrenOf s' i = childrenOf s i := by
  unfold childrenOf
  rw [h.inodeCount]
  refine countBelow_congr fun j _ => ?_
  cases before : s.inodes j with
  | none => rw [h.none j before]
  | some n =>
    obtain ⟨n', after, -, parent, -⟩ := h.some j n before
    rw [after, any_some, any_some, parent]

theorem before (h : Raises s s') {i : Nat} {n' : Inode} (found : s'.inodes i = Option.some n') :
    ∃ n, s.inodes i = Option.some n ∧ n'.parent = n.parent ∧ n.refCount ≤ n'.refCount := by
  cases old : s.inodes i with
  | none =>
    rw [h.none i old] at found
    cases found
  | some n =>
    obtain ⟨n₁, after, -, parent, le⟩ := h.some i n old
    rw [found] at after
    cases after
    exact ⟨n, rfl, parent, le⟩

end Raises

/-- The pointers are the old ones or lead to an inode, and the counts of the inodes suffice. -/
theorem of_change (h : Held s) (grows : Grows s s') (dentryCount : s.dentryCount ≤ s'.dentryCount)
    (inodeCount : s.inodeCount ≤ s'.inodeCount)
    (dentries : ∀ d x', s'.dentries d = some x' → (∃ x, s.dentries d = some x ∧ x.inode = x'.inode) ∨
      d < s'.dentryCount ∧ ∃ n, s'.inodes x'.inode = some n) (inodes : ∀ i n', s'.inodes i = some n' →
      (∃ n, s.inodes i = some n ∧ (n'.parent = n.parent ∨ ∃ p m, n'.parent = some p ∧ s.inodes p = some m)) ∨
        i < s'.inodeCount ∧ n'.parent = none)
    (spare : ∀ i n', s'.inodes i = some n' → dentriesTo s' i + childrenOf s' i + 1 ≤ n'.refCount) : Held s' := by
  -- No inode goes away.
  have alive {i : Nat} (there : ∃ n, s.inodes i = some n) : ∃ n', s'.inodes i = some n' := by
    obtain ⟨n, found⟩ := there
    obtain ⟨n', found', -⟩ := grows.inodes i n found
    exact ⟨n', found'⟩
  constructor
  case dentry_lt =>
    intro d x' found
    rcases dentries d x' found with ⟨x, old, -⟩ | ⟨lt, -⟩
    · exact lt_of_lt_of_le (h.dentry_lt d x old) dentryCount
    · exact lt
  case inode_lt =>
    intro i n' found
    rcases inodes i n' found with ⟨n, old, -⟩ | ⟨lt, -⟩
    · exact lt_of_lt_of_le (h.inode_lt i n old) inodeCount
    · exact lt
  case dentry_inode =>
    intro d x' found
    rcases dentries d x' found with ⟨x, old, same⟩ | ⟨-, there⟩
    · exact same ▸ alive (h.dentry_inode d x old)
    · exact there
  case parent_inode =>
    intro i n' p found parent
    rcases inodes i n' found with ⟨n, old, same | ⟨q, m, isParent, there⟩⟩ | ⟨-, none⟩
    · exact alive (h.parent_inode i n p old (same ▸ parent))
    · rw [isParent] at parent
      cases parent
      exact alive ⟨m, there⟩
    · rw [none] at parent
      cases parent
  case spare => exact spare

theorem raises (h : Held s) (up : Raises s s') : Held s' := by
  refine h.of_change up.grows (le_of_eq up.dentryCount.symm) (le_of_eq up.inodeCount.symm)
    (fun d x' found => ?_) (fun i n' found => ?_) fun i n' found => ?_
  · have same := up.dentries d
    rw [found, map_some] at same
    exact .inl (map_eq_some_iff.mp same.symm)
  · obtain ⟨n, old, same, -⟩ := up.before found
    exact .inl ⟨n, old, .inl same⟩
  · obtain ⟨n, old, -, le⟩ := up.before found
    have enough := h.spare i n old
    rw [up.dentriesTo_eq, up.childrenOf_eq]
    omega

theorem toNat_decide_eq (i j : Nat) : (decide (i = j)).toNat = if j = i then 1 else 0 := by
  by_cases same : j = i
  · simp [same]
  · simp [same, Ne.symm same]

/-! ### Freeing a dentry -/

/-- One dentry changes, and the inodes have references for what it refers to then. -/
theorem redirect (h : Held s) {d : Nat} {y : Option Dentry} (dentries : s'.dentries = update s.dentries d y)
    (lt : d < s'.dentryCount) (dentryCount : s.dentryCount ≤ s'.dentryCount) (inodeCount : s'.inodeCount = s.inodeCount)
    (grows : Grows s s') (here : ∀ x, y = some x → ∃ n, s'.inodes x.inode = some n)
    (inodes : ∀ i n', s'.inodes i = some n' → ∃ n, s.inodes i = some n ∧ n'.parent = n.parent ∧
      n.refCount + (y.any (·.inode = i)).toNat ≤ n'.refCount + ((s.dentries d).any (·.inode = i)).toNat) :
    Held s' ∧ Grows s s' := by
  refine ⟨h.of_change grows dentryCount (le_of_eq inodeCount.symm) (fun e x found => ?_) (fun i n' found => ?_)
    fun i n' found => ?_, grows⟩
  · rw [dentries] at found
    rcases of_update found with ⟨rfl, set⟩ | ⟨-, found⟩
    · exact .inr ⟨lt, here x set⟩
    · exact .inl ⟨x, found, rfl⟩
  · obtain ⟨n, was, same, -⟩ := inodes i n' found
    exact .inl ⟨n, was, .inl same⟩
  · obtain ⟨n, was, -, counted⟩ := inodes i n' found
    have enough := h.spare i n was
    have children : childrenOf s' i ≤ childrenOf s i := by
      unfold childrenOf
      rw [inodeCount]
      refine countBelow_le fun j _ child => ?_
      obtain ⟨m', after, parent⟩ := (any_eq_true ..).mp child
      obtain ⟨m, before, same, -⟩ := inodes j m' after
      rw [before, any_some, ← same]
      exact parent
    have change := countBelow_change (p := fun e => (s.dentries e).any (·.inode = i))
      (q := fun e => (s'.dentries e).any (·.inode = i)) lt fun e _ ne => by rw [dentries, update_of_ne ne]
    have more := countBelow_of_le (p := fun e => (s.dentries e).any (·.inode = i)) dentryCount fun e le => by
      cases entry : s.dentries e with
      | none => rfl
      | some x => exact absurd (h.dentry_lt e x entry) (Nat.not_lt.mpr le)
    rw [more, congrFun dentries d, update_self] at change
    unfold dentriesTo at enough ⊢
    omega

theorem dentryFree (h : Held s) (d : Nat) : Held (Vfs.dentryFree s d) ∧ Grows s (Vfs.dentryFree s d) := by
  unfold Vfs.dentryFree
  cases found : s.dentries d with
  | none => exact ⟨h, Grows.refl s⟩
  | some x =>
    obtain ⟨n, inode⟩ := h.dentry_inode d x found
    have enough := h.spare x.inode n inode
    -- The dentry itself is one of those that refer to its inode.
    have counted : 0 < dentriesTo s x.inode := countBelow_pos (h.dentry_lt d x found) (by simp [found])
    have put : inodePut (s.inodeCount + 1) s x.inode = s.setInode x.inode
      (some { n with refCount := n.refCount - 1 }) := by
      rw [inodePut, inode]
      exact if_neg (by omega)
    dsimp only
    rw [put]
    refine h.redirect (d := d) (y := none) rfl (h.dentry_lt d x found) (le_refl _) rfl
      ⟨fun i n₀ was => ?_, rfl⟩ nofun fun i n' now => ?_
    · obtain rfl | ne := eq_or_ne i x.inode
      · rw [inode] at was
        cases was
        exact ⟨_, update_self .., rfl⟩
      · exact ⟨n₀, (update_of_ne ne ..).trans was, rfl⟩
    · rw [found, any_some, toNat_decide_eq]
      rcases of_update now with ⟨rfl, same⟩ | ⟨ne, was⟩
      · cases same
        exact ⟨n, inode, rfl, by simp⟩
      · exact ⟨n', was, rfl, by simp [ne]⟩

/-- With a property that is kept while inodes stay and mounts do not change. -/
theorem stable {I : State → Prop} (mono : ∀ s s', I s → Grows s s' → I s') : Stable fun s => Held s ∧ I s := by
  have up {s s' : State} (h : Held s ∧ I s) (up : Raises s s') : Held s' ∧ I s' :=
    ⟨h.1.raises up, mono s s' h.2 up.grows⟩
  refine ⟨fun s d f keeps h => up h (Raises.modDentry d keeps), fun s list h => up h (Raises.setLru list),
    fun s d h => ?_⟩
  obtain ⟨held, grows⟩ := h.1.dentryFree d
  exact ⟨held, mono s _ h.2 grows⟩

section

variable (h : Held s)
include h

theorem dentryPut (d : Nat) : Held (Vfs.dentryPut s d) ∧ Grows s (Vfs.dentryPut s d) :=
  (stable fun _ _ => Grows.trans).dentryPut d ⟨h, Grows.refl s⟩

/-! ### New objects -/

theorem newInode (sb ino : Nat) :
    Held { s.setInode s.inodeCount (some (freshInode sb ino)) with inodeCount := s.inodeCount + 1 } := by
  generalize eq : ({ s.setInode s.inodeCount (some (freshInode sb ino)) with
    inodeCount := s.inodeCount + 1 } : State) = s'
  have inodes (i : Nat) : s'.inodes i = if i = s.inodeCount then some (freshInode sb ino) else s.inodes i := by
    rw [← eq]
    exact update_apply ..
  have dentries : s'.dentries = s.dentries := by rw [← eq]; rfl
  have inodeCount : s'.inodeCount = s.inodeCount + 1 := by rw [← eq]
  have grows : Grows s s' := by
    refine ⟨fun i n found => ⟨n, ?_, rfl⟩, by rw [← eq]; rfl⟩
    rw [inodes, if_neg (ne_of_lt (h.inode_lt i n found))]
    exact found
  have refers (i : Nat) : dentriesTo s' i = dentriesTo s i := by
    rw [← eq]
    rfl
  -- The new inode has no parent yet.
  have children (i : Nat) : childrenOf s' i = childrenOf s i := by
    have fresh : ((s'.inodes s.inodeCount).any (·.parent = some i)).toNat = 0 := by
      rw [inodes, if_pos rfl]
      rfl
    unfold childrenOf
    rw [inodeCount, countBelow, fresh, Nat.add_zero]
    refine countBelow_congr fun j lt => ?_
    rw [inodes, if_neg (ne_of_lt lt)]
  refine h.of_change grows (by rw [← eq]; exact le_refl _) (by rw [inodeCount]; exact Nat.le_succ _)
    (fun d x found => .inl ⟨x, dentries ▸ found, rfl⟩) (fun i n found => ?_) fun i n found => ?_
  · rw [inodes] at found
    split at found
    next new =>
      cases found
      exact .inr ⟨by omega, rfl⟩
    next => exact .inl ⟨n, found, .inl rfl⟩
  · rw [refers, children]
    rw [inodes] at found
    split at found
    next new =>
      cases found
      -- Nothing can point to a number that was not given out.
      have noDentry : dentriesTo s i = 0 := by
        refine countBelow_eq_zero fun d _ => ?_
        cases entry : s.dentries d with
        | none => rfl
        | some x =>
          obtain ⟨m, inode⟩ := h.dentry_inode d x entry
          have lt := h.inode_lt _ m inode
          exact decide_eq_false (by omega)
      have noChild : childrenOf s i = 0 := by
        refine countBelow_eq_zero fun j _ => ?_
        cases entry : s.inodes j with
        | none => rfl
        | some m =>
          refine decide_eq_false fun parent => ?_
          obtain ⟨m', inode⟩ := h.parent_inode j m i entry parent
          have lt := h.inode_lt _ m' inode
          omega
      rw [noDentry, noChild]
      exact Int.le_refl 1
    next => exact h.spare i n found

theorem inodeAlloc (sb ino : Nat) : Held (Vfs.inodeAlloc s sb ino).2 ∧ Grows s (Vfs.inodeAlloc s sb ino).2 ∧
    ∀ i, (Vfs.inodeAlloc s sb ino).1 = some i → ∃ n, (Vfs.inodeAlloc s sb ino).2.inodes i = some n ∧ n.sb = sb := by
  rcases inodeAlloc_inv s sb ino with ⟨i, seen, eq⟩ | ⟨-, s₁, memory, eq | eq⟩
  · rw [eq]
    have up := Raises.inodeGet (s := s) i
    refine ⟨h.raises up, up.grows, fun j eq => ?_⟩
    cases eq
    have met := List.find?_some seen
    split at met
    next n found =>
      obtain ⟨n', after, same, -⟩ := up.some i n found
      exact ⟨n', after, same.trans (of_decide_eq_true (and_eq_true _ _ ▸ met).1)⟩
    next => cases met
  · rw [eq]
    have memory := Raises.of_same memory
    exact ⟨h.raises memory, memory.grows, nofun⟩
  · rw [eq]
    have memory := Raises.of_same memory
    have held := h.raises memory
    refine ⟨held.newInode sb ino, ⟨fun i n found => ?_, memory.mounts⟩, fun i eq => ?_⟩
    · obtain ⟨n', after, same, -⟩ := memory.some i n found
      have lt := held.inode_lt i n' after
      refine ⟨n', ?_, same⟩
      show update s₁.inodes s₁.inodeCount _ i = _
      rw [update_of_ne (ne_of_lt lt)]
      exact after
    · cases eq
      exact ⟨freshInode sb ino, update_self .., rfl⟩

/-- An inode gets a parent, which gets a reference. -/
theorem adopt {i dir : Nat} {n m : Inode} (inode : s.inodes i = some n) (parent : s.inodes dir = some m)
    (f : Inode → Inode) (child : (f n).parent = some dir) (count : (f n).refCount = n.refCount) (sb : (f n).sb = n.sb) :
    Held (inodeGet (s.modInode i f) dir) ∧ Grows s (inodeGet (s.modInode i f) dir) := by
  have up := Raises.inodeGet (s := s.modInode i f) dir
  have mid (j : Nat) : (s.modInode i f).inodes j = if j = i then some (f n) else s.inodes j := by
    rw [← map_some (f := f), ← inode]
    exact update_apply ..
  have before {j : Nat} {x' : Inode} (found : (inodeGet (s.modInode i f) dir).inodes j = some x') :
      ∃ x, s.inodes j = some x ∧ x'.refCount = x.refCount + (if j = dir then 1 else 0) ∧
        (x'.parent = x.parent ∨ x'.parent = some dir) := by
    rw [Raises.inodes_inodeGet] at found
    obtain ⟨x, was, rfl⟩ := map_eq_some_iff.mp found
    rw [mid] at was
    split at was
    next here =>
      cases was
      exact ⟨n, here ▸ inode, by rw [count], .inr child⟩
    next => exact ⟨x, was, rfl, .inl rfl⟩
  have grows : Grows s (inodeGet (s.modInode i f) dir) := by
    refine @Grows.trans s (s.modInode i f) _ ⟨fun j x found => ?_, rfl⟩ up.grows
    rw [mid]
    split
    next here =>
      subst here
      rw [inode] at found
      cases found
      exact ⟨f n, rfl, sb⟩
    next => exact ⟨x, found, rfl⟩
  refine ⟨h.of_change grows (le_refl _) (le_refl _) (fun d x found => .inl ⟨x, found, rfl⟩)
    (fun j x' found => ?_) fun j x' found => ?_, grows⟩
  · obtain ⟨x, was, -, same | same⟩ := before found
    · exact .inl ⟨x, was, .inl same⟩
    · exact .inl ⟨x, was, .inr ⟨dir, m, same, parent⟩⟩
  · obtain ⟨x, was, refs, -⟩ := before found
    have enough := h.spare j x was
    have refers : dentriesTo (inodeGet (s.modInode i f) dir) j = dentriesTo s j := rfl
    -- Only the adopted inode has another parent, and the new one gets a reference for it.
    have change := countBelow_change (p := fun k => (s.inodes k).any (·.parent = some j))
      (q := fun k => ((s.modInode i f).inodes k).any (·.parent = some j)) (h.inode_lt i n inode)
      fun k _ ne => by rw [mid, if_neg ne]
    rw [mid, if_pos rfl, any_some, child] at change
    simp only [Option.some.injEq, toNat_decide_eq] at change
    have least : childrenOf (inodeGet (s.modInode i f) dir) j ≤ childrenOf s j + if j = dir then 1 else 0 := by
      rw [up.childrenOf_eq]
      show countBelow (fun k => ((s.modInode i f).inodes k).any (·.parent = some j)) s.inodeCount ≤ countBelow _ _ + _
      omega
    rw [refers, refs]
    split at least <;> split <;> omega

/-- One dentry is set to an inode, which gets a reference. -/
theorem point {t : State} {d : Nat} {y : Dentry} {n : Inode} (inode : s.inodes y.inode = some n)
    (inodes : t.inodes = s.inodes) (dentries : t.dentries = update s.dentries d (some y)) (lt : d < t.dentryCount)
    (dentryCount : s.dentryCount ≤ t.dentryCount) (inodeCount : t.inodeCount = s.inodeCount)
    (mounts : t.mounts = s.mounts) : Held (inodeGet t y.inode) ∧ Grows s (inodeGet t y.inode) := by
  have up := Raises.inodeGet (s := t) y.inode
  have grows : Grows s (inodeGet t y.inode) :=
    Grows.trans ⟨fun j x found => ⟨x, inodes ▸ found, rfl⟩, mounts⟩ up.grows
  refine h.redirect dentries lt dentryCount inodeCount grows (fun x same => ?_) fun j x' found => ?_
  · cases same
    obtain ⟨n', after, -⟩ := grows.inodes y.inode n inode
    exact ⟨n', after⟩
  · rw [Raises.inodes_inodeGet, inodes] at found
    obtain ⟨x, was, rfl⟩ := map_eq_some_iff.mp found
    refine ⟨x, was, rfl, ?_⟩
    rw [any_some, toNat_decide_eq]
    dsimp only
    split <;> omega

theorem dentryAlloc (name : List Byte) {i : Nat} {n : Inode} (inode : s.inodes i = some n) :
    Held (Vfs.dentryAlloc s name i).2 ∧ Grows s (Vfs.dentryAlloc s name i).2 := by
  obtain ⟨s₁, memory, eq | eq⟩ := dentryAlloc_inv s name i
  · rw [eq]
    have memory := Raises.of_same memory
    exact ⟨h.raises memory, memory.grows⟩
  rw [eq]
  have memory := Raises.of_same memory
  obtain ⟨n₁, inode₁, -⟩ := memory.some i n inode
  obtain ⟨held, grows⟩ := (h.raises memory).point (t := { s₁.setDentry s₁.dentryCount _ with
    dentryCount := s₁.dentryCount + 1 }) (y := ⟨name.take nameMax, i, none, 1, false⟩) inode₁ rfl rfl
    (Nat.lt_succ_self _) (Nat.le_succ _) rfl rfl
  exact ⟨held, memory.grows.trans grows⟩

/-! ### Path walks -/

theorem direntToInode {dir : Nat} {m : Inode} (parent : s.inodes dir = some m) (sb : Nat) (hit : Hit) :
    Held (Vfs.direntToInode s dir sb hit).2 ∧ Grows s (Vfs.direntToInode s dir sb hit).2 ∧
      ∀ i, (Vfs.direntToInode s dir sb hit).1 = some i → ∃ n, (Vfs.direntToInode s dir sb hit).2.inodes i = some n := by
  unfold Vfs.direntToInode
  dsimp only
  obtain ⟨held, grows, result⟩ := h.inodeAlloc sb hit.de.firstCluster
  cases got : Vfs.inodeAlloc s sb hit.de.firstCluster with
  | mk found s₁ =>
    rw [got] at held grows result
    cases found with
    | none => exact ⟨held, grows, nofun⟩
    | some i =>
      obtain ⟨n, inode, -⟩ := result i rfl
      obtain ⟨m', parent', -⟩ := grows.inodes dir m parent
      have adopted := held.adopt inode parent' (fun n => { n with
        isDir := hit.de.isDirectory, size := hit.de.size, map := { n.map with firstCluster := hit.de.firstCluster },
        dirOffset := hit.direntOffset, parent := some dir }) rfl rfl rfl
      refine ⟨adopted.1, grows.trans adopted.2, fun j eq => ?_⟩
      cases eq
      obtain ⟨n', after, -⟩ := adopted.2.inodes i n inode
      exact ⟨n', after⟩

theorem fatLookup (dir : Nat) (name : List Byte) :
    Held (Vfs.fatLookup s dir name).2 ∧ Grows s (Vfs.fatLookup s dir name).2 := by
  unfold Vfs.fatLookup lookupInode
  cases parent : s.inodes dir with
  | none => exact ⟨h, Grows.refl s⟩
  | some m =>
    dsimp only
    cases (dirScan (s.dir m) name).found with
    | none => exact ⟨h, Grows.refl s⟩
    | some hit =>
      dsimp only
      obtain ⟨held, grows, result⟩ := h.direntToInode parent m.sb hit
      cases got : Vfs.direntToInode s dir m.sb hit with
      | mk found s₁ =>
        rw [got] at held grows result
        cases found with
        | none => exact ⟨held, grows⟩
        | some i =>
          obtain ⟨n, inode⟩ := result i rfl
          obtain ⟨after, grows'⟩ := held.dentryAlloc name inode
          exact ⟨after, grows.trans grows'⟩

end

end Held

/-- A property that is kept while inodes stay and mounts do not change is kept by every call. -/
theorem Held.keeps {I : State → Prop} (mono : ∀ s s', I s → Grows s s' → I s') :
    Keeps (fun _ _ _ => true) fun s => Held s ∧ I s := by
  refine (Held.stable mono).keeps (fun s s' same h => ?_) fun s cur name x h _ _ _ => ?_
  · have up := Held.Raises.of_same same
    exact ⟨h.1.raises up, mono s _ h.2 up.grows⟩
  · obtain ⟨held, grows⟩ := h.1.fatLookup x.inode name
    exact ⟨held, mono s _ h.2 grows⟩

theorem meets_true (s : State) (op : Op) : op.Meets (fun _ _ _ => true) s := by
  have walks (names : List (List Byte)) : ∀ s cur, walkMeets (fun _ _ _ => true) s cur names = true := by
    induction names with
    | nil => exact fun _ _ => rfl
    | cons name rest ih =>
      intro s cur
      rw [walkMeets, Bool.true_and]
      split
      · rfl
      · exact ih _ _
  have lookups (s : State) (path : List Byte) : lookupMeets (fun _ _ _ => true) s path = true := by
    unfold lookupMeets
    split
    · exact walks _ _ _
    · rfl
  cases op with
  | lookup path => exact lookups s path
  | «open» path flags =>
    show openMeets _ s path flags = true
    rw [openMeets, lookups, Bool.true_and]
    split
    · rfl
    · unfold createMeets
      split
      · exact or_true _
      · exact or_true _
      · rw [lookups, lookups]
        exact or_true _
  | unlink path => exact lookups s path
  | _ => rfl

end Jlos.Vfs
