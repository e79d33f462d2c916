import Jlos.Vfs.Identity
import Jlos.Vfs.References

/-!
# Unmounting a volume

`jlos_vfs_unmount` frees the super block without writing anything back and without looking for
objects that refer to it. The root inode keeps the reference of its allocation, so that it stays in
the inode hash after every unmount.
-/
namespace Jlos.Vfs

open Fat32 Lib Function Option

/-- What was written to the volume is on its device. -/
def OnDevice (s : State) (sb : Nat) : Prop :=
  (∀ i n index page, s.inodes i = some n → n.sb = sb → n.map.pages index = some page → ∀ j < 8, page.bhDirty j →
    ∃ phys, getBlock (s.vols sb) n.map.firstCluster (index * 8 + j) = some phys ∧
      ∀ k < 512, (s.vols sb).disk phys k = page.data (j * 512 + k)) ∧
  ∀ sector word, s.tableDisk sb sector word = (s.vols sb).table sector word

/-- Everything is on the device of the freed super block, and no dentry, inode or cached page refers
to it. -/
structure Clean (s : State) (sb : Nat) : Prop where
  onDevice : OnDevice s sb
  inodes : ∀ i n, s.inodes i = some n → n.sb ≠ sb
  dentries : ∀ d x, s.dentries d = some x → ∃ n, s.inodes x.inode = some n ∧ n.sb ≠ sb

/-! ### Mounts -/

def Rooted (s : State) : Prop := ∀ m x, s.mounts m = some x → ∃ i n, s.inodes i = some n ∧ n.sb = x.sb

theorem Rooted.mono {s s' : State} (h : Rooted s) (grows : Grows s s') : Rooted s' := by
  intro m x mounted
  rw [grows.mounts] at mounted
  obtain ⟨i, n, found, same⟩ := h m x mounted
  obtain ⟨n', found', same'⟩ := grows.inodes i n found
  exact ⟨i, n', found', same'.trans same⟩

theorem Rooted.keeps : Keeps (fun _ _ _ => true) fun s => Held s ∧ Rooted s := Held.keeps fun _ _ => Rooted.mono

section mount

variable {s : State}

theorem Held.repoint (h : Held s) (mp : Nat) {r : Nat} {n : Inode} (inode : s.inodes r = some n) :
    Held (inodeGet (s.modDentry mp fun x => { x with inode := r }) r) ∧
      Grows s (inodeGet (s.modDentry mp fun x => { x with inode := r }) r) := by
  cases entry : s.dentries mp with
  | none =>
    have up : Raises s (inodeGet (s.modDentry mp fun x => { x with inode := r }) r) := by
      refine Raises.trans ?_ (Raises.inodeGet r)
      refine .of_inodes (fun d => ?_) rfl rfl rfl rfl
      show (update s.dentries mp ((s.dentries mp).map _) d).map _ = _
      rw [entry, map_none, ← entry, update_eq_self]
    exact ⟨h.raises up, up.grows⟩
  | some x =>
    refine h.point (y := { x with inode := r }) inode rfl ?_ (h.dentry_lt mp x entry) (le_refl _) rfl rfl
    show update s.dentries mp ((s.dentries mp).map _) = _
    rw [entry, map_some]

theorem Held.fatMount (h : Held s) (dev : Device) {sb : Nat} (mounted : (Vfs.fatMount s dev).1 = some sb) :
    Held (Vfs.fatMount s dev).2 ∧ Grows s (Vfs.fatMount s dev).2 ∧
      ∃ i n, (Vfs.fatMount s dev).2.inodes i = some n ∧ n.sb = sb := by
  obtain ⟨s₁, memory, eq | ⟨info, ⟨s₃, -, eq⟩ | ⟨i, s₃, s₄, got, data, rest⟩⟩⟩ := fatMount_inv s dev
  · rw [eq] at mounted
    cases mounted
  · rw [eq] at mounted
    cases mounted
  have memory := Raises.of_same memory
  have up : Raises s (addSuper s₁ info dev) :=
    { memory with }
  obtain ⟨made, grows, result⟩ := (h.raises up).inodeAlloc s₁.sbCount info.rootCluster
  rw [got] at made grows result
  obtain ⟨n, inode, own⟩ := result i rfl
  have same := Raises.of_same data
  obtain ⟨n₄, inode₄, own₄, -⟩ := same.some i n inode
  obtain ⟨after, grows'⟩ := Held.dentryAlloc (Held.raises made same) [0x2F] inode₄
  rcases rest with ⟨s₅, -, eq⟩ | ⟨d, s₅, allocated, eq⟩
  · rw [eq] at mounted
    cases mounted
  rw [eq] at mounted ⊢
  cases mounted
  rw [allocated] at after grows'
  have rooted : Raises s₅ { s₅ with sbRoot := update s₅.sbRoot s₁.sbCount d } :=
    .of_inodes (fun _ => rfl) rfl rfl rfl rfl
  obtain ⟨n₅, inode₅, own₅⟩ := grows'.inodes i n₄ inode₄
  refine ⟨Held.raises after rooted, ?_, i, n₅, inode₅, own₅.trans (own₄.trans own)⟩
  exact (((up.grows.trans grows).trans same.grows).trans grows').trans rooted.grows

theorem addMount_rooted (h : Held s ∧ Rooted s) (x : Mount) {i : Nat} {n : Inode} (inode : s.inodes i = some n)
    (own : n.sb = x.sb) : Held (addMount s x).2 ∧ Rooted (addMount s x).2 ∧
      ∃ i n, (addMount s x).2.inodes i = some n := by
  refine ⟨⟨h.1.dentry_lt, h.1.inode_lt, h.1.dentry_inode, h.1.parent_inode, h.1.spare⟩, ?_, i, n, inode⟩
  · intro m y found
    rcases of_update found with ⟨-, here⟩ | ⟨-, found⟩
    · cases here
      exact ⟨i, n, inode, own⟩
    · exact h.2 m y found

theorem vfsMount_rooted (h : Held s ∧ Rooted s) (dev : Device) (path : List Byte)
    (mounted : (vfsMount s dev path).1.isSome) : Held (vfsMount s dev path).2 ∧
      Rooted (vfsMount s dev path).2 ∧ ∃ i n, (vfsMount s dev path).2.inodes i = some n := by
  unfold vfsMount at mounted ⊢
  cases volume : Vfs.fatMount s dev with
  | mk made s₁ =>
    rw [volume] at mounted
    cases made with
    | none => cases mounted
    | some sb =>
      obtain ⟨held, grows, i, n, inode, own⟩ := h.1.fatMount dev (show (fatMount s dev).1 = some sb by rw [volume])
      rw [volume] at held grows inode
      dsimp only at mounted ⊢
      have memory := Held.Raises.of_same (SameObjects.kalloc (s := s₁))
      cases granted : kalloc s₁ with
      | mk ok s₂ =>
        rw [granted] at memory mounted
        cases ok with
        | false => cases mounted
        | true =>
          dsimp only at mounted ⊢
          have held₂ : Held s₂ := Held.raises held memory
          have rooted₂ : Rooted s₂ := (h.2.mono grows).mono memory.grows
          obtain ⟨n₂, inode₂, own₂⟩ := memory.grows.inodes i n inode
          -- The first volume becomes the root; a later one is mounted where its path leads.
          cases atRoot : s₂.rootDentry with
          | none =>
            have up : Held.Raises s₂ { s₂ with rootDentry := some (s₂.sbRoot sb) } :=
              .of_inodes (fun _ => rfl) rfl rfl rfl rfl
            obtain ⟨held₃, grows⟩ := (Held.stable fun _ _ => Grows.trans).dentryGet (s₂.sbRoot sb)
              ⟨held₂.raises up, up.grows⟩
            obtain ⟨n₃, inode₃, own₃⟩ := grows.inodes i n₂ inode₂
            exact addMount_rooted ⟨held₃, rooted₂.mono grows⟩ _ inode₃ (own₃.trans (own₂.trans own))
          | some top =>
            rw [atRoot] at mounted
            have walked := (Held.keeps (I := fun s => Rooted s ∧ ∃ n, s.inodes i = some n ∧ n.sb = sb)
              fun s s' inv grows => ⟨inv.1.mono grows, by
                obtain ⟨m, was, same⟩ := inv.2
                obtain ⟨m', now, same'⟩ := grows.inodes i m was
                exact ⟨m', now, same'.trans same⟩⟩).lookup path
              (s := s₂) ⟨held₂, rooted₂, n₂, inode₂, own₂.trans own⟩ (meets_true s₂ (.lookup path))
            cases looked : lookup s₂ path with
            | mk point s₃ =>
              rw [looked] at mounted walked
              cases point with
              | none => cases mounted
              | some mp =>
                dsimp only at mounted ⊢
                obtain ⟨held₃, rooted₃, n₃, inode₃, own₃⟩ := walked
                cases entry : s₃.dentries (s₂.sbRoot sb) with
                | none =>
                  rw [entry] at mounted
                  cases mounted
                | some r =>
                  obtain ⟨m, rootInode⟩ := Held.dentry_inode held₃ _ r entry
                  obtain ⟨held₄, grows₄⟩ := Held.repoint held₃ mp rootInode
                  obtain ⟨n₄, inode₄, own₄⟩ := grows₄.inodes i n₃ inode₃
                  exact addMount_rooted ⟨held₄, Rooted.mono rooted₃ grows₄⟩ _ inode₄ (own₄.trans own₃)

end mount

/-! ### Histories with mounts -/

inductive Event
  | call (op : Op)
  /-- A mount that succeeds. -/
  | mount (dev : Device) (path : List Byte)

def Happens (s : State) : Event → State → Prop
  | .call op, s' => Calls s op s'
  | .mount dev path, s' => (vfsMount s dev path).1.isSome ∧ s' = (vfsMount s dev path).2

theorem rooted_of_run {kallocs : List Bool} {es : List (State × Event)} {s : State}
    (run : Run Happens (initState kallocs) es s) : Held s ∧ Rooted s := by
  have blank : Held (initState kallocs) ∧ Rooted (initState kallocs) := ⟨⟨nofun, nofun, nofun, nofun, nofun⟩, nofun⟩
  refine (Run.invariant (I := fun s => Held s ∧ Rooted s) blank ?_ run).1
  intro s event s' h happens
  cases event with
  | call op =>
    rw [show s' = exec s op from happens]
    exact Rooted.keeps.exec h (meets_true s op)
  | mount dev path =>
    rw [happens.2]
    exact (vfsMount_rooted h dev path happens.1).imp_right And.left

def unmountedSb (s : State) (mnt : Option Nat) : Option Nat := mnt.bind fun m => (s.mounts m).map (·.sb)

/-- Whatever was done before, the root inode of a volume that was unmounted still refers to its
super block: only an unmount that fails, because it gets no mount, leaves nothing behind. -/
theorem unmount_clean_iff (kallocs : List Bool) (es : List (State × Event)) (s : State)
    (run : Run Happens (initState kallocs) es s) (mnt : Option Nat) (valid : ∀ m, mnt = some m → (s.mounts m).isSome) :
    ((vfsUnmount s mnt).1 = 0 → ∀ sb, unmountedSb s mnt = some sb → Clean (vfsUnmount s mnt).2 sb) ↔ mnt = none := by
  constructor
  · intro clean
    cases mnt with
    | none => rfl
    | some m =>
      exfalso
      obtain ⟨x, mounted⟩ := isSome_iff_exists.mp (valid m rfl)
      obtain ⟨held, rooted⟩ := rooted_of_run run
      obtain ⟨i, n, inode, own⟩ := rooted m x mounted
      have freed : unmountedSb s (some m) = some x.sb := by
        rw [unmountedSb, bind_some, mounted, map_some]
      -- Neither the root dentry nor the mount point takes the last reference with it.
      obtain ⟨held₁, grows₁⟩ := held.dentryPut (s.sbRoot x.sb)
      have up : Held.Raises (dentryPut s (s.sbRoot x.sb)) (fatUnmount s x.sb) :=
        .of_inodes (fun _ => rfl) rfl rfl rfl rfl
      have held₂ : Held (fatUnmount s x.sb) := held₁.raises up
      have grows₂ : Grows s (fatUnmount s x.sb) := grows₁.trans up.grows
      have left : (vfsUnmount s (some m)).1 = 0 ∧ ∃ n', (vfsUnmount s (some m)).2.inodes i =
        some n' ∧ n'.sb = x.sb := by
        cases point : x.mountpoint with
        | none =>
          obtain ⟨n', found, same⟩ := grows₂.inodes i n inode
          simp only [vfsUnmount, bind_some, mounted, map_some, point]
          exact ⟨trivial, n', found, same.trans own⟩
        | some mp =>
          obtain ⟨n', found, same⟩ := (grows₂.trans (held₂.dentryPut mp).2).inodes i n inode
          simp only [vfsUnmount, bind_some, mounted, map_some, point]
          exact ⟨trivial, n', found, same.trans own⟩
      obtain ⟨returned, n', found, same⟩ := left
      exact (clean returned x.sb freed).inodes i n' found same
  · rintro rfl returned
    cases returned

/-- The small volume is mounted and unmounted again. -/
theorem unmount_leaves_root : ¬((vfsUnmount smallMount (some 0)).1 = 0 →
    ∀ sb, unmountedSb smallMount (some 0) = some sb → Clean (vfsUnmount smallMount (some 0)).2 sb) := by
  have mounted : (vfsMount (initState []) smallDevice [0x2F]).1.isSome := by decide +kernel
  have run : Run Happens (initState []) [(initState [], .mount smallDevice [0x2F])] smallMount :=
    Run.start.snoc ⟨mounted, rfl⟩
  have there : (smallMount.mounts 0).isSome := by decide +kernel
  have iff := unmount_clean_iff [] _ smallMount run (some 0) (by rintro m ⟨⟩; exact there)
  exact fun clean => nomatch iff.mp clean

/-- The small volume with the file `/A` open. -/
def smallOpened : State := exec smallMount (.open (rootFile 0x41) creating)

/-- A byte was written to the file. -/
def smallWritten : State := exec smallOpened (.write 0 [1])

/-- The volume was unmounted after that. -/
def smallUnmounted : State := (vfsUnmount smallWritten (some 0)).2

/-- A file is created and written to. The unmount succeeds, but the byte is not in the cluster of
the file, the table on the device does not have the cluster, and the inode of the file refers to the
freed super block. -/
theorem unmount_loses_write : ∃ es, Run Happens (initState []) es smallWritten ∧
    vfsUnmount smallWritten (some 0) = (0, smallUnmounted) ∧ smallUnmounted.sbLive 0 = false ∧
    ∃ n page phys, smallUnmounted.inodes 1 = some n ∧ n.sb = 0 ∧ n.map.pages 0 = some page ∧ page.data 0 = 1 ∧
      getBlock (smallUnmounted.vols 0) n.map.firstCluster 0 = some phys ∧ (smallUnmounted.vols 0).disk phys 0 = 0 ∧
      smallUnmounted.tableDisk 0 1 3 ≠ (smallUnmounted.vols 0).table 1 3 := by
  have mounted : (vfsMount (initState []) smallDevice [0x2F]).1.isSome := by decide +kernel
  have run : Run Happens (initState []) [(initState [], .mount smallDevice [0x2F]),
      (smallMount, .call (.open (rootFile 0x41) creating)), (smallOpened, .call (.write 0 [1]))] smallWritten :=
    ((Run.start.snoc ⟨mounted, rfl⟩).snoc rfl).snoc rfl
  have inode : (smallUnmounted.inodes 1).map (fun n => (n.sb, (n.map.pages 0).map (·.data 0))) = some (0, some 1) := by
    decide +kernel
  have block : ((smallUnmounted.inodes 1).bind fun n =>
    getBlock (smallUnmounted.vols 0) n.map.firstCluster 0) = some 3 := by
    decide +kernel
  obtain ⟨n, found, values⟩ := map_eq_some_iff.mp inode
  obtain ⟨own, cached⟩ := Prod.mk.inj values
  obtain ⟨page, cached, byte⟩ := map_eq_some_iff.mp cached
  rw [found, bind_some] at block
  have returned : (vfsUnmount smallWritten (some 0)).1 = 0 := by decide +kernel
  have freed : smallUnmounted.sbLive 0 = false := by decide +kernel
  have unwritten : (smallUnmounted.vols 0).disk 3 0 = 0 := by decide +kernel
  have behind : smallUnmounted.tableDisk 0 1 3 ≠ (smallUnmounted.vols 0).table 1 3 := by decide +kernel
  exact ⟨_, run, Prod.ext returned rfl, freed, n, page, 3, found, own, cached, byte, block, unwritten, behind⟩

end Jlos.Vfs
