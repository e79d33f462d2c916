import Jlos.Fat32.File

/-!
# Inodes, dentries and open files

A shallow embedding of `fs/vfs.c` over the FAT32 driver of `fs/fat32.c`. Objects are numbered in the
order of their allocation, and a number is not used again, so that a pointer to an object that was
freed is not one to a newer object. An inode is in the inode hash from its allocation to its
release; a dentry with a parent is in the dentry hash until it is unhashed. The child lists of
dentries are left out, since only their own links use them. Every mounted volume has a device of its
own.
-/
namespace Jlos.Vfs

open Fat32
open Function

structure Inode where
  ino : Nat
  sb : Nat
  /-- `JLOS_VFS_IS_DIR` of the mode -/
  isDir : Bool
  size : Nat
  refCount : Int
  /-- The address space, with `first_cluster` of the private data. -/
  map : Mapping
  /-- `dir_offset` of the private data -/
  dirOffset : Nat
  /-- `parent` of the private data -/
  parent : Option Nat

structure Dentry where
  name : List Byte
  inode : Nat
  parent : Option Nat
  refCount : Int
  unhashed : Bool

structure File where
  dentry : Nat
  inode : Nat
  pos : Nat

structure Mount where
  sb : Nat
  root : Nat
  mountpoint : Option Nat

structure State where
  /-- The volume of each super block. -/
  vols : Nat → Volume
  /-- What the device holds of the sectors of the block mapping. -/
  tableDisk : Nat → Image
  sbRoot : Nat → Nat
  sbLive : Nat → Bool
  sbCount : Nat
  inodes : Nat → Option Inode
  inodeCount : Nat
  dentries : Nat → Option Dentry
  dentryCount : Nat
  files : Nat → Option File
  fileCount : Nat
  mounts : Nat → Option Mount
  mountCount : Nat
  /-- `s_root_dentry` -/
  rootDentry : Option Nat
  /-- `s_dentry_lru`, the oldest first -/
  lru : List Nat
  /-- The outcomes of the next calls of `jlos_kalloc`; the later ones succeed. -/
  kallocs : List Bool

namespace State

def setInode (s : State) (i : Nat) (x : Option Inode) : State := { s with inodes := update s.inodes i x }

def setDentry (s : State) (d : Nat) (x : Option Dentry) : State := { s with dentries := update s.dentries d x }

def setFile (s : State) (f : Nat) (x : Option File) : State := { s with files := update s.files f x }

def modInode (s : State) (i : Nat) (f : Inode → Inode) : State := s.setInode i ((s.inodes i).map f)

def modDentry (s : State) (d : Nat) (f : Dentry → Dentry) : State := s.setDentry d ((s.dentries d).map f)

def setVol (s : State) (sb : Nat) (vol : Volume) : State := { s with vols := update s.vols sb vol }

end State

def kalloc (s : State) : Bool × State :=
  match s.kallocs with
  | [] => (true, s)
  | granted :: rest => (granted, { s with kallocs := rest })

def dcacheMax : Nat := 256

/-! ### Inodes -/

def inodeGet (s : State) (i : Nat) : State := s.modInode i fun n => { n with refCount := n.refCount + 1 }

/-- `jlos_vfs_inode_put` with `fat32_destroy_inode`, which drops the reference to the parent in
turn. -/
def inodePut : Nat → State → Nat → State
  | 0, s, _ => s
  | rounds + 1, s, i =>
    match s.inodes i with
    | none => s
    | some n =>
      let s := s.setInode i (some { n with refCount := n.refCount - 1 })
      if n.refCount - 1 = 0 then
        let s := match n.parent with
          | some p => inodePut rounds s p
          | none => s
        s.setInode i none
      else s

/-- `jlos_hash_chain_see` of the inode hash -/
def inodeSee (s : State) (sb ino : Nat) : Option Nat :=
  (List.range s.inodeCount).find? fun i =>
    match s.inodes i with
    | some n => n.sb = sb && n.ino = ino
    | none => false

/-- The inode that `fat32_alloc_inode` and `jlos_vfs_inode_alloc` set up. -/
def freshInode (sb ino : Nat) : Inode where
  ino := ino
  sb := sb
  isDir := false
  size := 0
  refCount := 1
  map := ⟨0, fun _ => none⟩
  dirOffset := 0
  parent := none

/-- Two allocations, of which the second one is made only after the first. -/
def kallocTwo (s : State) : Bool × State :=
  match kalloc s with
  | (false, s) => (false, s)
  | (true, s) => kalloc s

def inodeAlloc (s : State) (sb ino : Nat) : Option Nat × State :=
  match inodeSee s sb ino with
  | some i => (some i, inodeGet s i)
  | none =>
    match kallocTwo s with
    | (false, s) => (none, s)
    | (true, s) =>
      (some s.inodeCount, { s.setInode s.inodeCount (some (freshInode sb ino)) with inodeCount := s.inodeCount + 1 })

/-! ### Dentries -/

def dentryAlloc (s : State) (name : List Byte) (inode : Nat) : Option Nat × State :=
  match kalloc s with
  | (false, s) => (none, s)
  | (true, s) =>
    let d := s.dentryCount
    let s := { s.setDentry d (some ⟨name.take nameMax, inode, none, 1, false⟩) with dentryCount := d + 1 }
    (some d, inodeGet s inode)

def dentryLookupChild (s : State) (parent : Nat) (name : List Byte) : Option Nat :=
  (List.range s.dentryCount).find? fun d =>
    match s.dentries d with
    | some x => !x.unhashed && x.parent = some parent && x.name = name
    | none => false

def dentryGet (s : State) (d : Nat) : State :=
  match s.dentries d with
  | none => s
  | some x =>
    let s := if x.refCount = 0 then { s with lru := s.lru.erase d } else s
    s.setDentry d (some { x with refCount := x.refCount + 1 })

/-- Releases a dentry and its reference to the inode. -/
def dentryFree (s : State) (d : Nat) : State :=
  match s.dentries d with
  | none => s
  | some x => (inodePut (s.inodeCount + 1) s x.inode).setDentry d none

/-- The locked part of `jlos_vfs_dentry_put` and the release of an unhashed dentry. -/
def dentryDrop (s : State) (d : Nat) : State :=
  match s.dentries d with
  | none => s
  | some x =>
    let s := s.setDentry d (some { x with refCount := x.refCount - 1 })
    if x.refCount - 1 = 0 then
      if x.unhashed then dentryFree s d else { s with lru := s.lru ++ [d] }
    else s

/-- `dentry_shrink`; the shrink that dropping a parent may start goes on where the loop is. -/
def dentryShrink : Nat → State → State
  | 0, s => s
  | rounds + 1, s =>
    match s.lru with
    | [] => s
    | victim :: rest =>
      if dcacheMax < s.lru.length then
        let s := { s with lru := rest }
        let parent := (s.dentries victim).bind (·.parent)
        let s := dentryFree s victim
        let s := match parent with
          | some p => dentryDrop s p
          | none => s
        dentryShrink rounds s
      else s

def dentryPut (s : State) (d : Nat) : State := dentryShrink s.dentryCount (dentryDrop s d)

/-! ### Directories of the driver -/

def State.dir (s : State) (n : Inode) : Dir := ⟨s.vols n.sb, n.map⟩

/-- Stores the volume and the pages of the directory after a change. -/
def State.setDir (s : State) (i : Nat) (sb : Nat) (d : Dir) : State :=
  (s.setVol sb d.vol).modInode i fun n => { n with map := d.map }

def direntToInode (s : State) (dir : Nat) (sb : Nat) (h : Hit) : Option Nat × State :=
  let cluster := h.de.firstCluster
  match inodeAlloc s sb cluster with
  | (none, s) => (none, s)
  | (some i, s) =>
    let s := s.modInode i fun n => { n with
      isDir := h.de.isDirectory, size := h.de.size, map := { n.map with firstCluster := cluster },
      dirOffset := h.direntOffset, parent := some dir }
    (some i, inodeGet s dir)

/-- The inode that `fat32_lookup_inner` finds for a name. -/
def lookupInode (s : State) (dir : Nat) (name : List Byte) : Option Nat × State :=
  match s.inodes dir with
  | none => (none, s)
  | some n =>
    match (dirScan (s.dir n) name).found with
    | none => (none, s)
    | some h => direntToInode s dir n.sb h

def fatLookup (s : State) (dir : Nat) (name : List Byte) : Option Nat × State :=
  match lookupInode s dir name with
  | (none, s) => (none, s)
  | (some i, s) => dentryAlloc s name i

def fatCreate (s : State) (dir : Nat) (name : List Byte) : Bool × State :=
  match s.inodes dir with
  | none => (false, s)
  | some n =>
    let (created, d) := createInner n.isDir (s.dir n) name
    (created, s.setDir dir n.sb d)

def fatUnlink (s : State) (dir : Nat) (name : List Byte) : Bool × State :=
  match s.inodes dir with
  | none => (false, s)
  | some n =>
    let (removed, d) := unlinkInner (s.dir n) name
    (removed, s.setDir dir n.sb d)

/-- `fat32_sync_inode` -/
def fatSync (s : State) (i : Nat) : Bool × State :=
  match s.inodes i with
  | none => (false, s)
  | some n =>
    match n.parent with
    | none => (false, s)
    | some p =>
      match s.inodes p with
      | none => (false, s)
      | some dir =>
        let (written, d) := syncInode (s.dir dir) n.dirOffset n.size n.map.firstCluster
        (written, s.setDir p dir.sb d)

/-! ### Path walks -/

/-- `path_next_component`: the characters before the next slash, at most `JLOS_VFS_NAME_MAX`. -/
def pathNextComponent (p : List Byte) : List Byte := (p.takeWhile (· ≠ 0x2F)).take nameMax

/-- The components that the loop of `jlos_vfs_lookup` takes from a path. -/
def components : Nat → List Byte → List (List Byte)
  | 0, _ => []
  | rounds + 1, p =>
    let p := p.dropWhile (· = 0x2F)
    let c := pathNextComponent p
    if c.isEmpty then [] else c :: components rounds (p.drop c.length)

/-- One round of the loop of `jlos_vfs_lookup`; the reference to the directory goes in any case. -/
def lookupComponent (s : State) (cur : Nat) (name : List Byte) : Option Nat × State :=
  match dentryLookupChild s cur name with
  | some child => (some child, dentryPut (dentryGet s child) cur)
  | none =>
    match s.dentries cur with
    | none => (none, s)
    | some x =>
      match fatLookup s x.inode name with
      | (none, s) => (none, dentryPut s cur)
      | (some child, s) =>
        let s := s.modDentry child fun y => { y with parent := some cur }
        let s := dentryGet s cur
        let s := dentryGet s child
        (some child, dentryPut s cur)

def walk (s : State) (cur : Nat) : List (List Byte) → Option Nat × State
  | [] => (some cur, s)
  | name :: rest =>
    match lookupComponent s cur name with
    | (none, s) => (none, s)
    | (some child, s) => walk s child rest

def lookup (s : State) (path : List Byte) : Option Nat × State :=
  match path, s.rootDentry with
  | 0x2F :: rest, some root => walk (dentryGet s root) root (components path.length rest)
  | _, _ => (none, s)

/-! ### Files -/

/-- `JLOS_VFS_PATH_MAX` -/
def pathMax : Nat := 1024

/-- How `path_parent_leaf` ends. -/
inductive ParentLeaf
  | failed
  /-- The parent is copied, but not into its buffer alone: `parent_size` is not looked at. -/
  | overrun
  | split (parent leaf : List Byte)
  deriving DecidableEq, Repr

def pathParentLeaf (path : List Byte) : ParentLeaf :=
  let leaf := (path.reverse.takeWhile (· ≠ 0x2F)).reverse
  if !path.contains 0x2F || leaf.isEmpty then .failed
  else
    let parent := path.take (path.length - leaf.length - 1)
    if parent.isEmpty then .split [0x2F] (leaf.take nameMax)
    else if pathMax ≤ parent.length then .overrun
    else .split parent (leaf.take nameMax)

structure Flags where
  creat : Bool
  trunc : Bool
  append : Bool
  deriving DecidableEq, Repr

/-- The part of `jlos_vfs_open` that creates the file: the directory it holds, and whether it
created the file. What the stack holds after an overrun is not modelled: nothing is created then. -/
def openCreate (s : State) (path : List Byte) : Option Nat × Bool × State :=
  match pathParentLeaf path with
  | .failed => (none, false, s)
  | .overrun => (none, false, s)
  | .split parentPath leaf =>
    match lookup s parentPath with
    | (none, s) => (none, false, s)
    | (some parent, s) =>
      match (s.dentries parent).bind fun x => (s.inodes x.inode).map fun n => (x.inode, n.isDir) with
      | some (dir, true) => (some parent, fatCreate s dir leaf)
      | _ => (some parent, false, s)

/-- The path walks of `jlos_vfs_open`. -/
def openLookup (s : State) (path : List Byte) (flags : Flags) : Option Nat × State :=
  match lookup s path with
  | (some d, s) => (some d, s)
  | (none, s) =>
    if flags.creat then
      let (parent, created, s) := openCreate s path
      let (d, s) := if created then lookup s path else (none, s)
      (d, match parent with
        | some p => dentryPut s p
        | none => s)
    else (none, s)

/-- `fat32_open` of an inode, which `O_TRUNC` truncates. -/
def fatOpen (s : State) (i : Nat) (flags : Flags) : Bool × State :=
  match s.inodes i with
  | none => (false, s)
  | some n =>
    if flags.trunc && 0 < n.size then
      let vol := s.vols n.sb
      let (freed, m) :=
        if n.map.firstCluster = 0 then (true, vol.table) else freeClusterChain vol.info vol.table n.map.firstCluster
      let s := s.setVol n.sb { vol with table := m }
      if freed then
        fatSync (s.modInode i fun n => { n with size := 0, map := { n.map with firstCluster := 0 } }) i
      else (false, s)
    else (true, s)

def vfsOpen (s : State) (path : List Byte) (flags : Flags) : Option Nat × State :=
  match openLookup s path flags with
  | (none, s) => (none, s)
  | (some d, s) =>
    match s.dentries d, kalloc s with
    | some x, (true, s) =>
      match fatOpen s x.inode flags with
      | (false, s) => (none, dentryPut s d)
      | (true, s) =>
        let pos := if flags.append then ((s.inodes x.inode).map (·.size)).getD 0 else 0
        (some s.fileCount, { s.setFile s.fileCount (some ⟨d, x.inode, pos⟩) with fileCount := s.fileCount + 1 })
    | _, (_, s) => (none, dentryPut s d)

def vfsClose (s : State) (f : Nat) : State :=
  match s.files f with
  | none => s
  | some file => (dentryPut s file.dentry).setFile f none

/-- The name, the parent and the directory of a dentry that `jlos_vfs_unlink` may remove: not that
of a directory. -/
def unlinkTarget (s : State) (d : Nat) : Option (List Byte × Nat × Nat) :=
  (s.dentries d).bind fun x => (s.inodes x.inode).bind fun n =>
    if n.isDir then none else x.parent.bind fun p => (s.dentries p).map fun y => (x.name, p, y.inode)

def unhash (s : State) (d p : Nat) : State :=
  let s := s.modDentry d fun x => { x with unhashed := true }
  (dentryPut s p).modDentry d fun x => { x with parent := none }

/-- `jlos_vfs_unlink`, with whether it succeeds. -/
def vfsUnlink (s : State) (path : List Byte) : Bool × State :=
  match lookup s path with
  | (none, s) => (false, s)
  | (some d, s) =>
    match unlinkTarget s d with
    | none => (false, dentryPut s d)
    | some (name, p, dir) =>
      match fatUnlink s dir name with
      | (false, s) => (false, dentryPut s d)
      | (true, s) => (true, dentryPut (unhash s d p) d)

/-- `jlos_vfs_read` of a file of the driver -/
def vfsRead (s : State) (f : Nat) (count : Nat) : List Byte × State :=
  match s.files f with
  | none => ([], s)
  | some file =>
    match s.inodes file.inode with
    | none => ([], s)
    | some n =>
      let (bytes, a) := readInner (s.vols n.sb) n.map n.size file.pos count
      let s := s.modInode file.inode fun n => { n with map := a }
      (bytes, s.setFile f (some { file with pos := u32 (file.pos + bytes.length) }))

/-- `jlos_vfs_write` of a file of the driver, with whether it succeeds. -/
def vfsWrite (s : State) (f : Nat) (bytes : List Byte) : Bool × State :=
  match s.files f with
  | none => (false, s)
  | some file =>
    match s.inodes file.inode with
    | none => (false, s)
    | some n =>
      match writeInner (s.vols n.sb) n.map file.pos bytes with
      | (false, vol, a) => (false, (s.setVol n.sb vol).modInode file.inode fun n => { n with map := a })
      | (true, vol, a) =>
        let pos := u32 (file.pos + bytes.length)
        let s := (s.setVol n.sb vol).modInode file.inode fun n => { n with map := a, size := max n.size pos }
        fatSync (s.setFile f (some { file with pos := pos })) file.inode

inductive Whence
  | set
  | cur
  | fromEnd
  deriving DecidableEq, Repr

/-- The position after `jlos_vfs_lseek`. -/
def seekPos (pos size : Nat) (offset : Int) : Whence → Nat
  | .set => (offset % 2 ^ 32).toNat
  | .cur => ((pos + offset) % 2 ^ 32).toNat
  | .fromEnd => ((size + offset) % 2 ^ 32).toNat

def vfsLseek (s : State) (f : Nat) (offset : Int) (whence : Whence) : State :=
  match s.files f with
  | none => s
  | some file =>
    let size := ((s.inodes file.inode).map (·.size)).getD 0
    s.setFile f (some { file with pos := seekPos file.pos size offset whence })

/-! ### Writeback -/

/-- `page_writeback` of a page of an inode; `drop` tells whether the page is evicted after it. -/
def pageWriteback (s : State) (i index : Nat) (drop : Bool) : State :=
  match s.inodes i with
  | none => s
  | some n =>
    match n.map.pages index with
    | none => s
    | some page =>
      let (vol, page) := writeback (s.vols n.sb) n.map.firstCluster index page
      let page := if drop then none else some page
      (s.setVol n.sb vol).modInode i fun n => { n with map := { n.map with pages := update n.map.pages index page } }

/-- Writeback of a page of a block mapping. A sector that is not dirty is on the device already. -/
def blockWriteback (s : State) (sb index : Nat) : State :=
  { s with tableDisk := update s.tableDisk sb fun sector word =>
      if sector / 8 = index then (s.vols sb).table sector word else s.tableDisk sb sector word }

/-! ### Mounts -/

/-- A device: its boot sector, and its sectors as words and as bytes. -/
structure Device where
  bpb : Bpb
  words : Image
  bytes : Nat → Nat → Byte

/-- `fat32_mount`: the super block and its root dentry. -/
def fatMount (s : State) (dev : Device) : Option Nat × State :=
  match SbInfo.ofBpb dev.bpb with
  | none => (none, s)
  | some info =>
    match kallocTwo s with
    | (false, s) => (none, s)
    | (true, s) =>
      let sb := s.sbCount
      let s := { s.setVol sb ⟨info, dev.words, dev.bytes⟩ with
        sbCount := sb + 1, sbLive := update s.sbLive sb true
        tableDisk := update s.tableDisk sb dev.words }
      match inodeAlloc s sb info.rootCluster with
      | (none, s) => (none, { s with sbLive := update s.sbLive sb false })
      | (some i, s) =>
        let s := s.modInode i fun n => { n with
          isDir := true, size := 0, map := { n.map with firstCluster := info.rootCluster } }
        match dentryAlloc s [0x2F] i with
        | (none, s) =>
          let s := inodePut (s.inodeCount + 1) s i
          (none, { s with sbLive := update s.sbLive sb false })
        | (some d, s) => (some sb, { s with sbRoot := update s.sbRoot sb d })

def addMount (s : State) (x : Mount) : Option Nat × State :=
  (some s.mountCount,
    { s with mounts := update s.mounts s.mountCount (some x), mountCount := s.mountCount + 1 })

def vfsMount (s : State) (dev : Device) (path : List Byte) : Option Nat × State :=
  match fatMount s dev with
  | (none, s) => (none, s)
  | (some sb, s) =>
    match kalloc s with
    | (false, s) => (none, s)
    | (true, s) =>
      let root := s.sbRoot sb
      match s.rootDentry with
      | none => addMount (dentryGet { s with rootDentry := some root } root) ⟨sb, root, none⟩
      | some _ =>
        match lookup s path with
        | (none, s) => (none, s)
        | (some mp, s) =>
          match s.dentries root with
          | none => (none, s)
          | some r =>
            let s := s.modDentry mp fun x => { x with inode := r.inode }
            addMount (inodeGet s r.inode) ⟨sb, root, some mp⟩

def fatUnmount (s : State) (sb : Nat) : State :=
  let s := dentryPut s (s.sbRoot sb)
  { s with sbLive := update s.sbLive sb false }

/-- `jlos_vfs_unmount`, with its result; the pointer may be null. -/
def vfsUnmount (s : State) (mnt : Option Nat) : Int × State :=
  match mnt.bind fun m => (s.mounts m).map fun x => (m, x) with
  | none => (-1, s)
  | some (m, x) =>
    let s := fatUnmount s x.sb
    let s := match x.mountpoint with
      | some mp => dentryPut s mp
      | none => s
    (0, { s with mounts := update s.mounts m none })

end Jlos.Vfs
