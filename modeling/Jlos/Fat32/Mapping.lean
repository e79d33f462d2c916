import Jlos.Fat32.Name
import Jlos.Fat32.Table

/-!
# Cached pages of files and directories

The address space of an inode: its cached pages, and how `fs/fat32.c` and `fs/page_cache.c` read and
write them through the chain of the inode's first cluster. The sectors of the device behind these
pages are bytes. The buffer heads of a page keep their dirty bit only, since their block numbers are
looked up again at every write. Memory for pages is there, and reads and writes of the device
succeed.
-/
namespace Jlos.Fat32

open Function Option

/-- A mounted volume: the block mapping of its super block and the sectors of the device that inode
pages reach. -/
structure Volume where
  info : SbInfo
  table : Image
  disk : Nat → Nat → Byte

structure Page where
  data : Nat → Byte
  /-- `JLOS_FS_BH_DIRTY` of the eight buffer heads -/
  bhDirty : Nat → Bool
  /-- `JLOS_FS_PAGE_DIRTY` -/
  dirty : Bool

/-- The address space of an inode, with the `first_cluster` that its blocks are found by. -/
structure Mapping where
  firstCluster : Nat
  pages : Nat → Option Page

/-! ### Blocks -/

def clusterToSector (v : SbInfo) (cluster : Nat) : Nat :=
  u32 (v.dataStart + v.sectorsPerCluster * (u32 (cluster + (2 ^ 32 - firstDataCluster))))

/-- The loop of `fat32_get_block` along the chain. -/
def walkChain (v : SbInfo) (m : Image) : Nat → Nat → Option Nat
  | 0, cluster => some cluster
  | n + 1, cluster =>
    let next := getNextCluster v m cluster
    if clusterEoc ≤ next then none else walkChain v m n next

def getBlock (vol : Volume) (firstCluster iblock : Nat) : Option Nat :=
  if firstCluster < firstDataCluster then none
  else
    let iblk := u32 iblock
    (walkChain vol.info vol.table (iblk / vol.info.sectorsPerCluster) firstCluster).map fun cluster =>
      u32 (clusterToSector vol.info cluster + iblk % vol.info.sectorsPerCluster)

/-- The contents that `jlos_fs_block_read_full_page` gives a page: zero where the file has no
block. -/
def fillData (vol : Volume) (firstCluster index : Nat) : Nat → Byte := fun j =>
  match getBlock vol firstCluster (index * 8 + j / 512) with
  | some phys => vol.disk phys (j % 512)
  | none => 0

/-- `fat32_readpage`; it fails for a page with no block at all. -/
def readFullPage (vol : Volume) (firstCluster index : Nat) : Option Page :=
  if (List.range 8).any fun i => (getBlock vol firstCluster (index * 8 + i)).isSome then
    some ⟨fillData vol firstCluster index, fun _ => false, false⟩
  else none

/-- The page that `jlos_fs_page_get` returns. -/
def Mapping.view (vol : Volume) (a : Mapping) (index : Nat) : Option Page :=
  (a.pages index).or (readFullPage vol a.firstCluster index)

/-- `jlos_fs_page_get`: the page, which is cached from then on. -/
def pageGet (vol : Volume) (a : Mapping) (index : Nat) : Option (Page × Mapping) :=
  (a.view vol index).map fun page => (page, { a with pages := update a.pages index (some page) })

/-- A copy into the data of a page, followed by `jlos_fs_page_dirty`. -/
def Page.write (page : Page) (offset : Nat) (bytes : List Byte) : Page where
  data := fun j => if offset ≤ j ∧ j < offset + bytes.length then bytes.getD (j - offset) 0 else page.data j
  bhDirty := fun _ => true
  dirty := true

/-- Writes into a page of the mapping; it fails if the page cannot be read. -/
def pageWrite (vol : Volume) (a : Mapping) (index offset : Nat) (bytes : List Byte) : Option Mapping :=
  (pageGet vol a index).map fun (page, a) =>
    { a with pages := update a.pages index (some (page.write offset bytes)) }

/-! ### Writeback -/

/-- One round of the loop of `jlos_fs_block_write_full_page`: a sector without a block keeps its
dirty bit. -/
def writeSector (firstCluster index : Nat) (s : Volume × Page) (i : Nat) : Volume × Page :=
  let (vol, page) := s
  if page.bhDirty i then
    match getBlock vol firstCluster (index * 8 + i) with
    | none => (vol, page)
    | some phys => ({ vol with disk := update vol.disk phys fun j => page.data (i * 512 + j) },
        { page with bhDirty := update page.bhDirty i false })
  else (vol, page)

/-- `page_writeback` of a page with the hooks of `fs/fat32.c` -/
def writeback (vol : Volume) (firstCluster index : Nat) (page : Page) : Volume × Page :=
  if page.dirty then
    let (vol, page) := (List.range 8).foldl (writeSector firstCluster index) (vol, page)
    (vol, { page with dirty := false })
  else (vol, page)

/-! ### Pages that can be read -/

section view

variable {vol : Volume} {a a' : Mapping} {page : Page}

theorem pageGet_view {index : Nat} (eq : pageGet vol a index = some (page, a')) :
    a.view vol index = some page ∧ a'.firstCluster = a.firstCluster ∧ a'.view vol = a.view vol := by
  obtain ⟨shown, seen, both⟩ := map_eq_some_iff.mp eq
  cases both
  refine ⟨seen, rfl, funext fun i => ?_⟩
  obtain rfl | here := eq_or_ne i index
  · rw [seen, Mapping.view]
    dsimp only
    rw [update_self, some_or]
  · rw [Mapping.view, Mapping.view]
    dsimp only
    rw [update_of_ne here]

theorem pageWrite_view {index offset : Nat} {bytes : List Byte} (eq : pageWrite vol a index offset bytes = some a') :
    ∃ page, a.view vol index = some page ∧ a'.firstCluster = a.firstCluster ∧
      a'.view vol = update (a.view vol) index (some (page.write offset bytes)) := by
  obtain ⟨⟨page, loaded⟩, got, rfl⟩ := map_eq_some_iff.mp eq
  obtain ⟨seen, same, view⟩ := pageGet_view got
  refine ⟨page, seen, same, funext fun i => ?_⟩
  obtain rfl | here := eq_or_ne i index
  · rw [update_self, Mapping.view]
    dsimp only
    rw [update_self, some_or]
  · rw [update_of_ne here, ← view, Mapping.view, Mapping.view]
    dsimp only
    rw [update_of_ne here]

end view

end Jlos.Fat32
