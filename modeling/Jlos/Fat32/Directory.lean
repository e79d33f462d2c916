import Jlos.Fat32.Mapping

/-!
# Directories

A shallow embedding of the functions of `fs/fat32.c` that search, extend and change a directory. The
loops over the pages of a directory are loops over its entries, which get the page of each entry;
the bound on their rounds is more than a volume has entries. A scan does not keep the pages it
reads: a page that was never written shows what the device holds.
-/
namespace Jlos.Fat32

open Function

/-- A directory inode, with the volume it lies on. -/
structure Dir where
  vol : Volume
  map : Mapping

/-- The number of directory entries of a page. -/
def entriesPerPage : Nat := 128

def Page.dirent (page : Page) (i : Nat) : Dirent := fun j => page.data (32 * i + j)

/-- More pages than the clusters of the volume fill. -/
def pageBound (v : SbInfo) : Nat := v.totalClusters * v.sectorsPerCluster + 1

/-! ### Entries -/

def direntRead (d : Dir) (offset : Nat) : Option (Dirent × Dir) :=
  (pageGet d.vol d.map (offset / 4096)).map fun (page, a) =>
    (fun j => page.data (offset % 4096 + j), { d with map := a })

def Dirent.bytes (de : Dirent) : List Byte := (List.range 32).map de

def direntWrite (d : Dir) (offset : Nat) (de : Dirent) : Bool × Dir :=
  match pageWrite d.vol d.map (offset / 4096) (offset % 4096) de.bytes with
  | some a => (true, { d with map := a })
  | none => (false, d)

/-! ### Scanning -/

/-- `fat32_dirent_hit_t` -/
structure Hit where
  de : Dirent
  direntOffset : Nat
  longName : Option (List Byte)

inductive Scan
  | miss
  | stop
  | hit (h : Hit)

def Scan.found : Scan → Option Hit
  | .hit h => some h
  | _ => none

inductive Verdict
  | miss
  | hit
  | stop
  deriving DecidableEq, Repr

def matchName (name : List Byte) (de : Dirent) (longName : Option (List Byte)) : Verdict :=
  if de.isEnd then .stop
  else if de.isDeleted then .miss
  else if (longName.getD (nameToStr de)) = name then .hit else .miss

/-- The loops of `fat32_dir_scan` from an entry on, with the long name collected so far; `entry`
gets the entries. -/
def scanFrom (name : List Byte) (entry : Nat → Option Dirent) : Nat → Nat → Option (Nat → Byte) → Scan
  | 0, _, _ => .miss
  | rounds + 1, pos, lfn =>
    match entry pos with
    | none => .miss
    | some de =>
      if de.isLfn && !de.isDeleted then
        scanFrom name entry rounds (pos + 1) (some (lfnExtract de (lfn.getD fun _ => 0)))
      else
        let longName := lfn.map fun buf => cstr buf nameMax
        match matchName name de longName with
        | .miss => scanFrom name entry rounds (pos + 1) none
        | .stop => .stop
        | .hit => .hit ⟨de, u32 (pos * 32), longName⟩

/-- The entry at a position of the directory, if its page can be read. -/
def Dir.entry (d : Dir) (pos : Nat) : Option Dirent :=
  (d.map.view d.vol (pos / entriesPerPage)).map fun page => page.dirent (pos % entriesPerPage)

/-- `fat32_dir_scan` with `fat32_match_name`. -/
def dirScan (d : Dir) (name : List Byte) : Scan := scanFrom name d.entry (pageBound d.vol.info * entriesPerPage) 0 none

/-! ### Free entries -/

/-- The inner loop of `fat32_find_free_slots` over the entries of one page from `i` on. -/
def findRun (free : Nat → Bool) (need : Nat) : Nat → Nat → Nat → Nat → Option Nat
  | 0, _, _, _ => none
  | left + 1, i, start, len =>
    if free i then
      let start := if len = 0 then i else start
      if need ≤ len + 1 then some start else findRun free need left (i + 1) start (len + 1)
    else findRun free need left (i + 1) start 0

/-- The loop of `fat32_find_free_slots` over the pages. -/
def findSlots (d : Dir) (need : Nat) : Nat → Nat → Option Nat
  | 0, _ => none
  | rounds + 1, index =>
    match d.map.view d.vol index with
    | none => none
    | some page =>
      match findRun (fun i => (page.dirent i).isFree) need entriesPerPage 0 0 0 with
      | some start => some (index * entriesPerPage + start)
      | none => findSlots d need rounds (index + 1)

/-- The last cluster of the chain and its index in the chain. -/
def lastCluster (v : SbInfo) (m : Image) : Nat → Nat → Nat → Nat × Nat
  | 0, tail, idx => (tail, idx)
  | rounds + 1, tail, idx =>
    let next := getNextCluster v m tail
    if clusterEoc ≤ next then (tail, idx) else lastCluster v m rounds next (idx + 1)

/-- The cluster that `fat32_find_free_slots` adds to the directory, with its index in the chain. -/
def growDir (d : Dir) : Option (Nat × Dir) :=
  let v := d.vol.info
  if d.map.firstCluster < firstDataCluster then
    (allocCluster v d.vol.table).map fun (tail, m) =>
      (0, ⟨{ d.vol with table := m }, { d.map with firstCluster := tail }⟩)
  else
    let (tail, idx) := lastCluster v d.vol.table (v.totalClusters + 1) d.map.firstCluster 0
    match clusterAdvance v d.vol.table tail with
    | (none, _) => none
    | (some _, m) => some (u32 (idx + 1), { d with vol := { d.vol with table := m } })

/-- The loop that clears the new cluster page by page. -/
def clearLoop (offset total : Nat) : Nat → Nat → Dir → Bool × Dir
  | 0, _, d => (true, d)
  | rounds + 1, done, d =>
    if done < total then
      let off := u32 (offset + done)
      let pageOff := off % 4096
      let chunk := min (4096 - pageOff) (total - done)
      match pageWrite d.vol d.map (off / 4096) pageOff (List.replicate chunk 0) with
      | none => (false, d)
      | some a => clearLoop offset total rounds (done + chunk) { d with map := a }
    else (true, d)

/-- `fat32_find_free_slots`: the offset of a run of free entries in one page, or of a new
cluster. -/
def findFreeSlots (d : Dir) (need : Nat) : Option Nat × Dir :=
  match findSlots d need (pageBound d.vol.info) 0 with
  | some start => (some (u32 (start * 32)), d)
  | none =>
    match growDir d with
    | none => (none, d)
    | some (idx, d) =>
      let total := d.vol.info.bytesPerCluster
      let offset := u32 (idx * total)
      match clearLoop offset total (total + 1) 0 d with
      | (true, d) => (some offset, d)
      | (false, d) => (none, d)

/-! ### Creation and removal -/

/-- The entry that `fat32_create_inner` starts from. -/
def newDirent : Dirent := update Dirent.zero 11 0x20

/-- Writes entries one after another, as long as that succeeds. -/
def writeEntries (d : Dir) (offset : Nat) : List Dirent → Bool × Dir
  | [] => (true, d)
  | de :: rest =>
    match direntWrite d offset de with
    | (true, d) => writeEntries d (u32 (offset + 32)) rest
    | (false, d) => (false, d)

/-- The entries that `fat32_create_inner` writes for a name. -/
def nameEntries (name : List Byte) : Option (List Dirent) :=
  if nameNeedLfn name then
    let de := generateShortName name newDirent
    some (((List.range (lfnCount name)).map (lfnEntry name (lfnChecksum de))).reverse ++ [de])
  else (nameTo83 name newDirent).map fun de => [de]

/-- `fat32_create_inner`; `isDir` tells whether the mode of the inode says directory. -/
def createInner (isDir : Bool) (d : Dir) (name : List Byte) : Bool × Dir :=
  if isDir && (dirScan d name).found.isNone then
    match nameEntries name with
    | none => (false, d)
    | some entries =>
      match findFreeSlots d entries.length with
      | (none, d) => (false, d)
      | (some offset, d) => writeEntries d offset entries
  else (false, d)

/-- The loop of `fat32_unlink_inner` that marks the long-name entries before an offset as
deleted. -/
def unlinkLfn : Nat → Nat → Dir → Dir
  | 0, _, d => d
  | rounds + 1, offset, d =>
    if 32 ≤ offset then
      let offset := offset - 32
      match direntRead d offset with
      | none => d
      | some (de, d) =>
        if !de.isLfn || de.isDeleted then d
        else match direntWrite d offset (update de 0 0xE5) with
          | (true, d) => unlinkLfn rounds offset d
          | (false, d) => d
    else d

def unlinkInner (d : Dir) (name : List Byte) : Bool × Dir :=
  match (dirScan d name).found with
  | none => (false, d)
  | some h =>
    if h.de.isDirectory then (false, d)
    else
      let cluster := h.de.firstCluster
      let (freed, m) := if cluster = 0 then (true, d.vol.table) else freeClusterChain d.vol.info d.vol.table cluster
      let d := { d with vol := { d.vol with table := m } }
      if freed then
        match direntWrite d h.direntOffset (update h.de 0 0xE5) with
        | (false, d) => (false, d)
        | (true, d) => (true, unlinkLfn (h.direntOffset / 32) h.direntOffset d)
      else (false, d)

/-- `fat32_sync_inode` on the directory of the inode. -/
def syncInode (parent : Dir) (dirOffset size firstCluster : Nat) : Bool × Dir :=
  match direntRead parent dirOffset with
  | none => (false, parent)
  | some (de, parent) => direntWrite parent dirOffset ((de.setSize size).setFirstCluster firstCluster)

end Jlos.Fat32
