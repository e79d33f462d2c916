import Jlos.Lib.Chain

/-!
# The file allocation table

A shallow embedding of the cluster functions of `fs/fat32.c`. All their accesses to the block
mapping of the super block are aligned 32-bit words of 512-byte sectors, so that the mapping is a
function from sectors and word indices to words; that a page got from the mapping shows the last
write is what the model of the page cache proves. Reads and writes of the device succeed. `uint32_t`
values are natural numbers, reduced where the code can wrap.
-/
namespace Jlos.Fat32

open Lib List BitVec

/-- Conversion to `uint32_t`. -/
def u32 (n : Nat) : Nat := n % 2 ^ 32

theorem u32_of_lt {n : Nat} (lt : n < 2 ^ 32) : u32 n = n := Nat.mod_eq_of_lt lt

def clusterMask : BitVec 32 := 0x0FFFFFFF#32

def clusterEoc : Nat := 0x0FFFFFF8

def firstDataCluster : Nat := 2

/-! ### The super block -/

/-- The fields of `jlos_fat32_bpb_t` that the driver reads. -/
structure Bpb where
  bytesPerSector : BitVec 16
  sectorPerCluster : BitVec 8
  reservedSectors : BitVec 16
  fatCopies : BitVec 8
  totalSectors : BitVec 16
  totalSectorCount : BitVec 32
  tableSize : BitVec 32
  rootCluster : BitVec 32
  fatInfo : BitVec 16
  deriving DecidableEq, Repr

/-- `jlos_fat32_sb_info_t`, with the one field of the BPB that is read after the mount. -/
structure SbInfo where
  tableSize : Nat
  fatStart : Nat
  dataStart : Nat
  rootCluster : Nat
  bytesPerCluster : Nat
  sectorsPerCluster : Nat
  fatCopies : Nat
  totalClusters : Nat
  fsinfoSector : Nat
  deriving DecidableEq, Repr

/-- The part of `fat32_mount` that fills in the super block information; a volume with no sectors in
a cluster makes the division trap. -/
def SbInfo.ofBpb (b : Bpb) : Option SbInfo :=
  if b.bytesPerSector.toNat ≠ 512 ∨ b.sectorPerCluster = 0 then none
  else
    let fatStart := b.reservedSectors.toNat
    let dataStart := u32 (fatStart + b.tableSize.toNat * b.fatCopies.toNat)
    let totalSectors := if b.totalSectorCount = 0 then b.totalSectors.toNat else b.totalSectorCount.toNat
    some {
      tableSize := b.tableSize.toNat
      fatStart := fatStart
      dataStart := dataStart
      rootCluster := b.rootCluster.toNat
      bytesPerCluster := b.sectorPerCluster.toNat * b.bytesPerSector.toNat
      sectorsPerCluster := b.sectorPerCluster.toNat
      fatCopies := b.fatCopies.toNat
      totalClusters := u32 (totalSectors + (2 ^ 32 - dataStart)) / b.sectorPerCluster.toNat
      fsinfoSector := if b.fatInfo.toNat < totalSectors then b.fatInfo.toNat else 0 }

/-- The words of the sectors of a block mapping. -/
abbrev Image := Nat → Nat → BitVec 32

def Image.store (m : Image) (sector word : Nat) (x : BitVec 32) : Image :=
  fun a b => if a = sector ∧ b = word then x else m a b

theorem Image.store_other {m : Image} {sector word : Nat} {x : BitVec 32} {a b : Nat} (ne : ¬(a = sector ∧ b = word)) :
    m.store sector word x a b = m a b := if_neg ne

/-! ### Entries of the table -/

section entries

variable (v : SbInfo) (m : Image)

def fatOffset (cluster : Nat) : Nat := u32 (cluster * 4)

/-- The sector of an entry in the given copy of the table. -/
def fatSector (cluster copy : Nat) : Nat := u32 (v.fatStart + fatOffset cluster / 512 + copy * v.tableSize)

/-- The index of an entry in its sector. -/
def entryWord (cluster : Nat) : Nat := fatOffset cluster % 512 / 4

def getNextCluster (cluster : Nat) : Nat := (m (fatSector v cluster 0) (entryWord cluster) &&& clusterMask).toNat

/-- The new value of an entry: its upper four bits stay. -/
def setLink (entry : BitVec 32) (next : Nat) : BitVec 32 :=
  (entry &&& ~~~clusterMask) ||| (BitVec.ofNat 32 next &&& clusterMask)

/-- One round of the loop of `fat32_set_next_cluster`. -/
def setCopy (cluster next : Nat) (m : Image) (copy : Nat) : Image :=
  let sector := fatSector v cluster copy
  m.store sector (entryWord cluster) (setLink (m sector (entryWord cluster)) next)

def setNextCluster (cluster next : Nat) : Image := (List.range v.fatCopies).foldl (setCopy v cluster next) m

/-! ### The information sector -/

/-- The signatures that `fat32_fsinfo_read` and `fat32_fsinfo_update` check. -/
def fsinfoValid : Bool :=
  v.fsinfoSector ≠ 0 && m v.fsinfoSector 0 = 0x41615252#32 && m v.fsinfoSector (0x1FC / 4) = 0x61417272#32

/-- `fat32_fsinfo_read`: the next free cluster, if the sector is there and has its signatures. -/
def fsinfoRead : Option Nat := if fsinfoValid v m then some (m v.fsinfoSector (0x0E8 / 4)).toNat else none

def fsinfoUpdate (nextFree : Nat) (freeDelta : BitVec 32) : Image :=
  if fsinfoValid v m then
    let m := m.store v.fsinfoSector (0x0E8 / 4) (BitVec.ofNat 32 nextFree)
    m.store v.fsinfoSector (0x1F4 / 4) (m v.fsinfoSector (0x1F4 / 4) + freeDelta)
  else m

/-! ### Allocation and release -/

def claimCluster (cluster : Nat) : Image :=
  fsinfoUpdate v (setNextCluster v m cluster clusterEoc) (u32 (cluster + 1)) (-1)

/-- The number of entries that `fat32_alloc_cluster` looks at. -/
def fatEntries : Nat := u32 (v.totalClusters + firstDataCluster)

/-- The entry that the two loops of `fat32_alloc_cluster` read at a position of the table. -/
def scanFree (cluster : Nat) : Bool :=
  m (u32 (v.fatStart + cluster / 128)) (cluster % 128) &&& clusterMask = 0

/-- `fat32_alloc_cluster`: the hint of the information sector first, then all entries in order. -/
def allocCluster : Option (Nat × Image) :=
  let hint := (fsinfoRead v m).filter fun hint =>
    firstDataCluster ≤ hint ∧ hint < fatEntries v ∧ getNextCluster v m hint = 0
  match hint.or ((List.range (fatEntries v)).find? (scanFree v m)) with
  | some cluster => some (cluster, claimCluster v m cluster)
  | none => none

/-- The loop of `fat32_free_cluster_chain`; `left` is the number of clusters it may still walk. -/
def freeLoop (left cluster : Nat) (m : Image) : Bool × Image :=
  if firstDataCluster ≤ cluster ∧ cluster < clusterEoc then
    match left with
    | 0 => (false, m)
    | left + 1 => freeLoop left (getNextCluster v m cluster) (setNextCluster v m cluster 0)
  else (true, m)

/-- `fat32_free_cluster_chain`, with whether it succeeds. -/
def freeClusterChain (head : Nat) : Bool × Image :=
  match freeLoop v v.totalClusters head m with
  | (true, m) => (true, fsinfoUpdate v m head 1)
  | (false, m) => (false, m)

/-- `fat32_cluster_advance`: the next cluster of a chain, which grows at its end. -/
def clusterAdvance (cluster : Nat) : Option Nat × Image :=
  let next := getNextCluster v m cluster
  if next < clusterEoc then (some next, m)
  else match allocCluster v m with
    | none => (none, m)
    | some (new, m) => (some new, setNextCluster v m cluster new)

end entries

/-! ### What the functions change -/

/-- The layout of a volume whose table covers its clusters: the cluster numbers are below the end
mark, the copies of the table lie one after another below the last sector number, and the
information sector is not one of theirs. -/
structure Layout (v : SbInfo) : Prop where
  copies : 0 < v.fatCopies
  clusters : v.totalClusters + firstDataCluster ≤ clusterEoc
  covered : v.totalClusters + firstDataCluster ≤ 128 * v.tableSize
  sectors : v.fatStart + v.fatCopies * v.tableSize ≤ 2 ^ 32
  fsinfo : v.fsinfoSector < v.fatStart ∨ v.fatStart + v.fatCopies * v.tableSize ≤ v.fsinfoSector

def InTable (v : SbInfo) (cluster : Nat) : Prop := cluster < v.totalClusters + firstDataCluster
  deriving Decidable

def InVolume (v : SbInfo) (cluster : Nat) : Prop := firstDataCluster ≤ cluster ∧ InTable v cluster
  deriving Decidable

theorem setLink_mask (entry : BitVec 32) (next : Nat) :
    setLink entry next &&& clusterMask = BitVec.ofNat 32 next &&& clusterMask := by
  unfold setLink
  ext i hi
  simp only [getElem_and, getElem_or, getElem_not]
  cases clusterMask[i] <;> simp

theorem setLink_twice (entry : BitVec 32) (next : Nat) : setLink (setLink entry next) next = setLink entry next := by
  unfold setLink
  ext i hi
  simp only [getElem_and, getElem_or, getElem_not]
  cases clusterMask[i] <;> simp

theorem setLink_toNat (entry : BitVec 32) {next : Nat} (lt : next < 2 ^ 28) :
    (setLink entry next &&& clusterMask).toNat = next := by
  rw [setLink_mask, toNat_and, toNat_ofNat,
    show clusterMask.toNat = 2 ^ 28 - 1 from rfl, Nat.and_two_pow_sub_one_eq_mod]
  rw [Nat.mod_eq_of_lt (show next < 2 ^ 32 by omega), Nat.mod_eq_of_lt lt]

variable {c : Nat}

section layout

variable {v : SbInfo} {m : Image}

/-- What a loop over some copies of the table leaves in each word. -/
theorem foldl_setCopy (v : SbInfo) (cluster next : Nat) (copies : List Nat) (m : Image) (sector word : Nat) :
    copies.foldl (setCopy v cluster next) m sector word =
      if word = entryWord cluster ∧ ∃ copy ∈ copies, sector = fatSector v cluster copy then setLink (m sector word) next
      else m sector word := by
  induction copies generalizing m with
  | nil => simp
  | cons copy rest ih =>
    rw [foldl_cons, ih]
    by_cases here : sector = fatSector v cluster copy ∧ word = entryWord cluster
    · have now : setCopy v cluster next m copy sector word = setLink (m sector word) next := by
        rw [setCopy, here.1, here.2]
        exact if_pos ⟨rfl, rfl⟩
      rw [now, setLink_twice, ite_self, if_pos ⟨here.2, copy, by simp, here.1⟩]
    · have now : setCopy v cluster next m copy sector word = m sector word := Image.store_other here
      rw [now]
      congr 1
      simp only [mem_cons, exists_eq_or_imp, eq_iff_iff]
      tauto

theorem fatOffset_of_lt {cluster : Nat} (lt : cluster < clusterEoc) : fatOffset cluster = cluster * 4 := by
  apply u32_of_lt
  unfold clusterEoc at lt
  omega

theorem entryWord_of_lt {cluster : Nat} (lt : cluster < clusterEoc) : entryWord cluster = cluster % 128 := by
  rw [entryWord, fatOffset_of_lt lt]
  omega

namespace Layout

section

variable (h : Layout v)
include h

section

variable (within : InTable v c)
include within

theorem below : c < clusterEoc := Nat.lt_of_lt_of_le within h.clusters

theorem fatSector_eq {copy : Nat} (lt : copy < v.fatCopies) :
    fatSector v c copy = v.fatStart + c / 128 + copy * v.tableSize ∧ c / 128 < v.tableSize := by
  have covered := h.covered
  have sectors := h.sectors
  have room : (copy + 1) * v.tableSize ≤ v.fatCopies * v.tableSize := Nat.mul_le_mul_right _ lt
  rw [Nat.add_one_mul] at room
  have inside : c / 128 < v.tableSize := by
    unfold InTable at within
    omega
  refine ⟨?_, inside⟩
  rw [fatSector, fatOffset_of_lt (h.below within), show c * 4 / 512 = c / 128 by omega]
  apply u32_of_lt
  omega

theorem getNext_setNext {c' next : Nat} (within' : InTable v c') (lt : next < 2 ^ 28) :
    getNextCluster v (setNextCluster v m c next) c' = if c' = c then next else getNextCluster v m c' := by
  have first := h.copies
  rw [getNextCluster, setNextCluster, foldl_setCopy]
  obtain ⟨read, -⟩ := h.fatSector_eq within' first
  obtain rfl | same := eq_or_ne c' c
  · rw [if_pos ⟨rfl, 0, mem_range.mpr first, rfl⟩, if_pos rfl]
    exact setLink_toNat _ lt
  · rw [if_neg same, if_neg]
    · rfl
    rintro ⟨word, copy, mem, sector⟩
    rw [entryWord_of_lt (h.below within), entryWord_of_lt (h.below within')] at word
    obtain ⟨written, -⟩ := h.fatSector_eq within (mem_range.mp mem)
    obtain ⟨-, inside⟩ := h.fatSector_eq within' first
    rw [read, written] at sector
    -- A sector of the first copy is not one of a later copy.
    cases copy with
    | zero => omega
    | succ k =>
      rw [Nat.add_one_mul] at sector
      omega

theorem fsinfo_apart {copy : Nat} (lt : copy < v.fatCopies) : fatSector v c copy ≠ v.fsinfoSector := by
  obtain ⟨sector, inside⟩ := h.fatSector_eq within lt
  have room : (copy + 1) * v.tableSize ≤ v.fatCopies * v.tableSize := Nat.mul_le_mul_right _ lt
  rw [Nat.add_one_mul] at room
  rcases h.fsinfo with low | high <;> omega

theorem fsinfo_setNext (next word : Nat) : setNextCluster v m c next v.fsinfoSector word = m v.fsinfoSector word := by
  rw [setNextCluster, foldl_setCopy, if_neg]
  rintro ⟨-, copy, mem, here⟩
  exact h.fsinfo_apart within (mem_range.mp mem) here.symm

theorem getNext_fsinfoUpdate (nextFree : Nat) (delta : BitVec 32) :
    getNextCluster v (fsinfoUpdate v m nextFree delta) c = getNextCluster v m c := by
  have apart := h.fsinfo_apart within h.copies
  unfold getNextCluster fsinfoUpdate
  split
  · rw [Image.store_other fun both => apart both.1, Image.store_other fun both => apart both.1]
  · rfl

theorem getNext_claim {c' : Nat} (within' : InTable v c') :
    getNextCluster v (claimCluster v m c) c' = if c' = c then clusterEoc else getNextCluster v m c' := by
  rw [claimCluster, h.getNext_fsinfoUpdate within', h.getNext_setNext within within' (by decide)]

end

theorem fatEntries_eq : fatEntries v = v.totalClusters + firstDataCluster := by
  apply u32_of_lt
  have := h.clusters
  unfold clusterEoc at this
  omega

theorem scanFree_iff (within : InTable v c) : scanFree v m c ↔ getNextCluster v m c = 0 := by
  obtain ⟨read, -⟩ := h.fatSector_eq within h.copies
  rw [Nat.zero_mul, Nat.add_zero] at read
  have bound : v.fatStart + c / 128 < 2 ^ 32 := by
    rw [← read, fatSector, u32]
    exact Nat.mod_lt _ (by decide)
  rw [scanFree, getNextCluster, read, u32_of_lt bound, entryWord_of_lt (h.below within), decide_eq_true_iff,
    ← toNat_inj]
  rfl

/-- `fat32_alloc_cluster` claims a free entry of the table, or leaves everything as it is. -/
theorem alloc {m' : Image} (eq : allocCluster v m = some (c, m')) :
    InTable v c ∧ getNextCluster v m c = 0 ∧ m' = claimCluster v m c := by
  unfold allocCluster at eq
  dsimp only at eq
  split at eq
  case h_2 => cases eq
  case h_1 found =>
    cases eq
    refine and_assoc.mp ⟨?_, rfl⟩
    rcases Option.or_eq_some_iff.mp found with hinted | ⟨-, scanned⟩
    · have met := Option.filter_eq_some_iff.mp hinted
      have props := of_decide_eq_true met.2
      rw [h.fatEntries_eq] at props
      exact ⟨props.2.1, props.2.2⟩
    · have within : InTable v c := by
        have mem := mem_of_find?_eq_some scanned
        rwa [mem_range, h.fatEntries_eq] at mem
      exact ⟨within, (h.scanFree_iff within).mp (find?_some scanned)⟩

end

end Layout

end layout

end Jlos.Fat32
