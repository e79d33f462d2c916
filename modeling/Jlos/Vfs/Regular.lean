import Jlos.Fat32.Contents
import Jlos.Vfs.Model

/-!
# Regular files as byte arrays

One open regular file of a volume: its inode with the cached pages, its size and its position.
`jlos_vfs_read`, `jlos_vfs_write`, `jlos_vfs_lseek` and a reopening act on it as the driver does,
and between two calls the page cache may write a page back or evict it. The specification is an
array of bytes with a position.
-/
namespace Jlos.Vfs.Regular

open Lib Fat32 Function List Option

/-! ### The file -/

structure Handle where
  vol : Volume
  map : Mapping
  size : Nat
  pos : Nat

inductive Op
  | read (count : Nat)
  | write (bytes : List Byte)
  | lseek (offset : Int) (whence : Whence)
  | reopen (trunc : Bool)
  | writeback (index : Nat) (drop : Bool)

inductive Result
  | bytes (data : List Byte)
  | done
  | failed
  deriving DecidableEq

/-- `fat32_open_inner` with `O_TRUNC` -/
def truncate (h : Handle) : Bool × Handle :=
  if 0 < h.size then
    let (freed, m) := if h.map.firstCluster = 0 then (true, h.vol.table)
      else freeClusterChain h.vol.info h.vol.table h.map.firstCluster
    let h := { h with vol := { h.vol with table := m } }
    if freed then (true, { h with size := 0, map := { h.map with firstCluster := 0 } }) else (false, h)
  else (true, h)

/-- `page_writeback` of a page; `drop` tells whether the page is evicted after it. -/
def pageWriteback (h : Handle) (index : Nat) (drop : Bool) : Handle :=
  match h.map.pages index with
  | none => h
  | some page =>
    let (vol, page) := writeback h.vol h.map.firstCluster index page
    let page := if drop then none else some page
    { h with vol := vol, map := { h.map with pages := update h.map.pages index page } }

def exec (h : Handle) : Op → Result × Handle
  | .read count =>
    let (bytes, a) := readInner h.vol h.map h.size h.pos count
    (.bytes bytes, { h with map := a, pos := u32 (h.pos + bytes.length) })
  | .write bytes =>
    match writeInner h.vol h.map h.pos bytes with
    | (false, vol, a) => (.failed, { h with vol := vol, map := a })
    | (true, vol, a) =>
      let pos := u32 (h.pos + bytes.length)
      (.done, { vol := vol, map := a, size := max h.size pos, pos := pos })
  | .lseek offset whence => (.done, { h with pos := seekPos h.pos h.size offset whence })
  | .reopen trunc =>
    match if trunc then truncate h else (true, h) with
    | (true, h) => (.done, { h with pos := 0 })
    | (false, h) => (.failed, h)
  | .writeback index drop => (.done, pageWriteback h index drop)

/-- The volume has the clusters that a write needs. -/
def Room (h : Handle) : Op → Prop
  | .write bytes => ∃ vol a m, firstClusterFor h.vol h.map = some (vol, a) ∧
      advanceLoop vol.info (u32 (u32 (h.pos + bytes.length) + vol.info.bytesPerCluster - 1) /
        vol.info.bytesPerCluster - 1)
        a.firstCluster vol.table = (true, m)
  | _ => True

def Calls (h : Handle) (op : Op) (h' : Handle) : Prop := Room h op ∧ h' = (exec h op).2

/-! ### The array -/

/-- The specification: the bytes of the file and a position. -/
structure ByteFile where
  data : List Byte
  pos : Nat
  deriving DecidableEq

/-- A write above the end fills the gap with zeros. -/
def ByteFile.exec (f : ByteFile) : Op → Result × ByteFile
  | .read count =>
    let bytes := (f.data.drop f.pos).take count
    (.bytes bytes, { f with pos := f.pos + bytes.length })
  | .write bytes =>
    (.done, ⟨f.data.take f.pos ++ List.replicate (f.pos - f.data.length) 0 ++ bytes ++ f.data.drop
      (f.pos + bytes.length),
      f.pos + bytes.length⟩)
  | .lseek offset whence => (.done, { f with pos := seekPos f.pos f.data.length offset whence })
  | .reopen trunc => (.done, ⟨if trunc then [] else f.data, 0⟩)
  | .writeback _ _ => (.done, f)

def abs (h : Handle) : ByteFile := ⟨(List.range h.size).map (content h.vol h.map), h.pos⟩

/-- Reads do not count past the last position, and writes start at most at the end of the file and
end a cluster before the last position. -/
def Meets (h : Handle) : Op → Prop
  | .read count => h.size ≤ h.pos ∨ h.pos + count < 2 ^ 32
  | .write bytes => h.pos ≤ h.size ∧ h.pos + bytes.length + h.vol.info.bytesPerCluster ≤ 2 ^ 32
  | _ => True

instance (h : Handle) (op : Op) : Decidable (Meets h op) := by
  cases op <;> unfold Meets <;> infer_instance

/-! ### Cached pages -/

section pages

variable {vol vol' : Volume} {a a' : Mapping} {limit : Nat}

/-- The cached pages agree with the device below a position, except for the sectors that are marked
dirty. -/
structure Cached (vol : Volume) (a : Mapping) (limit : Nat) : Prop where
  bound : ∀ index page, a.pages index = some page → index < 2 ^ 20
  coherent : ∀ x < limit, ∀ page phys, a.pages (x / 4096) = some page →
    getBlock vol a.firstCluster (x / 512) = some phys →
    (page.dirty = true ∧ page.bhDirty (x % 4096 / 512) = true) ∨ page.data (x % 4096) = vol.disk phys (x % 512)

theorem Cached.bound_update (h : Cached vol a limit) {index : Nat} {p : Option Page} (lt : index < 2 ^ 20) (i : Nat)
    (page : Page) (cached : update a.pages index p i = some page) : i < 2 ^ 20 := by
  rcases of_update cached with ⟨rfl, -⟩ | ⟨-, old⟩
  · exact lt
  · exact h.bound i page old

theorem Cached.pageGet (h : Cached vol a limit) {index : Nat} {page : Page} (lt : index < 2 ^ 20)
    (eq : pageGet vol a index = some (page, a')) : Cached vol a' limit := by
  obtain ⟨shown, seen, both⟩ := map_eq_some_iff.mp eq
  cases both
  refine ⟨h.bound_update lt, fun x below page' phys cached block => ?_⟩
  rcases of_update cached with ⟨rfl, same⟩ | ⟨-, old⟩
  · cases same
    cases old : a.pages (x / 4096) with
    | some page' =>
      rw [Mapping.view, old, some_or] at seen
      cases seen
      exact h.coherent x below page phys old block
    | none =>
      rw [Mapping.view, old, none_or, readFullPage_of_block block] at seen
      rw [← some.inj seen]
      exact .inr (fillData_of_block block)
  · exact h.coherent x below page' phys old block

theorem Cached.grow (h : Cached vol a limit) (pages : a'.pages = a.pages) (disk : vol'.disk = vol.disk)
    (blocks : ∀ x < limit, ∃ phys, getBlock vol a.firstCluster (x / 512) = some phys ∧
      getBlock vol' a'.firstCluster (x / 512) = some phys) :
    Cached vol' a' limit ∧ ∀ x < limit, content vol' a' x = content vol a x := by
  constructor
  · refine ⟨pages ▸ h.bound, fun x below page phys cached block => ?_⟩
    obtain ⟨phys', old, new⟩ := blocks x below
    cases new.symm.trans block
    rw [disk]
    exact h.coherent x below page phys (pages ▸ cached) old
  · intro x below
    obtain ⟨phys, old, new⟩ := blocks x below
    cases cached : a.pages (x / 4096) with
    | some page => rw [content_cached cached, content_cached (pages ▸ cached)]
    | none => rw [content_uncached cached old, content_uncached (pages ▸ cached) new, disk]

/-- A copy into one page that starts at most at the limit moves the limit to its end. -/
theorem Cached.chunk (h : Cached vol a limit) {fp : Nat} {bytes : List Byte} (start : fp ≤ limit)
    (fits : fp % 4096 + bytes.length ≤ 4096) (lt : fp < 2 ^ 32)
    (eq : pageWrite vol a (fp / 4096) (fp % 4096) bytes = some a') :
    a'.firstCluster = a.firstCluster ∧ Cached vol a' (max limit (fp + bytes.length)) ∧
      ∀ x, content vol a' x = if fp ≤ x ∧ x < fp + bytes.length then bytes.getD (x - fp) 0 else content vol a x := by
  have shown := content_pageWrite fits eq
  obtain ⟨page, -, rfl⟩ := pageWrite_eq eq
  refine ⟨rfl, ⟨h.bound_update (by omega), fun x below page' phys cached block => ?_⟩, shown⟩
  rcases of_update cached with ⟨-, same⟩ | ⟨away, old⟩
  · cases same
    exact .inl ⟨rfl, rfl⟩
  · -- The bytes between the old and the new limit lie in the page that was written.
    exact h.coherent x (by omega) page' phys old block

end pages

/-! ### The loops -/

variable {a : Mapping}

section loops

variable {vol : Volume} {pos : Nat}

theorem readLoop_spec {count limit : Nat} (rounds done : Nat) (h : Cached vol a limit)
    (bound : pos + count < 2 ^ 32) (enough : count - done < rounds)
    (blocks : ∀ x, pos ≤ x → x < pos + count → ∃ phys, getBlock vol a.firstCluster (x / 512) = some phys) :
    ∃ a', readLoop vol pos count rounds done a =
        ((List.range (count - done)).map fun i => content vol a (pos + done + i), a') ∧
      a'.firstCluster = a.firstCluster ∧ Cached vol a' limit ∧ ∀ x, content vol a' x = content vol a x := by
  induction rounds generalizing done a with
  | zero => omega
  | succ rounds ih =>
    rw [readLoop]
    split
    next more =>
      dsimp only
      rw [u32_of_lt (show pos + done < 2 ^ 32 by omega)]
      obtain ⟨phys, block⟩ := blocks (pos + done) (by omega) (by omega)
      obtain ⟨page, seen⟩ := view_of_block block
      obtain ⟨a₁, got⟩ : ∃ a₁, pageGet vol a ((pos + done) / 4096) = some (page, a₁) := by
        rw [pageGet, seen]
        exact ⟨_, rfl⟩
      obtain ⟨-, first, view⟩ := pageGet_view got
      rw [got]
      dsimp only
      have cached := h.pageGet (show (pos + done) / 4096 < 2 ^ 20 by omega) got
      obtain ⟨a', ran, first', cached', same⟩ := ih (done + min (4096 - (pos + done) % 4096) (count - done)) cached
        (by omega) (by rw [first]; exact blocks)
      rw [ran]
      refine ⟨a', ?_, first'.trans first, cached', fun x => (same x).trans (content_congr view x)⟩
      congr 1
      -- This round copies up to the end of its page, the others copy the rest.
      have split : count - done = min (4096 - (pos + done) % 4096) (count - done) +
          (count - (done + min (4096 - (pos + done) % 4096) (count - done))) := by omega
      conv_rhs => rw [split, List.range_add, List.map_append, List.map_map]
      congr 1
      · apply map_congr_left
        intro j mem
        have lt := mem_range.mp mem
        rw [content, show (pos + done + j) / 4096 = (pos + done) / 4096 by omega, seen, map_some,
          getD_some, show (pos + done + j) % 4096 = (pos + done) % 4096 + j by omega]
      · apply map_congr_left
        intro j mem
        rw [content_congr view]
        simp only [comp]
        congr 1
        omega
    next stop =>
      refine ⟨a, ?_, rfl, h, fun _ => rfl⟩
      rw [show count - done = 0 by omega]
      rfl

theorem writeLoop_spec {bytes : List Byte} {size : Nat} (rounds done : Nat)
    (h : Cached vol a (max size (pos + done))) (bound : pos + bytes.length < 2 ^ 32)
    (enough : bytes.length - done < rounds) (le : done ≤ bytes.length)
    (blocks : ∀ x, pos ≤ x → x < pos + bytes.length → ∃ phys, getBlock vol a.firstCluster (x / 512) = some phys) :
    ∃ a', writeLoop vol pos bytes rounds done a = (true, a') ∧ a'.firstCluster = a.firstCluster ∧
      Cached vol a' (max size (pos + bytes.length)) ∧ ∀ x, content vol a' x =
        if pos + done ≤ x ∧ x < pos + bytes.length then bytes.getD (x - pos) 0 else content vol a x := by
  induction rounds generalizing done a with
  | zero => omega
  | succ rounds ih =>
    rw [writeLoop]
    split
    next more =>
      dsimp only
      rw [u32_of_lt (show pos + done < 2 ^ 32 by omega)]
      obtain ⟨phys, block⟩ := blocks (pos + done) (by omega) (by omega)
      obtain ⟨page, seen⟩ := view_of_block block
      generalize hn : min (4096 - (pos + done) % 4096) (bytes.length - done) = n
      have len : ((bytes.drop done).take n).length = n := by
        rw [length_take, length_drop]
        omega
      obtain ⟨a₁, written⟩ : ∃ a₁, pageWrite vol a ((pos + done) / 4096) ((pos + done) % 4096)
          ((bytes.drop done).take n) = some a₁ := by
        rw [pageWrite, pageGet, seen]
        exact ⟨_, rfl⟩
      rw [written]
      obtain ⟨first, cached, shown⟩ := h.chunk (by omega) (by omega) (by omega) written
      rw [len] at cached shown
      have limit : max (max size (pos + done)) (pos + done + n) = max size (pos + (done + n)) := by omega
      rw [limit] at cached
      obtain ⟨a', ran, first', cached', shown'⟩ := ih (done + n) cached (by omega) (by omega)
        (by rw [first]; exact blocks)
      refine ⟨a', ran, first'.trans first, cached', fun x => ?_⟩
      rw [shown' x, shown x]
      -- The chunk and the rest together are the bytes from `done` on.
      by_cases rest : pos + (done + n) ≤ x ∧ x < pos + bytes.length
      · rw [if_pos rest, if_pos (by omega)]
      · rw [if_neg rest]
        by_cases chunk : pos + done ≤ x ∧ x < pos + done + n
        · rw [if_pos chunk, if_pos (by omega), getD_eq_getElem?_getD, getD_eq_getElem?_getD,
            getElem?_take_of_lt (by omega), getElem?_drop, show done + (x - (pos + done)) = x - pos by omega]
        · rw [if_neg chunk, if_neg (by omega)]
    next stop =>
      have all : done = bytes.length := by omega
      refine ⟨a, rfl, rfl, all ▸ h, fun x => ?_⟩
      rw [if_neg (by omega)]

end loops

/-! ### Writeback -/

section device

variable {vol : Volume} {a : Mapping} {limit : Nat} {clusters : List Nat}

/-- Writing a page back and evicting it changes nothing below the limit. -/
theorem Cached.writeback (h : Cached vol a limit) (file : FileChain vol.info vol.table a.firstCluster clusters)
    (sectors : Sectors vol.info) (le : limit ≤ 2 ^ 32)
    (blocks : ∀ x < limit, ∃ phys, getBlock vol a.firstCluster (x / 512) = some phys) {index : Nat} {page : Page}
    (cached : a.pages index = some page) (drop : Bool) : let r := Fat32.writeback vol a.firstCluster index page
    let a' : Mapping := { a with pages := update a.pages index (if drop then none else some r.2) }
    Cached r.1 a' limit ∧ ∀ x < limit, content r.1 a' x = content vol a x := by
  intro r a'
  have writes := writeback_writes vol a.firstCluster index page
  have same : getBlock r.1 = getBlock vol := getBlock_congr writes.info writes.table
  have lt := h.bound index page cached
  -- The device below the limit: the sectors of the page get its data, the others stay.
  have away {x phys : Nat} (below : x < limit) (ne : x / 4096 ≠ index)
      (block : getBlock vol a.firstCluster (x / 512) = some phys) : r.1.disk phys = vol.disk phys := by
    by_contra changed
    obtain ⟨i, hi, block'⟩ := writes.disk phys changed
    have := file.getBlock_inj sectors (by omega) (by omega) block block'
    omega
  have here {x phys : Nat} (below : x < limit) (eq : x / 4096 = index)
      (block : getBlock vol a.firstCluster (x / 512) = some phys) : r.1.disk phys (x % 512) = page.data (x % 4096) := by
    have split : index * 8 + x % 4096 / 512 = x / 512 := by omega
    rw [writeback_disk file sectors lt (show x % 4096 / 512 < 8 by omega) (split.symm ▸ block)]
    split
    next =>
      show page.data (x % 4096 / 512 * 512 + x % 512) = _
      rw [show x % 4096 / 512 * 512 + x % 512 = x % 4096 by omega]
    next clean =>
      exact ((h.coherent x below page phys (eq ▸ cached) block).resolve_left clean).symm
  constructor
  · refine ⟨h.bound_update lt, fun x below page' phys cached' block => ?_⟩
    rw [same] at block
    rcases of_update cached' with ⟨eq, kept⟩ | ⟨ne, old⟩
    · cases drop <;> cases kept
      rw [writeback_page, here below eq block]
      exact .inr rfl
    · rw [away below ne block]
      exact h.coherent x below page' phys old block
  · intro x below
    obtain ⟨phys, block⟩ := blocks x below
    have block' : getBlock r.1 a'.firstCluster (x / 512) = some phys := by rw [same]; exact block
    by_cases eq : x / 4096 = index
    · have before : content vol a x = page.data (x % 4096) := content_cached (eq ▸ cached)
      rw [before]
      have slot : a'.pages (x / 4096) = if drop then none else some r.2 := by
        rw [eq]
        exact update_self ..
      cases drop with
      | true => rw [content_uncached slot block', here below eq block]
      | false =>
        rw [content_cached slot]
        exact congrFun (writeback_page ..) _
    · have slot : a'.pages (x / 4096) = a.pages (x / 4096) := update_of_ne eq ..
      cases old : a.pages (x / 4096) with
      | some page' => rw [content_cached old, content_cached (slot.trans old)]
      | none => rw [content_uncached old block, content_uncached (slot.trans old) block', away below eq block]

end device

/-! ### One call -/

/-- An open file of a well-formed volume: its chain covers its size, and its cached pages agree with
the device. -/
structure Formed (h : Handle) (clusters : List Nat) : Prop where
  layout : Layout h.vol.info
  sectors : Sectors h.vol.info
  bytes : h.vol.info.bytesPerCluster = 512 * h.vol.info.sectorsPerCluster
  table : WellFormed h.vol.info h.vol.table
  file : FileChain h.vol.info h.vol.table h.map.firstCluster clusters
  head : clusters ≠ [] → Head h.vol.info h.vol.table h.map.firstCluster
  covered : h.size ≤ clusters.length * h.vol.info.bytesPerCluster
  small : h.size < 2 ^ 32
  position : h.pos < 2 ^ 32
  cached : Cached h.vol h.map h.size

theorem take_drop_range {α : Type} (f : Nat → α) (n p k : Nat) :
    (((List.range n).map f).drop p).take k = (List.range (min k (n - p))).map fun i => f (p + i) := by
  apply ext_getElem
  · simp
  · intro i _ _
    simp

/-- A write over an array that is given by a function, with a start inside it. -/
theorem write_range {α : Type} {z : α} {f g : Nat → α} {bytes : List α} {n p : Nat} (le : p ≤ n)
    (written : ∀ x < max n (p + bytes.length),
      g x = if p ≤ x ∧ x < p + bytes.length then bytes.getD (x - p) z else f x) :
    (List.range (max n (p + bytes.length))).map g = ((List.range n).map f).take p ++ List.replicate
    (p - n) z ++ bytes ++
      ((List.range n).map f).drop (p + bytes.length) := by
  rw [show p - n = 0 by omega, replicate_zero, append_nil]
  apply ext_getElem
  · simp
    omega
  · intro i lt _
    rw [length_map, length_range] at lt
    rw [getElem_map, getElem_range, written i lt]
    simp only [getElem_append, length_append, length_take, length_map, length_range,
      min_eq_left le, getElem_take, getElem_map, getElem_range, getElem_drop]
    by_cases low : i < p
    · rw [if_neg (by omega), dif_pos (by omega), dif_pos low]
    · by_cases mid : i < p + bytes.length
      · rw [if_pos (by omega), dif_pos mid, dif_neg low, getD_eq_getElem?_getD,
          getElem?_eq_getElem (by omega), getD_some]
      · rw [if_neg (by omega), dif_neg mid, show p + bytes.length + (i - (p + bytes.length)) = i by omega]

/-- The result of a call and the array after it. -/
def Refines (h : Handle) (op : Op) : Prop :=
  (exec h op).1 = ((abs h).exec op).1 ∧ abs (exec h op).2 = ((abs h).exec op).2

namespace Formed

variable {h : Handle} {clusters : List Nat}

theorem blocks (f : Formed h clusters) (x : Nat) (lt : x < h.size) :
    ∃ phys, getBlock h.vol h.map.firstCluster (x / 512) = some phys := by
  apply f.file.mapped f.sectors (lt_trans lt f.small)
  rw [← f.bytes]
  exact lt_of_lt_of_le lt f.covered

theorem length_abs (h : Handle) : (abs h).data.length = h.size := by rw [abs, length_map, length_range]

section

variable (f : Formed h clusters)
include f

theorem read {count : Nat} (meets : Meets h (.read count)) :
    Formed (exec h (.read count)).2 clusters ∧ Refines h (.read count) := by
  have stop : h.pos + min count (h.size - h.pos) < 2 ^ 32 := by
    have := f.small
    have := f.position
    omega
  -- Both ends of the file stop a read.
  obtain ⟨a, ran, first, cached, same⟩ : ∃ a, readInner h.vol h.map h.size h.pos count =
      ((List.range (min count (h.size - h.pos))).map fun i => content h.vol h.map (h.pos + i), a) ∧
      a.firstCluster = h.map.firstCluster ∧ Cached h.vol a h.size ∧
      ∀ x, content h.vol a x = content h.vol h.map x := by
    by_cases past : h.size ≤ h.pos
    · refine ⟨h.map, ?_, rfl, f.cached, fun _ => rfl⟩
      rw [readInner, if_pos past, show min count (h.size - h.pos) = 0 by omega]
      rfl
    · have bound : h.pos + count < 2 ^ 32 := (meets : _ ∨ _).resolve_left past
      have clipped : (if h.size < u32 (h.pos + count) then h.size - h.pos else count) = min count (h.size - h.pos) := by
        rw [u32_of_lt bound]
        split <;> omega
      obtain ⟨a, ran, rest⟩ := readLoop_spec (min count (h.size - h.pos) + 1) 0 f.cached stop (by omega)
        fun x _ lt => f.blocks x (by omega)
      refine ⟨a, ?_, rest⟩
      rw [readInner, if_neg past, clipped]
      exact ran
  have result : exec h (.read count) =
      (.bytes ((List.range (min count (h.size - h.pos))).map fun i => content h.vol h.map (h.pos + i)),
        { h with map := a, pos := h.pos + min count (h.size - h.pos) }) := by
    rw [exec, ran]
    dsimp only
    rw [length_map, length_range, u32_of_lt stop]
  have data : ((abs h).data.drop (abs h).pos).take count =
      (List.range (min count (h.size - h.pos))).map fun i => content h.vol h.map (h.pos + i) := take_drop_range ..
  rw [Refines, result, ByteFile.exec, data]
  refine ⟨{ f with file := ?_, head := ?_, position := stop, cached }, rfl, ?_⟩
  · rw [first]
    exact f.file
  · rw [first]
    exact f.head
  · rw [abs, abs, length_map, length_range]
    congr 1
    exact map_congr_left fun x _ => same x

theorem write {bytes : List Byte} (room : Room h (.write bytes)) (meets : Meets h (.write bytes)) :
    (∃ clusters', Formed (exec h (.write bytes)).2 clusters') ∧ Refines h (.write bytes) := by
  obtain ⟨start, bound⟩ := meets
  obtain ⟨vol, a, m, begun, advanced⟩ := room
  obtain ⟨⟨info, disk, pages⟩, table, head, -⟩ := f.file.firstClusterFor f.layout f.table begun
  have head := head f.head
  have pos : 0 < vol.info.bytesPerCluster := by
    rw [info, f.bytes]
    exact Nat.mul_pos (by decide) f.sectors.pos
  have layout : Layout vol.info := info ▸ f.layout
  have sectors : Sectors vol.info := info ▸ f.sectors
  have perCluster : vol.info.bytesPerCluster = 512 * vol.info.sectorsPerCluster := info ▸ f.bytes
  rw [← info] at bound
  have small : h.pos + bytes.length < 2 ^ 32 := by omega
  -- The chain after the loop covers the end of the write.
  obtain ⟨table', heads⟩ := advanceLoop_heads layout _ table ⟨head.1, head.2.1⟩ advanced
  obtain ⟨more, file, long, -⟩ := f.file.grow f.layout f.table begun advanced
  rw [← info] at file
  have fits : h.pos + bytes.length ≤ (clusters ++ more).length * vol.info.bytesPerCluster := by
    rw [u32_of_lt small, u32_of_lt (by omega)] at long
    have ceil : h.pos + bytes.length ≤
        (h.pos + bytes.length + vol.info.bytesPerCluster - 1) / vol.info.bytesPerCluster *
          vol.info.bytesPerCluster := by
      have := Nat.div_add_mod (h.pos + bytes.length + vol.info.bytesPerCluster - 1) vol.info.bytesPerCluster
      have := Nat.mod_lt (h.pos + bytes.length + vol.info.bytesPerCluster - 1) pos
      rw [mul_comm]
      omega
    refine le_trans ceil (Nat.mul_le_mul_right _ ?_)
    omega
  have covers : h.size ≤ (clusters ++ more).length * vol.info.bytesPerCluster := by
    refine le_trans (info ▸ f.covered) (Nat.mul_le_mul_right _ ?_)
    simp only [length_append]
    omega
  let vol' : Volume := { vol with table := m }
  replace file : FileChain vol'.info vol'.table a.firstCluster (clusters ++ more) := file
  have blocks (x : Nat) (lt : x < max h.size (h.pos + bytes.length)) :
      ∃ phys, getBlock vol' a.firstCluster (x / 512) = some phys := by
    have := f.small
    apply file.mapped sectors (by omega)
    rw [← perCluster]
    omega
  have kept (x : Nat) (lt : x < h.size) : ∃ phys, getBlock h.vol h.map.firstCluster (x / 512) = some phys ∧
      getBlock vol' a.firstCluster (x / 512) = some phys := by
    obtain ⟨phys, old⟩ := f.blocks x lt
    refine ⟨phys, old, ?_⟩
    have := f.small
    rw [f.file.getBlock_eq _ f.sectors (by omega)] at old
    rw [file.getBlock_eq vol' sectors (by omega), info]
    obtain ⟨c, at', rfl⟩ := map_eq_some_iff.mp old
    have index := (List.getElem?_eq_some_iff.mp at').1
    rw [getElem?_append_left index, at', map_some]
  obtain ⟨cached, same⟩ := f.cached.grow pages (show vol'.disk = h.vol.disk from disk) kept
  obtain ⟨a', copied, first', cached', shown⟩ := writeLoop_spec (bytes.length + 1) 0
    (show Cached vol' a (max h.size (h.pos + 0)) by rwa [add_zero, max_eq_left start]) small
      (by omega) (by omega) fun x _ lt => blocks x (by omega)
  have result : exec h (.write bytes) =
      (.done, { vol := vol', map := a', size := max h.size (h.pos + bytes.length), pos := h.pos + bytes.length }) := by
    have inner : writeInner h.vol h.map h.pos bytes = (true, vol', a') := by
      rw [writeInner]
      rw [u32_of_lt small] at advanced ⊢
      rw [if_neg (by omega), begun]
      dsimp only
      rw [advanced]
      dsimp only
      rw [copied]
    rw [exec, inner, u32_of_lt small]
  rw [Refines, result, ByteFile.exec]
  refine ⟨⟨clusters ++ more, layout, sectors, perCluster, table', ?_, fun _ => ?_, Nat.max_le.mpr ⟨covers, fits⟩,
    Nat.max_lt.mpr ⟨f.small, small⟩, small, cached'⟩, rfl, ?_⟩
  · rw [first']
    exact file
  · rw [first']
    exact heads _ head
  · rw [abs, abs, length_map, length_range]
    congr 1
    apply write_range start
    intro x lt
    rw [shown x, add_zero]
    split
    next => rfl
    next out => exact same x (by omega)

theorem lseek (offset : Int) (whence : Whence) :
    Formed (exec h (.lseek offset whence)).2 clusters ∧ Refines h (.lseek offset whence) := by
  refine ⟨{ f with position := ?_ }, rfl, ?_⟩
  · show seekPos h.pos h.size offset whence < 2 ^ 32
    cases whence <;> rw [seekPos] <;> omega
  · rw [ByteFile.exec, length_abs]
    rfl

theorem reopen (trunc : Bool) :
    (∃ clusters', Formed (exec h (.reopen trunc)).2 clusters') ∧ Refines h (.reopen trunc) := by
  cases trunc with
  | false =>
    exact ⟨⟨clusters, { f with position := Nat.two_pow_pos 32 }⟩, rfl, rfl⟩
  | true =>
    by_cases pos : 0 < h.size
    · have ne : clusters ≠ [] := by
        rintro rfl
        have := f.covered
        simp at this
        omega
      have first : h.map.firstCluster ≠ 0 := ne_of_gt (lt_of_lt_of_le (by decide) (f.head ne).1.1)
      cases ran : freeClusterChain h.vol.info h.vol.table h.map.firstCluster with
      | mk freed m =>
        obtain ⟨rfl, table, -⟩ := free_heads f.layout f.table (f.head ne) ran
        have result : Regular.exec h (.reopen true) =
            (.done, ⟨{ h.vol with table := m }, { h.map with firstCluster := 0 }, 0, 0⟩) := by
          simp [exec, truncate, pos, first, ran]
        rw [Refines, result, ByteFile.exec]
        refine ⟨⟨[], f.layout, f.sectors, f.bytes, table,
          ⟨.inl ⟨rfl, rfl⟩, fun none => absurd rfl none, by simp, by simp⟩,
          fun none => absurd rfl none, Nat.zero_le _, Nat.two_pow_pos 32, Nat.two_pow_pos 32, ?_⟩, rfl, rfl⟩
        exact ⟨f.cached.bound, fun x lt => absurd lt (Nat.not_lt_zero x)⟩
    · have result : exec h (.reopen true) = (.done, { h with pos := 0 }) := by
        simp [exec, truncate, pos]
      rw [Refines, result, ByteFile.exec]
      refine ⟨⟨clusters, { f with position := Nat.two_pow_pos 32 }⟩, rfl, ?_⟩
      rw [show h.size = 0 by omega]
      rfl

theorem writeback (index : Nat) (drop : Bool) :
    Formed (exec h (.writeback index drop)).2 clusters ∧ Refines h (.writeback index drop) := by
  have all : Formed (pageWriteback h index drop) clusters ∧ abs (pageWriteback h index drop) = abs h := by
    rw [pageWriteback]
    split
    next => exact ⟨f, rfl⟩
    next page cached =>
      obtain ⟨cached', same⟩ := f.cached.writeback f.file f.sectors (le_of_lt f.small) f.blocks cached drop
      have writes := writeback_writes h.vol h.map.firstCluster index page
      constructor
      · refine ⟨?_, ?_, ?_, ?_, ?_, ?_, ?_, f.small, f.position, cached'⟩
        all_goals dsimp only; rw [writes.info]
        · exact f.layout
        · exact f.sectors
        · exact f.bytes
        · rw [writes.table]
          exact f.table
        · rw [writes.table]
          exact f.file
        · rw [writes.table]
          exact f.head
        · exact f.covered
      · rw [abs, abs]
        congr 1
        apply map_congr_left
        intro x mem
        exact same x (mem_range.mp mem)
  exact ⟨all.1, rfl, all.2⟩

theorem exec {op : Op} (room : Room h op) (meets : Meets h op) :
    (∃ clusters', Formed (exec h op).2 clusters') ∧ Refines h op := by
  cases op with
  | read count => exact ⟨⟨clusters, (f.read meets).1⟩, (f.read meets).2⟩
  | write bytes => exact f.write room meets
  | lseek offset whence => exact ⟨⟨clusters, (f.lseek offset whence).1⟩, (f.lseek offset whence).2⟩
  | reopen trunc => exact f.reopen trunc
  | writeback index drop => exact ⟨⟨clusters, (f.writeback index drop).1⟩, (f.writeback index drop).2⟩

end

end Formed

/-! ### All sequences of calls -/

/-- In every sequence of calls whose writes start at most at the end of the file, and whose reads
and writes do not count past the last position, each call returns what it returns on the array, and
leaves the array it leaves there. -/
theorem regular_file_refines (h₀ : Handle) (clusters : List Nat) (formed : Formed h₀ clusters) (es : List (Handle × Op))
    (h : Handle) (run : Run Calls h₀ es h) (meets : ∀ e ∈ es, Meets e.1 e.2) :
    (∀ e ∈ es, (exec e.1 e.2).1 = ((abs e.1).exec e.2).1 ∧ abs (exec e.1 e.2).2 = ((abs e.1).exec e.2).2) ∧
      abs h = (es.map Prod.snd).foldl (fun f op => (f.exec op).2) (abs h₀) := by
  have all : (∃ clusters, Formed h clusters) ∧ (∀ e ∈ es, Refines e.1 e.2) ∧
      abs h = (es.map Prod.snd).foldl (fun f op => (f.exec op).2) (abs h₀) := by
    induction run with
    | start => exact ⟨⟨clusters, formed⟩, by simp, rfl⟩
    | @snoc es h op h' _ taken ih =>
      obtain ⟨⟨clusters', f⟩, before, folded⟩ := ih fun e mem => meets e (mem_append_left _ mem)
      obtain ⟨room, rfl⟩ := taken
      obtain ⟨after, refines⟩ := f.exec room (meets (h, op) (by simp))
      refine ⟨after, fun e mem => ?_, ?_⟩
      · rcases mem_append.mp mem with old | new
        · exact before e old
        · rw [mem_singleton.mp new]
          exact refines
      · rw [List.map_append, foldl_append, ← folded]
        exact refines.2
  exact ⟨all.2.1, all.2.2⟩

/-- A write that succeeds extends the chain of its file by free clusters, as far as the write goes,
and leaves the chains of the other files as they were. -/
theorem write_extends_chain (h h' : Handle) (clusters : List Nat) (layout : Layout h.vol.info)
    (table : WellFormed h.vol.info h.vol.table) (file : FileChain h.vol.info h.vol.table h.map.firstCluster clusters)
    (pos : 0 < h.vol.info.bytesPerCluster) (bytes : List Byte)
    (bound : h.pos + bytes.length + h.vol.info.bytesPerCluster < 2 ^ 32)
    (written : exec h (.write bytes) = (.done, h')) :
    ∃ more, FileChain h'.vol.info h'.vol.table h'.map.firstCluster (clusters ++ more) ∧
      (h.pos + bytes.length + h.vol.info.bytesPerCluster - 1) / h.vol.info.bytesPerCluster ≤ (clusters ++ more).length ∧
      (∀ c ∈ more, getNextCluster h.vol.info h.vol.table c = 0) ∧
      (∀ first others, FileChain h.vol.info h.vol.table first others → (∀ c ∈ others, c ∉ clusters) →
        FileChain h'.vol.info h'.vol.table first others) ∧ h'.size = max h.size (h.pos + bytes.length) := by
  have small : u32 (h.pos + bytes.length) = h.pos + bytes.length := u32_of_lt (by omega)
  rw [exec, writeInner, small, if_neg (by omega)] at written
  cases begun : firstClusterFor h.vol h.map with
  | none =>
    rw [begun] at written
    cases written
  | some both =>
    obtain ⟨vol, a⟩ := both
    obtain ⟨⟨info, -⟩, -⟩ := file.firstClusterFor layout table begun
    rw [begun] at written
    dsimp only at written
    cases advanced : advanceLoop vol.info (u32 (h.pos + bytes.length + vol.info.bytesPerCluster - 1) /
        vol.info.bytesPerCluster - 1) a.firstCluster vol.table with
    | mk fine m =>
      rw [advanced] at written
      cases fine with
      | false => cases written
      | true =>
        dsimp only at written
        cases copied : writeLoop { vol with table := m } h.pos bytes (bytes.length + 1) 0 a with
        | mk done a' =>
          rw [copied] at written
          cases done with
          | false => cases written
          | true =>
            cases written
            -- Only the advance changes the table; the copy that follows writes pages.
            obtain ⟨more, file', long, rest⟩ := file.grow layout table begun advanced
            rw [info, u32_of_lt (by omega)] at long
            refine ⟨more, ?_, by omega, rest.free, fun first others other apart => ?_, rfl⟩
            · rw [writeLoop_firstCluster _ _ copied]
              exact info ▸ file'
            · exact info ▸ other.apart rest apart

/-- An empty file of a volume whose clusters but the one of the root directory are free. -/
def smallFile : Handle where
  vol := ⟨⟨1, 1, 3, 2, 512, 1, 2, 7, 0⟩, freshImage, fun _ _ => 0⟩
  map := ⟨0, fun _ => none⟩
  size := 0
  pos := 0

theorem smallFile_formed : Formed smallFile [] where
  layout := ⟨by decide, by decide, by decide, by decide, by decide⟩
  sectors := ⟨by decide, by decide⟩
  bytes := rfl
  table := wellFormed_of_last [2] (by decide) (by decide) (by decide +kernel) (by decide +kernel) (by decide +kernel)
  file := ⟨.inl ⟨rfl, rfl⟩, fun none => absurd rfl none, by simp, by simp⟩
  head := fun none => absurd rfl none
  covered := Nat.zero_le _
  small := by decide
  position := by decide
  cached := ⟨nofun, fun _ lt => absurd lt (Nat.not_lt_zero _)⟩

/-- A byte in the second cluster of an empty file. -/
theorem small_write_extends : ∃ h' more, exec { smallFile with pos := 600 }
    (.write [1]) = (.done, h') ∧ 2 ≤ more.length ∧
    FileChain h'.vol.info h'.vol.table h'.map.firstCluster more ∧ h'.size = 601 := by
  have done : (exec { smallFile with pos := 600 } (.write [1])).1 = .done := by decide +kernel
  obtain ⟨more, file, long, -, -, size⟩ := write_extends_chain { smallFile with pos := 600 } _
    [] smallFile_formed.layout
    smallFile_formed.table smallFile_formed.file (by decide) [1] (by decide) (Prod.ext done rfl)
  exact ⟨_, more, Prod.ext done rfl, long, file, size⟩

def after (h : Handle) (ops : List Op) : Handle := ops.foldl (fun h op => (exec h op).2) h

/-- `Room` as a computation. -/
def hasRoom (h : Handle) : Op → Bool
  | .write bytes => (firstClusterFor h.vol h.map).any fun (vol, a) =>
      (advanceLoop vol.info (u32 (u32 (h.pos + bytes.length) + vol.info.bytesPerCluster - 1) /
        vol.info.bytesPerCluster - 1)
        a.firstCluster vol.table).1
  | _ => true

theorem room_of_hasRoom {h : Handle} {op : Op} (enough : hasRoom h op = true) : Room h op := by
  cases op with
  | read count | lseek offset whence | reopen trunc | writeback index drop => trivial
  | write bytes =>
    obtain ⟨both, begun, enough⟩ := (Option.any_eq_true ..).mp enough
    exact ⟨both.1, both.2, _, begun, Prod.ext enough rfl⟩

theorem calls_of_hasRoom (h : Handle) (op : Op) (met : hasRoom h op = true ∧ Meets h op) :
    Calls h op (exec h op).2 := ⟨room_of_hasRoom met.1, rfl⟩

/-- Two bytes are written, the file is truncated, one byte is written and the file is read again. -/
def rewriting : List Op := [.write [1, 2], .writeback 0 true, .reopen true, .write [3], .lseek 0 .set, .read 5]

theorem rewritten_file_read : ∃ es, Run Calls smallFile es (after smallFile rewriting) ∧
    es.map Prod.snd = rewriting ∧ (∀ e ∈ es, (exec e.1 e.2).1 = ((abs e.1).exec e.2).1) ∧
    abs (after smallFile rewriting) = ⟨[3], 1⟩ := by
  have meets : MeetsAll (fun h op => (exec h op).2)
    (fun h op => hasRoom h op = true ∧ Meets h op) smallFile rewriting := by
    refine ⟨?_, ?_, ?_, ?_, ?_, ?_, trivial⟩ <;> exact ⟨by decide +kernel, by decide +kernel⟩
  obtain ⟨es, run, labels, all⟩ := exists_run_of_meetsAll Calls calls_of_hasRoom meets
  obtain ⟨results, folded⟩ := regular_file_refines smallFile [] smallFile_formed es _ run fun e mem => (all e mem).2
  refine ⟨es, run, labels, fun e mem => (results e mem).1, folded.trans ?_⟩
  rw [labels]
  decide +kernel

/-- The file is truncated, and then written to above its end. -/
def seeking : List Op := [.write [1], .reopen true, .lseek 1 .set, .write [2], .lseek 0 .set]

/-- The byte in front of the write is not a zero but the one that was there before the
truncation. -/
theorem truncated_byte_read : ∃ es, Run Calls smallFile es (after smallFile seeking) ∧ Formed smallFile [] ∧
    abs smallFile = ⟨[], 0⟩ ∧ (exec (after smallFile seeking) (.read 2)).1 = .bytes [1, 2] ∧
    ((seeking.foldl (fun f op => (f.exec op).2) (abs smallFile)).exec (.read 2)).1 = .bytes [0, 2] := by
  have meets : MeetsAll (fun h op => (exec h op).2) (fun h op => hasRoom h op = true) smallFile seeking := by
    refine ⟨?_, ?_, ?_, ?_, ?_, trivial⟩ <;> decide +kernel
  obtain ⟨es, run, -⟩ := exists_run_of_meetsAll Calls (fun h op enough => ⟨room_of_hasRoom enough, rfl⟩) meets
  exact ⟨es, run, smallFile_formed, rfl, by decide +kernel, by decide +kernel⟩

end Jlos.Vfs.Regular
