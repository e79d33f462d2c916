import Jlos.Fat32.Contents
import Jlos.Fat32.Scan

/-!
# Creation of a name

`fat32_create_inner` on a well-formed directory: which entries it writes, where, and what the scans
of the directory find after that.
-/
namespace Jlos.Fat32

open Function List Option Dirent

def Dir.slot (d : Dir) (pos : Nat) : Option Dirent := (d.entry pos).map clip

/-- What `fat32_dir_scan` finds for a name. -/
def Dir.lookup (d : Dir) (name : List Byte) : Option (List Byte × Nat × Option (List Byte)) := (dirScan d name).answer

/-- A directory of a well-formed volume: its chain is not empty and far from the last offset, its
pages lie in the chain, behind the chain they show zeros, and its entries are tidy. -/
structure DirFormed (d : Dir) (clusters : List Nat) : Prop where
  layout : Layout d.vol.info
  sectors : Sectors d.vol.info
  bytes : d.vol.info.bytesPerCluster = 512 * d.vol.info.sectorsPerCluster
  table : WellFormed d.vol.info d.vol.table
  file : FileChain d.vol.info d.vol.table d.map.firstCluster clusters
  nonempty : clusters ≠ []
  small : (clusters.length + 2) * d.vol.info.bytesPerCluster ≤ 2 ^ 32
  pages : ∀ index page, d.map.pages index = some page → index * 4096 < clusters.length * d.vol.info.bytesPerCluster
  behind : ∀ x < 2 ^ 33, clusters.length * d.vol.info.bytesPerCluster ≤ x → content d.vol d.map x = 0
  tidy : Tidy d.slot

/-- A run of free entries in one page. -/
def FreeRun (d : Dir) (need p : Nat) : Prop :=
  p % 128 + need ≤ 128 ∧ ∀ i < need, ∃ a, d.slot (p + i) = some a ∧ a.isFree = true

/-- Every end mark of the chain has a run of free entries in front of it or starts one. -/
def RunReached (d : Dir) (clusters : List Nat) (need : Nat) : Prop :=
  ∀ q, 32 * q < clusters.length * d.vol.info.bytesPerCluster → ∀ a, d.slot q = some a → a.isEnd = true →
    ∃ p ≤ q, FreeRun d need p

/-! ### Entries and bytes -/

variable {p offset : Nat}

section slots

variable {d d' : Dir}

theorem slot_eq (d : Dir) (pos : Nat) : d.slot pos =
    (d.map.view d.vol (pos / 128)).map fun _ => clip fun j => content d.vol d.map (32 * pos + j) := by
  rw [Dir.slot, Dir.entry, Option.map_map]
  show Option.map _ (d.map.view d.vol (pos / 128)) = _
  cases seen : d.map.view d.vol (pos / 128) with
  | none => rfl
  | some page =>
    rw [Option.map_some, Option.map_some]
    congr 1
    funext j
    simp only [comp, clip]
    split
    next lt =>
      rw [content, show (32 * pos + j) / 4096 = pos / 128 by omega, seen, Option.map_some, getD_some, Page.dirent,
        show (32 * pos + j) % 4096 = 32 * (pos % entriesPerPage) + j by unfold entriesPerPage; omega]
    next => rfl

/-- Entries whose pages can be read and whose bytes are the same are the same. -/
theorem slot_congr {pos : Nat} (readable : (d'.map.view d'.vol (pos / 128)).isSome =
    (d.map.view d.vol (pos / 128)).isSome)
    (bytes : ∀ j < 32, content d'.vol d'.map (32 * pos + j) = content d.vol d.map (32 * pos + j)) :
    d'.slot pos = d.slot pos := by
  have same : (clip fun j => content d'.vol d'.map (32 * pos + j)) = clip fun j =>
    content d.vol d.map (32 * pos + j) := by
    funext j
    rw [clip, clip]
    split
    next lt => exact bytes j lt
    next => rfl
  rw [slot_eq, slot_eq, same]
  cases new : d'.map.view d'.vol (pos / 128) <;> cases old : d.map.view d.vol (pos / 128) <;>
    rw [new, old] at readable <;> first | rfl | cases readable

/-- A copy into a page of the directory. -/
structure Copied (d d' : Dir) (low high : Nat) (f : Nat → Byte) : Prop where
  vol : d'.vol = d.vol
  first : d'.map.firstCluster = d.map.firstCluster
  readable : ∀ index, (d'.map.view d'.vol index).isSome = (d.map.view d.vol index).isSome
  bytes : ∀ x, content d'.vol d'.map x = if low ≤ x ∧ x < high then f x else content d.vol d.map x

theorem Copied.refl (d : Dir) (x : Nat) (f : Nat → Byte) : Copied d d x x f :=
  ⟨rfl, rfl, fun _ => rfl, fun _ => by rw [if_neg (by omega)]⟩

theorem Copied.trans {d'' : Dir} {low mid high : Nat} {f : Nat → Byte} (h : Copied d d' low mid f)
    (h' : Copied d' d'' mid high f) (le : low ≤ mid) (le' : mid ≤ high) : Copied d d'' low high f where
  vol := h'.vol.trans h.vol
  first := h'.first.trans h.first
  readable := fun index => (h'.readable index).trans (h.readable index)
  bytes := fun x => by
    rw [h'.bytes x, h.bytes x]
    by_cases second : mid ≤ x ∧ x < high
    · rw [if_pos second, if_pos (by omega)]
    · rw [if_neg second]
      by_cases first : low ≤ x ∧ x < mid
      · rw [if_pos first, if_pos (by omega)]
      · rw [if_neg first, if_neg (by omega)]

theorem copied_pageWrite {a : Mapping} {fp : Nat} {bytes : List Byte} (fits : fp % 4096 + bytes.length ≤ 4096)
    (eq : pageWrite d.vol d.map (fp / 4096) (fp % 4096) bytes = some a) :
    Copied d { d with map := a } fp (fp + bytes.length) (fun x => bytes.getD (x - fp) 0) ∧
      (d.map.view d.vol (fp / 4096)).isSome := by
  obtain ⟨page, seen, first, view⟩ := pageWrite_view eq
  refine ⟨⟨rfl, first, fun index => ?_, content_pageWrite fits eq⟩, by rw [seen]; rfl⟩
  rw [view]
  by_cases here : index = fp / 4096
  · rw [here, update_self, seen]
    rfl
  · rw [update_of_ne here]

theorem copied_direntWrite {de : Dirent} (eq : direntWrite d (32 * p) de = (true, d')) :
    Copied d d' (32 * p) (32 * (p + 1)) (fun x => de (x % 32)) ∧ (d.map.view d.vol (p / 128)).isSome := by
  rw [direntWrite] at eq
  split at eq
  next a written =>
    cases eq
    have len : de.bytes.length = 32 := by simp [bytes]
    obtain ⟨copied, there⟩ := copied_pageWrite (by rw [len]; omega) written
    rw [show 32 * p / 4096 = p / 128 by omega] at there
    refine ⟨⟨copied.vol, copied.first, copied.readable, fun x => ?_⟩, there⟩
    rw [copied.bytes x, len]
    by_cases inside : 32 * p ≤ x ∧ x < 32 * (p + 1)
    · rw [if_pos (by omega), if_pos inside, bytes, getD_eq_getElem?_getD, getElem?_map,
        getElem?_range (by omega), Option.map_some, getD_some, show x % 32 = x - 32 * p by omega]
    · rw [if_neg (by omega), if_neg inside]
  next => cases eq

theorem slot_direntWrite {de : Dirent} (eq : direntWrite d (32 * p) de = (true, d')) (q : Nat) :
    d'.slot q = if q = p then some (clip de) else d.slot q := by
  obtain ⟨copied, there⟩ := copied_direntWrite eq
  obtain rfl | here := eq_or_ne q p
  · have readable := (copied.readable (q / 128)).trans there
    obtain ⟨page, seen⟩ := isSome_iff_exists.mp readable
    rw [if_pos rfl, slot_eq, seen, Option.map_some]
    congr 1
    funext j
    rw [clip, clip]
    split
    next lt => rw [copied.bytes, if_pos (by omega), show (32 * q + j) % 32 = j by omega]
    next => rfl
  · rw [if_neg here]
    apply slot_congr (copied.readable _)
    intro j lt
    rw [copied.bytes, if_neg (by omega)]

/-- The entries of a name are written one behind the other. -/
private theorem slot_writeEntries (entries : List Dirent) {d : Dir} (bound : 32 * (p + entries.length) ≤ 2 ^ 32)
    (eq : writeEntries d (32 * p) entries = (true, d')) (q : Nat) :
    d'.slot q = if p ≤ q ∧ q < p + entries.length then (entries.map clip)[q - p]? else d.slot q := by
  induction entries generalizing p d with
  | nil =>
    cases eq
    rw [if_neg (by simp)]
  | cons de rest ih =>
    rw [length_cons] at bound
    rw [writeEntries] at eq
    split at eq
    next d₁ written =>
      have first := slot_direntWrite written q
      obtain rfl | single := eq_or_ne rest []
      · cases eq
        rw [first]
        obtain rfl | here := eq_or_ne q p
        · rw [if_pos rfl, if_pos (by simp), Nat.sub_self]
          rfl
        · rw [if_neg here, if_neg (by simp; omega)]
      · have pos : 0 < rest.length := length_pos_iff.mpr single
        rw [u32_of_lt (by omega), show 32 * p + 32 = 32 * (p + 1) by omega] at eq
        rw [ih (by omega) eq, first, length_cons]
        by_cases later : p + 1 ≤ q ∧ q < p + 1 + rest.length
        · rw [if_pos later, if_pos (by omega), show q - p = q - (p + 1) + 1 by omega, map_cons, getElem?_cons_succ]
        · rw [if_neg later]
          obtain rfl | here := eq_or_ne q p
          · rw [if_pos rfl, if_pos (by omega), Nat.sub_self]
            rfl
          · rw [if_neg here, if_neg (by omega)]
    next => cases eq

theorem writeEntries_info (entries : List Dirent) {d : Dir}
    (eq : writeEntries d offset entries = (true, d')) : d'.vol = d.vol := by
  induction entries generalizing offset d with
  | nil =>
    cases eq
    rfl
  | cons de rest ih =>
    rw [writeEntries] at eq
    split at eq
    next d₁ written =>
      have same : d₁.vol = d.vol := by
        rw [direntWrite] at written
        split at written
        · cases written
          rfl
        · cases written
      exact (ih eq).trans same
    next => cases eq

private theorem copied_clearLoop {total : Nat} (rounds done : Nat) {d : Dir} (bound : offset + total ≤ 2 ^ 32)
    (enough : total - done < rounds) (le : done ≤ total) (eq : clearLoop offset total rounds done d = (true, d')) :
    Copied d d' (offset + done) (offset + total) fun _ => 0 := by
  induction rounds generalizing done d with
  | zero => omega
  | succ rounds ih =>
    rw [clearLoop] at eq
    split at eq
    next more =>
      dsimp only at eq
      rw [u32_of_lt (show offset + done < 2 ^ 32 by omega)] at eq
      generalize hn : min (4096 - (offset + done) % 4096) (total - done) = n at eq
      split at eq
      next => cases eq
      next a written =>
        obtain ⟨copied, -⟩ := copied_pageWrite (by rw [length_replicate]; omega) written
        rw [length_replicate] at copied
        have zeros : Copied d { d with map := a } (offset + done) (offset + done + n) fun _ => 0 := by
          refine ⟨copied.vol, copied.first, copied.readable, fun x => (copied.bytes x).trans ?_⟩
          split
          next inside =>
            rw [getD_eq_getElem?_getD, getElem?_replicate, if_pos (by omega), getD_some]
          next => rfl
        have rest := ih (done + n) (by omega) (by omega) eq
        rw [← add_assoc] at rest
        exact zeros.trans rest (by omega) (by omega)
    next stop =>
      cases eq
      have all : done = total := by omega
      rw [all]
      exact Copied.refl ..

end slots

/-! ### Free entries -/

variable {need : Nat} {entries : List Dirent}

section free

variable {d : Dir}

/-- The loop over a page finds the first run, if there is one. -/
private theorem findRun_spec (free : Nat → Bool) (left : Nat) {i start len : Nat} {r : Option Nat} (few : len < need)
    (run : 0 < len → start + len = i) (used : ∀ j < len, free (start + j) = true)
    (past : ∀ s, s + len < i → ∃ j < need, free (s + j) = false) (eq : findRun free need left i start len = r) :
    (∀ s ∈ r, s + need ≤ i + left ∧ ∀ j < need, free (s + j) = true) ∧
      ∀ s, s + need ≤ i + left → (∀ s' ∈ r, s < s') → ∃ j < need, free (s + j) = false := by
  induction left generalizing i start len with
  | zero =>
    subst eq
    exact ⟨nofun, fun s le _ => past s (by omega)⟩
  | succ left ih =>
    rw [findRun] at eq
    split at eq
    next here =>
      generalize hs : (if len = 0 then i else start) = start' at eq
      have begins : start' + len = i := by
        rw [← hs]
        split
        next zero => omega
        next ne => exact run (Nat.pos_of_ne_zero ne)
      have all (j : Nat) (lt : j < len + 1) : free (start' + j) = true := by
        rcases Nat.lt_succ_iff_lt_or_eq.mp lt with old | rfl
        · have same : start' = start := by
            rw [← hs, if_neg (by omega)]
          rw [same]
          exact used j old
        · rw [begins]
          exact here
      split at eq
      next enough =>
        subst eq
        refine ⟨?_, fun s _ before => past s ?_⟩
        · rintro _ ⟨⟩
          exact ⟨by omega, fun j lt => all j (by omega)⟩
        · have := before _ rfl
          omega
      next more =>
        rw [← Nat.add_assoc, Nat.add_right_comm]
        exact ih (by omega) (fun _ => by omega) all (fun s lt => past s (by omega)) eq
    next taken =>
      rw [← Nat.add_assoc, Nat.add_right_comm]
      refine ih (by omega) (by simp) (by simp) (fun s lt => ?_) eq
      -- A window over the taken entry is no run.
      by_cases earlier : s + len < i
      · exact past s earlier
      · exact ⟨i - s, by omega, by rw [Nat.add_sub_of_le (by omega)]; simpa using taken⟩

/-- The loop over the pages finds a run of free entries in a page that can be read, as all pages
before it. -/
private theorem findSlots_spec (pos : 0 < need) (rounds : Nat) {index start : Nat}
    (before : ∀ i < index, (d.map.view d.vol i).isSome) (eq : findSlots d need rounds index = some start) :
    ∃ i page s, i < index + rounds ∧ start = i * 128 + s ∧ s + need ≤ 128 ∧ d.map.view d.vol i = some page ∧
      (∀ j < need, (page.dirent (s + j)).isFree = true) ∧ ∀ k ≤ i, (d.map.view d.vol k).isSome := by
  induction rounds generalizing index with
  | zero => cases eq
  | succ rounds ih =>
    rw [findSlots] at eq
    split at eq
    next => cases eq
    next page seen =>
      have upTo (k : Nat) (le : k ≤ index) : (d.map.view d.vol k).isSome := by
        rcases Nat.lt_or_eq_of_le le with lt | rfl
        · exact before k lt
        · rw [seen]
          rfl
      split at eq
      next s found =>
        cases eq
        obtain ⟨inside, free⟩ := (findRun_spec _ entriesPerPage pos (by simp) (by simp) (by simp) found).1 s rfl
        exact ⟨index, page, s, by omega, rfl, inside, seen, free, upTo⟩
      next =>
        obtain ⟨i, page, s, lt, rest⟩ := ih (fun k lt => upTo k (by omega)) eq
        exact ⟨i, page, s, by omega, rest⟩

/-- No run of free entries lies in front of the one that is found. -/
private theorem findSlots_first (pos : 0 < need) (rounds : Nat) {index : Nat} {r : Option Nat}
    (eq : findSlots d need rounds index = r) (low : index ≤ p / 128) (high : p / 128 < index + rounds)
    (seen : ∀ k ≤ p / 128, (d.map.view d.vol k).isSome) (run : FreeRun d need p) : ∃ start ∈ r, start ≤ p := by
  induction rounds generalizing index with
  | zero => omega
  | succ rounds ih =>
    rw [findSlots] at eq
    obtain ⟨page, here⟩ := isSome_iff_exists.mp (seen index low)
    simp only [here] at eq
    generalize found : findRun (fun i => (page.dirent i).isFree) need entriesPerPage 0 0 0 = r' at eq
    have spec := findRun_spec _ entriesPerPage pos (by simp) (by simp) (by simp) found
    -- In the page of the run, the loop stops at the run or in front of it.
    have stops (same : p / 128 = index) : ∃ s ∈ r', s ≤ p % 128 := by
      by_contra none
      obtain ⟨j, lt, taken⟩ := spec.2 (p % 128) (by have := run.1; unfold entriesPerPage; omega)
        fun s mem => Nat.lt_of_not_le fun le => none ⟨s, mem, le⟩
      obtain ⟨a, at_j, free⟩ := run.2 j lt
      have := run.1
      rw [Dir.slot, Dir.entry, show (p + j) / entriesPerPage = index by unfold entriesPerPage; omega, here] at at_j
      cases at_j
      rw [show (p + j) % entriesPerPage = p % 128 + j by unfold entriesPerPage; omega] at free
      exact absurd (free.symm.trans taken) nofun
    cases r' with
    | some s =>
      subst eq
      refine ⟨_, rfl, ?_⟩
      have inside := (spec.1 s rfl).1
      unfold entriesPerPage at inside ⊢
      by_cases same : p / 128 = index
      · obtain ⟨_, ⟨⟩, le⟩ := stops same
        omega
      · omega
    | none =>
      refine ih eq (Nat.lt_of_le_of_ne low fun same => ?_) (by omega)
      obtain ⟨_, ⟨⟩, -⟩ := stops same.symm

end free

/-! ### Growth -/

section growth

variable {v : SbInfo} {m : Image} {d d₁ : Dir} {clusters : List Nat}

private theorem lastCluster_eq (xs : List Nat) (rounds : Nat) {x : Nat} (idx : Nat) (chain : Lib.IsChain (link v m) (x :: xs))
    (enough : xs.length ≤ rounds) :
    (x :: xs)[xs.length]? = some (lastCluster v m rounds x idx).1 ∧
    (lastCluster v m rounds x idx).2 = idx + xs.length := by
  induction xs generalizing rounds x idx with
  | nil =>
    cases rounds with
    | zero => exact ⟨rfl, rfl⟩
    | succ rounds =>
      rw [lastCluster, if_pos (link_last_iff.mp chain)]
      exact ⟨rfl, rfl⟩
  | cons y ys ih =>
    rw [length_cons] at enough
    obtain ⟨rounds, rfl⟩ : ∃ n, rounds = n + 1 := ⟨rounds - 1, by omega⟩
    obtain ⟨next, lt⟩ := link_next chain.1
    rw [lastCluster, next, if_neg (Nat.not_le.mpr lt)]
    obtain ⟨last, count⟩ := ih rounds (idx + 1) chain.2 (by omega)
    refine ⟨last, ?_⟩
    rw [count, length_cons]
    omega

/-- What the directory shows once its chain has grown by a cluster. -/
structure Grown (d d₁ : Dir) (clusters : List Nat) : Prop where
  info : d₁.vol.info = d.vol.info
  room : clusters.length + 1 ≤ d.vol.info.totalClusters
  below : ∀ x < clusters.length * d.vol.info.bytesPerCluster, content d₁.vol d₁.map x = content d.vol d.map x ∧
    (d₁.map.view d₁.vol (x / 4096)).isSome
  behind : ∀ x < 2 ^ 33, (clusters.length + 1) * d.vol.info.bytesPerCluster ≤ x → content d₁.vol d₁.map x = 0

namespace DirFormed

section

variable (f : DirFormed d clusters)
include f

theorem blocks (x : Nat) (lt : x < clusters.length * d.vol.info.bytesPerCluster) :
    ∃ phys, getBlock d.vol d.map.firstCluster (x / 512) = some phys := by
  have small := f.small
  rw [Nat.add_mul] at small
  apply f.file.mapped f.sectors (by omega)
  rwa [← f.bytes]

theorem readable {x : Nat} (lt : x < clusters.length * d.vol.info.bytesPerCluster) :
    (d.map.view d.vol (x / 4096)).isSome := by
  obtain ⟨phys, block⟩ := f.blocks x lt
  obtain ⟨page, seen⟩ := view_of_block block
  rw [seen]
  rfl

theorem unreadable {index : Nat} (le : index ≤ 2 ^ 20)
    (behind : clusters.length * d.vol.info.bytesPerCluster ≤ index * 4096) : d.map.view d.vol index = none := by
  have missing : d.map.pages index = none := by
    cases cached : d.map.pages index with
    | none => rfl
    | some page => exact absurd (f.pages index page cached) (Nat.not_lt.mpr behind)
  rw [Mapping.view, missing, none_or, readFullPage, if_neg]
  rw [List.any_eq_true]
  rintro ⟨i, mem, mapped⟩
  have lt := mem_range.mp mem
  rw [f.file.getBlock_eq _ f.sectors (by omega), getElem?_eq_none] at mapped
  · cases mapped
  · rw [Nat.le_div_iff_mul_le f.sectors.pos]
    rw [f.bytes, Nat.mul_left_comm] at behind
    omega

theorem page_lt {i : Nat} (seen : ∀ k ≤ i, (d.map.view d.vol k).isSome) :
    i * 4096 < clusters.length * d.vol.info.bytesPerCluster := by
  have small := f.small
  rw [Nat.add_mul] at small
  by_contra high
  have there := seen ((clusters.length * d.vol.info.bytesPerCluster + 4095) / 4096) (by omega)
  rw [f.unreadable (by omega) (by omega)] at there
  cases there

theorem growDir {idx : Nat} (eq : growDir d = some (idx, d₁)) : idx = clusters.length ∧ Grown d d₁ clusters := by
  obtain ⟨rest, whole⟩ := f.file.start.resolve_left fun none => f.nonempty none.1
  subst whole
  have inside := f.file.inside d.map.firstCluster (by simp)
  have chain := f.file.chain (by simp)
  have few := length_le_total f.file.nodup f.file.inside
  rw [length_cons] at few
  obtain ⟨last, count⟩ := lastCluster_eq rest (d.vol.info.totalClusters + 1) 0 chain (by omega)
  rw [Fat32.growDir, if_neg (Nat.not_lt.mpr inside.1)] at eq
  generalize lastCluster d.vol.info d.vol.table (d.vol.info.totalClusters + 1) d.map.firstCluster
    0 = walked at eq last count
  obtain ⟨tail, steps⟩ := walked
  dsimp only at eq last count
  cases advanced : clusterAdvance d.vol.info d.vol.table tail with
  | mk r m =>
    rw [advanced] at eq
    cases r with
    | none => cases eq
    | some next =>
      cases eq
      obtain ⟨more, one, file, here, -⟩ := f.file.advance f.layout f.table last advanced
      have long : ((d.map.firstCluster :: rest) ++ more).length = rest.length + 2 := by
        have := (List.getElem?_eq_some_iff.mp here).1
        rw [length_append, length_cons] at this ⊢
        omega
      have total := length_le_total file.nodup file.inside
      have below := f.layout.clusters
      unfold clusterEoc firstDataCluster at below
      refine ⟨by rw [count, zero_add, u32_of_lt (by omega), length_cons], rfl, by rw [length_cons]; omega, ?_, ?_⟩
      -- The old blocks stay where they were.
      · intro x lt
        obtain ⟨phys, old⟩ := f.blocks x lt
        have small := f.small
        rw [Nat.add_mul] at small
        have new : getBlock { d.vol with table := m } d.map.firstCluster (x / 512) = some phys := by
          rw [f.file.getBlock_eq _ f.sectors (by omega)] at old
          rw [file.getBlock_eq { d.vol with table := m } f.sectors (by omega)]
          obtain ⟨c, at', rfl⟩ := map_eq_some_iff.mp old
          rw [List.getElem?_append_left (List.getElem?_eq_some_iff.mp at').1, at', Option.map_some]
        obtain ⟨page, seen⟩ := view_of_block (a := d.map) new
        refine ⟨?_, by dsimp only; rw [seen]; rfl⟩
        cases cached : d.map.pages (x / 4096) with
        | some page => rw [content_cached cached, content_cached cached]
        | none => rw [content_uncached cached old, content_uncached cached new]
      -- Behind the new cluster nothing is mapped.
      · intro x lt high
        have behind := f.behind x lt
        cases cached : d.map.pages (x / 4096) with
        | some page =>
          have old : content d.vol d.map x = page.data (x % 4096) := content_cached cached
          rw [content_cached cached, ← old]
          refine behind (le_trans (Nat.mul_le_mul_right _ ?_) high)
          omega
        | none =>
          apply content_unmapped cached
          rw [file.getBlock_eq { d.vol with table := m } f.sectors (by omega), getElem?_eq_none]
          · rfl
          · rw [long]
            rw [Nat.div_div_eq_div_mul, Nat.le_div_iff_mul_le (Nat.mul_pos (by decide) f.sectors.pos), ← f.bytes]
            exact high

end

end DirFormed

end growth

/-! ### The place of the new entries -/

section place

variable {d d₁ : Dir} {clusters : List Nat}

private theorem quiet_of_zero {pos : Nat} (zero : ∀ j < 32, content d.vol d.map (32 * pos + j) = 0) : Quiet d.slot pos := by
  intro a here
  rw [slot_eq] at here
  obtain ⟨-, -, rfl⟩ := map_eq_some_iff.mp here
  constructor
  · rw [isEnd_clip, isEnd, zero 0 (by decide)]
    rfl
  · rw [isLfn_clip, isLfn, attributes, zero 11 (by decide)]
    rfl

private theorem slot_page {i j : Nat} {page : Page} (seen : d.map.view d.vol i = some page) (lt : j < 128) :
    d.slot (i * 128 + j) = some (clip (page.dirent j)) := by
  rw [Dir.slot, Dir.entry]
  unfold entriesPerPage
  rw [show (i * 128 + j) / 128 = i by omega, show (i * 128 + j) % 128 = j by omega, seen]
  rfl

/-- What `fat32_find_free_slots` gives: a run of free entries in one page, or the start of a new
cluster. -/
structure Found (d d₁ : Dir) (need p : Nat) : Prop where
  bound : 32 * (p + need) ≤ 2 ^ 32
  scanned : p + need ≤ pageBound d.vol.info * 128
  info : d₁.vol.info = d.vol.info
  below : ∀ q < p, ∃ a, d.slot q = some a ∧ d₁.slot q = some a
  free : ∀ i < need, ∀ a, d.slot (p + i) = some a → a.isFree = true
  behind : d₁ = d ∧ (∀ i < need, d.slot (p + i) ≠ none) ∨ Quiet d.slot p ∧ Quiet d₁.slot (p + need)

theorem DirFormed.found_run (f : DirFormed d clusters) {start : Nat} (pos : 0 < need)
    (eq : findSlots d need (pageBound d.vol.info) 0 = some start) : Found d d need start := by
  obtain ⟨i, page, s, lt, rfl, inside, seen, free, before⟩ := findSlots_spec pos _ (by omega) eq
  have small := f.small
  rw [Nat.add_mul] at small
  have low := f.page_lt before
  have run (j : Nat) (hj : j < need) : d.slot (i * 128 + s + j) = some (clip (page.dirent (s + j))) := by
    rw [Nat.add_assoc]
    exact slot_page seen (by omega)
  constructor
  case bound => omega
  case scanned =>
    omega
  case info => rfl
  case below =>
    intro q hq
    have readable := before (q / 128) (by omega)
    obtain ⟨page', seen'⟩ := isSome_iff_exists.mp readable
    have here := slot_eq d q
    rw [seen', Option.map_some] at here
    exact ⟨_, here, here⟩
  case free =>
    intro j hj a here
    rw [run j hj] at here
    cases here
    exact free j hj
  case behind =>
    refine .inl ⟨rfl, fun j hj none => ?_⟩
    rw [run j hj] at none
    cases none

theorem DirFormed.reached_run (f : DirFormed d clusters) {start : Nat} (pos : 0 < need)
    (eq : findSlots d need (pageBound d.vol.info) 0 = some start) :
    RunReached d clusters need ↔ ∀ q < start, ∀ a, d.slot q = some a → a.isEnd = false := by
  obtain ⟨i, page, s, lt, rfl, inside, seen, free, before⟩ := findSlots_spec pos _ (by omega) eq
  have low := f.page_lt before
  have small := f.small
  rw [Nat.add_mul] at small
  constructor
  · intro reached q hq a here
    by_contra ends
    obtain ⟨r, le, run⟩ : ∃ r ≤ q, FreeRun d need r := by
      by_cases chain : 32 * q < clusters.length * d.vol.info.bytesPerCluster
      · exact reached q chain a here (by simpa using ends)
      -- Behind the chain the page is free to its end.
      · refine ⟨q, le_rfl, by omega, fun j hj => ?_⟩
        have there := slot_page seen (show q + j - i * 128 < 128 by omega)
        rw [Nat.add_sub_of_le (by omega)] at there
        have quiet : Quiet d.slot (q + j) := quiet_of_zero fun k lt => f.behind _ (by omega) (by omega)
        exact ⟨_, there, by rw [isFree, (quiet _ there).1]; rfl⟩
    obtain ⟨_, ⟨⟩, first⟩ := findSlots_first pos _ eq (Nat.zero_le _) (by omega) (fun k le => before k (by omega)) run
    omega
  · intro more q _ a here ends
    refine ⟨i * 128 + s, Nat.le_of_not_lt fun lt => ?_, by omega, fun j hj => ?_⟩
    · rw [more q lt a here] at ends
      cases ends
    · rw [Nat.add_assoc]
      exact ⟨_, slot_page seen (by omega), free j hj⟩

theorem DirFormed.reached_cluster (f : DirFormed d clusters) (pos : 0 < need) (grown : Grown d d₁ clusters)
    (eq : findSlots d need (pageBound d.vol.info) 0 = none) : RunReached d clusters need ↔
      ∀ q < clusters.length * (16 * d.vol.info.sectorsPerCluster), ∀ a, d.slot q = some a → a.isEnd = false := by
  have chain : clusters.length * d.vol.info.bytesPerCluster =
      32 * (clusters.length * (16 * d.vol.info.sectorsPerCluster)) := by
    rw [f.bytes, Nat.mul_left_comm 32, ← Nat.mul_assoc 32]
  have pages : clusters.length * d.vol.info.sectorsPerCluster < pageBound d.vol.info :=
    Nat.lt_succ_of_le (Nat.mul_le_mul_right _ (Nat.le_of_succ_le grown.room))
  constructor
  · intro reached q hq a here
    by_contra ends
    obtain ⟨r, le, run⟩ := reached q (by omega) a here (by simpa using ends)
    have seen (k : Nat) (hk : k ≤ r / 128) : (d.map.view d.vol k).isSome := by
      have := f.readable (show k * 4096 < _ by omega)
      rwa [Nat.mul_div_cancel _ (by decide)] at this
    rw [Nat.mul_left_comm] at hq
    obtain ⟨_, ⟨⟩, -⟩ := findSlots_first pos _ eq (Nat.zero_le _) (by omega) seen run
  · intro more q hq a here ends
    rw [more q (by omega) a here] at ends
    cases ends

theorem DirFormed.found_cluster (f : DirFormed d clusters) {d₂ : Dir} (few : need ≤ 32) (grown : Grown d d₁ clusters)
    (cleared : Copied d₁ d₂ (clusters.length * d.vol.info.bytesPerCluster)
      (clusters.length * d.vol.info.bytesPerCluster + d.vol.info.bytesPerCluster) fun _ => 0) :
    Found d d₂ need (clusters.length * (16 * d.vol.info.sectorsPerCluster)) := by
  have start : 32 * (clusters.length * (16 * d.vol.info.sectorsPerCluster)) =
      clusters.length * d.vol.info.bytesPerCluster := by
    rw [f.bytes, Nat.mul_left_comm, ← Nat.mul_assoc 32]
  have small := f.small
  rw [Nat.add_mul] at small
  have perCluster := f.bytes
  have some' := f.sectors.pos
  have scanned : clusters.length * (16 * d.vol.info.sectorsPerCluster) + need ≤ pageBound d.vol.info * 128 := by
    have room : clusters.length * d.vol.info.sectorsPerCluster ≤ d.vol.info.totalClusters *
      d.vol.info.sectorsPerCluster :=
      Nat.mul_le_mul_right _ (Nat.le_of_succ_le grown.room)
    rw [pageBound, Nat.mul_left_comm]
    omega
  generalize clusters.length * (16 * d.vol.info.sectorsPerCluster) = p at start scanned ⊢
  -- Behind the old chain everything is cleared, or was never there.
  have zero (x : Nat) (lt : x < 2 ^ 33) (high : 32 * p ≤ x) : content d₂.vol d₂.map x = 0 := by
    rw [cleared.bytes x]
    split
    next => rfl
    next out =>
      apply grown.behind x lt
      rw [Nat.add_mul, one_mul]
      omega
  constructor
  case bound => omega
  case scanned => exact scanned
  case info => rw [cleared.vol, grown.info]
  case below =>
    intro q hq
    obtain ⟨page, seen⟩ := isSome_iff_exists.mp (f.readable (show 32 * q < _ by omega))
    rw [show 32 * q / 4096 = q / 128 by omega] at seen
    have here := slot_eq d q
    rw [seen, Option.map_some] at here
    refine ⟨_, here, here ▸ slot_congr ?_ fun j lt => ?_⟩
    · rw [cleared.readable, seen]
      have := (grown.below (32 * q) (by omega)).2
      rwa [show 32 * q / 4096 = q / 128 by omega] at this
    · rw [cleared.bytes, if_neg (by omega)]
      exact (grown.below _ (by omega)).1
  case free =>
    intro i hi a here
    have := (quiet_of_zero (d := d) fun j lt => f.behind (32 * (p + i) + j) (by omega) (by omega)) a here
    rw [isFree, this.1]
    rfl
  case behind =>
    refine .inr ⟨quiet_of_zero fun j lt => f.behind (32 * p + j) (by omega) (by omega), ?_⟩
    exact quiet_of_zero fun j lt => zero _ (by omega) (by omega)

theorem DirFormed.findFreeSlots (f : DirFormed d clusters) (pos : 0 < need) (few : need ≤ 32)
    (eq : findFreeSlots d need = (some offset, d₁)) : ∃ p, offset = 32 * p ∧ Found d d₁ need p ∧
      (RunReached d clusters need ↔ ∀ q < p, ∀ a, d.slot q = some a → a.isEnd = false) := by
  rw [Fat32.findFreeSlots] at eq
  split at eq
  next start found =>
    cases eq
    have run := f.found_run pos found
    have bound := run.bound
    exact ⟨start, by rw [u32_of_lt (by omega), mul_comm], run, f.reached_run pos found⟩
  next none =>
    split at eq
    next => cases eq
    next idx d' more =>
      obtain ⟨rfl, grown⟩ := f.growDir more
      dsimp only at eq
      have small := f.small
      rw [Nat.add_mul] at small
      have pos' : 0 < d.vol.info.bytesPerCluster := by
        rw [f.bytes]
        exact Nat.mul_pos (by decide) f.sectors.pos
      rw [grown.info, u32_of_lt (by omega)] at eq
      split at eq
      next d'' cleared =>
        cases eq
        have zeros := copied_clearLoop _ 0 (by omega) (by omega) (Nat.zero_le _) cleared
        refine ⟨clusters.length * (16 * d.vol.info.sectorsPerCluster), ?_, f.found_cluster few grown zeros,
          f.reached_cluster pos grown none⟩
        rw [f.bytes, Nat.mul_left_comm 32, ← Nat.mul_assoc 32]
      next => cases eq

theorem Found.placed {d' : Dir} (h : Found d d₁ entries.length p)
    (eq : writeEntries d₁ (32 * p) entries = (true, d')) : Placed d.slot d'.slot p (entries.map clip) := by
  have slots := slot_writeEntries entries h.bound eq
  have len : (entries.map clip).length = entries.length := length_map ..
  constructor
  case below =>
    intro q lt
    obtain ⟨a, old, new⟩ := h.below q lt
    exact ⟨a, old, by rw [slots q, if_neg (by omega), new]⟩
  case free =>
    rw [len]
    exact h.free
  case placed =>
    intro i lt
    rw [slots, if_pos (by omega), Nat.add_sub_cancel_left]
  case behind =>
    rw [len]
    rcases h.behind with ⟨rfl, there⟩ | ⟨before, after⟩
    · exact .inl ⟨fun q le => by rw [slots q, if_neg (by omega)], there⟩
    · refine .inr ⟨before, fun a here => after a ?_⟩
      rwa [slots, if_neg (by omega)] at here

end place

/-! ### The lookups after a creation -/

private theorem length_nameEntries_le {name : List Byte} (short : name.length ≤ nameMax)
    (eq : nameEntries name = some entries) : entries.length ≤ 32 := by
  rw [nameEntries] at eq
  split at eq
  · cases eq
    have := lfnCount_le short
    simp
    omega
  · obtain ⟨de, -, rfl⟩ := map_eq_some_iff.mp eq
    simp

theorem lookup_eq (d : Dir) (name : List Byte) :
    d.lookup name = (scanFrom name d.slot (pageBound d.vol.info * 128) 0 none).answer :=
  (scanFrom_clip name d.entry _ 0 none).symm

private theorem answer_eq_none {s : Scan} : s.answer = none ↔ s.found = none := by
  cases s <;> simp [Scan.answer, Scan.found]

/-- After a name was created in a well-formed directory, a scan finds it and finds what it found
before under every other name, exactly if the entry that was made for it reads back as the name, and
no end mark is left in front of a place for it. -/
theorem created_found_iff (d d' : Dir) (clusters : List Nat) (formed : DirFormed d clusters) (name : List Byte)
    (short : name.length ≤ nameMax) (legal : 0 ∉ name) (created : createInner true d name = (true, d')) :
    ((d'.lookup name).isSome ∧ ∀ n, n ≠ name → d'.lookup n = d.lookup n) ↔
      visible name = true ∧ ∀ entries ∈ nameEntries name, RunReached d clusters entries.length := by
  rw [createInner, Bool.true_and] at created
  split at created
  next absent =>
    have before : d.lookup name = none := answer_eq_none.mpr (isNone_iff_eq_none.mp absent)
    split at created
    next => cases created
    next entries made =>
      have pos := length_nameEntries_pos made
      split at created
      next => cases created
      next offset d₁ chosen =>
        obtain ⟨p, rfl, found, reached⟩ := formed.findFreeSlots pos (length_nameEntries_le short made) chosen
        have placed := found.placed created
        have info : d'.vol.info = d.vol.info := by rw [writeEntries_info entries created, found.info]
        have len : (entries.map clip).length = entries.length := length_map ..
        obtain ⟨r, rounds⟩ : ∃ r, pageBound d.vol.info * 128 = p + (entries.length + r) :=
          ⟨pageBound d.vol.info * 128 - (p + entries.length), by have := found.scanned; omega⟩
        have there (i : Nat) (lt : i < entries.length) : d'.slot (p + i) = (entries.map clip)[i]? :=
          placed.placed i (by rwa [len])
        have new (n : List Byte) := lookup_eq d' n
        have old (n : List Byte) := lookup_eq d n
        rw [info, rounds] at new
        rw [rounds] at old
        have behind (n : List Byte) := len ▸ placed.rest formed.tidy n r
        simp only [made, mem_some, forall_eq', reached]
        constructor
        · rintro ⟨after, -⟩
          -- A scan that finds the name has passed everything in front of it.
          have more : ∀ q < p, ∀ a, d.slot q = some a → a.isEnd = false := by
            intro q lt a here
            by_contra ends
            rw [new, placed.hidden formed.tidy lt here (by simpa using ends), ← old, before] at after
            cases after
          refine ⟨?_, more⟩
          by_contra hidden
          rcases placed.reaches formed.tidy name (by rwa [len]) more (entries.length + r) with
            ⟨hit, was, -⟩ | ⟨was, is⟩
          · rw [old, was] at before
            cases before
          · have passed := (scanFrom_nameEntries (n := name) (r := r) short legal made there).2
              (.inr ⟨by simpa using hidden, rfl⟩)
            rw [new, is, passed, ← behind, ← was, ← old, before] at after
            cases after
        · rintro ⟨shown, more⟩
          constructor
          · rcases placed.reaches formed.tidy name (by rwa [len]) more (entries.length + r) with
              ⟨hit, was, -⟩ | ⟨-, is⟩
            · rw [old, was] at before
              cases before
            · obtain ⟨hit, seen⟩ := (scanFrom_nameEntries (n := name) (r := r) short legal made there).1 shown rfl
              rw [new, is, seen]
              rfl
          -- Another name is found in front of the new entries, or the scan passes them.
          · intro n ne
            rcases placed.reaches formed.tidy n (by rwa [len]) more (entries.length + r) with
              ⟨hit, was, is⟩ | ⟨was, is⟩
            · rw [new, old, was, is]
            · have passed := (scanFrom_nameEntries (n := n) (r := r) short legal made there).2 (.inl ⟨shown, ne⟩)
              rw [new, old, is, passed, was, behind]
  next => cases created

/-- An empty root directory of one cluster. -/
def smallDir : Dir := ⟨⟨⟨1, 1, 3, 2, 512, 1, 2, 7, 0⟩, freshImage, fun _ _ => 0⟩, ⟨2, fun _ => none⟩⟩

private theorem content_smallDir (x : Nat) : content smallDir.vol smallDir.map x = 0 := by
  cases block : getBlock smallDir.vol smallDir.map.firstCluster (x / 512) with
  | none => exact content_unmapped rfl block
  | some phys => exact content_uncached rfl block

theorem smallDir_formed : DirFormed smallDir [2] where
  layout := ⟨by decide, by decide, by decide, by decide, by decide⟩
  sectors := ⟨by decide, by decide⟩
  bytes := rfl
  table := wellFormed_of_last [2] (by decide) (by decide) (by decide +kernel) (by decide +kernel) (by decide +kernel)
  file := by
    refine ⟨.inr ⟨[], rfl⟩, fun _ => ?_, by decide, by decide⟩
    show link _ _ 2 = .last
    decide +kernel
  nonempty := by decide
  small := by decide
  pages := nofun
  behind := fun x _ _ => content_smallDir x
  tidy := by
    have quiet (pos : Nat) : Quiet smallDir.slot pos := quiet_of_zero fun j _ => content_smallDir _
    refine ⟨fun _ q' _ _ _ _ => quiet q', fun q a here part _ => ?_⟩
    rw [(quiet q a here).2] at part
    cases part

/-- A name of two letters, which has a long-name entry, is found after its creation. -/
theorem mixed_case_found : ∃ d', createInner true smallDir [0x41, 0x62] = (true, d') ∧
    (d'.lookup [0x41, 0x62]).isSome ∧ ∀ n, n ≠ [0x41, 0x62] → d'.lookup n = smallDir.lookup n := by
  have ok : (createInner true smallDir [0x41, 0x62]).1 = true := by decide +kernel
  have created : createInner true smallDir [0x41, 0x62] = (true, (createInner true smallDir [0x41, 0x62]).2) :=
    Prod.ext ok rfl
  have first (entries : List Dirent) (made : entries ∈ nameEntries [0x41, 0x62]) :
      RunReached smallDir [2] entries.length := by
    have count : (nameEntries [0x41, 0x62]).map List.length = some 2 := by decide +kernel
    rw [made] at count
    rw [some.inj count]
    exact (smallDir_formed.reached_run (by decide) (by decide +kernel)).mpr fun q lt => absurd lt (Nat.not_lt_zero q)
  exact ⟨_, created, (created_found_iff smallDir _ [2] smallDir_formed [0x41, 0x62] (by decide) (by decide) created).mpr
    ⟨by decide +kernel, first⟩⟩

/-- The name `a1` is created without a long-name entry and without the mark for lower case: it is
not found after that, and the name `A1` is. -/
theorem lower_case_lost : DirFormed smallDir [2] ∧ ∃ d', createInner true smallDir [0x61, 0x31] = (true, d') ∧
    d'.lookup [0x61, 0x31] = none ∧ smallDir.lookup [0x41, 0x31] = none ∧ (d'.lookup [0x41, 0x31]).isSome := by
  have ok : (createInner true smallDir [0x61, 0x31]).1 = true := by decide +kernel
  exact ⟨smallDir_formed, _, Prod.ext ok rfl, by decide +kernel, by decide +kernel, by decide +kernel⟩

end Jlos.Fat32
