import Jlos.Lib.Loop
import Jlos.PageCache.Model

/-!
# The page cache shows a flat device

Gets, writes and puts of pages, one at a time, as steps of a system that records the bytes last
written to every page and the gets that are outstanding.
-/
namespace Jlos.PageCache

open Lib Function List BitVec State
open State (setPage)

variable {σ : Type} {p i m n : Nat} {b : Nat → Buf} {s : State σ}

structure Sys (σ : Type) where
  state : State σ
  /-- The bytes last written to each sector of each page of a mapping, or the initial ones of the
  device. -/
  image : Nat → Nat → Nat → σ
  /-- The number of gets of a page that no put has matched yet. -/
  held : Nat → Nat

inductive Op (σ : Type)
  | get (m i : Nat) (frame : Option Nat) (bufs : Bool)
  /-- A change of one sector, and `jlos_fs_page_bh_dirty` of it. -/
  | write (p j : Nat) (x : σ)
  /-- A change of the whole page, and `jlos_fs_page_dirty`. -/
  | writePage (p : Nat) (data : Nat → σ)
  | put (p : Nat)

def setImage (image : Nat → Nat → Nat → σ) (m i : Nat) (x : Nat → σ) : Nat → Nat → Nat → σ :=
  update image m (update (image m) i x)

namespace Sys

def start (disk : Nat → Nat → σ) (pages : Nat → Page σ) : Sys σ :=
  { state :=
      { pages := fun p => { pages p with refcount := 0 }
        tree := fun _ _ => none
        lru := ⟨id, id⟩
        count := 0
        disk := disk }
    image := fun m i j => disk m (i * pageSectors + j)
    held := fun _ => 0 }

def exec (sys : Sys σ) : Op σ → M (Sys σ)
  | .get m i frame bufs => do
    let (result, s) ← pageGet sys.state m i frame bufs
    match result with
    | none => pure { sys with state := s }
    | some p => pure { sys with state := s, held := update sys.held p (sys.held p + 1) }
  | .write p j x =>
    let page := sys.state.pages p
    let data := update page.data j x
    pure { sys with
      state := pageBhDirty (sys.state.setPage p { page with data := data }) p j
      image := setImage sys.image page.mapping page.index (update (sys.image page.mapping page.index) j x) }
  | .writePage p data =>
    let page := sys.state.pages p
    pure { sys with
      state := pageDirty (sys.state.setPage p { page with data := data }) p
      image := setImage sys.image page.mapping page.index data }
  | .put p => do
    let s ← pagePut sys.state p
    pure { sys with state := s, held := update sys.held p (sys.held p - 1) }

/-- New pages are free frames, and who writes or puts a page has it. -/
def Legal (sys : Sys σ) : Op σ → Prop
  | .get _ _ frame _ => ∀ p ∈ frame, (sys.state.pages p).refcount = 0
  | .write p j _ => 0 < sys.held p ∧ j < pageSectors
  | .writePage p _ | .put p => 0 < sys.held p

def step (sys : Sys σ) (op : Op σ) (sys' : Sys σ) : Prop := sys.Legal op ∧ sys.exec op = .ok sys'

end Sys

/-- The sectors of a page that is got have 64-bit numbers, and its reference count does not wrap
around. -/
def Op.Within (sys : Sys σ) : Op σ → Prop
  | .get m i _ _ => i < 2 ^ 61 ∧ ∀ p ∈ sys.state.tree m i, (sys.state.pages p).refcount ≠ BitVec.allOnes 32
  | .write .. | .writePage .. | .put _ => True

/-! ### Writing back -/

theorem startSector_eq (small : i < 2 ^ 61) : startSector i = i * pageSectors := by
  rw [startSector, pageSectors]
  omega

/-- The buffer heads of a page. -/
def Numbered (b : Nat → Buf) (i : Nat) : Prop := ∀ j, j < pageSectors → (b j).blocknr = i * pageSectors + j

theorem Numbered.setDirty (h : Numbered b i) (n : Nat) (d : Bool) :
    Numbered (update b n { b n with dirty := d }) i := by
  intro j lt
  rw [update_apply]
  split
  next same => exact same ▸ h j lt
  · exact h j lt

/-- What the loop of `page_write_block` has done after some rounds. -/
structure Wrote (s s' : State σ) (p : Nat) (b : Nat → Buf) (n : Nat) : Prop where
  tree : s'.tree = s.tree
  lru : s'.lru = s.lru
  count : s'.count = s.count
  others : ∀ v, v ≠ p → s'.pages v = s.pages v
  page : ∃ b', s'.pages p = { s.pages p with bufs := some b' } ∧ Numbered b' (s.pages p).index ∧
    ∀ j, n ≤ j → b' j = b j
  device : ∀ m, m ≠ (s.pages p).mapping → s'.disk m = s.disk m
  outside : ∀ x, ¬((s.pages p).index * pageSectors ≤ x ∧ x < (s.pages p).index * pageSectors + n) →
    s'.disk (s.pages p).mapping x = s.disk (s.pages p).mapping x
  inside : ∀ j, j < n → s'.disk (s.pages p).mapping ((s.pages p).index * pageSectors + j) =
    if (b j).dirty then (s.pages p).data j else s.disk (s.pages p).mapping ((s.pages p).index * pageSectors + j)

theorem Wrote.next {s' : State σ} (h : Wrote s s' p b n)
    (numbered : Numbered b (s.pages p).index) (low : n < pageSectors) : Wrote s (writeSector p s' n) p b (n + 1) := by
  obtain ⟨b', page, numbered', rest⟩ := h.page
  have same : b' n = b n := rest n (Nat.le_refl n)
  have number : (b n).blocknr = (s.pages p).index * pageSectors + n := numbered n low
  -- A clean sector already is what the device has.
  by_cases dirty : (b n).dirty = true
  · have eq : writeSector p s' n = (s'.setSector (s.pages p).mapping ((s.pages p).index * pageSectors + n)
        ((s.pages p).data n)).setPage p { s.pages p with bufs := some (update b' n { b' n with dirty := false }) } := by
      simp [writeSector, page, same, dirty, number]
    rw [eq]
    refine { h with others := ?others, page := ?page, device := ?device, outside := ?outside, inside := ?inside }
    case others =>
      intro v ne
      simp only [setPage, update_of_ne ne]
      exact h.others v ne
    case page =>
      refine ⟨update b' n { b' n with dirty := false }, ?_, numbered'.setDirty n false, fun j le => ?_⟩
      · simp [setPage]
      · rw [update_of_ne (by omega)]
        exact rest j (by omega)
    case device =>
      intro m ne
      simp only [setPage, setSector, update_of_ne ne]
      exact h.device m ne
    case outside =>
      intro x out
      simp only [setPage, setSector, update_self]
      rw [update_of_ne (by omega)]
      exact h.outside x (by omega)
    case inside =>
      intro j lt
      simp only [setPage, setSector, update_self]
      obtain rfl | here := eq_or_ne j n
      · rw [update_self, if_pos dirty]
      · rw [update_of_ne (by omega)]
        exact h.inside j (by omega)
  · have eq : writeSector p s' n = s' := by
      simp only [writeSector, page, same]
      rw [if_neg dirty]
    rw [eq]
    refine ⟨h.tree, h.lru, h.count, h.others, ⟨b', page, numbered', fun j le => rest j (by omega)⟩, h.device,
      fun x out => h.outside x (by omega), fun j lt => ?_⟩
    obtain rfl | here := eq_or_ne j n
    · rw [if_neg dirty]
      exact h.outside _ (by omega)
    · exact h.inside j (by omega)

theorem wrote_range (bufs : (s.pages p).bufs = some b)
    (numbered : Numbered b (s.pages p).index) (low : n ≤ pageSectors) :
    Wrote s ((List.range n).foldl (writeSector p) s) p b n := by
  induction n with
  | zero =>
    refine ⟨rfl, rfl, rfl, fun _ _ => rfl, ⟨b, ?_, numbered, fun _ _ => rfl⟩, fun _ _ => rfl, fun _ _ => rfl, nofun⟩
    show s.pages p = _
    rw [← bufs]
  | succ n ih =>
    rw [range_succ, foldl_append]
    exact (ih (by omega)).next numbered low

/-! ### The invariant -/

/-- A page in the cache, with its device, the bytes it stands for and the outstanding gets. -/
structure PageOk (disk image : Nat → σ) (k m i : Nat) (x : Page σ) : Prop where
  mapping : x.mapping = m
  index : x.index = i
  small : i < 2 ^ 61
  refs : x.refcount.toNat = 1 + k
  bufs : ∃ b, x.bufs = some b ∧ Numbered b i ∧ ∀ j, j < pageSectors → ((b j).dirty = true → x.dirty = true) ∧
    ((b j).dirty = false → disk (i * pageSectors + j) = image j)
  data : ∀ j, j < pageSectors → x.data j = image j

def Cached (s : State σ) (p : Nat) : Prop := ∃ m i, s.tree m i = some p

/-- The pages `q` in the list, in order. -/
structure Inv (sys : Sys σ) (q : List Nat) : Prop where
  ring : sys.state.lru.Ring none (q.map some)
  count : sys.state.count.toNat = q.length
  mem : ∀ p, p ∈ q ↔ Cached sys.state p ∧ sys.held p = 0
  cached : ∀ {m i p}, sys.state.tree m i = some p →
    PageOk (sys.state.disk m) (sys.image m i) (sys.held p) m i (sys.state.pages p)
  held : ∀ p, 0 < sys.held p → Cached sys.state p
  clean : ∀ {m i}, sys.state.tree m i = none → ∀ j, j < pageSectors →
    sys.state.disk m (i * pageSectors + j) = sys.image m i j

variable {sys : Sys σ} {q : List Nat}

theorem PageOk.disk_congr {disk disk' image : Nat → σ} {k : Nat} {x : Page σ} (h : PageOk disk image k m i x)
    (same : ∀ j, j < pageSectors → disk' (i * pageSectors + j) = disk (i * pageSectors + j)) :
    PageOk disk' image k m i x := by
  obtain ⟨b, bufs, numbered, flags⟩ := h.bufs
  refine ⟨h.mapping, h.index, h.small, h.refs,
    ⟨b, bufs, numbered, fun j lt => ⟨(flags j lt).1, fun clean => ?_⟩⟩, h.data⟩
  exact (same j lt).trans ((flags j lt).2 clean)

theorem sector_apart {i' j : Nat} (ne : i' ≠ i) (lt : j < pageSectors) :
    ¬(i * pageSectors ≤ i' * pageSectors + j ∧ i' * pageSectors + j < i * pageSectors + pageSectors) := by
  rw [pageSectors] at *
  omega

theorem Inv.unique (h : Inv sys q) {m' i' : Nat} (at_m : sys.state.tree m i = some p)
    (at_m' : sys.state.tree m' i' = some p) : m = m' ∧ i = i' := by
  have ok := h.cached at_m
  have ok' := h.cached at_m'
  exact ⟨ok.mapping.symm.trans ok'.mapping, ok.index.symm.trans ok'.index⟩

theorem writeback_spec {v k : Nat} {image : Nat → σ} (ok : PageOk (s.disk m) image k m i (s.pages v)) :
    (writeback s v).tree = s.tree ∧ (writeback s v).lru = s.lru ∧ (writeback s v).count = s.count ∧
    (∀ p, p ≠ v → (writeback s v).pages p = s.pages p) ∧
    (∃ bufs dirty, (writeback s v).pages v = { s.pages v with bufs := bufs, dirty := dirty }) ∧
    (∀ m', m' ≠ m → (writeback s v).disk m' = s.disk m') ∧
    (∀ x, ¬(i * pageSectors ≤ x ∧ x < i * pageSectors + pageSectors) → (writeback s v).disk m x = s.disk m x) ∧
    ∀ j, j < pageSectors → (writeback s v).disk m (i * pageSectors + j) = image j := by
  obtain ⟨b, bufs, numbered, flags⟩ := ok.bufs
  rw [writeback]
  split
  next dirty =>
    have wrote := wrote_range bufs (ok.index ▸ numbered) (Nat.le_refl pageSectors)
    obtain ⟨b', page, -, -⟩ := wrote.page
    have block : writeBlock s v = ((List.range pageSectors).foldl (writeSector v) s).setPage v
        { s.pages v with bufs := some b', dirty := false } := by
      simp [writeBlock, bufs, page]
    have device := wrote.device
    have outside := wrote.outside
    have inside := wrote.inside
    rw [ok.mapping, ok.index] at outside inside
    rw [ok.mapping] at device
    rw [block]
    refine ⟨wrote.tree, wrote.lru, wrote.count, fun p ne => ?_, ⟨some b', false, ?_⟩, device, outside, fun j lt => ?_⟩
    · simp only [setPage, update_of_ne ne]
      exact wrote.others p ne
    · simp [setPage]
    · show ((List.range pageSectors).foldl (writeSector v) s).disk m _ = _
      rw [inside j lt]
      split
      · exact ok.data j lt
      next clean => exact (flags j lt).2 (by simpa using clean)
  next clean =>
    refine ⟨rfl, rfl, rfl, fun _ _ => rfl, ⟨(s.pages v).bufs, (s.pages v).dirty, rfl⟩, fun _ _ => rfl, fun _ _ => rfl,
      fun j lt => (flags j lt).2 ?_⟩
    by_contra dirty
    exact clean ((flags j lt).1 (by simpa using dirty))

/-- One round of the eviction loop takes the first page of the list out of the cache. -/
theorem Inv.evict {v : Nat} {rest : List Nat} (h : Inv sys (v :: rest)) :
    ∃ s', pageFree (removeSection (writeback (lruDel sys.state v) v) v) v = .ok s' ∧
    Inv { sys with state := s' } rest := by
  obtain ⟨⟨m, i, at_v⟩, unheld⟩ := (h.mem v).mp mem_cons_self
  have ok : PageOk ((lruDel sys.state v).disk m) (sys.image m i)
    (sys.held v) m i ((lruDel sys.state v).pages v) := h.cached at_v
  obtain ⟨tree, lru, count, others, ⟨bufs, dirty, page⟩, device, outside, inside⟩ := writeback_spec ok
  obtain ⟨s₂, eq⟩ : ∃ s₂, writeback (lruDel sys.state v) v = s₂ := ⟨_, rfl⟩
  rw [eq] at tree lru count others page device outside inside ⊢
  have one : (s₂.pages v).refcount = 1 := by
    rw [page]
    apply eq_of_toNat_eq
    rw [show (1 : BitVec 32).toNat = 1 from rfl]
    exact ok.refs.trans (by rw [unheld])
  have place : (s₂.pages v).mapping = m ∧ (s₂.pages v).index = i := by
    rw [page]
    exact ⟨ok.mapping, ok.index⟩
  have ring : sys.state.lru.Ring none ([] ++ some v :: rest.map some) := h.ring
  have fresh : v ∉ rest := fun mem =>
    (nodup_cons.mp (nodup_cons.mp ring.nodup).2).1 (mem_map_of_mem mem)
  -- Only the place of the victim is taken out of the trees.
  have trees : ∀ m' i', update s₂.tree m (update (s₂.tree m) i none) m' i' =
      if m' = m ∧ i' = i then none else sys.state.tree m' i' := by
    intro m' i'
    rw [tree]
    exact (lruDel sys.state v).tree_setTree m i none m' i'
  have cached_iff : ∀ p, (∃ m' i', update s₂.tree m (update (s₂.tree m) i none) m' i' = some p) ↔
      Cached sys.state p ∧ p ≠ v := by
    intro p
    constructor
    · rintro ⟨m', i', found⟩
      rw [trees] at found
      split at found
      · cases found
      next other =>
        refine ⟨⟨m', i', found⟩, fun same => other ?_⟩
        subst same
        exact h.unique found at_v
    · rintro ⟨⟨m', i', found⟩, ne⟩
      refine ⟨m', i', ?_⟩
      rw [trees, if_neg, found]
      rintro ⟨rfl, rfl⟩
      rw [at_v] at found
      cases found
      exact ne rfl
  -- The writeback writes sectors of the victim only.
  have sectors : ∀ m' i' j, ¬(m' = m ∧ i' = i) → j < pageSectors →
      s₂.disk m' (i' * pageSectors + j) = sys.state.disk m' (i' * pageSectors + j) := by
    intro m' i' j other lt
    obtain rfl | here := eq_or_ne m' m
    · exact outside _ (sector_apart (fun same => other ⟨rfl, same⟩) lt)
    · rw [device m' here]
      rfl
  refine ⟨_, if_neg (by rw [removeSection]; exact one ▸ (by decide)), ?_⟩
  constructor
  case ring =>
    show s₂.lru.Ring none (rest.map some)
    rw [lru]
    exact ring.delInit
  case count =>
    show s₂.count.toNat = rest.length
    have len := h.count
    rw [count]
    exact pred_toNat len
  all_goals simp only [removeSection, setTree, setPage, place.1, place.2, Cached, cached_iff]
  case mem =>
    intro p
    have before := h.mem p
    rw [mem_cons] at before
    constructor
    · intro mem
      obtain ⟨cached, zero⟩ := before.mp (.inr mem)
      exact ⟨⟨cached, fun same => fresh (same ▸ mem)⟩, zero⟩
    · rintro ⟨⟨cached, ne⟩, zero⟩
      exact (before.mpr ⟨cached, zero⟩).resolve_left ne
  case cached =>
    intro m' i' p found
    have other : ¬(m' = m ∧ i' = i) := by
      intro same
      rw [trees, if_pos same] at found
      cases found
    have ne := ((cached_iff p).mp ⟨m', i', found⟩).2
    rw [trees, if_neg other] at found
    rw [update_of_ne ne, others p ne]
    exact (h.cached found).disk_congr fun j lt => sectors m' i' j other lt
  case held =>
    intro p pos
    exact ⟨h.held p pos, fun same => by rw [same, unheld] at pos; cases pos⟩
  case clean =>
    intro m' i' empty j lt
    by_cases here : m' = m ∧ i' = i
    · obtain ⟨rfl, rfl⟩ := here
      exact inside j lt
    · rw [trees, if_neg here] at empty
      rw [sectors m' i' j here lt]
      exact h.clean empty j lt

section

variable (h : Inv sys q)
include h

/-- The eviction loop ends, with no more than `cacheMax` pages in the list. -/
theorem Inv.shrink (enough : q.length < n) :
    ∃ s' q', cacheShrink n sys.state = .ok s' ∧ Inv { sys with state := s' } q' ∧ q'.length ≤ cacheMax := by
  induction n generalizing sys q with
  | zero => exact absurd enough (Nat.not_lt_zero _)
  | succ n ih =>
    by_cases exceeds : cacheMax < q.length
    · cases q with
      | nil => exact absurd exceeds (Nat.not_lt_zero _)
      | cons v rest =>
        obtain ⟨s', freed, next⟩ := h.evict
        obtain ⟨s'', q', rounds, inv, short⟩ := ih next (Nat.lt_of_succ_lt_succ enough)
        refine ⟨s'', q', ?_, inv, short⟩
        have evicts : evictSection sys.state = (some v, lruDel sys.state v) := by
          rw [evictSection, h.count, if_pos exceeds, lruEvict_first h.ring]
        simp only [cacheShrink, evicts, freed, ok_bind]
        exact rounds
    · refine ⟨sys.state, q, ?_, h, Nat.le_of_not_lt exceeds⟩
      have stays : evictSection sys.state = (none, sys.state) := by
        rw [evictSection, h.count, if_neg exceeds]
      simp only [cacheShrink, stays]
      rfl

/-! ### Puts -/

/-- A cached page whose count of references changes together with the outstanding gets. -/
theorem Inv.setRefs (at_p : sys.state.tree m i = some p) {r : BitVec 32} {k : Nat}
    (refs : r.toNat = 1 + k) {q' : List Nat} {lru : Links (Option Nat)} {count : BitVec 32}
    (ring : lru.Ring none (q'.map some)) (length : count.toNat = q'.length)
    (mem : ∀ v, v ∈ q' ↔ if v = p then k = 0 else v ∈ q) :
    Inv ⟨{ sys.state.setPage p { sys.state.pages p with refcount := r } with lru := lru, count := count }, sys.image,
      update sys.held p k⟩ q' := by
  constructor
  case ring => exact ring
  case count => exact length
  case clean => exact h.clean
  case mem =>
    intro v
    rw [mem]
    show _ ↔ Cached sys.state v ∧ update sys.held p k v = 0
    obtain rfl | here := eq_or_ne v p
    · rw [if_pos rfl, update_self]
      exact ⟨fun zero => ⟨⟨m, i, at_p⟩, zero⟩, And.right⟩
    · rw [if_neg here, update_of_ne here]
      exact h.mem v
  case cached =>
    intro m' i' v found
    have ok := h.cached found
    simp only [setPage]
    obtain rfl | here := eq_or_ne v p
    · rw [update_self, update_self]
      exact ⟨ok.mapping, ok.index, ok.small, refs, ok.bufs, ok.data⟩
    · rw [update_of_ne here, update_of_ne here]
      exact ok
  case held =>
    intro v (pos : 0 < update sys.held p k v)
    obtain rfl | here := eq_or_ne v p
    · exact ⟨m, i, at_p⟩
    · rw [update_of_ne here] at pos
      exact h.held v pos

theorem Inv.putSection (short : q.length ≤ cacheMax) (pos : 0 < sys.held p) :
    ∃ q', Inv ⟨(putSection sys.state p).2, sys.image, update sys.held p (sys.held p - 1)⟩ q' ∧
      ((putSection sys.state p).1 = false → q'.length ≤ cacheMax) := by
  obtain ⟨m, i, at_p⟩ := h.held p pos
  have ok := h.cached at_p
  have refs : ((sys.state.pages p).refcount - 1).toNat = 1 + (sys.held p - 1) := by
    rw [pred_toNat (n := sys.held p) (by rw [ok.refs]; omega)]
    omega
  have out : p ∉ q := fun mem => by rw [((h.mem p).mp mem).2] at pos; cases pos
  simp only [PageCache.putSection, setPage, update_self, eq_one_iff, refs]
  split
  next last =>
    have zero : sys.held p - 1 = 0 := by omega
    have room : sys.state.count.toNat + 1 < 2 ^ 32 := by
      rw [h.count]
      rw [cacheMax] at short
      omega
    refine ⟨q ++ [p], h.setRefs at_p refs ?_ ?_ fun v => ?_, fun done => ?_⟩
    · exact lruAddTail_list h.ring out
    · rw [succ_toNat room, h.count, length_append]
      rfl
    · by_cases here : v = p
      · simp [here, zero]
      · simp [here]
    · have small := of_decide_eq_false done
      simp only [lruAddTail] at small
      rw [succ_toNat room, h.count] at small
      rw [length_append]
      exact Nat.le_of_not_lt small
  next more =>
    refine ⟨q, h.setRefs at_p refs h.ring h.count fun v => ?_, fun _ => short⟩
    obtain rfl | here := eq_or_ne v p
    · rw [if_pos rfl]
      exact ⟨fun mem => absurd mem out, fun zero => by omega⟩
    · rw [if_neg here]

theorem Inv.put (short : q.length ≤ cacheMax) (pos : 0 < sys.held p) :
    ∃ s' q', pagePut sys.state p = .ok s' ∧ q'.length ≤ cacheMax ∧
      Inv ⟨s', sys.image, update sys.held p (sys.held p - 1)⟩ q' := by
  obtain ⟨q', inv, small⟩ := h.putSection short pos
  cases section_eq : PageCache.putSection sys.state p with
  | mk shrink s =>
    rw [section_eq] at inv small
    cases shrink with
    | false =>
      refine ⟨s, q', ?_, small rfl, inv⟩
      rw [pagePut, section_eq]
      rfl
    | true =>
      have enough : q'.length < s.count.toNat + 1 := by
        have count : s.count.toNat = q'.length := inv.count
        omega
      obtain ⟨s', q'', rounds, inv', short'⟩ := inv.shrink enough
      refine ⟨s', q'', ?_, short', inv'⟩
      rw [pagePut, section_eq]
      exact rounds

/-! ### Gets -/

theorem Inv.acquire (at_p : sys.state.tree m i = some p) (room : (sys.state.pages p).refcount ≠ BitVec.allOnes 32) :
    ∃ q', Inv ⟨refAcquire sys.state p, sys.image, update sys.held p (sys.held p + 1)⟩ q' ∧ q'.length ≤ q.length ∧
      (refAcquire sys.state p).pages p = { sys.state.pages p with refcount := (sys.state.pages p).refcount + 1 } := by
  have refs := (h.cached at_p).refs
  have listed : (sys.state.pages p).refcount = 1 ↔ p ∈ q := by
    rw [eq_one_iff, refs, h.mem]
    exact ⟨fun one => ⟨⟨m, i, at_p⟩, by omega⟩, fun both => by rw [both.2]⟩
  obtain ⟨q', lru, count, acquired, ring, mem, less, length⟩ := refAcquire_list h.ring listed
  rw [acquired]
  refine ⟨q', h.setRefs at_p (refcount_succ refs room) ring (length h.count) fun v => ?_, less, ?_⟩
  · rw [mem]
    by_cases here : v = p <;> simp [here]
  · simp [setPage]

theorem Inv.uncached (free : (sys.state.pages p).refcount = 0) : ¬Cached sys.state p := by
  rintro ⟨m, i, found⟩
  have refs := (h.cached found).refs
  rw [free, show (0 : BitVec 32).toNat = 0 from rfl] at refs
  omega

/-- A page that is not in the cache, and its list node, can change freely. -/
theorem Inv.scribble (free : ¬Cached sys.state p) (x : Page σ) :
    Inv { sys with state := { sys.state.setPage p x with lru := sys.state.lru.init (some p) } } q := by
  refine { h with ring := ring_init h.ring fun member => free ((h.mem p).mp member).1, cached := ?cached }
  intro m i v found
  have ne : v ≠ p := fun same => free ⟨m, i, same ▸ found⟩
  simp only [setPage, update_of_ne ne]
  exact h.cached found

/-- A new page enters the cache, with one get outstanding. -/
theorem Inv.insert (free : ¬Cached sys.state p) (miss : sys.state.tree m i = none)
    (ok : PageOk (sys.state.disk m) (sys.image m i) 1 m i (sys.state.pages p)) :
    Inv ⟨sys.state.setTree m i (some p), sys.image, update sys.held p (sys.held p + 1)⟩ q := by
  have unheld : sys.held p = 0 := by
    by_contra pos
    exact free (h.held p (Nat.pos_of_ne_zero pos))
  have trees : ∀ m' i' v, (sys.state.setTree m i (some p)).tree m' i' = some v ↔
      sys.state.tree m' i' = some v ∨ (m' = m ∧ i' = i) ∧ v = p := by
    intro m' i' v
    rw [tree_setTree]
    split
    next same =>
      rw [same.1, same.2, miss]
      simp [eq_comm]
    next other => simp [other]
  -- The new page is the only one that was not cached before.
  have cached_iff : ∀ v, Cached (sys.state.setTree m i (some p)) v ↔ Cached sys.state v ∨ v = p := by
    intro v
    simp only [Cached, trees]
    constructor
    · rintro ⟨m', i', old | ⟨-, new⟩⟩
      · exact .inl ⟨m', i', old⟩
      · exact .inr new
    · rintro (⟨m', i', old⟩ | new)
      · exact ⟨m', i', .inl old⟩
      · exact ⟨m, i, .inr ⟨⟨rfl, rfl⟩, new⟩⟩
  have apart : ∀ v, Cached sys.state v → v ≠ p := fun v cached same => free (same ▸ cached)
  constructor
  case ring => exact h.ring
  case count => exact h.count
  case mem =>
    intro v
    show _ ↔ Cached (sys.state.setTree m i (some p)) v ∧ update sys.held p (sys.held p + 1) v = 0
    rw [cached_iff, h.mem]
    obtain rfl | here := eq_or_ne v p
    · rw [update_self]
      exact ⟨fun both => absurd both.1 free, fun both => absurd both.2 (Nat.succ_ne_zero _)⟩
    · simp [here]
  case cached =>
    intro m' i' v found
    show PageOk _ _ (update sys.held p (sys.held p + 1) v) _ _ _
    rcases (trees m' i' v).mp found with old | ⟨⟨rfl, rfl⟩, rfl⟩
    · rw [update_of_ne (apart v ⟨m', i', old⟩)]
      exact h.cached old
    · rw [update_self, unheld]
      exact ok
  case held =>
    intro v (pos : 0 < update sys.held p (sys.held p + 1) v)
    rw [cached_iff]
    by_cases here : v = p
    · exact .inr here
    · rw [update_of_ne here] at pos
      exact .inl (h.held v pos)
  case clean =>
    intro m' i' empty
    apply h.clean
    cases old : sys.state.tree m' i' with
    | none => rfl
    | some v =>
      have := (trees m' i' v).mpr (.inl old)
      exact absurd (empty.symm.trans this) nofun

/-- A get that does not find its page reads it from the device. -/
theorem Inv.get_miss (small : i < 2 ^ 61) (miss : sys.state.tree m i = none)
    {frame : Option Nat} (free : ∀ p ∈ frame, (sys.state.pages p).refcount = 0) (bufs : Bool) :
    (∃ s', pageGet sys.state m i frame bufs = .ok (none, s') ∧ Inv { sys with state := s' } q) ∨
    ∃ p s', pageGet sys.state m i frame bufs = .ok (some p, s') ∧
      Inv ⟨s', sys.image, update sys.held p (sys.held p + 1)⟩ q ∧
      ∀ j, j < pageSectors → (s'.pages p).data j = sys.image m i j := by
  cases frame with
  | none =>
    refine .inl ⟨sys.state, ?_, h⟩
    simp only [pageGet, miss, fill, pageAlloc]
    rfl
  | some p =>
    have uncached := h.uncached (free p rfl)
    cases bufs with
    | false =>
      refine .inl ⟨_, ?_, h.scribble uncached ⟨m, i, 0, none, false, deviceData sys.state m i p⟩⟩
      simp only [pageGet, miss, fill_fails, ok_bind]
      rfl
    | true =>
      have data : ∀ j, j < pageSectors → (filledPage sys.state m i p).data j = sys.image m i j := by
        intro j lt
        simp only [filledPage, deviceData, if_pos lt, startSector_eq small]
        exact h.clean miss j lt
      have ok : PageOk (sys.state.disk m) (sys.image m i) 1 m i (filledPage sys.state m i p) := by
        refine ⟨rfl, rfl, small, rfl, ⟨_, rfl, fun j _ => by rw [startSector_eq small], fun j lt =>
          ⟨by simp, fun _ => ?_⟩⟩, data⟩
        exact h.clean miss j lt
      have filled := h.scribble uncached (filledPage sys.state m i p)
      have page : ∀ s : State σ, (s.setPage p (filledPage sys.state m i p)).pages p = filledPage sys.state m i p :=
        fun s => update_self ..
      refine .inr ⟨p, _, ?_, filled.insert uncached miss (by rw [← page sys.state] at ok; exact ok), ?_⟩
      · simp only [pageGet, miss, fill_some, ok_bind, insertSection, setPage]
        rfl
      · intro j lt
        simp only [setTree, page]
        exact data j lt

/-! ### Writes -/

/-- New bytes in a page that somebody has, with flags that say so. -/
theorem Inv.write (at_p : sys.state.tree m i = some p) {data img : Nat → σ} {b' : Nat → Buf}
    (bufs : (sys.state.pages p).bufs = some b) (numbered : Numbered b' i)
    (shows : ∀ j, j < pageSectors → data j = img j)
    (flags : ∀ j, j < pageSectors → (b' j).dirty = false → (b j).dirty = false ∧ img j = sys.image m i j) :
    Inv ⟨sys.state.setPage p { sys.state.pages p with data := data, dirty := true, bufs := some b' },
      setImage sys.image m i img, sys.held⟩ q := by
  have ok := h.cached at_p
  have other : ∀ m' i', ¬(m' = m ∧ i' = i) → setImage sys.image m i img m' i' = sys.image m' i' := by
    intro m' i' ne
    rw [setImage]
    obtain rfl | here := eq_or_ne m' m
    · rw [update_self, update_of_ne fun same => ne ⟨rfl, same⟩]
    · rw [update_of_ne here]
  have same : setImage sys.image m i img m i = img := by
    rw [setImage, update_self, update_self]
  refine { h with cached := ?cached, clean := ?clean }
  -- The page now differs from the device in dirty sectors only.
  case cached =>
    intro m' i' v found
    obtain rfl | here := eq_or_ne v p
    · obtain ⟨rfl, rfl⟩ := h.unique at_p found
      simp only [setPage, update_self, same]
      obtain ⟨b₀, bufs₀, -, clean⟩ := ok.bufs
      cases bufs.symm.trans bufs₀
      refine ⟨ok.mapping, ok.index, ok.small, ok.refs, ⟨b', rfl, numbered, fun j lt => ⟨fun _ => rfl, fun low => ?_⟩⟩,
        shows⟩
      obtain ⟨was, kept⟩ := flags j lt low
      exact ((clean j lt).2 was).trans kept.symm
    · have apart : ¬(m' = m ∧ i' = i) := by
        rintro ⟨rfl, rfl⟩
        exact here (Option.some.inj (found.symm.trans at_p))
      simp only [setPage, update_of_ne here, other m' i' apart]
      exact h.cached found
  case clean =>
    intro m' i' empty
    have apart : ¬(m' = m ∧ i' = i) := by
      rintro ⟨rfl, rfl⟩
      exact absurd (at_p.symm.trans empty) (by simp)
    simp only [other m' i' apart]
    exact h.clean empty

end

/-! ### Runs -/

/-- The invariant between two calls. -/
def Sys.Ok (sys : Sys σ) : Prop := ∃ q, Inv sys q ∧ q.length ≤ cacheMax

open Sys

theorem Sys.start_ok (disk : Nat → Nat → σ) (pages : Nat → Page σ) : (start disk pages).Ok := by
  refine ⟨[], ⟨⟨nodup_singleton _, rfl, rfl⟩, rfl, fun p => ⟨nofun, fun both => nomatch both.1⟩, nofun, nofun, ?_⟩,
    Nat.zero_le _⟩
  exact fun _ _ _ => rfl

theorem Sys.exec_hit {sys : Sys σ} (found : sys.state.tree m i = some p) (frame : Option Nat) (bufs : Bool) :
    sys.exec (.get m i frame bufs) =
      .ok { sys with state := refAcquire sys.state p, held := update sys.held p (sys.held p + 1) } := by
  simp only [Sys.exec, pageGet, found]
  rfl

theorem Sys.Ok.exec {sys : Sys σ} (h : sys.Ok) {op : Op σ} (legal : sys.Legal op) (within : op.Within sys) :
    ∃ sys', sys.exec op = .ok sys' ∧ sys'.Ok := by
  obtain ⟨q, inv, short⟩ := h
  cases op with
  | get m i frame bufs =>
    obtain ⟨small, room⟩ := within
    cases found : sys.state.tree m i with
    | some p =>
      obtain ⟨q', inv', less, -⟩ := inv.acquire found (room p found)
      exact ⟨_, exec_hit found frame bufs, q', inv', Nat.le_trans less short⟩
    | none =>
      rcases inv.get_miss small found legal bufs with ⟨s', ran, inv'⟩ | ⟨p, s', ran, inv', -⟩
      all_goals
        refine ⟨_, ?_, q, inv', short⟩
        simp only [Sys.exec, ran, ok_bind]
        rfl
  | write p j x =>
    obtain ⟨pos, low⟩ := legal
    obtain ⟨m, i, at_p⟩ := inv.held p pos
    have ok := inv.cached at_p
    obtain ⟨b, bufs, numbered, -⟩ := ok.bufs
    obtain rfl := ok.mapping
    obtain rfl := ok.index
    refine ⟨_, rfl, q, ?_, short⟩
    simp only [pageBhDirty, setPage, update_self, update_idem, bufs]
    rw [if_neg (Nat.not_le_of_lt low)]
    refine inv.write at_p bufs (numbered.setDirty j true) (fun k lt => ?_) fun k lt clean => ?_
    · obtain rfl | here := eq_or_ne k j
      · rw [update_self, update_self]
      · rw [update_of_ne here, update_of_ne here]
        exact ok.data k lt
    · obtain rfl | here := eq_or_ne k j
      · rw [update_self] at clean
        cases clean
      · rw [update_of_ne here] at clean ⊢
        exact ⟨clean, rfl⟩
  | writePage p data =>
    obtain ⟨m, i, at_p⟩ := inv.held p legal
    have ok := inv.cached at_p
    obtain ⟨b, bufs, numbered, -⟩ := ok.bufs
    obtain rfl := ok.mapping
    obtain rfl := ok.index
    refine ⟨_, rfl, q, ?_, short⟩
    simp only [pageDirty, setPage, update_self, update_idem, bufs, Option.map_some]
    refine inv.write at_p bufs (fun k lt => ?_) (fun _ _ => rfl) fun k lt clean => ?_
    · rw [if_pos lt]
      exact numbered k lt
    · rw [if_pos lt] at clean
      cases clean
  | put p =>
    obtain ⟨s', q', ran, short', inv'⟩ := inv.put short legal
    refine ⟨_, ?_, q', inv', short'⟩
    simp [Sys.exec, ran]

/-- In every run, a get shows the bytes last written to its page or the initial ones of the device,
the list has the cached pages without an outstanding get, its counter is its length, and every call
returns. -/
theorem get_shows_last_write {disk : Nat → Nat → σ} {pages : Nat → Page σ} {es : List (Sys σ × Op σ)} {sys : Sys σ}
    (run : Run Sys.step (Sys.start disk pages) es sys) (within : ∀ e ∈ es, e.2.Within e.1) :
    (∀ m i frame bufs p s', sys.Legal (.get m i frame bufs) → (Op.get m i frame bufs).Within sys →
      pageGet sys.state m i frame bufs = .ok (some p, s') → ∀ j, j < pageSectors →
      (s'.pages p).data j = sys.image m i j) ∧
    (∃ q : List Nat, sys.state.lru.Ring none (q.map some) ∧ sys.state.count.toNat = q.length ∧
      ∀ p, Cached sys.state p → (p ∈ q ↔ sys.held p = 0)) ∧
    ∀ op, sys.Legal op → op.Within sys → ∃ sys', sys.step op sys' := by
  have reached : sys.Ok := by
    apply (Run.invariant_of_guard (I := Sys.Ok) (G := fun sys op => op.Within sys) (start_ok disk pages) _ run within).1
    rintro s op s' h met ⟨legal, ran⟩
    obtain ⟨s'', ran', ok⟩ := h.exec legal met
    cases ran.symm.trans ran'
    exact ok
  obtain ⟨q, inv, short⟩ := reached
  refine ⟨?_, ⟨q, inv.ring, inv.count, fun p cached => ?_⟩, fun op legal met => ?_⟩
  · rintro m i frame bufs p s' legal ⟨small, room⟩ ran j lt
    cases found : sys.state.tree m i with
    | some v =>
      obtain ⟨q', -, -, page⟩ := inv.acquire found (room v found)
      simp only [pageGet, found] at ran
      cases ran
      rw [page]
      exact (inv.cached found).data j lt
    | none =>
      rcases inv.get_miss small found legal bufs with ⟨_, ran', -⟩ | ⟨_, _, ran', -, data⟩
      · cases ran.symm.trans ran'
      · cases ran.symm.trans ran'
        exact data j lt
  · rw [inv.mem]
    exact and_iff_right cached
  · obtain ⟨sys', ran, -⟩ := Sys.Ok.exec ⟨q, inv, short⟩ legal met
    exact ⟨sys', legal, ran⟩

/-! ### A count that wraps around -/

def zeroPages : Nat → Page Nat := fun _ => ⟨0, 0, 0, none, false, fun _ => 0⟩

/-- Page 0 of a device of zeros is in frame 0, with `n + 1` gets outstanding. -/
structure Piled (sys : Sys Nat) (n : Nat) : Prop where
  found : sys.state.tree 0 0 = some 0
  refs : (sys.state.pages 0).refcount = BitVec.ofNat 32 (n + 2)
  empty : sys.state.lru.next none = none
  forth : sys.state.lru.next (some 0) = some 0
  back : sys.state.lru.prev (some 0) = some 0
  count : sys.state.count = 0

theorem ofNat_eq_one_iff : BitVec.ofNat 32 n = 1 ↔ n % 2 ^ 32 = 1 := by
  rw [eq_one_iff, toNat_ofNat]

theorem piled (low : n < 2 ^ 32) :
    ∃ es sys, Run step (start (fun _ _ => 0) zeroPages) es sys ∧ Piled sys n := by
  induction n with
  | zero =>
    have ran : (start (fun _ _ => 0) zeroPages).exec (.get 0 0 (some 0) true) = .ok _ := rfl
    have legal : (start (fun _ _ => 0) zeroPages).Legal (.get 0 0 (some 0) true) := fun _ _ => rfl
    refine ⟨_, _, Run.start.snoc ⟨legal, ran⟩, ?_⟩
    constructor <;> rfl
  | succ n ih =>
    obtain ⟨es, sys, run, h⟩ := ih (by omega)
    have used : (sys.state.pages 0).refcount ≠ 1 := by
      rw [h.refs, Ne, ofNat_eq_one_iff]
      omega
    have legal : sys.Legal (.get 0 0 none true) := nofun
    refine ⟨_, _, run.snoc ⟨legal, exec_hit h.found none true⟩, ?_⟩
    simp only [refAcquire, if_neg used]
    refine ⟨h.found, ?_, h.empty, h.forth, h.back, h.count⟩
    simp only [setPage, update_self, h.refs]
    exact (ofNat_add (n + 2) 1).symm

/-- After 2³² gets of one page its reference count is 1 again, and the next get takes the page out
of a list it is not in. -/
theorem count_wraps : ∃ es sys, Run Sys.step (Sys.start (fun _ _ => 0) zeroPages) es sys ∧
    ¬∃ q : List Nat, sys.state.lru.Ring none (q.map some) ∧ sys.state.count.toNat = q.length := by
  obtain ⟨es, sys, run, h⟩ := piled (n := 2 ^ 32 - 1) (by omega)
  have unused : (sys.state.pages 0).refcount = 1 := by
    rw [h.refs]
    exact ofNat_eq_one_iff.mpr (by decide)
  have legal : sys.Legal (.get 0 0 none true) := nofun
  refine ⟨_, _, run.snoc ⟨legal, exec_hit h.found none true⟩, ?_⟩
  simp only [refAcquire, if_pos unused, lruDel, setPage, h.count]
  rintro ⟨q, ring, length⟩
  have none_left : q.map some = [] := by
    rw [← ring.next_eq_iff]
    simp only [Links.delInit, Links.init, Links.join, h.forth, h.back, update_idem]
    exact h.empty
  rw [map_eq_nil_iff.mp none_left] at length
  exact absurd length (by decide)

instance (sys : Sys σ) (op : Op σ) : Decidable (sys.Legal op) := by
  cases op <;> unfold Sys.Legal <;> infer_instance

instance (sys : Sys σ) (op : Op σ) : Decidable (op.Within sys) := by
  cases op <;> unfold Op.Within <;> infer_instance

/-- A page is got, one sector is written, the page is put and got again. -/
theorem get_shows_seven : ∃ es sys s', Run Sys.step (Sys.start (fun _ _ => 0) zeroPages) es sys ∧
    (∀ e ∈ es, e.2.Within e.1) ∧ pageGet sys.state 0 0 none true = .ok (some 0, s') ∧ (s'.pages 0).data 3 = 7 := by
  obtain ⟨es, sys, run, within, value⟩ := exists_run_from Sys.exec Sys.Legal (start (fun _ _ => 0) zeroPages)
    [.get 0 0 (some 0) true, .write 0 3 7, .put 0] (G := fun sys op => op.Within sys)
    (g := fun sys => decide ((Op.get 0 0 none true).Within sys ∧ sys.image 0 0 3 = 7 ∧ sys.state.tree 0 0 = some 0))
    (v := true) (by decide +kernel)
  obtain ⟨met, seven, found⟩ := of_decide_eq_true value
  have ran : pageGet sys.state 0 0 none true = .ok (some 0, refAcquire sys.state 0) := by
    simp only [pageGet, found]
    rfl
  refine ⟨es, sys, _, run, within, ran, ?_⟩
  rw [(get_shows_last_write run within).1 0 0 none true 0 _ nofun met ran 3 (by decide), seven]

end Jlos.PageCache
