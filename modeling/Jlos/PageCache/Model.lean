import Jlos.Lib.Ring
import Jlos.Lib.Run

/-!
# The page cache of block devices

A shallow embedding of `fs/page_cache.c` and `dsa/list_lru.h` for mappings without hooks. A page is
known by the number of its frame, and its `refcount` is the one of the frame: the cache itself holds
one reference. The page trees are finite maps, each mapping has a device of its own, and reads and
writes of devices succeed. The contents of a sector are left open.
-/
namespace Jlos.PageCache

open Lib Function List BitVec

def pageSectors : Nat := 8

def cacheMax : Nat := 512

inductive Fault
  /-- `jlos_page_frame_refcount_dec` halts on a frame without references. -/
  | doubleFree
  /-- The eviction loop does not end within the given number of rounds. -/
  | endless
  deriving DecidableEq, Repr

abbrev M := Except Fault

/-! ### Counters -/

variable {x : BitVec 32} {q : List Nat}

theorem pred_toNat {n : Nat} (eq : x.toNat = n + 1) : (x - 1).toNat = n := by
  rw [toNat_sub, show (1 : BitVec 32).toNat = 1 from rfl]
  omega

theorem succ_toNat (below : x.toNat + 1 < 2 ^ 32) : (x + 1).toNat = x.toNat + 1 := by
  rw [toNat_add, show (1 : BitVec 32).toNat = 1 from rfl]
  omega

theorem eq_one_iff : x = 1 ↔ x.toNat = 1 := by
  rw [← toNat_inj]
  rfl

/-! ### Pages and buffers -/

/-- `jlos_fs_buffer_head_t` -/
structure Buf where
  blocknr : Nat
  dirty : Bool
  deriving DecidableEq, Repr

variable {σ : Type}

structure Page (σ : Type) where
  mapping : Nat
  index : Nat
  refcount : BitVec 32
  bufs : Option (Nat → Buf)
  /-- `JLOS_FS_PAGE_DIRTY` -/
  dirty : Bool
  /-- The sectors of the page. -/
  data : Nat → σ

structure State (σ : Type) where
  pages : Nat → Page σ
  /-- `page_tree` of each mapping -/
  tree : Nat → Nat → Option Nat
  /-- The list of `s_page_lru`; its head is none, and the `lru` node of a page is the page. -/
  lru : Links (Option Nat)
  count : BitVec 32
  /-- The sectors of the device of each mapping. -/
  disk : Nat → Nat → σ

namespace State

def setPage (s : State σ) (p : Nat) (x : Page σ) : State σ := { s with pages := update s.pages p x }

def setTree (s : State σ) (m i : Nat) (x : Option Nat) : State σ :=
  { s with tree := update s.tree m (update (s.tree m) i x) }

theorem tree_setTree (s : State σ) (m i : Nat) (x : Option Nat) (m' i' : Nat) :
    (s.setTree m i x).tree m' i' = if m' = m ∧ i' = i then x else s.tree m' i' := by
  simp only [setTree, update_apply]
  by_cases same : m' = m
  · simp [same, update_apply]
  · simp [same]

def setSector (s : State σ) (m b : Nat) (x : σ) : State σ :=
  { s with disk := update s.disk m (update (s.disk m) b x) }

end State

/-! ### The list of unused pages -/

def lruAddTail (s : State σ) (p : Nat) : State σ := { s with lru := s.lru.addTail (some p) none, count := s.count + 1 }

def lruDel (s : State σ) (p : Nat) : State σ := { s with lru := s.lru.delInit (some p), count := s.count - 1 }

def lruEvict (s : State σ) : Option Nat × State σ :=
  match s.lru.next none with
  | none => (none, s)
  | some v => (some v, lruDel s v)

/-! ### References and contents -/

/-- `page_alloc`, with the frame that `jlos_page_frame_malloc` returns. -/
def pageAlloc (s : State σ) (m i : Nat) (frame : Option Nat) : Option Nat × State σ :=
  match frame with
  | none => (none, s)
  | some p =>
    let page := { s.pages p with mapping := m, index := i, refcount := 1, bufs := none, dirty := false }
    (some p, { s.setPage p page with lru := s.lru.init (some p) })

/-- `page_free`; the frame is free when its last reference goes. -/
def pageFree (s : State σ) (p : Nat) : M (State σ) :=
  let page := s.pages p
  if page.refcount = 0 then .error .doubleFree
  else pure (s.setPage p { page with bufs := none, refcount := page.refcount - 1 })

def refAcquire (s : State σ) (p : Nat) : State σ :=
  let s := if (s.pages p).refcount = 1 then lruDel s p else s
  s.setPage p { s.pages p with refcount := (s.pages p).refcount + 1 }

def startSector (i : Nat) : Nat := i * pageSectors % 2 ^ 64

/-- `page_read_block`; `bufs` tells whether there is memory for the buffer heads. -/
def readBlock (s : State σ) (p : Nat) (bufs : Bool) : Bool × State σ :=
  let page := s.pages p
  let start := startSector page.index
  let page := { page with
    data := fun j => if j < pageSectors then s.disk page.mapping (start + j) else page.data j }
  if bufs then (true, s.setPage p { page with bufs := some fun j => ⟨start + j, false⟩ })
  else (false, s.setPage p page)

/-- One round of the loop of `page_write_block`. -/
def writeSector (p : Nat) (s : State σ) (j : Nat) : State σ :=
  let page := s.pages p
  match page.bufs with
  | none => s
  | some b =>
    if (b j).dirty then
      (s.setSector page.mapping (b j).blocknr (page.data j)).setPage p
        { page with bufs := some (update b j { b j with dirty := false }) }
    else s

def writeBlock (s : State σ) (p : Nat) : State σ :=
  let page := s.pages p
  let s := match page.bufs with
    | some _ => (List.range pageSectors).foldl (writeSector p) s
    | none => (List.range pageSectors).foldl
      (fun s j => s.setSector page.mapping (startSector page.index + j) (page.data j)) s
  s.setPage p { s.pages p with dirty := false }

def writeback (s : State σ) (p : Nat) : State σ := if (s.pages p).dirty then writeBlock s p else s

def pageDirty (s : State σ) (p : Nat) : State σ :=
  let page := s.pages p
  s.setPage p { page with
    dirty := true
    bufs := page.bufs.map fun b j => if j < pageSectors then { b j with dirty := true } else b j }

def pageBhDirty (s : State σ) (p j : Nat) : State σ :=
  let page := s.pages p
  match page.bufs with
  | none => s
  | some b =>
    if j ≥ pageSectors then s
    else s.setPage p { page with dirty := true, bufs := some (update b j { b j with dirty := true }) }

/-! ### The critical sections -/

/-- The last section of `jlos_fs_page_get`: puts the page into the tree unless there is one. -/
def insertSection (s : State σ) (m i p : Nat) : Option Nat × State σ :=
  match s.tree m i with
  | some existing => (some existing, s)
  | none => (none, s.setTree m i (some p))

/-- The section of `jlos_fs_page_put`, and whether the cache is to be shrunk. -/
def putSection (s : State σ) (p : Nat) : Bool × State σ :=
  let s := s.setPage p { s.pages p with refcount := (s.pages p).refcount - 1 }
  if (s.pages p).refcount = 1 then
    let s := lruAddTail s p
    (cacheMax < s.count.toNat, s)
  else (false, s)

/-- The first section of a round of `jlos_fs_page_cache_shrink`. -/
def evictSection (s : State σ) : Option Nat × State σ := if cacheMax < s.count.toNat then lruEvict s else (none, s)

/-- The second section of a round of `jlos_fs_page_cache_shrink`. -/
def removeSection (s : State σ) (v : Nat) : State σ := s.setTree (s.pages v).mapping (s.pages v).index none

/-! ### The list under the sections -/

variable {s : State σ}

/-- `page_ref_acquire` of a page that is in the list exactly if its count says so. -/
theorem refAcquire_list {p : Nat} (ring : s.lru.Ring none (q.map some)) (listed : (s.pages p).refcount = 1 ↔ p ∈ q) :
    ∃ (q' : List Nat) (lru : Links (Option Nat)) (count : BitVec 32), refAcquire s p =
    { s.setPage p { s.pages p with refcount := (s.pages p).refcount + 1 } with
        lru := lru, count := count } ∧
      lru.Ring none (q'.map some) ∧ (∀ v, v ∈ q' ↔ v ≠ p ∧ v ∈ q) ∧ q'.length ≤ q.length ∧
      (s.count.toNat = q.length → count.toNat = q'.length) := by
  by_cases unused : (s.pages p).refcount = 1
  · obtain ⟨front, back, split⟩ := append_of_mem (listed.mp unused)
    rw [split, map_append, map_cons] at ring
    have apart : p ∉ front ∧ p ∉ back := by
      have nodup := (nodup_cons.mp ring.nodup).2
      rw [← map_cons, ← map_append] at nodup
      have nodup := List.Nodup.of_map _ nodup
      rw [nodup_append, nodup_cons] at nodup
      exact ⟨fun mem => nodup.2.2 p mem p mem_cons_self rfl, nodup.2.1.1⟩
    have length : q.length = (front ++ back).length + 1 := by
      rw [split, length_append, length_append, length_cons]
      omega
    refine ⟨front ++ back, s.lru.delInit (some p), s.count - 1, ?_, ?_, fun v => ?_, ?_, fun count => ?_⟩
    · simp only [refAcquire, if_pos unused]
      rfl
    · rw [map_append]
      exact ring.delInit
    · rw [split]
      obtain rfl | here := eq_or_ne v p
      · simp [apart.1, apart.2]
      · simp [here]
    · omega
    · exact pred_toNat (count.trans length)
  · refine ⟨q, s.lru, s.count, ?_, ring, fun v => ?_, Nat.le_refl _, id⟩
    · simp only [refAcquire, if_neg unused]
      rfl
    · refine ⟨fun mem => ⟨?_, mem⟩, And.right⟩
      rintro rfl
      exact unused (listed.mpr mem)

theorem lruAddTail_list {p : Nat} (ring : s.lru.Ring none (q.map some)) (out : p ∉ q) :
    (lruAddTail s p).lru.Ring none ((q ++ [p]).map some) := by
  rw [map_append]
  refine ring.addTail fun mem => ?_
  rcases mem_cons.mp mem with head | inside
  · cases head
  · obtain ⟨v, member, eq⟩ := mem_map.mp inside
    cases eq
    exact out member

theorem ring_init {lru : Links (Option Nat)} (ring : lru.Ring none (q.map some)) {p : Nat} (out : p ∉ q) :
    (lru.init (some p)).Ring none (q.map some) := by
  have off : ∀ z ∈ none :: q.map some, z ≠ some p := by
    intro z mem same
    rcases mem_cons.mp mem with head | inside
    · exact absurd (head.symm.trans same) nofun
    · obtain ⟨v, member, eq⟩ := mem_map.mp inside
      cases eq.trans same
      exact out member
  apply ring.congr
  · exact fun z mem => update_of_ne (off z mem) ..
  · exact fun z mem => update_of_ne (off z mem) ..

theorem lruEvict_first {v : Nat} {rest : List Nat} (ring : s.lru.Ring none ((v :: rest).map some)) :
    lruEvict s = (some v, lruDel s v) := by
  rw [lruEvict, ring.first]

theorem refcount_succ {r : BitVec 32} {k : Nat} (refs : r.toNat = 1 + k) (room : r ≠ BitVec.allOnes 32) :
    (r + 1).toNat = 1 + (k + 1) := by
  have ne : r.toNat ≠ 2 ^ 32 - 1 := by
    intro full
    exact room (eq_of_toNat_eq (by rw [full, toNat_allOnes]))
  rw [succ_toNat (by omega), refs]
  omega

/-! ### The calls, one at a time -/

/-- The first half of a `jlos_fs_page_get` that has found no page: a new page that nobody else
knows. -/
def fill (s : State σ) (m i : Nat) (frame : Option Nat) (bufs : Bool) : M (Option Nat × State σ) :=
  match pageAlloc s m i frame with
  | (none, s) => pure (none, s)
  | (some p, s) =>
    match readBlock s p bufs with
    | (false, s) => do
      let s ← pageFree s p
      pure (none, s)
    | (true, s) => pure (some p, s.setPage p { s.pages p with refcount := (s.pages p).refcount + 1 })

def deviceData (s : State σ) (m i p j : Nat) : σ :=
  if j < pageSectors then s.disk m (startSector i + j) else (s.pages p).data j

/-- A page that has been read, with the reference of the cache and the one of the caller. -/
def filledPage (s : State σ) (m i p : Nat) : Page σ :=
  ⟨m, i, 2, some fun j => ⟨startSector i + j, false⟩, false, deviceData s m i p⟩

theorem fill_some (s : State σ) (m i p : Nat) : fill s m i (some p) true =
    .ok (some p, { s.setPage p (filledPage s m i p) with lru := s.lru.init (some p) }) := by
  simp only [fill, pageAlloc, readBlock, State.setPage, update_self, update_idem, if_true]
  rfl

theorem fill_fails (s : State σ) (m i p : Nat) : fill s m i (some p) false =
    .ok (none, { s.setPage p ⟨m, i, 0, none, false, deviceData s m i p⟩ with lru := s.lru.init (some p) }) := by
  simp only [fill, pageAlloc, readBlock, pageFree, State.setPage, update_self, update_idem,
    Bool.false_eq_true, if_false]
  rfl

def pageGet (s : State σ) (m i : Nat) (frame : Option Nat) (bufs : Bool) : M (Option Nat × State σ) :=
  match s.tree m i with
  | some p => pure (some p, refAcquire s p)
  | none => do
    let (new, s) ← fill s m i frame bufs
    match new with
    | none => pure (none, s)
    | some p =>
      match insertSection s m i p with
      | (none, s) => pure (some p, s)
      | (some existing, s) => do
        let s := s.setPage p { s.pages p with refcount := (s.pages p).refcount - 1 }
        let s ← pageFree s p
        pure (some existing, refAcquire s existing)

/-- `jlos_fs_page_cache_shrink`, for a number of rounds. -/
def cacheShrink : Nat → State σ → M (State σ)
  | 0, _ => .error .endless
  | n + 1, s =>
    match evictSection s with
    | (none, s) => pure s
    | (some v, s) => do
      let s ← pageFree (removeSection (writeback s v) v) v
      cacheShrink n s

/-- `jlos_fs_page_put`; there are no more rounds than pages in the list. -/
def pagePut (s : State σ) (p : Nat) : M (State σ) :=
  match putSection s p with
  | (false, s) => pure s
  | (true, s) => cacheShrink (s.count.toNat + 1) s

end Jlos.PageCache
