import Jlos.PageCache.Model

/-!
# Dirty pages

A page of the cache between its read and its eviction, with device writes that fail and files that
are mapped only in part.
-/
namespace Jlos.PageCache.Dirty

open Lib Function List

/-- What is below a page: whether its mapping has a `writepage`, where `get_block` finds the sectors
of the file, and the blocks whose writes succeed. -/
structure Below where
  writepage : Bool
  getBlock : Nat → Option Nat
  succeeds : Nat → Bool

structure Sys where
  index : Nat
  bufs : Option (Nat → Buf)
  dirty : Bool
  freed : Bool
  /-- The sectors that were marked dirty and whose data was not written since. -/
  unwritten : Nat → Bool

/-- The buffer heads, and the sectors still to be written. -/
abbrev Sectors := (Nat → Buf) × (Nat → Bool)

/-- The loop of both routines, which ends at a write that fails and passes over a sector without a
block. -/
def writeSectors (block : Nat → Buf → Option Nat) (succeeds : Nat → Bool) : List Nat → Sectors → Bool × Sectors
  | [], x => (true, x)
  | i :: rest, x =>
    if (x.1 i).dirty then
      match block i (x.1 i) with
      | none => writeSectors block succeeds rest x
      | some phys =>
        if succeeds phys then
          writeSectors block succeeds rest (update x.1 i { x.1 i with dirty := false }, update x.2 i false)
        else (false, x)
    else writeSectors block succeeds rest x

/-- The loop over the buffer heads and what is behind it. -/
def Sys.writeBufs (s : Sys) (b : Nat → Buf) (block : Nat → Buf → Option Nat) (succeeds : Nat → Bool) : Bool × Sys :=
  let (ok, bufs, unwritten) := writeSectors block succeeds (List.range pageSectors) (b, s.unwritten)
  (ok, { s with bufs := some bufs, unwritten, dirty := s.dirty && !ok })

def pageWriteBlock (s : Sys) (below : Below) : Bool × Sys :=
  match s.bufs with
  | some b => s.writeBufs b (fun _ bh => some bh.blocknr) below.succeeds
  | none =>
    if below.succeeds (startSector s.index) then (true, { s with dirty := false, unwritten := fun _ => false })
    else (false, s)

def blockWriteFullPage (s : Sys) (below : Below) : Bool × Sys :=
  match s.bufs with
  | some b => s.writeBufs b (fun i _ => below.getBlock (startSector s.index + i)) below.succeeds
  | none => (false, s)

def pageWriteback (s : Sys) (below : Below) : Bool × Sys :=
  if s.dirty then if below.writepage then blockWriteFullPage s below else pageWriteBlock s below else (true, s)

inductive Op
  /-- `jlos_fs_page_dirty` -/
  | dirty
  /-- `jlos_fs_page_bh_dirty` -/
  | bhDirty (j : Nat)
  /-- `jlos_fs_page_cache_sync_all`, which ignores the result of the writeback -/
  | sync (below : Below)
  /-- A round of `jlos_fs_page_cache_shrink`, which ignores it too -/
  | shrink (below : Below)

def exec (s : Sys) : Op → Sys
  | .dirty => { s with
      dirty := true
      bufs := s.bufs.map fun b i => if i < pageSectors then { b i with dirty := true } else b i
      unwritten := fun i => i < pageSectors }
  | .bhDirty j =>
    match s.bufs with
    | none => s
    | some b =>
      if j ≥ pageSectors then s
      else { s with
        dirty := true
        bufs := some (update b j { b j with dirty := true })
        unwritten := update s.unwritten j true }
  | .sync below => (pageWriteback s below).2
  | .shrink below => { (pageWriteback s below).2 with freed := true }

def step (s : Sys) (op : Op) (s' : Sys) : Prop := s.freed = false ∧ exec s op = s'

/-- A page as `jlos_fs_page_get` has read it. -/
def start (index : Nat) (blocks : Nat → Nat) : Sys :=
  ⟨index, some fun i => ⟨blocks i, false⟩, false, false, fun _ => false⟩

/-- A page with a sector that is still to be written is neither freed nor marked clean. -/
def Written (s : Sys) : Prop := ∀ i, s.unwritten i = true → s.freed = false ∧ s.dirty = true

/-- Every dirty sector has a block. -/
def Mapped (s : Sys) (below : Below) : Prop := below.writepage = true → ∀ b ∈ s.bufs, ∀ i ∈ List.range pageSectors,
  (b i).dirty = true → (below.getBlock (startSector s.index + i)).isSome

/-- Where a writeback puts a sector. -/
def Below.block (below : Below) (s : Sys) (i : Nat) (bh : Buf) : Option Nat :=
  if below.writepage then below.getBlock (startSector s.index + i) else some bh.blocknr

/-- The device takes the dirty sectors of a dirty page. -/
def Taken (s : Sys) (below : Below) : Prop := s.dirty = true → match s.bufs with
  | some b => ∀ i ∈ List.range pageSectors, (b i).dirty = true →
      ∀ phys ∈ below.block s i (b i), below.succeeds phys = true
  | none => below.writepage = false ∧ below.succeeds (startSector s.index) = true

/-- Writebacks find all dirty sectors mapped, and the device takes those of a page that is
evicted. -/
def Meets (s : Sys) : Op → Prop
  | .dirty | .bhDirty _ => True
  | .sync below => Mapped s below
  | .shrink below => Mapped s below ∧ Taken s below

/-- The flags tell which sectors are still to be written. -/
def Tracked (s : Sys) : Prop := ∀ i, s.unwritten i = true →
  i < pageSectors ∧ s.freed = false ∧ s.dirty = true ∧ ∀ b ∈ s.bufs, (b i).dirty = true

/-- If the loop comes to its end, the sectors it went through are written. -/
private theorem writeSectors_spec {block : Nat → Buf → Option Nat} {succeeds : Nat → Bool} {l : List Nat}
    {x : Sectors} (mapped : ∀ i ∈ l, (x.1 i).dirty = true → (block i (x.1 i)).isSome)
    (tracked : ∀ i, x.2 i = true → (x.1 i).dirty = true) {r : Bool × Sectors}
    (eq : writeSectors block succeeds l x = r) :
    (∀ i, r.2.2 i = true → x.2 i = true ∧ (r.2.1 i).dirty = true) ∧ (r.1 = true → ∀ i ∈ l, ¬r.2.2 i = true) := by
  induction l generalizing x with
  | nil =>
    subst eq
    exact ⟨fun i left => ⟨left, tracked i left⟩, fun _ => nofun⟩
  | cons i rest ih =>
    rw [forall_mem_cons] at mapped ⊢
    unfold writeSectors at eq
    split at eq
    next dirty =>
      obtain ⟨phys, found⟩ := Option.isSome_iff_exists.mp (mapped.1 dirty)
      simp only [found] at eq
      split at eq
      next =>
        obtain ⟨kept, done⟩ := ih (fun j mem => by by_cases here : j = i <;> simp_all)
          (fun j => by by_cases here : j = i <;> simp_all) eq
        refine ⟨fun j left => ⟨?_, (kept j left).2⟩, fun ends => ⟨fun left => ?_, done ends⟩⟩
        · have before := (kept j left).1
          by_cases here : j = i <;> simp_all
        · simpa using (kept i left).1
      next =>
        subst eq
        exact ⟨fun i left => ⟨left, tracked i left⟩, nofun⟩
    next clean =>
      obtain ⟨kept, done⟩ := ih mapped.2 tracked eq
      exact ⟨kept, fun ends => ⟨fun left => clean (tracked i (kept i left).1), done ends⟩⟩

/-- The loop comes to its end if no write of a dirty sector fails. -/
private theorem writeSectors_ends {block : Nat → Buf → Option Nat} {succeeds : Nat → Bool} {l : List Nat} {x : Sectors}
    (taken : ∀ i ∈ l, (x.1 i).dirty = true → ∀ phys ∈ block i (x.1 i), succeeds phys = true) :
    (writeSectors block succeeds l x).1 = true := by
  induction l generalizing x with
  | nil => rfl
  | cons i rest ih =>
    rw [forall_mem_cons] at taken
    unfold writeSectors
    split
    next dirty =>
      split
      next => exact ih taken.2
      next phys found =>
        rw [if_pos (taken.1 dirty phys found)]
        -- The flag of the sector is gone, so the rest of the loop does not come back to it.
        refine ih fun j mem => ?_
        by_cases here : j = i
        · simp [here]
        · simpa [here] using taken.2 j mem
    next => exact ih taken.2

section

variable {s s' : Sys} {below : Below} {r : Bool × Sys}

private theorem Sys.writeBufs_fst {b : Nat → Buf} {block : Nat → Buf → Option Nat} {succeeds : Nat → Bool} :
    (s.writeBufs b block succeeds).1 =
      (writeSectors block succeeds (List.range pageSectors) (b, s.unwritten)).1 := rfl

theorem Taken.pageWriteback (taken : Taken s below) : (pageWriteback s below).1 = true := by
  unfold Dirty.pageWriteback blockWriteFullPage pageWriteBlock
  split
  next dirty =>
    have taken := taken dirty
    split
    next hook =>
      simp only [Below.block, if_pos hook] at taken
      split
      next b found =>
        simp only [found] at taken
        rw [Sys.writeBufs_fst]
        exact writeSectors_ends taken
      next found => simp [found, hook] at taken
    next hook =>
      simp only [Below.block, if_neg hook] at taken
      split
      next b found =>
        simp only [found] at taken
        rw [Sys.writeBufs_fst]
        exact writeSectors_ends taken
      next found => simp_all
  next => rfl

theorem Tracked.writeBufs {block : Nat → Buf → Option Nat} {b : Nat → Buf} (tracked : Tracked s) (found : b ∈ s.bufs)
    (dirty : s.dirty = true) (mapped : ∀ i ∈ List.range pageSectors, (b i).dirty = true → (block i (b i)).isSome)
    (eq : s.writeBufs b block below.succeeds = r) : Tracked r.2 ∧ (r.1 = true → ∀ i, ¬r.2.unwritten i = true) := by
  subst eq
  obtain ⟨kept, done⟩ := writeSectors_spec (x := (b, s.unwritten)) mapped
    (fun i left => (tracked i left).2.2.2 b found) rfl
  have fails (i : Nat) (left : (s.writeBufs b block below.succeeds).2.unwritten i = true) :
      ¬(s.writeBufs b block below.succeeds).1 = true := fun ends =>
    done ends i (mem_range.mpr (tracked i (kept i left).1).1) left
  refine ⟨fun i left => ?_, fun ends i left => fails i left ends⟩
  obtain ⟨before, flag⟩ := kept i left
  obtain ⟨lt, here, -⟩ := tracked i before
  refine ⟨lt, here, ?_, by rintro _ ⟨⟩; exact flag⟩
  exact congrArg₂ (fun d ok => d && !ok) dirty (Bool.eq_false_iff.mpr (fails i left))

/-- A writeback that succeeds leaves nothing to be written. -/
theorem Tracked.pageWriteback (tracked : Tracked s) (mapped : Mapped s below) (eq : pageWriteback s below = r) :
    Tracked r.2 ∧ (r.1 = true → ∀ i, ¬r.2.unwritten i = true) := by
  unfold Dirty.pageWriteback at eq
  split at eq
  next dirty =>
    unfold blockWriteFullPage pageWriteBlock at eq
    split at eq
    next hook =>
      split at eq
      next b found => exact tracked.writeBufs found dirty (mapped hook b found) eq
      next => exact eq ▸ ⟨tracked, nofun⟩
    next =>
      split at eq
      next b found => exact tracked.writeBufs found dirty (fun _ _ _ => rfl) eq
      next =>
        split at eq
        · exact eq ▸ ⟨nofun, fun _ _ => nofun⟩
        · exact eq ▸ ⟨tracked, nofun⟩
  next clean => exact eq ▸ ⟨tracked, fun _ i left => clean (tracked i left).2.2.1⟩

theorem Tracked.step {op : Op} (tracked : Tracked s) (meets : Meets s op) (taken : step s op s') : Tracked s' := by
  obtain ⟨here, rfl⟩ := taken
  cases op with
  | dirty =>
    intro i marked
    have lt : i < pageSectors := by simpa [exec] using marked
    exact ⟨lt, here, rfl, by simp [exec, lt]⟩
  | bhDirty j =>
    simp only [exec]
    split
    next => exact tracked
    next b found =>
      split
      next => exact tracked
      next lt =>
        intro i marked
        by_cases same : i = j
        · subst same
          exact ⟨Nat.lt_of_not_le lt, here, rfl, by simp⟩
        · have := tracked i (by simpa [same] using marked)
          simp_all
  | sync below => exact (tracked.pageWriteback meets rfl).1
  | shrink below => exact fun i left => absurd left ((tracked.pageWriteback meets.1 rfl).2 meets.2.pageWriteback i)

end

/-- In every run in which the writebacks find their dirty sectors mapped and no eviction fails to
write its page, a page is freed or marked clean only when the data of all its dirty sectors has been
written. -/
theorem written_before_clean {index : Nat} {blocks : Nat → Nat} {es : List (Sys × Op)} {s : Sys}
    (run : Run step (start index blocks) es s) (meets : ∀ e ∈ es, Meets e.1 e.2) :
    Written s ∧ ∀ e ∈ es, Written e.1 := by
  have written (s : Sys) (tracked : Tracked s) : Written s := fun i left =>
    ⟨(tracked i left).2.1, (tracked i left).2.2.1⟩
  have first : Tracked (start index blocks) := nofun
  obtain ⟨last, before⟩ := Run.invariant_of_guard first (fun _ _ _ => Tracked.step) run meets
  exact ⟨written s last, fun e mem => written e.1 (before e mem)⟩

/-- A sector is marked dirty and written when its page is evicted. -/
theorem written_then_freed : ∃ es s, Run step (start 0 id) es s ∧ s.freed = true ∧
    es.map Prod.snd = [.bhDirty 1, .shrink ⟨true, some, fun _ => true⟩] ∧ Written s := by
  have run : Run step (start 0 id) _ _ := Run.start.snoc (a := .bhDirty 1) ⟨rfl, rfl⟩
  have run := run.snoc (a := .shrink ⟨true, some, fun _ => true⟩) ⟨rfl, rfl⟩
  refine ⟨_, _, run, rfl, rfl, (written_before_clean run ?_).1⟩
  simp only [nil_append, cons_append, forall_mem_cons]
  exact ⟨trivial, ⟨fun _ _ _ _ _ _ => rfl, fun _ _ _ _ _ _ => rfl⟩, nofun⟩

/-- A dirty sector without a block: the page is marked clean. A write that fails: the page is
freed. -/
theorem dirty_sectors_dropped : (∃ es s, Run step (start 0 id) es s ∧
      es.map Prod.snd = [.bhDirty 1, .sync ⟨true, fun _ => none, fun _ => true⟩] ∧ ¬Written s) ∧
    ∃ es s, Run step (start 0 id) es s ∧
      es.map Prod.snd = [.bhDirty 1, .shrink ⟨true, some, fun _ => false⟩] ∧ ¬Written s := by
  refine ⟨⟨_, _, (Run.start.snoc ⟨rfl, rfl⟩).snoc ⟨rfl, rfl⟩, rfl, fun written => ?_⟩,
    _, _, (Run.start.snoc ⟨rfl, rfl⟩).snoc ⟨rfl, rfl⟩, rfl, fun written => ?_⟩
  · exact absurd (written 1 rfl).2 (by decide)
  · exact absurd (written 1 rfl).1 (by decide)

end Jlos.PageCache.Dirty
