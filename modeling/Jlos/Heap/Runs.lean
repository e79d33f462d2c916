import Jlos.Heap.Free
import Jlos.Lib.Run

/-!
# The heap and its clients

Whole calls of `malloc` and `free`, one at a time, as steps of a system that records the
pointers its clients hold.
-/
namespace Jlos.Heap

open Lib List

/-! ### Well-formed heaps -/

/-- The chunks tile the heap, free neighbours are joined, the class lists hold exactly
the free chunks, each in the class of its size, and the bitmap has a bit for every non-empty
list. -/
structure WellFormed (m : Machine) (s : State) : Prop where
  tiles : Tiles Chunk.addr (extent m) s.heapStart s.chunks s.heapCurrent
  tail : s.tail = s.chunks.getLast?.map Chunk.addr
  coalesced : Coalesced s.chunks
  free : ∀ c ∈ s.chunks, c.allocated = false →
    ∀ cls : Nat, c.addr ∈ s.classes.heads cls ↔ mmSizeToClass m c.size s.maxClass = cls
  allocated : ∀ c ∈ s.chunks, c.allocated = true → ∀ cls, c.addr ∉ s.classes.heads cls
  chunks : ∀ cls, ∀ addr ∈ s.classes.heads cls, ∃ c ∈ s.chunks, c.addr = addr
  once : ∀ cls, (s.classes.heads cls).Nodup
  bitmap : ∀ cls, s.classes.bitmap.getLsbD cls = true ↔ s.classes.heads cls ≠ []

variable {m : Machine} {s s' : State} {c : Chunk} {ptr : Nat}

theorem Core.placement_mem (h : Core m s) (member : c ∈ s.chunks) : placement m s.maxClass s.chunks c.addr =
      if c.allocated then none else some (classNat m s.maxClass c.size) := by
  obtain ⟨pre, post, split⟩ := append_of_mem member
  have found := Keyed.lookup_split (split ▸ h.distinct)
  simp [placement, split, found]

theorem Inv.wellFormed (h : Inv m s) : WellFormed m s where
  tiles := h.tiles
  tail := h.tail
  coalesced := h.coalesced
  free c member free cls := by
    obtain ⟨k, eq, -⟩ := mmSizeToClass_lt m (h.size_le member) h.classes
    rw [h.lists.mem, h.placement_mem member, free, eq]
    simp [classNat, eq]
  allocated c member allocated cls listed := by
    rw [h.lists.mem, h.placement_mem member, allocated] at listed
    cases listed
  chunks cls addr listed := by
    obtain ⟨c, member, eq, -⟩ := placement_some ((h.lists.mem cls addr).mp listed)
    exact ⟨c, member, eq⟩
  once := h.lists.nodup
  bitmap := h.lists.bit

/-! ### The system -/

/-- The heap and the pointers its clients hold, each with the size they asked for. -/
structure Sys where
  heap : State
  live : List (Nat × Nat)

inductive Op
  | malloc (size : Nat) (env : Env)
  | free (ptr : Nat)
  deriving DecidableEq

namespace Sys

variable (m : Machine)

/-- `malloc` with its result. -/
def malloc (sys : Sys) (size : Nat) (env : Env) : M (Option Nat × Sys) := do
  let (result, heap) ← Heap.malloc m sys.heap size env
  pure (result, match result with
    | none => { sys with heap := heap }
    | some ptr => ⟨heap, (ptr, size) :: sys.live⟩)

def exec (sys : Sys) : Op → M Sys
  | .malloc size env => do
    let (_, sys) ← sys.malloc m size env
    pure sys
  | .free ptr => do
    let heap ← free m sys.heap ptr
    pure ⟨heap, sys.live.filter fun a => a.1 ≠ ptr⟩

/-- A call a client may make: it frees pointers it holds. What an expansion answers keeps the
promises of the callees. -/
def Legal (sys : Sys) : Op → Prop
  | .malloc size env => env.Sound m sys.heap size
  | .free ptr => ptr ∈ sys.live.map Prod.fst

instance (sys : Sys) (op : Op) : Decidable (sys.Legal m op) := by
  cases op <;> unfold Legal <;> infer_instance

def step (sys : Sys) (op : Op) (sys' : Sys) : Prop := sys.Legal m op ∧ sys.exec m op = .ok sys'

end Sys

def Op.Fits (m : Machine) : Op → Prop
  | .malloc size _ => Heap.Fits m size
  | .free _ => True

instance (op : Op) : Decidable (op.Fits m) := by
  cases op <;> unfold Op.Fits <;> infer_instance

/-- The clients hold exactly the pointers behind the headers of allocated chunks. -/
structure SysInv (m : Machine) (sys : Sys) : Prop where
  inv : Inv m sys.heap
  live : (sys.live.map Prod.fst).Perm ((allocs sys.heap.chunks).map fun c => c.addr + m.arch.chunkHeader)

variable {sys : Sys} {size : Nat}

theorem Expanded.allocs {pages : Nat} {pre : List Chunk} (expanded : Expanded m s pages pre c) :
    allocs s.chunks = allocs pre := by
  rcases expanded with ⟨old, chunks, free, -⟩ | ⟨-, rfl, -⟩
  · simp [chunks, allocs_cons, free]
  · rfl

theorem Offered.allocs {pre post : List Chunk} (free : c.allocated = false)
    (offered : Offered m s size pre c post) : allocs s.chunks = allocs pre ++ allocs post := by
  unfold Offered at offered
  split at offered
  · simp [offered.1, allocs_cons, free]
  next =>
    obtain ⟨-, expanded, rfl⟩ := offered
    simp [expanded.allocs]

/-- The chunks `malloc` leaves: one more is allocated. -/
theorem allocs_taken (m : Machine) (pre : List Chunk) (c : Chunk) (size : Nat) (post : List Chunk) :
    allocs (pre ++ taken m c size :: (remainder m c size ++ post)) = allocs pre ++ taken m c size :: allocs post := by
  have rest : allocs (remainder m c size) = [] := by
    unfold remainder
    split <;> rfl
  simp only [allocs_append, allocs_cons, rest, nil_append]
  rfl

theorem Core.pointers_nodup (h : Core m s) : ((allocs s.chunks).map fun c => c.addr + m.arch.chunkHeader).Nodup := by
  have sublist : ((allocs s.chunks).map Chunk.addr).Nodup :=
    (List.Sublist.map Chunk.addr filter_sublist).nodup h.distinct
  have shifted := sublist.map (f := fun addr => addr + m.arch.chunkHeader) fun _ _ => Nat.add_right_cancel
  rwa [map_map] at shifted

section

variable (h : SysInv m sys) {l₁ l₂ : List Chunk}
include h

theorem SysInv.allocate (inv : Inv m s')
    (old : allocs sys.heap.chunks = l₁ ++ l₂) (new : allocs s'.chunks = l₁ ++ c :: l₂) (size : Nat) :
    SysInv m ⟨s', (c.addr + m.arch.chunkHeader, size) :: sys.live⟩ := by
  refine ⟨inv, ?_⟩
  have live := h.live
  rw [old, map_append] at live
  simp only [new, map_append, map_cons]
  exact (List.Perm.cons _ live).trans perm_middle.symm

theorem SysInv.release (inv : Inv m s')
    (old : allocs sys.heap.chunks = l₁ ++ c :: l₂) (new : allocs s'.chunks = l₁ ++ l₂) :
    SysInv m ⟨s', sys.live.filter fun a => a.1 ≠ c.addr + m.arch.chunkHeader⟩ := by
  refine ⟨inv, ?_⟩
  have live := h.live.filter fun ptr => decide (ptr ≠ c.addr + m.arch.chunkHeader)
  have addresses := h.inv.pointers_nodup
  rw [old] at live addresses
  have removed : (l₁ ++ c :: l₂).filter (fun d =>
      decide (d.addr + m.arch.chunkHeader ≠ c.addr + m.arch.chunkHeader)) = l₁ ++ l₂ :=
    Keyed.remove_split addresses
  rw [filter_map, filter_map] at live
  rw [new, ← removed]
  exact live

theorem SysInv.held (held : ptr ∈ sys.live.map Prod.fst) :
    ∃ c ∈ sys.heap.chunks, c.allocated = true ∧ ptr = c.addr + m.arch.chunkHeader := by
  obtain ⟨c, member, rfl⟩ := mem_map.mp (h.live.subset held)
  obtain ⟨inChunks, allocated⟩ := mem_filter.mp member
  exact ⟨c, inChunks, allocated, rfl⟩

theorem SysInv.malloc {env : Env} (fits : Fits m size) (sound : env.Sound m sys.heap size) :
    ∃ result sys', sys.malloc m size env = .ok (result, sys') ∧ SysInv m sys' ∧
      sys'.heap.heapStart = sys.heap.heapStart ∧
      (result = none ∧ sys' = sys ∨ ∃ ptr, result = some ptr ∧ sys'.live = (ptr, size) :: sys.live) := by
  rcases h.inv.malloc fits sound with eq | ⟨pre, c, post, s', eq, offered, free, inv, chunks, start⟩
  · refine ⟨none, sys, ?_, h, rfl, Or.inl ⟨rfl, rfl⟩⟩
    simp [Sys.malloc, eq]
  · refine ⟨_, _, ?_, h.allocate inv (offered.allocs free) (chunks ▸ allocs_taken m pre c _ post) size, start,
      Or.inr ⟨_, rfl, rfl⟩⟩
    simp only [Sys.malloc, eq, ok_bind]
    rfl

theorem SysInv.free (held : ptr ∈ sys.live.map Prod.fst) :
    ∃ s', sys.exec m (.free ptr) = .ok ⟨s', sys.live.filter fun a => a.1 ≠ ptr⟩ ∧
      SysInv m ⟨s', sys.live.filter fun a => a.1 ≠ ptr⟩ ∧ s'.heapStart = sys.heap.heapStart := by
  obtain ⟨c, member, allocated, rfl⟩ := h.held held
  obtain ⟨pre, post, split⟩ := append_of_mem member
  obtain ⟨s', eq, inv, gone, start, -⟩ := h.inv.free split allocated
  refine ⟨s', ?_, h.release inv (c := c) (by simp [split, allocs_cons, allocated]) gone, start⟩
  simp [Sys.exec, eq]

theorem SysInv.exec {op : Op} (legal : sys.Legal m op) (fits : op.Fits m) :
    ∃ sys', sys.exec m op = .ok sys' ∧ SysInv m sys' := by
  cases op with
  | malloc size env =>
    obtain ⟨result, sys', eq, inv, -⟩ := h.malloc fits legal
    refine ⟨sys', ?_, inv⟩
    simp [Sys.exec, eq]
  | free ptr =>
    obtain ⟨s', eq, inv, -⟩ := h.free legal
    exact ⟨_, eq, inv⟩

end

theorem SysInv.start {start size : Nat} (area : Area m start size) {s₀ : State}
    (init : mmInit m start size = .ok s₀) : SysInv m ⟨s₀, []⟩ := by
  obtain ⟨s, eq, inv, -, -, chunks⟩ := mmInit_inv area
  obtain rfl : s = s₀ := Except.ok.inj (eq.symm.trans init)
  exact ⟨inv, by simp [chunks, allocs]⟩

section runs

variable {start size : Nat} {s₀ : State} {es : List (Sys × Op)}

theorem SysInv.run (area : Area m start size) (init : mmInit m start size = .ok s₀)
    (run : Run (Sys.step m) ⟨s₀, []⟩ es sys) (fits : ∀ e ∈ es, e.2.Fits m) : SysInv m sys ∧ ∀ e ∈ es, SysInv m e.1 := by
  refine Run.invariant_of_guard (G := fun _ op => op.Fits m) (SysInv.start area init) ?_ run fits
  intro sys op sys' inv opFits taken
  obtain ⟨after, eq, inv'⟩ := inv.exec taken.1 opFits
  obtain rfl : after = sys' := Except.ok.inj (eq.symm.trans taken.2)
  exact inv'

/-- In every run whose requests fit, the heap is well formed in every state, and no call that a
client may make follows a wild pointer or indexes `class_head` out of bounds. -/
theorem heap_tiling (area : Area m start size) (init : mmInit m start size = .ok s₀)
    (run : Run (Sys.step m) ⟨s₀, []⟩ es sys) (fits : ∀ e ∈ es, e.2.Fits m) :
    WellFormed m sys.heap ∧ (∀ e ∈ es, WellFormed m e.1.heap) ∧
      ∀ op, sys.Legal m op → op.Fits m → ∃ sys', sys.exec m op = .ok sys' := by
  obtain ⟨now, before⟩ := SysInv.run area init run fits
  refine ⟨now.inv.wellFormed, fun e taken => (before e taken).inv.wellFormed, fun op legal opFits => ?_⟩
  obtain ⟨sys', eq, -⟩ := now.exec legal opFits
  exact ⟨sys', eq⟩

/-- Nothing is lost to fragmentation: in every run, once the clients have freed all they held, the
heap is one free chunk. -/
theorem freed_heap_joined (area : Area m start size) (init : mmInit m start size = .ok s₀)
    (run : Run (Sys.step m) ⟨s₀, []⟩ es sys) (fits : ∀ e ∈ es, e.2.Fits m) (freed : sys.live = []) :
    sys.heap.chunks.length ≤ 1 ∧ ∀ c ∈ sys.heap.chunks,
      c.allocated = false ∧ c.addr = sys.heap.heapStart ∧ c.addr + extent m c = sys.heap.heapCurrent := by
  obtain ⟨⟨inv, live⟩, -⟩ := SysInv.run area init run fits
  have free : ∀ c ∈ sys.heap.chunks, c.allocated = false := by
    rw [freed] at live
    simpa [allocs] using live.symm.eq_nil
  match sys.heap.chunks, inv.tiles, inv.coalesced, free with
  | [], _, _, _ => simp
  | [c], tiles, _, free =>
    have whole : sys.heap.heapStart + extent m c = sys.heap.heapCurrent := tiles.2
    simp [free c, tiles.1, whole]
  | c :: d :: _, _, joined, free =>
    have apart := (isChain_cons_cons.mp joined).1
    simp [free c, free d] at apart

end runs

/-! ### Where the heap ends -/

theorem finish_ptr {addr size : Nat} (finished : finish m s addr size = .ok (ptr, s')) :
    ptr = (addr + m.arch.chunkHeader) % 2 ^ m.arch.wordBits ∧ s'.heapCurrent = s.heapCurrent := by
  unfold finish at finished
  obtain ⟨result, -, finished⟩ := ok_of_bind finished
  obtain ⟨s₁, split, ⟨⟩⟩ := ok_of_bind finished
  split at split
  · obtain ⟨_, -, ⟨⟩⟩ := ok_of_bind split
    exact ⟨rfl, rfl⟩
  · cases split
    exact ⟨rfl, rfl⟩

theorem mmClassRemoveHead_heapCurrent {cls addr : Nat} (popped : mmClassRemoveHead s cls = some (addr, s')) :
    s'.heapCurrent = s.heapCurrent := by
  unfold mmClassRemoveHead at popped
  split at popped
  · cases popped
  · cases popped
    rfl

theorem malloc_heapCurrent {env : Env} {r : Option Nat} (refused : env.granted = false)
    (ok : malloc m s size env = .ok (r, s')) : s'.heapCurrent = s.heapCurrent := by
  simp only [malloc, refused, Bool.false_eq_true, if_false] at ok
  split at ok
  next addr s₁ took =>
    obtain ⟨_, finished, ⟨⟩⟩ := ok_of_bind ok
    rw [(finish_ptr finished).2]
    unfold takeChunk at took
    split at took
    · cases took
    · exact mmClassRemoveHead_heapCurrent took
  · cases ok
    rfl

theorem SysInv.nodup (h : SysInv m sys) : (sys.live.map Prod.fst).Nodup :=
  h.live.symm.nodup h.inv.pointers_nodup

theorem SysInv.bounds (h : SysInv m sys) (held : ptr ∈ sys.live.map Prod.fst) :
    sys.heap.heapStart < ptr ∧ ptr < sys.heap.heapCurrent := by
  obtain ⟨c, member, -, rfl⟩ := h.held held
  obtain ⟨lower, upper⟩ := h.inv.tiles.bounds member
  have solid := h.inv.solid c member
  have header : 0 < m.arch.chunkHeader := by cases m.arch <;> decide
  simp only [extent] at upper
  omega

/-- The callees of `expand_heap` refuse. -/
def refused : Env := ⟨true, false, false⟩

theorem refused_sound (m : Machine) (s : State) (size : Nat) : refused.Sound m s size := nofun

theorem area_low (m : Machine) : Area m (m.arch.directMapBase + 0x50000) 0x50000 := by
  constructor
  all_goals
    generalize m.arch = arch
    cases arch <;> decide

theorem area_main (m : Machine) : Area m m.arch.heapVirtBase (4 * 1024 * 1024) := by
  constructor
  all_goals
    generalize m.arch = arch
    cases arch <;> decide

def machine64 : Machine := ⟨.x86_64, 31⟩

/-- An allocation of 100 bytes, one of 40, and the first freed again. -/
theorem heap_tiling_main : ∃ s₀ es sys, initMain machine64 = .ok s₀ ∧ Run (Sys.step machine64) ⟨s₀, []⟩ es sys ∧
      es.map Prod.snd = [.malloc 100 refused, .malloc 40 refused, .free 0xFFFFFFFF00000030] ∧
      WellFormed machine64 sys.heap := by
  obtain ⟨s₀, es, sys, init, run, ops, fits, -⟩ := exists_run_of_trace (ε := Fault)
    (G := fun _ op => op.Fits machine64) (g := fun sys => sys.heap.chunks.length) (v := 3)
    (show (initMain machine64).toOption.bind (fun s => (trace (Sys.exec machine64) (Sys.Legal machine64) ⟨s, []⟩
      [.malloc 100 refused, .malloc 40 refused, .free 0xFFFFFFFF00000030]).map _) = _ by decide +kernel)
  exact ⟨s₀, es, sys, init, run, ops, (heap_tiling (area_main _) init run fits).1⟩

/-- Two allocations, freed in the order in which they were made. -/
theorem freed_pair_joined : ∃ s₀ es sys, initMain machine64 = .ok s₀ ∧
      Run (Sys.step machine64) ⟨s₀, []⟩ es sys ∧
      es.map Prod.snd = [.malloc 100 refused, .malloc 40 refused, .free 0xFFFFFFFF00000030,
        .free 0xFFFFFFFF000000C4] ∧ sys.heap.chunks.length ≤ 1 := by
  obtain ⟨s₀, es, sys, init, run, ops, fits, freed⟩ := exists_run_of_trace (ε := Fault)
    (G := fun _ op => op.Fits machine64) (g := fun sys => sys.live) (v := [])
    (show (initMain machine64).toOption.bind (fun s => (trace (Sys.exec machine64)
      (Sys.Legal machine64) ⟨s, []⟩ [.malloc 100 refused, .malloc 40 refused,
        .free 0xFFFFFFFF00000030, .free 0xFFFFFFFF000000C4]).map _) = _ by decide +kernel)
  exact ⟨s₀, es, sys, init, run, ops, (freed_heap_joined (area_main _) init run fits freed).1⟩

/-- A request that wraps around: the rest of the first chunk is put 38 bytes behind its header,
inside it. -/
theorem heap_tiling_wraps : ∃ s₀ sys, initMain machine64 = .ok s₀ ∧
      Run (Sys.step machine64) ⟨s₀, []⟩ [(⟨s₀, []⟩, .malloc (2 ^ 64 - 10) refused)] sys ∧
      sys.heap.chunks.map Chunk.addr = [0xFFFFFFFF00000000, 0xFFFFFFFF00000026] ∧
      ¬WellFormed machine64 sys.heap := by
  obtain ⟨s₀, init, -⟩ := exists_ok_of_map
    (show (initMain machine64).map (fun s => s.chunks.length) = .ok 1 by decide +kernel)
  have values : ((initMain machine64).bind fun s =>
      Sys.exec machine64 ⟨s, []⟩ (.malloc (2 ^ 64 - 10) refused)).map
        (fun sys => (sys.heap.chunks.map Chunk.addr, decide (Tiles Chunk.addr (extent machine64)
          sys.heap.heapStart sys.heap.chunks sys.heap.heapCurrent))) =
      .ok ([0xFFFFFFFF00000000, 0xFFFFFFFF00000026], false) := by
    decide +kernel
  rw [init] at values
  obtain ⟨sys, ran, state⟩ := exists_ok_of_map values
  simp only [Prod.mk.injEq, decide_eq_false_iff_not] at state
  exact ⟨s₀, sys, init, Run.snoc Run.start ⟨refused_sound _ _ _, ran⟩, state.1, fun formed => state.2 formed.tiles⟩

end Jlos.Heap
