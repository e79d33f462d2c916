import Jlos.Heap.Sizes

/-!
# The heap on several CPUs

`malloc` drops `s_heap_lock` around `expand_heap`, which reads `heap_current` and maps the new pages
before it takes the lock. A step is one critical section, or one piece of code between two, of one
CPU.

Nothing protects the end of the heap that `expand_heap` has read until it inserts its pages there,
nor the chunk it has inserted until its CPU comes back for it.
-/
namespace Jlos.Heap

open Lib Function List

/-! ### CPUs inside a call -/

/-- Where a CPU is inside `malloc`. -/
inductive Pc
  | idle
  /-- no chunk was found and the lock released -/
  | expanding (size : Nat)
  /-- `new_heap_start` was read -/
  | mapping (size base : Nat)
  /-- the pages are mapped -/
  | inserting (size base pages : Nat)
  /-- `expand_heap` returned this chunk -/
  | retaking (size addr : Nat)
  deriving DecidableEq

structure Smp where
  sys : Sys
  pc : Nat → Pc

inductive SmpOp
  | malloc (cpu size : Nat)
  | free (cpu ptr : Nat)
  /-- The next piece of the call the CPU is in; the environment is what the callees of
  `expand_heap` answer, where they are asked. -/
  | advance (cpu : Nat) (env : Env)

namespace Smp

variable (m : Machine)

def start (s : State) : Smp := ⟨⟨s, []⟩, fun _ => .idle⟩

def goto (st : Smp) (cpu : Nat) (pc : Pc) : Smp := { st with pc := update st.pc cpu pc }

def handOut (st : Smp) (cpu : Nat) (heap : State) (ptr size : Nat) : Smp :=
  { st.goto cpu .idle with sys := ⟨heap, (ptr, size) :: st.sys.live⟩ }

def exec (st : Smp) : SmpOp → M Smp
  | .malloc cpu size =>
    match takeChunk m st.sys.heap (roundUp size) with
    | some (addr, heap) => do
      let (ptr, heap) ← finish m heap addr (roundUp size)
      pure (st.handOut cpu heap ptr size)
    | none => pure (st.goto cpu (.expanding size))
  | .free _ ptr => do
    let heap ← free m st.sys.heap ptr
    pure { st with sys := ⟨heap, st.sys.live.filter fun a => a.1 ≠ ptr⟩ }
  | .advance cpu env =>
    match st.pc cpu with
    | .idle => pure st
    | .expanding size => pure (st.goto cpu (.mapping size st.sys.heap.heapCurrent))
    | .mapping size base =>
      pure (st.goto cpu (if env.granted then .inserting size base (pagesNeeded m (roundUp size)) else .idle))
    | .inserting size base pages => do
      let (addr, heap) ← expandInsert m st.sys.heap base pages
      pure { st.goto cpu (.retaking size addr) with sys := { st.sys with heap := heap } }
    | .retaking size addr => do
      let heap ← retake m st.sys.heap addr
      let (ptr, heap) ← finish m heap addr (roundUp size)
      pure (st.handOut cpu heap ptr size)

/-- What the callees of `expand_heap` promise when they grant pages at `base`. -/
@[mk_iff]
structure GrantAt (st : Smp) (base pages : Nat) : Prop where
  pos : 0 < pages
  below : base + pages * pageSize < 2 ^ m.arch.wordBits
  small : base + pages * pageSize ≤ st.sys.heap.heapStart + 2 ^ 32

instance (st : Smp) (base pages : Nat) : Decidable (st.GrantAt m base pages) :=
  decidable_of_iff' _ (grantAt_iff ..)

/-- What the callees answer a CPU that asks for pages. -/
def MayMap (st : Smp) (env : Env) : Pc → Prop
  | .mapping size base => env.granted = true → st.GrantAt m base (pagesNeeded m (roundUp size))
  | .idle | .expanding _ | .inserting .. | .retaking .. => True

instance (st : Smp) (env : Env) (pc : Pc) : Decidable (st.MayMap m env pc) := by
  cases pc <;> unfold MayMap <;> infer_instance

/-- A CPU that is in no call may start one; frees are of live pointers. -/
def Legal (st : Smp) : SmpOp → Prop
  | .malloc cpu _ => st.pc cpu = .idle
  | .free cpu ptr => st.pc cpu = .idle ∧ ptr ∈ st.sys.live.map Prod.fst
  | .advance cpu env => st.MayMap m env (st.pc cpu)

instance (st : Smp) (op : SmpOp) : Decidable (st.Legal m op) := by
  cases op <;> unfold Legal <;> infer_instance

def step (st : Smp) (op : SmpOp) (st' : Smp) : Prop := st.Legal m op ∧ st.exec m op = .ok st'

/-- The heap still ends where a CPU inserts its pages, and the chunk a CPU comes back for is still
a free chunk of the heap, and as large as the request. -/
def Waits (st : Smp) : Pc → Prop
  | .inserting _ base _ => base = st.sys.heap.heapCurrent
  | .retaking size addr =>
    ∃ c ∈ st.sys.heap.chunks, c.addr = addr ∧ c.allocated = false ∧ size ≤ c.size
  | .idle | .expanding _ | .mapping .. => True

instance (st : Smp) (pc : Pc) : Decidable (st.Waits pc) := by
  cases pc <;> unfold Waits <;> infer_instance

/-- What keeps a step from handing out memory that is in use. -/
def Undisturbed (st : Smp) : SmpOp → Prop
  | .malloc _ size => Fits m size ∧ HeadHolds m st.sys.heap size
  | .free _ _ => True
  | .advance cpu _ => st.Waits (st.pc cpu)

instance (st : Smp) (op : SmpOp) : Decidable (st.Undisturbed m op) := by
  cases op <;> unfold Undisturbed <;> infer_instance

end Smp

/-! ### The invariant -/

variable {m : Machine} {sys : Sys} {st st' : Smp} {cpu pages : Nat}

def Roomy (m : Machine) (sys : Sys) : Prop :=
  ∀ a ∈ sys.live, ∀ c ∈ allocs sys.heap.chunks, a.1 = c.addr + m.arch.chunkHeader → a.2 ≤ c.size

/-- What a CPU inside `malloc` knows about its request and the pages it got. -/
def Pc.Ok (m : Machine) (st : Smp) : Pc → Prop
  | .idle => True
  | .expanding size | .mapping size _ | .retaking size _ => Fits m size
  | .inserting size base pages => Fits m size ∧ st.GrantAt m base pages

structure SmpInv (m : Machine) (st : Smp) : Prop where
  sys : SysInv m st.sys
  roomy : Roomy m st.sys
  pcs : ∀ cpu, (st.pc cpu).Ok m st

theorem Roomy.allocate {s' : State} {l₁ l₂ : List Chunk} {c : Chunk} (roomy : Roomy m sys)
    (h : SysInv m sys) (inv : Inv m s') (old : allocs sys.heap.chunks = l₁ ++ l₂)
    (new : allocs s'.chunks = l₁ ++ c :: l₂) {size : Nat} (fits : size ≤ c.size) :
    Roomy m ⟨s', (c.addr + m.arch.chunkHeader, size) :: sys.live⟩ := by
  have pointers := inv.pointers_nodup
  rw [new] at pointers
  -- no other allocated chunk has the pointer of the new one
  have other : ∀ d ∈ l₁ ++ l₂, d.addr + m.arch.chunkHeader ≠ c.addr + m.arch.chunkHeader := by
    intro d member
    rcases mem_append.mp member with before | after
    · exact Keyed.key_ne_pre pointers before
    · exact Keyed.key_ne_post pointers after
  intro a live d member eq
  simp only [new, mem_append, mem_cons] at member
  have split : d = c ∨ d ∈ l₁ ++ l₂ := by
    simp only [mem_append]
    tauto
  rcases mem_cons.mp live with rfl | before
  · rcases split with rfl | rest
    · exact fits
    · exact absurd eq.symm (other d rest)
  · rcases split with rfl | rest
    · obtain ⟨e, inChunks, allocated, ptr⟩ := h.held (mem_map_of_mem before)
      have inOld : e ∈ l₁ ++ l₂ := old ▸ mem_filter.mpr ⟨inChunks, allocated⟩
      exact absurd (ptr.symm.trans eq) (other e inOld)
    · exact roomy a before d (old ▸ rest) eq

open Smp

/-- A step that leaves the start of the heap alone moves one CPU. -/
theorem pcs_update (pcs : ∀ i, (st.pc i).Ok m st) {pc : Pc} (moved : st'.pc = update st.pc cpu pc)
    (start : st'.sys.heap.heapStart = st.sys.heap.heapStart) (ok : pc.Ok m st) :
    ∀ i, (st'.pc i).Ok m st' := by
  have keeps : ∀ pc : Pc, pc.Ok m st → pc.Ok m st' := by
    intro pc ok
    cases pc with
    | idle | expanding | mapping | retaking => exact ok
    | inserting size base pages => exact ⟨ok.1, ok.2.pos, ok.2.below, start ▸ ok.2.small⟩
  intro i
  rw [moved, update_apply]
  split
  · exact keeps _ ok
  · exact keeps _ (pcs i)

/-! ### Steps -/

/-- The last part of `malloc`, on a free chunk that is large enough. -/
theorem SmpInv.handOut (h : SmpInv m st) {heap s' : State} {pre post : List Chunk} {c : Chunk} {size ptr : Nat}
    (cursor : Cursor m heap pre c post) (free : c.allocated = false) (chain : Coalesced (pre ++ c :: post))
    (old : allocs st.sys.heap.chunks = allocs pre ++ allocs post)
    (start : heap.heapStart = st.sys.heap.heapStart) (fits : Fits m size) (large : size ≤ c.size)
    (finished : finish m heap c.addr (roundUp size) = .ok (ptr, s')) :
    SmpInv m (st.handOut cpu s' ptr size) := by
  obtain ⟨s₁, eq, inv, chunks, start', -⟩ := cursor.finish chain fits free (roundUp_pos size)
  rw [eq] at finished
  cases finished
  have new := chunks ▸ allocs_taken m pre c (roundUp size) post
  exact ⟨h.sys.allocate inv old new size, h.roomy.allocate h.sys inv old new (le_taken_size_iff.mpr large),
    pcs_update h.pcs rfl (start'.trans start) trivial⟩

theorem SmpInv.malloc (h : SmpInv m st) {size : Nat}
    (calm : st.Undisturbed m (.malloc cpu size)) (taken : st.exec m (.malloc cpu size) = .ok st') : SmpInv m st' := by
  simp only [exec] at taken
  cases took : takeChunk m st.sys.heap (roundUp size) with
  | none =>
    simp only [took] at taken
    cases taken
    exact ⟨h.sys, h.roomy, pcs_update h.pcs rfl rfl calm.1⟩
  | some entry =>
    obtain ⟨addr, heap⟩ := entry
    simp only [took] at taken
    obtain ⟨pre, c, post, cls, rfl, free, split, cursor, start, -, found, first⟩ := h.sys.inv.takeChunk took
    have member : c ∈ st.sys.heap.chunks := by simp [split]
    cases finished : finish m heap c.addr (roundUp size) with
    | error fault => simp [finished] at taken
    | ok result =>
      rw [finished] at taken
      cases taken
      obtain ⟨fits, large⟩ := calm
      exact h.handOut cursor free (split ▸ h.sys.inv.coalesced) (by simp [split, allocs_cons, free]) start
        fits (large cls found c member first) finished

theorem SmpInv.free (h : SmpInv m st) {ptr : Nat} (legal : st.Legal m (.free cpu ptr))
    (taken : st.exec m (.free cpu ptr) = .ok st') : SmpInv m st' := by
  obtain ⟨-, held⟩ := legal
  obtain ⟨c, member, allocated, rfl⟩ := h.sys.held held
  obtain ⟨pre, post, split⟩ := append_of_mem member
  obtain ⟨s', eq, inv, gone, start, -⟩ := h.sys.inv.free split allocated
  simp only [exec, eq, ok_bind] at taken
  cases taken
  have old : allocs st.sys.heap.chunks = allocs pre ++ c :: allocs post := by
    simp [split, allocs_cons, allocated]
  refine ⟨h.sys.release inv old gone, fun a live d inChunks eq => ?_,
    pcs_update h.pcs (update_eq_self cpu st.pc).symm start (h.pcs cpu)⟩
  refine h.roomy a (mem_of_mem_filter live) d ?_ eq
  simp only [gone, mem_append] at inChunks
  simp only [old, mem_append, mem_cons]
  tauto

theorem SmpInv.advance (h : SmpInv m st) {env : Env}
    (legal : st.Legal m (.advance cpu env)) (calm : st.Undisturbed m (.advance cpu env))
    (taken : st.exec m (.advance cpu env) = .ok st') : SmpInv m st' := by
  have ok := h.pcs cpu
  simp only [exec] at taken
  cases pc : st.pc cpu with
  | idle =>
    simp only [pc] at taken
    cases taken
    exact h
  | expanding size =>
    simp only [pc] at taken ok
    cases taken
    exact ⟨h.sys, h.roomy, pcs_update h.pcs rfl rfl ok⟩
  | mapping size base =>
    simp only [pc] at taken ok
    cases taken
    refine ⟨h.sys, h.roomy, pcs_update h.pcs rfl rfl ?_⟩
    cases granted : env.granted with
    | false => exact trivial
    | true =>
      simp only [Smp.Legal, Smp.MayMap, pc, granted, forall_const] at legal
      exact ⟨ok, legal⟩
  | inserting size base pages =>
    simp only [pc] at taken ok
    simp only [Smp.Undisturbed, Smp.Waits, pc] at calm
    obtain ⟨fits, pos, below, small⟩ := ok
    -- No other CPU has moved the end of the heap since it was read.
    subst calm
    have grant : Grant m st.sys.heap pages := ⟨pos, below, small⟩
    obtain ⟨pre, c, s', eq, inv, split, free, expanded, start, -⟩ := h.sys.inv.expandInsert grant
    simp only [eq, ok_bind] at taken
    cases taken
    have same : allocs s'.chunks = allocs st.sys.heap.chunks := by
      rw [expanded.allocs, split]
      simp [allocs_cons, free]
    refine ⟨⟨inv, ?_⟩, fun a live d inChunks => h.roomy a live d (same ▸ inChunks),
      pcs_update h.pcs rfl start fits⟩
    simp only [same]
    exact h.sys.live
  | retaking size addr =>
    simp only [Smp.Undisturbed, Smp.Waits, pc] at calm
    obtain ⟨c, member, rfl, free, large⟩ := calm
    -- The chunk is still free and large enough.
    obtain ⟨pre, post, split⟩ := append_of_mem member
    simp only [pc, h.sys.inv.retake split, ok_bind] at taken ok
    cases finished : finish m (mmClassRemoveChunk st.sys.heap (classNat m st.sys.heap.maxClass c.size) c.addr)
        c.addr (roundUp size) with
    | error fault => simp [finished] at taken
    | ok result =>
      rw [finished] at taken
      cases taken
      exact h.handOut (h.sys.inv.unlist split free) free (split ▸ h.sys.inv.coalesced)
        (by simp [split, allocs_cons, free]) rfl ok large finished

theorem SmpInv.step (h : SmpInv m st) {op : SmpOp} (calm : st.Undisturbed m op)
    (taken : st.step m op st') : SmpInv m st' := by
  cases op with
  | malloc cpu size => exact h.malloc calm taken.2
  | free cpu ptr => exact h.free taken.1 taken.2
  | advance cpu env => exact h.advance taken.1 calm taken.2

theorem SmpInv.start {start size : Nat} (area : Area m start size) {s₀ : State}
    (init : mmInit m start size = .ok s₀) : SmpInv m (Smp.start s₀) :=
  ⟨SysInv.start area init, nofun, fun _ => trivial⟩

def granted : Env := ⟨true, true, true⟩

end Jlos.Heap
