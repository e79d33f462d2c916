import Jlos.Heap.Runs

/-!
# The size of what malloc returns

A class list holds chunks of a range of sizes and `malloc` takes the first one without
looking at its size; the expansion fetches pages for the request without the header.
-/
namespace Jlos.Heap

open Lib Option

variable {m : Machine} {s : State} {sys : Sys} {c : Chunk} {pre post : List Chunk}

/-- The chunk behind a pointer holds `size` bytes: its size field says so, and they end
before the next header and inside the heap. -/
def Owns (m : Machine) (s : State) (ptr size : Nat) : Prop :=
  ∃ c ∈ s.chunks, ptr = c.addr + m.arch.chunkHeader ∧ size ≤ c.size ∧ ptr + size ≤ s.heapCurrent ∧
    ∀ d ∈ s.chunks, c.addr < d.addr → ptr + size ≤ d.addr
  deriving Decidable

/-- The class list the bitmap leads `malloc` to, if there is one. -/
def foundClass (m : Machine) (s : State) (size : Nat) : Option Nat :=
  mmBitmapFind s (mmSizeToClass m (roundUp size) s.maxClass)

/-- The first chunk of the class list `malloc` is led to is as large as the request. -/
def HeadHolds (m : Machine) (s : State) (size : Nat) : Prop :=
  ∀ cls ∈ foundClass m s size, ∀ c ∈ s.chunks, (s.classes.heads cls).head? = some c.addr → size ≤ c.size
  deriving Decidable

/-- The chunk `malloc` would work on is as large as the request: the request fits, the first chunk
of the class the bitmap leads to is large enough, and where it leads to none, the pages fetched join
a free tail or hold the request and a header. -/
def Suits (m : Machine) (s : State) (size : Nat) : Prop :=
  Fits m size ∧ HeadHolds m s size ∧
    (foundClass m s size = none → (∃ tail ∈ s.chunks.getLast?, tail.allocated = false) ∨
      size + m.arch.chunkHeader ≤ pagesNeeded m (roundUp size) * pageSize)

theorem Core.owns_iff (h : Core m s) (member : c ∈ s.chunks) {size : Nat} :
    Owns m s (c.addr + m.arch.chunkHeader) size ↔ size ≤ c.size := by
  constructor
  · rintro ⟨d, inChunks, eq, le, -⟩
    have same : d = c := by
      have found := h.chunkAt inChunks
      rw [← Nat.add_right_cancel eq, h.chunkAt member] at found
      exact (Except.ok.inj found).symm
    exact same ▸ le
  · intro le
    have top := (h.tiles.bounds member).2
    simp only [extent] at top
    refine ⟨c, member, rfl, le, by omega, fun d inChunks behind => ?_⟩
    have apart := h.tiles.apart member inChunks (ne_of_lt behind)
    simp only [extent] at apart
    omega

theorem le_roundUp (size : Nat) : size ≤ roundUp size := by
  unfold roundUp
  by_cases small : size < minAlloc
  · rw [if_pos small]
    exact small.le
  · rw [if_neg small]

theorem le_taken_size_iff {size : Nat} : size ≤ (taken m c (roundUp size)).size ↔ size ≤ c.size := by
  have rounded := le_roundUp size
  simp only [taken]
  by_cases split : roundUp size + m.arch.chunkHeader + minAlloc ≤ c.size
  · rw [if_pos split]
    omega
  · rw [if_neg split]

theorem Grant.le {size : Nat} (fits : Fits m size) (grant : Grant m s (pagesNeeded m (roundUp size))) :
    roundUp size ≤ pagesNeeded m (roundUp size) * pageSize := by
  have pos := grant.pos
  simp only [pagesNeeded, pageSize, Fits] at fits pos ⊢
  by_cases wraps : roundUp size + 4096 - 1 < 2 ^ m.arch.wordBits
  · rw [Nat.mod_eq_of_lt wraps]
    omega
  · -- a sum that wraps around leaves less than a page
    rw [Nat.mod_eq_sub_mod (by omega), Nat.mod_eq_of_lt (by omega)] at pos
    omega

theorem Offered.suits_iff (h : Core m s) {size : Nat}
    (fits : Fits m size) (offered : Offered m s size pre c post) : Suits m s size ↔ size ≤ c.size := by
  simp only [Suits, fits, true_and, HeadHolds, foundClass]
  unfold Offered at offered
  split at offered
  next cls found =>
    obtain ⟨split, first⟩ := offered
    have member : c ∈ s.chunks := by simp [split]
    simp only [found, mem_def, some.injEq, forall_eq', reduceCtorEq, false_imp_iff, and_true]
    constructor
    · exact fun all => all c member first
    · intro le d inChunks firstToo
      have eq : c.addr = d.addr := some.inj (first.symm.trans firstToo)
      have same := h.chunkAt inChunks
      rw [← eq, h.chunkAt member] at same
      exact Except.ok.inj same ▸ le
  next found =>
    obtain ⟨grant, expanded, rfl⟩ := offered
    have bytes := grant.le fits
    have rounded := le_roundUp size
    have room := grant.room
    simp only [found, not_mem_none, false_imp_iff, implies_true, true_and, true_imp_iff]
    rcases expanded with ⟨old, chunks, oldFree, rfl⟩ | ⟨allocated, -, rfl⟩
    · constructor
      · intro _
        simp only
        omega
      · exact fun _ => Or.inl ⟨old, by simp [chunks], oldFree⟩
    · have noTail : ¬∃ tail ∈ s.chunks.getLast?, tail.allocated = false := by
        rintro ⟨tail, last, free⟩
        rw [allocated tail last] at free
        cases free
      simp only [noTail, false_or]
      omega

/-- A request that wraps around gets a pointer to less than it asked for. -/
theorem Cursor.not_owns (h : Cursor m s pre c post) {size ptr : Nat}
    {s' : State} (wraps : ¬Fits m size) (finished : Heap.finish m s c.addr (roundUp size) = .ok (ptr, s')) :
    ¬Owns m s' ptr size := by
  obtain ⟨eq, current⟩ := finish_ptr finished
  rintro ⟨d, -, -, -, top, -⟩
  have inside := h.end_le
  have below := h.below
  have lower := (h.tiles.bounds h.mem).1
  have nonnull := h.nonnull
  have large : roundUp size = size := by
    refine if_neg fun small => wraps ?_
    unfold Fits roundUp
    rw [if_pos small]
    generalize m.arch = arch
    cases arch <;> decide
  simp only [Fits, large] at wraps
  rw [Nat.mod_eq_of_lt (by omega)] at eq
  omega

/-- In a state reached by requests that fit, a returned pointer has the requested bytes behind
it exactly if the chunk on offer was as large as the request. -/
theorem malloc_owns_iff {start size : Nat} {s₀ : State} {es : List (Sys × Op)}
    (area : Area m start size) (init : mmInit m start size = .ok s₀)
    (run : Run (Sys.step m) ⟨s₀, []⟩ es sys) (fits : ∀ e ∈ es, e.2.Fits m) {request ptr : Nat}
    {env : Env} {s' : State} (sound : env.Sound m sys.heap request)
    (returned : malloc m sys.heap request env = .ok (some ptr, s')) :
    Owns m s' ptr request ↔ Suits m sys.heap request := by
  have inv := (SysInv.run area init run fits).1.inv
  rcases inv.malloc_cursor sound with none | ⟨pre, c, post, s₁, offered, cursor, free, chain, -, -, eq⟩
  · rw [none] at returned
    cases returned
  by_cases fit : Fits m request
  · obtain ⟨s₂, finished, after, chunks, -⟩ := cursor.finish chain fit free (roundUp_pos request)
    rw [eq, finished] at returned
    cases returned
    have member : taken m c (roundUp request) ∈ s'.chunks := by simp [chunks]
    have owns : Owns m s' (c.addr + m.arch.chunkHeader) request ↔ _ := after.owns_iff member
    rw [owns, le_taken_size_iff, offered.suits_iff inv.toCore fit]
  · rw [eq] at returned
    cases finished : finish m s₁ c.addr (roundUp request) with
    | error fault => simp [finished] at returned
    | ok result =>
      rw [finished] at returned
      cases returned
      exact iff_of_false (cursor.not_owns fit finished) fun suits => fit suits.1

/-- The first request on the main heap gets what it asked for. -/
theorem malloc_owns_iff_main : ∃ s₀ s', initMain machine64 = .ok s₀ ∧
      malloc machine64 s₀ 100 refused = .ok (some 0xFFFFFFFF00000030, s') ∧
      (Owns machine64 s' 0xFFFFFFFF00000030 100 ↔ Suits machine64 s₀ 100) ∧
      Owns machine64 s' 0xFFFFFFFF00000030 100 := by
  have values : ((initMain machine64).bind fun s => malloc machine64 s 100 refused).map
      (fun r => (r.1, decide (Owns machine64 r.2 0xFFFFFFFF00000030 100))) =
        .ok (some 0xFFFFFFFF00000030, true) := by decide +kernel
  obtain ⟨s₀, init, -⟩ := exists_ok_of_map
    (show (initMain machine64).map (fun s => s.chunks.length) = .ok 1 by decide +kernel)
  rw [init] at values
  obtain ⟨⟨ptr, s'⟩, returned, state⟩ := exists_ok_of_map values
  simp only [Prod.mk.injEq, decide_eq_true_eq] at state
  obtain ⟨rfl, owns⟩ := state
  exact ⟨s₀, s', init, returned,
    malloc_owns_iff (area_main _) init Run.start (by simp) (refused_sound _ _ _) returned, owns⟩

/-- A chunk of 17 bytes between two allocated ones is freed and then handed out for 32 bytes, the
other sizes of its class. -/
theorem malloc_short : ∃ s₀ es sys s', initMain machine64 = .ok s₀ ∧ Run (Sys.step machine64) ⟨s₀, []⟩ es sys ∧
      es.map Prod.snd = [.malloc 17 refused, .malloc 16 refused, .free 0xFFFFFFFF00000030] ∧
      malloc machine64 sys.heap 32 refused = .ok (some 0xFFFFFFFF00000030, s') ∧
      ¬Owns machine64 s' 0xFFFFFFFF00000030 32 := by
  obtain ⟨s₀, es, sys, init, run, ops, -, values⟩ := exists_run_of_trace (ε := Fault)
    (G := fun _ _ => True) (v := .ok (some 0xFFFFFFFF00000030, false))
    (g := fun sys => (malloc machine64 sys.heap 32 refused).map
      fun r => (r.1, decide (Owns machine64 r.2 0xFFFFFFFF00000030 32)))
    (show (initMain machine64).toOption.bind (fun s => (trace (Sys.exec machine64) (Sys.Legal machine64) ⟨s, []⟩
      [.malloc 17 refused, .malloc 16 refused, .free 0xFFFFFFFF00000030]).map _) = _ by decide +kernel)
  obtain ⟨⟨ptr, s'⟩, returned, state⟩ := exists_ok_of_map values
  simp only [Prod.mk.injEq, decide_eq_false_iff_not] at state
  obtain ⟨rfl, short⟩ := state
  exact ⟨s₀, es, sys, s', init, run, ops, returned, short⟩

end Jlos.Heap
