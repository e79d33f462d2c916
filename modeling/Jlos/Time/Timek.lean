import Mathlib

/-!
# The monotonic clock

A shallow embedding of `jlos_timek_get_monotonic_ns` of `kernel/timek.c` with the conversion of
`hal/clocksource.c` and the registration of the time stamp counter in `arch/x86/tsc.c`. What the
counter reads is an argument.
-/
namespace Jlos.Timek

open List BitVec

/-- The fields of `jlos_clocksource_t` that the conversion reads. -/
structure Clocksource where
  mult : BitVec 32
  shift : BitVec 32
  mask : BitVec 64
  deriving DecidableEq, Repr

/-- `tsc_register`, which takes any frequency but zero -/
def tscRegister (freq : BitVec 64) : Option Clocksource :=
  if freq = 0 then none else some ⟨(((1000000000 : BitVec 64) <<< 22) / freq).setWidth 32, 22, BitVec.allOnes 64⟩

/-- `s_active_cs`, `s_tsc_base` and `s_timek_inited` -/
structure State where
  activeCs : Option Clocksource
  tscBase : BitVec 64
  inited : Bool
  deriving DecidableEq, Repr

/-- The state after `clocksource_select` -/
def selected (cs : Clocksource) : State := ⟨some cs, 0, false⟩

def init (s : State) (cycles : BitVec 64) : State :=
  if s.inited then s
  else
    match s.activeCs with
    | none => s
    | some _ => { s with tscBase := cycles, inited := true }

def cyclesToNs (s : State) (delta : BitVec 64) : BitVec 64 :=
  match s.activeCs with
  | none => 0
  | some cs => (delta * cs.mult.setWidth 64) >>> cs.shift.toNat

/-- `jlos_timek_get_monotonic_ns` behind its initialisation -/
def getMonotonicNs (s : State) (cycles : BitVec 64) : BitVec 64 :=
  match s.activeCs with
  | none => 0
  | some cs => cyclesToNs s ((cycles - s.tscBase) &&& cs.mask)

/-- The values that calls return which read the counter in turn; the first call reads it twice. -/
def values (s : State) : List (BitVec 64) → List (BitVec 64)
  | [] => []
  | cycles :: rest =>
    if s.inited then getMonotonicNs s cycles :: values s rest else values (init s cycles) rest

variable {freq first r : BitVec 64} {cs : Clocksource}

theorem values_inited {s : State} (inited : s.inited = true) (readings : List (BitVec 64)) :
    values s readings = readings.map (getMonotonicNs s) := by
  induction readings with
  | nil => rfl
  | cons r rest ih => rw [values, if_pos inited, ih, map_cons]

theorem values_selected (cs : Clocksource) (first : BitVec 64) (readings : List (BitVec 64)) :
    values (selected cs) (first :: readings) = readings.map (getMonotonicNs ⟨some cs, first, true⟩) := by
  exact values_inited rfl readings

theorem toNat_getMonotonicNs (registered : tscRegister freq = some cs) (le : first ≤ r) :
    (getMonotonicNs ⟨some cs, first, true⟩ r).toNat = (r.toNat - first.toNat) * cs.mult.toNat % 2 ^ 64 / 2 ^ 22 := by
  have fields : cs.shift = 22 ∧ cs.mask = BitVec.allOnes 64 := by
    unfold tscRegister at registered
    split at registered
    · cases registered
    · cases registered
      exact ⟨rfl, rfl⟩
  have wide : (cs.mult.setWidth 64).toNat = cs.mult.toNat := by
    rw [toNat_setWidth]
    omega
  simp only [getMonotonicNs, cyclesToNs, fields.1, fields.2, and_allOnes, toNat_ushiftRight,
    toNat_mul, wide, toNat_sub_of_le le, Nat.shiftRight_eq_div_pow]
  rfl

theorem convert_mono {d d' m : Nat} (le : d ≤ d') (fits : d' * m < 2 ^ 64) :
    d * m % 2 ^ 64 / 2 ^ 22 ≤ d' * m % 2 ^ 64 / 2 ^ 22 := by
  have mono : d * m ≤ d' * m := Nat.mul_le_mul_right m le
  rw [Nat.mod_eq_of_lt fits, Nat.mod_eq_of_lt (by omega)]
  exact Nat.div_le_div_right mono

/-- Where the product overflows for the first time the conversion falls back to the start. -/
theorem convert_falls {D m : Nat} (small : m < 2 ^ 32) (overflows : 2 ^ 64 ≤ D * m) :
    ∃ d, d + 1 ≤ D ∧ (d + 1) * m % 2 ^ 64 / 2 ^ 22 < d * m % 2 ^ 64 / 2 ^ 22 := by
  have pos : 0 < m := by
    rcases Nat.eq_zero_or_pos m with rfl | pos
    · omega
    · exact pos
  -- the last number of cycles whose product fits
  refine ⟨(2 ^ 64 - 1) / m, ?_, ?_⟩
  · have many : (2 ^ 64 - 1) / m < D := by
      rw [Nat.div_lt_iff_lt_mul pos]
      omega
    exact many
  · have below : (2 ^ 64 - 1) / m * m ≤ 2 ^ 64 - 1 := Nat.div_mul_le_self _ _
    have above : 2 ^ 64 - 1 < m * ((2 ^ 64 - 1) / m + 1) := Nat.lt_mul_div_succ _ pos
    rw [Nat.mul_comm, Nat.add_mul, Nat.one_mul] at above
    rw [Nat.add_mul, Nat.one_mul]
    omega

/-- The values are in order for all readings up to `last` exactly if the cycles since the
initialisation, times the multiplier, fit in 64 bits. -/
theorem monotonic_iff (freq first last : BitVec 64) {cs : Clocksource} (registered : tscRegister freq = some cs)
    (order : first ≤ last) : (∀ readings, (first :: readings).Pairwise (· ≤ ·) → (∀ r ∈ readings, r ≤ last) →
      (values (selected cs) (first :: readings)).Pairwise (· ≤ ·)) ↔ (last - first).toNat * cs.mult.toNat < 2 ^ 64 := by
  rw [toNat_sub_of_le order]
  constructor
  · intro holds
    by_contra overflows
    obtain ⟨d, le, falls⟩ := convert_falls cs.mult.isLt (le_of_not_gt overflows)
    have now : (first + BitVec.ofNat 64 d).toNat = first.toNat + d := by
      rw [toNat_add, toNat_ofNat]
      omega
    have next : (first + BitVec.ofNat 64 (d + 1)).toNat = first.toNat + (d + 1) := by
      rw [toNat_add, toNat_ofNat]
      omega
    have inOrder := holds [first + BitVec.ofNat 64 d, first + BitVec.ofNat 64 (d + 1)]
      (by simp only [pairwise_cons, mem_cons, not_mem_nil, le_def]; grind)
      (by simp only [mem_cons, not_mem_nil, le_def]; grind)
    rw [values_selected, map_cons, map_cons, pairwise_cons] at inOrder
    have le := inOrder.1 _ mem_cons_self
    rw [le_def, toNat_getMonotonicNs registered (by rw [le_def]; omega),
      toNat_getMonotonicNs registered (by rw [le_def]; omega), now, next, Nat.add_sub_cancel_left,
      Nat.add_sub_cancel_left] at le
    omega
  · intro fits readings sorted bounded
    obtain ⟨behind, sorted⟩ := pairwise_cons.mp sorted
    rw [values_selected, pairwise_map]
    refine sorted.imp_of_mem fun {r r'} mem mem' le => ?_
    have upper : r'.toNat ≤ last.toNat := bounded r' mem'
    have lower : r.toNat ≤ r'.toNat := le
    rw [le_def, toNat_getMonotonicNs registered (behind r mem), toNat_getMonotonicNs registered (behind r' mem')]
    apply convert_mono
    · omega
    · exact lt_of_le_of_lt (Nat.mul_le_mul_right _ (by omega)) fits

/-- At 1 GHz, for the first `2 ^ 42` cycles. -/
theorem monotonic_for_an_hour : ∃ cs, tscRegister 1000000000 = some cs ∧
    ∀ readings, ((0 : BitVec 64) :: readings).Pairwise (· ≤ ·) → (∀ r ∈ readings, r ≤ 4398046511103) →
      (values (selected cs) (0 :: readings)).Pairwise (· ≤ ·) :=
  ⟨_, rfl, (monotonic_iff 1000000000 0 4398046511103 rfl (by decide)).mpr (by decide)⟩

/-- At 1 GHz the clock falls from 4398 seconds to zero, at a step of one cycle. -/
theorem clock_falls_back : ∃ cs, tscRegister 1000000000 = some cs ∧
    [(0 : BitVec 64), 4398046511103, 4398046511104].Pairwise (· ≤ ·) ∧
    values (selected cs) [0, 4398046511103, 4398046511104] = [4398046511103, 0] := ⟨_, rfl, by decide, by decide⟩

end Jlos.Timek
