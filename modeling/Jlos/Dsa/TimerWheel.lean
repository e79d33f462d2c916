import Mathlib

/-!
# The timer wheel

A shallow embedding of `dsa/timer_wheel.c`. The lists of the wheel are lists of timers, and
`jlos_list_del_init` takes a timer out of the list that has it. The loop over a slot that is
cascaded takes the timers that are there when it starts: none of them comes back to the same slot.
-/
namespace Jlos.TimerWheel

open Function List BitVec

variable {ι : Type} [DecidableEq ι] {expires jiffies : BitVec 32}

/-- The vectors of the wheel. -/
inductive Level
  | vec1
  | vec2
  | vec3
  | vec4
  | vec5
  deriving DecidableEq, Repr

/-- `JLOS_TIMER_WHEEL_SHIFT_L1` to `JLOS_TIMER_WHEEL_SHIFT_L5` -/
def Level.shift : Level → Nat
  | .vec1 => 0
  | .vec2 => 8
  | .vec3 => 14
  | .vec4 => 20
  | .vec5 => 26

/-- `JLOS_TIMER_WHEEL_L1_MASK` and `JLOS_TIMER_WHEEL_LN_MASK` -/
def Level.mask : Level → BitVec 32
  | .vec1 => 255
  | _ => 63

def Level.index (level : Level) (x : BitVec 32) : BitVec 32 := (x >>> level.shift) &&& level.mask

structure Slot where
  level : Level
  index : BitVec 32
  deriving DecidableEq, Repr

def Level.slot (level : Level) (x : BitVec 32) : Slot := ⟨level, level.index x⟩

structure Wheel (ι : Type) where
  vec : Slot → List ι
  expires : ι → BitVec 32
  jiffies : BitVec 32

def timerWheelSlot (expires jiffies : BitVec 32) : Slot :=
  let delta := (expires - jiffies).toInt
  if delta < 0 then Level.vec1.slot jiffies
  else
    let idx := (expires - jiffies).toNat
    if idx < 2 ^ 8 then Level.vec1.slot expires
    else if idx < 2 ^ 14 then Level.vec2.slot expires
    else if idx < 2 ^ 20 then Level.vec3.slot expires
    else if idx < 2 ^ 26 then Level.vec4.slot expires
    else Level.vec5.slot expires

namespace Wheel

def init (jiffies : BitVec 32) (expires : ι → BitVec 32) : Wheel ι := ⟨fun _ => [], expires, jiffies⟩

def add (w : Wheel ι) (id : ι) : Wheel ι :=
  let slot := timerWheelSlot (w.expires id) w.jiffies
  { w with vec := update w.vec slot (w.vec slot ++ [id]) }

def del (w : Wheel ι) (id : ι) : Wheel ι := { w with vec := fun slot => (w.vec slot).erase id }

def cascade (w : Wheel ι) (slot : Slot) : Wheel ι := (w.vec slot).foldl (fun w id => (w.del id).add id) w

/-- The cascades of one turn of `jlos_timer_wheel_advance`. -/
def cascades (w : Wheel ι) : Wheel ι :=
  let j := w.jiffies
  if Level.vec1.index j = 0 then
    let w := w.cascade (Level.vec2.slot j)
    if Level.vec2.index j = 0 then
      let w := w.cascade (Level.vec3.slot j)
      if Level.vec3.index j = 0 then
        let w := w.cascade (Level.vec4.slot j)
        if Level.vec4.index j = 0 then w.cascade (Level.vec5.slot j) else w
      else w
    else w
  else w

/-- One turn of `jlos_timer_wheel_advance`, with the timers that `expire` is called for. -/
def tick (w : Wheel ι) : Wheel ι × List ι :=
  let slot := Level.vec1.slot w.jiffies
  let w := { w.cascades with jiffies := w.jiffies + 1 }
  ((w.vec slot).foldl del w, w.vec slot)

/-- The loop of `jlos_timer_wheel_advance`, with the calls of `expire` turn by turn. -/
def advanceLoop (now : BitVec 32) : Nat → Wheel ι → Wheel ι × List (List ι)
  | 0, w => (w, [])
  | fuel + 1, w =>
    if (now - w.jiffies).toInt < 0 then (w, [])
    else
      let turn := w.tick
      let rest := advanceLoop now fuel turn.1
      (rest.1, turn.2 :: rest.2)

def advance (w : Wheel ι) (now : BitVec 32) : Wheel ι × List (List ι) :=
  advanceLoop now ((now - w.jiffies).toNat + 1) w

end Wheel

/-! ### Slots -/

/-- The tick of a timer that is added, counted from the next one to be processed. -/
def ahead (expires jiffies : BitVec 32) : Nat := (expires - jiffies).toInt.toNat

/-- A slot for a timer whose tick is `r` away. Below `vec1` its slot is cascaded before that
tick. -/
def Fits (expires jiffies : BitVec 32) (r : Nat) (p : Slot) : Prop :=
  (p = Level.vec1.slot (jiffies + BitVec.ofNat 32 r) ∧ r < 256) ∨
    (p.level ≠ .vec1 ∧ p = p.level.slot expires ∧ expires = jiffies + BitVec.ofNat 32 r ∧
      expires.toNat % 2 ^ p.level.shift ≤ r)

/-- The slot has not to be cascaded before the next tick. -/
def Settled (expires : BitVec 32) (r : Nat) (p : Slot) : Prop :=
  p.level ≠ .vec1 → expires.toNat % 2 ^ p.level.shift < r

open Level

theorem toNat_index (level : Level) (x : BitVec 32) :
    (level.index x).toNat = x.toNat / 2 ^ level.shift % if level = .vec1 then 2 ^ 8 else 2 ^ 6 := by
  cases level <;> simp only [index, mask, shift, toNat_and, toNat_ushiftRight,
      Nat.shiftRight_eq_div_pow, reduceCtorEq, if_true, if_false]
  · exact Nat.and_two_pow_sub_one_eq_mod _ 8
  all_goals exact Nat.and_two_pow_sub_one_eq_mod _ 6

theorem ahead_lt (expires jiffies : BitVec 32) : ahead expires jiffies < 2 ^ 31 := by
  have bound := (expires - jiffies).toInt_lt
  unfold ahead
  omega

theorem ahead_add {r : Nat} (lt : r < 2 ^ 31) (j : BitVec 32) : ahead (j + BitVec.ofNat 32 r) j = r := by
  have value : j + BitVec.ofNat 32 r - j = BitVec.ofNat 32 r := by
    rw [BitVec.add_comm, BitVec.add_sub_cancel]
  rw [ahead, value, toInt_ofNat', Int.bmod_eq_of_le (by omega) (by omega)]
  omega

/-- The slot that the wheel takes for a timer fits, and is cascaded neither at this tick nor
before. -/
theorem fits_timerWheelSlot (expires jiffies : BitVec 32) :
    Fits expires jiffies (ahead expires jiffies) (timerWheelSlot expires jiffies) ∧
      Settled expires (ahead expires jiffies) (timerWheelSlot expires jiffies) := by
  unfold timerWheelSlot
  by_cases past : (expires - jiffies).toInt < 0
  · have none : ahead expires jiffies = 0 := by
      unfold ahead
      omega
    simp only [past, if_true, none]
    refine ⟨Or.inl ⟨?_, by omega⟩, fun deep => absurd rfl deep⟩
    rw [BitVec.add_zero]
  · have distance : ahead expires jiffies = (expires - jiffies).toNat := by
      rw [ahead, toInt_eq_toNat_cond] at *
      split at past <;> omega
    have sum : expires = jiffies + BitVec.ofNat 32 (expires - jiffies).toNat := by
      rw [BitVec.ofNat_toNat, BitVec.setWidth_eq, BitVec.add_comm, BitVec.sub_add_cancel]
    -- All levels below the first are alike.
    have deep : ∀ level : Level, level ≠ .vec1 → 2 ^ level.shift ≤ (expires - jiffies).toNat →
        Fits expires jiffies (expires - jiffies).toNat (level.slot expires) ∧
          Settled expires (expires - jiffies).toNat (level.slot expires) := by
      intro level below far
      have low := Nat.mod_lt expires.toNat (Nat.two_pow_pos level.shift)
      exact ⟨Or.inr ⟨below, rfl, sum, Nat.le_of_lt (Nat.lt_of_lt_of_le low far)⟩, fun _ => Nat.lt_of_lt_of_le low far⟩
    simp only [past, if_false, distance]
    split
    case isTrue near =>
      refine ⟨Or.inl ⟨?_, near⟩, fun deep => absurd rfl deep⟩
      rw [← sum]
    case isFalse far2 =>
      split
      · exact deep .vec2 (by decide) (Nat.le_of_not_lt far2)
      case isFalse far3 =>
        split
        · exact deep .vec3 (by decide) (Nat.le_of_not_lt far3)
        case isFalse far4 =>
          split
          · exact deep .vec4 (by decide) (Nat.le_of_not_lt far4)
          case isFalse far5 => exact deep .vec5 (by decide) (Nat.le_of_not_lt far5)

/-- A timer of a slot that must be cascaded is in the slot of this tick, and the tick is a
multiple. -/
theorem aligned_of_eq {r : Nat} {level : Level}
    (sum : expires = jiffies + BitVec.ofNat 32 r) (lt : r < 2 ^ 31) (now : expires.toNat % 2 ^ level.shift = r) :
    jiffies.toNat % 2 ^ level.shift = 0 ∧ level.index expires = level.index jiffies := by
  have value : expires.toNat = (jiffies.toNat + r) % 2 ^ 32 := by
    rw [sum, toNat_add, toNat_ofNat, Nat.add_mod_mod]
  have same : jiffies.toNat = 2 ^ level.shift * (expires.toNat / 2 ^ level.shift) := by
    have parts := Nat.div_add_mod expires.toNat (2 ^ level.shift)
    omega
  constructor
  · rw [same]
    exact Nat.mul_mod_right _ _
  · apply eq_of_toNat_eq
    rw [toNat_index, toNat_index, same, Nat.mul_div_cancel_left _ (Nat.two_pow_pos _)]

/-- A timer that is cascaded does not come back to the slot of the cascade, so that the loop over
this slot ends and takes every timer once. -/
theorem timerWheelSlot_ne {level : Level} (below : level ≠ .vec1)
    (aligned : jiffies.toNat % 2 ^ level.shift = 0) : timerWheelSlot expires jiffies ≠ level.slot jiffies := by
  have value : (expires - jiffies).toNat = (2 ^ 32 - jiffies.toNat + expires.toNat) % 2 ^ 32 := toNat_sub _ _
  -- The index at a level would be the one of a tick that is less than one slot away.
  have away : ∀ far : Level, far ≠ .vec1 → 2 ^ far.shift ≤ (expires - jiffies).toNat →
      (expires - jiffies).toNat < 2 ^ (far.shift + 6) → far.slot expires ≠ level.slot jiffies := by
    intro far deep least most same
    obtain rfl : far = level := congrArg Slot.level same
    have index := congrArg (fun slot => slot.index.toNat) same
    simp only [slot, toNat_index, deep, if_false] at index
    cases far <;> simp only [shift] at index aligned least most deep <;> omega
  have first : ∀ x, vec1.slot x ≠ level.slot jiffies := fun x same => below (congrArg Slot.level same).symm
  unfold timerWheelSlot
  dsimp only
  split_ifs with past near two three four
  · exact first _
  · exact first _
  · exact away .vec2 (by decide) (Nat.le_of_not_lt near) two
  · exact away .vec3 (by decide) (Nat.le_of_not_lt two) three
  · exact away .vec4 (by decide) (Nat.le_of_not_lt three) four
  · refine away .vec5 (by decide) (Nat.le_of_not_lt four) ?_
    simp only [shift]
    omega

/-! ### Places -/

namespace Wheel

variable {w : Wheel ι} {id x : ι} {o : Option Slot}

/-- Where a timer is: once in the list of a slot, or in none. -/
def At (w : Wheel ι) (id : ι) (o : Option Slot) : Prop :=
  ∀ slot, (w.vec slot).count id = if o = some slot then 1 else 0

theorem At.mem_iff (at_ : w.At id o) (slot : Slot) : id ∈ w.vec slot ↔ o = some slot := by
  rw [← count_pos_iff, at_ slot]
  split <;> simp_all

theorem At.add_self (at_ : w.At id none) : (w.add id).At id (some (timerWheelSlot (w.expires id) w.jiffies)) := by
  intro slot
  have absent := at_ slot
  obtain rfl | here := eq_or_ne slot (timerWheelSlot (w.expires id) w.jiffies)
  · simp only [add, update_self, count_append, absent]
    simp
  · simp only [add, update_of_ne here, absent]
    simp [Ne.symm here]

theorem At.add_other (at_ : w.At id o) (other : x ≠ id) : (w.add x).At id o := by
  intro slot
  rw [← at_ slot]
  obtain rfl | here := eq_or_ne slot (timerWheelSlot (w.expires x) w.jiffies)
  · simp [add, count_append, other]
  · simp [add, update_of_ne here]

theorem At.del_self (at_ : w.At id o) : (w.del id).At id none := by
  intro slot
  have once := at_ slot
  simp only [del, count_erase_self, once, reduceCtorEq, if_false]
  split <;> rfl

theorem At.del_other (at_ : w.At id o) (other : x ≠ id) : (w.del x).At id o := by
  intro slot
  rw [← at_ slot]
  exact count_erase_of_ne (Ne.symm other)

/-- Timers that are taken out and added again are in their new slots, and the others where they
were. -/
theorem At.move (nodes : List ι) (at_ : w.At id o) : let w' := nodes.foldl (fun w id => (w.del id).add id) w
    w'.jiffies = w.jiffies ∧ w'.expires = w.expires ∧
      w'.At id (if id ∈ nodes then some (timerWheelSlot (w.expires id) w.jiffies) else o) := by
  induction nodes generalizing w o with
  | nil => exact ⟨rfl, rfl, by simpa using at_⟩
  | cons x nodes ih =>
    obtain rfl | here := eq_or_ne x id
    · obtain ⟨jiffies, expires, moved⟩ := ih at_.del_self.add_self
      refine ⟨jiffies, expires, ?_⟩
      have same : Wheel.At _ x (if x ∈ nodes then some (timerWheelSlot (w.expires x) w.jiffies)
          else some (timerWheelSlot (w.expires x) w.jiffies)) := moved
      rw [ite_self] at same
      rw [if_pos mem_cons_self]
      exact same
    · obtain ⟨jiffies, expires, moved⟩ := ih ((at_.del_other here).add_other here)
      refine ⟨jiffies, expires, ?_⟩
      simp only [mem_cons, Ne.symm here, false_or]
      exact moved

theorem At.cascade (at_ : w.At id o) (slot : Slot) :
    (w.cascade slot).jiffies = w.jiffies ∧ (w.cascade slot).expires = w.expires ∧
      (w.cascade slot).At id (if o = some slot then some (timerWheelSlot (w.expires id) w.jiffies) else o) := by
  have moved := at_.move (w.vec slot)
  simp only [at_.mem_iff slot] at moved
  exact moved

theorem At.delAll (nodes : List ι) (at_ : w.At id o) :
    (nodes.foldl del w).jiffies = w.jiffies ∧ (nodes.foldl del w).expires = w.expires ∧
      (nodes.foldl del w).At id (if id ∈ nodes then none else o) := by
  induction nodes generalizing w o with
  | nil => exact ⟨rfl, rfl, by simpa using at_⟩
  | cons x nodes ih =>
    obtain rfl | here := eq_or_ne x id
    · obtain ⟨jiffies, expires, moved⟩ := ih at_.del_self
      refine ⟨jiffies, expires, ?_⟩
      rw [ite_self] at moved
      rw [if_pos mem_cons_self]
      exact moved
    · obtain ⟨jiffies, expires, moved⟩ := ih (at_.del_other here)
      refine ⟨jiffies, expires, ?_⟩
      simp only [mem_cons, Ne.symm here, false_or]
      exact moved

/-- A cascade takes every timer out of its slot: none comes back to it while the loop runs. -/
theorem cascade_empties (linked : ∀ id, ∃ o, w.At id o) {level : Level} (below : level ≠ .vec1)
    (aligned : w.jiffies.toNat % 2 ^ level.shift = 0) :
    (w.cascade (level.slot w.jiffies)).vec (level.slot w.jiffies) = [] := by
  refine eq_nil_iff_forall_not_mem.mpr fun id mem => ?_
  obtain ⟨o, at_⟩ := linked id
  have here := ((at_.cascade _).2.2.mem_iff _).mp mem
  split at here
  · exact timerWheelSlot_ne below aligned (Option.some.inj here)
  · contradiction

theorem cascade_empties_second : (cascade ⟨fun p => if p = vec2.slot 256 then [7] else [], fun _ => 300, 256⟩
    (vec2.slot 256)).vec (vec2.slot 256) = [] := by
  refine cascade_empties (fun id => ⟨if id = 7 then some (vec2.slot 256) else none, fun p => ?_⟩) (by decide) rfl
  grind

end Wheel

end Jlos.TimerWheel
