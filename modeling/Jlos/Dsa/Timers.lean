import Jlos.Dsa.TimerWheel
import Jlos.Lib.Run

/-!
# Timers

What the callers of the timer wheel see: every timer expires exactly once, at its tick, unless it is
deleted before. Ticks are counted from the initialisation of the wheel, so that two ticks with the
same 32-bit number are told apart.
-/
namespace Jlos.TimerWheel

open Lib Function List BitVec Option Level

variable {ι : Type} [DecidableEq ι] {w : Wheel ι} {id id : ι} {r : Nat} {expires j : BitVec 32}

/-! ### One tick -/

namespace Wheel

/-- A timer whose tick is `r` away, with the slots of the levels `L` cascaded. -/
def Waits (L : Level → Prop) (w : Wheel ι) (id : ι) (r : Nat) : Prop :=
  r < 2 ^ 31 ∧ ∃ p, w.At id (some p) ∧ Fits (w.expires id) w.jiffies r p ∧
    (L p.level → Settled (w.expires id) r p)

variable {L : Level → Prop}

/-- One of the cascades of a turn, by the ticks at which it is made. -/
def cascadeAt (w : Wheel ι) (level : Level) : Wheel ι :=
  if w.jiffies.toNat % 2 ^ level.shift = 0 then w.cascade (level.slot w.jiffies) else w

theorem cascade_jiffies (w : Wheel ι) (slot : Slot) : (w.cascade slot).jiffies = w.jiffies := by
  unfold cascade
  generalize w.vec slot = nodes
  induction nodes generalizing w with
  | nil => rfl
  | cons x nodes ih => exact ih ((w.del x).add x)

theorem cascadeAt_jiffies (w : Wheel ι) (level : Level) : (w.cascadeAt level).jiffies = w.jiffies := by
  unfold cascadeAt
  split
  · exact cascade_jiffies w _
  · rfl

theorem cascadeAt_eq (same : w.jiffies = j) (level : Level) :
    w.cascadeAt level = if j.toNat % 2 ^ level.shift = 0 then w.cascade (level.slot j) else w := by
  subst same
  rfl

/-- Each level is cascaded at the multiples of its slots, lower levels first. -/
theorem cascades_eq (w : Wheel ι) :
    w.cascades = (((w.cascadeAt .vec2).cascadeAt .vec3).cascadeAt .vec4).cascadeAt .vec5 := by
  have same2 : (w.cascadeAt .vec2).jiffies = w.jiffies := cascadeAt_jiffies w _
  have same3 : ((w.cascadeAt .vec2).cascadeAt .vec3).jiffies = w.jiffies := (cascadeAt_jiffies _ _).trans same2
  have same4 : (((w.cascadeAt .vec2).cascadeAt .vec3).cascadeAt .vec4).jiffies = w.jiffies :=
    (cascadeAt_jiffies _ _).trans same3
  rw [cascadeAt_eq same4, cascadeAt_eq same3, cascadeAt_eq same2, cascadeAt_eq rfl]
  have zero : ∀ level : Level, level.index w.jiffies = 0 ↔ (level.index w.jiffies).toNat = 0 :=
    fun level => toNat_eq
  have first : vec1.index w.jiffies = 0 ↔ w.jiffies.toNat % 2 ^ vec2.shift = 0 := by
    rw [zero, toNat_index, if_pos rfl]
    simp [shift]
  have second : w.jiffies.toNat % 2 ^ vec2.shift = 0 ∧ vec2.index w.jiffies = 0 ↔
      w.jiffies.toNat % 2 ^ vec3.shift = 0 := by
    simp only [zero, toNat_index, shift, reduceCtorEq, if_false]
    omega
  have third : w.jiffies.toNat % 2 ^ vec3.shift = 0 ∧ vec3.index w.jiffies = 0 ↔
      w.jiffies.toNat % 2 ^ vec4.shift = 0 := by
    simp only [zero, toNat_index, shift, reduceCtorEq, if_false]
    omega
  have fourth : w.jiffies.toNat % 2 ^ vec4.shift = 0 ∧ vec4.index w.jiffies = 0 ↔
      w.jiffies.toNat % 2 ^ vec5.shift = 0 := by
    simp only [zero, toNat_index, shift, reduceCtorEq, if_false]
    omega
  unfold cascades
  by_cases one : w.jiffies.toNat % 2 ^ vec2.shift = 0 <;> by_cases two : vec2.index w.jiffies = 0 <;>
    by_cases three : vec3.index w.jiffies = 0 <;> by_cases four : vec4.index w.jiffies = 0 <;>
    simp only [first, ← second, ← third, ← fourth, one, two, three, four, and_true, and_false, if_true, if_false]

/-- Once its level has been cascaded, a timer needs no other cascade at this tick. -/
theorem Waits.cascadeAt (waits : w.Waits L id r) (level : Level) (below : level ≠ .vec1) :
    (w.cascadeAt level).Waits (fun l => L l ∨ l = level) id r := by
  obtain ⟨lt, p, place, fits, settled⟩ := waits
  -- The cascade is needed exactly if the low bits of the expiry are what is left.
  have due : ∀ {q : Slot}, Fits (w.expires id) w.jiffies r q → q.level = level →
      (w.jiffies.toNat % 2 ^ level.shift = 0 → q ≠ level.slot w.jiffies) → Settled (w.expires id) r q := by
    rintro q (⟨rfl, -⟩ | ⟨-, slot, sum, low⟩) rfl away deep
    · exact absurd rfl deep
    · refine Nat.lt_of_le_of_ne low fun now => ?_
      obtain ⟨aligned, index⟩ := aligned_of_eq sum lt now
      refine away aligned ?_
      rw [slot, Level.slot, Level.slot, index]
  unfold Wheel.cascadeAt
  split
  case isFalse unaligned =>
    refine ⟨lt, p, place, fits, ?_⟩
    rintro (done | here)
    · exact settled done
    · exact due fits here fun aligned => absurd aligned unaligned
  case isTrue aligned =>
    obtain ⟨jiffies, expires, moved⟩ := place.cascade (level.slot w.jiffies)
    rw [Waits, jiffies, expires]
    by_cases here : p = level.slot w.jiffies
    · rw [if_pos (congrArg some here)] at moved
      have sum : w.expires id = w.jiffies + BitVec.ofNat 32 r := by
        rcases fits with ⟨first, -⟩ | ⟨-, -, sum, -⟩
        · exact absurd (congrArg Slot.level (here.symm.trans first)) below
        · exact sum
      have distance : ahead (w.expires id) w.jiffies = r := by
        rw [sum]
        exact ahead_add lt _
      have next := fits_timerWheelSlot (w.expires id) w.jiffies
      rw [distance] at next
      exact ⟨lt, _, moved, next.1, fun _ => next.2⟩
    · rw [if_neg fun eq => here (some.inj eq)] at moved
      refine ⟨lt, p, moved, fits, ?_⟩
      rintro (done | same)
      · exact settled done
      · exact due fits same fun _ => here

theorem Waits.cascades (waits : w.Waits (fun _ => False) id r) : w.cascades.Waits (fun _ => True) id r := by
  have all := (((waits.cascadeAt .vec2 (by decide)).cascadeAt .vec3 (by decide)).cascadeAt .vec4 (by decide)).cascadeAt
    .vec5 (by decide)
  rw [cascades_eq]
  obtain ⟨lt, p, place, fits, settled⟩ := all
  refine ⟨lt, p, place, fits, fun _ deep => ?_⟩
  refine settled ?_ deep
  cases level : p.level <;> simp_all

/-- A timer that is in no list, or whose tick is `r` away. -/
def Track (w : Wheel ι) (id : ι) : Option Nat → Prop
  | none => w.At id none
  | some r => w.Waits (fun _ => False) id r

variable {o : Option Nat}

theorem absent_cascades (absent : w.At id none) : w.cascades.At id none := by
  have one : ∀ {w : Wheel ι} (level : Level), w.At id none → (w.cascadeAt level).At id none := by
    intro w level absent
    unfold cascadeAt
    split
    · have moved := (absent.cascade (level.slot w.jiffies)).2.2
      rwa [if_neg (by simp)] at moved
    · exact absent
  rw [cascades_eq]
  exact one _ (one _ (one _ (one _ absent)))

theorem cascades_jiffies (w : Wheel ι) : w.cascades.jiffies = w.jiffies := by
  simp only [cascades_eq, cascadeAt_jiffies]

theorem tick_jiffies (w : Wheel ι) : w.tick.1.jiffies = w.jiffies + 1 :=
  List.foldlRecOn (motive := fun w' : Wheel ι => w'.jiffies = w.jiffies + 1) _ del rfl fun _ same _ _ => same

theorem Fits.due_iff {p : Slot} (fits : Fits expires j r p) (settled : Settled expires r p) :
    p = vec1.slot j ↔ r = 0 := by
  rcases fits with ⟨rfl, near⟩ | ⟨deep, -⟩
  · constructor
    · intro same
      have index := congrArg BitVec.toNat (congrArg Slot.index same)
      simp only [Level.slot, toNat_index, shift, if_true, toNat_add, toNat_ofNat] at index
      omega
    · rintro rfl
      rw [BitVec.add_zero]
  · constructor
    · rintro rfl
      exact absurd rfl deep
    · rintro rfl
      exact absurd (settled deep) (Nat.not_lt_zero _)

theorem Fits.next {p : Slot} (fits : Fits expires j (r + 1) p)
    (settled : Settled expires (r + 1) p) : Fits expires (j + 1) r p := by
  have sum : j + BitVec.ofNat 32 (r + 1) = j + 1 + BitVec.ofNat 32 r := by
    rw [BitVec.add_assoc, Nat.add_comm, BitVec.ofNat_add]
    rfl
  rcases fits with ⟨rfl, near⟩ | ⟨deep, slot, value, -⟩
  · refine Or.inl ⟨?_, by omega⟩
    rw [sum]
  · exact Or.inr ⟨deep, slot, value.trans sum, Nat.le_of_lt_succ (settled deep)⟩

/-- A turn expires the timers of its tick, each once, and brings the others one tick nearer. -/
theorem Track.tick (track : w.Track id o) : w.tick.2.count id = (if o = some 0 then 1 else 0) ∧
      w.tick.1.Track id (o.bind fun r => if r = 0 then none else some (r - 1)) := by
  have jiffies := w.cascades_jiffies
  cases o with
  | none =>
    have absent : Wheel.At { w.cascades with jiffies := w.jiffies + 1 } id none := absent_cascades track
    have gone := (absent.delAll (w.cascades.vec (vec1.slot w.jiffies))).2.2
    rw [ite_self] at gone
    exact ⟨absent _, gone⟩
  | some r =>
    obtain ⟨lt, p, place, fits, settled⟩ := Waits.cascades track
    have moved : Wheel.At { w.cascades with jiffies := w.jiffies + 1 } id (some p) := place
    have due := Fits.due_iff fits (settled trivial)
    rw [jiffies] at due fits
    have members : id ∈ w.cascades.vec (vec1.slot w.jiffies) ↔ r = 0 := by
      rw [place.mem_iff, some.injEq, due]
    obtain ⟨later, kept, gone⟩ := moved.delAll (w.cascades.vec (vec1.slot w.jiffies))
    simp only [members] at gone
    constructor
    · have once := place (vec1.slot w.jiffies)
      simp only [some.injEq, due] at once ⊢
      exact once
    · cases r with
      | zero => exact gone
      | succ r =>
        refine ⟨by omega, p, gone, ?_, fun never => never.elim⟩
        have jiffies' : w.tick.1.jiffies = w.jiffies + 1 := later
        have expires' : w.tick.1.expires = w.cascades.expires := kept
        rw [jiffies', expires']
        exact Fits.next fits (settled trivial)

end Wheel

/-! ### Advancing -/

def span (now jiffies : BitVec 32) : Nat := ((now - jiffies).toInt + 1).toNat

/-- The calls of an advance with the numbers of their ticks. -/
def stamp (t : Nat) : List (List ι) → List (ι × Nat)
  | [] => []
  | ids :: rest => ids.map (fun id => (id, t)) ++ stamp (t + 1) rest

theorem ofThread_map (ids : List ι) (id : ι) (t : Nat) :
    ofThread id (ids.map fun id => (id, t)) = List.replicate (ids.count id) t := by
  induction ids with
  | nil => rfl
  | cons x ids ih =>
    have tail : ofThread id ((x :: ids).map fun id => (id, t)) =
        ofThread id [(x, t)] ++ ofThread id (ids.map fun id => (id, t)) := ofThread_append id [(x, t)] _
    rw [tail, ih]
    obtain rfl | here := eq_or_ne x id
    · rw [ofThread_self, List.count_cons_self, List.replicate_succ]
      rfl
    · rw [ofThread_other (Ne.symm here), count_cons_of_ne here]
      rfl

theorem span_succ {now jiffies : BitVec 32} (ahead : ¬(now - jiffies).toInt < 0) :
    span now jiffies = span now (jiffies + 1) + 1 := by
  have next : (now - (jiffies + 1)).toInt = (now - jiffies).toInt - 1 := by
    have low : (now - (jiffies + 1)) = (now - jiffies) - 1 := by
      rw [sub_sub]
    rw [low, toInt_sub, Int.bmod_eq_of_le]
    · rfl
    · have one : (1 : BitVec 32).toInt = 1 := rfl
      omega
    · have one : (1 : BitVec 32).toInt = 1 := rfl
      have bound := (now - jiffies).toInt_lt
      omega
  unfold span
  omega

namespace Wheel

theorem advanceLoop_jiffies (w : Wheel ι) (now : BitVec 32) (fuel : Nat) (enough : span now w.jiffies ≤ fuel) :
    (advanceLoop now fuel w).1.jiffies = w.jiffies + BitVec.ofNat 32 (span now w.jiffies) := by
  induction fuel generalizing w with
  | zero =>
    rw [Nat.le_zero.mp enough]
    exact (BitVec.add_zero _).symm
  | succ fuel ih =>
    unfold Wheel.advanceLoop
    split
    case isTrue past =>
      have none : span now w.jiffies = 0 := by
        unfold span
        omega
      rw [none]
      exact (BitVec.add_zero _).symm
    case isFalse ahead =>
      have step := span_succ ahead
      have later := ih w.tick.1 (by rw [tick_jiffies]; omega)
      rw [tick_jiffies] at later
      rw [later, step, BitVec.add_assoc, Nat.add_comm (span _ _), BitVec.ofNat_add]
      rfl

/-- An advance expires the timers of its ticks, each once and at its own tick, and brings the others
nearer. -/
theorem Track.advanceLoop {o : Option Nat} (track : w.Track id o) (now : BitVec 32) (fuel t : Nat)
    (enough : span now w.jiffies ≤ fuel) : ofThread id (stamp t (advanceLoop now fuel w).2) =
        ((o.filter fun r => r < span now w.jiffies).map fun r => t + r).toList ∧ (advanceLoop now fuel w).1.Track id
        ((o.filter fun r => span now w.jiffies ≤ r).map fun r => r - span now w.jiffies) := by
  -- The induction is on the fuel; every turn uses one tick of the span.
  induction fuel generalizing w o t with
  | zero =>
    have none : span now w.jiffies = 0 := Nat.le_zero.mp enough
    rw [none]
    constructor
    · cases o <;> rfl
    · cases o <;> exact track
  | succ fuel ih =>
    unfold Wheel.advanceLoop
    split
    case isTrue past =>
      have none : span now w.jiffies = 0 := by
        unfold span
        omega
      rw [none]
      constructor
      · cases o <;> rfl
      · cases o <;> exact track
    case isFalse ahead =>
      obtain ⟨count, next⟩ := track.tick
      have step := span_succ ahead
      obtain ⟨calls, last⟩ := ih next (t + 1) (by rw [tick_jiffies]; omega)
      rw [tick_jiffies] at calls last
      rw [step]
      constructor
      · simp only [stamp, ofThread_append, ofThread_map, count, calls]
        generalize span now (w.jiffies + 1) = n
        cases o with
        | none => rfl
        | some r =>
          cases r with
          | zero => simp [Option.filter]
          | succ r =>
            by_cases lt : r < n
            · simp [Option.filter, lt]
              omega
            · simp [Option.filter, lt]
      · generalize span now (w.jiffies + 1) = n at last
        cases o with
        | none => exact last
        | some r =>
          cases r with
          | zero => simpa [Option.filter] using last
          | succ r =>
            by_cases le : n ≤ r
            · simpa [Option.filter, le] using last
            · simpa [Option.filter, le] using last

end Wheel

/-! ### The callers -/

/-- A wheel, the number of ticks it has processed, and the callers' books: the number of the tick of
each timer that was added and has neither been deleted nor come to its tick. -/
structure Timers (ι : Type) where
  wheel : Wheel ι
  ticks : Nat
  due : ι → Option Nat

inductive Op (ι : Type)
  /-- Sets `expires` of a timer that is not in the books, and adds it. -/
  | add (id : ι) (expires : BitVec 32)
  | del (id : ι)
  | advance (now : BitVec 32)
  deriving DecidableEq

namespace Timers

def start (jiffies : BitVec 32) (expires : ι → BitVec 32) : Timers ι := ⟨.init jiffies expires, 0, fun _ => none⟩

def exec (s : Timers ι) : Op ι → Option (Timers ι)
  | .add id expires =>
    if s.due id = none then
      let wheel := { s.wheel with expires := update s.wheel.expires id expires }
      some { s with
        wheel := wheel.add id, due := update s.due id (some (s.ticks + ahead expires s.wheel.jiffies)) }
    else none
  | .del id => some { s with wheel := s.wheel.del id, due := update s.due id none }
  | .advance now =>
    let ticks := s.ticks + span now s.wheel.jiffies
    some { wheel := (s.wheel.advance now).1, ticks, due := fun id => (s.due id).filter fun d => ticks ≤ d }

def step (s : Timers ι) (op : Op ι) (s' : Timers ι) : Prop := s.exec op = some s'

/-- The calls of `expire` in a step, each with the number of its tick. -/
def calls : Timers ι × Op ι → List (ι × Nat)
  | (s, .advance now) => stamp s.ticks (s.wheel.advance now).2
  | _ => []

/-- An operation that adds or deletes a timer. -/
def Op.Touches (id : ι) : Op ι → Prop
  | .add x _ => x = id
  | .del x => x = id
  | .advance _ => False

variable {s s' s₀ : Timers ι} {op : Op ι} {es : List (Timers ι × Op ι)} {jiffies : BitVec 32}

/-- The wheel agrees with the books. -/
structure Inv (jiffies : BitVec 32) (s : Timers ι) : Prop where
  jiffies : s.wheel.jiffies = jiffies + BitVec.ofNat 32 s.ticks
  ahead : ∀ id d, s.due id = some d → s.ticks ≤ d
  track : ∀ id, s.wheel.Track id ((s.due id).map fun d => d - s.ticks)

theorem Inv.start (jiffies : BitVec 32) (expires : ι → BitVec 32) : Inv jiffies (start jiffies expires) where
  jiffies := (BitVec.add_zero _).symm
  ahead := fun _ _ never => by cases never
  track := fun _ _ => rfl

/-- What changes one timer leaves the others where they are. -/
theorem track_congr {w w' : Wheel ι} {o : Option Nat} (track : w.Track id o)
    (place : ∀ {p}, w.At id p → w'.At id p) (expires : w'.expires id = w.expires id)
    (jiffies : w'.jiffies = w.jiffies) :
    w'.Track id o := by
  cases o with
  | none => exact place track
  | some r =>
    obtain ⟨lt, p, at_, fits, -⟩ := track
    refine ⟨lt, p, place at_, ?_, fun never => never.elim⟩
    rw [expires, jiffies]
    exact fits

theorem span_le (now jiffies : BitVec 32) : span now jiffies ≤ (now - jiffies).toNat + 1 := by
  have most : (now - jiffies).toInt ≤ (now - jiffies).toNat := by
    rw [toInt_eq_toNat_cond]
    split <;> omega
  unfold span
  omega

attribute [local simp] Option.filter

/-- What an advance does to one timer, by the books. -/
theorem Inv.advance (inv : Inv jiffies s) (now : BitVec 32) (id : ι) : ofThread id (calls (s, .advance now)) =
        ((s.due id).filter fun d => d < s.ticks + span now s.wheel.jiffies).toList ∧
      (s.wheel.advance now).1.Track id (((s.due id).filter fun d => s.ticks + span now s.wheel.jiffies ≤ d).map
        fun d => d - (s.ticks + span now s.wheel.jiffies)) := by
  obtain ⟨fired, last⟩ := (inv.track id).advanceLoop now _ s.ticks (span_le now s.wheel.jiffies)
  change (s.wheel.advance now).1.Track id _ at last
  generalize span now s.wheel.jiffies = n at fired last ⊢
  refine ⟨fired.trans ?_, ?_⟩
  · cases book : s.due id with
    | none => rfl
    | some d =>
      have first := inv.ahead id d book
      by_cases lt : d < s.ticks + n
      · have near : d - s.ticks < n := by omega
        simp [lt, near]
        omega
      · have far : ¬d - s.ticks < n := by omega
        simp [lt, far]
  · cases book : s.due id with
    | none =>
      rw [book] at last
      exact last
    | some d =>
      have first := inv.ahead id d book
      rw [book] at last
      by_cases le : s.ticks + n ≤ d
      · have far : n ≤ d - s.ticks := by omega
        simpa [le, far, Nat.sub_sub] using last
      · have near : ¬n ≤ d - s.ticks := by omega
        simpa [le, near] using last

theorem Inv.add (inv : Inv jiffies s) (taken : s.exec (.add id expires) = some s') : Inv jiffies s' := by
  simp only [exec] at taken
  split at taken
  case isFalse => cases taken
  case isTrue free =>
    cases taken
    constructor
    case jiffies => exact inv.jiffies
    case ahead =>
      intro x d book
      rcases of_update book with ⟨-, here⟩ | ⟨-, book⟩
      · cases here
        exact Nat.le_add_right _ _
      · exact inv.ahead x d book
    case track =>
      intro x
      obtain rfl | here := eq_or_ne x id
      · have absent := inv.track x
        rw [free] at absent
        simp only [update_self, map_some, Nat.add_sub_cancel_left]
        have added := Wheel.At.add_self (w := { s.wheel with expires := update s.wheel.expires x expires }) absent
        have fits := (fits_timerWheelSlot expires s.wheel.jiffies).1
        simp only [update_self] at added
        refine ⟨ahead_lt _ _, _, added, ?_, fun never => never.elim⟩
        simpa only [Wheel.add, update_self] using fits
      · simp only [update_of_ne here]
        refine track_congr (inv.track x) (fun at_ => ?_) (update_of_ne here _ _) rfl
        exact Wheel.At.add_other (w := { s.wheel with expires := update s.wheel.expires id expires }) at_
          (Ne.symm here)

theorem Inv.del (inv : Inv jiffies s) (taken : s.exec (.del id) = some s') : Inv jiffies s' := by
  cases taken
  constructor
  case jiffies => exact inv.jiffies
  case ahead =>
    intro x d book
    rcases of_update book with ⟨-, here⟩ | ⟨-, book⟩
    · cases here
    · exact inv.ahead x d book
  case track =>
    intro x
    obtain rfl | here := eq_or_ne x id
    · simp only [update_self, map_none]
      cases book : s.due x with
      | none =>
        have absent := inv.track x
        rw [book] at absent
        exact Wheel.At.del_self absent
      | some d =>
        have waits := inv.track x
        rw [book] at waits
        obtain ⟨-, p, at_, -⟩ := waits
        exact at_.del_self
    · simp only [update_of_ne here]
      exact track_congr (inv.track x) (fun at_ => at_.del_other (Ne.symm here)) rfl rfl

theorem Inv.step (inv : Inv jiffies s) (taken : step s op s') : Inv jiffies s' := by
  cases op with
  | add id expires => exact inv.add taken
  | del id => exact inv.del taken
  | advance now =>
    have moved := inv.advance now
    cases taken
    constructor
    case jiffies =>
      have later := s.wheel.advanceLoop_jiffies now _ (span_le now s.wheel.jiffies)
      rw [inv.jiffies, BitVec.add_assoc, ← BitVec.ofNat_add, ← inv.jiffies] at later
      exact later
    case ahead =>
      intro id d book
      obtain ⟨-, later⟩ := filter_eq_some_iff.mp book
      exact of_decide_eq_true later
    case track => exact fun id => (moved id).2

/-! ### Runs -/

/-- As long as nobody adds or deletes a timer, it expires at the tick of the books and at no
other. -/
theorem calls_of_untouched (inv : Inv jiffies s₀) (run : Run step s₀ es s) (untouched : ∀ e ∈ es, ¬Op.Touches id e.2) :
    Inv jiffies s ∧ s₀.ticks ≤ s.ticks ∧ s.due id = ((s₀.due id).filter fun d => s.ticks ≤ d) ∧
      ofThread id (es.flatMap calls) = ((s₀.due id).filter fun d => d < s.ticks).toList := by
  induction run with
  | start =>
    refine ⟨inv, Nat.le_refl _, ?_, ?_⟩
    · cases book : s₀.due id with
      | none => rfl
      | some d => simp [inv.ahead id d book]
    · cases book : s₀.due id with
      | none => rfl
      | some d => simp [Nat.not_lt.mpr (inv.ahead id d book)]
  | @snoc es s op s' run taken ih =>
    obtain ⟨now, grows, book, fired⟩ := ih fun e mem => untouched e (mem_append_left _ mem)
    have free : ¬Op.Touches id op := untouched (s, op) (by simp)
    refine ⟨now.step taken, ?_⟩
    rw [flatMap_append, ofThread_append, fired]
    cases op with
    | add x expires =>
      obtain ⟨-, ⟨⟩⟩ := ite_none_right_eq_some.mp taken
      refine ⟨grows, ?_, append_nil _⟩
      rw [← book]
      exact update_of_ne (Ne.symm free) _ _
    | del x =>
      cases taken
      refine ⟨grows, ?_, append_nil _⟩
      rw [← book]
      exact update_of_ne (Ne.symm free) _ _
    | advance at_ =>
      have more := (now.advance at_ id).1
      cases taken
      rw [flatMap_singleton, more]
      dsimp only
      rw [book]
      -- The ticks that pass split the bookings into those that fire now and the rest.
      generalize span at_ s.wheel.jiffies = n
      refine ⟨by omega, ?_, ?_⟩
      · cases s₀.due id with
        | none => rfl
        | some d =>
          by_cases before : s.ticks ≤ d
          · simp [before]
          · have gone : ¬s.ticks + n ≤ d := by omega
            simp [before, gone]
      · cases s₀.due id with
        | none => rfl
        | some d =>
          by_cases before : s.ticks ≤ d
          · have late : ¬d < s.ticks := by omega
            simp [before, late]
          · have early : d < s.ticks := by omega
            have soon : d < s.ticks + n := by omega
            simp [before, early, soon]

/-- In every run from any initial `jiffies`: a timer that is added and not touched again expires
once, at the later of the tick of its expiry and the next tick to be processed, as soon as this tick
is processed, and never else; one that is deleted, or was never added, does not expire. The number
of a tick gives its `jiffies`. -/
theorem timers_expire {jiffies : BitVec 32} {expires : ι → BitVec 32} {es : List (Timers ι × Op ι)} {s : Timers ι}
    (run : Run step (start jiffies expires) es s) : s.wheel.jiffies = jiffies + BitVec.ofNat 32 s.ticks ∧
    (∀ es₁ s₁ id e es₂, es = es₁ ++ (s₁, .add id e) :: es₂ → (∀ ev ∈ es₂, ¬Op.Touches id ev.2) →
      ofThread id (es₂.flatMap calls) =
        if s₁.ticks + ahead e s₁.wheel.jiffies < s.ticks then [s₁.ticks + ahead e s₁.wheel.jiffies] else []) ∧
    (∀ es₁ s₁ id es₂, es = es₁ ++ (s₁, .del id) :: es₂ → (∀ ev ∈ es₂, ¬Op.Touches id ev.2) →
      ofThread id (es₂.flatMap calls) = []) ∧
    ∀ id, (∀ ev ∈ es, ¬Op.Touches id ev.2) → ofThread id (es.flatMap calls) = [] := by
  have initial := Inv.start jiffies expires
  have inv : Inv jiffies s := (run.invariant initial fun _ _ _ inv taken => inv.step taken).1
  refine ⟨inv.jiffies, ?_, ?_, ?_⟩
  · rintro es₁ s₁ id e es₂ rfl untouched
    obtain ⟨before, s₂, taken, after⟩ := run.split
    have now : Inv jiffies s₁ := (before.invariant initial fun _ _ _ inv taken => inv.step taken).1
    have book : s₂.due id = some (s₁.ticks + ahead e s₁.wheel.jiffies) := by
      obtain ⟨-, ⟨⟩⟩ := ite_none_right_eq_some.mp taken
      exact update_self _ _ _
    obtain ⟨-, -, -, fired⟩ := calls_of_untouched (now.step taken) after untouched
    rw [fired, book]
    by_cases past : s₁.ticks + ahead e s₁.wheel.jiffies < s.ticks
    · simp [past]
    · simp [past]
  · rintro es₁ s₁ id es₂ rfl untouched
    obtain ⟨before, s₂, taken, after⟩ := run.split
    have now : Inv jiffies s₁ := (before.invariant initial fun _ _ _ inv taken => inv.step taken).1
    have book : s₂.due id = none := by
      cases taken
      exact update_self _ _ _
    obtain ⟨-, -, -, fired⟩ := calls_of_untouched (now.step taken) after untouched
    rw [fired, book]
    rfl
  · intro id untouched
    exact (calls_of_untouched initial run untouched).2.2.2

/-- A timer that expires behind the wrap of `jiffies`, two levels up. -/
theorem timer_expires_behind_wrap : ∃ es s, Run step (start (2 ^ 32 - 10) fun _ : Nat => 0) es s ∧
    es.map Prod.snd = [.add 7 300, .advance 300] ∧ ofThread 7 (es.flatMap calls) = [310] := by
  obtain ⟨s₁, first, jiffies, ticks⟩ : ∃ s₁, exec (start (2 ^ 32 - 10) fun _ : Nat => 0) (.add 7 300) = some s₁ ∧
      s₁.wheel.jiffies = 2 ^ 32 - 10 ∧ s₁.ticks = 0 := ⟨_, rfl, rfl, rfl⟩
  obtain ⟨s, second, last⟩ : ∃ s, exec s₁ (.advance 300) = some s ∧ s.ticks = s₁.ticks + span 300 s₁.wheel.jiffies :=
    ⟨_, rfl, rfl⟩
  have run : Run step (start (2 ^ 32 - 10) fun _ : Nat => 0) _ s := (Run.start.snoc first).snoc second
  refine ⟨_, s, run, rfl, ?_⟩
  have fired := (timers_expire run).2.1 [] _ 7 300 [(s₁, .advance 300)] rfl (by simp [Op.Touches])
  have due : 0 + ahead 300 (2 ^ 32 - 10) = 310 := by decide
  have past : 310 < s.ticks := by
    rw [last, ticks, jiffies]
    decide
  change _ = if 0 + ahead 300 (2 ^ 32 - 10) < s.ticks then [0 + ahead 300 (2 ^ 32 - 10)] else [] at fired
  have quiet : calls (start (2 ^ 32 - 10) fun _ : Nat => 0, .add 7 300) = [] := rfl
  rw [due, if_pos past] at fired
  rw [nil_append, flatMap_append, flatMap_singleton, quiet, nil_append, fired]

end Timers

end Jlos.TimerWheel
