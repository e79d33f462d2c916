import Mathlib

/-!
# Words in a byte-addressed memory

Little-endian words, and a memory whose addresses wrap around and that remembers every range it was
accessed in.
-/
namespace Lib

open BitVec

variable {w : Nat}

/-- The `j`th byte of a word. -/
def byteOf (x : BitVec w) (j : Nat) : BitVec 8 := x.extractLsb' (8 * j) 8

/-- The word that the first `k` bytes of a sequence make. -/
def ofBytes (w : Nat) (f : Nat → BitVec 8) : Nat → BitVec w
  | 0 => 0
  | k + 1 => ofBytes w f k ||| ((f k).setWidth w <<< (8 * k))

theorem getLsbD_ofBytes (f : Nat → BitVec 8) (k i : Nat) (lt : i < w) :
    (ofBytes w f k).getLsbD i = (decide (i < 8 * k) && (f (i / 8)).getLsbD (i % 8)) := by
  induction k with
  | zero => simp [ofBytes]
  | succ k ih =>
    simp only [ofBytes, getLsbD_or, ih, getLsbD_shiftLeft, getLsbD_setWidth, lt, decide_true, Bool.true_and]
    by_cases below : i < 8 * k
    · have later : i < 8 * (k + 1) := by omega
      simp [below, later]
    · by_cases here : i < 8 * (k + 1)
      · have index : i / 8 = k := by omega
        have bit : i - 8 * k = i % 8 := by omega
        have width : i % 8 < w := by omega
        simp [below, here, index, bit, width]
      · have none : (f k).getLsbD (i - 8 * k) = false := getLsbD_of_ge _ _ (by omega)
        simp [below, here, none]

theorem ofBytes_congr {f g : Nat → BitVec 8} {k : Nat} (same : ∀ j, j < k → f j = g j) :
    ofBytes w f k = ofBytes w g k := by
  induction k with
  | zero => rfl
  | succ k ih =>
    rw [ofBytes, ofBytes, ih fun j lt => same j (Nat.lt_succ_of_lt lt), same k (Nat.lt_succ_self k)]

theorem ofBytes_byteOf (x : BitVec w) {k : Nat} (fits : w ≤ 8 * k) : ofBytes w (byteOf x) k = x := by
  apply eq_of_getLsbD_eq
  intro i lt
  rw [getLsbD_ofBytes _ _ _ lt, byteOf, getLsbD_extractLsb']
  have inside : i < 8 * k := Nat.lt_of_lt_of_le lt fits
  have bit : i % 8 < 8 := Nat.mod_lt _ (by decide)
  simp [inside, bit, Nat.div_add_mod]

/-! ### Memory -/

structure Memory (w : Nat) where
  bytes : BitVec w → BitVec 8
  /-- The first address and the length of every access so far. -/
  touched : List (BitVec w × Nat)

namespace Memory

/-- The addresses of a range, which may wrap around. -/
def InRange (base : BitVec w) (len : Nat) (a : BitVec w) : Prop := (a - base).toNat < len
  deriving Decidable

def store (m : Memory w) (base : BitVec w) (len : Nat) (f : Nat → BitVec 8) : Memory w :=
  { bytes := fun a => if InRange base len a then f (a - base).toNat else m.bytes a
    touched := m.touched ++ [(base, len)] }

def read (m : Memory w) (base : BitVec w) : Nat → BitVec 8 := fun j => m.bytes (base + BitVec.ofNat w j)

def load (m : Memory w) (base : BitVec w) (len : Nat) : (Nat → BitVec 8) × Memory w :=
  (m.read base, { m with touched := m.touched ++ [(base, len)] })

variable {m : Memory w} {base : BitVec w} {len : Nat} {f : Nat → BitVec 8} {P : BitVec w → Prop}

theorem sub_base {j : Nat} (lt : j < 2 ^ w) : (base + BitVec.ofNat w j - base).toNat = j := by
  rw [BitVec.add_comm, BitVec.add_sub_cancel, BitVec.toNat_ofNat, Nat.mod_eq_of_lt lt]

theorem read_store_self {j : Nat} (lt : j < len) (fits : len ≤ 2 ^ w) : (m.store base len f).read base j = f j := by
  have offset : (base + BitVec.ofNat w j - base).toNat = j := sub_base (Nat.lt_of_lt_of_le lt fits)
  simp only [read, store, InRange, offset, lt, if_true]

theorem add_sub_add_left (a x y : BitVec w) : a + x - (a + y) = x - y := by
  rw [BitVec.sub_eq_iff_eq_add, ← BitVec.add_assoc, BitVec.add_comm (x - y) a, BitVec.add_assoc, BitVec.sub_add_cancel]

theorem read_store_behind {j start : Nat} (lt : j < start) (fits : start + len < 2 ^ w) :
    (m.store (base + BitVec.ofNat w start) len f).read base j = m.read base j := by
  have out : ¬InRange (base + BitVec.ofNat w start) len (base + BitVec.ofNat w j) := by
    have offset : (BitVec.ofNat w j - BitVec.ofNat w start).toNat = 2 ^ w - start + j := by
      rw [toNat_sub, BitVec.toNat_ofNat, BitVec.toNat_ofNat, Nat.mod_eq_of_lt (show start < 2 ^ w by omega),
        Nat.mod_eq_of_lt (show j < 2 ^ w by omega), Nat.mod_eq_of_lt (by omega)]
    rw [InRange, add_sub_add_left, offset]
    omega
  simp [read, store, if_neg out]

/-- All accesses so far were at addresses of a set. -/
def Within (m : Memory w) (P : BitVec w → Prop) : Prop := ∀ r ∈ m.touched, ∀ a, InRange r.1 r.2 a → P a

theorem within_store : (m.store base len f).Within P ↔ m.Within P ∧ ∀ a, InRange base len a → P a := by
  simp [Within, store, or_imp, forall_and]

theorem within_load : (m.load base len).2.Within P ↔ m.Within P ∧ ∀ a, InRange base len a → P a := by
  simp [Within, load, or_imp, forall_and]

/-- A range lies below a limit exactly if it ends there without wrapping around. -/
theorem inRange_below_iff {limit : Nat} (some : 0 < len) (top : limit < 2 ^ w) :
    (∀ a, InRange base len a → a.toNat < limit) ↔ base.toNat + len ≤ limit := by
  constructor
  · intro below
    have first : base.toNat < limit := below base (by rw [InRange, BitVec.sub_self]; simpa using some)
    by_contra long
    -- the address `limit` would be touched
    have there := below (BitVec.ofNat w limit) (by
      rw [InRange, toNat_sub, BitVec.toNat_ofNat, Nat.mod_eq_of_lt top,
        Nat.mod_eq_sub_mod (show 2 ^ w - base.toNat + limit ≥ 2 ^ w by omega), Nat.mod_eq_of_lt (by omega)]
      omega)
    rw [BitVec.toNat_ofNat, Nat.mod_eq_of_lt top] at there
    exact Nat.lt_irrefl limit there
  · intro fits a inside
    have sum : a.toNat = (base.toNat + (a - base).toNat) % 2 ^ w := by
      rw [← BitVec.toNat_add, BitVec.add_comm, BitVec.sub_add_cancel]
    rw [InRange] at inside
    rw [sum, Nat.mod_eq_of_lt (by omega)]
    omega

theorem below_append {limit n k : Nat} (top : limit < 2 ^ w) :
    (base.toNat + n ≤ limit ∧ (base + BitVec.ofNat w n).toNat + k ≤ limit) ↔ base.toNat + (n + k) ≤ limit := by
  have value : base.toNat + n ≤ limit → (base + BitVec.ofNat w n).toNat = base.toNat + n := by
    intro fits
    rw [BitVec.toNat_add, BitVec.toNat_ofNat, Nat.mod_eq_of_lt (show n < 2 ^ w by omega), Nat.mod_eq_of_lt (by omega)]
  constructor
  · rintro ⟨fits, ends⟩
    omega
  · intro ends
    have fits : base.toNat + n ≤ limit := by omega
    exact ⟨fits, by omega⟩

end Memory

end Lib
