import Jlos.Net.Receive

/-!
# The internet checksum

`jlos_internet_protocol_provider_csum_partial` adds up the words of a message, and the fold keeps
the sum modulo 65535.
-/
namespace Jlos.Net

open Lib Finset BitVec

/-- A word of the message as it is added. -/
def csumWord (data : Nat → Byte) (i : Nat) : BitVec 16 := swapEndian16 (le16 data (2 * i))

def lastByte (data : Nat → Byte) (length : Nat) : Nat := if length % 2 = 1 then 256 * (data (length - 1)).toNat else 0

/-- The sum of the words as a number, with a last byte that is alone. -/
def wordSum (data : Nat → Byte) (length : Nat) : Nat :=
  ∑ i ∈ range (length / 2), (csumWord data i).toNat + lastByte data length

def store16 (data : Nat → Byte) (offset : Nat) (x : BitVec 16) : Nat → Byte :=
  Function.update (Function.update data offset (byteOf x 0)) (offset + 1) (byteOf x 1)

variable {data header message : Nat → Byte} {length offset : Nat} {init c : BitVec 32}

theorem wordSum_le (data : Nat → Byte) (length : Nat) : wordSum data length ≤ 65535 * ((length + 1) / 2) := by
  have words : ∑ i ∈ range (length / 2), (csumWord data i).toNat ≤ length / 2 * 65535 := by
    have all := sum_le_card_nsmul (range (length / 2)) (fun i => (csumWord data i).toNat) 65535 fun i _ =>
      Nat.le_of_lt_succ (csumWord data i).isLt
    simpa using all
  have last := (data (length - 1)).isLt
  unfold wordSum lastByte
  split <;> omega

/-- While it fits, the sum is the exact one. -/
theorem csumPartial_toNat (fits : init.toNat + wordSum data length < 2 ^ 32) :
    (csumPartial data length init).toNat = init.toNat + wordSum data length := by
  have words (n : Nat) (fits : init.toNat + ∑ i ∈ range n, (csumWord data i).toNat < 2 ^ 32) :
      ((List.range n).foldl (fun csum i => csum + (csumWord data i).setWidth 32) init).toNat =
        init.toNat + ∑ i ∈ range n, (csumWord data i).toNat := by
    induction n with
    | zero => simp
    | succ n ih =>
      rw [sum_range_succ] at fits ⊢
      rw [List.range_succ, List.foldl_append, List.foldl_cons, List.foldl_nil, toNat_add, ih (by omega),
        toNat_setWidth_of_le (by decide)]
      omega
  unfold wordSum lastByte csumWord at *
  have sum := words (length / 2) (by omega)
  unfold csumPartial
  split at fits
  next odd =>
    have last := (data (length - 1)).isLt
    rw [if_pos odd, if_pos odd, toNat_add, toNat_shiftLeft, toNat_setWidth_of_le (by decide), Nat.shiftLeft_eq, sum]
    omega
  next even => rwa [if_neg even, if_neg even]

theorem csumPartial_append (data : Nat → Byte) (n m : Nat) (init : BitVec 32) (even : n % 2 = 0) :
    csumPartial data (n + m) init = csumPartial (fun i => data (n + i)) m (csumPartial data n init) := by
  obtain ⟨k, rfl⟩ := Nat.dvd_of_mod_eq_zero even
  have half : (2 * k + m) / 2 = k + m / 2 := by omega
  have odd : (2 * k + m) % 2 = m % 2 := by omega
  simp only [csumPartial, half, odd, List.range_add, List.foldl_append, List.foldl_map, le16, Nat.mul_add,
    Nat.add_assoc]
  split
  · have last : 2 * k + m - 1 = 2 * k + (m - 1) := by omega
    simp [last]
  · simp

/-! ### The fold -/

theorem csumFoldLoop_spec (c : BitVec 32) : (csumFoldLoop 2 c).toNat < 2 ^ 16 ∧
    (csumFoldLoop 2 c).toNat % 65535 = c.toNat % 65535 ∧ ((csumFoldLoop 2 c).toNat = 0 ↔ c.toNat = 0) := by
  have high (c : BitVec 32) : c >>> 16 = 0 ↔ c.toNat / 2 ^ 16 = 0 := by
    rw [← toNat_inj, toNat_ushiftRight, Nat.shiftRight_eq_div_pow]
    rfl
  have round (c : BitVec 32) : ((c &&& 0xFFFF) + (c >>> 16)).toNat = c.toNat % 2 ^ 16 + c.toNat / 2 ^ 16 := by
    rw [toNat_add, toNat_and, toNat_ushiftRight, Nat.shiftRight_eq_div_pow,
      show ((0xFFFF : Nat) : BitVec 32).toNat = 2 ^ 16 - 1 from rfl, Nat.and_two_pow_sub_one_eq_mod]
    omega
  have lt := c.isLt
  simp only [csumFoldLoop, high, round]
  split
  · omega
  · split <;> simp only [round] <;> omega

/-- The fold is 0 for a multiple of 65535 that is not 0. -/
theorem csumFold_eq_zero (some : c.toNat ≠ 0) (multiple : c.toNat % 65535 = 0) : csumFold c = 0 := by
  obtain ⟨short, same, zero⟩ := csumFoldLoop_spec c
  have all : csumFoldLoop 2 c = 65535#32 := toNat_inj.mp (by
    change _ = 65535
    omega)
  rw [csumFold, all]
  rfl

theorem swapEndian16_csumFold (c : BitVec 32) :
    (swapEndian16 (csumFold c)).toNat = 65535 - (csumFoldLoop 2 c).toNat := by
  have short := (csumFoldLoop_spec c).1
  rw [csumFold, swapEndian16_swapEndian16, toNat_setWidth, toNat_not]
  omega

/-! ### A stored checksum -/

theorem wordSum_store16 (even : offset % 2 = 0) (inside : offset + 2 ≤ length) (zero : le16 message offset = 0)
    (x : BitVec 16) : wordSum (store16 message offset x) length = wordSum message length + (swapEndian16 x).toNat := by
  obtain ⟨k, rfl⟩ := Nat.dvd_of_mod_eq_zero even
  have field : csumWord (store16 message (2 * k) x) k = swapEndian16 x := by
    have bytes : le16 (store16 message (2 * k) x) (2 * k) = ofBytes 16 (byteOf x) 2 := ofBytes_congr fun j lt => by
      obtain rfl | rfl : j = 0 ∨ j = 1 := by omega
      all_goals simp [store16]
    rw [csumWord, bytes, ofBytes_byteOf x (by decide)]
  have other {j : Nat} (ne : j ≠ 2 * k) (ne' : j ≠ 2 * k + 1) : store16 message (2 * k) x j = message j := by
    rw [store16, Function.update_of_ne ne', Function.update_of_ne ne]
  have words (i : Nat) (ne : i ≠ k) : csumWord (store16 message (2 * k) x) i = csumWord message i :=
    congrArg swapEndian16 (ofBytes_congr fun j lt => other (by omega) (by omega))
  have last : lastByte (store16 message (2 * k) x) length = lastByte message length := by
    unfold lastByte
    split
    · rw [other (by omega) (by omega)]
    · rfl
  have mem : k ∈ range (length / 2) := by
    rw [mem_range]
    omega
  have empty : csumWord message k = 0 := by
    rw [csumWord, zero]
    rfl
  -- of the sum only the word of the field changes
  rw [wordSum, wordSum, last, ← sum_erase_add _ _ mem, ← sum_erase_add _ _ mem, field, empty,
    sum_congr rfl fun i h => by rw [words i (ne_of_mem_erase h)]]
  simp
  omega

/-- A stored checksum makes the recomputed one 0; the sums are exact on the way, the fold ends, and
a message can be added up in two parts. -/
theorem checksum_verifies (short : length ≤ 65535) (even : offset % 2 = 0) (inside : offset + 2 ≤ length)
    (zero : le16 message offset = 0) (header : Nat → Byte) : let init := csumPartial header 12 0
    let csum := csumFold (csumPartial message length init)
    csumFold (csumPartial (store16 message offset csum) length init) = 0 ∧
      (∀ n ≤ 12, (csumPartial header n 0).toNat = wordSum header n) ∧
      (∀ data, ∀ n ≤ length, (csumPartial data n init).toNat = wordSum header 12 + wordSum data n) ∧
      (∀ c, (csumFoldLoop 2 c).toNat < 2 ^ 16) ∧
      ∀ data n m init, n % 2 = 0 →
        csumPartial data (n + m) init = csumPartial (fun i => data (n + i)) m (csumPartial data n init) := by
  intro init csum
  have pseudo (n : Nat) (le : n ≤ 12) : (csumPartial header n 0).toNat = wordSum header n := by
    have le := wordSum_le header n
    rw [csumPartial_toNat (by simp; omega)]
    simp
  have total (data : Nat → Byte) (n : Nat) (le : n ≤ length) :
      (csumPartial data n init).toNat = wordSum header 12 + wordSum data n := by
    have first := wordSum_le header 12
    have rest := wordSum_le data n
    rw [csumPartial_toNat (by rw [pseudo 12 le_rfl]; omega), pseudo 12 le_rfl]
  refine ⟨?_, pseudo, total, fun c => (csumFoldLoop_spec c).1, csumPartial_append⟩
  have sum := total message length le_rfl
  have stored := total (store16 message offset csum) length le_rfl
  rw [wordSum_store16 even inside zero, swapEndian16_csumFold] at stored
  obtain ⟨low, same, none⟩ := csumFoldLoop_spec (csumPartial message length init)
  exact csumFold_eq_zero (by omega) (by omega)

/-- Of a message of three bytes of which the last is 7. -/
theorem odd_message_verifies :
    csumFold (csumPartial (store16 (Function.update 0 2 7) 0 (csumFold (csumPartial (Function.update 0 2 7) 3
      (csumPartial 1 12 0)))) 3 (csumPartial 1 12 0)) = 0 :=
  (checksum_verifies (by decide) rfl (by decide) rfl 1).1

end Jlos.Net
