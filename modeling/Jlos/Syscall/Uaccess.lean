import Jlos.Arch

/-!
# Access to user memory

A shallow embedding of `jlos_access_ok`, `jlos_copy_to_user` and `jlos_copy_from_user`
(`kernel/syscall.c`) and of `jlos_paging_is_user_accessible` (`kernel/paging.c`).
-/
namespace Jlos.Uaccess

open Bool BitVec

variable {a : Arch}

/-- `size_t` and `uintptr_t` -/
abbrev Word (a : Arch) := BitVec a.wordBits

/-- `rooted` says that there is a context and that it has a root. -/
def isUserAccessible (a : Arch) (rooted : Bool) (va : Word a) (len : BitVec 32) : Bool :=
  rooted && !(decide (a.userSpaceLimit ≤ va.toNat) || decide (a.userSpaceLimit < (va + len.setWidth _).toNat))

/-- The context is that of the current task, or the active one. -/
def accessOk (a : Arch) (rooted : Bool) (va n : Word a) : Bool := isUserAccessible a rooted va (n.setWidth 32)

/-- The raw copies touch one byte after another until an access faults: how many bytes are left, and
the addresses of the user's side that were touched. -/
def rawCopy (faults : Word a → Bool) : Nat → Word a → Nat × List (Word a)
  | 0, _ => (0, [])
  | n + 1, va =>
    if faults va then (n + 1, [va])
    else
      let (left, touched) := rawCopy faults n (va + 1)
      (left, va :: touched)

/-- The two directions differ in the raw copy that they call. -/
def copyUser (rooted : Bool) (faults : Word a → Bool) (va n : Word a) : Bool × List (Word a) :=
  if accessOk a rooted va n then
    let (left, touched) := rawCopy faults n.toNat va
    (left = 0, touched)
  else (false, [])

def copyToUser (rooted : Bool) (faults : Word a → Bool) (dst n : Word a) : Bool × List (Word a) :=
  copyUser rooted faults dst n

def copyFromUser (rooted : Bool) (faults : Word a → Bool) (src n : Word a) : Bool × List (Word a) :=
  copyUser rooted faults src n

variable {rooted : Bool} {faults : Word a → Bool} {va n x : Word a}

/-- Without a wrap the copies stay in their range. -/
private theorem rawCopy_bounded {k : Nat} (fits : va.toNat + k < 2 ^ a.wordBits) (mem : x ∈ (rawCopy faults k va).2) :
    x.toNat < va.toNat + k := by
  induction k generalizing va with
  | zero => cases mem
  | succ k ih =>
    rw [rawCopy] at mem
    have first : x = va → x.toNat < va.toNat + (k + 1) := by
      rintro rfl
      omega
    split at mem
    next => exact first (List.mem_singleton.mp mem)
    next =>
      rcases List.mem_cons.mp mem with here | later
      · exact first here
      · have one : (1 : Word a).toNat = 1 := by cases a <;> rfl
        have next : (va + 1).toNat = va.toNat + 1 := by
          rw [toNat_add, one, Nat.mod_eq_of_lt (by omega)]
        have bound := ih (by omega) later
        omega

/-- The check as arithmetic: the length is taken modulo 2^32 and its end modulo the address
width. -/
private theorem accessOk_iff : accessOk a rooted va n = true ↔ rooted = true ∧
    va.toNat < a.userSpaceLimit ∧
    (va.toNat + n.toNat % 2 ^ 32) % 2 ^ a.wordBits ≤ a.userSpaceLimit := by
  have len : ((n.setWidth 32).setWidth a.wordBits).toNat = n.toNat % 2 ^ 32 := by
    rw [toNat_setWidth, toNat_setWidth, Nat.mod_eq_of_lt]
    exact (Nat.mod_lt _ (by decide)).trans_le (by cases a <;> decide)
  simp only [accessOk, isUserAccessible, toNat_add, len, and_eq_true, not_eq_true', or_eq_false_iff,
    decide_eq_false_iff_not, Nat.not_le, Nat.not_lt]

private theorem accessOk_bounded_iff :
    (accessOk a rooted va n = true → va.toNat + n.toNat ≤ a.userSpaceLimit) ↔
      (rooted = true → va.toNat < a.userSpaceLimit → va.toNat + n.toNat ≤ a.userSpaceLimit ∨
        a.userSpaceLimit < va.toNat + n.toNat % 2 ^ 32 ∧
          va.toNat + n.toNat % 2 ^ 32 < 2 ^ a.wordBits) := by
  rw [accessOk_iff, and_imp, and_imp]
  refine imp_congr_right fun _ => imp_congr_right fun below => ?_
  -- a sum that wraps ends below the address, so it is accepted
  cases a <;> simp only [Arch.userSpaceLimit, Arch.wordBits] at below ⊢ <;> omega

private theorem copyUser_bounded
    (inside : accessOk a rooted va n = true → va.toNat + n.toNat ≤ a.userSpaceLimit)
    (mem : x ∈ (copyUser rooted faults va n).2) : x.toNat < a.userSpaceLimit := by
  have limit : a.userSpaceLimit < 2 ^ a.wordBits := by cases a <;> decide
  rw [copyUser] at mem
  split at mem
  next ok => exact (rawCopy_bounded ((inside ok).trans_lt limit) mem).trans_le (inside ok)
  next => cases mem

/-- An accepted range ends in user space and the copies touch no kernel address exactly if there is
no context, the range starts in the kernel or ends in user space, or the sum that the check computes
from the length modulo 2^32 passes the limit without wrapping around. -/
theorem access_bounded_iff (a : Arch) (rooted : Bool) (va n : Word a) :
    ((accessOk a rooted va n = true → va.toNat + n.toNat ≤ a.userSpaceLimit) ∧
      (∀ faults, ∀ x ∈ (copyToUser rooted faults va n).2, x.toNat < a.userSpaceLimit) ∧
      ∀ faults, ∀ x ∈ (copyFromUser rooted faults va n).2, x.toNat < a.userSpaceLimit) ↔
    (rooted = true → va.toNat < a.userSpaceLimit → va.toNat + n.toNat ≤ a.userSpaceLimit ∨
      a.userSpaceLimit < va.toNat + n.toNat % 2 ^ 32 ∧
        va.toNat + n.toNat % 2 ^ 32 < 2 ^ a.wordBits) := by
  rw [← accessOk_bounded_iff]
  refine ⟨And.left, fun inside => ⟨inside, ?_, ?_⟩⟩
  · exact fun _ _ => copyUser_bounded inside
  · exact fun _ _ => copyUser_bounded inside

/-- A length of 2^32 is taken for zero on a 64-bit build, and on a 32-bit build a range that ends at
2^32 is accepted: both copies reach the first kernel address. -/
theorem kernel_address_touched : (accessOk .x86_64 true 0x7FFFFFFFFFFF 0x100000000 = true ∧
      0x800000000000 ∈ (copyToUser true (fun _ => false) (0x7FFFFFFFFFFF : Word .x86_64) 0x100000000).2) ∧
    accessOk .i386 true 0xBFFFFFFF 0x40000001 = true ∧
      0xC0000000 ∈ (copyToUser true (fun _ => false) (0xBFFFFFFF : Word .i386) 0x40000001).2 := by
  have second {a : Arch} {va n : Word a} (ok : accessOk a true va n = true) (more : 1 < n.toNat) :
      va + 1 ∈ (copyToUser true (fun _ => false) va n).2 := by
    obtain ⟨k, eq⟩ : ∃ k, n.toNat = k + 2 := ⟨n.toNat - 2, by omega⟩
    rw [copyToUser, copyUser, if_pos ok, eq]
    simp [rawCopy]
  have wide : accessOk .x86_64 true 0x7FFFFFFFFFFF 0x100000000 = true := by decide
  have narrow : accessOk .i386 true 0xBFFFFFFF 0x40000001 = true := by decide
  exact ⟨⟨wide, second wide (by decide)⟩, narrow, second narrow (by decide)⟩

end Jlos.Uaccess
