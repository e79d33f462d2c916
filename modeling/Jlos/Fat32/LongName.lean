import Jlos.Fat32.Name

/-!
# Long names are read back

The entries that `fat32_lfn_build` makes for a name give the same name when `fat32_lfn_extract`
reads them in the order in which a directory has them.
-/
namespace Jlos.Fat32

open Function List BitVec Dirent

/-! ### Characters of an entry -/

theorem word_setWord {de : Dirent} {o o' v : Nat} (apart : o = o' ∨ o + 2 ≤ o' ∨ o' + 2 ≤ o) :
    (de.setWord o v).word o' = if o = o' then v % 2 ^ 16 else de.word o' := by
  unfold word setWord
  obtain rfl | same := eq_or_ne o o'
  · rw [if_pos rfl, if_pos rfl, if_neg (by omega), if_pos rfl, toNat_ofNat, toNat_ofNat]
    omega
  · rw [if_neg same, if_neg (by omega), if_neg (by omega), if_neg (by omega), if_neg (by omega)]

variable {i : Nat}

theorem lfnCharOffset_apart {j : Nat} (hi : i < 13) (hj : j < 13) :
    lfnCharOffset i = lfnCharOffset j ∧ i = j ∨ lfnCharOffset i + 2 ≤ lfnCharOffset j ∨
      lfnCharOffset j + 2 ≤ lfnCharOffset i := by
  unfold lfnCharOffset
  split <;> split <;> (try split) <;> (try split) <;> omega

theorem lfnGetChar_foldl (f : Nat → Nat) (is : List Nat) (below : ∀ i ∈ is, i < 13) (nodup : is.Nodup)
    (hi : i < 13) (lfn : Dirent) : lfnGetChar (is.foldl (fun lfn i => lfnSetChar lfn i (f i)) lfn) i =
      if i ∈ is then f i % 2 ^ 16 else lfnGetChar lfn i := by
  induction is generalizing lfn with
  | nil => simp
  | cons k ks ih =>
    obtain ⟨out, nodup'⟩ := nodup_cons.mp nodup
    rw [foldl_cons, ih (fun i mem => below i (mem_cons_of_mem _ mem)) nodup']
    have set : lfnGetChar (lfnSetChar lfn k (f k)) i = if k = i then f k % 2 ^ 16 else lfnGetChar lfn i := by
      rw [lfnGetChar, lfnSetChar]
      rcases lfnCharOffset_apart (below k (by simp)) hi with ⟨-, rfl⟩ | apart
      · rw [word_setWord (.inl rfl), if_pos rfl, if_pos rfl]
      · rw [word_setWord (.inr apart), if_neg (by omega), if_neg (by rintro rfl; omega)]
        rfl
    obtain rfl | here := eq_or_ne k i
    · rw [if_neg out, set, if_pos rfl, if_pos (by simp)]
    · rw [set, if_neg here]
      simp [Ne.symm here]

theorem foldl_setChar_other (f : Nat → Nat) (is : List Nat) {j : Nat} (hj : j = 0 ∨ j = 11) (lfn : Dirent) :
    is.foldl (fun lfn i => lfnSetChar lfn i (f i)) lfn j = lfn j := by
  induction is generalizing lfn with
  | nil => rfl
  | cons k ks ih =>
    rw [foldl_cons, ih, lfnSetChar, setWord]
    have apart : j ≠ lfnCharOffset k ∧ j ≠ lfnCharOffset k + 1 := by
      unfold lfnCharOffset
      split
      · omega
      · split <;> omega
    rw [if_neg apart.1, if_neg apart.2]

section entry

variable (name : List Byte) (checksum : Byte) (n : Nat)

theorem lfnGetChar_lfnEntry (hi : i < 13) : lfnGetChar (lfnEntry name checksum n) i = lfnChar name (n * 13 + i) := by
  rw [lfnEntry, lfnGetChar_foldl _ _ (fun i => mem_range.mp) nodup_range hi, if_pos (mem_range.mpr hi)]
  apply Nat.mod_eq_of_lt
  rw [lfnChar]
  split
  · exact lt_trans (BitVec.isLt _) (by decide)
  · split <;> decide

theorem lfnEntry_zero : lfnEntry name checksum n 0 =
    if n = lfnCount name - 1 then BitVec.ofNat 8 (n + 1) ||| 0x40 else BitVec.ofNat 8 (n + 1) := by
  rw [lfnEntry, foldl_setChar_other _ _ (.inl rfl)]
  rfl

theorem lfnEntry_isLfn : (lfnEntry name checksum n).isLfn = true := by
  have attributes : (lfnEntry name checksum n).attributes = 0x0F := by
    rw [attributes, lfnEntry, foldl_setChar_other _ _ (.inr rfl)]
    rfl
  rw [isLfn, attributes]
  rfl

variable {n}

theorem lfnEntry_seq (lt : n < 20) : (lfnEntry name checksum n 0 &&& 0x1F).toNat = n + 1 ∧
    (lfnEntry name checksum n).isDeleted = false := by
  have plain : ∀ n < 20, (BitVec.ofNat 8 (n + 1) &&& 0x1F).toNat = n + 1 ∧ BitVec.ofNat 8 (n + 1) ≠ 0xE5 := by decide
  have last : ∀ n < 20, ((BitVec.ofNat 8 (n + 1) ||| 0x40) &&& 0x1F).toNat = n + 1 ∧
      BitVec.ofNat 8 (n + 1) ||| 0x40 ≠ 0xE5 := by decide
  rw [isDeleted, decide_eq_false_iff_not, lfnEntry_zero]
  split
  · exact last n lt
  · exact plain n lt

end entry

/-! ### The name that is read -/

section extract

variable {name : List Byte}

/-- The buffer once the entries from the `n`-th on have been read. -/
def lfnRead (name : List Byte) (n : Nat) : Nat → Byte := fun j =>
  if n * 13 ≤ j ∧ j < name.length then name.getD j 0 else 0

/-- The buffer has what the entries from the `n`-th on say, whatever else was in it before; the
terminator comes with the last of them. -/
def LfnHeld (name : List Byte) (n : Nat) (buf : Nat → Byte) : Prop :=
  ∀ j, n * 13 ≤ j → j < name.length ∨ j = name.length ∧ n < lfnCount name → buf j = lfnRead name n j

theorem lfnCount_le (short : name.length ≤ nameMax) : lfnCount name ≤ 20 := by
  unfold lfnCount nameMax at *
  omega

/-- The loop over the characters copies the part of the name that the entry has, with the terminator
if it is there. -/
theorem lfnExtractLoop_spec (short : name.length ≤ nameMax) (legal : 0 ∉ name) (lfn : Dirent) (base left : Nat)
    {i : Nat} (buf : Nat → Byte) (chars : ∀ i < 13, lfnGetChar lfn i = lfnChar name (base + i)) (all : i + left = 13)
    (le : base + i ≤ name.length) : ((lfnExtractLoop lfn base left i buf).1 = true ↔ name.length < base + 13) ∧
    (lfnExtractLoop lfn base left i buf).2 =
      fun j => if base + i ≤ j ∧ j < base + 13 ∧ j ≤ name.length then lfnRead name 0 j else buf j := by
  induction left generalizing i buf with
  | zero =>
    refine ⟨iff_of_false Bool.false_ne_true (by omega), ?_⟩
    funext j
    rw [if_neg (by omega)]
    rfl
  | succ left ih =>
    rw [lfnExtractLoop, chars i (by omega)]
    by_cases inside : base + i < name.length
    · have byte : name.getD (base + i) 0 ∈ name := by
        rw [List.getD_eq_getElem?_getD, List.getElem?_eq_getElem inside, Option.getD_some]
        exact getElem_mem inside
      have nonzero : (name.getD (base + i) 0).toNat ≠ 0 := by
        intro zero
        have : name.getD (base + i) 0 = 0 := eq_of_toNat_eq (by simpa using zero)
        exact legal (this ▸ byte)
      have small : (name.getD (base + i) 0).toNat < 256 := BitVec.isLt _
      have stored : lfnChar name (base + i) = (name.getD (base + i) 0).toNat := by rw [lfnChar, if_pos inside]
      rw [stored, if_neg (by omega), if_pos (by omega), ofNat_toNat, setWidth_eq]
      obtain ⟨ends, copied⟩ := @ih (i + 1) (update buf (base + i) (name.getD (base + i) 0)) (by omega) (by omega)
      refine ⟨ends, copied.trans ?_⟩
      funext j
      obtain rfl | here := eq_or_ne j (base + i)
      · rw [if_neg (by omega), update_self, if_pos (by omega), lfnRead, if_pos (by omega)]
      · rw [update_of_ne here]
        exact if_congr (by omega) rfl rfl
    · -- the terminator
      have last : base + i = name.length := by omega
      have ends : lfnChar name (base + i) = 0 := by rw [lfnChar, if_neg inside, if_pos last]
      rw [if_pos (.inl ends)]
      refine ⟨iff_of_true rfl (by omega), ?_⟩
      funext j
      dsimp only
      obtain rfl | here := eq_or_ne j (base + i)
      · rw [update_self, if_pos (by omega), lfnRead, if_neg (by omega)]
      · rw [update_of_ne here, if_neg (by omega)]

theorem lfnExtract_lfnEntry (short : name.length ≤ nameMax) (legal : 0 ∉ name) (checksum : Byte) {n : Nat}
    (lt : n < lfnCount name) {buf : Nat → Byte} (held : LfnHeld name (n + 1) buf) :
    LfnHeld name n (lfnExtract (lfnEntry name checksum n) buf) := by
  have few := lfnCount_le short
  have base : n * 13 ≤ name.length := by
    unfold lfnCount at lt
    omega
  obtain ⟨ends, copied⟩ := lfnExtractLoop_spec short legal (lfnEntry name checksum n) (n * 13) 13 (i := 0) buf
    (fun i hi => lfnGetChar_lfnEntry name checksum n hi) rfl base
  have part : ∀ j, n * 13 ≤ j → j < name.length ∨ j = name.length ∧
    (n + 1 < lfnCount name ∨ name.length < n * 13 + 13) →
      (lfnExtractLoop (lfnEntry name checksum n) (n * 13) 13 0 buf).2 j = lfnRead name n j := by
    intro j low high
    rw [copied]
    dsimp only
    by_cases here : n * 13 + 0 ≤ j ∧ j < n * 13 + 13 ∧ j ≤ name.length
    · rw [if_pos here, lfnRead, lfnRead]
      exact if_congr (by omega) rfl rfl
    · rw [if_neg here, held j (by omega) (by omega), lfnRead, lfnRead]
      exact if_congr (by omega) rfl rfl
  -- only the last part of the name is followed by a terminator, and it ends the name
  have flag : lfnEntry name checksum n 0 &&& 0x40 ≠ 0 ↔ n = lfnCount name - 1 := by
    have bits : ∀ n < 20, BitVec.ofNat 8 (n + 1) &&& 0x40 = (0 : Byte) ∧
        (BitVec.ofNat 8 (n + 1) ||| 0x40) &&& 0x40 ≠ (0 : Byte) := by decide
    obtain ⟨plain, last⟩ := bits n (by omega)
    rw [lfnEntry_zero]
    split
    next final => exact iff_of_true last final
    next more => exact iff_of_false (not_not.mpr plain) more
  intro j low high
  rw [lfnExtract, (lfnEntry_seq name checksum (show n < 20 by omega)).1]
  dsimp only
  rw [if_neg (by omega), Nat.add_sub_cancel]
  cases ran : lfnExtractLoop (lfnEntry name checksum n) (n * 13) 13 0 buf with | mk ended buf' =>
  rw [ran] at ends part
  cases ended with
  | true => exact part j low (high.imp_right fun same => ⟨same.1, .inr (ends.mp rfl)⟩)
  | false =>
    have full : ¬name.length < n * 13 + 13 := fun short => Bool.false_ne_true (ends.mpr short)
    simp only [flag]
    unfold lfnCount nameMax at *
    split
    next last =>
      obtain rfl | here := eq_or_ne j (n * 13 + 13)
      · rw [update_self, lfnRead, if_neg (by omega)]
      · rw [update_of_ne here]
        exact part j low (by omega)
    next more => exact part j low (by omega)

theorem LfnHeld.start (buf : Nat → Byte) : LfnHeld name (lfnCount name) buf := by
  intro j low high
  unfold lfnCount at low high
  omega

theorem LfnHeld.cstr {buf : Nat → Byte} (held : LfnHeld name 0 buf) (short : name.length ≤ nameMax) (legal : 0 ∉ name) :
    cstr buf nameMax = name := by
  have some' : 0 < lfnCount name := by
    unfold lfnCount
    omega
  have front : (List.range name.length).map buf = name := by
    apply ext_getElem (by simp)
    intro i lt _
    rw [length_map, length_range] at lt
    rw [getElem_map, getElem_range, held i (by omega) (.inl lt), lfnRead, if_pos (by omega),
      List.getD_eq_getElem?_getD, List.getElem?_eq_getElem lt, Option.getD_some]
  obtain ⟨m, all⟩ := Nat.exists_eq_add_of_le short
  rw [Fat32.cstr, all, range_add, map_append, front, takeWhile_append_of_pos]
  · cases m with
    | zero => exact append_nil _
    | succ m =>
      have ends : buf name.length = 0 := by
        rw [held _ (by omega) (.inr ⟨rfl, some'⟩), lfnRead, if_neg (by omega)]
      simp [range_succ_eq_map, ends]
  · intro b mem
    simp only [ne_eq, decide_eq_true_iff]
    rintro rfl
    exact legal mem

end extract

/-! ### The end of the buffer -/

/-- A character that ends the name in an entry. -/
def lfnEnds (lfn : Dirent) (i : Nat) : Prop := lfnGetChar lfn i = 0 ∨ lfnGetChar lfn i = 0xFFFF

/-- A twentieth part that ends the name does so within the buffer. -/
def LfnFits (lfn : Dirent) : Prop := (lfn 0 &&& 0x1F).toNat = 20 → ∀ i < 13, lfnEnds lfn i → ∃ t < 9, lfnEnds lfn t

section high

variable (lfn : Dirent) {j : Nat} (high : nameMax ≤ j)
include high

theorem lfnExtractLoop_high (base left i : Nat) (buf : Nat → Byte) : (lfnExtractLoop lfn base left i buf).2 j = buf j ∨
    (lfnExtractLoop lfn base left i buf).2 j = 0 ∧ ∃ t < i + left, j = base + t ∧ lfnEnds lfn t ∧
      ∀ u, i ≤ u → u < t → ¬lfnEnds lfn u := by
  induction left generalizing i buf with
  | zero => exact .inl rfl
  | succ left ih =>
    rw [lfnExtractLoop]
    split
    next ends =>
      obtain rfl | other := eq_or_ne j (base + i)
      · exact .inr ⟨update_self .., i, by omega, rfl, ends, fun u low up => absurd up (by omega)⟩
      · exact .inl (update_of_ne other ..)
    next more =>
      rcases ih (i + 1) (if base + i < nameMax then update buf (base + i) _ else buf) with
        same | ⟨zero, t, lt, at', ends, first⟩
      · refine .inl (same.trans ?_)
        split
        · exact update_of_ne (by omega) ..
        · rfl
      · refine .inr ⟨zero, t, by omega, at', ends, fun u low up => ?_⟩
        obtain rfl | later := eq_or_ne u i
        · exact more
        · exact first u (by omega) up

/-- Behind the longest name an entry changes nothing, or it writes a terminator: into the buffer, if
the part fits. -/
theorem lfnExtract_high (buf : Nat → Byte) :
    lfnExtract lfn buf j = buf j ∨ lfnExtract lfn buf j = 0 ∧ (LfnFits lfn → j < nameMax + 1) := by
  rw [lfnExtract]
  dsimp only
  split
  · exact .inl rfl
  next part =>
    have looped := lfnExtractLoop_high lfn high (((lfn 0 &&& 0x1F).toNat - 1) * 13) 13 0 buf
    cases ran : lfnExtractLoop lfn (((lfn 0 &&& 0x1F).toNat - 1) * 13) 13 0 buf with | mk ended buf' =>
    rw [ran] at looped
    have inside : buf' j = buf j ∨ buf' j = 0 ∧ (LfnFits lfn → j < nameMax + 1) := by
      refine looped.imp_right fun ⟨zero, t, lt, here, ends, first⟩ => ⟨zero, fun fits => ?_⟩
      unfold nameMax at *
      obtain ⟨u, low, ends'⟩ := fits (by omega) t (by omega) ends
      have := mt (first u u.zero_le) (not_not.mpr ends')
      omega
    cases ended with
    | true => exact inside
    | false =>
      dsimp only
      split
      · rwa [update_of_ne (by omega)]
      · exact inside

end high

/-- The first terminator of an entry is stored at its own place. -/
private theorem lfnExtractLoop_ends (lfn : Dirent) (base left : Nat) {i t : Nat} (buf : Nat → Byte)
    (le : i ≤ t) (lt : t < i + left) (ends : lfnEnds lfn t)
    (first : ∀ u, i ≤ u → u < t → ¬lfnEnds lfn u) :
    ∃ buf', lfnExtractLoop lfn base left i buf = (true, buf') ∧ buf' (base + t) = 0 := by
  induction left generalizing i buf with
  | zero => omega
  | succ left ih =>
    rw [lfnExtractLoop]
    obtain rfl | later := eq_or_ne i t
    · exact ⟨_, if_pos ends, update_self ..⟩
    · have more : ¬(lfnGetChar lfn i = 0 ∨ lfnGetChar lfn i = 0xFFFF) := first i (le_refl _) (by omega)
      rw [if_neg more]
      exact ih _ (by omega) (by omega) fun u low up => first u (by omega) up

/-- Whatever the buffer holds, an entry changes nothing behind it exactly if it fits. -/
theorem lfnExtract_inside_iff (lfn : Dirent) :
    (∀ buf j, lfnExtract lfn buf j ≠ buf j → j < nameMax + 1) ↔ LfnFits lfn := by
  constructor
  · intro inside twentieth i lt ends
    by_contra none
    push Not at none
    -- the first terminator stands behind the buffer
    classical
    have some' : ∃ t, lfnEnds lfn t := ⟨i, ends⟩
    have least := Nat.find_min' some' ends
    have low : 9 ≤ Nat.find some' := Nat.le_of_not_lt fun lt => none _ lt (Nat.find_spec some')
    obtain ⟨buf', ran, stored⟩ := lfnExtractLoop_ends lfn (19 * 13) 13 (fun _ => 1) (Nat.zero_le _) (by omega)
      (Nat.find_spec some') fun u _ up => Nat.find_min some' up
    have zero : lfnExtract lfn (fun _ => 1) (19 * 13 + Nat.find some') = 0 := by
      rw [lfnExtract, twentieth]
      dsimp only
      rw [if_neg (by decide), ran]
      exact stored
    have bound := inside (fun _ => 1) (19 * 13 + Nat.find some') (by rw [zero]; decide)
    unfold nameMax at bound
    omega
  · intro fits buf j written
    by_contra out
    rcases lfnExtract_high lfn (show nameMax ≤ j by omega) buf with same | ⟨-, inside⟩
    · exact written same
    · exact out (inside fits)

end Jlos.Fat32
