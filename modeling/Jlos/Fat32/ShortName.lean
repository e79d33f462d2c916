import Jlos.Fat32.Scan

/-!
# Short names are read back

What `fat32_name_to_str` makes of the entry that `fat32_name_to_83` fills in for a name without
long-name entries.
-/
namespace Jlos.Fat32

open Function List

/-- A part of a name whose small letters, if it has any, are all of it. -/
def uniform (part : List Byte) : Bool := part.all islower || !part.any islower

/-- The parts of the name are uniform, and it does not end in a dot. -/
def CaseKept (name : List Byte) : Prop :=
  ∀ base ext, splitDot name = some (base, ext) → uniform base = true ∧ ext ≠ some [] ∧ uniform (ext.getD []) = true

/-- A part as `fat32_name_to_83` stores it and `fat32_name_to_str` shows it. -/
def shownPart (part : List Byte) : List Byte :=
  (part.map toupper).map fun c => if part.all islower then tolower c else c

section part

variable {part : List Byte}

theorem toupper_cases (c : Byte) : (islower c = true → tolower (toupper c) = c ∧ toupper c ≠ c) ∧
    (islower c = false → toupper c = c) ∧ (nameCharLegal c = true → toupper c ≠ 0x20 ∧ c ≠ 0 ∧
    tolower (toupper c) ≠ 0) := by
  revert c
  decide

theorem shownPart_eq_iff : shownPart part = part ↔ uniform part = true := by
  have each (f : Byte → Byte) : part.map f = part ↔ ∀ c ∈ part, f c = c := by
    conv_lhs => rhs; rw [← map_id part]
    exact map_inj_left
  unfold shownPart uniform
  rw [map_map, each]
  cases all : part.all islower with
  | true => exact iff_of_true (fun c mem => ((toupper_cases c).1 (all_eq_true.mp all c mem)).1) rfl
  | false =>
    simp only [comp_apply, Bool.false_eq_true, if_false, Bool.false_or, Bool.not_eq_true', any_eq_false]
    refine forall₂_congr fun c _ => ?_
    cases lower : islower c with
    | true => exact iff_of_false ((toupper_cases c).1 lower).2 (by simp)
    | false => exact iff_of_true ((toupper_cases c).2.1 lower) (by simp)

/-- The blanks behind a part are left out. -/
theorem filter_padded (legal : ∀ c ∈ part, nameCharLegal c = true) {n : Nat} (fits : part.length ≤ n) :
    ((List.range n).map fun j => (part.map toupper).getD j nameFill).filter (· ≠ 0x20) = part.map toupper := by
  obtain ⟨m, rfl⟩ := Nat.exists_eq_add_of_le fits
  have front : (List.range part.length).map (fun j => (part.map toupper).getD j nameFill) = part.map toupper := by
    apply ext_getElem (by simp)
    intro i lt _
    simp at lt
    simp [lt]
  have rest : (List.range m).map (fun j => (part.map toupper).getD (part.length + j) nameFill) =
    List.replicate m nameFill :=
    eq_replicate_iff.mpr ⟨by simp, by simp⟩
  rw [range_add, map_append, front, map_map]
  simp only [comp_def, rest, filter_append]
  rw [filter_eq_self.mpr, filter_replicate_of_neg (by decide), append_nil]
  intro c mem
  obtain ⟨b, inside, rfl⟩ := mem_map.mp mem
  simpa using ((toupper_cases b).2.2 (legal b inside)).1

theorem shownPart_ne_zero (legal : ∀ c ∈ part, nameCharLegal c = true) : 0 ∉ shownPart part := by
  intro mem
  simp only [shownPart, map_map, mem_map, comp_apply] at mem
  obtain ⟨c, inside, zero⟩ := mem
  have cases := toupper_cases c
  have legal := cases.2.2 (legal c inside)
  split at zero
  · exact legal.2.2 zero
  · cases lower : islower c with
    | true => exact absurd zero (toupper_ne_zero legal.2.1)
    | false => exact legal.2.1 ((cases.2.1 lower).symm.trans zero)

end part

/-- The entry of a name shows its parts, with a dot between them if the extension has characters. -/
theorem nameToStr_setName {base ext : List Byte} (legal : ∀ c ∈ base, nameCharLegal c = true)
    (legal' : ∀ c ∈ ext, nameCharLegal c = true) (fits : base.length ≤ 8) (fits' : ext.length ≤ 3) (de : Dirent) :
    nameToStr (update (de.setName (base.map toupper) (ext.map toupper)) 12
        ((if base.all islower then 0x08 else 0) ||| (if ext.all islower then 0x10 else 0))) =
      shownPart base ++ if ext.isEmpty then [] else dot :: shownPart ext := by
  have front (flags : Byte) : (List.range 8).map (update (de.setName (base.map toupper) (ext.map toupper)) 12 flags) =
      (List.range 8).map fun j => (base.map toupper).getD j nameFill := map_congr_left fun j mem => by
    have lt := mem_range.mp mem
    rw [update_of_ne (by omega), Dirent.setName, if_pos lt]
  have back (flags : Byte) :
      ((List.range 3).map fun j => update (de.setName (base.map toupper) (ext.map toupper)) 12 flags (8 + j)) =
      (List.range 3).map fun j => (ext.map toupper).getD j nameFill := map_congr_left fun j mem => by
    have lt := mem_range.mp mem
    rw [update_of_ne (by omega), Dirent.setName, if_neg (by omega), if_pos (by omega), Nat.add_sub_cancel_left]
  have flags : ∀ b e : Bool, (((if b then (0x08 : Byte) else 0) ||| if e then 0x10 else 0) &&& 0x08 ≠ 0 ↔ b = true) ∧
      (((if b then (0x08 : Byte) else 0) ||| if e then 0x10 else 0) &&& 0x10 ≠ 0 ↔ e = true) := by decide
  have nonzero : ∀ c ∈ shownPart base ++ (if (shownPart ext).isEmpty then [] else
    dot :: shownPart ext), decide (c ≠ 0) = true := by
    intro c mem
    rw [decide_eq_true_iff]
    rintro rfl
    rcases mem_append.mp mem with mem | mem
    · exact shownPart_ne_zero legal mem
    · split at mem
      · cases mem
      · rcases mem_cons.mp mem with eq | mem
        · cases eq
        · exact shownPart_ne_zero legal' mem
  simp only [nameToStr, front, back, filter_padded legal fits, filter_padded legal' fits', Dirent.reserved, update_self,
    (flags _ _).1, (flags _ _).2]
  rw [← shownPart, ← shownPart, takeWhile_eq_self_iff.mpr nonzero]
  simp [shownPart]

/-- A name without long-name entries gets a short entry, and comes back from it exactly if its parts
are uniform and it does not end in a dot. -/
theorem short_name_iff (name : List Byte) (plain : nameNeedLfn name = false) :
    ∃ de, nameTo83 name newDirent = some de ∧ (nameToStr de = name ↔ CaseKept name) ∧
      (matchName name de none = .hit ↔ CaseKept name) := by
  cases parts : splitDot name with
  | none =>
    rw [nameNeedLfn, parts] at plain
    cases plain
  | some both =>
    obtain ⟨base, ext⟩ := both
    simp only [nameNeedLfn, parts, Bool.or_eq_false_iff, decide_eq_false_iff_not, not_lt] at plain
    obtain ⟨⟨⟨⟨nonempty, short⟩, short'⟩, -⟩, -⟩ := plain
    obtain ⟨whole, legal, other⟩ := splitDot_spec parts
    have legal' : ∀ c ∈ ext.getD [], nameCharLegal c = true := by
      cases ext with
      | none => simp
      | some e => exact (other e rfl).2
    have long : name.length ≤ 12 := by
      rw [whole]
      cases ext <;> simp at short' ⊢ <;> omega
    obtain ⟨de, made, shown⟩ : ∃ de, nameTo83 name newDirent = some de ∧ nameToStr de = _ :=
      ⟨_, by rw [nameTo83, parts]; exact if_neg (by simp [nonempty, long, short, short']),
        nameToStr_setName legal legal' short short' newDirent⟩
    obtain ⟨used, live, -⟩ := nameTo83_used made
    have kept : CaseKept name ↔ uniform base = true ∧ ext ≠ some [] ∧ uniform (ext.getD []) = true := by
      constructor
      · exact fun all => all base ext parts
      · intro ok base' ext' parts'
        cases parts.symm.trans parts'
        exact ok
    -- The parts are shown one by one, each as long as it was.
    have same : nameToStr de = name ↔ CaseKept name := by
      have cut (rest rest' : List Byte) : shownPart base ++ rest = base ++ rest' ↔
        shownPart base = base ∧ rest = rest' :=
        ⟨fun eq => append_inj eq (by simp [shownPart]), fun both => by rw [both.1, both.2]⟩
      rw [kept, shown, whole, cut, ← shownPart_eq_iff, ← shownPart_eq_iff]
      refine and_congr_right fun _ => ?_
      cases ext with
      | none => simp [shownPart]
      | some e => cases e <;> simp
    refine ⟨de, made, same, ?_⟩
    rw [← same]
    simp [matchName, used, live]

/-- `AB.c` is found again. -/
theorem short_name_found : nameNeedLfn [0x41, 0x42, 0x2E, 0x63] = false ∧ CaseKept [0x41, 0x42, 0x2E, 0x63] ∧
    ∃ de, nameTo83 [0x41, 0x42, 0x2E, 0x63] newDirent = some de ∧
    matchName [0x41, 0x42, 0x2E, 0x63] de none = .hit := by
  have kept : CaseKept [0x41, 0x42, 0x2E, 0x63] := by
    intro base ext parts
    cases parts
    decide
  obtain ⟨de, made, -, found⟩ := short_name_iff [0x41, 0x42, 0x2E, 0x63] (by decide)
  exact ⟨by decide, kept, de, made, found.mpr kept⟩

/-- The names `f1` and `f.` come back as `F1` and `f`. -/
theorem short_name_lost : nameNeedLfn [0x66, 0x31] = false ∧ nameNeedLfn [0x66, 0x2E] = false ∧
    (nameTo83 [0x66, 0x31] newDirent).map nameToStr = some [0x46, 0x31] ∧
    (nameTo83 [0x66, 0x2E] newDirent).map nameToStr = some [0x66] := by
  decide

end Jlos.Fat32
