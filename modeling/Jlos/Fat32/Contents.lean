import Jlos.Fat32.Blocks

/-!
# What the pages of a file show

The bytes of a file or a directory, from its cached pages or from the sectors of its blocks.
-/
namespace Jlos.Fat32

open Function Option Mapping

variable {vol : Volume} {a a' : Mapping} {x phys : Nat}

/-- The byte that the pages show at a position of the file. -/
def content (vol : Volume) (a : Mapping) (x : Nat) : Byte :=
  ((a.view vol (x / 4096)).map fun page => page.data (x % 4096)).getD 0

theorem content_cached {page : Page} (cached : a.pages (x / 4096) = some page) :
    content vol a x = page.data (x % 4096) := by
  rw [content, view, cached, some_or, map_some, getD_some]

theorem readFullPage_of_block {first : Nat} (block : getBlock vol first (x / 512) = some phys) :
    readFullPage vol first (x / 4096) = some ⟨fillData vol first (x / 4096), fun _ => false, false⟩ := by
  rw [readFullPage, if_pos]
  rw [List.any_eq_true]
  refine ⟨x % 4096 / 512, List.mem_range.mpr (by omega), ?_⟩
  rw [show x / 4096 * 8 + x % 4096 / 512 = x / 512 by omega, block]
  rfl

theorem fillData_of_block {first : Nat} (block : getBlock vol first (x / 512) = some phys) :
    fillData vol first (x / 4096) (x % 4096) = vol.disk phys (x % 512) := by
  rw [fillData, show x / 4096 * 8 + x % 4096 / 512 = x / 512 by omega, block]
  rw [show x % 4096 % 512 = x % 512 by omega]

theorem content_uncached (missing : a.pages (x / 4096) = none)
    (block : getBlock vol a.firstCluster (x / 512) = some phys) : content vol a x = vol.disk phys (x % 512) := by
  rw [content, view, missing, none_or, readFullPage_of_block block, map_some, getD_some]
  exact fillData_of_block block

theorem content_unmapped (missing : a.pages (x / 4096) = none)
    (block : getBlock vol a.firstCluster (x / 512) = none) : content vol a x = 0 := by
  rw [content, view, missing, none_or, readFullPage]
  split
  · show fillData vol a.firstCluster (x / 4096) (x % 4096) = 0
    rw [fillData, show x / 4096 * 8 + x % 4096 / 512 = x / 512 by omega, block]
  · rfl

theorem view_of_block (block : getBlock vol a.firstCluster (x / 512) = some phys) :
    ∃ page, a.view vol (x / 4096) = some page := by
  cases cached : a.pages (x / 4096) with
  | none => exact ⟨_, by rw [view, cached, none_or, readFullPage_of_block block]⟩
  | some page => exact ⟨page, by rw [view, cached, some_or]⟩

theorem content_congr (view : a'.view vol = a.view vol) (x : Nat) : content vol a' x = content vol a x := by
  rw [content, content, view]

theorem pageWrite_eq {index offset : Nat} {bytes : List Byte} (eq : pageWrite vol a index offset bytes = some a') :
    ∃ page, a.view vol index = some page ∧
      a' = { a with pages := update a.pages index (some (page.write offset bytes)) } := by
  obtain ⟨⟨page, loaded⟩, got, rfl⟩ := map_eq_some_iff.mp eq
  obtain ⟨shown, seen, both⟩ := map_eq_some_iff.mp got
  cases both
  refine ⟨page, seen, ?_⟩
  dsimp only
  rw [update_idem]

theorem content_pageWrite {fp : Nat} {bytes : List Byte} (fits : fp % 4096 + bytes.length ≤ 4096)
    (eq : pageWrite vol a (fp / 4096) (fp % 4096) bytes = some a') (x : Nat) :
    content vol a' x = if fp ≤ x ∧ x < fp + bytes.length then bytes.getD (x - fp) 0 else content vol a x := by
  obtain ⟨page, seen, rfl⟩ := pageWrite_eq eq
  by_cases here : x / 4096 = fp / 4096
  · have cached : ({ a with pages := update a.pages (fp / 4096) (some (page.write (fp % 4096) bytes)) } :
        Mapping).pages (x / 4096) = some (page.write (fp % 4096) bytes) := by
      rw [here]
      exact update_self ..
    have before : content vol a x = page.data (x % 4096) := by
      rw [content, here, seen, map_some, getD_some]
    rw [content_cached cached, before, Page.write]
    dsimp only
    by_cases inside : fp ≤ x ∧ x < fp + bytes.length
    · rw [if_pos inside, if_pos (by omega), show x % 4096 - fp % 4096 = x - fp by omega]
    · rw [if_neg inside, if_neg (by omega)]
  · rw [if_neg (by omega), content, content, view, view]
    dsimp only
    rw [update_of_ne here]

end Jlos.Fat32
