import Jlos.Fat32.Directory
import Jlos.Fat32.LongName

/-!
# Scans of a directory

What `fat32_dir_scan` finds in a directory with given entries, and how that changes when a run of
free entries is overwritten by the entries of a new name.
-/
namespace Jlos.Fat32

open Function List Option Dirent

/-- The bytes and the offset of the entry that a scan found, and its long name. -/
def Scan.answer : Scan → Option (List Byte × Nat × Option (List Byte))
  | .hit h => some (h.de.bytes, h.direntOffset, h.longName)
  | _ => none

/-- A scan that reaches the position with nothing collected ends there without a hit. -/
def Quiet (entry : Nat → Option Dirent) (pos : Nat) : Prop :=
  ∀ a, entry pos = some a → a.isEnd = true ∧ a.isLfn = false

/-- After the end mark there is nothing, and a part of a long name is followed by another part or by
its entry. -/
structure Tidy (entry : Nat → Option Dirent) : Prop where
  tail : ∀ q q' a, q ≤ q' → entry q = some a → a.isEnd = true → Quiet entry q'
  parts : ∀ q a, entry q = some a → a.isLfn = true → a.isDeleted = false →
    ∃ b, entry (q + 1) = some b ∧ b.isFree = false

/-! ### The bytes of an entry -/

/-- An entry without what stands behind it in its page. -/
def clip (de : Dirent) : Dirent := fun j => if j < 32 then de j else 0

section clip

variable (de : Dirent)

theorem isEnd_clip : (clip de).isEnd = de.isEnd := rfl

theorem isDeleted_clip : (clip de).isDeleted = de.isDeleted := rfl

theorem isLfn_clip : (clip de).isLfn = de.isLfn := rfl

theorem lfnGetChar_clip {i : Nat} (hi : i < 13) : lfnGetChar (clip de) i = lfnGetChar de i := by
  have low : lfnCharOffset i + 1 < 32 := by
    unfold lfnCharOffset
    split
    · omega
    · split <;> omega
  rw [lfnGetChar, lfnGetChar, word, word, clip, clip, if_pos (by omega), if_pos low]

theorem lfnExtractLoop_clip (base left : Nat) {i : Nat} (buf : Nat → Byte) (le : i + left ≤ 13) :
    lfnExtractLoop (clip de) base left i buf = lfnExtractLoop de base left i buf := by
  induction left generalizing i buf with
  | zero => rfl
  | succ left ih =>
    rw [lfnExtractLoop, lfnExtractLoop, lfnGetChar_clip de (by omega)]
    split
    · rfl
    · exact ih _ (by omega)

theorem clip_clip : clip (clip de) = clip de := by
  funext j
  unfold clip
  split <;> rfl

theorem lfnExtract_clip (buf : Nat → Byte) : lfnExtract (clip de) buf = lfnExtract de buf := by
  have first : clip de 0 = de 0 := rfl
  rw [lfnExtract, lfnExtract, first]
  dsimp only
  rw [lfnExtractLoop_clip de _ _ _ (by omega)]

theorem matchName_clip (name : List Byte) (longName : Option (List Byte)) :
    matchName name (clip de) longName = matchName name de longName := rfl

end clip

/-- What a scan answers depends on the bytes of the entries only. -/
theorem scanFrom_clip (name : List Byte) (entry : Nat → Option Dirent) (rounds pos : Nat) (lfn : Option (Nat → Byte)) :
    (scanFrom name (fun q => (entry q).map clip) rounds pos lfn).answer =
    (scanFrom name entry rounds pos lfn).answer := by
  induction rounds generalizing pos lfn with
  | zero => rfl
  | succ rounds ih =>
    rw [scanFrom, scanFrom]
    cases entry pos with
    | none => rfl
    | some de =>
      dsimp only [map_some]
      rw [isLfn_clip, isDeleted_clip, matchName_clip, lfnExtract_clip]
      split
      · exact ih ..
      · split
        · exact ih ..
        · rfl
        · rfl

/-! ### One entry -/

section step

variable {entry entry' : Nat → Option Dirent} {name : List Byte} {pos rounds : Nat} {de : Dirent}

section

variable {lfn : Option (Nat → Byte)}

theorem scanFrom_none (missing : entry pos = none) : scanFrom name entry rounds pos lfn = .miss := by
  cases rounds with
  | zero => rfl
  | succ rounds => rw [scanFrom, missing]

section

variable (here : entry pos = some de)
include here

theorem scanFrom_part (part : de.isLfn = true)
    (live : de.isDeleted = false) : scanFrom name entry (rounds + 1) pos lfn =
      scanFrom name entry rounds (pos + 1) (some (lfnExtract de (lfn.getD fun _ => 0))) := by
  rw [scanFrom, here]
  dsimp only
  rw [part, live, Bool.not_false, Bool.and_self, if_pos rfl]

theorem scanFrom_entry (whole : de.isLfn = false ∨ de.isDeleted = true) : scanFrom name entry (rounds + 1) pos lfn =
      match matchName name de (lfn.map fun buf => cstr buf nameMax) with
      | .miss => scanFrom name entry rounds (pos + 1) none
      | .stop => .stop
      | .hit => .hit ⟨de, u32 (pos * 32), lfn.map fun buf => cstr buf nameMax⟩ := by
  have other : ¬ (de.isLfn && !de.isDeleted) = true := by
    rcases whole with other | deleted
    · rw [other]
      exact Bool.false_ne_true
    · rw [deleted, Bool.not_true, Bool.and_false]
      exact Bool.false_ne_true
  rw [scanFrom, here]
  dsimp only
  exact if_neg other

theorem scanFrom_end (ends : de.isEnd = true)
    (whole : de.isLfn = false) : scanFrom name entry (rounds + 1) pos lfn = .stop := by
  rw [scanFrom_entry here (.inl whole), matchName, if_pos ends]

theorem scanFrom_deleted (deleted : de.isDeleted = true) :
    scanFrom name entry (rounds + 1) pos lfn = scanFrom name entry rounds (pos + 1) none := by
  have more : ¬ de.isEnd = true := by
    rw [isDeleted, decide_eq_true_iff] at deleted
    rw [isEnd, deleted]
    decide
  rw [scanFrom_entry here (.inr deleted), matchName, if_neg more, if_pos deleted]

end

end

theorem answer_of_quiet (quiet : Quiet entry pos) {lfn : Option (Nat → Byte)} :
    (scanFrom name entry rounds pos lfn).answer = none := by
  cases rounds with
  | zero => rfl
  | succ rounds =>
    cases here : entry pos with
    | none =>
      rw [scanFrom_none here]
      rfl
    | some de =>
      obtain ⟨ends, whole⟩ := quiet de here
      rw [scanFrom_end here ends whole]
      rfl

end step

/-! ### Directories that agree in front -/

variable {pos : Nat} {de : Dirent} {lfn : Option (Nat → Byte)}

section agree

variable {entry entry' : Nat → Option Dirent} {name : List Byte}

/-- A scan does not see what stands behind an end mark. -/
theorem scanFrom_congr (rounds : Nat)
    (same : ∀ x, pos ≤ x → (∀ q, pos ≤ q → q < x → ¬Quiet entry q) → entry' x = entry x) :
    scanFrom name entry' rounds pos lfn = scanFrom name entry rounds pos lfn := by
  induction rounds generalizing pos lfn with
  | zero => rfl
  | succ rounds ih =>
    have agree := same pos (Nat.le_refl _) (by omega)
    cases here : entry pos with
    | none => rw [scanFrom_none here, scanFrom_none (agree.trans here)]
    | some de =>
      by_cases quiet : Quiet entry pos
      · obtain ⟨ends, whole⟩ := quiet de here
        rw [scanFrom_end here ends whole, scanFrom_end (agree.trans here) ends whole]
      · have rest (lfn : Option (Nat → Byte)) := @ih (pos + 1) lfn fun x low more => same x (by omega) fun q le lt =>
          (eq_or_lt_of_le le).elim (· ▸ quiet) (more q · lt)
        rw [scanFrom, scanFrom, agree, here]
        dsimp only
        rw [rest, rest]

theorem matchName_ne_stop (more : de.isEnd = false) (longName : Option (List Byte)) :
    matchName name de longName ≠ .stop := by
  rw [matchName, if_neg (ne_true_of_eq_false more)]
  split
  · nofun
  · split <;> nofun

/-- Two scans of the same entries without an end mark find the same entry, or come to the next one
in the same state. -/
theorem scanFrom_prefix (n : Nat) {r : Nat} (same : ∀ q, pos ≤ q → q < pos + n →
      ∃ a, entry q = some a ∧ a.isEnd = false ∧ entry' q = some a) :
    (∃ h, scanFrom name entry (n + r) pos lfn = .hit h ∧ scanFrom name entry' (n + r) pos lfn = .hit h) ∨
    ∃ lfn', scanFrom name entry (n + r) pos lfn = scanFrom name entry r (pos + n) lfn' ∧
      scanFrom name entry' (n + r) pos lfn = scanFrom name entry' r (pos + n) lfn' ∧ (n = 0 → lfn' = lfn) ∧
      (0 < n → (∀ a, entry (pos + n - 1) = some a → a.isLfn = true → a.isDeleted = true) → lfn' = none) := by
  induction n generalizing pos lfn with
  | zero => exact .inr ⟨lfn, by rw [Nat.zero_add]; rfl, by rw [Nat.zero_add]; rfl, fun _ => rfl, nofun⟩
  | succ n ih =>
    obtain ⟨a, here, more, here'⟩ := same pos (Nat.le_refl _) (by omega)
    have rest (lfn : Option (Nat → Byte)) := @ih (pos + 1) lfn fun q low high => same q (by omega) (by omega)
    rw [show n + 1 + r = n + r + 1 by omega, show pos + (n + 1) = pos + 1 + n by omega]
    by_cases part : a.isLfn = true ∧ a.isDeleted = false
    · rw [scanFrom_part here part.1 part.2, scanFrom_part here' part.1 part.2]
      rcases rest _ with hit | ⟨lfn', old, new, -, ends⟩
      · exact .inl hit
      · refine .inr ⟨lfn', old, new, nofun, fun _ last => ?_⟩
        rcases Nat.eq_zero_or_pos n with rfl | pos'
        · -- The part would be the last entry of the prefix.
          have deleted := last a here part.1
          rw [part.2] at deleted
          cases deleted
        · exact ends pos' last
    · have whole : a.isLfn = false ∨ a.isDeleted = true := by
        by_contra both
        rw [not_or, Bool.not_eq_false, Bool.not_eq_true] at both
        exact part both
      rw [scanFrom_entry here whole, scanFrom_entry here' whole]
      cases verdict : matchName name a (lfn.map fun buf => cstr buf nameMax) with
      | stop => exact absurd verdict (matchName_ne_stop more _)
      | hit => exact .inl ⟨_, rfl, rfl⟩
      | miss =>
        rcases rest none with hit | ⟨lfn', old, new, start, ends⟩
        · exact .inl hit
        · refine .inr ⟨lfn', old, new, nofun, fun _ last => ?_⟩
          rcases Nat.eq_zero_or_pos n with zero | pos'
          · exact start zero
          · exact ends pos' last

end agree

/-! ### A run of new entries -/

/-- A run of free entries is overwritten: in front nothing changes, and behind it nothing changes or
there is nothing. -/
structure Placed (entry entry' : Nat → Option Dirent) (p : Nat) (new : List Dirent) : Prop where
  below : ∀ q < p, ∃ a, entry q = some a ∧ entry' q = some a
  free : ∀ i < new.length, ∀ a, entry (p + i) = some a → a.isFree = true
  placed : ∀ i < new.length, entry' (p + i) = new[i]?
  behind : (∀ q, p + new.length ≤ q → entry' q = entry q) ∧ (∀ i < new.length, entry (p + i) ≠ none) ∨
    Quiet entry p ∧ Quiet entry' (p + new.length)

section placed

variable {entry entry' : Nat → Option Dirent} {p : Nat} {new : List Dirent} {name : List Byte}

theorem scanFrom_free (tidy : Tidy entry) (n : Nat) {r : Nat}
    (free : ∀ i < n, ∀ a, entry (pos + i) = some a → a.isFree = true) :
    (scanFrom name entry (n + r) pos none).answer = (scanFrom name entry r (pos + n) none).answer ∨
      (scanFrom name entry (n + r) pos none).answer = none ∧
        ((∃ i < n, entry (pos + i) = none) ∨ Quiet entry (pos + n)) := by
  induction n generalizing pos with
  | zero =>
    left
    rw [Nat.zero_add]
    rfl
  | succ n ih =>
    rw [show n + 1 + r = n + r + 1 by omega]
    cases here : entry pos with
    | none =>
      rw [scanFrom_none here]
      exact .inr ⟨rfl, .inl ⟨0, by omega, here⟩⟩
    | some a =>
      have unused := free 0 (by omega) a here
      rw [isFree, Bool.or_eq_true] at unused
      rcases unused with ends | deleted
      · have whole := (tidy.tail pos pos a (Nat.le_refl _) here ends a here).2
        rw [scanFrom_end here ends whole]
        exact .inr ⟨rfl, .inr (tidy.tail pos _ a (by omega) here ends)⟩
      · rw [scanFrom_deleted here deleted, show pos + (n + 1) = pos + 1 + n by omega]
        have later (i : Nat) (lt : i < n) (b : Dirent) (at' : entry (pos + 1 + i) = some b) : b.isFree = true :=
          free (i + 1) (by omega) b (by rwa [show pos + (i + 1) = pos + 1 + i by omega])
        rcases ih later with go | ⟨none, ⟨i, lt, missing⟩ | quiet⟩
        · exact .inl go
        · exact .inr ⟨none, .inl ⟨i + 1, by omega, by rwa [show pos + (i + 1) = pos + 1 + i by omega]⟩⟩
        · exact .inr ⟨none, .inr quiet⟩

namespace Placed

section

variable (h : Placed entry entry' p new) (tidy : Tidy entry)
include h tidy

/-- Behind the run a scan finds what it found from its start on before. -/
theorem rest (name : List Byte) (r : Nat) :
    (scanFrom name entry (new.length + r) p none).answer = (scanFrom name entry' r (p + new.length) none).answer := by
  rcases h.behind with ⟨same, there⟩ | ⟨before, after⟩
  · rw [scanFrom_congr r fun q low _ => same q low]
    rcases scanFrom_free tidy new.length h.free with go | ⟨nothing, ⟨i, lt, missing⟩ | quiet⟩
    · exact go
    · exact absurd missing (there i lt)
    · rw [nothing, answer_of_quiet quiet]
  · rw [answer_of_quiet before, answer_of_quiet after]

/-- Behind an end mark the run is not seen. -/
theorem hidden {q : Nat} {a : Dirent} (lt : q < p) (here : entry q = some a) (ends : a.isEnd = true) (rounds : Nat) :
    scanFrom name entry' rounds 0 none = scanFrom name entry rounds 0 none := by
  apply scanFrom_congr rounds
  intro x _ more
  have le : x ≤ q := Nat.le_of_not_lt fun behind => more q (Nat.zero_le q) behind
    (tidy.tail q q a (Nat.le_refl q) here ends)
  obtain ⟨b, old, new⟩ := h.below x (lt_of_le_of_lt le lt)
  rw [old, new]

/-- Without an end mark in front a scan finds what it found before, or comes to the run with nothing
collected. -/
theorem reaches (name : List Byte) (some' : 0 < new.length)
    (more : ∀ q < p, ∀ a, entry q = some a → a.isEnd = false) (r : Nat) :
    (∃ hit, scanFrom name entry (p + r) 0 none = .hit hit ∧ scanFrom name entry' (p + r) 0 none = .hit hit) ∨
      scanFrom name entry (p + r) 0 none = scanFrom name entry r p none ∧
        scanFrom name entry' (p + r) 0 none = scanFrom name entry' r p none := by
  have same (q : Nat) (_ : 0 ≤ q) (lt : q < 0 + p) : ∃ a, entry q = some a ∧ a.isEnd = false ∧ entry' q = some a := by
    obtain ⟨a, old, new⟩ := h.below q (by omega)
    exact ⟨a, old, more q (by omega) a old, new⟩
  rcases scanFrom_prefix p same with hit | ⟨lfn', old, new', start, ends⟩
  · exact .inl hit
  · have nothing : lfn' = none := by
      rcases Nat.eq_zero_or_pos p with zero | pos
      · exact start zero
      · refine ends pos fun a here part => ?_
        -- A part in front of the run would be followed by an entry in use.
        by_contra live
        obtain ⟨b, next, used⟩ := tidy.parts _ a here part (by simpa using live)
        rw [show 0 + p - 1 + 1 = p + 0 by omega] at next
        rw [h.free 0 some' b next] at used
        cases used
    subst nothing
    rw [Nat.zero_add] at old new'
    exact .inr ⟨old, new'⟩

end

end Placed

end placed

/-! ### The entries of a name -/

section name

variable {entry : Nat → Option Dirent} {name n : List Byte} {p r : Nat} {new : List Dirent}

/-- The entry that a new name ends with is found by its name. -/
def visible (name : List Byte) : Bool :=
  if nameNeedLfn name then !(generateShortName name newDirent).isDeleted
  else (nameTo83 name newDirent).any fun de => nameToStr de = name

/-- The entries of a long name, the last part first. -/
def Parts (entry : Nat → Option Dirent) (p : Nat) (name : List Byte) (checksum : Byte) (k : Nat) : Prop :=
  ∀ i < k, (entry (p + i)).map clip = some (clip (lfnEntry name checksum (k - 1 - i)))

theorem scanFrom_parts (short : name.length ≤ nameMax) (legal : 0 ∉ name) {checksum : Byte} (k : Nat)
    (le : k ≤ lfnCount name) (held : LfnHeld name k (lfn.getD fun _ => 0))
    (begun : k = 0 → lfn ≠ none) (there : Parts entry p name checksum k) :
    ∃ buf, LfnHeld name 0 buf ∧ scanFrom n entry (k + r) p lfn = scanFrom n entry r (p + k) (some buf) := by
  induction k generalizing p lfn with
  | zero =>
    obtain ⟨buf, rfl⟩ := ne_none_iff_exists'.mp (begun rfl)
    exact ⟨buf, held, by rw [Nat.zero_add]; rfl⟩
  | succ k ih =>
    have few := lfnCount_le short
    obtain ⟨de, here, bytes⟩ := map_eq_some_iff.mp (there 0 (Nat.succ_pos k))
    rw [Nat.add_zero] at here
    rw [Nat.sub_zero, Nat.add_sub_cancel] at bytes
    have part : de.isLfn = true := by rw [← isLfn_clip, bytes, isLfn_clip, lfnEntry_isLfn]
    have live : de.isDeleted = false := by
      rw [← isDeleted_clip, bytes]
      exact (lfnEntry_seq name checksum (show k < 20 by omega)).2
    rw [show k + 1 + r = k + r + 1 by omega, scanFrom_part here part live, ← lfnExtract_clip, bytes, lfnExtract_clip,
      show p + (k + 1) = p + 1 + k by omega]
    refine ih (by omega) (lfnExtract_lfnEntry short legal checksum (by omega) held) nofun fun i lt => ?_
    rw [show p + 1 + i = p + (i + 1) by omega, there (i + 1) (by omega)]
    congr 3
    omega

/-- From any state, a scan that comes to the entries of a long name presents it with the short entry
behind them. -/
theorem scanFrom_long (short : name.length ≤ nameMax) (legal : 0 ∉ name) {checksum : Byte} {de : Dirent}
    (parts : Parts entry p name checksum (lfnCount name)) (last : entry (p + lfnCount name) = some de)
    (whole : de.isLfn = false) (lfn : Option (Nat → Byte)) : scanFrom n entry (lfnCount name + 1 + r) p lfn =
      match matchName n de (some name) with
      | .miss => scanFrom n entry r (p + lfnCount name + 1) none
      | .stop => .stop
      | .hit => .hit ⟨de, u32 ((p + lfnCount name) * 32), some name⟩ := by
  obtain ⟨buf, held, collected⟩ := scanFrom_parts (n := n) (r := r + 1) short legal (lfnCount name)
    (Nat.le_refl _) (LfnHeld.start (lfn.getD fun _ => 0)) (fun zero => absurd zero (by unfold lfnCount; omega)) parts
  rw [show lfnCount name + 1 + r = lfnCount name + (r + 1) by omega, collected, scanFrom_entry last (.inl whole),
    map_some, held.cstr short legal]

/-- The long name that a scan has collected after some entries: each part adds to it, and every
other entry ends it. -/
def collected (entry : Nat → Option Dirent) : Nat → Nat → Option (Nat → Byte) → Option (Nat → Byte)
  | 0, _, lfn => lfn
  | k + 1, pos, lfn => collected entry k (pos + 1) ((entry pos).bind fun de =>
      if de.isLfn && !de.isDeleted then some (lfnExtract de (lfn.getD fun _ => 0)) else none)

/-- A scan of the first entries that finds nothing goes on behind them. -/
theorem scanFrom_front (k : Nat) (there : ∀ q, pos ≤ q → q < pos + k → entry q ≠ none)
    (miss : scanFrom n entry k pos lfn = .miss) :
    scanFrom n entry (k + r) pos lfn = scanFrom n entry r (pos + k) (collected entry k pos lfn) := by
  induction k generalizing pos lfn with
  | zero => rw [Nat.zero_add, collected, Nat.add_zero]
  | succ k ih =>
    obtain ⟨de, here⟩ := ne_none_iff_exists'.mp (there pos (Nat.le_refl _) (by omega))
    have rest (lfn : Option (Nat → Byte)) := @ih (pos + 1) lfn fun q low high => there q (by omega) (by omega)
    rw [show k + 1 + r = k + r + 1 by omega, show pos + (k + 1) = pos + 1 + k by omega, collected, here, bind_some]
    rw [scanFrom, here] at miss ⊢
    dsimp only at miss ⊢
    split at miss
    next part =>
      rw [if_pos part, if_pos part]
      exact rest _ miss
    next other =>
      rw [if_neg other, if_neg other]
      split at miss
      · exact rest _ miss
      · cases miss
      · cases miss

/-! ### The buffer of a scan -/

/-- What a scan does: the entries that it passes to `fat32_lfn_extract`, the buffers that it passes
on as long names, and what it returns. -/
structure Looks where
  parts : List Dirent
  names : List (Nat → Byte)
  result : Scan

section looks

variable {σ : Type} (f : σ → Dirent → Nat → Option (List Byte) → Verdict × σ)

/-- The loops of `fat32_dir_scan` for any function `match` with any context. -/
def scanWith (entry : Nat → Option Dirent) : Nat → Nat → Option (Nat → Byte) → σ → Looks
  | 0, _, _, _ => ⟨[], [], .miss⟩
  | rounds + 1, pos, lfn, ctx =>
    match entry pos with
    | none => ⟨[], [], .miss⟩
    | some de =>
      if de.isLfn && !de.isDeleted then
        let rest := scanWith entry rounds (pos + 1) (some (lfnExtract de (lfn.getD fun _ => 0))) ctx
        { rest with parts := de :: rest.parts }
      else
        let longName := lfn.map fun buf => cstr buf nameMax
        match f ctx de pos longName with
        | (.miss, ctx) =>
          let rest := scanWith entry rounds (pos + 1) none ctx
          { rest with names := lfn.toList ++ rest.names }
        | (.stop, _) => ⟨[], lfn.toList, .stop⟩
        | (.hit, _) => ⟨[], lfn.toList, .hit ⟨de, u32 (pos * 32), longName⟩⟩

/-- The entry with the number that `fat32_readdir` asks for. -/
def matchEntryAt (target current : Nat) (de : Dirent) (_entryPos : Nat)
    (_longName : Option (List Byte)) : Verdict × Nat :=
  if de.isEnd then (.stop, current)
  else if de.isDeleted then (.miss, current)
  else if current = target then (.hit, current) else (.miss, current + 1)

/-- The scan for a name is the one with `fat32_match_name`. -/
theorem scanFrom_eq_scanWith (name : List Byte) (entry : Nat → Option Dirent) (rounds pos : Nat)
    (lfn : Option (Nat → Byte)) : scanFrom name entry rounds pos lfn =
      (scanWith (fun _ de _ longName => (matchName name de longName, ())) entry rounds pos lfn ()).result := by
  induction rounds generalizing pos lfn with
  | zero => rfl
  | succ rounds ih =>
    rw [scanFrom, scanWith]
    cases entry pos with
    | none => rfl
    | some de =>
      dsimp only
      split
      · exact ih ..
      · cases matchName name de (lfn.map fun buf => cstr buf nameMax) with
        | miss => exact ih ..
        | stop => rfl
        | hit => rfl

variable {f}

private theorem scanWith_terminated (entry : Nat → Option Dirent) (rounds pos : Nat) (ctx : σ)
    (ends : ∀ buf ∈ lfn, buf nameMax = 0) :
    ∀ buf ∈ (scanWith f entry rounds pos lfn ctx).names, buf nameMax = 0 := by
  induction rounds generalizing pos lfn ctx with
  | zero => nofun
  | succ rounds ih =>
    rw [scanWith]
    cases entry pos with
    | none => nofun
    | some de =>
      dsimp only
      split
      · refine ih _ _ fun buf eq => ?_
        cases eq
        -- behind the longest name only terminators are stored
        rcases lfnExtract_high de (Nat.le_refl _) (lfn.getD fun _ => 0) with same | ⟨zero, -⟩
        · rw [same]
          cases lfn with
          | none => rfl
          | some buf => exact ends buf rfl
        · exact zero
      · split
        · intro buf mem
          rcases mem_append.mp mem with this | later
          · exact ends buf (mem_toList.mp this)
          · exact ih _ _ (by simp) buf later
        · exact fun buf mem => ends buf (mem_toList.mp mem)
        · exact fun buf mem => ends buf (mem_toList.mp mem)

/-- A scan of any directory writes only into the 256 bytes of the buffer exactly if each twentieth
part that it reads ends a name within the buffer, if at all; the long names that it passes on have
a terminator there in any case. -/
theorem lfn_buf_kept_iff (f : σ → Dirent → Nat → Option (List Byte) → Verdict × σ)
    (entry : Nat → Option Dirent) (rounds : Nat) (ctx : σ) :
    ((∀ de ∈ (scanWith f entry rounds 0 none ctx).parts, ∀ buf j, lfnExtract de buf j ≠ buf j →
        j < nameMax + 1) ∧
      ∀ buf ∈ (scanWith f entry rounds 0 none ctx).names, ∃ j < nameMax + 1, buf j = 0) ↔
    ∀ de ∈ (scanWith f entry rounds 0 none ctx).parts, LfnFits de := by
  have terminated (buf : Nat → Byte) (mem : buf ∈ (scanWith f entry rounds 0 none ctx).names) :
      ∃ j < nameMax + 1, buf j = 0 :=
    ⟨nameMax, Nat.lt_succ_self _, scanWith_terminated entry rounds 0 ctx (by simp) buf mem⟩
  rw [and_iff_left terminated]
  exact forall₂_congr fun de _ => lfnExtract_inside_iff de

end looks

/-- `fat32_readdir` comes to the twentieth part of a name of 256 bytes: its terminator is written
behind the buffer. -/
theorem lfn_buf_overrun : ∃ entry : Nat → Option Dirent,
    ∃ de ∈ (scanWith (matchEntryAt 0) entry 1 0 none 0).parts,
      lfnExtract de (fun _ => 1) (nameMax + 1) = 0 := by
  refine ⟨fun _ => some (lfnEntry (List.replicate 256 0x61) 0 19),
    lfnEntry (List.replicate 256 0x61) 0 19, ?_, by decide +kernel⟩
  have part : (lfnEntry (List.replicate 256 0x61) 0 19).isLfn &&
      !(lfnEntry (List.replicate 256 0x61) 0 19).isDeleted := by decide +kernel
  rw [scanWith]
  dsimp only
  rw [if_pos part]
  exact mem_cons_self

/-- The entries of `fat32_lfn_build`, the last first, and a short entry behind them, anywhere in a
directory: a scan that has found nothing in front of them presents exactly the name as the long name
of the short entry. -/
theorem long_name_presented (name sought : List Byte) (checksum : Byte) (entry : Nat → Option Dirent) (p r : Nat)
    (de : Dirent) (short : name.length ≤ nameMax) (legal : 0 ∉ name) (front : ∀ q < p, entry q ≠ none)
    (miss : scanFrom sought entry p 0 none = .miss) (parts : Parts entry p name checksum (lfnCount name))
    (last : entry (p + lfnCount name) = some de) (whole : de.isLfn = false) :
    scanFrom sought entry (p + (lfnCount name + 1 + r)) 0 none =
      match matchName sought de (some name) with
      | .miss => scanFrom sought entry r (p + lfnCount name + 1) none
      | .stop => .stop
      | .hit => .hit ⟨de, u32 ((p + lfnCount name) * 32), some name⟩ := by
  rw [scanFrom_front p (fun q _ lt => front q (by omega)) miss, Nat.zero_add]
  exact scanFrom_long short legal parts last whole _

/-- A name of two parts behind a stray part of another name. -/
theorem stray_part_ignored : scanFrom (List.replicate 14 0x61)
    (fun q => ([lfnEntry [0x62] 0 0, lfnEntry (List.replicate 14 0x61) 7 1, lfnEntry (List.replicate 14 0x61) 7 0,
      update newDirent 0 0x41])[q]?) 4 0 none = .hit ⟨update newDirent 0 0x41, 96, some (List.replicate 14 0x61)⟩ := by
  refine (long_name_presented (List.replicate 14 0x61) _ 7 _ 1 0 _ (by decide) (by decide) (fun q lt => ?_) rfl
    (fun i lt => ?_) rfl (by decide)).trans ?_
  · rw [Nat.lt_one_iff.mp lt]
    exact nofun
  · have two : i < 2 := lt
    rcases i with _ | _ | i
    · rfl
    · rfl
    · omega
  · rw [matchName, if_neg (by decide), if_neg (by decide)]
    rfl

theorem length_nameEntries_pos (eq : nameEntries name = some new) : 0 < new.length := by
  rw [nameEntries] at eq
  split at eq
  · cases eq
    simp
  · obtain ⟨de, -, rfl⟩ := map_eq_some_iff.mp eq
    simp

/-- The first byte of a short name, which is neither an end mark nor, for a plain name, a mark of a
deleted entry. -/
theorem toupper_ne_zero {c : Byte} (ne : c ≠ 0) : toupper c ≠ 0 := by
  revert c
  decide

theorem toupper_legal {c : Byte} (legal : nameCharLegal c = true) : toupper c ≠ 0 ∧ toupper c ≠ 0xE5 := by
  revert c
  decide

theorem isLfn_setName (base ext : List Byte) (same : de 11 = newDirent.setName base ext 11) : de.isLfn = false := by
  have attributes : newDirent.setName base ext 11 = 0x20 := by
    show newDirent 11 = 0x20
    rw [newDirent, update_self]
  rw [Dirent.isLfn, Dirent.attributes, same, attributes]
  rfl

theorem generateShortName_used (legal : 0 ∉ name) : (generateShortName name newDirent).isEnd = false ∧
    (generateShortName name newDirent).isLfn = false := by
  refine ⟨?_, isLfn_setName _ _ rfl⟩
  rw [isEnd, decide_eq_false_iff_not, generateShortName]
  generalize hb : (if name.contains dot = true then
    name.take (name.length - ((name.reverse.takeWhile (· ≠ dot)).reverse).length - 1) else name) = base
  show ¬ ((base.take 6).map toupper ++ [0x7E, 0x31]).getD 0 nameFill = 0
  cases base with
  | nil => decide
  | cons c rest =>
    -- The base is a front part of the name.
    have mem : c ∈ name := by
      have first : c ∈ c :: rest := mem_cons_self
      rw [← hb] at first
      split at first
      · exact mem_of_mem_take first
      · exact first
    have nonzero : c ≠ 0 := by
      rintro rfl
      exact legal mem
    exact toupper_ne_zero nonzero

theorem splitDot_spec {base : List Byte} {ext : Option (List Byte)} (eq : splitDot name = some (base, ext)) :
    name = base ++ ext.elim [] (dot :: ·) ∧ (∀ c ∈ base, nameCharLegal c = true) ∧
      ∀ e, ext = some e → base ≠ [] ∧ ∀ c ∈ e, nameCharLegal c = true := by
  have parts := (takeWhile_append_dropWhile (p := fun x => decide (x ≠ dot)) (l := name)).symm
  have first := head?_dropWhile_not (fun x => decide (x ≠ dot)) name
  rw [splitDot] at eq
  split at eq
  next legal =>
    have legal := List.all_eq_true.mp legal
    split at eq
    next none =>
      cases eq
      rw [none] at parts
      exact ⟨parts, legal, nofun⟩
    next c e found =>
      rw [found] at parts first
      split at eq
      · cases eq
      next both =>
        cases eq
        simp only [Bool.or_eq_true, Bool.not_eq_true', not_or, Bool.not_eq_false, List.all_eq_true,
          List.isEmpty_iff] at both
        have separator : c = dot := by simpa using first
        rw [separator] at parts
        refine ⟨parts, legal, fun e' same => ?_⟩
        cases same
        exact both
  next => cases eq

theorem nameTo83_used (eq : nameTo83 name newDirent = some de) :
    de.isEnd = false ∧ de.isDeleted = false ∧ de.isLfn = false := by
  rw [nameTo83] at eq
  split at eq
  next => cases eq
  next base ext split' =>
    dsimp only at eq
    split at eq
    next => cases eq
    next fits =>
      cases eq
      obtain ⟨whole, legal, other⟩ := splitDot_spec split'
      have nonempty : base ≠ [] := by
        rintro rfl
        cases ext with
        | none => exact fits (by rw [whole]; rfl)
        | some e => exact (other e rfl).1 rfl
      obtain ⟨c, rest, rfl⟩ := exists_cons_of_ne_nil nonempty
      obtain ⟨nonzero, live⟩ := toupper_legal (legal c mem_cons_self)
      refine ⟨?_, ?_, isLfn_setName _ _ (update_of_ne (by decide) ..)⟩
      · rw [isEnd, decide_eq_false_iff_not]
        exact nonzero
      · rw [isDeleted, decide_eq_false_iff_not]
        exact live

/-- A scan that comes to the entries of a name finds them, or goes on behind them. -/
theorem scanFrom_nameEntries (short : name.length ≤ nameMax) (legal : 0 ∉ name) (eq : nameEntries name = some new)
    (there : ∀ i < new.length, entry (p + i) = (new.map clip)[i]?) :
    (visible name = true → n = name → ∃ h, scanFrom n entry (new.length + r) p none = .hit h) ∧
    (visible name = true ∧ n ≠ name ∨ visible name = false ∧ n = name →
      scanFrom n entry (new.length + r) p none = scanFrom n entry r (p + new.length) none) := by
  rw [nameEntries] at eq
  rw [visible]
  split at eq
  next long =>
    cases eq
    rw [if_pos long]
    generalize hs : generateShortName name newDirent = de at there ⊢
    obtain ⟨used, whole⟩ := hs ▸ generateShortName_used legal
    generalize lfnChecksum de = checksum at there ⊢
    have len : (((List.range (lfnCount name)).map (lfnEntry name checksum)).reverse ++
      [de]).length = lfnCount name + 1 := by
      simp
    -- The directory has the parts of a long name in reverse order.
    have parts : Parts entry p name checksum (lfnCount name) := by
      intro i lt
      rw [there i (by omega), getElem?_map, getElem?_append_left (by simpa), getElem?_reverse (by simpa)]
      simp only [length_map, length_range, getElem?_map]
      rw [getElem?_range (by omega)]
      exact congrArg some (clip_clip _)
    have last : entry (p + lfnCount name) = some (clip de) := by
      rw [there _ (by omega), getElem?_map, getElem?_append_right (by simp)]
      simp
    rw [len, scanFrom_long short legal parts last whole none, matchName_clip, matchName,
      if_neg (ne_true_of_eq_false used)]
    cases deleted : de.isDeleted with
    | true =>
      rw [if_pos rfl]
      exact ⟨nofun, fun _ => rfl⟩
    | false =>
      rw [if_neg Bool.false_ne_true, getD_some]
      constructor
      · rintro - rfl
        rw [if_pos rfl]
        exact ⟨_, rfl⟩
      · rintro (⟨-, ne⟩ | ⟨hidden, -⟩)
        · rw [if_neg (Ne.symm ne)]
          rfl
        · cases hidden
  next plain =>
    obtain ⟨de, made, rfl⟩ := map_eq_some_iff.mp eq
    rw [if_neg plain, made, any_some]
    obtain ⟨used, live, whole⟩ := nameTo83_used made
    have here : entry p = some (clip de) := there 0 (by simp)
    rw [show [de].length + r = r + 1 by simp; omega, scanFrom_entry here (.inl whole), map_none, matchName_clip,
      matchName, if_neg (ne_true_of_eq_false used), if_neg (ne_true_of_eq_false live), getD_none]
    constructor
    · rintro shown rfl
      rw [if_pos (of_decide_eq_true shown)]
      exact ⟨_, rfl⟩
    · rintro (⟨shown, ne⟩ | ⟨hidden, rfl⟩)
      · rw [of_decide_eq_true shown, if_neg (Ne.symm ne)]
        rfl
      · rw [if_neg (of_decide_eq_false hidden)]
        rfl

end name

end Jlos.Fat32
