import Jlos.Fat32.Chains
import Jlos.Fat32.File

/-!
# Blocks of a chain

Where the chains of the table start, how the operations of the driver change that, and which sectors
of the device the blocks of a file are.
-/
namespace Jlos.Fat32

open Lib List Option

/-! ### First clusters -/

variable {cluster sector c : Nat} {xs : List Nat} {first index : Nat}

section heads

variable {v : SbInfo} {m m' : Image}

/-- The cluster is the first one of a chain. -/
abbrev Head (v : SbInfo) (m : Image) (c : Nat) : Prop := Legal v m (.free c)

/-- A first cluster stays one when the links that lead somewhere are kept, or lead to a cluster that
was free. -/
theorem Head.congr (h : Head v m c) (used : link v m' c ≠ .free)
    (leads : ∀ y, InVolume v y → ∀ z, link v m' y = .next z → link v m y = .next z ∨ link v m z = .free) :
    Head v m' c := by
  refine ⟨h.1, used, fun y hy leadsTo => ?_⟩
  rcases leads y hy c leadsTo with old | free
  · exact h.2.2 y hy old
  · exact h.2.1 free

section

variable (layout : Layout v) (formed : WellFormed v m)
include layout formed

theorem alloc_heads {new : Nat} (eq : allocCluster v m = some (new, m')) :
    WellFormed v m' ∧ Head v m' new ∧ ∀ c, Head v m c → Head v m' c ∧ c ≠ new := by
  have kept := alloc_kept layout formed
  unfold exec Effect at kept
  dsimp only at kept
  rw [eq] at kept
  obtain ⟨formed', data, free, ends, others⟩ := kept
  have last : link v m' new = .last := link_last_iff.mpr (by rw [ends])
  have same (y : Nat) (hy : InVolume v y) (ne : y ≠ new) : link v m' y = link v m y := link_congr (others y hy.2 ne)
  have leads (y : Nat) (hy : InVolume v y) (z : Nat) (leadsTo : link v m' y = .next z) : link v m y = .next z := by
    rwa [← same y hy]
    rintro rfl
    rw [last] at leadsTo
    cases leadsTo
  refine ⟨formed', ⟨data, by rw [last]; nofun, fun y hy leadsTo => ?_⟩, fun c hc => ?_⟩
  · exact (formed.next_used hy (leads y hy new leadsTo)).2 (link_free_iff.mpr free)
  · have ne : c ≠ new := by
      rintro rfl
      exact hc.2.1 (link_free_iff.mpr free)
    refine ⟨hc.congr ?_ fun y hy z leadsTo => .inl (leads y hy z leadsTo), ne⟩
    rw [same c hc.1 ne]
    exact hc.2.1

theorem advance_heads {r : Option Nat}
    (legal : Legal v m (.advance cluster)) (eq : clusterAdvance v m cluster = (r, m')) :
    WellFormed v m' ∧ (∀ c, Head v m c → Head v m' c) ∧ ∀ next, r = some next → Legal v m' (.advance next) := by
  have kept := advance_kept layout formed legal
  unfold exec Effect at kept
  dsimp only at kept
  rw [eq] at kept
  cases r with
  | none =>
    obtain ⟨formed', same⟩ := kept
    refine ⟨formed', fun c hc => hc.congr ?_ fun y hy z leadsTo => .inl ?_, nofun⟩
    · rw [link_congr (same c hc.1.2)]
      exact hc.2.1
    · rwa [link_congr (same y hy.2)] at leadsTo
  | some next =>
    obtain ⟨formed', data, linked, moved | ⟨ends, free, last, others⟩⟩ := kept
    -- The chain goes on: nothing changes.
    · obtain ⟨follows, rfl⟩ := moved
      refine ⟨formed', fun c hc => hc, fun z hz => ?_⟩
      cases hz
      exact ⟨data, (formed.next_used legal.1 (layout.link_to data follows)).2⟩
    -- The new cluster is linked behind the end, where no head was.
    · have lastNew : link v m' next = .last := link_last_iff.mpr (by rw [last])
      refine ⟨formed', fun c hc => hc.congr ?_ fun y hy z leadsTo => ?_, fun z hz => ?_⟩
      · rw [Ne, link_free_iff]
        intro zero
        obtain rfl | here := eq_or_ne c cluster
        · rw [linked] at zero
          rw [zero] at data
          exact absurd data.1 (by decide)
        obtain rfl | new := eq_or_ne c next
        · exact hc.2.1 (link_free_iff.mpr free)
        · rw [others c hc.1.2 here new] at zero
          exact hc.2.1 (link_free_iff.mpr zero)
      · obtain rfl | here := eq_or_ne y cluster
        · rw [(link_next leadsTo).1.symm.trans linked]
          exact .inr (link_free_iff.mpr free)
        obtain rfl | new := eq_or_ne y next
        · rw [lastNew] at leadsTo
          cases leadsTo
        · rw [link_congr (others y hy.2 here new)] at leadsTo
          exact .inl leadsTo
      · cases hz
        exact ⟨data, by rw [lastNew]; nofun⟩

theorem free_heads {h : Nat} {freed : Bool} (first : Head v m h) (eq : freeClusterChain v m h = (freed, m')) :
    freed = true ∧ WellFormed v m' ∧ ∀ c, Head v m c → c ≠ h → Head v m' c := by
  obtain ⟨formed', xs, m'', chain, ran, cleared, others⟩ := free_kept layout formed first
  rw [eq] at ran
  cases ran
  rw [exec, eq] at formed'
  refine ⟨rfl, formed', fun c hc ne => hc.congr ?_ fun y hy z leadsTo => .inl ?_⟩
  · -- A chain has one first cluster only.
    have outside : c ∉ h :: xs := by
      intro mem
      obtain ⟨cs, chains⟩ := formed.chains
      obtain ⟨d, inside, hd⟩ := chains.covers h first.1 first.2.1
      obtain ⟨ys, rfl⟩ := Chains.eq_head chains inside hd first.2.2
      rw [chain.unique (chains.chain _ inside)] at mem
      obtain ⟨zs, same⟩ := Chains.eq_head chains inside mem hc.2.2
      exact ne (List.cons.inj same).1.symm
    rw [link_congr (others c hc.1.2 outside)]
    exact hc.2.1
  · have outside : y ∉ h :: xs := by
      intro mem
      rw [link_free_iff.mpr (cleared y mem)] at leadsTo
      cases leadsTo
    rwa [link_congr (others y hy.2 outside)] at leadsTo

end

theorem advanceLoop_heads (layout : Layout v) (n : Nat) {ok : Bool} (formed : WellFormed v m)
    (legal : Legal v m (.advance cluster)) (eq : advanceLoop v n cluster m = (ok, m')) :
    WellFormed v m' ∧ ∀ c, Head v m c → Head v m' c := by
  induction n generalizing cluster m with
  | zero =>
    cases eq
    exact ⟨formed, fun c hc => hc⟩
  | succ n ih =>
    rw [advanceLoop] at eq
    cases advanced : clusterAdvance v m cluster with
    | mk r m₁ =>
      obtain ⟨formed', heads, on⟩ := advance_heads layout formed legal advanced
      rw [advanced] at eq
      cases r with
      | none =>
        cases eq
        exact ⟨formed', heads⟩
      | some next =>
        obtain ⟨formed'', heads'⟩ := ih formed' (on next rfl) eq
        exact ⟨formed'', fun c hc => heads' c (heads c hc)⟩

theorem lastCluster_used (rounds : Nat) {tail : Nat} (idx : Nat) (formed : WellFormed v m)
    (legal : Legal v m (.advance tail)) : Legal v m (.advance (lastCluster v m rounds tail idx).1) := by
  induction rounds generalizing tail idx with
  | zero => exact legal
  | succ rounds ih =>
    rw [lastCluster]
    split
    next => exact legal
    next on =>
      have pos : 0 < getNextCluster v m tail := Nat.pos_of_ne_zero fun zero => legal.2 (link_free_iff.mpr zero)
      exact ih (idx + 1) (formed.next_used legal.1 (link_of_next rfl pos (Nat.not_le.mp on)))

theorem head_unique (formed : WellFormed v m) {d : Nat} {ys : List Nat} (hc : Head v m c) (hd : Head v m d)
    (chain : IsChain (link v m) (c :: xs)) (chain' : IsChain (link v m) (d :: ys)) {x : Nat} (xc : x ∈ c :: xs)
    (xd : x ∈ d :: ys) : c = d := by
  obtain ⟨cs, chains⟩ := formed.chains
  have listed {h : Nat} {zs : List Nat} (hh : Head v m h) (chain : IsChain (link v m) (h :: zs)) : h :: zs ∈ cs := by
    obtain ⟨e, inside, he⟩ := chains.covers h hh.1 hh.2.1
    obtain ⟨ws, rfl⟩ := Chains.eq_head chains inside he hh.2.2
    rwa [chain.unique (chains.chain _ inside)]
  exact (List.cons.inj (chains.eq_of_mem (listed hc chain) (listed hd chain') xc xd)).1

end heads

/-! ### The sectors of a chain -/

section sectors

variable {v : SbInfo} {m : Image}

/-- The clusters of the volume have their own sectors. -/
structure Sectors (v : SbInfo) : Prop where
  pos : 0 < v.sectorsPerCluster
  fits : v.dataStart + v.sectorsPerCluster * v.totalClusters ≤ 2 ^ 32

theorem Sectors.clusterToSector_eq (h : Sectors v) (within : InVolume v c) :
    clusterToSector v c = v.dataStart + v.sectorsPerCluster * (c - firstDataCluster) ∧
      clusterToSector v c + v.sectorsPerCluster ≤ 2 ^ 32 := by
  obtain ⟨low, high⟩ := within
  unfold InTable at high
  have room : v.sectorsPerCluster * (c - firstDataCluster + 1) ≤ v.sectorsPerCluster * v.totalClusters := by
    apply Nat.mul_le_mul_left
    omega
  rw [Nat.mul_add, Nat.mul_one] at room
  have fits := h.fits
  have pos := h.pos
  have small : c - firstDataCluster < 2 ^ 32 := by
    have := Nat.le_mul_of_pos_left (c - firstDataCluster) pos
    omega
  have index : u32 (c + (2 ^ 32 - firstDataCluster)) = c - firstDataCluster := by
    unfold firstDataCluster at low small ⊢
    rw [u32, show c + (2 ^ 32 - 2) = c - 2 + 2 ^ 32 by omega, Nat.add_mod_right, Nat.mod_eq_of_lt small]
  have whole : clusterToSector v c = v.dataStart + v.sectorsPerCluster * (c - firstDataCluster) := by
    rw [clusterToSector, index]
    apply u32_of_lt
    omega
  refine ⟨whole, ?_⟩
  omega

theorem Sectors.unique (h : Sectors v) {d k l : Nat} (hc : InVolume v c) (hd : InVolume v d)
    (hk : k < v.sectorsPerCluster) (hl : l < v.sectorsPerCluster)
    (same : clusterToSector v c + k = clusterToSector v d + l) : c = d := by
  rw [(h.clusterToSector_eq hc).1, (h.clusterToSector_eq hd).1, add_assoc, add_assoc] at same
  have both := add_left_cancel same
  have quotients : c - firstDataCluster = d - firstDataCluster := by
    have := congrArg (· / v.sectorsPerCluster) both
    simpa only [Nat.mul_add_div h.pos, Nat.div_eq_of_lt hk, Nat.div_eq_of_lt hl, add_zero] using this
  have := hc.1
  have := hd.1
  omega

theorem walkChain_eq (n : Nat) (chain : IsChain (link v m) (c :: xs)) : walkChain v m n c = (c :: xs)[n]? := by
  induction n generalizing c xs with
  | zero => rfl
  | succ n ih =>
    rw [walkChain]
    cases xs with
    | nil =>
      rw [if_pos (link_last_iff.mp chain)]
      rfl
    | cons y ys =>
      obtain ⟨next, lt⟩ := link_next chain.1
      rw [next, if_neg (Nat.not_le.mpr lt), ih chain.2]
      rfl

theorem getBlock_mem {vol : Volume} (h : Sectors vol.info) {first block : Nat}
    (chain : IsChain (link vol.info vol.table) (first :: xs)) (inside : ∀ x ∈ first :: xs, InVolume vol.info x)
    (eq : getBlock vol first block = some sector) :
    ∃ x ∈ first :: xs, ∃ k < vol.info.sectorsPerCluster, sector = clusterToSector vol.info x + k := by
  rw [getBlock] at eq
  split at eq
  next => cases eq
  next =>
    obtain ⟨x, walked, rfl⟩ := map_eq_some_iff.mp eq
    rw [walkChain_eq _ chain] at walked
    have mem := mem_of_getElem? walked
    have lt : u32 block % vol.info.sectorsPerCluster < vol.info.sectorsPerCluster := Nat.mod_lt _ h.pos
    refine ⟨x, mem, _, lt, u32_of_lt ?_⟩
    have := (h.clusterToSector_eq (inside x mem)).2
    omega

theorem getBlock_congr {vol vol' : Volume} (info : vol'.info = vol.info) (table : vol'.table = vol.table) :
    getBlock vol' = getBlock vol := by
  funext first block
  rw [getBlock, getBlock, info, table]

/-- What a writeback leaves alone: the table, and the sectors that no block of the page has. -/
structure Writes (first index : Nat) (vol vol' : Volume) : Prop where
  info : vol'.info = vol.info
  table : vol'.table = vol.table
  disk : ∀ sector, vol'.disk sector ≠ vol.disk sector → ∃ i < 8, getBlock vol first (index * 8 + i) = some sector

theorem writeSector_writes {first index i : Nat} {vol : Volume} {s : Volume × Page} (lt : i < 8)
    (h : Writes first index vol s.1) : Writes first index vol (writeSector first index s i).1 := by
  rw [writeSector]
  split
  · split
    next => exact h
    next phys block =>
      rw [getBlock_congr h.info h.table] at block
      refine ⟨h.info, h.table, fun sector changed => ?_⟩
      by_cases here : sector = phys
      · exact ⟨i, lt, by rw [here, block]⟩
      · apply h.disk
        simpa only [Function.update_of_ne here] using changed
  · exact h

theorem writeback_writes (vol : Volume) (first index : Nat) (page : Page) :
    Writes first index vol (writeback vol first index page).1 := by
  have start : Writes first index vol vol := ⟨rfl, rfl, fun _ changed => absurd rfl changed⟩
  rw [writeback]
  split
  · exact List.foldlRecOn (motive := fun s : Volume × Page => Writes first index vol s.1) _ _ start
      fun s h i mem => writeSector_writes (mem_range.mp mem) h
  · exact start

theorem writeback_clean {vol : Volume} {page : Page} (clean : page.dirty = false) :
    writeback vol first index page = (vol, page) := by
  rw [writeback, clean, if_neg Bool.false_ne_true]

theorem writeLoop_firstCluster {vol : Volume} {pos : Nat} {bytes : List Byte} (rounds done : Nat) {a a' : Mapping}
    {ok : Bool} (eq : writeLoop vol pos bytes rounds done a = (ok, a')) : a'.firstCluster = a.firstCluster := by
  induction rounds generalizing done a with
  | zero =>
    cases eq
    rfl
  | succ rounds ih =>
    rw [writeLoop] at eq
    split at eq
    · dsimp only at eq
      split at eq
      next =>
        cases eq
        rfl
      next a₁ written =>
        obtain ⟨page, -, same, -⟩ := pageWrite_view written
        exact (ih _ eq).trans same
    · cases eq
      rfl

end sectors

/-! ### The chain of a file -/

/-- The clusters of a file in order; an empty file may have none. -/
structure FileChain (v : SbInfo) (m : Image) (first : Nat) (clusters : List Nat) : Prop where
  start : clusters = [] ∧ first = 0 ∨ ∃ rest, clusters = first :: rest
  chain : clusters ≠ [] → IsChain (link v m) clusters
  inside : ∀ c ∈ clusters, InVolume v c
  nodup : clusters.Nodup

/-- A chain has grown: the new clusters were free, and the entries of the others are the same. -/
structure Extends (v : SbInfo) (m m' : Image) (clusters more : List Nat) : Prop where
  free : ∀ c ∈ more, getNextCluster v m c = 0
  others : ∀ c, InTable v c → c ∉ clusters ++ more → getNextCluster v m' c = getNextCluster v m c

namespace FileChain

variable {v : SbInfo} {m m' m₁ : Image} {first : Nat} {clusters more more' : List Nat}

theorem extends_trans (h : FileChain v m' first (clusters ++ more ++ more')) (e : Extends v m m₁ clusters more)
    (e' : Extends v m₁ m' (clusters ++ more) more') : Extends v m m' clusters (more ++ more') := by
  constructor
  · intro c mem
    rcases mem_append.mp mem with old | new
    · exact e.free c old
    · rw [← e.others c (h.inside c (mem_append_right _ new)).2 fun old => (nodup_append.mp h.nodup).2.2 c old c new rfl]
      exact e'.free c new
  · intro c within out
    rw [← append_assoc] at out
    rw [e'.others c within out]
    exact e.others c within fun mem => out (mem_append_left _ mem)

/-- The chain of another file. -/
theorem apart (h : FileChain v m first more') (e : Extends v m m' clusters more) (apart : ∀ c ∈ more', c ∉ clusters) :
    FileChain v m' first more' := by
  refine ⟨h.start, fun ne => (h.chain ne).congr fun c mem => ?_, h.inside, h.nodup⟩
  refine link_congr (e.others c (h.inside c mem).2 fun here => ?_)
  rcases mem_append.mp here with mine | new
  · exact apart c mem mine
  · exact (h.chain ne).used mem (link_free_iff.mpr (e.free c new))

/-- The sector of a block is counted along the chain. -/
theorem getBlock_eq (vol : Volume) (h : FileChain vol.info vol.table first clusters) (sectors : Sectors vol.info)
    {b : Nat} (lt : b < 2 ^ 32) : getBlock vol first b = (clusters[b / vol.info.sectorsPerCluster]?).map fun c =>
      clusterToSector vol.info c + b % vol.info.sectorsPerCluster := by
  rw [getBlock]
  rcases h.start with ⟨rfl, rfl⟩ | ⟨rest, rfl⟩
  · rfl
  · have mine := h.inside first (by simp)
    rw [if_neg (Nat.not_lt.mpr mine.1), u32_of_lt lt]
    dsimp only
    rw [walkChain_eq _ (h.chain (by simp))]
    apply Option.map_congr
    intro c mem
    apply u32_of_lt
    have := (sectors.clusterToSector_eq (h.inside c (mem_of_getElem? mem))).2
    have := Nat.mod_lt b sectors.pos
    omega

theorem mapped {vol : Volume} (h : FileChain vol.info vol.table first clusters) (sectors : Sectors vol.info) {x : Nat}
    (lt : x < 2 ^ 32) (inside : x < clusters.length * (512 * vol.info.sectorsPerCluster)) :
    ∃ phys, getBlock vol first (x / 512) = some phys := by
  rw [h.getBlock_eq _ sectors (by omega)]
  have index : x / 512 / vol.info.sectorsPerCluster < clusters.length := by
    rw [Nat.div_div_eq_div_mul]
    exact Nat.div_lt_of_lt_mul (by rwa [mul_comm])
  rw [getElem?_eq_getElem index]
  exact ⟨_, rfl⟩

theorem getBlock_inj {vol : Volume} (h : FileChain vol.info vol.table first clusters) (sectors : Sectors vol.info)
    {b b' : Nat} (lt : b < 2 ^ 32) (lt' : b' < 2 ^ 32) (eq : getBlock vol first b = some sector)
    (eq' : getBlock vol first b' = some sector) : b = b' := by
  rw [h.getBlock_eq _ sectors lt] at eq
  rw [h.getBlock_eq _ sectors lt'] at eq'
  obtain ⟨c, at', rfl⟩ := map_eq_some_iff.mp eq
  obtain ⟨d, at'', same⟩ := map_eq_some_iff.mp eq'
  have hk := Nat.mod_lt b sectors.pos
  have hl := Nat.mod_lt b' sectors.pos
  have clusters := sectors.unique (h.inside d (mem_of_getElem? at'')) (h.inside c (mem_of_getElem? at')) hl hk same
  subst clusters
  have quotients : b / vol.info.sectorsPerCluster = b' / vol.info.sectorsPerCluster :=
    (List.getElem?_inj (List.getElem?_eq_some_iff.mp at').1 h.nodup).mp (at'.trans at''.symm)
  have remainders : b % vol.info.sectorsPerCluster = b' % vol.info.sectorsPerCluster := add_left_cancel same.symm
  rw [← Nat.div_add_mod b vol.info.sectorsPerCluster, ← Nat.div_add_mod b' vol.info.sectorsPerCluster, quotients,
    remainders]

/-- One advance from a cluster of the file: the chain stays or grows by a cluster. -/
theorem advance (h : FileChain v m first clusters) (layout : Layout v) (formed : WellFormed v m) {k next : Nat}
    (at' : clusters[k]? = some cluster) (eq : clusterAdvance v m cluster = (some next, m')) :
    ∃ more, more.length ≤ 1 ∧ FileChain v m' first (clusters ++ more) ∧ (clusters ++ more)[k + 1]? = some next ∧
      Extends v m m' clusters more := by
  have mem := mem_of_getElem? at'
  have ne : clusters ≠ [] := ne_nil_of_mem mem
  have chain := h.chain ne
  have kept := (advance_kept layout formed ⟨h.inside cluster mem, chain.used mem⟩).2
  unfold Effect at kept
  dsimp only at kept
  rw [eq] at kept
  obtain ⟨data, linked, ⟨follows, rfl⟩ | ⟨ends, free, last, others⟩⟩ := kept
  · refine ⟨[], by simp, by rwa [append_nil], ?_, by simp, fun _ _ _ => rfl⟩
    rw [append_nil]
    exact chain.getElem?_next at' (layout.link_to data follows)
  -- The chain ends here and gets one cluster more.
  · obtain ⟨front, rfl⟩ := chain.eq_concat mem (link_last_iff.mpr ends)
    have new : next ∉ front ++ [cluster] := fun inside => chain.used inside (link_free_iff.mpr free)
    refine ⟨[next], by simp, ⟨?_, fun _ => ?_, ?_, ?_⟩, ?_, by simpa using free, fun c within out => ?_⟩
    · rcases h.start with ⟨none, -⟩ | ⟨rest, whole⟩
      · exact absurd none ne
      · exact .inr ⟨rest ++ [next], by rw [whole, cons_append]⟩
    · refine chain.concat (fun y hy => ?_) ?_ ?_
      · apply link_congr
        apply others y (h.inside y (by simp [hy])).2
        · rintro rfl
          exact (nodup_append.mp h.nodup).2.2 y hy y (by simp) rfl
        · rintro rfl
          exact new (by simp [hy])
      · exact layout.link_to data linked
      · exact link_last_iff.mpr (by rw [last])
    · intro c hc
      rcases mem_append.mp hc with old | mine
      · exact h.inside c old
      · rw [mem_singleton.mp mine]
        exact data
    · rw [nodup_append]
      refine ⟨h.nodup, by simp, fun a ha b hb => ?_⟩
      rw [mem_singleton.mp hb]
      rintro rfl
      exact new ha
    · have tail : (front ++ [cluster])[front.length]? = some cluster := by simp
      rw [(List.getElem?_inj (List.getElem?_eq_some_iff.mp at').1 h.nodup).mp (at'.trans tail.symm)]
      simp
    · simp only [mem_append, mem_singleton, not_or] at out
      exact others c within out.1.2 out.2

/-- The loop of `fat32_write_inner` leaves the file a chain with as many clusters as it counted. -/
theorem advanceLoop (layout : Layout v) (n : Nat) {clusters : List Nat} {m : Image} {k : Nat}
    (h : FileChain v m first clusters) (formed : WellFormed v m) (at' : clusters[k]? = some cluster)
    (eq : advanceLoop v n cluster m = (true, m')) : ∃ more, FileChain v m' first (clusters ++ more) ∧
      k + n < (clusters ++ more).length ∧ Extends v m m' clusters more := by
  induction n generalizing clusters m k cluster with
  | zero =>
    cases eq
    refine ⟨[], by rwa [append_nil], ?_, by simp, fun _ _ _ => rfl⟩
    rw [append_nil]
    exact (List.getElem?_eq_some_iff.mp at').1
  | succ n ih =>
    rw [Fat32.advanceLoop] at eq
    cases advanced : clusterAdvance v m cluster with
    | mk r m₁ =>
      rw [advanced] at eq
      cases r with
      | none => cases eq
      | some next =>
        have mem := mem_of_getElem? at'
        have used := (h.chain (ne_nil_of_mem mem)).used mem
        obtain ⟨formed', -, -⟩ := advance_heads layout formed ⟨h.inside cluster mem, used⟩ advanced
        obtain ⟨more, -, grown, at'', step⟩ := h.advance layout formed at' advanced
        obtain ⟨more', grown', room, rest⟩ := ih grown formed' at'' eq
        have whole := grown'.extends_trans step rest
        rw [append_assoc] at grown' room
        exact ⟨more ++ more', grown', by omega, whole⟩

section write

variable {vol vol' : Volume} {a a' : Mapping} (h : FileChain vol.info vol.table a.firstCluster clusters)
  (layout : Layout vol.info) (formed : WellFormed vol.info vol.table)
    (begun : Fat32.firstClusterFor vol a = some (vol', a'))
include h layout formed begun

/-- The first cluster of a write: the chain is there, or it starts with a new cluster. -/
theorem firstClusterFor : (vol'.info = vol.info ∧ vol'.disk = vol.disk ∧ a'.pages = a.pages) ∧
    WellFormed vol'.info vol'.table ∧
    ((clusters ≠ [] → Head vol.info vol.table a.firstCluster) → Head vol'.info vol'.table a'.firstCluster) ∧
    ∃ more, FileChain vol'.info vol'.table a'.firstCluster (clusters ++ more) ∧
      (clusters ++ more)[0]? = some a'.firstCluster ∧ Extends vol.info vol.table vol'.table clusters more := by
  rw [Fat32.firstClusterFor] at begun
  split at begun
  next zero =>
    obtain ⟨⟨new, m⟩, claimed, both⟩ := map_eq_some_iff.mp begun
    cases both
    obtain ⟨table, head, -⟩ := alloc_heads layout formed claimed
    have kept := (alloc_kept layout formed).2
    unfold Effect at kept
    dsimp only at kept
    rw [claimed] at kept
    have none : clusters = [] := by
      rcases h.start with ⟨none, -⟩ | ⟨rest, rfl⟩
      · exact none
      · have data := (h.inside a.firstCluster (by simp)).1
        rw [zero] at data
        exact absurd data (by decide)
    subst none
    refine ⟨⟨rfl, rfl, rfl⟩, table, fun _ => head, [new], ⟨.inr ⟨[], rfl⟩, fun _ => ?_, ?_, by simp⟩, rfl,
      by simpa using kept.2.1, fun c within out => kept.2.2.2 c within (by simpa using out)⟩
    · exact link_last_iff.mpr (by rw [kept.2.2.1])
    · intro c mem
      rw [mem_singleton.mp mem]
      exact kept.1
  next ne =>
    cases begun
    rcases h.start with ⟨-, zero⟩ | ⟨rest, rfl⟩
    · exact absurd zero ne
    · refine ⟨⟨rfl, rfl, rfl⟩, formed, fun head => head (by simp), [], ?_, rfl, by simp, fun _ _ _ => rfl⟩
      rw [append_nil]
      exact h

/-- The chain after the first cluster is there and the loop has run. -/
theorem grow {n : Nat} (advanced : Fat32.advanceLoop vol'.info n a'.firstCluster vol'.table = (true, m)) :
    ∃ more, FileChain vol.info m a'.firstCluster (clusters ++ more) ∧ n < (clusters ++ more).length ∧
      Extends vol.info vol.table m clusters more := by
  obtain ⟨⟨info, -⟩, formed', -, more, file, first, start⟩ := h.firstClusterFor layout formed begun
  rw [info] at formed' file advanced
  obtain ⟨more', file', long, rest⟩ := file.advanceLoop layout _ formed' first advanced
  have whole := file'.extends_trans start rest
  rw [append_assoc] at file' long
  exact ⟨more ++ more', file', by omega, whole⟩

end write

end FileChain

/-! ### Writeback of a page -/

/-- What the loop of a writeback leaves in the sector of a block. -/
theorem foldl_writeSector (is : List Nat) (nodup : is.Nodup) {vol : Volume} {i : Nat}
    (block : getBlock vol first (index * 8 + i) = some sector)
    (apart : ∀ k ∈ is, getBlock vol first (index * 8 + k) = some sector → k = i) (page : Page) :
    (is.foldl (writeSector first index) (vol, page)).1.disk sector =
      if i ∈ is ∧ page.bhDirty i then fun j => page.data (i * 512 + j) else vol.disk sector := by
  induction is generalizing vol page with
  | nil => simp
  | cons k ks ih =>
    obtain ⟨out, nodup'⟩ := nodup_cons.mp nodup
    have rest : ∀ l ∈ ks, getBlock vol first (index * 8 + l) = some sector → l = i :=
      fun l mem => apart l (mem_cons_of_mem _ mem)
    rw [foldl_cons]
    by_cases dirty : page.bhDirty k = true
    · cases mapped : getBlock vol first (index * 8 + k) with
      | none =>
        have skip : writeSector first index (vol, page) k = (vol, page) := by
          simp [writeSector, dirty, mapped]
        have ne : i ≠ k := by
          rintro rfl
          rw [mapped] at block
          cases block
        rw [skip]
        simpa only [mem_cons, ne, false_or] using ih nodup' block rest page
      | some phys =>
        have written : writeSector first index (vol, page) k =
            ({ vol with disk := Function.update vol.disk phys fun j => page.data (k * 512 + j) },
              { page with bhDirty := Function.update page.bhDirty k false }) := by
          simp [writeSector, dirty, mapped]
        rw [written]
        -- Later rounds write other sectors.
        refine (@ih nodup' { vol with disk := Function.update vol.disk phys _ } block rest _).trans ?_
        obtain rfl | here := eq_or_ne i k
        · cases block.symm.trans mapped
          simp [out, dirty]
        · have away : sector ≠ phys := by
            rintro rfl
            exact here (apart k (by simp) mapped).symm
          simp [Function.update_of_ne away, here]
    · have skip : writeSector first index (vol, page) k = (vol, page) := by
        exact if_neg dirty
      rw [skip]
      refine (ih nodup' block rest _).trans ?_
      obtain rfl | here := eq_or_ne i k
      · rw [if_neg fun both => out both.1, if_neg fun both => dirty both.2]
      · simp [here]

/-- After the writeback of a page the sectors of its blocks hold its data, or what they held when
they are clean. -/
theorem writeback_disk {vol : Volume} {clusters : List Nat}
    (h : FileChain vol.info vol.table first clusters) (sectors : Sectors vol.info) (lt : index < 2 ^ 20) {page : Page}
    {i : Nat} (hi : i < 8) (block : getBlock vol first (index * 8 + i) = some sector) :
    (writeback vol first index page).1.disk sector =
      if page.dirty ∧ page.bhDirty i then fun j => page.data (i * 512 + j) else vol.disk sector := by
  have apart (k : Nat) (mem : k ∈ List.range 8)
    (mapped : getBlock vol first (index * 8 + k) = some sector) : k = i := by
    have := h.getBlock_inj sectors (by have := mem_range.mp mem; omega) (by omega) mapped block
    omega
  rw [writeback]
  split
  next dirty =>
    have disk := foldl_writeSector (List.range 8) nodup_range block apart page
    simp only [mem_range, hi, true_and] at disk
    simpa only [dirty, true_and] using disk
  next clean => rw [if_neg fun both => clean both.1]

theorem writeback_page (vol : Volume) (first index : Nat) (page : Page) :
    (writeback vol first index page).2.data = page.data := by
  have sector (s : Volume × Page) (i : Nat) : (writeSector first index s i).2.data = s.2.data := by
    rw [writeSector]
    split
    · split <;> rfl
    · rfl
  rw [writeback]
  split
  · exact List.foldlRecOn (motive := fun s : Volume × Page => s.2.data = page.data) _ _ rfl
      fun s same i _ => (sector s i).trans same
  · rfl

end Jlos.Fat32
