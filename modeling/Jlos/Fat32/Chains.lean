import Jlos.Fat32.Table
import Jlos.Lib.Run

/-!
# The chains of the table

On a volume whose table covers its clusters the entries stay a disjoint union of chains.
-/
namespace Jlos.Fat32

open Lib List

variable {v : SbInfo} {m m' : Image} {c : Nat} {next : Nat}

/-- An entry of the table as a link. -/
def link (v : SbInfo) (m : Image) (cluster : Nat) : Link Nat :=
  let next := getNextCluster v m cluster
  if next = 0 then .free else if next < clusterEoc then .next next else .last

theorem link_congr (eq : getNextCluster v m' c = getNextCluster v m c) : link v m' c = link v m c := by
  rw [link, link, eq]

theorem link_free_iff : link v m c = .free ↔ getNextCluster v m c = 0 := by
  unfold link
  dsimp only
  split <;> rename_i zero
  · simp [zero]
  · split <;> simp [zero]

theorem link_last_iff : link v m c = .last ↔ clusterEoc ≤ getNextCluster v m c := by
  unfold link clusterEoc
  dsimp only
  split <;> rename_i zero
  · simp [zero]
  · split <;> simp_all

theorem link_next (eq : link v m c = .next next) : getNextCluster v m c = next ∧ next < clusterEoc := by
  unfold link at eq
  dsimp only at eq
  split at eq
  · cases eq
  · split at eq <;> cases eq
    exact ⟨rfl, ‹_›⟩

theorem link_of_next (eq : getNextCluster v m c = next) (pos : 0 < next) (lt : next < clusterEoc) :
    link v m c = .next next := by
  unfold link
  rw [eq, if_neg (ne_of_gt pos), if_pos lt]

theorem Layout.link_to (h : Layout v) (data : InVolume v next) (eq : getNextCluster v m c = next) :
    link v m c = .next next := link_of_next eq (lt_of_lt_of_le (by decide) data.1) (h.below data.2)

/-- The table of a volume: the first two entries are in use, and the data clusters in use are a
disjoint union of chains. -/
structure WellFormed (v : SbInfo) (m : Image) : Prop where
  reserved : getNextCluster v m 0 ≠ 0 ∧ getNextCluster v m 1 ≠ 0
  chains : ∃ cs, Chains (InVolume v) (link v m) cs

theorem WellFormed.inVolume (h : WellFormed v m) (within : InTable v c) (free : getNextCluster v m c = 0) :
    InVolume v c := by
  refine ⟨?_, within⟩
  match c with
  | 0 => exact absurd free h.reserved.1
  | 1 => exact absurd free h.reserved.2
  | n + 2 => exact Nat.le_add_left 2 n

theorem WellFormed.of_chains (h : WellFormed v m) {cs : List (List Nat)} (chains : Chains (InVolume v) (link v m') cs)
    (same : ∀ c, InTable v c → c < firstDataCluster →
    getNextCluster v m' c = getNextCluster v m c) : WellFormed v m' := by
  have within (c : Nat) (lt : c < firstDataCluster) : InTable v c := lt_of_lt_of_le lt (Nat.le_add_left _ _)
  refine ⟨?_, cs, chains⟩
  rw [same 0 (within 0 (by decide)) (by decide), same 1 (within 1 (by decide)) (by decide)]
  exact h.reserved

/-! ### Clearing a chain -/

/-- The walk of `fat32_free_cluster_chain` clears the entries of the chain it starts in and no
others. -/
theorem Layout.freeLoop_chain (h : Layout v) (c : List Nat) {left x : Nat} {xs : List Nat} (eq : c = x :: xs)
    (chain : IsChain (link v m) c) (nodup : c.Nodup) (inside : ∀ y ∈ c, InVolume v y) (room : c.length ≤ left) :
    ∃ m', freeLoop v left x m = (true, m') ∧
      ∀ y, InTable v y → getNextCluster v m' y = if y ∈ c then 0 else getNextCluster v m y := by
  induction c generalizing left x xs m with
  | nil => cases eq
  | cons z zs ih =>
    obtain ⟨rfl, rfl⟩ := List.cons.inj eq.symm
    obtain ⟨left, rfl⟩ : ∃ n, left = n + 1 := Nat.exists_eq_succ_of_ne_zero (by simp at room; omega)
    have mine := inside x (by simp)
    have cleared (y : Nat) (hy : InTable v y) :
        getNextCluster v (setNextCluster v m x 0) y = if y = x then 0 else getNextCluster v m y :=
      h.getNext_setNext mine.2 hy (by decide)
    have enter : freeLoop v (left + 1) x m = freeLoop v left (getNextCluster v m x) (setNextCluster v m x 0) := by
      rw [freeLoop, if_pos ⟨mine.1, h.below mine.2⟩]
    rw [enter]
    cases xs with
    | nil =>
      -- The last entry ends the walk.
      have ends : clusterEoc ≤ getNextCluster v m x := link_last_iff.mp chain
      refine ⟨setNextCluster v m x 0, ?_, fun y hy => ?_⟩
      · unfold freeLoop
        rw [if_neg fun both => absurd both.2 (Nat.not_lt.mpr ends)]
      · rw [cleared y hy]
        simp
    | cons y ys =>
      have apart := nodup_cons.mp nodup
      have rest : IsChain (link v (setNextCluster v m x 0)) (y :: ys) := by
        refine IsChain.congr (fun z mem => ?_) chain.2
        apply link_congr
        rw [cleared z (inside z (mem_cons_of_mem _ mem)).2, if_neg]
        rintro rfl
        exact apart.1 mem
      obtain ⟨m', ran, values⟩ := ih rfl rest apart.2
        (fun z mem => inside z (mem_cons_of_mem _ mem)) (Nat.le_of_succ_le_succ room)
      refine ⟨m', ?_, fun z hz => ?_⟩
      · rw [(link_next chain.1).1]
        exact ran
      · rw [values z hz, cleared z hz]
        by_cases here : z = x
        · simp [here]
        · simp [here]

theorem length_le_total {c : List Nat} (nodup : c.Nodup) (inside : ∀ y ∈ c, InVolume v y) :
    c.length ≤ v.totalClusters := by
  rw [← toFinset_card_of_nodup nodup]
  have sub : c.toFinset ⊆ Finset.Ico firstDataCluster (v.totalClusters + firstDataCluster) := by
    intro y mem
    rw [mem_toFinset] at mem
    exact Finset.mem_Ico.mpr (inside y mem)
  have card := Finset.card_le_card sub
  rwa [Nat.card_Ico, Nat.add_sub_cancel] at card

theorem Layout.freeClusterChain (h : Layout v) {x : Nat} {xs : List Nat} (chain : IsChain (link v m) (x :: xs))
    (nodup : (x :: xs).Nodup) (inside : ∀ y ∈ x :: xs, InVolume v y) : ∃ m', Fat32.freeClusterChain v m x = (true, m') ∧
      ∀ y, InTable v y → getNextCluster v m' y = if y ∈ x :: xs then 0 else getNextCluster v m y := by
  obtain ⟨cleared, ran, values⟩ := h.freeLoop_chain _ rfl chain nodup inside (length_le_total nodup inside)
  refine ⟨fsinfoUpdate v cleared x 1, ?_, fun y hy => ?_⟩
  · rw [Fat32.freeClusterChain, ran]
  · rw [h.getNext_fsinfoUpdate hy, values y hy]

/-! ### Histories -/

inductive Op
  /-- `fat32_alloc_cluster` -/
  | alloc
  /-- `fat32_cluster_advance` from a cluster -/
  | advance (cluster : Nat)
  /-- `fat32_free_cluster_chain` of a whole chain -/
  | free (head : Nat)
  deriving DecidableEq, Repr

def exec (v : SbInfo) (m : Image) : Op → Image
  | .alloc => match allocCluster v m with
    | some (_, m) => m
    | none => m
  | .advance cluster => (clusterAdvance v m cluster).2
  | .free head => (freeClusterChain v m head).2

/-- An advance starts from a cluster in use, and a release from one that no cluster leads to. -/
def Legal (v : SbInfo) (m : Image) : Op → Prop
  | .alloc => True
  | .advance cluster => InVolume v cluster ∧ link v m cluster ≠ .free
  | .free head => InVolume v head ∧ link v m head ≠ .free ∧ ∀ c, InVolume v c → link v m c ≠ .next head

def step (v : SbInfo) (m : Image) (op : Op) (m' : Image) : Prop := Legal v m op ∧ m' = exec v m op

theorem legal_free (mine : InVolume v c) (used : link v m c ≠ .free)
    (first : ∀ d < v.totalClusters + firstDataCluster, link v m d ≠ .next c) : Legal v m (.free c) :=
  ⟨mine, used, fun d hd => first d hd.2⟩

/-- What an operation changes in the table. -/
def Effect (v : SbInfo) (m : Image) : Op → Prop
  | .alloc => match allocCluster v m with
    | none => True
    | some (new, m') => InVolume v new ∧ getNextCluster v m new = 0 ∧ getNextCluster v m' new = clusterEoc ∧
      ∀ c, InTable v c → c ≠ new → getNextCluster v m' c = getNextCluster v m c
  | .advance cluster => match clusterAdvance v m cluster with
    | (none, m') => ∀ c, InTable v c → getNextCluster v m' c = getNextCluster v m c
    | (some next, m') => InVolume v next ∧ getNextCluster v m' cluster = next ∧
      (getNextCluster v m cluster = next ∧ m' = m ∨
        clusterEoc ≤ getNextCluster v m cluster ∧ getNextCluster v m next = 0 ∧ getNextCluster v m' next = clusterEoc ∧
          ∀ c, InTable v c → c ≠ cluster → c ≠ next → getNextCluster v m' c = getNextCluster v m c)
  | .free head => ∃ xs m', IsChain (link v m) (head :: xs) ∧ freeClusterChain v m head = (true, m') ∧
      (∀ c ∈ head :: xs, getNextCluster v m' c = 0) ∧
      ∀ c, InTable v c → c ∉ head :: xs → getNextCluster v m' c = getNextCluster v m c

theorem alloc_kept (layout : Layout v) (h : WellFormed v m) : WellFormed v (exec v m .alloc) ∧ Effect v m .alloc := by
  unfold exec Effect
  dsimp only
  cases eq : allocCluster v m with
  | none => exact ⟨h, trivial⟩
  | some claimed =>
    obtain ⟨new, m'⟩ := claimed
    obtain ⟨within, free, rfl⟩ := layout.alloc eq
    have data := h.inVolume within free
    have values (c : Nat) (hc : InTable v c) := layout.getNext_claim (m := m) within hc
    dsimp only
    obtain ⟨cs, chains⟩ := h.chains
    constructor
    · refine h.of_chains (chains.alloc data (link_free_iff.mpr free) ?_ fun c hc ne => ?_) fun c hc lt => ?_
      · rw [link_last_iff, values new within, if_pos rfl]
      · apply link_congr
        rw [values c hc.2, if_neg ne]
      · rw [values c hc, if_neg (ne_of_lt (lt_of_lt_of_le lt data.1))]
    · refine ⟨data, free, ?_, fun c hc ne => ?_⟩
      · rw [values new within, if_pos rfl]
      · rw [values c hc, if_neg ne]

theorem WellFormed.next_used (h : WellFormed v m) (within : InVolume v c)
    (leads : link v m c = .next next) : InVolume v next ∧ link v m next ≠ .free := by
  obtain ⟨cs, chains⟩ := h.chains
  obtain ⟨d, mem, hc⟩ := chains.covers c within (by rw [leads]; nofun)
  obtain ⟨k, here⟩ := mem_iff_getElem?.mp hc
  have there := mem_of_getElem? ((chains.chain d mem).getElem?_next here leads)
  exact ⟨chains.inside d mem next there, chains.used mem there⟩

theorem advance_kept (layout : Layout v) (h : WellFormed v m) {cluster : Nat} (legal : Legal v m (.advance cluster)) :
    WellFormed v (exec v m (.advance cluster)) ∧ Effect v m (.advance cluster) := by
  obtain ⟨mine, used⟩ := legal
  unfold exec Effect
  dsimp only
  by_cases follows : getNextCluster v m cluster < clusterEoc
  · have moved : clusterAdvance v m cluster = (some (getNextCluster v m cluster), m) := by
      exact if_pos follows
    rw [moved]
    have pos : 0 < getNextCluster v m cluster := Nat.pos_of_ne_zero fun zero => used (link_free_iff.mpr zero)
    exact ⟨h, (h.next_used mine (link_of_next rfl pos follows)).1, rfl, .inl ⟨rfl, rfl⟩⟩
  · cases eq : allocCluster v m with
    | none =>
      have full : clusterAdvance v m cluster = (none, m) := by
        rw [clusterAdvance, eq]
        exact if_neg follows
      rw [full]
      exact ⟨h, fun _ _ => rfl⟩
    | some claimed =>
      obtain ⟨new, claimed⟩ := claimed
      have grown : clusterAdvance v m cluster = (some new, setNextCluster v claimed cluster new) := by
        rw [clusterAdvance, eq]
        exact if_neg follows
      obtain ⟨within, free, rfl⟩ := layout.alloc eq
      have data := h.inVolume within free
      have ends : clusterEoc ≤ getNextCluster v m cluster := Nat.not_lt.mp follows
      have apart : cluster ≠ new := by
        rintro rfl
        exact used (link_free_iff.mpr free)
      have small : new < 2 ^ 28 := by
        have := layout.below within
        unfold clusterEoc at this
        omega
      -- The old end leads to the new cluster, which is the end now.
      have values (c : Nat) (hc : InTable v c) :
          getNextCluster v (setNextCluster v (claimCluster v m new) cluster new) c =
            if c = cluster then new else if c = new then clusterEoc else getNextCluster v m c := by
        rw [layout.getNext_setNext mine.2 hc small, layout.getNext_claim within hc]
      have atTail := values cluster mine.2
      rw [if_pos rfl] at atTail
      have atNew := values new within
      rw [if_neg apart.symm, if_pos rfl] at atNew
      have others (c : Nat) (hc : InTable v c) (ne : c ≠ cluster) (ne' : c ≠ new) := by
        have := values c hc
        rwa [if_neg ne, if_neg ne'] at this
      rw [grown]
      obtain ⟨cs, chains⟩ := h.chains
      constructor
      · obtain ⟨d, mem, hd⟩ := chains.covers cluster mine used
        obtain ⟨front, rfl⟩ := (chains.chain d mem).eq_concat hd (link_last_iff.mpr ends)
        obtain ⟨as, bs, split⟩ := append_of_mem mem
        refine h.of_chains (chains.link split data (link_free_iff.mpr free) ?_ (layout.link_to data atTail)
          fun c hc ne ne' => link_congr (others c hc.2 ne' ne)) fun c hc lt => ?_
        · rw [link_last_iff, atNew]
        · exact others c hc (ne_of_lt (lt_of_lt_of_le lt mine.1)) (ne_of_lt (lt_of_lt_of_le lt data.1))
      · exact ⟨data, atTail, .inr ⟨ends, free, atNew, others⟩⟩

theorem Chains.eq_head {cs : List (List Nat)} (chains : Chains (InVolume v) (link v m) cs) {d : List Nat} (mem : d ∈ cs)
    {head : Nat} (hd : head ∈ d) (first : ∀ c, InVolume v c → link v m c ≠ .next head) : ∃ xs, d = head :: xs := by
  obtain ⟨k, here⟩ := mem_iff_getElem?.mp hd
  cases k with
  | zero => exact head?_eq_some_iff.mp (head?_eq_getElem? ▸ here)
  | succ k =>
    have lt : k < d.length := Nat.lt_of_succ_lt (List.getElem?_eq_some_iff.mp here).1
    have leads := (chains.chain d mem).link_at (getElem?_eq_getElem lt)
    rw [here] at leads
    exact absurd leads (first _ (chains.inside d mem _ (getElem_mem lt)))

theorem free_kept (layout : Layout v) (h : WellFormed v m) {head : Nat} (legal : Legal v m (.free head)) :
    WellFormed v (exec v m (.free head)) ∧ Effect v m (.free head) := by
  obtain ⟨mine, used, first⟩ := legal
  obtain ⟨cs, chains⟩ := h.chains
  obtain ⟨d, mem, hd⟩ := chains.covers head mine used
  obtain ⟨xs, rfl⟩ := Chains.eq_head chains mem hd first
  have chain := chains.chain _ mem
  obtain ⟨m', ran, values⟩ := layout.freeClusterChain chain (chains.nodup mem) (chains.inside _ mem)
  have freed (c : Nat) (hc : c ∈ head :: xs) : getNextCluster v m' c = 0 := by
    rw [values c (chains.inside _ mem c hc).2, if_pos hc]
  have others (c : Nat) (hc : InTable v c) (ne : c ∉ head :: xs) : getNextCluster v m' c = getNextCluster v m c := by
    rw [values c hc, if_neg ne]
  constructor
  · rw [exec, ran]
    obtain ⟨as, bs, split⟩ := append_of_mem mem
    exact h.of_chains (chains.release split (fun c hc => link_free_iff.mpr (freed c hc))
      fun c hc ne => link_congr (others c hc.2 ne)) fun c hc lt =>
        others c hc fun mine => absurd (chains.inside _ mem c mine).1 (Nat.not_le.mpr lt)
  · exact ⟨xs, m', chain, ran, freed, others⟩

theorem step_kept (layout : Layout v) {op : Op} (h : WellFormed v m) (legal : Legal v m op) :
    WellFormed v (exec v m op) ∧ Effect v m op := by
  cases op with
  | alloc => exact alloc_kept layout h
  | advance cluster => exact advance_kept layout h legal
  | free head => exact free_kept layout h legal

/-! ### Volumes of few clusters -/

/-- A table of one sector, in two copies. -/
def shortBpb (totalSectors : BitVec 32) : Bpb where
  bytesPerSector := 512
  sectorPerCluster := 1
  reservedSectors := 1
  fatCopies := 2
  totalSectors := 0
  totalSectorCount := totalSectors
  tableSize := 1
  rootCluster := 2
  fatInfo := 0

/-- Two reserved entries and the one cluster of the root directory, in both copies. -/
def freshImage : Image := fun sector word =>
  if (sector = 1 ∨ sector = 2) ∧ word ≤ 2 then 0x0FFFFFF8#32 else 0

/-- The chains of a table whose entries in use all end their chains. -/
theorem wellFormed_of_last (cs : List Nat) (nodup : cs.Nodup) (inside : ∀ c ∈ cs, InVolume v c)
    (last : ∀ c ∈ cs, link v m c = .last) (free : ∀ c < v.totalClusters + firstDataCluster,
      firstDataCluster ≤ c → c ∉ cs → link v m c = .free)
    (reserved : getNextCluster v m 0 ≠ 0 ∧ getNextCluster v m 1 ≠ 0) : WellFormed v m := by
  refine ⟨reserved, cs.map fun c => [c], ?_⟩
  constructor
  case chain =>
    intro c mem
    obtain ⟨x, hx, rfl⟩ := mem_map.mp mem
    exact last x hx
  case disjoint =>
    rwa [← flatMap_def, flatMap_singleton']
  case inside =>
    intro c mem y hy
    obtain ⟨x, hx, rfl⟩ := mem_map.mp mem
    rw [mem_singleton.mp hy]
    exact inside x hx
  case covers =>
    intro x hx used
    by_cases mem : x ∈ cs
    · exact ⟨[x], mem_map.mpr ⟨x, mem, rfl⟩, by simp⟩
    · exact absurd (free x hx.2 hx.1 mem) used

/-! ### All histories -/

/-- Every history of allocations, advances and releases of whole chains keeps the table a disjoint
union of chains, and each of its operations changes the entries it is meant to change and no
others. -/
theorem chains_kept (v : SbInfo) (layout : Layout v) (m₀ : Image) (formed : WellFormed v m₀) (es : List (Image × Op))
    (m : Image) (run : Run (step v) m₀ es m) : WellFormed v m ∧ ∀ e ∈ es, WellFormed v e.1 ∧ Effect v e.1 e.2 := by
  refine Run.history_invariant (I := fun es m => WellFormed v m ∧ ∀ e ∈ es, WellFormed v e.1 ∧ Effect v e.1 e.2)
    ⟨formed, by simp⟩ (fun es s op s' before taken => ?_) run
  obtain ⟨legal, rfl⟩ := taken
  obtain ⟨kept, effect⟩ := step_kept layout before.1 legal
  exact ⟨kept, forall_mem_append.mpr ⟨before.2, by simp [before.1, effect]⟩⟩

/-- The root directory grows by a cluster, another chain is started, and the root directory is
released. -/
theorem chains_kept_small : ∃ v m, SbInfo.ofBpb (shortBpb 10) = some v ∧ Layout v ∧ WellFormed v freshImage ∧
    WellFormed v m ∧ getNextCluster v m 2 = 0 ∧ getNextCluster v m 3 = 0 ∧ getNextCluster v m 4 = clusterEoc := by
  let v : SbInfo := ⟨1, 1, 3, 2, 512, 1, 2, 7, 0⟩
  have layout : Layout v := ⟨by decide, by decide, by decide, by decide, by decide⟩
  have formed : WellFormed v freshImage :=
    wellFormed_of_last [2] (by decide) (by decide) (by decide +kernel) (by decide +kernel) (by decide +kernel)
  let grown := exec v freshImage (.advance 2)
  let started := exec v grown .alloc
  have first : Legal v started (.free 2) := legal_free (by decide) (by decide +kernel) (by decide +kernel)
  have run : Run (step v) freshImage [(freshImage, .advance 2), (grown, .alloc), (started, .free 2)]
      (exec v started (.free 2)) :=
    Run.snoc (Run.snoc (Run.snoc Run.start ⟨⟨by decide, by decide +kernel⟩, rfl⟩) ⟨trivial, rfl⟩) ⟨first, rfl⟩
  exact ⟨v, _, by decide +kernel, layout, formed, (chains_kept v layout freshImage formed _ _ run).1,
    by decide +kernel, by decide +kernel, by decide +kernel⟩

/-- The table of a mounted volume may be shorter than its clusters need: the second copy then is
part of the first one, and releasing a chain clears an entry of another chain. -/
theorem chain_cleared_in_short_table : ∃ v, SbInfo.ofBpb (shortBpb 203) = some v ∧ 0 < v.fatCopies ∧
    WellFormed v freshImage ∧ Run (step v) freshImage [(freshImage, .free 2)] (exec v freshImage (.free 2)) ∧
    IsChain (link v freshImage) [130] ∧ 130 ∉ [2] ∧
    getNextCluster v freshImage 130 = clusterEoc ∧ getNextCluster v (exec v freshImage (.free 2)) 130 = 0 := by
  obtain ⟨v, mounted⟩ : ∃ v, SbInfo.ofBpb (shortBpb 203) = some v := ⟨_, rfl⟩
  have fields : v = ⟨1, 1, 3, 2, 512, 1, 2, 200, 0⟩ := by
    have : SbInfo.ofBpb (shortBpb 203) = some ⟨1, 1, 3, 2, 512, 1, 2, 200, 0⟩ := by decide +kernel
    exact Option.some.inj (mounted.symm.trans this)
  subst fields
  refine ⟨_, mounted, by decide, ?_, ?_, ?_, by decide, by decide +kernel, by decide +kernel⟩
  · exact wellFormed_of_last [2, 128, 129, 130] (by decide) (by decide) (by decide +kernel) (by decide +kernel)
      (by decide +kernel)
  · exact Run.snoc Run.start ⟨legal_free (by decide) (by decide +kernel) (by decide +kernel), rfl⟩
  · show link _ _ _ = .last
    decide +kernel

/-! ### The free count -/

/-- The count of free clusters in the information sector. -/
def fsinfoCount (v : SbInfo) (m : Image) : BitVec 32 := m v.fsinfoSector (0x1F4 / 4)

def freeEntries (v : SbInfo) (m : Image) : Nat :=
  ((Finset.range (v.totalClusters + firstDataCluster)).filter fun c => getNextCluster v m c = 0).card

/-- One entry goes out of use. -/
theorem freeEntries_freed (within : InTable v c) (used : getNextCluster v m c ≠ 0) (free : getNextCluster v m' c = 0)
    (same : ∀ d, InTable v d → d ≠ c → getNextCluster v m' d = getNextCluster v m d) :
    freeEntries v m' = freeEntries v m + 1 := by
  rw [freeEntries, freeEntries, ← Finset.card_insert_of_notMem (a := c) (by simp [used])]
  congr 1
  ext d
  simp only [Finset.mem_filter, Finset.mem_range, Finset.mem_insert]
  obtain rfl | other := eq_or_ne d c
  · exact iff_of_true ⟨within, free⟩ (.inl rfl)
  · rw [or_iff_right other]
    exact and_congr_right fun hd => by rw [same d hd other]

/-- The information sector is valid, and its count is that of the table but for a fixed
difference. -/
def Counts (v : SbInfo) (off : BitVec 32) (m : Image) : Prop :=
  fsinfoValid v m = true ∧ fsinfoCount v m = BitVec.ofNat 32 (freeEntries v m) + off

/-- Of the releases only those of a single cluster. -/
def Single (v : SbInfo) (m : Image) : Op → Prop
  | .alloc => True
  | .advance _ => False
  | .free head => InVolume v head ∧ link v m head = .last

section

variable (layout : Layout v) {off : BitVec 32}
include layout

/-- An entry is taken or given up, and the count is adjusted by one. -/
theorem Counts.update (h : Counts v off m) (within : InTable v c) {next nextFree : Nat} {delta : BitVec 32}
    (flips : getNextCluster v m c = 0 ∧ next = clusterEoc ∧ delta = -1 ∨ getNextCluster v m c ≠ 0 ∧
    next = 0 ∧ delta = 1) :
    Counts v off (fsinfoUpdate v (setNextCluster v m c next) nextFree delta) := by
  have same := layout.fsinfo_setNext (m := m) within next
  have valid : fsinfoValid v (setNextCluster v m c next) = true := by simpa [fsinfoValid, same] using h.1
  obtain ⟨m', eq⟩ : ∃ m', m' = fsinfoUpdate v (setNextCluster v m c next) nextFree delta := ⟨_, rfl⟩
  have count : fsinfoValid v m' = true ∧ fsinfoCount v m' = fsinfoCount v m + delta := by
    rw [eq, fsinfoUpdate, if_pos valid]
    simpa [fsinfoValid, fsinfoCount, Image.store, same] using h.1
  have lt : next < 2 ^ 28 := by rcases flips with ⟨-, rfl, -⟩ | ⟨-, rfl, -⟩ <;> decide
  have values (d : Nat) (hd : InTable v d) : getNextCluster v m' d = if d = c then next else getNextCluster v m d := by
    rw [eq, layout.getNext_fsinfoUpdate hd, layout.getNext_setNext within hd lt]
  have here := values c within
  rw [if_pos rfl] at here
  have others (d : Nat) (hd : InTable v d) (ne : d ≠ c) := (values d hd).trans (if_neg ne)
  rw [← eq]
  refine ⟨count.1, count.2.trans ?_⟩
  rw [h.2]
  rcases flips with ⟨free, rfl, rfl⟩ | ⟨used, rfl, rfl⟩
  · rw [freeEntries_freed within (by rw [here]; decide) free fun d hd ne => (others d hd ne).symm, BitVec.ofNat_add]
    bv_omega
  · rw [freeEntries_freed within used here others, BitVec.ofNat_add]
    bv_omega

theorem Counts.exec (h : Counts v off m) {op : Op} (single : Single v m op) : Counts v off (exec v m op) := by
  cases op with
  | advance cluster => exact single.elim
  | alloc =>
    rw [Fat32.exec]
    split
    next claimed =>
      obtain ⟨within, free, rfl⟩ := layout.alloc claimed
      exact h.update layout within (.inl ⟨free, rfl, rfl⟩)
    · exact h
  | free head =>
    obtain ⟨⟨low, within⟩, last⟩ := single
    have ends := link_last_iff.mp last
    obtain ⟨n, total⟩ : ∃ n, v.totalClusters = n + 1 := Nat.exists_eq_succ_of_ne_zero (by
      unfold InTable at within
      omega)
    have ran : freeClusterChain v m head = (true, fsinfoUpdate v (setNextCluster v m head 0) head 1) := by
      rw [freeClusterChain, total, freeLoop, if_pos ⟨low, layout.below within⟩]
      unfold freeLoop
      rw [if_neg (by omega)]
    rw [Fat32.exec, ran]
    exact h.update layout within (.inr ⟨fun zero => absurd (zero ▸ ends) (by decide), rfl, rfl⟩)

end

/-- In every sequence of allocations and releases in which only chains of one cluster are released,
the count of the information sector changes as the number of free entries does. -/
theorem fsinfo_count_kept (v : SbInfo) (layout : Layout v) (m : Image) (valid : fsinfoValid v m = true) (ops : List Op)
    (single : MeetsAll (exec v) (Single v) m ops) : fsinfoCount v (ops.foldl (exec v) m) - fsinfoCount v m =
      BitVec.ofNat 32 (freeEntries v (ops.foldl (exec v) m)) - BitVec.ofNat 32 (freeEntries v m) := by
  have kept : ∀ off, Counts v off m → Counts v off (ops.foldl (exec v) m) := by
    intro off start
    clear valid
    induction ops generalizing m with
    | nil => exact start
    | cons op ops ih => exact ih _ single.2 (start.exec layout single.1)
  rw [(kept (fsinfoCount v m - BitVec.ofNat 32 (freeEntries v m)) ⟨valid, by bv_omega⟩).2]
  bv_omega

/-- A volume of seven clusters: an information sector, and the table of `freshImage` behind it. -/
def infoVolume : SbInfo := ⟨1, 2, 4, 2, 512, 1, 2, 7, 1⟩

def infoImage : Image := fun sector word =>
  if sector = 1 then if word = 0 then 0x41615252#32 else if word = 127 then 0x61417272#32 else 0
  else freshImage (sector - 1) word

theorem infoVolume_layout : Layout infoVolume := ⟨by decide, by decide, by decide, by decide, by decide⟩

/-- A chain of one cluster is started and released. -/
theorem fsinfo_count_kept_single :
    fsinfoCount infoVolume ([.alloc, .free 3].foldl (exec infoVolume) infoImage) - fsinfoCount infoVolume infoImage =
      BitVec.ofNat 32 (freeEntries infoVolume ([.alloc, .free 3].foldl (exec infoVolume) infoImage)) -
        BitVec.ofNat 32 (freeEntries infoVolume infoImage) :=
  fsinfo_count_kept _ infoVolume_layout _ (by decide +kernel) _ ⟨trivial, ⟨by decide, by decide +kernel⟩, trivial⟩

/-- The chain of the root directory is released once it has two clusters: the count goes up by one,
the number of free entries by two. -/
theorem fsinfo_count_short : Layout infoVolume ∧ ∃ m, m = exec infoVolume infoImage (.advance 2) ∧
    fsinfoValid infoVolume m = true ∧ IsChain (link infoVolume m) [2, 3] ∧
    fsinfoCount infoVolume (exec infoVolume m (.free 2)) = fsinfoCount infoVolume m + 1 ∧
    freeEntries infoVolume (exec infoVolume m (.free 2)) = freeEntries infoVolume m + 2 := by
  refine ⟨infoVolume_layout, _, rfl, by decide +kernel, ⟨?_, ?_⟩, by decide +kernel, by decide +kernel⟩
  · decide +kernel
  · show link _ _ _ = .last
    decide +kernel

end Jlos.Fat32
