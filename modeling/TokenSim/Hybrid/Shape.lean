import TokenSim.Hybrid.Steps

/-!
# The shape of the tables

The pages of a request form contiguous ranges.  Right after admission a window
group holds the pages that overlap the window at the end of the prefix; every
`ensureSlots` drops what the window has left behind and fills up to the end of
the step.  A full group holds all pages from the first one on.

`Shapes` states this for every request of a world, in every phase.  For full
groups it assumes that they hold no draft layers: a prefix hit of a full EAGLE
group leaves out its last page, and an import on top of it leaves a gap.
-/

namespace TokenSim

open List OrderedDict
open HybridKVLayout (blockTokens_of_no_window blockTokens_pos)

open HybridKVBlockManager

/-! ## Page arithmetic -/

section Arithmetic

variable {a b k n : Nat}

theorem cdiv_le_iff (hk : 0 < k) : cdiv a k ≤ n ↔ a ≤ n * k := by
  unfold cdiv
  rw [Nat.div_le_iff_le_mul_add_pred hk, mul_comm]
  omega

theorem cdiv_mono (h : a ≤ b) : cdiv a k ≤ cdiv b k :=
  Nat.div_le_div_right (by omega)

theorem cdiv_max (a b k : Nat) : cdiv (max a b) k = max (cdiv a k) (cdiv b k) := by
  rcases Nat.le_total a b with h | h
  · rw [max_eq_right h, max_eq_right (cdiv_mono h)]
  · rw [max_eq_left h, max_eq_left (cdiv_mono h)]

theorem le_cdiv_mul (hk : 0 < k) (a : Nat) : a ≤ cdiv a k * k := (cdiv_le_iff hk).mp le_rfl

theorem cdiv_of_dvd (hk : 0 < k) (h : k ∣ a) : cdiv a k = a / k := by
  obtain ⟨n, rfl⟩ := h
  rw [Nat.mul_div_cancel_left _ hk]
  refine le_antisymm ((cdiv_le_iff hk).mpr (mul_comm k n).le) ?_
  exact Nat.le_of_mul_le_mul_right ((mul_comm n k).le.trans (le_cdiv_mul hk _)) hk

theorem sub_div_of_dvd (hk : 0 < k) (h : k ∣ a) (d : Nat) : (a - d) / k = a / k - cdiv d k := by
  obtain ⟨n, rfl⟩ := h
  rw [Nat.mul_div_cancel_left _ hk]
  refine eq_of_forall_le_iff fun x => ?_
  rw [Nat.le_div_iff_mul_le hk]
  rcases Nat.eq_zero_or_pos x with rfl | hx
  · simp
  · have hxk : 0 < x * k := Nat.mul_pos hx hk
    constructor
    · intro hle
      have hxn : x * k ≤ n * k := by rw [mul_comm n k]; omega
      have hle' := Nat.le_of_mul_le_mul_right hxn hk
      have : cdiv d k ≤ n - x := (cdiv_le_iff hk).mpr (by
        rw [Nat.sub_mul, mul_comm n k]
        omega)
      omega
    · intro hle
      have hxn : x * k ≤ n * k := Nat.mul_le_mul_right k (by omega)
      have := (cdiv_le_iff hk).mp (show cdiv d k ≤ n - x by omega)
      rw [Nat.sub_mul, mul_comm n k] at this
      rw [mul_comm n k] at hxn
      omega

end Arithmetic

namespace CacheGroup

variable (g : CacheGroup)

theorem windowStart_eq (computed : Nat) :
    g.windowStart computed = (computed - (g.windowTokens - 1)) / g.blockTokens := by
  unfold windowStart
  split
  · rfl
  · rw [show computed - (g.windowTokens - 1) = 0 by omega, Nat.zero_div]

theorem windowStart_mono {a b : Nat} (h : a ≤ b) : g.windowStart a ≤ g.windowStart b := by
  rw [windowStart_eq, windowStart_eq]
  exact Nat.div_le_div_right (by omega)

theorem windowStart_le (computed : Nat) : g.windowStart computed ≤ computed / g.blockTokens := by
  rw [windowStart_eq]
  exact Nat.div_le_div_right (Nat.sub_le ..)

/-- The pages from the window start up to `reach`. -/
def windowRange (computed reach : Nat) : List Nat :=
  List.range' (g.windowStart computed)
    (cdiv reach g.blockTokens - g.windowStart computed)

theorem filter_windowRange {a c : Nat} (h : a ≤ c) (reach : Nat) :
    (g.windowRange a reach).filter (g.windowStart c ≤ ·) = g.windowRange c reach := by
  have := g.windowStart_mono h
  unfold windowRange
  rw [filter_le_range', max_eq_right this]
  congr 1
  omega

/-- Of the pages that a hit at a boundary demands, the pages to hold are those
of the window. -/
theorem heldPages_tailPages {boundary : Nat} (hpos : 0 < g.blockTokens) (hw : g.windowTokens ≠ 0)
    (hdvd : g.blockTokens ∣ boundary) :
    heldPages g (tailPages g boundary) = g.windowRange boundary boundary := by
  have hlow : g.windowStart boundary =
      boundary / g.blockTokens - cdiv (g.windowTokens - 1) g.blockTokens := by
    rw [windowStart_eq, sub_div_of_dvd hpos hdvd]
  have hle := g.windowStart_le boundary
  unfold heldPages tailPages windowRange hitTailSlots
  dsimp only
  rw [if_neg hw, cdiv_of_dvd hpos hdvd, Nat.add_sub_add_right, ← hlow]
  cases g.eagle with
  | false => rfl
  | true =>
    rw [if_pos rfl, Bool.toNat_true, Nat.sub_add_comm hle, range'_1_concat]
    exact dropLast_concat ..

end CacheGroup

/-! ## Shapes in every phase -/

/-- Admitted with a prefix of `hit` tokens. -/
structure AdmittedShape (cfg : HybridConfig) (r : Request) (hit : Nat) (tables : GroupTables) :
    Prop where
  bound : hit = 0 ∨ hit < r.contextLen
  aligned : cfg.blockSize ∣ hit
  pages : ∀ g ∈ cfg.layout.groups,
    (tableOf tables g).keys = heldPages g (demandedPages cfg g (hit / cfg.blockSize))

/-- Pages up to `boundary` are being imported. -/
structure LoadingShape (cfg : HybridConfig) (r : Request) (boundary : Nat) (tables : GroupTables) :
    Prop where
  bound : boundary < r.contextLen
  sorted : ∀ g ∈ cfg.layout.groups, g.windowTokens ≠ 0 → (tableOf tables g).keys.Pairwise (· < ·)
  window : ∀ g ∈ cfg.layout.groups, g.windowTokens ≠ 0 →
    (tableOf tables g).keys.filter (g.windowStart boundary ≤ ·) = g.windowRange boundary boundary
  full : ∀ g ∈ cfg.layout.groups, g.windowTokens = 0 → g.eagle = false →
    (tableOf tables g).keys = List.range (cdiv boundary g.blockTokens)

/-- Computing, with slots up to `reach` that were last ensured at `ensuredAt`. -/
structure ActiveShape (cfg : HybridConfig) (r : Request) (origin : Origin) (ensuredAt reach : Nat)
    (tables : GroupTables) : Prop where
  ensured : ensuredAt ≤ r.numComputedTokens
  covered : origin ≠ .handedOver → r.numComputedTokens ≤ reach
  sorted : ∀ g ∈ cfg.layout.groups, g.windowTokens ≠ 0 → (tableOf tables g).keys.Pairwise (· < ·)
  window : ∀ g ∈ cfg.layout.groups, g.windowTokens ≠ 0 →
    (tableOf tables g).keys.filter (g.windowStart ensuredAt ≤ ·) = g.windowRange ensuredAt reach
  /-- Nothing lies before the window when the local prefix was taken up. -/
  exact : origin = .localPrefix → ∀ g ∈ cfg.layout.groups, g.windowTokens ≠ 0 →
    (tableOf tables g).keys = g.windowRange ensuredAt reach
  full : ∀ g ∈ cfg.layout.groups, g.windowTokens = 0 → g.eagle = false →
    (tableOf tables g).keys = List.range (cdiv reach g.blockTokens)

def Shaped (cfg : HybridConfig) (r : Request) (tables : GroupTables) : Phase → Prop
  | .absent => True
  | .admitted hit => AdmittedShape cfg r hit tables
  | .loading _ boundary => LoadingShape cfg r boundary tables
  | .active origin ensuredAt reach => ActiveShape cfg r origin ensuredAt reach tables

/-- The tables of every request have the shape of its phase. -/
def Shapes (cfg : HybridConfig) (w : World) : Prop :=
  ∀ rid tables, w.mgr.tables.get? rid = some tables →
    Shaped cfg (w.reqs rid) tables (w.phase rid)

variable {cfg : HybridConfig} {leak : Nat → Nat} {w w' : World} {m m' : HybridKVBlockManager}
  {r r' : Request} {tables tables' : GroupTables} {rid hit : Nat}

/-! ### Admission -/

/-- Nothing is held of the pages that an empty prefix demands. -/
theorem heldPages_demandedPages_zero (g : CacheGroup) :
    heldPages g (demandedPages cfg g 0) = [] := by
  unfold demandedPages
  split
  · unfold heldPages
    split <;> rfl
  · rename_i hw
    unfold heldPages tailPages CacheGroup.hitTailSlots
    dsimp only
    rw [if_neg hw, zero_mul, Nat.zero_div, zero_add]
    cases g.eagle with
    | false => rw [Bool.toNat_false, Nat.zero_sub]; rfl
    | true => rw [Bool.toNat_true, Nat.sub_eq_zero_of_le (Nat.le_add_left 1 _)]; rfl

theorem block_pos (cfg : HybridConfig) : 0 < cfg.blockSize := cfg.layout.logical_pos

theorem lt_contextLen_of_le_maximumBlocks {blocks : Nat} (hpos : 0 < blocks)
    (h : blocks ≤ maximumBlocks cfg r) : blocks * cfg.blockSize < r.contextLen := by
  have h1 : blocks ≤ (r.contextLen - 1) / cfg.blockSize := le_trans h (min_le_right ..)
  have h2 := (Nat.le_div_iff_mul_le (block_pos cfg)).mp h1
  have h3 : 0 < blocks * cfg.blockSize := Nat.mul_pos hpos (block_pos cfg)
  omega

theorem Admits.shape (h : Admits cfg leak m r m' r' tables') :
    AdmittedShape cfg r' r'.gpuCachedContextTokens tables' := by
  rcases h.admitted with ⟨hhit, hempty⟩ | ⟨blocks, hpos, hle, hhit, hall⟩
  · rw [hhit]
    refine ⟨.inl rfl, ⟨0, rfl⟩, fun g hg => ?_⟩
    rw [Nat.zero_div, heldPages_demandedPages_zero, OrderedDict.keys, hempty g hg]
    rfl
  · rw [hhit]
    refine ⟨.inr ?_, ⟨blocks, mul_comm ..⟩, fun g hg => ?_⟩
    · exact lt_of_lt_of_le (lt_contextLen_of_le_maximumBlocks hpos hle) h.progress.contextLen
    · rw [Nat.mul_div_cancel _ (block_pos cfg)]
      exact (hall g hg).1

variable {g : CacheGroup} {ensuredAt reach stop : Nat}

section

variable (h : AdmittedShape cfg r hit tables)
include h

theorem AdmittedShape.window
    (hg : g ∈ cfg.layout.groups) (hw : g.windowTokens ≠ 0) :
    (tableOf tables g).keys = g.windowRange hit hit := by
  rw [h.pages g hg, demandedPages, if_neg hw, Nat.div_mul_cancel h.aligned]
  exact g.heldPages_tailPages (blockTokens_pos hg) hw
    (Nat.dvd_trans (cfg.layout.tokens_dvd g hg) h.aligned)

theorem AdmittedShape.sorted
    (hg : g ∈ cfg.layout.groups) (hw : g.windowTokens ≠ 0) :
    (tableOf tables g).keys.Pairwise (· < ·) := by
  rw [h.window hg hw]
  exact pairwise_lt_range'

theorem AdmittedShape.full
    (hg : g ∈ cfg.layout.groups) (hw : g.windowTokens = 0) (he : g.eagle = false) :
    (tableOf tables g).keys = List.range (cdiv hit g.blockTokens) := by
  rw [h.pages g hg, demandedPages, if_pos hw, heldPages, he, if_neg (by simp),
    blockTokens_of_no_window hg hw, cdiv_of_dvd cfg.layout.logical_pos h.aligned]
  rfl

theorem AdmittedShape.start {position : Nat}
    (hle : hit ≤ position) :
    ActiveShape cfg (r.startContextBuild position)
      (if (r.startContextBuild position).numComputedTokens = hit then .localPrefix
        else .handedOver) (r.startContextBuild position).numComputedTokens hit tables := by
  have hat : hit ≤ (r.startContextBuild position).numComputedTokens := by
    have := h.bound
    simp only [Request.startContextBuild]
    omega
  refine ⟨le_rfl, fun ho => ?_, fun g hg hw => h.sorted hg hw, fun g hg hw => ?_,
    fun ho g hg hw => ?_, fun g hg hw he => h.full hg hw he⟩
  · by_cases he : (r.startContextBuild position).numComputedTokens = hit
    · exact he.le
    · rw [if_neg he] at ho
      exact absurd rfl ho
  · rw [h.window hg hw]
    exact g.filter_windowRange hat hit
  · by_cases he : (r.startContextBuild position).numComputedTokens = hit
    · rw [he]
      exact h.window hg hw
    · rw [if_neg he] at ho
      cases ho

end

/-! ### Imports -/

theorem heldPages_externalPages_window (hg : g ∈ cfg.layout.groups)
    (hw : g.windowTokens ≠ 0) (start blocks : Nat) :
    heldPages g (externalPages cfg start blocks g) =
      g.windowRange (blocks * cfg.blockSize) (blocks * cfg.blockSize) := by
  rw [externalPages, if_neg hw]
  exact g.heldPages_tailPages (blockTokens_pos hg) hw
    (Nat.dvd_trans (cfg.layout.tokens_dvd g hg) ⟨blocks, mul_comm ..⟩)

theorem Imports.shape {pairs : CacheGroup → List (Nat × SlotKey)} {targets : List Destination}
    {blocks : Nat} (hadm : AdmittedShape cfg r hit tables)
    (hlt : hit / cfg.blockSize < blocks) (hle : blocks ≤ maximumBlocks cfg r)
    (hpages : ∀ g ∈ cfg.layout.groups, (pairs g).map Prod.fst =
      heldPages g (externalPages cfg (hit / cfg.blockSize) blocks g))
    (h : Imports cfg leak m r pairs m' targets tables tables') :
    LoadingShape cfg r (blocks * cfg.blockSize) tables' := by
  have hhit : hit ≤ blocks * cfg.blockSize := by
    rw [← Nat.div_mul_cancel hadm.aligned]
    exact Nat.mul_le_mul_right _ hlt.le
  have hkeys : ∀ g ∈ cfg.layout.groups, g.windowTokens ≠ 0 → (tableOf tables' g).keys =
      (g.windowRange hit hit).filter
        (· ∉ g.windowRange (blocks * cfg.blockSize) (blocks * cfg.blockSize)) ++
      g.windowRange (blocks * cfg.blockSize) (blocks * cfg.blockSize) := by
    intro g hg hw
    rw [h.table g hg, hpages g hg, heldPages_externalPages_window hg hw, hadm.window hg hw]
  -- what is left of the local tail lies before the window of the boundary
  have hbefore : ∀ g : CacheGroup, ∀ i ∈ (g.windowRange hit hit).filter
      (· ∉ g.windowRange (blocks * cfg.blockSize) (blocks * cfg.blockSize)),
      i < g.windowStart (blocks * cfg.blockSize) := by
    intro g i hi
    obtain ⟨hmem, hnot⟩ := mem_filter.mp hi
    have hlow := mem_range'_1.mp hmem
    have hmono := cdiv_mono (k := g.blockTokens) hhit
    by_contra hge
    exact (of_decide_eq_true hnot) (mem_range'_1.mpr (by omega))
  refine ⟨lt_contextLen_of_le_maximumBlocks (Nat.zero_lt_of_lt hlt) hle, fun g hg hw => ?_,
    fun g hg hw => ?_, fun g hg hw he => ?_⟩
  · rw [hkeys g hg hw, pairwise_append]
    refine ⟨List.Pairwise.filter _ pairwise_lt_range', pairwise_lt_range', fun i hi j hj => ?_⟩
    exact lt_of_lt_of_le (hbefore g i hi) (mem_range'_1.mp hj).1
  · rw [hkeys g hg hw, filter_append, g.filter_windowRange le_rfl]
    refine (congrArg (· ++ _) (filter_eq_nil_iff.mpr fun i hi => ?_)).trans (nil_append _)
    have := hbefore g i hi
    simp only [decide_eq_true_eq]
    omega
  · have hstart : cdiv hit cfg.layout.logicalBlockTokens = hit / cfg.blockSize :=
      cdiv_of_dvd cfg.layout.logical_pos hadm.aligned
    have hstop : cdiv (blocks * cfg.blockSize) cfg.layout.logicalBlockTokens = blocks := by
      refine (cdiv_of_dvd (block_pos cfg) ⟨blocks, mul_comm ..⟩).trans ?_
      exact Nat.mul_div_cancel _ (block_pos cfg)
    rw [h.table g hg, hpages g hg, hadm.full hg hw he, heldPages, he, if_neg (by simp),
      externalPages, if_pos hw, blockTokens_of_no_window hg hw, hstart, hstop]
    rw [filter_eq_self.mpr, range_eq_range', range_eq_range']
    · have := range'_append_of_le (Nat.zero_le (hit / cfg.blockSize)) hlt.le
      simpa using this
    · intro i hi
      have := mem_range.mp hi
      simp only [decide_eq_true_eq]
      intro hmem
      have := (mem_range'_1.mp hmem).1
      omega

theorem LoadingShape.start {boundary : Nat} (h : LoadingShape cfg r boundary tables) :
    ActiveShape cfg (r.startContextBuild boundary) .imported
      (r.startContextBuild boundary).numComputedTokens boundary tables := by
  have hat : (r.startContextBuild boundary).numComputedTokens = boundary := by
    have := h.bound
    simp only [Request.startContextBuild]
    omega
  rw [hat]
  exact ⟨hat.ge, fun _ => hat.le, h.sorted, h.window, nofun, h.full⟩

/-! ### Growth -/

theorem kept_append_fresh (hw : g.windowTokens ≠ 0)
    {keys : List Nat} {computed : Nat} (hle : ensuredAt ≤ computed)
    (hkeys : keys.filter (g.windowStart ensuredAt ≤ ·) = g.windowRange ensuredAt reach) :
    keptPages computed g keys = g.windowRange computed reach ∧
    freshPages computed stop g (keptPages computed g keys) =
      List.range' (max (g.windowStart computed) (cdiv reach g.blockTokens))
        (cdiv stop g.blockTokens - max (g.windowStart computed) (cdiv reach g.blockTokens)) ∧
    keptPages computed g keys ++ freshPages computed stop g (keptPages computed g keys) =
      g.windowRange computed (max reach stop) := by
  have hmono := g.windowStart_mono hle
  have hkept : keptPages computed g keys = g.windowRange computed reach := by
    rw [keptPages, if_neg hw, ← g.filter_windowRange hle, ← hkeys, List.filter_filter]
    refine filter_congr fun i _ => ?_
    rw [Bool.eq_iff_iff]
    simp only [decide_eq_true_eq, Bool.and_eq_true]
    omega
  have hfresh : freshPages computed stop g (g.windowRange computed reach) =
      List.range' (max (g.windowStart computed) (cdiv reach g.blockTokens))
        (cdiv stop g.blockTokens - max (g.windowStart computed) (cdiv reach g.blockTokens)) := by
    unfold freshPages CacheGroup.windowRange
    dsimp only
    rw [if_neg hw, filter_not_mem_range' (.inr le_rfl)]
    unfold cdiv
    congr 1 <;> split <;> omega
  refine ⟨hkept, by rw [hkept]; exact hfresh, ?_⟩
  rw [hkept, hfresh]
  unfold CacheGroup.windowRange
  rw [cdiv_max]
  rcases Nat.le_total (cdiv reach g.blockTokens) (g.windowStart computed) with h | h
  · rw [Nat.sub_eq_zero_of_le h, max_eq_left h]
    simp only [range'_zero, nil_append]
    congr 1
    omega
  · rw [max_eq_right h]
    rcases Nat.le_total (cdiv reach g.blockTokens) (cdiv stop g.blockTokens) with h' | h'
    · rw [range'_append_of_le h h', max_eq_right h']
    · rw [Nat.sub_eq_zero_of_le h', max_eq_left h']
      simp only [range'_zero, append_nil]

theorem tight_of_keys {table : GroupTable} {n : Nat} (h : table.keys = List.range n) :
    Tight table := by
  intro i hi
  rw [← length_keys, h, length_range]
  rw [h] at hi
  exact mem_range.mp hi

theorem Ensures.shape {origin : Origin} (hact : ActiveShape cfg r origin ensuredAt reach tables)
    (h : Ensures cfg leak m r stop m' tables tables') :
    ActiveShape cfg r origin r.numComputedTokens (max reach stop) tables' := by
  have hwindow : ∀ g ∈ cfg.layout.groups, g.windowTokens ≠ 0 →
      (tableOf tables' g).keys = g.windowRange r.numComputedTokens (max reach stop) := by
    intro g hg hw
    rw [(h.table g hg fun h0 => absurd h0 hw).keys]
    exact (kept_append_fresh hw hact.ensured (hact.window g hg hw)).2.2
  refine ⟨le_rfl, fun ho => le_trans (hact.covered ho) (le_max_left ..),
    fun g hg hw => ?_, fun g hg hw => ?_, fun _ => hwindow, fun g hg hw he => ?_⟩
  · rw [hwindow g hg hw]
    exact pairwise_lt_range'
  · rw [hwindow g hg hw]
    exact g.filter_windowRange le_rfl _
  · have hkeys := hact.full g hg hw he
    rw [(h.table g hg fun _ => tight_of_keys hkeys).keys, keptPages, if_pos hw, hkeys, freshPages,
      if_pos hw, length_range, cdiv_max, range_eq_range', range_eq_range']
    have hcdiv : (stop + g.blockTokens - 1) / g.blockTokens = cdiv stop g.blockTokens := rfl
    rw [hcdiv]
    rcases Nat.le_total (cdiv reach g.blockTokens) (cdiv stop g.blockTokens) with hle | hle
    · have := range'_append_of_le (Nat.zero_le (cdiv reach g.blockTokens)) hle
      rw [max_eq_right hle]
      simpa using this
    · rw [max_eq_left hle, Nat.sub_eq_zero_of_le hle, range'_zero, append_nil]

/-! ## Every run keeps the shapes -/

theorem Shaped.mono {phase : Phase} (h : Shaped cfg r tables phase)
    (hctx : r.contextLen ≤ r'.contextLen) (hcomp : r'.numComputedTokens = r.numComputedTokens) :
    Shaped cfg r' tables phase := by
  cases phase with
  | absent => trivial
  | admitted hit =>
    exact ⟨h.bound.imp_right fun hlt => lt_of_lt_of_le hlt hctx, h.aligned, h.pages⟩
  | loading targets boundary => exact ⟨lt_of_lt_of_le h.bound hctx, h.sorted, h.window, h.full⟩
  | active origin ensuredAt reach =>
    exact ⟨hcomp ▸ h.ensured, fun ho => hcomp ▸ h.covered ho, h.sorted, h.window, h.exact, h.full⟩

theorem Shapes.put {phase' : Phase} (h : Shapes cfg w)
    (htables : ∀ i, i ≠ rid → m'.tables.get? i = w.mgr.tables.get? i)
    (hself : ∀ tables, m'.tables.get? rid = some tables → Shaped cfg r' tables phase') :
    Shapes cfg (w.put m' rid r' phase') := by
  intro i tables hi
  by_cases he : i = rid
  · subst he
    rw [World.put_reqs_self, World.put_phase_self]
    exact hself tables hi
  · rw [World.put_reqs_of_ne he, World.put_phase_of_ne he]
    exact h i tables ((htables i he).symm.trans hi)

theorem Steps.shapes {op : Op} (h : WorldOk cfg leak w) (hsh : Shapes cfg w)
    (hs : Steps cfg leak w op w') : Shapes cfg w' := by
  have hset : ∀ {rid : Nat} {m' : HybridKVBlockManager} {tables' : GroupTables},
      m'.tables = w.mgr.tables.set (w.reqs rid).id tables' → ∀ i,
      m'.tables.get? i = if i = rid then some tables' else w.mgr.tables.get? i := by
    intro rid m' tables' htab i
    rw [htab, h.ids, get?_set]
  cases hs with
  | @plan rid _ _ request =>
    refine hsh.put (fun _ _ => rfl) fun tables ht => (hsh rid tables ht).mono ?_ ?_
    · exact (Progress.of_plan request).contextLen
    · rcases request with rfl | ⟨blocks, rfl⟩ <;> rfl
  | allocate _ admits =>
    refine hsh.put (fun i hi => ?_) fun tables ht => ?_
    · rw [hset admits.tables, if_neg hi]
    · rw [hset admits.tables, if_pos rfl, Option.some.injEq] at ht
      exact ht ▸ admits.shape
  | @start rid _ _ phase le =>
    refine hsh.put (fun _ _ => rfl) fun tables ht => ?_
    have hadm := hsh rid tables ht
    rw [phase] at hadm
    exact AdmittedShape.start hadm le
  | @beginImport rid _ _ _ _ _ _ tables _ phase longer bound pages _ imports =>
    refine hsh.put (fun i hi => ?_) fun t ht => ?_
    · rw [hset imports.tables_eq, if_neg hi]
    · rw [hset imports.tables_eq, if_pos rfl, Option.some.injEq] at ht
      have hadm := hsh rid tables (imports.retables (h.ids rid)).known
      rw [phase] at hadm
      exact ht ▸ imports.shape hadm longer bound pages
  | @finishImport rid _ _ _ phase finishes =>
    refine hsh.put (fun i hi => by rw [finishes.tables]) fun tables ht => ?_
    rw [finishes.tables] at ht
    have hload := hsh rid tables ht
    rw [phase] at hload
    exact LoadingShape.start hload
  | @ensureSlots rid _ _ _ _ _ _ tables _ phase ensures =>
    refine hsh.put (fun i hi => ?_) fun t ht => ?_
    · rw [hset ensures.tables_eq, if_neg hi]
    · rw [hset ensures.tables_eq, if_pos rfl, Option.some.injEq] at ht
      have hact := hsh rid tables (ensures.retables (h.ids rid)).known
      rw [phase] at hact
      exact ht ▸ ensures.shape hact
  | @advance rid _ _ _ _ phase le covered =>
    refine hsh.put (fun _ _ => rfl) fun tables ht => ?_
    have hact := hsh rid tables ht
    rw [phase] at hact ⊢
    exact ⟨le_trans hact.ensured le, fun _ => covered, hact.sorted, hact.window, hact.exact,
      hact.full⟩
  | @generate rid =>
    refine hsh.put (fun _ _ => rfl) fun tables ht => (hsh rid tables ht).mono ?_ rfl
    simp only [Request.contextLen]
    omega
  | @cacheComputed rid _ _ _ _ _ _ _ _ _ publishes =>
    refine hsh.put (fun i hi => by rw [publishes.tables]) fun t ht => ?_
    rw [publishes.tables] at ht
    exact (hsh rid t ht).mono le_rfl rfl
  | release releases =>
    refine hsh.put (fun i hi => ?_) fun t _ => trivial
    rw [releases.tables, h.ids, get?_erase, if_neg hi]
  | pin transfers | unpin transfers =>
    intro rid tables ht
    rw [transfers.tables] at ht
    exact hsh rid tables ht

/-- A world whose manager is consistent and whose tables have their shapes. -/
structure WellFormed (cfg : HybridConfig) (w : World) : Prop where
  ok : ∃ leak, WorldOk cfg leak w
  shapes : Shapes cfg w

theorem worldOk_init {reqs : Nat → Request} (hids : ∀ rid, (reqs rid).id = rid) :
    WorldOk cfg (fun _ => 0) (World.init cfg reqs) where
  inv := init_inv cfg
  ids := hids
  memo _ := ⟨nofun, nofun⟩
  absent _ := ⟨fun _ => rfl, fun _ => rfl⟩
  loading _ _ _ h := (nomatch h)

theorem wellFormed_init {reqs : Nat → Request} (hids : ∀ rid, (reqs rid).id = rid) :
    WellFormed cfg (World.init cfg reqs) :=
  ⟨⟨_, worldOk_init hids⟩, fun _ _ _ => trivial⟩

theorem WellFormed.step {op : Op} (h : WellFormed cfg w) (hs : World.step cfg w op = some w') :
    WellFormed cfg w' := by
  obtain ⟨leak, hok⟩ := h.ok
  have hstep := step_cases hok hs
  obtain ⟨leak', hok', -⟩ := hstep.worldOk hok
  exact ⟨⟨leak', hok'⟩, hstep.shapes hok h.shapes⟩

theorem WellFormed.progress {ok : World → Op → Prop} (h : WellFormed cfg w)
    (hrun : Reaches (World.step cfg) ok w w') (i : Nat) : Progress (w.reqs i) (w'.reqs i) := by
  have := hrun.invariant (P := fun u => WellFormed cfg u ∧ Progress (w.reqs i) (u.reqs i))
    ⟨h, .refl _⟩ fun h _ hs => by
      obtain ⟨leak, hok⟩ := h.1.ok
      exact ⟨h.1.step hs, h.2.trans ((step_cases hok hs).progress i)⟩
  exact this.2

theorem World.Reachable.wellFormed (h : World.Reachable cfg w) : WellFormed cfg w := by
  obtain ⟨reqs, hreqs, hrun⟩ := h
  exact hrun.invariant (wellFormed_init hreqs.id) fun h _ hs => h.step hs

/-! ## Contiguous tables -/

/-- Growth allocates no page that lies before what was computed. -/
theorem Ensures.fresh_above {origin : Origin}
    (hact : ActiveShape cfg r origin ensuredAt reach tables) (ho : origin ≠ .handedOver)
    (h : Ensures cfg leak m r stop m' tables tables')
    (hg : g ∈ cfg.layout.groups) (hfull : g.windowTokens = 0 → g.eagle = false) {i s : Nat}
    (hi : (tableOf tables' g).get? i = some s) :
    (tableOf tables g).get? i = some s ∨ r.numComputedTokens ≤ i * g.blockTokens := by
  have hpos := blockTokens_pos hg
  have htight : g.windowTokens = 0 → Tight (tableOf tables g) := fun hw =>
    tight_of_keys (hact.full g hg hw (hfull hw))
  have hens := h.table g hg htight
  have hmem : i ∈ (tableOf tables' g).keys := mem_keys_iff.mpr ⟨s, hi⟩
  rw [hens.keys, mem_append] at hmem
  refine hmem.imp (fun hkept => ?_) fun hfresh => ?_
  · rw [← hens.get? i hkept]
    exact hi
  · -- a fresh page lies past the pages up to `reach`
    have hreach : cdiv reach g.blockTokens ≤ i := by
      by_cases hw : g.windowTokens = 0
      · rw [keptPages, if_pos hw, hact.full g hg hw (hfull hw), freshPages, if_pos hw,
          length_range] at hfresh
        exact (mem_range'_1.mp hfresh).1
      · rw [(kept_append_fresh hw hact.ensured (hact.window g hg hw)).2.1] at hfresh
        exact le_trans (le_max_right ..) (mem_range'_1.mp hfresh).1
    exact le_trans (hact.covered ho) ((cdiv_le_iff hpos).mp hreach)

/-- The tables of a request that takes up its local prefix.  Right after
admission they hold the window pages of the prefix and the full pages, less the
last one of an EAGLE group.  Later they hold the pages from the window start at
the last `ensureSlots` up to the largest end ensured, and no page before the
computed tokens is allocated afresh, in full groups provided that these hold no
draft layers. -/
theorem tables_contiguous (cfg : HybridConfig) (w : World) (hw : World.Reachable cfg w)
    (rid : Nat) (tables : GroupTables) (ht : w.mgr.tables.get? rid = some tables) :
    (∀ hit, w.phase rid = .admitted hit → ∀ g ∈ cfg.layout.groups,
      (g.windowTokens ≠ 0 → (tableOf tables g).keys =
        let first := hit / g.blockTokens - cdiv (g.windowTokens - 1) g.blockTokens
        List.range' first (hit / g.blockTokens - first)) ∧
      (g.windowTokens = 0 → (tableOf tables g).keys =
        List.range (hit / cfg.blockSize - g.eagle.toNat))) ∧
    ∀ ensuredAt reach, w.phase rid = .active .localPrefix ensuredAt reach →
      (∀ g ∈ cfg.layout.groups, (g.windowTokens ≠ 0 → (tableOf tables g).keys =
          let first := (ensuredAt - (g.windowTokens - 1)) / g.blockTokens
          List.range' first (cdiv reach g.blockTokens - first)) ∧
        (g.windowTokens = 0 → g.eagle = false →
          (tableOf tables g).keys = List.range (cdiv reach g.blockTokens))) ∧
      ∀ scheduled lookahead w' tables',
        World.step cfg w (.ensureSlots rid scheduled lookahead) = some w' →
        w'.mgr.tables.get? rid = some tables' →
        w'.phase rid = .active .localPrefix (w.reqs rid).numComputedTokens
          (max reach (stepEnd cfg (w.reqs rid) scheduled lookahead)) ∧
        ∀ g ∈ cfg.layout.groups, (g.windowTokens = 0 → g.eagle = false) →
          ∀ i s, (tableOf tables' g).get? i = some s → (tableOf tables g).get? i = some s ∨
            ¬ (i + 1) * g.blockTokens ≤ (w.reqs rid).numComputedTokens := by
  have hwf := hw.wellFormed
  have hshape := hwf.shapes rid tables ht
  obtain ⟨leak, hok⟩ := hwf.ok
  refine ⟨fun hit hphase g hg => ?_, fun ensuredAt reach hphase => ⟨fun g hg => ?_,
    fun scheduled lookahead w' tables' hs ht' => ?_⟩⟩
  · rw [hphase] at hshape
    have hpos := blockTokens_pos hg
    refine ⟨fun hwin => ?_, fun hfull => ?_⟩
    · have hdvd := Nat.dvd_trans (cfg.layout.tokens_dvd g hg) hshape.aligned
      rw [hshape.window hg hwin, CacheGroup.windowRange, CacheGroup.windowStart_eq,
        sub_div_of_dvd hpos hdvd, cdiv_of_dvd hpos hdvd]
    · rw [hshape.pages g hg, demandedPages, if_pos hfull, heldPages]
      cases g.eagle with
      | false => rfl
      | true =>
        rw [if_pos rfl]
        cases hit / cfg.blockSize with
        | zero => rfl
        | succ n => rw [range_succ]; exact dropLast_concat ..
  · rw [hphase] at hshape
    refine ⟨fun hwin => ?_, hshape.full g hg⟩
    rw [hshape.exact rfl g hg hwin, CacheGroup.windowRange, CacheGroup.windowStart_eq]
  · rw [hphase] at hshape
    cases step_cases hok hs with
    | ensureSlots phase ensures =>
      rw [hphase] at phase
      cases phase
      have hknown := ensures.known
      rw [hok.ids, ht, Option.some.injEq] at hknown
      subst hknown
      rw [World.put_mgr, ensures.tables_eq, hok.ids, get?_set_self, Option.some.injEq] at ht'
      subst ht'
      refine ⟨World.put_phase_self .., fun g hg hfull i s hi => ?_⟩
      refine (ensures.fresh_above hshape (by simp) hg hfull hi).imp_right fun hle hno => ?_
      have := blockTokens_pos hg
      rw [add_mul] at hno
      omega

/-- A request that takes up two blocks, computes one more and grows again. -/
theorem tables_contiguous_sample : ∃ w tables,
    World.Reachable (sampleConfig windowLayout) w ∧ w.mgr.tables.get? 1 = some tables ∧
    w.phase 1 = .active .localPrefix 6 8 ∧
    (tableOf tables ⟨1, .window, 1, 3, false⟩).keys = [4, 5, 6, 7] := by
  obtain ⟨w, hreach, hphase, hsome⟩ := World.exists_reachable windowLayout
    [.allocate 0, .start 0 0, .ensureSlots 0 4 0, .advance 0 4, .cacheComputed 0, .release 0,
      .allocate 1, .start 1 4, .ensureSlots 1 2 0, .advance 1 6, .ensureSlots 1 2 0]
    (fun w => w.phase 1 = .active .localPrefix 6 8 ∧ (w.mgr.tables.get? 1).isSome)
    (by decide +kernel)
  obtain ⟨tables, ht⟩ := Option.isSome_iff_exists.mp hsome
  refine ⟨w, tables, hreach, ht, hphase, ?_⟩
  exact (((tables_contiguous _ w hreach 1 tables ht).2 6 8 hphase).1 ⟨1, .window, 1, 3, false⟩
    (by decide)).1 (by decide)

/-- A hit of one block in a full EAGLE group leaves out its only page: the
request counts the block as computed, and growing allocates the page afresh. -/
theorem fresh_page_below_computed : ∃ w w' tables tables',
    World.Reachable (sampleConfig draftLayout) w ∧ w.phase 1 = .active .localPrefix 1 1 ∧
    World.step (sampleConfig draftLayout) w (.ensureSlots 1 1 0) = some w' ∧
    w.mgr.tables.get? 1 = some tables ∧ w'.mgr.tables.get? 1 = some tables' ∧
    ∃ g ∈ draftLayout.groups, (0 + 1) * g.blockTokens ≤ (w.reqs 1).numComputedTokens ∧
      (tableOf tables g).get? 0 = none ∧ (tableOf tables' g).get? 0 ≠ none := by
  obtain ⟨w, hw, hphase, hcomp, hrest⟩ := World.exists_reachable draftLayout
    [.allocate 0, .start 0 0, .ensureSlots 0 1 0, .advance 0 1, .cacheComputed 0,
      .allocate 1, .start 1 1]
    (fun w => w.phase 1 = .active .localPrefix 1 1 ∧ (w.reqs 1).numComputedTokens = 1 ∧
      ((w.mgr.tables.get? 1).any fun tables =>
        ((World.step (sampleConfig draftLayout) w (.ensureSlots 1 1 0)).any fun w' =>
          (w'.mgr.tables.get? 1).any fun tables' =>
            (tableOf tables ⟨0, .full, 1, 0, true⟩).get? 0 = none ∧
              (tableOf tables' ⟨0, .full, 1, 0, true⟩).get? 0 ≠ none)) = true)
    (by decide +kernel)
  obtain ⟨tables, ht, hrest⟩ := (Option.any_eq_true ..).mp hrest
  obtain ⟨w', hs, hrest⟩ := (Option.any_eq_true ..).mp hrest
  obtain ⟨tables', ht', hrest⟩ := (Option.any_eq_true ..).mp hrest
  obtain ⟨hnone, hsome⟩ := of_decide_eq_true hrest
  exact ⟨w, w', tables, tables', hw, hphase, hs, ht, ht',
    ⟨0, .full, 1, 0, true⟩, by decide, hcomp.ge, hnone, hsome⟩

end TokenSim
