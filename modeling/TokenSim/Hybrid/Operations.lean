import TokenSim.Hybrid.Accounting

/-!
# The manager's operations keep the accounting

One lemma for each operation of the manager.  It says that the operation keeps
`Inv`, how the tables of the request change, and what happens to the identities
of slots.  Nothing past this module unfolds an operation again for that.
-/

namespace TokenSim

open List OrderedDict Option

open HybridKVBlockManager SlotPool
open Except

variable {cfg : HybridConfig} {leak : Nat → Nat} {m m' : HybridKVBlockManager} {r r' : Request}
  {base : Nat → Nat} {pool pool' : SlotPool SlotKey} {tables tables' : GroupTables}

/-! ## Growth -/

/-- The table of a group after `ensureSlots`: the pages from the window start
on, and the missing pages up to `stop`. -/
structure EnsuredTable (computed stop : Nat) (g : CacheGroup) (table table' : GroupTable) :
    Prop where
  keys : table'.keys = keptPages computed g table.keys ++
    freshPages computed stop g (keptPages computed g table.keys)
  get? : ∀ i ∈ keptPages computed g table.keys, table'.get? i = table.get? i

/-- Fields that only the named operation changes. -/
structure SameRecords (m m' : HybridKVBlockManager) : Prop where
  cachedProgress : m'.cachedProgress = m.cachedProgress
  transferReferences : m'.transferReferences = m.transferReferences
  plans : m'.plans = m.plans
  published : m'.published = m.published

/-- The full tables of a request have no gap. -/
def TightTables (cfg : HybridConfig) (tables : GroupTables) : Prop :=
  ∀ g ∈ cfg.layout.groups, g.windowTokens = 0 → Tight (tableOf tables g)

/-- What `ensureSlots` up to `stop` does. -/
structure Ensures (cfg : HybridConfig) (leak : Nat → Nat) (m : HybridKVBlockManager) (r : Request)
    (stop : Nat) (m' : HybridKVBlockManager) (tables tables' : GroupTables) : Prop where
  known : m.tables.get? r.id = some tables
  tables_eq : m'.tables = m.tables.set r.id tables'
  inv : ∃ leak', Inv cfg leak' m' ∧ (TightTables cfg tables → ∀ s, leak' s = leak s)
  records : SameRecords m m'
  table : ∀ g ∈ cfg.layout.groups, (g.windowTokens = 0 → Tight (tableOf tables g)) →
    EnsuredTable r.numComputedTokens stop g (tableOf tables g) (tableOf tables' g)
  /-- Slots that others hold or that stay in the tables keep their identity. -/
  carries : Carries (fun s => tablesCount tables s < references m s ∨ ∃ g ∈ cfg.layout.groups,
    ∃ i ∈ keptPages r.numComputedTokens g (tableOf tables g).keys,
      (tableOf tables g).get? i = some s) m.pool m'.pool
  /-- Slots that others hold are not handed out again. -/
  foreign : ∀ s, tablesCount tables s < references m s →
    tablesCount tables' s ≤ tablesCount tables s
  renews : Renews cfg m m' tables tables'
  /-- The commit record stays only if no new window page is behind. -/
  committed : m'.committed = m.committed.erase r.id ∨ m'.committed = m.committed ∧
    ∀ g ∈ cfg.layout.groups, g.windowTokens ≠ 0 →
      ∀ i ∈ freshPages r.numComputedTokens stop g
        (keptPages r.numComputedTokens g (tableOf tables g).keys),
        r.numComputedTokens ≤ i * g.blockTokens

theorem ensureSlots_spec (hinv : Inv cfg leak m) {scheduled lookahead : Nat}
    (h : m.ensureSlots cfg r scheduled lookahead = .ok m') :
    ∃ tables tables', Ensures cfg leak m r (stepEnd cfg r scheduled lookahead) m' tables tables' := by
  obtain ⟨tables, htab, h⟩ := bind_eq_ok.mp h
  obtain ⟨spans, hsp, h⟩ := bind_eq_ok.mp h
  obtain ⟨⟨pool₁, tables₁, spans₁⟩, hreclaim, h⟩ := bind_eq_ok.mp h
  obtain ⟨⟨⟨pool₂, behind⟩, tables₂, spans₂⟩, hgrow, h⟩ := bind_eq_ok.mp h
  cases h
  have htables := orRaise_eq_ok.mp htab
  have hspans := orRaise_eq_ok.mp hsp
  obtain ⟨spans', hspans', hspansOk⟩ := hinv.spans r.id tables htables
  rw [hspans, some.injEq] at hspans'
  subst hspans'
  obtain ⟨base, hbase, hheld⟩ := hinv.held htables
  obtain ⟨hheld₁, hspans₁, hsame, hless, hkept⟩ := hheld.reclaimAll hspansOk hreclaim
  have htight : ∀ g ∈ cfg.layout.groups, (g.windowTokens = 0 → Tight (tableOf tables g)) →
      g.windowTokens = 0 → Tight (tableOf tables₁ g) := by
    intro g hg ht hw i hi
    have hk := (hkept g hg).1
    unfold keptPages at hk
    rw [if_pos hw] at hk
    rw [← length_keys, hk, length_keys]
    rw [hk] at hi
    exact ht hw i hi
  obtain ⟨hgrowing, hspans₂, hgrown⟩ := hheld₁.growAll hspans₁ hgrow
  obtain ⟨extra, hheld₂, -, hforeign, hextra⟩ := hgrowing.held
  obtain ⟨new, hrenewal⟩ := hgrowing.renewal
  have hreclaimed : Renewal cfg base m.pool tables pool₁ tables₁ [] := by
    refine ⟨nofun, fun s _ => ⟨hsame.blockHash s, hless s⟩,
      fun g hg i s hi => .inr ?_⟩
    have hmem : i ∈ (tableOf tables₁ g).keys := mem_keys_iff.mpr ⟨s, hi⟩
    rw [(hkept g hg).1] at hmem
    rw [← (hkept g hg).2 i hmem]
    exact hi
  refine ⟨tables, tables₂, htables, rfl,
    ⟨_, hinv.of_held (ownCount_of_get? htables) hbase hspans₂ rfl rfl (by rfl) hheld₂, fun ht s => ?_⟩,
    ⟨rfl, rfl, rfl, rfl⟩, fun g hg ht => ?_, ?_, fun s hs => ?_,
    (hreclaimed.trans hrenewal).renews htables hbase rfl, ?_⟩
  · rw [hextra (fun g hg => htight g hg (ht g hg)) s, add_zero]
  · obtain ⟨hk₁, hget₁⟩ := hkept g hg
    have hk₂ := (hgrown g hg).keys (htight g hg ht)
    have hget₂ := (hgrown g hg).get? (htight g hg ht)
    rw [hk₁] at hk₂ hget₂
    exact ⟨hk₂, fun i hi => (hget₂ i hi).trans (hget₁ i hi)⟩
  · refine (Carries.of_sameMap _ hsame).trans hgrowing.carries fun s hs => ?_
    rcases hs with hs | ⟨g, hg, i, hi, hget⟩
    · have := hbase s
      omega
    · have hget₁ := ((hkept g hg).2 i hi).trans hget
      have h1 := slotCount_pos hget₁
      have h2 := slotCount_le_tablesCount (hheld₁.tableOf hg) s
      omega
  · have := hbase s
    exact le_trans (hforeign s (by omega)) (hless s)
  · cases behind with
    | true => exact .inl rfl
    | false =>
      refine .inr ⟨rfl, fun g hg hw i hi => hgrowing.flag rfl g hg hw i ?_ ?_⟩
      · rw [(hgrown g hg).keys fun h => absurd h hw, (hkept g hg).1]
        exact mem_append_right _ hi
      · rw [(hkept g hg).1]
        unfold freshPages at hi
        dsimp only at hi
        rw [if_neg hw] at hi
        simpa using (mem_filter.mp hi).2

/-! ## Admission -/

theorem acquireMany_spec {n : Nat} : ∀ {slots : List Nat} {refs : Nat → Nat}
    {p : SlotPool SlotKey}, p.Ok n refs → (∀ s ∈ slots, s < n) →
    ∃ q, p.acquireMany slots = .ok q ∧ q.Ok n (addRefs refs slots) ∧ p.SameMap q
  | [], refs, p, h, _ => ⟨p, rfl, h.congr fun s => by simp [addRefs], .refl p⟩
  | s :: rest, refs, p, h, hlt => by
    obtain ⟨q₁, hq₁, hok₁, hsame₁⟩ := h.acquire (hlt s mem_cons_self)
    obtain ⟨q, hq, hok, hsame⟩ := acquireMany_spec hok₁ (forall_mem_cons.mp hlt).2
    refine ⟨q, bind_eq_ok.mpr ⟨q₁, hq₁, hq⟩, hok.congr fun t => ?_, hsame₁.trans hsame⟩
    simp only [addRefs, count_cons, count_nil]
    omega

theorem emptyTables_entries (groups : List CacheGroup)
    (hnd : (groups.map CacheGroup.groupId).Nodup) :
    (emptyTables groups).entries = groups.map fun g => (g.groupId, OrderedDict.empty) := by
  have hkeys : Entries.keys (groups.map fun g => (g.groupId, (OrderedDict.empty : GroupTable))) =
      groups.map CacheGroup.groupId := by
    rw [Entries.keys, List.map_map]
    rfl
  exact entries_update_of_disjoint (by rw [hkeys]; exact hnd)
    (fun k _ => by simp)

theorem emptyTables_spec (L : HybridKVLayout) :
    (emptyTables L.groups).keys = L.groups.map CacheGroup.groupId ∧
    (∀ g ∈ L.groups, (emptyTables L.groups).get? g.groupId = some .empty) ∧
    ∀ s, tablesCount (emptyTables L.groups) s = 0 := by
  have hent := emptyTables_entries L.groups L.ids_nodup
  refine ⟨?_, fun g hg => ?_, fun s => ?_⟩
  · rw [OrderedDict.keys, hent, Entries.keys, List.map_map]
    rfl
  · rw [get?_eq_some_iff, hent]
    exact List.mem_map.mpr ⟨g, hg, rfl⟩
  · rw [tablesCount, OrderedDict.sum, hent, Entries.sum, List.map_map]
    exact List.sum_eq_zero (by simp [slotCount_empty])

theorem addPages_spec {pairs : CacheGroup → List (Nat × Nat)} :
    ∀ {groups : List CacheGroup} {tables tables' : GroupTables},
    (groups.map CacheGroup.groupId).Nodup →
    (∀ g ∈ groups, tables.get? g.groupId = some .empty) →
    (∀ g ∈ groups, ((pairs g).map Prod.fst).Nodup) →
    addPages tables (groups.map fun g => (g.groupId, pairs g)) = .ok tables' →
    tables'.keys = tables.keys ∧ (∀ g ∈ groups, (tableOf tables' g).entries = pairs g) ∧
    (∀ gid, gid ∉ groups.map CacheGroup.groupId → tables'.get? gid = tables.get? gid) ∧
    ∀ s, tablesCount tables' s = tablesCount tables s +
      (groups.flatMap fun g => (pairs g).map Prod.snd).count s
  | [], tables, tables', _, _, _, h => by
    cases h
    exact ⟨rfl, nofun, fun _ _ => rfl, fun s => rfl⟩
  | g :: groups, tables, tables', hnd, hempty, hpairs, h => by
    obtain ⟨hni, hnd'⟩ := nodup_cons.mp hnd
    obtain ⟨table, htable, h⟩ := bind_eq_ok.mp h
    have hget := orRaise_eq_ok.mp htable
    rw [hempty g mem_cons_self, some.injEq] at hget
    subst hget
    have hent : ((OrderedDict.empty : GroupTable).update (pairs g)).entries = pairs g :=
      entries_update_of_disjoint (hpairs g mem_cons_self) (fun k _ => by simp)
    have hmem : g.groupId ∈ tables.keys :=
      mem_keys_iff.mpr ⟨_, hempty g mem_cons_self⟩
    obtain ⟨hkeys, hall, hother, hcount⟩ := addPages_spec hnd' (fun g' hg' => by
        have hne : g'.groupId ≠ g.groupId := fun he => hni (he ▸ List.mem_map_of_mem hg')
        rw [get?_set, if_neg hne]
        exact hempty g' (mem_cons_of_mem _ hg'))
      (forall_mem_cons.mp hpairs).2 h
    refine ⟨?_, fun g' hg' => ?_, fun gid hgid => ?_, fun s => ?_⟩
    · rw [hkeys, keys_set_of_mem hmem]
    · rcases mem_cons.mp hg' with rfl | hg'
      · rw [tableOf, hother _ hni, get?_set_self]
        exact hent
      · exact hall g' hg'
    · rw [map_cons, mem_cons, not_or] at hgid
      rw [hother gid hgid.2, get?_set, if_neg hgid.1]
    · have h1 := tablesCount_set (hempty g mem_cons_self)
        ((OrderedDict.empty : GroupTable).update (pairs g)) s
      have h2 : slotCount ((OrderedDict.empty : GroupTable).update (pairs g)) s =
          ((pairs g).map Prod.snd).count s := by
        rw [slotCount_eq_count, OrderedDict.values, hent]
      rw [hcount s, flatMap_cons, count_append]
      rw [slotCount_empty] at h1
      omega

theorem nodup_demandedPages (cfg : HybridConfig) (g : CacheGroup) (blocks : Nat) :
    (demandedPages cfg g blocks).Nodup := by
  unfold demandedPages tailPages
  split
  · exact nodup_range
  · exact nodup_range'

theorem nodup_heldPages (g : CacheGroup) {pages : List Nat} (h : pages.Nodup) :
    (heldPages g pages).Nodup := by
  unfold heldPages
  split
  · exact h.sublist (dropLast_sublist _)
  · exact h

theorem Inv.slot_of_cache (h : Inv cfg leak m) {key : SlotKey} {s : Nat}
    (hs : m.pool.cache.get? key = some s) :
    0 < s ∧ s < cfg.numSlots ∧ (m.pool.blocks s).blockHash = some key := by
  have hhash := h.pool.map.primary hs
  refine ⟨Nat.pos_of_ne_zero fun h0 => ?_, h.pool.published s (by rw [hhash]; simp), hhash⟩
  have := h.pool.null.2
  rw [h0] at hhash
  rw [hhash] at this
  cases this

/-- The tables of a request right after admission: empty, or the pages of a
prefix of `hit` tokens, each answering the lookup of its key. -/
def AdmittedTables (cfg : HybridConfig) (r : Request) (cache : OrderedDict SlotKey Nat)
    (hit : Nat) (tables : GroupTables) : Prop :=
  hit = 0 ∧ (∀ g ∈ cfg.layout.groups, (tableOf tables g).entries = []) ∨
    ∃ blocks, 0 < blocks ∧ blocks ≤ maximumBlocks cfg r ∧ hit = blocks * cfg.blockSize ∧
      ∀ g ∈ cfg.layout.groups, (tableOf tables g).keys = heldPages g (demandedPages cfg g blocks) ∧
        ∀ i s, (tableOf tables g).get? i = some s → Finds cfg r cache.get? g i s

/-- What admission leaves alone besides the records of the request. -/
structure Admits (cfg : HybridConfig) (leak : Nat → Nat) (m : HybridKVBlockManager) (r : Request)
    (m' : HybridKVBlockManager) (r' : Request) (tables' : GroupTables) : Prop where
  unknown : m.tables.get? r.id = none
  tables : m'.tables = m.tables.set r.id tables'
  inv : Inv cfg leak m'
  sameMap : m.pool.SameMap m'.pool
  progress : Progress r r'
  admitted : AdmittedTables cfg r m.pool.cache r'.gpuCachedContextTokens tables'
  shared : r'.sharedPrefixBoundaries = r.sharedPrefixBoundaries ∨
    ∃ blocks, r'.sharedPrefixBoundaries = [blocks * cfg.blockSize]
  memo : MemoOk cfg m' r'
  plans : ∀ rid, rid ≠ r.id → m'.plans.get? rid = m.plans.get? rid
  cachedProgress : m'.cachedProgress =
    m.cachedProgress.set r.id (r'.gpuCachedContextTokens / cfg.blockSize)
  committed : m'.committed = m.committed.erase r.id
  transferReferences : m'.transferReferences = m.transferReferences
  published : m'.published = m.published

/-- The tables that the hits of a plan fill, and their slots. -/
theorem admittedTables_of_plan {cache : OrderedDict SlotKey Nat} {plan : HybridReusePlan}
    (hplan : PlanOk cfg r cache plan)
    (h : addPages (emptyTables cfg.layout.groups) plan.groupHits = .ok tables') :
    tables'.keys = cfg.layout.groups.map CacheGroup.groupId ∧
    AdmittedTables cfg r cache plan.hitTokens tables' ∧
    (∀ s, tablesCount tables' s = plan.groupHits.slots.count s) ∧
    ∀ s ∈ plan.groupHits.slots, ∃ key, cache.get? key = some s := by
  obtain ⟨hkeys₀, hempty, hcount₀⟩ := emptyTables_spec cfg.layout
  rcases hplan.hits with ⟨hhit, hnil⟩ | ⟨blocks, hpos, hle, hhit, hhits⟩
  · rw [hnil] at h ⊢
    cases h
    refine ⟨hkeys₀, .inl ⟨hhit, fun g hg => ?_⟩, fun s => ?_, fun s hs => ?_⟩
    · rw [tableOf, hempty g hg]
      rfl
    · rw [hcount₀]
      rfl
    · exact (not_mem_nil hs).elim
  · obtain ⟨pairs, hpairs, hall⟩ := hhits.listed
    have hslots : plan.groupHits.slots =
        cfg.layout.groups.flatMap fun g => (pairs g).map Prod.snd := by
      rw [hpairs, GroupHits.slots, flatMap_map]
    rw [hpairs] at h
    obtain ⟨hkeys, hent, -, hcount⟩ := addPages_spec cfg.layout.ids_nodup hempty (fun g hg => by
      rw [(hall g hg).1]
      exact nodup_heldPages g (nodup_demandedPages cfg g blocks)) h
    refine ⟨hkeys.trans hkeys₀, .inr ⟨blocks, hpos, hle, hhit, fun g hg => ⟨?_, fun i s hs => ?_⟩⟩,
      fun s => ?_, fun s hs => ?_⟩
    · rw [OrderedDict.keys, hent g hg]
      exact (hall g hg).1
    · rw [get?_eq_some_iff, hent g hg] at hs
      exact (hall g hg).2 _ hs
    · rw [hcount, hcount₀, zero_add, hslots]
    · rw [hslots] at hs
      obtain ⟨g, hg, hs⟩ := mem_flatMap.mp hs
      obtain ⟨e, he, rfl⟩ := List.mem_map.mp hs
      obtain ⟨key, -, hkey⟩ := (hall g hg).2 e he
      exact ⟨key, hkey⟩

theorem allocate_spec (hinv : Inv cfg leak m) (hmemo : MemoOk cfg m r)
    (h : m.allocate cfg r = .ok (m', r')) : ∃ tables', Admits cfg leak m r m' r' tables' := by
  unfold HybridKVBlockManager.allocate at h
  rw [Except.ite_throw_eq_ok] at h
  obtain ⟨hnew, h⟩ := h
  obtain ⟨⟨m₁, r₁, plan⟩, hplan, h⟩ := bind_eq_ok.mp h
  obtain ⟨pool', hpool', h⟩ := bind_eq_ok.mp h
  obtain ⟨tables', htables', h⟩ := bind_eq_ok.mp h
  obtain ⟨rfl, hr'⟩ := Prod.mk.inj (pure_eq_ok.mp h)
  obtain ⟨hplanOk, hshared, ⟨plans, rfl, hplans⟩, hmemo'⟩ := planReuse_spec hmemo hplan
  have hunknown : m.tables.get? r.id = none := get?_eq_none.mpr hnew
  obtain ⟨hkeys, hadm, hcount, hslots⟩ := admittedTables_of_plan hplanOk htables'
  obtain ⟨q, hq, hok, hsame⟩ := acquireMany_spec hinv.pool fun s hs => by
    obtain ⟨key, hkey⟩ := hslots s hs
    exact (hinv.slot_of_cache hkey).2.1
  rw [hpool', ok.injEq] at hq
  subst hq
  have hid : r₁.id = r.id := by
    rcases hshared with rfl | ⟨b, rfl⟩ <;> rfl
  have hheld : Held cfg (fun s => references m s + leak s) pool' tables' := by
    refine ⟨hok.congr fun s => ?_, ?_, hkeys⟩
    · rw [addRefs, hcount]
    · rw [hcount]
      refine List.count_eq_zero.mpr fun hmem => ?_
      obtain ⟨key, hkey⟩ := hslots 0 hmem
      exact absurd (hinv.slot_of_cache hkey).1 (lt_irrefl 0)
  have hown : ∀ s, ownCount m r.id s = tablesCount .empty s := fun s => by
    rw [ownCount, hunknown]
    rfl
  have hprog : Progress r r' := by
    rw [← hr']
    rcases hshared with rfl | ⟨b, rfl⟩
    · exact { Progress.refl _ with }
    · exact { Progress.refl _ with }
  rw [hid]
  refine ⟨tables', hunknown, rfl, hinv.of_held_same hown (fun _ => rfl)
      (spansOk_windowSpans _ _) rfl rfl rfl hheld, hsame, hprog, ?_, ?_,
    hmemo'.mono hprog hsame.versioned fun _ he => he, hplans, ?_, rfl, rfl, rfl⟩
  · rw [← hr']
    exact hadm
  · rw [← hr']
    rcases hshared with rfl | ⟨b, rfl⟩
    · exact .inl rfl
    · exact .inr ⟨b, rfl⟩
  · rw [← hr']

/-! ## Release -/

theorem releaseTables_spec {n : Nat} : ∀ (ts : List GroupTable) {refs : Nat → Nat}
    {p : SlotPool SlotKey}, p.Ok n refs → (∀ s, (ts.map (slotCount · s)).sum ≤ refs s) →
    (ts.map (slotCount · 0)).sum = 0 →
    ∃ q, releaseTables p ts = .ok q ∧
      q.Ok n (fun s => refs s - (ts.map (slotCount · s)).sum) ∧ p.SameMap q
  | [], refs, p, h, _, _ => ⟨p, rfl, h, .refl p⟩
  | table :: rest, refs, p, h, hle, h0 => by
    have hcount : ∀ s, table.values.reverse.count s = slotCount table s := fun s => by
      rw [count_reverse, slotCount_eq_count]
    simp only [map_cons, sum_cons] at hle h0
    obtain ⟨q₁, hq₁, hok₁, hsame₁⟩ := h.releaseMany table.values.reverse (by
        rw [← List.count_eq_zero, hcount]
        omega) (fun s => by
        rw [hcount]
        have := hle s
        omega)
    obtain ⟨q, hq, hok, hsame⟩ := releaseTables_spec rest hok₁ (fun s => by
        have := hle s
        simp only [dropRefs, hcount]
        omega) (by omega)
    refine ⟨q, bind_eq_ok.mpr ⟨q₁, hq₁, hq⟩, hok.congr fun s => ?_, hsame₁.trans hsame⟩
    simp only [dropRefs, hcount, map_cons, sum_cons]
    omega

/-- What a release leaves alone besides the records of the request. -/
structure Releases (cfg : HybridConfig) (leak : Nat → Nat) (m : HybridKVBlockManager) (r : Request)
    (m' : HybridKVBlockManager) (r' : Request) : Prop where
  inv : Inv cfg leak m'
  sameMap : m.pool.SameMap m'.pool
  tables : m'.tables = m.tables.erase r.id
  plans : m'.plans = m.plans.erase r.id
  committed : m'.committed = m.committed.erase r.id
  cachedProgress : m'.cachedProgress = m.cachedProgress.erase r.id
  transferReferences : m'.transferReferences = m.transferReferences
  published : m'.published = m.published
  request : r' = r ∨ r' = { r with physicalTokenBlocks := [] }

theorem releaseRequestBlocks_spec (hinv : Inv cfg leak m)
    (h : m.releaseRequestBlocks r = .ok (m', r')) : Releases cfg leak m r m' r' := by
  obtain ⟨pool', hpool, h⟩ := bind_eq_ok.mp h
  obtain ⟨rfl, rfl⟩ := Prod.mk.inj (pure_eq_ok.mp h)
  have hsum : ∀ (t : GroupTables) (s : Nat), tablesCount t s = (t.values.map (slotCount · s)).sum := by
    intro t s
    rw [tablesCount, OrderedDict.sum, Entries.sum, OrderedDict.values, List.map_map]
    rfl
  -- an unknown request releases nothing
  have hocc := occurrences_eq m r.id
  unfold ownCount at hocc
  obtain ⟨q, hq, hok, hsame⟩ := releaseTables_spec
    ((m.tables.get? r.id).getD .empty).values hinv.pool (fun s => by
      rw [← hsum]
      have := hocc s
      unfold references
      omega) (by
      rw [← hsum]
      have := hocc 0
      have := hinv.null
      omega)
  rw [hpool, ok.injEq] at hq
  subst hq
  refine ⟨⟨hok.congr fun s => ?_, ?_, fun rid t ht => ?_, fun rid t ht => ?_, fun rid sp hsp => ?_⟩,
    hsame, rfl, rfl, rfl, rfl, rfl, rfl, ?_⟩
  · have h1 := hocc s
    rw [← hsum]
    simp only [references, occurrences, transfers] at h1 ⊢
    omega
  · have h1 := hocc 0
    have h2 := hinv.null
    simp only [occurrences] at h1 h2 ⊢
    omega
  · exact hinv.groups rid t (get?_of_erase ht).2
  · obtain ⟨hne, ht⟩ := get?_of_erase ht
    obtain ⟨sp, hsp, hok⟩ := hinv.spans rid t ht
    exact ⟨sp, (get?_erase_of_ne hne).trans hsp, hok⟩
  · obtain ⟨hne, hsp⟩ := get?_of_erase hsp
    obtain ⟨t, ht⟩ := hinv.spans_known rid sp hsp
    exact ⟨t, (get?_erase_of_ne hne).trans ht⟩
  · split
    · exact .inr rfl
    · exact .inl rfl

/-! ## Publication -/

/-- The effect of publishing pages of a request, `own g i s` being its pages and
their slots: nothing but identities of own slots that had none, and the log. -/
structure Publishes (cfg : HybridConfig) (r : Request) (own : CacheGroup → Nat → Nat → Prop)
    (m m' : HybridKVBlockManager) : Prop where
  tables : m'.tables = m.tables
  spans : m'.spans = m.spans
  plans : m'.plans = m.plans
  committed : ∀ rid, rid ≠ r.id → m'.committed.get? rid = m.committed.get? rid
  cachedProgress : ∀ rid, rid ≠ r.id → m'.cachedProgress.get? rid = m.cachedProgress.get? rid
  transferReferences : m'.transferReferences = m.transferReferences
  ok : ∀ n refs, m.pool.Ok n refs → (∀ g i s, own g i s → 0 < s ∧ refs s ≠ 0) →
    m'.pool.Ok n refs
  versioned : m.pool.Versioned m'.pool
  /-- Published slots keep their identity. -/
  cached : ∀ s, (m.pool.blocks s).cached = true → (m'.pool.blocks s).cached = true ∧
    (m'.pool.blocks s).blockHash = (m.pool.blocks s).blockHash
  other : ∀ s, (∀ g i, ¬ own g i s) → m'.pool.blocks s = m.pool.blocks s
  /-- The log lists the slots that got an identity. -/
  published : ∃ log, m'.published = m.published ++ log ∧
    (∀ e ∈ log, e.requestId = r.id ∧ (m'.pool.blocks e.slot).blockHash = some e.key ∧
      (m'.pool.blocks e.slot).cached = true ∧ ∃ g ∈ cfg.layout.groups, g.groupId = e.groupId ∧
        own g e.index e.slot ∧ cfg.slotKey r g e.index = .ok (some e.key)) ∧
    ∀ s, (m'.pool.blocks s).blockHash = (m.pool.blocks s).blockHash ∨ ∃ e ∈ log, e.slot = s

theorem Publishes.refl (own : CacheGroup → Nat → Nat → Prop) (m : HybridKVBlockManager) :
    Publishes cfg r own m m :=
  ⟨rfl, rfl, rfl, fun _ _ => rfl, fun _ _ => rfl, rfl, fun _ _ h _ => h, .refl _,
    fun _ h => ⟨h, rfl⟩, fun _ _ => rfl, [], by simp, nofun,
    fun _ => .inl rfl⟩

variable {own : CacheGroup → Nat → Nat → Prop} {g : CacheGroup} {computed : Nat}

theorem Publishes.trans {m₁ m₂ m₃ : HybridKVBlockManager}
    (h : Publishes cfg r own m₁ m₂) (h' : Publishes cfg r own m₂ m₃) :
    Publishes cfg r own m₁ m₃ := by
  obtain ⟨log, hlog, hall, hnamed⟩ := h.published
  obtain ⟨log', hlog', hall', hnamed'⟩ := h'.published
  refine ⟨h'.tables.trans h.tables, h'.spans.trans h.spans, h'.plans.trans h.plans,
    fun rid hr => (h'.committed rid hr).trans (h.committed rid hr),
    fun rid hr => (h'.cachedProgress rid hr).trans (h.cachedProgress rid hr),
    h'.transferReferences.trans h.transferReferences,
    fun n refs hok hown => h'.ok n refs (h.ok n refs hok hown) hown,
    h.versioned.trans h'.versioned, fun s hs => ?_,
    fun s hs => (h'.other s hs).trans (h.other s hs), log ++ log', ?_, fun e he => ?_,
    fun s => ?_⟩
  · obtain ⟨hc, hh⟩ := h.cached s hs
    obtain ⟨hc', hh'⟩ := h'.cached s hc
    exact ⟨hc', hh'.trans hh⟩
  · rw [hlog', hlog, append_assoc]
  · rcases mem_append.mp he with he | he
    · obtain ⟨h1, h2, h3, h4⟩ := hall e he
      obtain ⟨hc', hh'⟩ := h'.cached _ h3
      exact ⟨h1, hh'.trans h2, hc', h4⟩
    · exact hall' e he
  · rcases hnamed' s with hs' | ⟨e, he, hes⟩
    · rcases hnamed s with hs | ⟨e, he, hes⟩
      · exact .inl (hs'.trans hs)
      · exact .inr ⟨e, mem_append_left _ he, hes⟩
    · exact .inr ⟨e, mem_append_right _ he, hes⟩

theorem publish_spec
    (hg : g ∈ cfg.layout.groups) {index slot : Nat} {known : Bool} (hown : own g index slot)
    (hnot : (m.pool.blocks slot).cached = false)
    (h : m.publish cfg r g index slot = .ok (m', known)) : Publishes cfg r own m m' := by
  obtain ⟨key, hkey, h⟩ := bind_eq_ok.mp h
  cases key with
  | none =>
    cases h
    exact .refl _ _
  | some key =>
    cases h
    have hb := publish_blocks m.pool slot key
    refine ⟨rfl, rfl, rfl, fun _ _ => rfl, fun _ _ => rfl, rfl, fun n refs hok hrefs => ?_,
      publish_versioned _ _ _, fun s hs => ?_, fun s hs => ?_, [_], rfl, fun e he => ?_,
      fun s => ?_⟩
    · obtain ⟨hpos, href⟩ := hrefs g index slot hown
      exact hok.publish hpos href key
    · have hne : s ≠ slot := fun he => by
        rw [he, hnot] at hs
        cases hs
      rw [(hb s).2.2.2 hne]
      exact ⟨hs, rfl⟩
    · have hne : s ≠ slot := fun he => hs g index (he ▸ hown)
      exact (hb _).2.2.2 hne
    · rw [mem_singleton] at he
      subst he
      refine ⟨rfl, ?_, ?_, g, hg, rfl, hown, hkey⟩
      · exact (hb slot).2.1.trans (if_pos rfl)
      · exact (hb slot).2.2.1.trans (if_pos rfl)
    · by_cases hs : s = slot
      · exact .inr ⟨_, mem_singleton_self _, hs.symm⟩
      · exact .inl ((hb s).2.1.trans (if_neg hs))

theorem publishFull_spec (hg : g ∈ cfg.layout.groups) {table : GroupTable} :
    ∀ {indices : List Nat} {m m' : HybridKVBlockManager},
    (∀ i ∈ indices, ∀ s, table.get? i = some s → own g i s) →
    publishFull cfg r g table m indices = .ok m' → Publishes cfg r own m m'
  | [], m, m', _, h => by
    cases h
    exact .refl _ _
  | index :: rest, m, m', hown, h => by
    have hrest : ∀ i ∈ rest, ∀ s, table.get? i = some s → own g i s :=
      (forall_mem_cons.mp hown).2
    obtain ⟨slot, hslot, h⟩ := bind_eq_ok.mp h
    split at h
    · exact publishFull_spec hg hrest h
    · rename_i hnot
      obtain ⟨⟨m₁, known⟩, hpub, h⟩ := bind_eq_ok.mp h
      have hslot := hown index mem_cons_self slot (orRaise_eq_ok.mp hslot)
      exact (publish_spec hg hslot (by simpa using hnot) hpub).trans
        (publishFull_spec hg hrest h)

theorem publishWindow_spec (hg : g ∈ cfg.layout.groups) {table : GroupTable}
    (hown : ∀ i s, table.get? i = some s → own g i s) :
    ∀ {indices : List Nat} {m m' : HybridKVBlockManager} {deferred : Bool},
    publishWindow cfg r g table computed m indices = .ok (m', deferred) → Publishes cfg r own m m'
  | [], m, m', deferred, h => by
    cases h
    exact .refl _ _
  | index :: rest, m, m', deferred, h => by
    unfold publishWindow at h
    cases hslot : table.get? index with
    | none =>
      rw [hslot] at h
      exact publishWindow_spec hg hown h
    | some slot =>
      rw [hslot] at h
      dsimp only at h
      split at h
      · exact publishWindow_spec hg hown h
      · rename_i hnot
        rw [not_or] at hnot
        obtain ⟨⟨m₁, known⟩, hpub, h⟩ := bind_eq_ok.mp h
        obtain ⟨⟨m₂, deferred'⟩, hrest, h⟩ := bind_eq_ok.mp h
        cases h
        exact (publish_spec hg (hown index slot hslot) (by simpa using hnot.1) hpub).trans
          (publishWindow_spec hg hown hrest)

/-- The pages in the tables of a request, with their slots. -/
def InTables (cfg : HybridConfig) (tables : GroupTables) (g : CacheGroup) (i s : Nat) : Prop :=
  g ∈ cfg.layout.groups ∧ (tableOf tables g).get? i = some s

theorem Publishes.noteProgress (own : CacheGroup → Nat → Nat → Prop) (m : HybridKVBlockManager)
    (stop : Nat) :
    Publishes cfg r own m { m with cachedProgress := m.cachedProgress.set r.id stop } :=
  { Publishes.refl own m with cachedProgress := fun _ hr => get?_set_of_ne hr }

theorem publishGroup_spec (hg : g ∈ cfg.layout.groups) {windows deferred : Bool}
    (h : publishGroup cfg r tables computed windows g m = .ok (m', deferred)) :
    Publishes cfg r (InTables cfg tables) m m' := by
  have hown : ∀ i s, (tableOf tables g).get? i = some s → InTables cfg tables g i s :=
    fun i s hs => ⟨hg, hs⟩
  unfold publishGroup at h
  split at h
  · obtain ⟨start, -, h⟩ := bind_eq_ok.mp h
    obtain ⟨m₁, hfull, h⟩ := bind_eq_ok.mp h
    cases h
    exact (Publishes.noteProgress _ m _).trans (publishFull_spec hg (fun i _ => hown i) hfull)
  · split at h
    · exact publishWindow_spec hg hown h
    · cases h
      exact .refl _ _

/-- A pass over groups of the layout, one after the other. -/
inductive PassedGroups (cfg : HybridConfig) (r : Request) (tables : GroupTables) (computed : Nat)
    (windows : Bool) : List CacheGroup → HybridKVBlockManager → HybridKVBlockManager → Bool → Prop
  | nil {m : HybridKVBlockManager} : PassedGroups cfg r tables computed windows [] m m false
  | cons {g : CacheGroup} {groups : List CacheGroup} {m m₁ m' : HybridKVBlockManager}
    {d d' : Bool} : g ∈ cfg.layout.groups →
    publishGroup cfg r tables computed windows g m = .ok (m₁, d) →
    PassedGroups cfg r tables computed windows groups m₁ m' d' →
    PassedGroups cfg r tables computed windows (g :: groups) m m' (d || d')

theorem passedGroups_of_subset {windows : Bool} : ∀ {groups : List CacheGroup}
    {m m' : HybridKVBlockManager} {deferred : Bool}, groups ⊆ cfg.layout.groups →
    publishGroups cfg r tables computed windows groups m = .ok (m', deferred) →
    PassedGroups cfg r tables computed windows groups m m' deferred
  | [], m, m', deferred, _, h => by
    cases h
    exact .nil
  | g :: groups, m, m', deferred, hsub, h => by
    obtain ⟨⟨m₁, d₁⟩, hhead, h⟩ := bind_eq_ok.mp h
    obtain ⟨⟨m₂, d₂⟩, hrest, h⟩ := bind_eq_ok.mp h
    cases h
    obtain ⟨hg, hsub⟩ := cons_subset.mp hsub
    exact .cons hg hhead (passedGroups_of_subset hsub hrest)

theorem PassedGroups.spec {windows deferred : Bool} {groups : List CacheGroup}
    (h : PassedGroups cfg r tables computed windows groups m m' deferred) :
    Publishes cfg r (InTables cfg tables) m m' := by
  induction h with
  | nil => exact .refl _ _
  | cons hg hhead _ ih => exact (publishGroup_spec hg hhead).trans ih

/-- What a pass did: nothing if nothing has changed, or it passed over all groups. -/
theorem publicationPass_cases (h : m.publicationPass cfg r tables = .ok m') :
    (m' = m ∧ ∃ threshold, m.committed.get? r.id = some (commitState r, threshold)) ∨
    ∃ m₁ deferred threshold, PassedGroups cfg r tables r.numComputedTokens
        (windowsDue (m.committed.get? r.id) r) cfg.layout.groups m m₁ deferred ∧
      m' = { m₁ with committed := m₁.committed.set r.id (commitState r, threshold) } := by
  unfold publicationPass at h
  dsimp only at h
  split at h
  · rename_i hsame
    obtain ⟨entry, hentry, hstate⟩ := Option.map_eq_some_iff.mp hsame
    cases h
    exact .inl ⟨rfl, entry.2, by rw [hentry, ← hstate]⟩
  · obtain ⟨⟨m₁, threshold⟩, hpub, h⟩ := bind_eq_ok.mp h
    obtain ⟨⟨m₂, deferred⟩, hgroups, hpub⟩ := bind_eq_ok.mp hpub
    cases hpub
    cases h
    exact .inr ⟨m₁, deferred, _, passedGroups_of_subset (Subset.refl _) hgroups, rfl⟩

theorem Publishes.commit (h : Publishes cfg r own m m') (entry : CommitState × Threshold) :
    Publishes cfg r own m { m' with committed := m'.committed.set r.id entry } :=
  { h with
    committed := fun rid hr =>
      (get?_set_of_ne hr).trans (h.committed rid hr) }

theorem cacheComputed_spec (htables : m.tables.get? r.id = some tables)
    (h : m.cacheComputed cfg r = .ok (m', r')) :
    Publishes cfg r (InTables cfg tables) m m' ∧
      r' = { r with inputCacheCommitted := !r.isPrefill } := by
  unfold HybridKVBlockManager.cacheComputed at h
  rw [htables] at h
  obtain ⟨m₁, hm₁, h⟩ := bind_eq_ok.mp h
  obtain ⟨rfl, rfl⟩ := Prod.mk.inj (pure_eq_ok.mp h)
  refine ⟨?_, rfl⟩
  rcases publicationPass_cases hm₁ with ⟨rfl, -⟩ | ⟨m₂, deferred, threshold, hpassed, rfl⟩
  · exact .refl _ _
  · exact hpassed.spec.commit _

theorem Inv.publishes (hinv : Inv cfg leak m) (htables : m.tables.get? r.id = some tables)
    (h : Publishes cfg r (InTables cfg tables) m m') : Inv cfg leak m' := by
  obtain ⟨base, hbase, hheld⟩ := hinv.held htables
  have hrefs : references m' = references m := by
    funext s
    unfold references occurrences transfers
    rw [h.tables, h.transferReferences]
  refine ⟨hrefs ▸ h.ok _ _ hinv.pool fun g i s hs => ?_, ?_, ?_, ?_, ?_⟩
  · obtain ⟨hg, hi⟩ := hs
    have h1 := slotCount_pos hi
    have h2 := slotCount_le_tablesCount (hheld.tableOf hg) s
    have h3 := hbase s
    refine ⟨Nat.pos_of_ne_zero fun h0 => ?_, by omega⟩
    have := hheld.null
    rw [h0] at h1 h2
    omega
  · unfold occurrences
    rw [h.tables]
    exact hinv.null
  · rw [h.tables]; exact hinv.groups
  · rw [h.tables, h.spans]; exact hinv.spans
  · rw [h.tables, h.spans]; exact hinv.spans_known

end TokenSim
