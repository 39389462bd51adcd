import TokenSim.Hybrid.Operations

/-!
# Imports and transfers keep the accounting

An import first drops the pages it replaces and then takes a private slot for
every external page.  Until the transfer is done these slots have no identity
and occur once in all tables (`Private`), so that entering them into the prefix
map cannot clash with what other requests do in the meantime.
-/

namespace TokenSim

open List OrderedDict Option

open HybridKVBlockManager SlotPool
open Except

variable {cfg : HybridConfig} {leak : Nat → Nat} {m m' : HybridKVBlockManager} {r r' : Request}
  {base : Nat → Nat} {pool pool' : SlotPool SlotKey} {tables tables' : GroupTables}
  {table table' : GroupTable}

/-! ## Dropping replaced pages -/

/-- A table without the pages of some indices, and the pool that got their
references back. -/
structure Dropped (n : Nat) (refs : Nat → Nat) (table : GroupTable) (indices : List Nat)
    (pool pool' : SlotPool SlotKey) (table' : GroupTable) : Prop where
  ok : ∀ refs' : Nat → Nat, (∀ s, refs' s + slotCount table s = refs s + slotCount table' s) →
    pool'.Ok n refs'
  sameMap : pool.SameMap pool'
  keys : table'.keys = table.keys.filter (· ∉ indices)
  get? : ∀ i, table'.get? i = if i ∈ indices then none else table.get? i
  count : ∀ s, slotCount table' s ≤ slotCount table s

variable {n : Nat} {pairs : CacheGroup → List (Nat × SlotKey)}

theorem dropReplaced_spec : ∀ {pairs : List (Nat × SlotKey)} {refs : Nat → Nat}
    {pool pool' : SlotPool SlotKey} {table table' : GroupTable}, pool.Ok n refs →
    (∀ s, slotCount table s ≤ refs s) → slotCount table 0 = 0 →
    dropReplaced pool table pairs = .ok (pool', table') →
    Dropped n refs table (pairs.map Prod.fst) pool pool' table'
  | [], refs, pool, pool', table, table', hok, _, _, h => by
    cases h
    refine ⟨fun refs' hr => hok.congr fun s => ?_, .refl _, ?_, fun i => ?_,
      fun _ => le_rfl⟩
    · have := hr s
      omega
    · simp
    · simp
  | (index, key) :: rest, refs, pool, pool', table, table', hok, hle, h0, h => by
    unfold dropReplaced at h
    cases hget : table.get? index with
    | none =>
      rw [hget] at h
      obtain ⟨hok', hsame, hkeys, hgets, hcount⟩ := dropReplaced_spec hok hle h0 h
      have hni : index ∉ table.keys := get?_eq_none.mp hget
      refine ⟨hok', hsame, ?_, fun i => ?_, hcount⟩
      · rw [hkeys]
        refine filter_congr fun i hi => ?_
        have hne : i ≠ index := fun he => hni (he ▸ hi)
        simp [hne]
      · rw [hgets, map_cons]
        by_cases hi : i = index
        · subst hi
          simp [hget]
        · simp only [mem_cons, hi, false_or]
    | some slot =>
      rw [hget] at h
      obtain ⟨pool₁, hrel, h⟩ := bind_eq_ok.mp h
      have hcount₁ := slotCount_erase hget
      have hpos := slotCount_pos hget
      obtain ⟨q, hq, hok₁, hsame₁⟩ := hok.releaseMany [slot]
        (by
          intro hmem
          rw [mem_singleton] at hmem
          rw [← hmem] at hpos
          omega)
        (fun s => by
          have h1 := hcount₁ s
          have h2 := hle s
          simp only [count_cons, count_nil, beq_iff_eq]
          omega)
      rw [hrel, ok.injEq] at hq
      subst hq
      have hdrop : ∀ s, dropRefs refs [slot] s + (if slot = s then 1 else 0) = refs s := by
        intro s
        have h1 := hcount₁ s
        have h2 := hle s
        simp only [dropRefs, count_cons, count_nil, beq_iff_eq]
        omega
      obtain ⟨hok', hsame, hkeys, hgets, hcount⟩ := dropReplaced_spec hok₁ (fun s => by
          have h1 := hcount₁ s
          have h2 := hle s
          have h3 := hdrop s
          omega) (by
          have h1 := hcount₁ 0
          omega) h
      refine ⟨fun refs' hr => hok' refs' fun s => ?_, hsame₁.trans hsame, ?_, fun i => ?_,
        fun s => ?_⟩
      · have h1 := hcount₁ s
        have h2 := hdrop s
        have h3 := hr s
        omega
      · rw [hkeys, keys_erase, List.filter_filter, map_cons]
        refine filter_congr fun i _ => ?_
        simp only [mem_cons, not_or, ne_eq, Bool.decide_and]
        exact Bool.and_comm _ _
      · rw [hgets, get?_erase, map_cons]
        by_cases hi : i = index
        · simp [hi]
        · simp only [mem_cons, hi, false_or, if_false]
      · have h1 := hcount₁ s
        have h2 := hcount s
        omega

theorem dropAllReplaced_spec :
    ∀ {groups : List CacheGroup} {pool pool' : SlotPool SlotKey} {tables tables' : GroupTables},
    (groups.map CacheGroup.groupId).Nodup → (∀ g ∈ groups, g ∈ cfg.layout.groups) →
    Held cfg base pool tables →
    dropAllReplaced pool tables (groups.map fun g => (g.groupId, pairs g)) = .ok (pool', tables') →
    Held cfg base pool' tables' ∧ pool.SameMap pool' ∧
      (∀ g ∈ groups, (tableOf tables' g).keys =
          (tableOf tables g).keys.filter (· ∉ (pairs g).map Prod.fst) ∧
        ∀ i, (tableOf tables' g).get? i =
          if i ∈ (pairs g).map Prod.fst then none else (tableOf tables g).get? i) ∧
      (∀ g, g.groupId ∉ groups.map CacheGroup.groupId → tableOf tables' g = tableOf tables g) ∧
      ∀ s, tablesCount tables' s ≤ tablesCount tables s
  | [], pool, pool', tables, tables', _, _, hheld, h => by
    cases h
    exact ⟨hheld, .refl _, nofun, fun _ _ => rfl,
      fun _ => le_rfl⟩
  | g :: groups, pool, pool', tables, tables', hnd, hsub, hheld, h => by
    obtain ⟨hni, hnd'⟩ := nodup_cons.mp hnd
    have hg := hsub g mem_cons_self
    obtain ⟨table, htable, hloop⟩ := bind_eq_ok.mp h
    obtain ⟨⟨pool₁, table₁⟩, hdrop, hrest⟩ := bind_eq_ok.mp hloop
    have hget := orRaise_eq_ok.mp htable
    rw [hheld.tableOf hg, some.injEq] at hget
    subst hget
    have hd := dropReplaced_spec hheld.ok (fun s => by
      have := slotCount_le_tablesCount (hheld.tableOf hg) s
      omega) (hheld.null_table hg) hdrop
    have hheld₁ : Held cfg base pool₁ (tables.set g.groupId table₁) :=
      hheld.replace hg hd.ok (by
        have h1 := hd.count 0
        have h2 := hheld.null_table hg
        omega)
    obtain ⟨hheld', hsame, hall, hother, hless⟩ := dropAllReplaced_spec hnd'
      (forall_mem_cons.mp hsub).2 hheld₁ hrest
    refine ⟨hheld', hd.sameMap.trans hsame, fun g' hg' => ?_, fun g' hg' => ?_, fun s => ?_⟩
    · rcases mem_cons.mp hg' with rfl | hmem
      · rw [hother g' hni, tableOf_set, if_pos rfl]
        exact ⟨hd.keys, hd.get?⟩
      · have hne : g'.groupId ≠ g.groupId := fun he => hni (he ▸ List.mem_map_of_mem hmem)
        have hres := hall g' hmem
        rw [tableOf_set, if_neg hne] at hres
        exact hres
    · rw [map_cons, mem_cons, not_or] at hg'
      rw [hother g' hg'.2, tableOf_set, if_neg hg'.1]
    · have h1 := tablesCount_set (hheld.tableOf hg) table₁ s
      have h2 := hd.count s
      have h3 := hless s
      omega

/-! ## Private pages -/

/-- The pages of an import in one group: each got a slot that nothing
referenced and that has no identity. -/
structure Reserved (n : Nat) (refs : Nat → Nat) (gid : Nat) (table : GroupTable)
    (pairs : List (Nat × SlotKey)) (pool pool' : SlotPool SlotKey) (table' : GroupTable)
    (targets : List Destination) : Prop where
  ok : ∀ refs' : Nat → Nat, (∀ s, refs' s + slotCount table s = refs s + slotCount table' s) →
    pool'.Ok n refs'
  carries : Carries (fun s => refs s ≠ 0) pool pool'
  keys : table'.keys = table.keys ++ pairs.map Prod.fst
  get? : ∀ i ∈ table.keys, table'.get? i = table.get? i
  listed : targets.map (fun t => (t.groupId, t.index, t.key)) =
    pairs.map fun e => (gid, e.1, e.2)
  written : ∀ t ∈ targets, table'.get? t.index = some t.slot
  fresh : ∀ t ∈ targets, 0 < t.slot ∧ refs t.slot = 0 ∧ (pool'.blocks t.slot).blockHash = none
  nodup : (targets.map Destination.slot).Nodup
  count : ∀ s, slotCount table' s = slotCount table s + (targets.map Destination.slot).count s
  other : ∀ s, s ∉ targets.map Destination.slot → pool'.blocks s = pool.blocks s

/-- One slot is handed out: nothing referenced it, and it has no identity. -/
structure HandedOut (n : Nat) (refs : Nat → Nat) (slot : Nat) (pool pool' : SlotPool SlotKey) :
    Prop where
  ok : pool'.Ok n fun s => refs s + if slot = s then 1 else 0
  pos : 0 < slot
  unused : refs slot = 0
  unnamed : (pool'.blocks slot).blockHash = none
  carries : Carries (fun s => refs s ≠ 0) pool pool'
  other : ∀ s, s ≠ slot → pool'.blocks s = pool.blocks s

theorem allocateOne_spec {refs : Nat → Nat} {pool pool' : SlotPool SlotKey} {slots : List Nat}
    {slot : Nat} (hok : pool.Ok n refs) (h : pool.allocateMany 1 = .ok (pool', slots))
    (hslot : slots.head? = some slot) : HandedOut n refs slot pool pool' := by
  obtain ⟨q, hq, hok₁, hver, hother, hnone⟩ := hok.allocateMany (hok.allocateMany_le h)
  rw [h, ok.injEq] at hq
  obtain ⟨rfl, hslots⟩ := Prod.mk.inj hq
  have hfront : pool.front 1 = [slot] := by
    have hlen := length_of_allocateMany h
    rw [← hslots]
    cases slots with
    | nil => cases hslot
    | cons a l =>
      cases hslot
      rw [length_cons, Nat.add_eq_right, length_eq_zero_iff] at hlen
      rw [hlen]
  have hfree : 0 < slot ∧ slot < n ∧ refs slot = 0 := by
    refine (hok.mem_free slot).mp ((front_perm pool 1).subset ?_)
    refine mem_append_left _ ?_
    rw [hfront]
    exact mem_singleton_self _
  rw [hfront] at hok₁ hother hnone
  have hunnamed := hnone slot (mem_singleton_self _)
  have hothers : ∀ s, s ≠ slot → pool'.blocks s = pool.blocks s := fun s hs =>
    hother s (by rwa [mem_singleton])
  refine ⟨hok₁.congr fun s => ?_, hfree.1, hfree.2.2, hunnamed,
    ⟨hver, fun s hs => ?_, fun s hs => ?_⟩, hothers⟩
  · simp [addRefs, count_cons]
  · have hne : s ≠ slot := by
      rintro rfl
      exact hs hfree.2.2
    rw [hothers s hne]
    exact ⟨rfl, rfl⟩
  · by_cases he : s = slot
    · rw [he]
      exact hunnamed
    · rw [hothers s he]
      exact hs

theorem addDestinations_spec {gid : Nat} : ∀ {pairs : List (Nat × SlotKey)} {refs : Nat → Nat}
    {pool pool' : SlotPool SlotKey} {table table' : GroupTable} {targets : List Destination},
    pool.Ok n refs → (pairs.map Prod.fst).Nodup → (∀ e ∈ pairs, e.1 ∉ table.keys) →
    addDestinations gid pool table pairs = .ok (pool', table', targets) →
    Reserved n refs gid table pairs pool pool' table' targets
  | [], refs, pool, pool', table, table', targets, hok, _, _, h => by
    cases h
    refine ⟨fun refs' hr => hok.congr fun s => ?_, .refl _ _, by simp, fun _ _ => rfl, rfl,
      nofun, nofun,
      nodup_nil, fun s => rfl, fun _ _ => rfl⟩
    have := hr s
    omega
  | (index, key) :: rest, refs, pool, pool', table, table', targets, hok, hnd, hnew, h => by
    obtain ⟨hni, hnd'⟩ := nodup_cons.mp hnd
    obtain ⟨⟨pool₁, slots⟩, halloc, h⟩ := bind_eq_ok.mp h
    obtain ⟨slot, hslot, h⟩ := bind_eq_ok.mp h
    obtain ⟨⟨pool₂, table₂, targets₂⟩, hrest, h⟩ := bind_eq_ok.mp h
    cases h
    have hout := allocateOne_spec hok halloc (orRaise_eq_ok.mp hslot)
    have hidx : index ∉ table.keys := hnew _ mem_cons_self
    have hcount₁ := slotCount_set (get?_eq_none.mpr hidx) slot
    have hkeys₁ : (table.set index slot).keys = table.keys ++ [index] := by
      rw [keys_set, if_neg hidx]
    have hrec := addDestinations_spec hout.ok hnd' (fun e he => by
      rw [hkeys₁, mem_append, mem_singleton, not_or]
      exact ⟨hnew e (mem_cons_of_mem _ he), fun he' =>
        hni (List.mem_map.mpr ⟨e, he, he'⟩)⟩) hrest
    have hfresh₂ : ∀ t ∈ targets₂, 0 < t.slot ∧ refs t.slot = 0 ∧ t.slot ≠ slot ∧
        (pool'.blocks t.slot).blockHash = none := by
      intro t ht
      obtain ⟨hpos, hz, hh⟩ := hrec.fresh t ht
      split at hz
      · omega
      · rename_i hne
        exact ⟨hpos, by omega, fun he => hne he.symm, hh⟩
    refine ⟨fun refs' hr => hrec.ok refs' fun s => ?_, hout.carries.trans hrec.carries fun s hs => ?_,
      ?_, fun i hi => ?_, ?_, fun t ht => ?_, fun t ht => ?_, ?_, fun s => ?_, fun s hs => ?_⟩
    · have h1 := hcount₁ s
      have h2 := hr s
      omega
    · omega
    · rw [hrec.keys, hkeys₁, map_cons, append_assoc]
      rfl
    · have hne : i ≠ index := fun he => hidx (he ▸ hi)
      rw [hrec.get? i (by rw [hkeys₁]; exact mem_append_left _ hi), get?_set,
        if_neg hne]
    · rw [map_cons, map_cons, hrec.listed]
    · rcases mem_cons.mp ht with rfl | ht
      · rw [hrec.get? index (by rw [hkeys₁]; simp), get?_set_self]
      · exact hrec.written t ht
    · rcases mem_cons.mp ht with rfl | ht
      · exact ⟨hout.pos, hout.unused, hrec.carries.unnamed _ hout.unnamed⟩
      · obtain ⟨h1, h2, -, h4⟩ := hfresh₂ t ht
        exact ⟨h1, h2, h4⟩
    · rw [map_cons, nodup_cons]
      refine ⟨fun hmem => ?_, hrec.nodup⟩
      obtain ⟨t, ht, he⟩ := List.mem_map.mp hmem
      exact (hfresh₂ t ht).2.2.1 he
    · rw [hrec.count s, hcount₁ s, map_cons, count_cons]
      simp only [beq_iff_eq]
      omega
    · rw [map_cons, mem_cons, not_or] at hs
      exact (hrec.other s hs.2).trans (hout.other s hs.1)

/-- The pages of an import, group by group. -/
def importPages (pairs : CacheGroup → List (Nat × SlotKey)) (groups : List CacheGroup) :
    List (Nat × Nat × SlotKey) :=
  groups.flatMap fun g => (pairs g).map fun e => (g.groupId, e.1, e.2)

/-- The private pages of all groups. -/
structure ReservedAll (cfg : HybridConfig) (base : Nat → Nat) (tables : GroupTables)
    (pairs : CacheGroup → List (Nat × SlotKey)) (groups : List CacheGroup)
    (pool pool' : SlotPool SlotKey) (tables' : GroupTables) (targets : List Destination) :
    Prop where
  held : Held cfg base pool' tables'
  carries : Carries (fun s => base s + tablesCount tables s ≠ 0) pool pool'
  table : ∀ g ∈ groups, (tableOf tables' g).keys =
      (tableOf tables g).keys ++ (pairs g).map Prod.fst ∧
    ∀ i ∈ (tableOf tables g).keys, (tableOf tables' g).get? i = (tableOf tables g).get? i
  other : ∀ g, g.groupId ∉ groups.map CacheGroup.groupId → tableOf tables' g = tableOf tables g
  written : ∀ t ∈ targets, ∃ g ∈ groups, g.groupId = t.groupId ∧ (t.index, t.key) ∈ pairs g ∧
    (tableOf tables' g).get? t.index = some t.slot
  fresh : ∀ t ∈ targets, base t.slot + tablesCount tables t.slot = 0 ∧
    (pool'.blocks t.slot).blockHash = none
  nodup : (targets.map Destination.slot).Nodup
  count : ∀ s, tablesCount tables' s = tablesCount tables s +
    (targets.map Destination.slot).count s
  listed : targets.map (fun t => (t.groupId, t.index, t.key)) = importPages pairs groups
  blocks : ∀ s, s ∉ targets.map Destination.slot → pool'.blocks s = pool.blocks s

theorem addAllDestinations_spec :
    ∀ {groups : List CacheGroup} {pool pool' : SlotPool SlotKey} {tables tables' : GroupTables}
      {targets : List Destination},
    (groups.map CacheGroup.groupId).Nodup → (∀ g ∈ groups, g ∈ cfg.layout.groups) →
    (∀ g ∈ groups, ((pairs g).map Prod.fst).Nodup ∧ ∀ e ∈ pairs g, e.1 ∉ (tableOf tables g).keys) →
    Held cfg base pool tables →
    addAllDestinations pool tables (groups.map fun g => (g.groupId, pairs g)) =
      .ok (pool', tables', targets) →
    ReservedAll cfg base tables pairs groups pool pool' tables' targets
  | [], pool, pool', tables, tables', targets, _, _, _, hheld, h => by
    cases h
    exact ⟨hheld, .refl _ _, nofun, fun _ _ => rfl, nofun, nofun, nodup_nil, fun _ => rfl, rfl,
      fun _ _ => rfl⟩
  | g :: groups, pool, pool', tables, tables', targets, hnd, hsub, hpairs, hheld, h => by
    obtain ⟨hni, hnd'⟩ := nodup_cons.mp hnd
    have hg := hsub g mem_cons_self
    obtain ⟨table, htable, hloop⟩ := bind_eq_ok.mp h
    obtain ⟨⟨pool₁, table₁, targets₁⟩, hadd, hloop⟩ := bind_eq_ok.mp hloop
    obtain ⟨⟨pool₂, tables₂, targets₂⟩, hrest, hloop⟩ := bind_eq_ok.mp hloop
    obtain ⟨rfl, htail⟩ := Prod.mk.inj (pure_eq_ok.mp hloop)
    obtain ⟨rfl, rfl⟩ := Prod.mk.inj htail
    have hget := orRaise_eq_ok.mp htable
    rw [hheld.tableOf hg, some.injEq] at hget
    rw [← hget] at hadd
    obtain ⟨hndg, hnewg⟩ := hpairs g mem_cons_self
    have hres := addDestinations_spec hheld.ok hndg hnewg hadd
    have hheld₁ : Held cfg base pool₁ (tables.set g.groupId table₁) :=
      hheld.replace hg hres.ok (by
        rw [hres.count, hheld.null_table hg, zero_add]
        refine List.count_eq_zero.mpr fun hmem => ?_
        obtain ⟨t, ht, h0⟩ := List.mem_map.mp hmem
        have := (hres.fresh t ht).1
        omega)
    have hne : ∀ {g'}, g' ∈ groups → g'.groupId ≠ g.groupId := fun {g'} hg' he =>
      hni (he ▸ List.mem_map_of_mem hg')
    have hrec := addAllDestinations_spec hnd'
      (forall_mem_cons.mp hsub).2
      (fun g' hg' => by
        rw [tableOf_set, if_neg (hne hg')]
        exact hpairs g' (mem_cons_of_mem _ hg')) hheld₁ hrest
    have hcount₁ : ∀ s, tablesCount (tables.set g.groupId table₁) s =
        tablesCount tables s + (targets₁.map Destination.slot).count s := by
      intro s
      have h1 := tablesCount_set (hheld.tableOf hg) table₁ s
      have h2 := hres.count s
      omega
    have hlast : tableOf tables₂ g = table₁ := by
      rw [hrec.other g hni, tableOf_set, if_pos rfl]
    have hmemPairs : ∀ t ∈ targets₁, t.groupId = g.groupId ∧ (t.index, t.key) ∈ pairs g := by
      intro t ht
      have hmem : (t.groupId, t.index, t.key) ∈ (pairs g).map fun e => (g.groupId, e.1, e.2) := by
        rw [← hres.listed]
        exact List.mem_map_of_mem ht
      obtain ⟨e, he, heq⟩ := List.mem_map.mp hmem
      obtain ⟨h1, h2⟩ := Prod.mk.inj heq
      exact ⟨h1.symm, h2 ▸ he⟩
    refine ⟨hrec.held, hres.carries.trans hrec.carries fun s hs => ?_, fun g' hg' => ?_,
      fun g' hg' => ?_, fun t ht => ?_, fun t ht => ?_, ?_, fun s => ?_, ?_, fun s hs => ?_⟩
    · rw [hcount₁]
      omega
    · rcases mem_cons.mp hg' with rfl | hmem
      · rw [hlast]
        exact ⟨hres.keys, hres.get?⟩
      · have htab := hrec.table g' hmem
        rw [tableOf_set, if_neg (hne hmem)] at htab
        exact htab
    · rw [map_cons, mem_cons, not_or] at hg'
      rw [hrec.other g' hg'.2, tableOf_set, if_neg hg'.1]
    · rcases mem_append.mp ht with ht | ht
      · obtain ⟨h1, h2⟩ := hmemPairs t ht
        refine ⟨g, mem_cons_self .., h1.symm, h2, ?_⟩
        rw [hlast]
        exact hres.written t ht
      · obtain ⟨g', hg', h1, h2, h3⟩ := hrec.written t ht
        exact ⟨g', mem_cons_of_mem _ hg', h1, h2, h3⟩
    · rcases mem_append.mp ht with ht | ht
      · obtain ⟨-, h1, h2⟩ := hres.fresh t ht
        exact ⟨h1, hrec.carries.unnamed _ h2⟩
      · obtain ⟨h1, h2⟩ := hrec.fresh t ht
        rw [hcount₁] at h1
        exact ⟨by omega, h2⟩
    · rw [map_append, nodup_append]
      refine ⟨hres.nodup, hrec.nodup, fun a ha b hb hab => ?_⟩
      obtain ⟨t, ht, rfl⟩ := List.mem_map.mp hb
      have h1 := (hrec.fresh t ht).1
      rw [hcount₁, ← hab] at h1
      have := count_pos_iff.mpr ha
      omega
    · rw [hrec.count, hcount₁, map_append, count_append]
      omega
    · rw [map_append, hres.listed, hrec.listed]
      rfl
    · rw [map_append, mem_append, not_or] at hs
      exact (hrec.blocks s hs.2).trans (hres.other s hs.1)

/-- An imported page is the slot of a target. -/
theorem mem_slots_of_pair {targets : List Destination} {g : CacheGroup} {i s : Nat}
    (hlisted : targets.map (fun t => (t.groupId, t.index, t.key)) =
      importPages pairs cfg.layout.groups)
    (hwritten : ∀ t ∈ targets, ∃ g ∈ cfg.layout.groups, g.groupId = t.groupId ∧
      (t.index, t.key) ∈ pairs g ∧ (tableOf tables' g).get? t.index = some t.slot)
    (hg : g ∈ cfg.layout.groups) (hi : (tableOf tables' g).get? i = some s)
    (hpair : i ∈ (pairs g).map Prod.fst) : s ∈ targets.map Destination.slot := by
  obtain ⟨e, he, rfl⟩ := List.mem_map.mp hpair
  have hmem : (g.groupId, e.1, e.2) ∈ importPages pairs cfg.layout.groups :=
    mem_flatMap.mpr ⟨g, hg, List.mem_map.mpr ⟨e, he, rfl⟩⟩
  rw [← hlisted] at hmem
  obtain ⟨t, ht, heq⟩ := List.mem_map.mp hmem
  obtain ⟨g', hg', hgid, -, hget⟩ := hwritten t ht
  obtain rfl := cfg.layout.eq_of_groupId hg' hg (hgid.trans (congrArg Prod.fst heq))
  have hidx : t.index = e.1 := congrArg (·.2.1) heq
  rw [hidx, hi, some.injEq] at hget
  exact hget ▸ List.mem_map_of_mem ht

/-- The slots that a transfer writes to belong to nobody else and have no
identity yet. -/
structure Private (cfg : HybridConfig) (m : HybridKVBlockManager) (rid : Nat)
    (targets : List Destination) : Prop where
  nodup : (targets.map Destination.slot).Nodup
  held : ∀ t ∈ targets, ∃ tables, m.tables.get? rid = some tables ∧
    ∃ g ∈ cfg.layout.groups, g.groupId = t.groupId ∧ (tableOf tables g).get? t.index = some t.slot
  sole : ∀ t ∈ targets, occurrences m t.slot = 1
  unnamed : ∀ t ∈ targets, (m.pool.blocks t.slot).blockHash = none

/-- The start of an import: the tables of the request, group by group, and the
private targets. -/
structure Imports (cfg : HybridConfig) (leak : Nat → Nat) (m : HybridKVBlockManager) (r : Request)
    (pairs : CacheGroup → List (Nat × SlotKey)) (m' : HybridKVBlockManager)
    (targets : List Destination) (tables tables' : GroupTables) : Prop where
  known : m.tables.get? r.id = some tables
  tables_eq : m'.tables = m.tables.set r.id tables'
  inv : Inv cfg leak m'
  records : SameRecords m m'
  /-- Slots that others hold or that stay in the tables keep their identity. -/
  carries : Carries (fun s => tablesCount tables s < references m s ∨ ∃ g ∈ cfg.layout.groups,
    ∃ i, i ∉ (pairs g).map Prod.fst ∧ (tableOf tables g).get? i = some s) m.pool m'.pool
  /-- Slots that others hold are not handed out again. -/
  foreign : ∀ s, tablesCount tables s < references m s →
    tablesCount tables' s ≤ tablesCount tables s
  renews : Renews cfg m m' tables tables'
  table : ∀ g ∈ cfg.layout.groups,
    (tableOf tables' g).keys = (tableOf tables g).keys.filter (· ∉ (pairs g).map Prod.fst) ++
      (pairs g).map Prod.fst
  kept : ∀ g ∈ cfg.layout.groups, ∀ i ∈ (tableOf tables g).keys, i ∉ (pairs g).map Prod.fst →
    (tableOf tables' g).get? i = (tableOf tables g).get? i
  committed : m'.committed = m.committed.erase r.id
  isPrivate : Private cfg m' r.id targets
  written : ∀ t ∈ targets, ∃ g ∈ cfg.layout.groups, g.groupId = t.groupId ∧
    (t.index, t.key) ∈ pairs g ∧ (tableOf tables' g).get? t.index = some t.slot
  listed : targets.map (fun t => (t.groupId, t.index, t.key)) = importPages pairs cfg.layout.groups

/-- A page of the new tables is one that stays, or a target. -/
theorem Imports.page {targets : List Destination} {g : CacheGroup} {i s : Nat}
    (h : Imports cfg leak m r pairs m' targets tables tables') (hg : g ∈ cfg.layout.groups)
    (hi : (tableOf tables' g).get? i = some s) :
    i ∉ (pairs g).map Prod.fst ∧ (tableOf tables g).get? i = some s ∨
      s ∈ targets.map Destination.slot := by
  have hmem : i ∈ (tableOf tables' g).keys := mem_keys_iff.mpr ⟨s, hi⟩
  rw [h.table g hg, mem_append] at hmem
  rcases hmem with hkept | hpair
  · obtain ⟨hkey, hnot⟩ := mem_filter.mp hkept
    have hnot := of_decide_eq_true hnot
    exact .inl ⟨hnot, (h.kept g hg i hkey hnot).symm.trans hi⟩
  · exact .inr (mem_slots_of_pair h.listed h.written hg hi hpair)

theorem allocateExternalDestinations_spec (hinv : Inv cfg leak m) {targets : List Destination}
    (hnd : ∀ g ∈ cfg.layout.groups, ((pairs g).map Prod.fst).Nodup)
    (h : m.allocateExternalDestinations cfg r
      (cfg.layout.groups.map fun g => (g.groupId, pairs g)) = .ok (m', targets)) :
    ∃ tables tables', Imports cfg leak m r pairs m' targets tables tables' := by
  obtain ⟨tables, htab, h⟩ := bind_eq_ok.mp h
  rw [ite_throw_eq_ok] at h
  obtain ⟨-, h⟩ := h
  obtain ⟨⟨pool₁, tables₁⟩, hdrop, h⟩ := bind_eq_ok.mp h
  obtain ⟨⟨pool₂, tables₂, targets₂⟩, hadd, h⟩ := bind_eq_ok.mp h
  cases h
  have hknown := orRaise_eq_ok.mp htab
  obtain ⟨base, hbase, hheld⟩ := hinv.held hknown
  obtain ⟨hheld₁, hsame, hdropped, -, hless⟩ := dropAllReplaced_spec cfg.layout.ids_nodup
    (fun g hg => hg) hheld hdrop
  have hres := addAllDestinations_spec cfg.layout.ids_nodup (fun g hg => hg) (fun g hg => by
    refine ⟨hnd g hg, fun e he => ?_⟩
    rw [(hdropped g hg).1, mem_filter]
    simp only [decide_not, Bool.not_eq_eq_eq_not, Bool.not_true, decide_eq_false_iff_not, not_and,
      not_not]
    exact fun _ => List.mem_map_of_mem he) hheld₁ hadd
  have hdrops : Renewal cfg base m.pool tables pool₁ tables₁ [] := by
    refine ⟨nofun, fun s _ => ⟨hsame.blockHash s, hless s⟩,
      fun g hg i s hi => .inr ?_⟩
    rw [(hdropped g hg).2] at hi
    split at hi
    · cases hi
    · exact hi
  have hadds : Renewal cfg base pool₁ tables₁ pool₂ tables₂ (targets.map Destination.slot) := by
    refine ⟨fun s hs => ?_, fun s hs => ?_, fun g hg i s hi => ?_⟩
    · obtain ⟨t, ht, rfl⟩ := List.mem_map.mp hs
      obtain ⟨hzero, hnone⟩ := hres.fresh t ht
      have h1 := hres.count t.slot
      have h2 := count_eq_one_of_mem hres.nodup hs
      exact ⟨by omega, hnone, by omega⟩
    · have h1 := hres.count s
      have h2 := List.count_eq_zero.mpr hs
      exact ⟨by rw [hres.blocks s hs], by omega⟩
    · have hmem : i ∈ (tableOf tables₂ g).keys := mem_keys_iff.mpr ⟨s, hi⟩
      rw [(hres.table g hg).1, mem_append] at hmem
      rcases hmem with hold | hnew
      · rw [← (hres.table g hg).2 i hold]
        exact .inr hi
      · exact .inl (mem_slots_of_pair hres.listed hres.written hg hi hnew)
  have hinv' : Inv cfg leak { m with
      pool := pool₂
      tables := m.tables.set r.id tables₂
      committed := m.committed.erase r.id
      spans := m.spans.set r.id (windowSpans cfg.layout.groups tables₂) } :=
    hinv.of_held_same (ownCount_of_get? hknown) hbase (spansOk_windowSpans _ _) rfl rfl rfl hres.held
  refine ⟨tables, tables₂, hknown, rfl, hinv', ⟨rfl, rfl, rfl, rfl⟩, ?_, fun s hs => ?_,
    (hdrops.trans hadds).renews hknown hbase rfl, fun g hg => ?_,
    fun g hg i hi hni => ?_, rfl, ⟨hres.nodup, fun t ht => ?_, fun t ht => ?_,
    fun t ht => (hres.fresh t ht).2⟩, hres.written, hres.listed⟩
  · refine (Carries.of_sameMap _ hsame).trans hres.carries fun s hs => ?_
    rcases hs with hs | ⟨g, hg, i, hi, hget⟩
    · have := hbase s
      omega
    · have hget₁ : (tableOf tables₁ g).get? i = some s := by
        rw [(hdropped g hg).2, if_neg hi]
        exact hget
      have h1 := slotCount_pos hget₁
      have h2 := slotCount_le_tablesCount (hheld₁.tableOf hg) s
      omega
  · have h1 := hbase s
    have h2 := hres.count s
    have h3 := hless s
    have h4 : (targets.map Destination.slot).count s = 0 := by
      refine List.count_eq_zero.mpr fun hmem => ?_
      obtain ⟨t, ht, rfl⟩ := List.mem_map.mp hmem
      have := (hres.fresh t ht).1
      omega
    omega
  · rw [(hres.table g hg).1, (hdropped g hg).1]
  · obtain ⟨hkeys, hget⟩ := hdropped g hg
    rw [(hres.table g hg).2 i, hget, if_neg hni]
    rw [hkeys, mem_filter]
    exact ⟨hi, by simpa using hni⟩
  · obtain ⟨g, hg, hid, -, hget⟩ := hres.written t ht
    exact ⟨tables₂, get?_set_self, g, hg, hid, hget⟩
  · have hocc : occurrences { m with
        pool := pool₂
        tables := m.tables.set r.id tables₂
        committed := m.committed.erase r.id
        spans := m.spans.set r.id (windowSpans cfg.layout.groups tables₂) } t.slot + _ = _ + _ :=
      occurrences_set (ownCount_of_get? hknown) rfl t.slot
    have hle := ownCount_le_occurrences m r.id t.slot
    rw [ownCount_of_get? hknown] at hle
    have h1 := hbase t.slot
    have h2 := (hres.fresh t ht).1
    have h3 := hres.count t.slot
    have h4 : (targets.map Destination.slot).count t.slot = 1 :=
      count_eq_one_of_mem hres.nodup (List.mem_map_of_mem ht)
    unfold references at h1
    omega

/-! ## Completion -/

theorem enterAll_spec {refs : Nat → Nat} : ∀ {targets : List Destination}
    {p : SlotPool SlotKey}, p.Ok n refs → (targets.map Destination.slot).Nodup →
    (∀ t ∈ targets, 0 < t.slot ∧ refs t.slot ≠ 0 ∧ (p.blocks t.slot).blockHash = none) →
    let q := targets.foldl (fun pool target => pool.enter target.slot target.key) p
    q.Ok n refs ∧ q.cacheVersion = p.cacheVersion ∧
      (∀ s, s ∉ targets.map Destination.slot → q.blocks s = p.blocks s) ∧
      ∀ t ∈ targets, (q.blocks t.slot).blockHash = some t.key ∧ (q.blocks t.slot).cached = true
  | [], p, h, _, _ => ⟨h, rfl, fun _ _ => rfl, nofun⟩
  | t :: rest, p, h, hnd, hall => by
    rw [map_cons, nodup_cons] at hnd
    obtain ⟨hni, hnd'⟩ := hnd
    obtain ⟨hpos, href, hnone⟩ := hall t mem_cons_self
    have hother : ∀ s, s ≠ t.slot → (p.enter t.slot t.key).blocks s = p.blocks s := by
      intro s hs
      rw [enter_blocks, Function.update_of_ne hs]
    obtain ⟨hok, hver, hrest, hin⟩ := enterAll_spec (h.enter hpos href (.inl hnone)) hnd'
      fun t' ht' => by
        obtain ⟨h1, h2, h3⟩ := hall t' (mem_cons_of_mem _ ht')
        have hne : t'.slot ≠ t.slot := fun he => hni (he ▸ List.mem_map_of_mem ht')
        exact ⟨h1, h2, by rw [hother _ hne]; exact h3⟩
    refine ⟨hok, hver.trans (enter_cacheVersion ..), fun s hs => ?_, fun t' ht' => ?_⟩
    · rw [map_cons, mem_cons, not_or] at hs
      exact (hrest s hs.2).trans (hother s hs.1)
    · rcases mem_cons.mp ht' with rfl | ht'
      · have hself := hrest t'.slot hni
        rw [enter_blocks, Function.update_self] at hself
        rw [foldl_cons, hself]
        exact ⟨rfl, rfl⟩
      · exact hin t' ht'

/-- The end of an import: the targets have their identities, nothing else. -/
structure FinishesImport (cfg : HybridConfig) (leak : Nat → Nat) (m : HybridKVBlockManager) (r : Request)
    (targets : List Destination) (hit : Nat) (m' : HybridKVBlockManager) : Prop where
  inv : Inv cfg leak m'
  tables : m'.tables = m.tables
  plans : m'.plans = m.plans
  transferReferences : m'.transferReferences = m.transferReferences
  published : m'.published = m.published
  versioned : m.pool.Versioned m'.pool
  other : ∀ s, s ∉ targets.map Destination.slot → m'.pool.blocks s = m.pool.blocks s
  entered : ∀ t ∈ targets, (m'.pool.blocks t.slot).blockHash = some t.key ∧
    (m'.pool.blocks t.slot).cached = true
  committed : m'.committed = m.committed.erase r.id
  cachedProgress : m'.cachedProgress = m.cachedProgress.set r.id (hit / cfg.blockSize)

theorem finishExternalImport_spec (hinv : Inv cfg leak m) {targets : List Destination}
    (hpriv : Private cfg m r.id targets) (hit : Nat) :
    FinishesImport cfg leak m r targets hit (m.finishExternalImport cfg r targets hit) := by
  obtain ⟨hok, hver, hother, hin⟩ := enterAll_spec hinv.pool hpriv.nodup fun t ht => by
    have hone := hpriv.sole t ht
    refine ⟨Nat.pos_of_ne_zero fun h0 => ?_, ?_, hpriv.unnamed t ht⟩
    · have := hinv.null
      rw [h0] at hone
      omega
    · unfold references
      omega
  refine ⟨⟨hok.of_map (hok.map.of_eq (fun _ => ⟨rfl, rfl⟩) rfl rfl) (fun _ => rfl) rfl rfl
      (fun _ _ => rfl) hok.null.2 hok.published, hinv.null, hinv.groups, hinv.spans,
      hinv.spans_known⟩, rfl, rfl, rfl, rfl, ⟨?_, fun he => ?_⟩, hother, hin, rfl, rfl⟩
  · exact Nat.le_succ_of_le (le_of_eq hver.symm)
  · have hsucc : (targets.foldl (fun pool target => pool.enter target.slot target.key)
        m.pool).cacheVersion + 1 = m.pool.cacheVersion := he
    omega

/-! ## Transfer references -/

/-- A pin or an unpin changes what transfers hold and nothing else. -/
structure Transfers (cfg : HybridConfig) (leak : Nat → Nat) (m m' : HybridKVBlockManager) :
    Prop where
  inv : Inv cfg leak m'
  sameMap : m.pool.SameMap m'.pool
  tables : m'.tables = m.tables
  plans : m'.plans = m.plans
  committed : m'.committed = m.committed
  cachedProgress : m'.cachedProgress = m.cachedProgress
  published : m'.published = m.published

theorem pinTransfer_spec (hinv : Inv cfg leak m) {slot : Nat} (hs : slot < cfg.numSlots)
    (h : m.pinTransfer slot = .ok m') : Transfers cfg leak m m' := by
  obtain ⟨pool, hpool, h⟩ := bind_eq_ok.mp h
  cases h
  obtain ⟨q, hq, hok, hsame⟩ := hinv.pool.acquire hs
  rw [hpool, ok.injEq] at hq
  subst hq
  refine ⟨{ hinv with pool := hok.congr fun s => ?_ }, hsame, rfl, rfl, rfl, rfl, rfl⟩
  rw [addRefs_singleton]
  unfold references occurrences transfers
  dsimp only
  rw [get?_set]
  by_cases he : s = slot
  · subst he
    simp only [if_pos, getD_some]
    omega
  · simp only [if_neg he]

theorem unpinTransfer_spec (hinv : Inv cfg leak m) {slot : Nat}
    (h : m.unpinTransfer slot = .ok m') : Transfers cfg leak m m' := by
  unfold HybridKVBlockManager.unpinTransfer at h
  dsimp only at h
  rw [ite_throw_eq_ok] at h
  obtain ⟨hcount, h⟩ := h
  obtain ⟨pool, hpool, h⟩ := bind_eq_ok.mp h
  cases h
  have hne : slot ≠ 0 := by
    rintro rfl
    have : m.pool.releaseMany [0] = .error (.simulationState "invalid hybrid slot release") := rfl
    rw [this] at hpool
    cases hpool
  obtain ⟨q, hq, hok, hsame⟩ := hinv.pool.releaseMany [slot]
    (by rw [mem_singleton]; exact fun he => hne he.symm)
    (fun s => by
      simp only [count_cons, count_nil, beq_iff_eq]
      by_cases he : slot = s
      · subst he
        simp only [if_pos, references, transfers]
        omega
      · simp [he])
  rw [hpool, ok.injEq] at hq
  subst hq
  refine ⟨{ hinv with pool := hok.congr fun s => ?_ }, hsame, rfl, rfl, rfl, rfl, rfl⟩
  rw [dropRefs_singleton]
  have hget : ((if (m.transferReferences.get? slot).getD 0 = 1 then
      m.transferReferences.erase slot else m.transferReferences.set slot
        ((m.transferReferences.get? slot).getD 0 - 1)).get? s).getD 0 =
      if s = slot then (m.transferReferences.get? slot).getD 0 - 1
        else (m.transferReferences.get? s).getD 0 := by
    by_cases h1 : (m.transferReferences.get? slot).getD 0 = 1
    · rw [if_pos h1, get?_erase, h1]
      split <;> rfl
    · rw [if_neg h1, get?_set]
      split <;> rfl
  unfold references occurrences transfers
  dsimp only
  rw [hget]
  by_cases he : s = slot
  · subst he
    simp only [if_pos]
    omega
  · simp only [if_neg he]

end TokenSim
