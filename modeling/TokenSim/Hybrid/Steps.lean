import TokenSim.Hybrid.Imports
import TokenSim.Hybrid.World

/-!
# Steps of the world

`WorldOk` is what holds in every world a run reaches: the accounting of the
manager, valid memos of plans, and for a request whose import is under way the
targets of the import still private to it.  It is relative to the references
`leak` that were lost, as `Inv` is.

`Steps` says what each operation can do, in terms of the structures that the
specifications of the operations return; `step_cases` is the inversion of
`World.step`.  Every invariant of runs is a case analysis on `Steps`, and no
proof past this module looks at `World.step` again.
-/

namespace TokenSim

open OrderedDict Option
open World (put_mgr put_phase_of_ne put_reqs_of_ne put_reqs_self)

open HybridKVBlockManager SlotPool

variable {cfg : HybridConfig} {leak : Nat → Nat} {w w' : World}

/-- What holds in every world, with the references `leak` lost. -/
structure WorldOk (cfg : HybridConfig) (leak : Nat → Nat) (w : World) : Prop where
  inv : Inv cfg leak w.mgr
  ids : ∀ rid, (w.reqs rid).id = rid
  memo : ∀ rid, MemoOk cfg w.mgr (w.reqs rid)
  absent : ∀ rid, w.phase rid = .absent ↔ w.mgr.tables.get? rid = none
  loading : ∀ rid targets boundary, w.phase rid = .loading targets boundary →
    Private cfg w.mgr rid targets

/-- What an operation does when it is possible. -/
inductive Steps (cfg : HybridConfig) (leak : Nat → Nat) (w : World) : Op → World → Prop where
  | plan {rid : Nat} {plans : OrderedDict Nat (PlanState × HybridReusePlan)} {r' : Request}
      (request : r' = w.reqs rid ∨ ∃ blocks,
        r' = { w.reqs rid with sharedPrefixBoundaries := [blocks * cfg.blockSize] })
      (others : ∀ i, i ≠ rid → plans.get? i = w.mgr.plans.get? i)
      (memo : MemoOk cfg { w.mgr with plans := plans } (w.reqs rid)) :
      Steps cfg leak w (.plan rid) (w.put { w.mgr with plans := plans } rid r' (w.phase rid))
  | allocate {rid : Nat} {m' : HybridKVBlockManager} {r' : Request} {tables' : GroupTables}
      (phase : w.phase rid = .absent) (admits : Admits cfg leak w.mgr (w.reqs rid) m' r' tables') :
      Steps cfg leak w (.allocate rid) (w.put m' rid r' (.admitted r'.gpuCachedContextTokens))
  | start {rid position hit : Nat} (phase : w.phase rid = .admitted hit) (le : hit ≤ position) :
      Steps cfg leak w (.start rid position)
        (w.put w.mgr rid ((w.reqs rid).startContextBuild position) (.active
          (if ((w.reqs rid).startContextBuild position).numComputedTokens = hit then .localPrefix
            else .handedOver)
          ((w.reqs rid).startContextBuild position).numComputedTokens hit))
  | beginImport {rid hit blocks : Nat} {lookup : SlotKey → Bool} {m' : HybridKVBlockManager}
      {pairs : CacheGroup → List (Nat × SlotKey)} {targets : List Destination}
      {tables tables' : GroupTables} (phase : w.phase rid = .admitted hit)
      (longer : hit / cfg.blockSize < blocks) (bound : blocks ≤ maximumBlocks cfg (w.reqs rid))
      (pages : ∀ g ∈ cfg.layout.groups, (pairs g).map Prod.fst =
        heldPages g (externalPages cfg (hit / cfg.blockSize) blocks g))
      (keys : ∀ g ∈ cfg.layout.groups, ∀ e ∈ pairs g,
        cfg.slotKey (w.reqs rid) g e.1 = .ok (some e.2))
      (imports : Imports cfg leak w.mgr (w.reqs rid) pairs m' targets tables tables') :
      Steps cfg leak w (.beginImport rid lookup)
        (w.put m' rid (w.reqs rid) (.loading targets (blocks * cfg.blockSize)))
  | finishImport {rid boundary : Nat} {targets : List Destination} {m' : HybridKVBlockManager}
      (phase : w.phase rid = .loading targets boundary)
      (finishes : FinishesImport cfg leak w.mgr (w.reqs rid) targets boundary m') :
      Steps cfg leak w (.finishImport rid)
        (w.put m' rid ((w.reqs rid).startContextBuild boundary) (.active .imported
          ((w.reqs rid).startContextBuild boundary).numComputedTokens boundary))
  | ensureSlots {rid scheduled lookahead ensuredAt reach : Nat} {origin : Origin}
      {m' : HybridKVBlockManager} {tables tables' : GroupTables}
      (phase : w.phase rid = .active origin ensuredAt reach)
      (ensures : Ensures cfg leak w.mgr (w.reqs rid)
        (stepEnd cfg (w.reqs rid) scheduled lookahead) m' tables tables') :
      Steps cfg leak w (.ensureSlots rid scheduled lookahead)
        (w.put m' rid (w.reqs rid) (.active origin (w.reqs rid).numComputedTokens
          (max reach (stepEnd cfg (w.reqs rid) scheduled lookahead))))
  | advance {rid position ensuredAt reach : Nat} {origin : Origin}
      (phase : w.phase rid = .active origin ensuredAt reach)
      (le : (w.reqs rid).numComputedTokens ≤ position) (covered : position ≤ reach) :
      Steps cfg leak w (.advance rid position)
        (w.put w.mgr rid { w.reqs rid with numComputedTokens := position } (w.phase rid))
  | generate {rid tokens : Nat} :
      Steps cfg leak w (.generate rid tokens) (w.put w.mgr rid { w.reqs rid with
        generationIdx := (w.reqs rid).generationIdx + tokens
        logicalTokens := (w.reqs rid).logicalTokens + tokens } (w.phase rid))
  | cacheComputed {rid ensuredAt reach : Nat} {origin : Origin} {m' : HybridKVBlockManager}
      {tables : GroupTables} (phase : w.phase rid = .active origin ensuredAt reach)
      (covered : (w.reqs rid).numComputedTokens ≤ reach)
      (known : w.mgr.tables.get? rid = some tables)
      (call : w.mgr.cacheComputed cfg (w.reqs rid) = .ok
        (m', { w.reqs rid with inputCacheCommitted := !(w.reqs rid).isPrefill }))
      (publishes : Publishes cfg (w.reqs rid) (InTables cfg tables) w.mgr m') :
      Steps cfg leak w (.cacheComputed rid) (w.put m' rid
        { w.reqs rid with inputCacheCommitted := !(w.reqs rid).isPrefill } (w.phase rid))
  | release {rid : Nat} {m' : HybridKVBlockManager} {r' : Request}
      (releases : Releases cfg leak w.mgr (w.reqs rid) m' r') :
      Steps cfg leak w (.release rid) (w.put m' rid r' .absent)
  | pin {slot : Nat} {m' : HybridKVBlockManager} (transfers : Transfers cfg leak w.mgr m') :
      Steps cfg leak w (.pin slot) { w with mgr := m' }
  | unpin {slot : Nat} {m' : HybridKVBlockManager} (transfers : Transfers cfg leak w.mgr m') :
      Steps cfg leak w (.unpin slot) { w with mgr := m' }

/-! ## Inversion of a step -/

theorem toOption_eq_some {ε α : Type} {x : Except ε α} {a : α} (h : x.toOption = some a) :
    x = .ok a := by
  cases x with
  | error e => cases h
  | ok b => cases h; rfl

variable {rid : Nat} {op : Op} {m' : HybridKVBlockManager} {r' : Request}

theorem WorldOk.tables_of_phase (h : WorldOk cfg leak w)
    (hp : w.phase rid ≠ .absent) : ∃ tables, w.mgr.tables.get? rid = some tables := by
  cases ht : w.mgr.tables.get? rid with
  | none => exact absurd ((h.absent rid).mpr ht) hp
  | some tables => exact ⟨tables, rfl⟩

theorem nodup_externalPages (base blocks : Nat) (g : CacheGroup) :
    (heldPages g (externalPages cfg base blocks g)).Nodup := by
  refine nodup_heldPages g ?_
  unfold externalPages tailPages
  split <;> exact List.nodup_range'

theorem beginImport_steps {lookup : SlotKey → Bool} (h : WorldOk cfg leak w)
    (hs : World.step cfg w (.beginImport rid lookup) = some w') :
    Steps cfg leak w (.beginImport rid lookup) w' := by
  simp only [World.step] at hs
  split at hs
  · rename_i hit hphase
    obtain ⟨⟨boundary, hits⟩, hplan, hs⟩ := bind_eq_some_iff.mp hs
    obtain ⟨hne, hs⟩ := ite_none_left_eq_some.mp hs
    obtain ⟨⟨m', targets⟩, hdest, ⟨⟩⟩ := bind_eq_some_iff.mp hs
    obtain ⟨blocks, hlt, hle, rfl, hits⟩ :=
      planExternalReuse_spec (toOption_eq_some hplan) hne
    obtain ⟨pairs, rfl, hall⟩ := hits.listed
    obtain ⟨tables, tables', himp⟩ := allocateExternalDestinations_spec h.inv
      (fun g hg => (hall g hg).1 ▸ nodup_externalPages ..) (toOption_eq_some hdest)
    refine .beginImport hphase hlt hle (fun g hg => (hall g hg).1) (fun g hg e he => ?_) himp
    obtain ⟨key, hkey, hfound⟩ := (hall g hg).2 e he
    obtain ⟨-, ⟨⟩⟩ := ite_none_right_eq_some.mp hfound
    exact hkey
  · cases hs

/-- The operations on a request that computes. -/
theorem active_steps (h : WorldOk cfg leak w) (hs : World.step cfg w op = some w')
    (hop : match op with
      | .ensureSlots _ _ _ | .advance _ _ | .cacheComputed _ => True
      | _ => False) : Steps cfg leak w op w' := by
  cases op with
  | ensureSlots rid scheduled lookahead =>
    simp only [World.step] at hs
    split at hs
    · rename_i origin ensuredAt reach hphase
      obtain ⟨able, -, hs⟩ := bind_eq_some_iff.mp hs
      obtain ⟨-, hs⟩ := ite_none_right_eq_some.mp hs
      obtain ⟨m', hens, ⟨⟩⟩ := bind_eq_some_iff.mp hs
      obtain ⟨tables, tables', hens⟩ := ensureSlots_spec h.inv (toOption_eq_some hens)
      exact .ensureSlots hphase hens
    · cases hs
  | advance rid position =>
    simp only [World.step] at hs
    split at hs
    · rename_i origin ensuredAt reach hphase
      obtain ⟨hle, ⟨⟩⟩ := ite_none_right_eq_some.mp hs
      exact .advance hphase hle.1 hle.2
    · cases hs
  | cacheComputed rid =>
    simp only [World.step] at hs
    split at hs
    · rename_i origin ensuredAt reach hphase
      obtain ⟨hle, hs⟩ := ite_none_right_eq_some.mp hs
      obtain ⟨⟨m', r'⟩, hcall, ⟨⟩⟩ := bind_eq_some_iff.mp hs
      obtain ⟨tables, htables⟩ := h.tables_of_phase (by rw [hphase]; simp)
      have hcall' := toOption_eq_some hcall
      obtain ⟨hpub, rfl⟩ := cacheComputed_spec (by rw [h.ids]; exact htables) hcall'
      exact .cacheComputed hphase hle htables hcall' hpub
    · cases hs
  | _ => exact hop.elim

theorem step_cases (h : WorldOk cfg leak w) (hs : World.step cfg w op = some w') :
    Steps cfg leak w op w' := by
  cases op with
  | plan rid =>
    obtain ⟨⟨m', r', plan⟩, hplan, ⟨⟩⟩ := bind_eq_some_iff.mp hs
    obtain ⟨-, hr, ⟨plans, rfl, hothers⟩, hmemo⟩ :=
      planReuse_spec (h.memo rid) (toOption_eq_some hplan)
    rw [h.ids] at hothers
    exact .plan hr hothers hmemo
  | allocate rid =>
    simp only [World.step] at hs
    split at hs
    · rename_i hphase
      obtain ⟨⟨m', r'⟩, halloc, ⟨⟩⟩ := bind_eq_some_iff.mp hs
      obtain ⟨tables', hadm⟩ := allocate_spec h.inv (h.memo rid) (toOption_eq_some halloc)
      exact .allocate hphase hadm
    · cases hs
  | start rid position =>
    simp only [World.step] at hs
    split at hs
    · rename_i hit hphase
      obtain ⟨hle, ⟨⟩⟩ := ite_none_right_eq_some.mp hs
      exact .start hphase hle
    · cases hs
  | beginImport rid lookup => exact beginImport_steps h hs
  | finishImport rid =>
    simp only [World.step] at hs
    split at hs
    · rename_i targets boundary hphase
      cases hs
      refine .finishImport hphase (finishExternalImport_spec h.inv ?_ boundary)
      rw [h.ids]
      exact h.loading rid targets boundary hphase
    · cases hs
  | generate rid tokens =>
    cases hs
    exact .generate
  | release rid =>
    obtain ⟨⟨m', r'⟩, hrel, ⟨⟩⟩ := bind_eq_some_iff.mp hs
    exact .release (releaseRequestBlocks_spec h.inv (toOption_eq_some hrel))
  | pin slot =>
    obtain ⟨hlt, hs⟩ := ite_none_right_eq_some.mp hs
    obtain ⟨m', hpin, ⟨⟩⟩ := bind_eq_some_iff.mp hs
    exact .pin (pinTransfer_spec h.inv hlt (toOption_eq_some hpin))
  | unpin slot =>
    obtain ⟨m', hpin, ⟨⟩⟩ := bind_eq_some_iff.mp hs
    exact .unpin (unpinTransfer_spec h.inv (toOption_eq_some hpin))
  | _ => exact active_steps h hs trivial

/-! ## What an operation leaves to others -/

section Others

variable {m m' : HybridKVBlockManager} {i s : Nat} {tables tables' : GroupTables}
  {targets : List Destination} {r : Request}

theorem ownCount_add_le (hne : i ≠ rid) (s : Nat) :
    ownCount m rid s + ownCount m i s ≤ occurrences m s := by
  have hall := occurrences_eq m rid s
  have hle : ownCount m i s ≤ (m.tables.erase rid).sum (fun _ t => tablesCount t s) := by
    cases hi : m.tables.get? i with
    | none =>
      rw [ownCount, hi]
      exact Nat.zero_le _
    | some tables =>
      have := sum_erase_of_get? ((get?_erase_of_ne hne).trans hi) fun _ t => tablesCount t s
      rw [ownCount_of_get? hi]
      omega
  omega

/-- The targets of an import are in the tables of its request, and in no other. -/
theorem Private.counts (h : Private cfg m i targets) (hinv : Inv cfg leak m) {t : Destination}
    (hmem : t ∈ targets) : 0 < ownCount m i t.slot ∧ ∀ rid, i ≠ rid → ownCount m rid t.slot = 0 := by
  obtain ⟨own, hown, g, hg, -, hget⟩ := h.held t hmem
  have hpos : 0 < ownCount m i t.slot := by
    rw [ownCount_of_get? hown]
    exact hinv.tablesCount_pos hown hg hget
  refine ⟨hpos, fun rid hne => ?_⟩
  have hle : ownCount m rid t.slot + ownCount m i t.slot ≤ _ := ownCount_add_le hne t.slot
  have hsole := h.sole t hmem
  omega

/-- What an operation on a request leaves to all others. -/
structure Spares (m : HybridKVBlockManager) (rid : Nat) (m' : HybridKVBlockManager) : Prop where
  versioned : m.pool.Versioned m'.pool
  tables : m'.tables.erase rid = m.tables.erase rid
  plans : ∀ i, i ≠ rid → m'.plans.get? i = m.plans.get? i
  committed : ∀ i, i ≠ rid → m'.committed.get? i = m.committed.get? i
  cachedProgress : ∀ i, i ≠ rid → m'.cachedProgress.get? i = m.cachedProgress.get? i
  transferReferences : m'.transferReferences = m.transferReferences
  /-- Published slots that others hold stay published. -/
  cached : ∀ s, ownCount m rid s < references m s → (m.pool.blocks s).cached = true →
    (m'.pool.blocks s).cached = true ∧
      (m'.pool.blocks s).blockHash = (m.pool.blocks s).blockHash
  /-- Slots without identity that only others hold stay theirs. -/
  unnamed : ∀ s, ownCount m rid s = 0 → references m s ≠ 0 →
    (m.pool.blocks s).blockHash = none →
    ownCount m' rid s = 0 ∧ (m'.pool.blocks s).blockHash = none

namespace Spares

theorem get? (h : Spares m rid m') (hi : i ≠ rid) : m'.tables.get? i = m.tables.get? i := by
  rw [← get?_erase_of_ne hi, h.tables, get?_erase_of_ne hi]

theorem occurrences (h : Spares m rid m') (s : Nat) :
    occurrences m' s + ownCount m rid s = TokenSim.occurrences m s + ownCount m' rid s := by
  have hbefore := occurrences_eq m rid s
  have hafter := occurrences_eq m' rid s
  rw [h.tables] at hafter
  omega

theorem isPrivate (h : Spares m rid m') (hinv : Inv cfg leak m) (hi : i ≠ rid)
    (hp : Private cfg m i targets) : Private cfg m' i targets := by
  have hstay : ∀ t ∈ targets, ownCount m rid t.slot = 0 ∧ ownCount m' rid t.slot = 0 ∧
      (m'.pool.blocks t.slot).blockHash = none := by
    intro t ht
    have hown := (hp.counts hinv ht).2 rid hi
    have hsole := hp.sole t ht
    exact ⟨hown, h.unnamed t.slot hown (by unfold references; omega) (hp.unnamed t ht)⟩
  refine ⟨hp.nodup, fun t ht => ?_, fun t ht => ?_, fun t ht => (hstay t ht).2.2⟩
  · rw [h.get? hi]
    exact hp.held t ht
  · obtain ⟨hold, hnew, -⟩ := hstay t ht
    have heq := h.occurrences t.slot
    have hsole := hp.sole t ht
    omega

theorem replan {plans : OrderedDict Nat (PlanState × HybridReusePlan)}
    (hplans : ∀ i, i ≠ rid → plans.get? i = m.plans.get? i) :
    Spares m rid { m with plans := plans } :=
  ⟨.refl _, rfl, hplans, fun _ _ => rfl, fun _ _ => rfl, rfl, fun _ _ hc => ⟨hc, rfl⟩,
    fun _ hown _ hname => ⟨hown, hname⟩⟩

end Spares

/-- The pages of an admitted request are found under their keys. -/
theorem Admits.page (h : Admits cfg leak m r m' r' tables') {g : CacheGroup}
    (hg : g ∈ cfg.layout.groups) {j : Nat} (hj : (tableOf tables' g).get? j = some s) :
    ∃ key, cfg.slotKey r g j = .ok (some key) ∧ m.pool.cache.get? key = some s := by
  rcases h.admitted with ⟨-, hempty⟩ | ⟨blocks, -, -, -, hall⟩
  · rw [get?_eq_some_iff, hempty g hg] at hj
    exact (List.not_mem_nil hj).elim
  · exact (hall g hg).2 j s hj

/-- They have identities, so none is a target. -/
theorem Admits.not_target (h : Admits cfg leak m r m' r' tables')
    (hinv : Inv cfg leak m) (hname : (m.pool.blocks s).blockHash = none) :
    tablesCount tables' s = 0 := by
  by_contra hpos
  obtain ⟨g, hg, j, hget⟩ : ∃ g ∈ cfg.layout.groups, ∃ j, (tableOf tables' g).get? j = some s := by
    obtain ⟨gid, table, htable, hcount⟩ := mem_of_tablesCount_pos (Nat.pos_of_ne_zero hpos)
    obtain ⟨j, hj⟩ := mem_of_slotCount_pos hcount
    have hkeys := h.inv.groups r.id tables' (by
      rw [h.tables]; exact get?_set_self)
    have hmem : gid ∈ cfg.layout.groups.map CacheGroup.groupId :=
      hkeys ▸ mem_keys_iff.mpr ⟨table, htable⟩
    obtain ⟨g, hg, rfl⟩ := List.mem_map.mp hmem
    refine ⟨g, hg, j, ?_⟩
    rw [tableOf, htable]
    exact hj
  obtain ⟨key, -, hkey⟩ := h.page hg hget
  rw [(hinv.slot_of_cache hkey).2.2] at hname
  cases hname

theorem Admits.spares (h : Admits cfg leak m r m' r' tables') (hinv : Inv cfg leak m) :
    Spares m r.id m' where
  versioned := h.sameMap.versioned
  tables := by rw [h.tables, erase_set_self]
  plans := h.plans
  committed i hi := by rw [h.committed, get?_erase_of_ne hi]
  cachedProgress i hi := by rw [h.cachedProgress, get?_set_of_ne hi]
  transferReferences := h.transferReferences
  cached s _ hc := ⟨(h.sameMap.cached s).trans hc, h.sameMap.blockHash s⟩
  unnamed s _ _ hname := by
    rw [ownCount_of_get? (h.tables ▸ get?_set_self)]
    exact ⟨h.not_target hinv hname, (h.sameMap.blockHash s).trans hname⟩

/-- The request gets other tables.  Slots that others hold keep their identity and are
not handed out again. -/
structure Retables (m : HybridKVBlockManager) (rid : Nat) (m' : HybridKVBlockManager)
    (tables tables' : GroupTables) : Prop where
  known : m.tables.get? rid = some tables
  tables_eq : m'.tables = m.tables.set rid tables'
  records : SameRecords m m'
  carries : Carries (fun s => tablesCount tables s < references m s) m.pool m'.pool
  foreign : ∀ s, tablesCount tables s < references m s →
    tablesCount tables' s ≤ tablesCount tables s
  committed : m'.committed = m.committed.erase rid ∨ m'.committed = m.committed

theorem Imports.retables {pairs : CacheGroup → List (Nat × SlotKey)}
    (h : Imports cfg leak m r pairs m' targets tables tables') (hid : r.id = rid) :
    Retables m rid m' tables tables' := by
  subst hid
  exact ⟨h.known, h.tables_eq, h.records, h.carries.mono fun _ => .inl, h.foreign, .inl h.committed⟩

theorem Ensures.retables {stop : Nat}
    (h : Ensures cfg leak m r stop m' tables tables') (hid : r.id = rid) :
    Retables m rid m' tables tables' := by
  subst hid
  exact ⟨h.known, h.tables_eq, h.records, h.carries.mono fun _ => .inl, h.foreign,
    h.committed.imp_right And.left⟩

theorem Retables.get?_self (h : Retables m rid m' tables tables') :
    m'.tables.get? rid = some tables' := by rw [h.tables_eq, get?_set_self]

theorem Retables.spares (h : Retables m rid m' tables tables') : Spares m rid m' where
  versioned := h.carries.versioned
  tables := by rw [h.tables_eq, erase_set_self]
  plans i _ := by rw [h.records.plans]
  committed i hi := by
    rcases h.committed with he | he
    · rw [he, get?_erase_of_ne hi]
    · rw [he]
  cachedProgress i _ := by rw [h.records.cachedProgress]
  transferReferences := h.records.transferReferences
  cached s hs hc := by
    rw [ownCount_of_get? h.known] at hs
    obtain ⟨hhash, hcached⟩ := h.carries.kept s hs
    exact ⟨hcached.trans hc, hhash⟩
  unnamed s hown href hname := by
    rw [ownCount_of_get? h.known] at hown
    have hle := h.foreign s (by omega)
    rw [ownCount_of_get? h.get?_self]
    exact ⟨by omega, h.carries.unnamed s hname⟩

theorem FinishesImport.spares {hit : Nat} (h : FinishesImport cfg leak m r targets hit m')
    (hinv : Inv cfg leak m) (hp : Private cfg m r.id targets) : Spares m r.id m' where
  versioned := h.versioned
  tables := by rw [h.tables]
  plans i _ := by rw [h.plans]
  committed i hi := by rw [h.committed, get?_erase_of_ne hi]
  cachedProgress i hi := by rw [h.cachedProgress, get?_set_of_ne hi]
  transferReferences := h.transferReferences
  cached s _ hc := by
    rw [h.other s]
    · exact ⟨hc, rfl⟩
    · intro hmem
      obtain ⟨t, ht, rfl⟩ := List.mem_map.mp hmem
      exact (hinv.pool.map.cached_iff t.slot).mp hc (hp.unnamed t ht)
  unnamed s hown _ hname := by
    rw [ownCount, h.tables, h.other s]
    · exact ⟨hown, hname⟩
    · intro hmem
      obtain ⟨t, ht, rfl⟩ := List.mem_map.mp hmem
      have := (hp.counts hinv ht).1
      omega

theorem Publishes.spares (h : Publishes cfg r (InTables cfg tables) m m')
    (hinv : Inv cfg leak m) (known : m.tables.get? r.id = some tables) : Spares m r.id m' where
  versioned := h.versioned
  tables := by rw [h.tables]
  plans i _ := by rw [h.plans]
  committed := h.committed
  cachedProgress := h.cachedProgress
  transferReferences := h.transferReferences
  cached s _ hc := h.cached s hc
  unnamed s hown _ hname := by
    rw [ownCount, h.tables, h.other s]
    · exact ⟨hown, hname⟩
    · rintro g j ⟨hg, hget⟩
      have := hinv.tablesCount_pos known hg hget
      rw [ownCount_of_get? known] at hown
      omega

theorem Releases.spares (h : Releases cfg leak m r m' r') : Spares m r.id m' where
  versioned := h.sameMap.versioned
  tables := by rw [h.tables, erase_erase_self]
  plans i hi := by rw [h.plans, get?_erase_of_ne hi]
  committed i hi := by rw [h.committed, get?_erase_of_ne hi]
  cachedProgress i hi := by rw [h.cachedProgress, get?_erase_of_ne hi]
  transferReferences := h.transferReferences
  cached s _ hc := ⟨(h.sameMap.cached s).trans hc, h.sameMap.blockHash s⟩
  unnamed s _ _ hname := by
    rw [ownCount, h.tables, get?_erase_self]
    exact ⟨rfl, (h.sameMap.blockHash s).trans hname⟩

end Others

/-- The request that an operation is about. -/
def Op.subject : Op → Option Nat
  | .plan rid | .allocate rid | .start rid _ | .beginImport rid _ | .finishImport rid
  | .ensureSlots rid _ _ | .advance rid _ | .generate rid _ | .cacheComputed rid
  | .release rid => some rid
  | .pin _ | .unpin _ => none

theorem Steps.spares (h : WorldOk cfg leak w) (hs : Steps cfg leak w op w')
    (hsub : op.subject = some rid) :
    Spares w.mgr rid w'.mgr ∧ ∀ i, i ≠ rid → w'.reqs i = w.reqs i ∧ w'.phase i = w.phase i := by
  have hput : ∀ {m' r' phase'}, Spares w.mgr rid m' → Spares w.mgr rid (w.put m' rid r' phase').mgr ∧
      ∀ i, i ≠ rid → (w.put m' rid r' phase').reqs i = w.reqs i ∧
        (w.put m' rid r' phase').phase i = w.phase i :=
    fun hsp => ⟨hsp, fun i hi => ⟨put_reqs_of_ne hi, put_phase_of_ne hi⟩⟩
  have hid := h.ids rid
  cases hs with
  | pin | unpin => cases hsub
  | plan _ others => cases hsub; exact hput (.replan others)
  | allocate _ admits => cases hsub; exact hput (hid ▸ admits.spares h.inv)
  | beginImport _ _ _ _ _ imports => cases hsub; exact hput (imports.retables hid).spares
  | finishImport phase finishes =>
    cases hsub
    refine hput (hid ▸ finishes.spares h.inv ?_)
    rw [hid]
    exact h.loading rid _ _ phase
  | ensureSlots _ ensures => cases hsub; exact hput (ensures.retables hid).spares
  | cacheComputed _ _ known _ publishes =>
    cases hsub
    exact hput (hid ▸ publishes.spares h.inv (by rw [hid]; exact known))
  | release releases => cases hsub; exact hput (hid ▸ releases.spares)
  | _ => cases hsub; exact hput (.replan fun _ _ => rfl)

/-- A request that a step is not about keeps everything; published pages in its
tables stay published. -/
structure Undisturbed (w w' : World) (i : Nat) : Prop where
  request : w'.reqs i = w.reqs i
  phase : w'.phase i = w.phase i
  tables : w'.mgr.tables.get? i = w.mgr.tables.get? i
  committed : w'.mgr.committed.get? i = w.mgr.committed.get? i
  cachedProgress : w'.mgr.cachedProgress.get? i = w.mgr.cachedProgress.get? i
  cached : ∀ tables, w.mgr.tables.get? i = some tables → ∀ s, 0 < tablesCount tables s →
    (w.mgr.pool.blocks s).cached = true → (w'.mgr.pool.blocks s).cached = true ∧
      (w'.mgr.pool.blocks s).blockHash = (w.mgr.pool.blocks s).blockHash

theorem undisturbed_of_transfers (h : Transfers cfg leak w.mgr m')
    (i : Nat) : Undisturbed w { w with mgr := m' } i :=
  ⟨rfl, rfl, by rw [h.tables], by rw [h.committed], by rw [h.cachedProgress],
    fun _ _ s _ hs => ⟨(h.sameMap.cached s).trans hs, h.sameMap.blockHash s⟩⟩

theorem Steps.undisturbed {i : Nat} (h : WorldOk cfg leak w)
    (hs : Steps cfg leak w op w') (hi : op.subject ≠ some i) : Undisturbed w w' i := by
  cases hsub : op.subject with
  | none =>
    cases hs with
    | pin transfers | unpin transfers => exact undisturbed_of_transfers transfers i
    | _ => cases hsub
  | some rid =>
    have hne : i ≠ rid := fun he => hi (by rw [hsub, he])
    obtain ⟨hsp, hsame⟩ := hs.spares h hsub
    refine ⟨(hsame i hne).1, (hsame i hne).2, hsp.get? hne, hsp.committed i hne,
      hsp.cachedProgress i hne, fun tables ht s hs hc => hsp.cached s ?_ hc⟩
    -- what both requests hold is held by others than `rid`
    have hle : ownCount w.mgr rid s + ownCount w.mgr i s ≤ _ := ownCount_add_le hne s
    rw [ownCount_of_get? ht] at hle
    unfold references
    omega

/-! ## Preservation -/

theorem Progress.of_plan {r : Request} (h : r' = r ∨ ∃ blocks : Nat,
    r' = { r with sharedPrefixBoundaries := [blocks * cfg.blockSize] }) : Progress r r' := by
  rcases h with rfl | ⟨blocks, rfl⟩
  · exact .refl _
  · exact { Progress.refl _ with }

theorem Progress.generate (r : Request) (tokens : Nat) :
    Progress r { r with
      generationIdx := r.generationIdx + tokens
      logicalTokens := r.logicalTokens + tokens } := by
  refine ⟨⟨rfl, rfl, rfl, rfl, rfl, rfl, rfl, ?_⟩, rfl, fun he => ?_⟩
  · simp only [Request.contextLen]
    omega
  · -- a context of the same length is a context without new tokens
    have : tokens = 0 := by
      simp only [Request.contextLen] at he
      omega
    subst this
    rfl

theorem Steps.progress (hs : Steps cfg leak w op w') (i : Nat) :
    Progress (w.reqs i) (w'.reqs i) := by
  have hput : ∀ {m : HybridKVBlockManager} {rid : Nat} {r' : Request} {phase : Phase},
      Progress (w.reqs rid) r' → Progress (w.reqs i) ((w.put m rid r' phase).reqs i) := by
    intro m rid r' phase h
    by_cases hi : i = rid
    · subst hi
      rw [put_reqs_self]
      exact h
    · rw [put_reqs_of_ne hi]
      exact .refl _
  cases hs with
  | plan request => exact hput (Progress.of_plan request)
  | allocate _ admits => exact hput admits.progress
  | generate => exact hput (Progress.generate _ _)
  | release releases =>
    rcases releases.request with rfl | rfl
    · exact hput (.refl _)
    · exact hput { Progress.refl _ with }
  | pin | unpin => exact .refl _
  | _ => exact hput { Progress.refl _ with }

section

variable {leak' : Nat → Nat} {phase' : Phase} (h : WorldOk cfg leak w)
include h

/-- A step of one request keeps what holds of the others. -/
theorem WorldOk.put (hinv : Inv cfg leak' m') (hsp : Spares w.mgr rid m') (hid : r'.id = rid)
    (hmemo : MemoOk cfg m' r') (habsent : phase' = .absent ↔ m'.tables.get? rid = none)
    (hloading : ∀ targets boundary, phase' = .loading targets boundary → Private cfg m' rid targets) :
    WorldOk cfg leak' (w.put m' rid r' phase') := by
  refine ⟨hinv, fun i => ?_, fun i => ?_, fun i => ?_, fun i targets boundary hp => ?_⟩ <;>
    by_cases hi : i = rid
  · rw [hi, put_reqs_self, hid]
  · rw [put_reqs_of_ne hi, h.ids]
  · rw [hi, put_reqs_self]
    exact hmemo
  · rw [put_reqs_of_ne hi]
    refine (h.memo i).mono (.refl _) hsp.versioned fun e he => ?_
    rw [h.ids] at he ⊢
    exact (hsp.plans i hi).symm.trans he
  · rw [hi, World.put_phase_self]
    exact habsent
  · rw [put_phase_of_ne hi, put_mgr, hsp.get? hi]
    exact h.absent i
  · rw [hi] at hp ⊢
    rw [World.put_phase_self] at hp
    exact hloading targets boundary hp
  · rw [put_phase_of_ne hi] at hp
    exact hsp.isPrivate h.inv hi (h.loading i targets boundary hp)

/-- The same for a step that leaves the plans alone and keeps the request known. -/
theorem WorldOk.carry (hinv : Inv cfg leak' m') (hsp : Spares w.mgr rid m')
    (hprog : Progress (w.reqs rid) r') (hplans : m'.plans = w.mgr.plans)
    (habsent : phase' = .absent ↔ m'.tables.get? rid = none)
    (hloading : ∀ targets boundary, phase' = .loading targets boundary → Private cfg m' rid targets) :
    WorldOk cfg leak' (w.put m' rid r' phase') := by
  refine h.put hinv hsp (hprog.id.trans (h.ids rid)) ?_ habsent hloading
  exact (h.memo rid).mono hprog hsp.versioned fun e he => hplans ▸ he

theorem WorldOk.retable {tables tables' : GroupTables} (hinv : Inv cfg leak' m')
    (ht : Retables w.mgr rid m' tables tables') (hphase : phase' ≠ .absent)
    (hloading : ∀ targets boundary, phase' = .loading targets boundary →
      Private cfg m' rid targets) :
    WorldOk cfg leak' (w.put m' rid (w.reqs rid) phase') := by
  refine h.carry hinv ht.spares (.refl _) ht.records.plans ?_ hloading
  rw [ht.get?_self]
  exact ⟨fun he => absurd he hphase, nofun⟩

end

theorem WorldOk.transfer (h : WorldOk cfg leak w)
    (ht : Transfers cfg leak w.mgr m') : WorldOk cfg leak { w with mgr := m' } where
  inv := ht.inv
  ids := h.ids
  memo rid := (h.memo rid).mono (.refl _) ht.sameMap.versioned
    fun e he => ht.plans ▸ he
  absent rid := by
    rw [show ({ w with mgr := m' } : World).mgr.tables = w.mgr.tables from ht.tables]
    exact h.absent rid
  loading rid targets boundary hp := by
    have hprivate := h.loading rid targets boundary hp
    refine ⟨hprivate.nodup, ?_, fun t hmem => ?_, fun t hmem => ?_⟩
    · rw [ht.tables]
      exact hprivate.held
    · unfold occurrences
      rw [ht.tables]
      exact hprivate.sole t hmem
    · exact (ht.sameMap.blockHash t.slot).trans (hprivate.unnamed t hmem)

/-- Growing a request is harmless when its full tables have no gap. -/
def GrowsTight (cfg : HybridConfig) (w : World) : Op → Prop
  | .ensureSlots rid _ _ => ∀ tables, w.mgr.tables.get? rid = some tables → TightTables cfg tables
  | _ => True

/-- A step keeps what holds in every world.  References are lost only when a
request with a gap in a full table grows. -/
theorem Steps.worldOk (h : WorldOk cfg leak w) (hs : Steps cfg leak w op w') :
    ∃ leak', WorldOk cfg leak' w' ∧ (GrowsTight cfg w op → ∀ s, leak' s = leak s) := by
  have hsp := fun rid (hsub : op.subject = some rid) => (hs.spares h hsub).1
  cases hs with
  | @plan rid _ _ request others memo =>
    refine ⟨leak, h.put ?_ (hsp rid rfl) ?_ ?_ (h.absent rid) fun targets boundary hp => ?_,
      fun _ _ => rfl⟩
    · exact ⟨h.inv.pool, h.inv.null, h.inv.groups, h.inv.spans, h.inv.spans_known⟩
    · rw [(Progress.of_plan request).id, h.ids]
    · exact memo.mono (Progress.of_plan request) (.refl _) fun e he => he
    · have hprivate := h.loading rid targets boundary hp
      exact ⟨hprivate.nodup, hprivate.held, hprivate.sole, hprivate.unnamed⟩
  | @allocate rid _ _ _ _ admits =>
    refine ⟨leak, h.put admits.inv (hsp rid rfl) (admits.progress.id.trans (h.ids rid))
      admits.memo ?_ (by rintro _ _ ⟨⟩), fun _ _ => rfl⟩
    rw [admits.tables, h.ids, get?_set_self]
    simp
  | @start rid _ _ phase =>
    exact ⟨leak, h.carry h.inv (hsp rid rfl) { Progress.refl _ with } rfl
      (by simpa [phase] using h.absent rid) (by rintro _ _ ⟨⟩), fun _ _ => rfl⟩
  | @beginImport rid _ _ _ _ _ _ _ _ _ _ _ _ _ imports =>
    have hprivate := imports.isPrivate
    rw [h.ids] at hprivate
    refine ⟨leak, h.retable imports.inv (imports.retables (h.ids rid)) (by simp)
      fun targets' boundary hp => ?_, fun _ _ => rfl⟩
    cases hp
    exact hprivate
  | @finishImport rid _ _ _ phase finishes =>
    refine ⟨leak, h.carry finishes.inv (hsp rid rfl) { Progress.refl _ with } finishes.plans ?_
      (by rintro _ _ ⟨⟩), fun _ _ => rfl⟩
    rw [finishes.tables]
    simpa [phase] using h.absent rid
  | @ensureSlots rid _ _ _ _ _ _ tables _ _ ensures =>
    obtain ⟨leak', hinv', hleak⟩ := ensures.inv
    have ht := ensures.retables (h.ids rid)
    exact ⟨leak', h.retable hinv' ht (by simp) (by rintro _ _ ⟨⟩), fun htight => hleak (htight tables ht.known)⟩
  | @advance rid =>
    exact ⟨leak, h.carry h.inv (hsp rid rfl) { Progress.refl _ with } rfl (h.absent rid)
      (h.loading rid), fun _ _ => rfl⟩
  | @generate rid =>
    exact ⟨leak, h.carry h.inv (hsp rid rfl) (Progress.generate _ _) rfl (h.absent rid)
      (h.loading rid), fun _ _ => rfl⟩
  | @cacheComputed rid _ _ _ _ tables phase _ known _ publishes =>
    have hknown : w.mgr.tables.get? (w.reqs rid).id = some tables := by rw [h.ids]; exact known
    refine ⟨leak, h.carry (h.inv.publishes hknown publishes) (hsp rid rfl) { Progress.refl _ with }
      publishes.plans ?_ (by rw [phase]; rintro _ _ ⟨⟩), fun _ _ => rfl⟩
    rw [publishes.tables]
    exact h.absent rid
  | @release rid _ r' releases =>
    have hprog : Progress (w.reqs rid) r' := by
      rcases releases.request with rfl | rfl
      · exact .refl _
      · exact { Progress.refl _ with }
    refine ⟨leak, h.put releases.inv (hsp rid rfl) (hprog.id.trans (h.ids rid)) ?_ ?_
      (by rintro _ _ ⟨⟩), fun _ _ => rfl⟩
    · refine (h.memo rid).mono hprog releases.sameMap.versioned fun e he => ?_
      rw [releases.plans, get?_erase_self] at he
      cases he
    · rw [releases.tables, h.ids, get?_erase_self]
      exact ⟨fun _ => rfl, fun _ => rfl⟩
  | pin transfers | unpin transfers => exact ⟨leak, h.transfer transfers, fun _ _ => rfl⟩

end TokenSim
