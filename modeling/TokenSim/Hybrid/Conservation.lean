import TokenSim.Hybrid.Shape

/-!
# Conservation of slots

No slot is lost and none is counted twice: every reference count is accounted
for by a table or a transfer, every slot without references is in the free
queue once and on the right side of it, and the prefix map holds exactly the
published blocks.

Conservation is kept by every step but one.  `ensureSlots` grows a full table
from its length on, and when the table has a gap this overwrites a page that is
never released.  A gap arises when a local prefix of a full EAGLE group, whose
last page is left out, is continued by an import.
-/

namespace TokenSim

open List

open SlotPool

variable {cfg : HybridConfig} {leak : Nat → Nat} {m : HybridKVBlockManager} {w w' : World}

/-- All slots are accounted for. -/
structure Conserved (cfg : HybridConfig) (m : HybridKVBlockManager) : Prop where
  refCount : ∀ s, 0 < s → s < cfg.numSlots →
    (m.pool.blocks s).refCount = occurrences m s + transfers m s
  /-- A slot without references is in the free queue, once. -/
  free : ∀ s, 0 < s → s < cfg.numSlots → ((m.pool.blocks s).refCount = 0 ↔
    m.pool.freeUncached.count s + m.pool.freeCached.count s = 1)
  /-- A slot with references is not. -/
  held : ∀ s, 0 < s → s < cfg.numSlots → (m.pool.blocks s).refCount ≠ 0 →
    m.pool.freeUncached.count s = 0 ∧ m.pool.freeCached.count s = 0
  /-- The identity of a free slot decides on which side it is. -/
  side : ∀ s, 0 < s → s < cfg.numSlots → (m.pool.blocks s).refCount = 0 →
    (s ∈ m.pool.freeCached ↔ (m.pool.blocks s).blockHash ≠ none)
  /-- A recorded span is the ordered list of the indices of its window table. -/
  spans : ∀ rid spans, m.spans.get? rid = some spans → ∃ tables, m.tables.get? rid = some tables ∧
    spans.length = cfg.layout.groups.length ∧
    ∀ (i : Nat) (g : CacheGroup) (first top : Nat), cfg.layout.groups[i]? = some g →
      spans[i]? = some (some (first, top)) → g.windowTokens ≠ 0 ∧
        (tableOf tables g).keys = List.range' first (top - first)
  /-- A cached block is one entry under its identity: the primary one or a copy. -/
  cached : ∀ s, (m.pool.blocks s).cached = true → ∃ key, (m.pool.blocks s).blockHash = some key ∧
    (m.pool.cache.get? key = some s ∧ (m.pool.copies key).count s = 0 ∨
      m.pool.cache.get? key ≠ some s ∧ (m.pool.copies key).count s = 1)
  /-- An entry names a cached block with the key as its identity. -/
  entries : ∀ key s, m.pool.cache.get? key = some s ∨ s ∈ m.pool.copies key →
    (m.pool.blocks s).cached = true ∧ (m.pool.blocks s).blockHash = some key

theorem Inv.conserved (h : Inv cfg leak m) (hleak : ∀ s, leak s = 0) : Conserved cfg m := by
  have href : ∀ s, 0 < s → (m.pool.blocks s).refCount = references m s := fun s hs => by
    rw [h.pool.ref_eq s hs, hleak, add_zero]
  have hmem : ∀ s, 0 < s → s < cfg.numSlots →
      (s ∈ m.pool.freeUncached ++ m.pool.freeCached ↔ (m.pool.blocks s).refCount = 0) := by
    intro s hs hlt
    rw [h.pool.mem_free, h.pool.ref_eq s hs]
    exact ⟨fun hfree => hfree.2.2, fun h0 => ⟨hs, hlt, h0⟩⟩
  have hcount : ∀ s, m.pool.freeUncached.count s + m.pool.freeCached.count s =
      (m.pool.freeUncached ++ m.pool.freeCached).count s := fun s => count_append.symm
  refine ⟨fun s hs _ => href s hs, fun s hs hlt => ?_, fun s hs hlt hne => ?_,
    fun s hs hlt h0 => ?_, fun rid spans hspans => ?_, fun s hs => ?_, fun key s hs => ?_⟩
  · rw [← hmem s hs hlt, hcount]
    refine ⟨fun hfree => count_eq_one_of_mem h.pool.free_nodup hfree, fun hone => ?_⟩
    exact count_pos_iff.mp (by omega)
  · have := List.count_eq_zero.mpr fun hfree => hne ((hmem s hs hlt).mp hfree)
    rw [← hcount] at this
    omega
  · refine ⟨h.pool.free_cached s, fun hname => ?_⟩
    rcases mem_append.mp ((hmem s hs hlt).mpr h0) with hfree | hfree
    · exact absurd (h.pool.free_uncached s hfree) hname
    · exact hfree
  · obtain ⟨tables, htables⟩ := h.spans_known rid spans hspans
    obtain ⟨spans', hspans', hok⟩ := h.spans rid tables htables
    rw [hspans, Option.some.injEq] at hspans'
    subst hspans'
    refine ⟨tables, htables, hok.length, fun i g first top hg hspan => ?_⟩
    obtain ⟨hw, -, hkeys⟩ := hok.span i g _ hg hspan first top rfl
    exact ⟨hw, hkeys⟩
  · obtain ⟨key, hkey⟩ := Option.ne_none_iff_exists'.mp ((h.pool.map.cached_iff s).mp hs)
    refine ⟨key, hkey, ?_⟩
    have hmem := SlotPool.mem_entries.mp ((h.pool.map.identity key s).mpr hkey)
    obtain ⟨-, hnodup, hdisjoint⟩ := nodup_append.mp (h.pool.map.nodup key)
    by_cases hp : m.pool.cache.get? key = some s
    · refine .inl ⟨hp, List.count_eq_zero.mpr fun hc => hdisjoint s ?_ s hc rfl⟩
      exact Option.mem_toList.mpr hp
    · exact .inr ⟨hp, count_eq_one_of_mem hnodup (hmem.resolve_left hp)⟩
  · have hkey : (m.pool.blocks s).blockHash = some key :=
      (h.pool.map.identity key s).mp (SlotPool.mem_entries.mpr hs)
    exact ⟨(h.pool.map.cached_iff s).mpr (by rw [hkey]; simp), hkey⟩

/-! ## Runs -/

/-- Nothing is lost in a run that never grows a table with a gap. -/
theorem worldOk_of_growsTight {reqs : Nat → Request} (hids : ∀ rid, (reqs rid).id = rid)
    (h : Reaches (World.step cfg) (GrowsTight cfg) (World.init cfg reqs) w) :
    WorldOk cfg (fun _ => 0) w := by
  refine h.invariant (P := fun w => WorldOk cfg (fun _ => 0) w) (worldOk_init hids)
    fun hok htight hs => ?_
  obtain ⟨leak', hok', hleak⟩ := (step_cases hok hs).worldOk hok
  have : leak' = fun _ => 0 := funext (hleak htight)
  exact this ▸ hok'

/-- Full tables without draft layers have no gap. -/
theorem WellFormed.growsTight (h : WellFormed cfg w)
    (hfull : ∀ g ∈ cfg.layout.groups, g.windowTokens = 0 → g.eagle = false) {op : Op}
    (hs : World.step cfg w op = some w') : GrowsTight cfg w op := by
  obtain ⟨leak, hok⟩ := h.ok
  cases step_cases hok hs with
  | @ensureSlots rid _ _ _ _ _ _ _ _ phase =>
    intro t ht g hg hw
    have hact := h.shapes rid t ht
    rw [phase] at hact
    exact tight_of_keys (hact.full g hg hw (hfull g hg hw))
  | _ => trivial

instance {cfg : HybridConfig} {w : World} {op : Op} : Decidable (GrowsTight cfg w op) :=
  match op with
  | .ensureSlots rid _ _ =>
    match h : w.mgr.tables.get? rid with
    | none => .isTrue fun tables ht => by rw [h] at ht; cases ht
    | some tables =>
      decidable_of_iff (∀ g ∈ cfg.layout.groups, g.windowTokens = 0 →
          ∀ i ∈ (tableOf tables g).keys, i < (tableOf tables g).size)
        ⟨fun hall t ht => by rw [h, Option.some.injEq] at ht; exact ht ▸ hall,
          fun hall => hall tables h⟩
  | .plan _ | .allocate _ | .start _ _ | .beginImport _ _ | .finishImport _ | .advance _ _
  | .generate _ _ | .cacheComputed _ | .release _ | .pin _ | .unpin _ => .isTrue trivial

/-- Slots are conserved in every run that never grows a full table with a gap;
when no full group holds draft layers, in every run at all. -/
theorem conserved_of_growsTight (cfg : HybridConfig) (reqs : Nat → Request)
    (hids : ∀ rid, (reqs rid).id = rid) (w : World) :
    (Reaches (World.step cfg) (GrowsTight cfg) (World.init cfg reqs) w → Conserved cfg w.mgr) ∧
    ((∀ g ∈ cfg.layout.groups, g.windowTokens = 0 → g.eagle = false) →
      Reaches (World.step cfg) (fun _ _ => True) (World.init cfg reqs) w →
        Conserved cfg w.mgr) := by
  have htight : Reaches (World.step cfg) (GrowsTight cfg) (World.init cfg reqs) w →
      Conserved cfg w.mgr := fun h => (worldOk_of_growsTight hids h).inv.conserved fun _ => rfl
  refine ⟨htight, fun hfull h => htight ?_⟩
  exact (h.mono_of_invariant (wellFormed_init hids) (fun hw _ hs => hw.step hs)
    fun hw _ hs => hw.growsTight hfull hs).1

/-- A run with two requests, the second of which takes up the first one's
prefix, and with a transfer. -/
theorem conserved_of_growsTight_sample :
    ∃ w, Reaches (World.step (sampleConfig windowLayout)) (GrowsTight (sampleConfig windowLayout))
        (World.sample windowLayout) w ∧ w.mgr.pool.cache.size = 4 ∧
      Conserved (sampleConfig windowLayout) w.mgr := by
  obtain ⟨w, hw, hsize⟩ := exists_reaches (World.step (sampleConfig windowLayout))
    (GrowsTight (sampleConfig windowLayout)) (World.sample windowLayout)
    [.allocate 0, .start 0 0, .ensureSlots 0 4 0, .advance 0 4, .cacheComputed 0,
      .pin 1, .release 0, .allocate 1, .start 1 4, .ensureSlots 1 2 0, .unpin 1]
    (fun w => w.mgr.pool.cache.size = 4) (by decide +kernel)
  exact ⟨w, hw, hsize, (conserved_of_growsTight _ _ (fun _ => rfl) w).1 hw⟩

/-- A request with a local prefix of a full EAGLE group imports two more blocks
and then grows: slot 2 keeps a reference that no table and no transfer has. -/
theorem not_conserved_of_gap :
    ∃ w, World.Reachable (sampleConfig draftLayout) w ∧
      ¬ Conserved (sampleConfig draftLayout) w.mgr := by
  obtain ⟨w, hw, href, hocc, htr⟩ := World.exists_reachable draftLayout
    [.allocate 0, .start 0 0, .ensureSlots 0 1 0, .advance 0 1, .cacheComputed 0,
      .allocate 1, .beginImport 1 (fun _ => true), .finishImport 1, .ensureSlots 1 1 0]
    (fun w => (w.mgr.pool.blocks 2).refCount = 1 ∧ occurrences w.mgr 2 = 0 ∧
      transfers w.mgr 2 = 0) (by decide +kernel)
  refine ⟨w, hw, fun h => ?_⟩
  have := h.refCount 2 (by decide) (by decide)
  omega

/-- When no request has tables and no transfer is under way, every slot but the null block
is free, and those that can be reused are exactly the ones with a published identity. -/
theorem free_when_idle (cfg : HybridConfig) (reqs : Nat → Request)
    (hids : ∀ rid, (reqs rid).id = rid) (w : World)
    (h : Reaches (World.step cfg) (GrowsTight cfg) (World.init cfg reqs) w)
    (hidle : w.mgr.tables.keys = []) (hquiet : w.mgr.transferReferences.keys = []) :
    (w.mgr.pool.freeUncached ++ w.mgr.pool.freeCached).Perm (range' 1 (cfg.numSlots - 1)) ∧
    ∀ s, s ∈ w.mgr.pool.freeCached ↔ (w.mgr.pool.blocks s).blockHash ≠ none := by
  have hpool := (worldOk_of_growsTight hids h).inv.pool
  have hnone : ∀ s, references w.mgr s + 0 = 0 := by
    intro s
    have htransfers := OrderedDict.get?_eq_none.mpr (hquiet ▸ not_mem_nil (a := s))
    simp [references, occurrences, transfers, OrderedDict.sum, map_eq_nil_iff.mp hidle, htransfers]
  have hmem : ∀ s, s ∈ w.mgr.pool.freeUncached ++ w.mgr.pool.freeCached ↔
      0 < s ∧ s < cfg.numSlots := by
    intro s
    rw [hpool.mem_free, hnone, eq_self, and_true]
  refine ⟨(perm_ext_iff_of_nodup hpool.free_nodup nodup_range').mpr fun s => ?_,
    fun s => ⟨hpool.free_cached s, fun hname => ?_⟩⟩
  · rw [hmem, mem_range'_1]
    omega
  · have hpos : s ≠ 0 := by
      rintro rfl
      exact hname hpool.null.2
    have hlt := hpool.published s hname
    refine (mem_append.mp ((hmem s).mpr ⟨by omega, hlt⟩)).resolve_left fun hfree => ?_
    exact hname (hpool.free_uncached s hfree)

theorem free_when_idle_sample : ∃ w : World, w.mgr.pool.cache.size = 4 ∧
    (w.mgr.pool.freeUncached ++ w.mgr.pool.freeCached).Perm (range' 1 11) ∧
    ∀ s, s ∈ w.mgr.pool.freeCached ↔ (w.mgr.pool.blocks s).blockHash ≠ none := by
  obtain ⟨w, hw, hsize, hidle, hquiet⟩ := exists_reaches (World.step (sampleConfig windowLayout))
    (GrowsTight (sampleConfig windowLayout)) (World.sample windowLayout)
    [.allocate 0, .start 0 0, .ensureSlots 0 4 0, .advance 0 4, .cacheComputed 0, .pin 1,
      .release 0, .unpin 1]
    (fun w => w.mgr.pool.cache.size = 4 ∧ w.mgr.tables.keys = [] ∧
      w.mgr.transferReferences.keys = []) (by decide +kernel)
  exact ⟨w, hsize, free_when_idle _ _ (fun _ => rfl) w hw hidle hquiet⟩

end TokenSim
