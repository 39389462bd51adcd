import TokenSim.Hybrid.Shape

/-!
# The boundaries that plans choose

A local plan takes the longest prefix of engine blocks whose pages are all in
the prefix map, and an external plan the longest one past the local prefix whose
remaining pages are all in the store (`LongestPrefix`).  Both searches first cut
the candidates at what the first full group has in a row.  Nothing is lost by
that, because the full pages are among those that every boundary needs.

After admission and the import of the external pages the table of a group has
the pages that computing from the boundary reads (`CoversPrefix`).  Of a full
group with draft layers both plans drop the last page, so that its table covers
a boundary only if there is nothing below it.
-/

namespace TokenSim

open List OrderedDict

open HybridKVBlockManager
open Except

variable {cfg : HybridConfig} {leak : Nat → Nat} {w : World} {m m' : HybridKVBlockManager}
  {r r' : Request} {tables tables' : GroupTables}

/-! ## External plans are maximal -/

/-- Every page that the groups need is found. -/
def HasPages {β : Type} (cfg : HybridConfig) (r : Request) (find : SlotKey → Option β)
    (pages : CacheGroup → List Nat) : Prop :=
  ∀ g ∈ cfg.layout.groups, ∀ i ∈ pages g, ∃ page, Finds cfg r find g i page

/-- `tokens` ends the longest prefix past `start` whose blocks meet `needs`, or
is `start` if there is none. -/
def LongestPrefix (cfg : HybridConfig) (r : Request) (needs : Nat → Prop) (start tokens : Nat) :
    Prop :=
  (∃ blocks, IsGreatest {b | start < b * cfg.blockSize ∧ b ≤ maximumBlocks cfg r ∧ needs b} blocks ∧
    tokens = blocks * cfg.blockSize) ∨
  (∀ b, start < b * cfg.blockSize → b ≤ maximumBlocks cfg r → ¬ needs b) ∧ tokens = start

/-- The lookup of a store, as the plans use it. -/
abbrev stored (lookup : SlotKey → Bool) (key : SlotKey) : Option SlotKey :=
  if lookup key then some key else none

variable {plan : HybridReusePlan} {start boundary localTokens : Nat} {lookup : SlotKey → Bool}
  {hits : GroupHits SlotKey} {g : CacheGroup}

theorem PlanOk.longestPrefix {cache : OrderedDict SlotKey Nat} (h : PlanOk cfg r cache plan) :
    LongestPrefix cfg r (fun b => HasPages cfg r cache.get? (demandedPages cfg · b)) 0
      plan.hitTokens := by
  rcases h.hits with ⟨hzero, -⟩ | ⟨blocks, hpos, hle, hhit, hhits⟩
  · refine .inr ⟨fun b hb hle hneeds => ?_, hzero⟩
    have := h.maximal b hle hneeds
    omega
  · refine .inl ⟨blocks, ⟨⟨Nat.mul_pos hpos cfg.blockSize_pos, hle, hhits.demanded⟩, ?_⟩, hhit⟩
    rintro b ⟨-, hb, hneeds⟩
    have := h.maximal b hb hneeds
    rw [hhit] at this
    exact Nat.le_of_mul_le_mul_right this cfg.blockSize_pos

/-- The full pages from `start` on are found in a row as far as a boundary that
has all its pages. -/
theorem le_contiguous {find : SlotKey → Option SlotKey} {b : Nat}
    (hb : b ≤ maximumBlocks cfg r) (hneeds : HasPages cfg r find (externalPages cfg start b)) :
    b ≤ start + (leadingFound find cfg.layout.fullGroup.groupId
      (((cfg.inputKeys r).take (maximumBlocks cfg r)).drop start)).length := by
  have hkeys : maximumBlocks cfg r ≤ (cfg.inputKeys r).length := min_le_left ..
  suffices b - start ≤ (leadingFound find cfg.layout.fullGroup.groupId
      (((cfg.inputKeys r).take (maximumBlocks cfg r)).drop start)).length by omega
  refine (leadingFound_spec _ _ _).2 _ ?_ fun i hi => ?_
  · rw [length_drop, length_take]
    omega
  · have hmem : start + i ∈ externalPages cfg start b cfg.layout.fullGroup := by
      rw [externalPages, if_pos cfg.layout.fullGroup_windowTokens]
      exact mem_range'_1.mpr (by omega)
    obtain ⟨page, key, hkey, hpage⟩ := hneeds _ cfg.layout.fullGroup_mem _ hmem
    rw [slotKey_full cfg.layout.fullGroup_blockTokens, ok.injEq] at hkey
    obtain ⟨k, hk, rfl⟩ := Option.map_eq_some_iff.mp hkey
    refine ⟨k, ?_, page, hpage⟩
    rw [getElem?_drop, getElem?_take, if_pos (by omega)]
    exact hk

theorem groupHits_ne_nil {β : Type} {probe : CacheGroup → Except Err (Option (List (Nat × β)))}
    {hits : GroupHits β} (h : groupHits probe cfg.layout.groups = .ok (some hits)) : hits ≠ [] := by
  obtain ⟨pairs, -, rfl⟩ := (groupHits_spec h).1 hits rfl
  exact fun hnil => ne_nil_of_mem cfg.layout.fullGroup_mem (map_eq_nil_iff.mp hnil)

theorem planExternalReuse_nil
    (h : planExternalReuse cfg r lookup localTokens = .ok (boundary, [])) :
    boundary = localTokens := by
  obtain ⟨best, hbest, h⟩ := bind_eq_ok.mp h
  cases best with
  | none =>
    cases h
    rfl
  | some e =>
    obtain ⟨blocks, hits⟩ := e
    cases h
    exact absurd rfl (groupHits_ne_nil ((longestHit_spec hbest).1 blocks [] rfl).2.2)

theorem planExternalReuse_longestPrefix
    (hplan : planExternalReuse cfg r lookup localTokens = .ok (boundary, hits)) :
    LongestPrefix cfg r (fun b => HasPages cfg r (stored lookup)
      (externalPages cfg (localTokens / cfg.blockSize) b)) localTokens boundary := by
  obtain ⟨best, hbest, h⟩ := bind_eq_ok.mp hplan
  obtain ⟨hhit, hmiss⟩ := longestHit_spec hbest
  have hpast : ∀ b, localTokens < b * cfg.blockSize ↔ localTokens / cfg.blockSize < b :=
    fun b => (Nat.div_lt_iff_lt_mul cfg.blockSize_pos).symm
  -- a boundary that was tried in vain lacks a page
  have hlacks : ∀ b, localTokens < b * cfg.blockSize → b ≤ maximumBlocks cfg r →
      (∀ blocks hits, best = some (blocks, hits) → blocks < b) →
      ¬ HasPages cfg r (stored lookup) (externalPages cfg (localTokens / cfg.blockSize) b) := by
    intro b hb hle hmax hneeds
    have hnone := hmiss b ((hpast b).mp hb) (le_contiguous hle hneeds) hmax
    obtain ⟨g, hg, hp⟩ := (groupHits_spec hnone).2 rfl
    obtain ⟨found, hfound, hp⟩ := bind_eq_ok.mp hp
    obtain ⟨i, hi, hno⟩ := (lookupPages_spec hfound).2 (pure_eq_ok.mp hp)
    obtain ⟨page, hpage⟩ := hneeds g hg i hi
    exact hno page hpage
  cases best with
  | none =>
    cases h
    exact .inr ⟨fun b hb hle => hlacks b hb hle nofun, rfl⟩
  | some e =>
    obtain ⟨blocks, hits'⟩ := e
    cases h
    obtain ⟨-, -, hhits⟩ := hhit blocks hits rfl
    obtain ⟨blocks', hlt, hle, heq, hok⟩ := planExternalReuse_spec hplan (groupHits_ne_nil hhits)
    obtain rfl := Nat.eq_of_mul_eq_mul_right cfg.blockSize_pos heq
    refine .inl ⟨blocks, ⟨⟨(hpast blocks).mpr hlt, hle, hok.demanded⟩, ?_⟩, rfl⟩
    rintro b ⟨hb, hbmax, hneeds⟩
    by_contra hlt'
    refine hlacks b hb hbmax (fun blocks' hits' he => ?_) hneeds
    cases he
    omega

/-! ## Tables after admission and import -/

/-- The table of a group has every page below `boundary` that computing from
there reads. -/
def CoversPrefix (g : CacheGroup) (boundary : Nat) (table : GroupTable) : Prop :=
  ∀ i, (g.windowTokens ≠ 0 → (boundary - (g.windowTokens - 1)) / g.blockTokens ≤ i) →
    i < boundary / g.blockTokens → i ∈ table.keys

theorem coversPrefix_window {table : GroupTable}
    (hw : g.windowTokens ≠ 0) (hpos : 0 < g.blockTokens) (hdvd : g.blockTokens ∣ boundary)
    (hkeys : ∀ i ∈ g.windowRange boundary boundary, i ∈ table.keys) :
    CoversPrefix g boundary table := by
  intro i hlow hi
  refine hkeys i (mem_range'_1.mpr ⟨?_, ?_⟩)
  · rw [CacheGroup.windowStart_eq]
    exact hlow hw
  · rw [cdiv_of_dvd hpos hdvd]
    omega

/-- A full table that misses the last page before each of two boundaries covers
the second one only if there is nothing below it. -/
theorem coversPrefix_full {blocks : Nat} {table : GroupTable}
    (hg : g ∈ cfg.layout.groups) (hw : g.windowTokens = 0) (hle : start ≤ blocks)
    (hkeys : ∀ i, i ∈ table.keys ↔
      i < start - g.eagle.toNat ∨ start ≤ i ∧ i < blocks - g.eagle.toNat) :
    CoversPrefix g (blocks * cfg.blockSize) table ↔ g.eagle = false ∨ blocks = 0 := by
  have hbt : blocks * cfg.blockSize / g.blockTokens = blocks := by
    rw [HybridKVLayout.blockTokens_of_no_window hg hw]
    exact Nat.mul_div_cancel _ cfg.blockSize_pos
  unfold CoversPrefix
  rw [hbt]
  constructor
  · intro hcovers
    by_contra hno
    obtain ⟨he, hb⟩ := not_or.mp hno
    have hlast := (hkeys (blocks - 1)).mp (hcovers (blocks - 1) (absurd hw) (by omega))
    rw [Bool.eq_true_of_not_eq_false he, Bool.toNat_true] at hlast
    omega
  · rintro (he | rfl) i - hi
    · rw [hkeys, he, Bool.toNat_false]
      omega
    · exact absurd hi (Nat.not_lt_zero i)

theorem mem_heldPages_range' {n i : Nat} :
    i ∈ heldPages g (List.range' start n) ↔ start ≤ i ∧ i < start + n - g.eagle.toNat ∧
      i < start + n := by
  unfold heldPages
  cases g.eagle with
  | false => simp [mem_range'_1]
  | true =>
    cases n with
    | zero =>
      simp only [range'_zero, dropLast_nil, ite_self, not_mem_nil, false_iff]
      omega
    | succ n =>
      rw [if_pos rfl, range'_1_concat, dropLast_concat, mem_range'_1, Bool.toNat_true]
      omega

/-- What the plans leave of a full table, after the local prefix and after the
external one. -/
theorem mem_admitted_full {hit i : Nat} (h : AdmittedShape cfg r hit tables)
    (hg : g ∈ cfg.layout.groups) (hw : g.windowTokens = 0) :
    i ∈ (tableOf tables g).keys ↔ i < hit / cfg.blockSize - g.eagle.toNat := by
  rw [h.pages g hg, demandedPages, if_pos hw, range_eq_range', mem_heldPages_range']
  omega

/-- The pages of a request after the hits of an external plan were given
destinations. -/
theorem import_keys {targets : List Destination} (hinv : Inv cfg leak m)
    (ht : m.tables.get? r'.id = some tables)
    (hplan : planExternalReuse cfg r lookup localTokens = .ok (boundary, hits))
    (himp : m.allocateExternalDestinations cfg r' hits = .ok (m', targets)) :
    ∃ tables', m'.tables.get? r'.id = some tables' ∧
      (boundary = localTokens ∧ tables' = tables ∨
        ∃ blocks, localTokens / cfg.blockSize < blocks ∧ boundary = blocks * cfg.blockSize ∧
          ∀ g ∈ cfg.layout.groups, ∀ i, i ∈ (tableOf tables' g).keys ↔ i ∈ (tableOf tables g).keys ∨
            i ∈ heldPages g (externalPages cfg (localTokens / cfg.blockSize) blocks g)) := by
  by_cases hne : hits = []
  · subst hne
    refine ⟨tables, ?_, .inl ⟨planExternalReuse_nil hplan, rfl⟩⟩
    obtain ⟨tables₁, ht₁, himp⟩ := bind_eq_ok.mp himp
    rw [ite_throw_eq_ok] at himp
    cases himp.2
    rw [Option.orRaise_eq_ok.mp ht₁, Option.some.injEq] at ht
    rw [get?_set_self, ht]
  · obtain ⟨blocks, hlt, -, hb, hhits⟩ := planExternalReuse_spec hplan hne
    obtain ⟨pairs, rfl, hpairs⟩ := hhits.listed
    have hnd : ∀ g ∈ cfg.layout.groups, ((pairs g).map Prod.fst).Nodup :=
      fun g hg => (hpairs g hg).1 ▸ nodup_externalPages ..
    obtain ⟨tables₁, tables', himports⟩ := allocateExternalDestinations_spec hinv hnd himp
    have hsame := himports.known
    rw [ht, Option.some.injEq] at hsame
    subst hsame
    refine ⟨tables', ?_, .inr ⟨blocks, hlt, hb, fun g hg i => ?_⟩⟩
    · rw [himports.tables_eq, get?_set_self]
    · rw [himports.table g hg, (hpairs g hg).1, mem_append, mem_filter, decide_eq_true_eq]
      tauto

/-- A table covers the boundary up to which pages were imported, except for the
last page of a full group with draft layers. -/
theorem coversPrefix_iff {targets : List Destination} (hinv : Inv cfg leak m)
    (ht : m.tables.get? r'.id = some tables) (hadm : AdmittedShape cfg r' localTokens tables)
    (hplan : planExternalReuse cfg r lookup localTokens = .ok (boundary, hits))
    (himp : m.allocateExternalDestinations cfg r' hits = .ok (m', targets)) :
    ∃ tables', m'.tables.get? r'.id = some tables' ∧ ∀ g ∈ cfg.layout.groups,
      (CoversPrefix g boundary (tableOf tables' g) ↔
        g.windowTokens ≠ 0 ∨ g.eagle = false ∨ boundary = 0) := by
  have halign := Nat.div_mul_cancel hadm.aligned
  obtain ⟨tables', ht', hkeys⟩ := import_keys hinv ht hplan himp
  refine ⟨tables', ht', fun g hg => ?_⟩
  have hpos := HybridKVLayout.blockTokens_pos hg
  have hzero : ∀ blocks, blocks * cfg.blockSize = 0 ↔ blocks = 0 := fun blocks => by
    rw [Nat.mul_eq_zero, or_iff_left cfg.blockSize_pos.ne']
  by_cases hw : g.windowTokens = 0
  · rw [or_iff_right (not_not.mpr hw)]
    rcases hkeys with ⟨rfl, rfl⟩ | ⟨blocks, hlt, rfl, hkeys⟩
    · rw [← halign, hzero]
      refine coversPrefix_full hg hw le_rfl fun i => ?_
      rw [mem_admitted_full hadm hg hw]
      omega
    · rw [hzero]
      refine coversPrefix_full hg hw hlt.le fun i => ?_
      rw [hkeys g hg, mem_admitted_full hadm hg hw, externalPages, if_pos hw, mem_heldPages_range']
      omega
  · refine iff_of_true ?_ (.inl hw)
    have hdvd := cfg.layout.tokens_dvd g hg
    rcases hkeys with ⟨rfl, rfl⟩ | ⟨blocks, -, rfl, hkeys⟩
    · refine coversPrefix_window hw hpos (Nat.dvd_trans hdvd hadm.aligned) fun i hi => ?_
      rw [hadm.window hg hw]
      exact hi
    · refine coversPrefix_window hw hpos (Nat.dvd_trans hdvd ⟨blocks, mul_comm ..⟩)
        fun i hi => ?_
      rw [hkeys g hg, heldPages_externalPages_window hg hw]
      exact .inr hi

/-! ## Admission with an import -/

/-- The calls that admit a request with what the prefix map and a store hold of
its prompt.  Returns the boundary from which it computes. -/
def admitAndImport (cfg : HybridConfig) (m : HybridKVBlockManager) (r : Request)
    (lookup : SlotKey → Bool) : Except Err (Nat × HybridKVBlockManager) := do
  let (m, r, plan) ← m.planReuse cfg r
  let (boundary, hits) ← planExternalReuse cfg r lookup plan.hitTokens
  let (m, r) ← m.allocate cfg r
  let (m, targets) ← m.allocateExternalDestinations cfg r hits
  pure (boundary, m.finishExternalImport cfg r targets boundary)

theorem planReuse_again (h : m.planReuse cfg r = .ok (m', r', plan)) :
    m'.planReuse cfg r' = .ok (m', r', plan) := by
  rcases planReuse_cases m r with hrec | ⟨plan', hmemo, hhit⟩
  · rw [hrec] at h
    obtain ⟨⟨plan', s⟩, hcomp, h⟩ := bind_eq_ok.mp h
    cases h
    have hstate : planState { m with plans := m.plans.set r.id (m.planState r, plan) } r' =
        m.planState r ∧ r'.id = r.id := by
      rcases (computePlan_spec hcomp).2 with rfl | ⟨blocks, rfl⟩ <;> exact ⟨rfl, rfl⟩
    unfold planReuse
    rw [hstate.1, hstate.2]
    dsimp only
    rw [get?_set_self]
    exact if_pos rfl
  · rw [hhit] at h
    cases h
    exact hhit

theorem allocate_hitTokens {m₀ : HybridKVBlockManager} {r₀ : Request}
    (hplan : m.planReuse cfg r = .ok (m₀, r₀, plan)) (h : m.allocate cfg r = .ok (m', r')) :
    r'.gpuCachedContextTokens = plan.hitTokens := by
  unfold HybridKVBlockManager.allocate at h
  rw [ite_throw_eq_ok, hplan] at h
  obtain ⟨out, hout, h⟩ := bind_eq_ok.mp h.2
  cases hout
  obtain ⟨pool, -, h⟩ := bind_eq_ok.mp h
  obtain ⟨tables, -, h⟩ := bind_eq_ok.mp h
  cases h
  rfl

/-- The local plan and the external plan end at the largest boundaries whose
pages they find.  After the calls that admit a request with both, the table of a
group has every page below the boundary that computing reads, unless it is a full
group with draft layers and the boundary is not zero. -/
theorem plans_longest_and_tables_cover (cfg : HybridConfig) (w : World)
    (hw : World.Reachable cfg w) (rid : Nat) :
    (∀ m' r' plan, w.mgr.planReuse cfg (w.reqs rid) = .ok (m', r', plan) →
      LongestPrefix cfg (w.reqs rid) (fun b => HasPages cfg (w.reqs rid) w.mgr.pool.cache.get?
        (demandedPages cfg · b)) 0 plan.hitTokens) ∧
    (∀ lookup localTokens boundary hits,
      planExternalReuse cfg (w.reqs rid) lookup localTokens = .ok (boundary, hits) →
      LongestPrefix cfg (w.reqs rid) (fun b => HasPages cfg (w.reqs rid) (stored lookup)
        (externalPages cfg (localTokens / cfg.blockSize) b)) localTokens boundary) ∧
    ∀ lookup boundary m', admitAndImport cfg w.mgr (w.reqs rid) lookup = .ok (boundary, m') →
      ∃ tables, m'.tables.get? rid = some tables ∧ ∀ g ∈ cfg.layout.groups,
        (CoversPrefix g boundary (tableOf tables g) ↔
          g.windowTokens ≠ 0 ∨ g.eagle = false ∨ boundary = 0) := by
  obtain ⟨leak, hok⟩ := hw.wellFormed.ok
  refine ⟨fun m' r' plan h => ?_, fun lookup localTokens boundary hits h => ?_,
    fun lookup boundary m' h => ?_⟩
  · exact (planReuse_spec (hok.memo rid) h).1.longestPrefix
  · exact planExternalReuse_longestPrefix h
  · obtain ⟨⟨m₁, r₁, plan⟩, hplan, h⟩ := bind_eq_ok.mp h
    obtain ⟨⟨boundary', hits⟩, hext, h⟩ := bind_eq_ok.mp h
    obtain ⟨⟨m₂, r₂⟩, halloc, h⟩ := bind_eq_ok.mp h
    obtain ⟨⟨m₃, targets⟩, himp, h⟩ := bind_eq_ok.mp h
    cases h
    -- planning is a step of its own, after which the world is as good
    have hstep : World.step cfg w (.plan rid) = some (w.put m₁ rid r₁ (w.phase rid)) := by
      simp only [World.step, hplan]
      rfl
    obtain ⟨leak₁, hok₁⟩ := (hw.step hstep).wellFormed.ok
    have hmemo := hok₁.memo rid
    have hid := hok₁.ids rid
    rw [World.put_reqs_self] at hmemo hid
    obtain ⟨tables, hadm⟩ := allocate_spec hok₁.inv hmemo halloc
    have hid₂ : r₂.id = rid := hadm.progress.id.trans hid
    have hknown : m₂.tables.get? r₂.id = some tables := by
      rw [hadm.tables, get?_set, if_pos (hid₂.trans hid.symm)]
    have hshape := hadm.shape
    rw [allocate_hitTokens (planReuse_again hplan) halloc] at hshape
    obtain ⟨tables', ht', hcover⟩ := coversPrefix_iff hadm.inv hknown hshape hext himp
    exact ⟨tables', hid₂ ▸ ht', hcover⟩

/-- A request takes up two blocks from the prefix map and a third one from a
store that holds everything. -/
theorem plans_longest_and_tables_cover_sample : ∃ w m',
    World.Reachable (sampleConfig windowLayout) w ∧
    admitAndImport (sampleConfig windowLayout) w.mgr (w.reqs 1) (fun _ => true) = .ok (6, m') ∧
    ∃ tables, m'.tables.get? 1 = some tables ∧
      CoversPrefix ⟨0, .full, 2, 0, false⟩ 6 (tableOf tables ⟨0, .full, 2, 0, false⟩) ∧
      CoversPrefix ⟨1, .window, 1, 3, false⟩ 6 (tableOf tables ⟨1, .window, 1, 3, false⟩) := by
  obtain ⟨w, hreach, -, hgo⟩ := World.exists_reachable windowLayout
    [.allocate 0, .start 0 0, .ensureSlots 0 4 0, .advance 0 4, .cacheComputed 0, .release 0]
    (fun w => (w.mgr.planReuse (sampleConfig windowLayout) (w.reqs 1)).map
        (fun out => out.2.2.hitTokens) = .ok 4 ∧
      (admitAndImport (sampleConfig windowLayout) w.mgr (w.reqs 1) (fun _ => true)).toOption.any
        fun out => out.1 = 6)
    (by decide +kernel)
  obtain ⟨⟨boundary, m'⟩, hgo, hboundary⟩ := (Option.any_eq_true ..).mp hgo
  obtain rfl : boundary = 6 := of_decide_eq_true hboundary
  have hgo := toOption_eq_some hgo
  obtain ⟨tables, ht, hcover⟩ := (plans_longest_and_tables_cover _ w hreach 1).2.2 _ _ _ hgo
  exact ⟨w, m', hreach, hgo, tables, ht, (hcover _ (by decide)).mpr (by decide),
    (hcover _ (by decide)).mpr (by decide)⟩

/-- With draft layers in the full group a request resumes at token one, but the
page below has no slot. -/
theorem draft_page_missing_below_boundary : ∃ w m' tables,
    World.Reachable (sampleConfig draftLayout) w ∧
    admitAndImport (sampleConfig draftLayout) w.mgr (w.reqs 1) (fun _ => false) = .ok (1, m') ∧
    m'.tables.get? 1 = some tables ∧
    ¬ CoversPrefix ⟨0, .full, 1, 0, true⟩ 1 (tableOf tables ⟨0, .full, 1, 0, true⟩) := by
  obtain ⟨w, hw, hgo⟩ := World.exists_reachable draftLayout
    [.allocate 0, .start 0 0, .ensureSlots 0 1 0, .advance 0 1, .cacheComputed 0]
    (fun w => (admitAndImport (sampleConfig draftLayout) w.mgr (w.reqs 1) (fun _ => false)).toOption.any
      fun out => out.1 = 1 ∧ (out.2.tables.get? 1).any fun tables =>
        0 ∉ (tableOf tables ⟨0, .full, 1, 0, true⟩).keys)
    (by decide +kernel)
  obtain ⟨⟨boundary, m'⟩, hgo, hrest⟩ := (Option.any_eq_true ..).mp hgo
  obtain ⟨rfl, hrest⟩ := of_decide_eq_true hrest
  obtain ⟨tables, ht, hmiss⟩ := (Option.any_eq_true ..).mp hrest
  refine ⟨w, m', tables, hw, toOption_eq_some hgo, ht, fun hcover => ?_⟩
  exact (of_decide_eq_true hmiss) (hcover 0 (fun h => absurd rfl h) (by decide))

end TokenSim
