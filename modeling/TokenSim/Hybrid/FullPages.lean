import TokenSim.Hybrid.Recovery

/-!
# Which full pages a commit publishes

A publication pass walks over the groups with one record of progress for each
request.  The first full group publishes the pages from the recorded progress up
to the end of the complete pages, and moves the record there.  A later full group
starts where the record now stands, so that it publishes nothing
(`PassedGroups.first`).

A commit therefore leaves every complete full page published exactly when the
pages it does not visit were published before: those of the first full group
below the recorded progress, and all of the other full groups.  With a single
full group that holds no draft layers this is so in every state of every run.
-/

namespace TokenSim

open OrderedDict Option

open HybridKVBlockManager

variable {cfg : HybridConfig} {leak : Nat → Nat} {w w' : World} {m m' : HybridKVBlockManager}
  {r : Request} {tables : GroupTables} {g : CacheGroup} {rid : Nat}

/-! ## Commits in a run -/

/-- What a commit does, also when it finds that nothing has changed. -/
theorem World.Reachable.commits_first (hw : World.Reachable cfg w)
    (hs : World.step cfg w (.cacheComputed rid) = some w') :
    ∃ tables p, w.mgr.tables.get? rid = some tables ∧ w'.mgr.tables.get? rid = some tables ∧
      w.mgr.cachedProgress.get? rid = some p ∧
      w'.mgr.cachedProgress.get? rid =
        some (completePages cfg (w.reqs rid) (w.reqs rid).numComputedTokens) ∧
      Publishes cfg (w.reqs rid) (Visited cfg tables (some cfg.layout.fullGroup) p) w.mgr w'.mgr ∧
      ∀ i, p ≤ i → i < completePages cfg (w.reqs rid) (w.reqs rid).numComputedTokens →
        ∃ s, (tableOf tables cfg.layout.fullGroup).get? i = some s ∧
          ((w'.mgr.pool.blocks s).cached = true ∨
            cfg.slotKey (w.reqs rid) cfg.layout.fullGroup i = .ok none) := by
  obtain ⟨leak, hok⟩ := hw.wellFormed.ok
  obtain ⟨leak', hok'⟩ := (hw.step hs).wellFormed.ok
  obtain ⟨origin, ensuredAt, reach, tables, -, -, -, ht, ht', hpass, hreq⟩ := hok.commits hs
  have hid := hok.ids rid
  have hafter : w'.mgr.cachedProgress.get? rid =
      some (completePages cfg (w.reqs rid) (w.reqs rid).numComputedTokens) := by
    obtain ⟨threshold, hrecord⟩ := publicationPass_record hpass
    rw [hid] at hrecord
    have hprogress := (((hw.step hs).commitAt.2 rid).valid tables _ threshold hrecord ht').progress
      (by rw [hreq]; rfl)
    rw [hok'.ids, hreq] at hprogress
    exact hprogress
  rcases publicationPass_cases hpass with ⟨hm, -⟩ | ⟨m₁, deferred, threshold, hpassed, hm⟩
  · -- nothing has changed since the last commit, which moved the record to the end
    rw [hm] at hafter ht' ⊢
    exact ⟨tables, _, ht, ht', hafter, hafter, .refl _ _, fun i hlow hi => by omega⟩
  · obtain ⟨p, hp⟩ := hpassed.exists_progress (exists_full cfg)
    obtain ⟨hpublishes, hdone⟩ := hpassed.first hp
    rw [hid] at hp
    rw [find?_windowTokens] at hpublishes hdone
    rw [hm] at hafter ht' ⊢
    exact ⟨tables, p, ht, ht', hp, hafter, hpublishes.commit _, hdone _ rfl⟩

/-- A complete full page is published after a commit exactly when it was before
or when it is one that the first full group visits. -/
theorem World.Reachable.publishedPage_commit_iff (hw : World.Reachable cfg w)
    (hs : World.step cfg w (.cacheComputed rid) = some w') (hg : g ∈ cfg.layout.groups)
    (hfull : g.windowTokens = 0) {i p : Nat} (hp : w.mgr.cachedProgress.get? rid = some p)
    (hi : i < completePages cfg (w.reqs rid) (w.reqs rid).numComputedTokens) :
    (∃ key, PublishedPage cfg w' rid g i key) ↔
      (∃ key, PublishedPage cfg w rid g i key) ∨ g = cfg.layout.fullGroup ∧ p ≤ i := by
  have hw' := hw.step hs
  obtain ⟨leak, hok⟩ := hw.wellFormed.ok
  obtain ⟨leak', hok'⟩ := hw'.wellFormed.ok
  obtain ⟨tables, p', ht, ht', hp', -, hpub, hdone⟩ := hw.commits_first hs
  rw [hp, some.injEq] at hp'
  subst hp'
  constructor
  · rintro ⟨key, hkey, tables', s, htab, hslot, hcached, hname⟩
    rw [ht', some.injEq] at htab
    subst htab
    by_cases hold : (w.mgr.pool.blocks s).blockHash = none
    · -- the slot got its identity now, so its page was visited
      obtain ⟨log, -, hlog, hnamed⟩ := hpub.published
      rcases hnamed s with hsame | ⟨e, he, rfl⟩
      · rw [hsame, hold] at hname
        cases hname
      · obtain ⟨-, -, -, g', hg', -, ⟨⟨-, hslot'⟩, hvisit⟩, -⟩ := hlog e he
        obtain ⟨-, rfl, rfl⟩ := page_unique hok.inv ht ht hg hg' hslot hslot' (hw.named.sole _ hold)
        obtain ⟨hfirst, hle⟩ := hvisit hfull
        exact .inr ⟨(some.inj hfirst).symm, hle⟩
    · exact .inl (hw.publishedPage hg ht hslot hold)
  · rintro (⟨key, hkey, tables', s, htab, hslot, hcached, hname⟩ | ⟨rfl, hle⟩)
    · rw [ht, some.injEq] at htab
      subst htab
      refine hw'.publishedPage hg ht' hslot ?_
      rw [(hpub.cached s hcached).2, hname]
      exact some_ne_none _
    · obtain ⟨s, hslot, hcached⟩ := hdone i hle hi
      refine hw'.publishedPage hg ht' hslot ((hok'.inv.pool.map.cached_iff s).mp ?_)
      refine hcached.resolve_right fun hnone => ?_
      rw [slotKey_full cfg.layout.fullGroup_blockTokens, Except.ok.injEq, map_eq_none_iff,
        List.getElem?_eq_none_iff] at hnone
      exact absurd (lt_of_lt_of_le hi (min_le_right ..)) (Nat.not_lt.mpr hnone)

/-! ## A single full group -/

/-- The pages of the first full group that lie below the recorded progress are
held and published while the request computes. -/
def FullPublished (cfg : HybridConfig) (w : World) (rid : Nat) : Prop :=
  ∀ origin ensuredAt reach tables p, w.phase rid = .active origin ensuredAt reach →
    w.mgr.tables.get? rid = some tables → w.mgr.cachedProgress.get? rid = some p →
    ∀ i, i < p → ∃ s, (tableOf tables cfg.layout.fullGroup).get? i = some s ∧
      (w.mgr.pool.blocks s).cached = true

theorem FullPublished.undisturbed {i : Nat} (h : FullPublished cfg w i) (hok : WorldOk cfg leak w)
    (hun : Undisturbed w w' i) : FullPublished cfg w' i := by
  intro origin ensuredAt reach tables p hphase ht hp j hj
  rw [hun.phase] at hphase
  rw [hun.tables] at ht
  rw [hun.cachedProgress] at hp
  obtain ⟨s, hslot, hcached⟩ := h origin ensuredAt reach tables p hphase ht hp j hj
  have hpos := hok.inv.tablesCount_pos ht cfg.layout.fullGroup_mem hslot
  exact ⟨s, hslot, (hun.cached tables ht s hpos hcached).1⟩

section

variable (hw : World.Reachable cfg w) (heagle : cfg.layout.fullGroup.eagle = false)
include hw heagle

/-- When the computation takes up, the pages of the prefix are published. -/
theorem TakesUp.fullPublished (h : TakesUp cfg rid w w') (hw' : World.Reachable cfg w') :
    FullPublished cfg w' rid := by
  have hmem := cfg.layout.fullGroup_mem
  obtain ⟨-, -, origin, reach, tables, hphase, ht, hprogress, hnamed⟩ := h.spec hw
  intro origin' ensuredAt' reach' tables' p hphase' ht' hp i hi
  rw [ht, some.injEq] at ht'
  subst ht'
  rw [hprogress, some.injEq] at hp
  subst hp
  have hshape := hw'.wellFormed.shapes rid tables ht
  rw [hphase] at hshape
  have hkey : i ∈ (tableOf tables cfg.layout.fullGroup).keys := by
    rw [hshape.full _ hmem cfg.layout.fullGroup_windowTokens heagle, List.mem_range,
      cfg.layout.fullGroup_blockTokens]
    refine lt_of_lt_of_le hi (Nat.div_le_of_le_mul ?_)
    rw [mul_comm]
    exact le_cdiv_mul (block_pos cfg) reach
  obtain ⟨s, hslot⟩ := mem_keys_iff.mp hkey
  obtain ⟨leak, hok⟩ := hw'.wellFormed.ok
  exact ⟨s, hslot, (hok.inv.pool.map.cached_iff s).mpr (hnamed _ hmem i s hslot)⟩

theorem World.Reachable.fullPublished_step (h : ∀ rid, FullPublished cfg w rid) {op : Op}
    (hs : World.step cfg w op = some w') (i : Nat) : FullPublished cfg w' i := by
  have hw' := hw.step hs
  obtain ⟨leak, hok⟩ := hw.wellFormed.ok
  have hstep := step_cases hok hs
  by_cases hi : op.subject ≠ some i
  · exact (h i).undisturbed hok (hstep.undisturbed hok hi)
  rw [not_not] at hi
  have hsame : ∀ {m' r'}, m'.tables = w.mgr.tables → m'.cachedProgress = w.mgr.cachedProgress →
      m'.pool = w.mgr.pool → FullPublished cfg (w.put m' i r' (w.phase i)) i := by
    intro m' r' htables hprogress hpool origin ensuredAt reach tables p hphase
    rw [World.put_phase_self] at hphase
    rw [World.put_mgr, htables, hprogress, hpool]
    exact h i origin ensuredAt reach tables p hphase
  -- nothing is demanded of a request that is not active
  have hidle : ∀ {m' r' phase'}, (∀ origin ensuredAt reach, phase' ≠ .active origin ensuredAt reach) →
      FullPublished cfg (w.put m' i r' phase') i := by
    intro m' r' phase' hphase' origin ensuredAt reach tables p hphase
    rw [World.put_phase_self] at hphase
    exact absurd hphase (hphase' origin ensuredAt reach)
  cases hstep with
  | plan =>
    cases hi
    exact hsame rfl rfl rfl
  | allocate =>
    cases hi
    exact hidle (by rintro _ _ _ ⟨⟩)
  | @start _ position =>
    cases hi
    exact TakesUp.fullPublished hw heagle (.inl ⟨position, hs⟩) hw'
  | beginImport =>
    cases hi
    exact hidle (by rintro _ _ _ ⟨⟩)
  | finishImport =>
    cases hi
    exact TakesUp.fullPublished hw heagle (.inr hs) hw'
  | @ensureSlots _ _ _ _ _ _ _ tables _ phase ensures =>
    cases hi
    intro _ _ _ t p _ ht hp j hj
    have hknown := ensures.known
    rw [hok.ids] at hknown
    rw [World.put_mgr, ensures.tables_eq, hok.ids, get?_set_self, some.injEq] at ht
    subst ht
    rw [World.put_mgr, ensures.records.cachedProgress] at hp
    obtain ⟨s, hslot, hcached⟩ := h i _ _ _ tables p phase hknown hp j hj
    -- a full table keeps all its pages
    have hshape := hw.wellFormed.shapes i tables hknown
    rw [phase] at hshape
    have hens := ensures.table _ cfg.layout.fullGroup_mem fun hfull =>
      tight_of_keys (hshape.full _ cfg.layout.fullGroup_mem hfull heagle)
    have hkept : j ∈ keptPages (w.reqs i).numComputedTokens cfg.layout.fullGroup
        (tableOf tables cfg.layout.fullGroup).keys := by
      rw [keptPages, if_pos cfg.layout.fullGroup_windowTokens]
      exact mem_keys_iff.mpr ⟨s, hslot⟩
    refine ⟨s, (hens.get? j hkept).trans hslot, ?_⟩
    exact (ensures.carries.kept s (.inr ⟨_, cfg.layout.fullGroup_mem, j, hkept, hslot⟩)).2.trans
      hcached
  | advance =>
    cases hi
    exact hsame rfl rfl rfl
  | generate =>
    cases hi
    exact hsame rfl rfl rfl
  | cacheComputed =>
    cases hi
    obtain ⟨leak', hok'⟩ := hw'.wellFormed.ok
    obtain ⟨origin, ensuredAt, reach, -, hphase, -, -, -, -, -, -⟩ := hok.commits hs
    obtain ⟨tables, q, ht, ht', hq, hafter, hpub, -⟩ := hw.commits_first hs
    intro _ _ _ t p _ htab hp j hj
    rw [ht', some.injEq] at htab
    subst htab
    rw [hafter, some.injEq] at hp
    subst hp
    -- a page below the old record stays published, the others are visited
    have hvisit : (∃ key, PublishedPage cfg w i cfg.layout.fullGroup j key) ∨ q ≤ j := by
      refine (Nat.lt_or_ge j q).imp_left fun hlt => ?_
      obtain ⟨s, hslot, hcached⟩ := h i _ _ _ tables q hphase ht hq j hlt
      exact hw.publishedPage cfg.layout.fullGroup_mem ht hslot
        ((hok.inv.pool.map.cached_iff s).mp hcached)
    obtain ⟨key, -, tables', s, htab, hslot, hcached, -⟩ := (hw.publishedPage_commit_iff hs
      cfg.layout.fullGroup_mem cfg.layout.fullGroup_windowTokens hq hj).mpr
      (hvisit.imp_right fun hge => ⟨rfl, hge⟩)
    rw [ht', some.injEq] at htab
    subst htab
    exact ⟨s, hslot, hcached⟩
  | release =>
    cases hi
    exact hidle (by rintro _ _ _ ⟨⟩)
  | pin => cases hi
  | unpin => cases hi

theorem World.Reachable.fullPublished (rid : Nat) : FullPublished cfg w rid := by
  obtain ⟨reqs, hreqs, hrun⟩ := hw
  refine (hrun.invariant (P := fun w => World.Reachable cfg w ∧ ∀ rid, FullPublished cfg w rid)
    ⟨⟨reqs, hreqs, .refl _⟩, nofun⟩
    fun h _ hs => ⟨h.1.step hs, h.1.fullPublished_step heagle h.2 hs⟩).2 rid

end

/-! ## Complete full pages -/

/-- Every full page that is complete and has a key is published. -/
def FullPagesPublished (cfg : HybridConfig) (w : World) (rid : Nat) : Prop :=
  ∀ g ∈ cfg.layout.groups, g.windowTokens = 0 → ∀ i,
    i < min ((w.reqs rid).numComputedTokens / cfg.blockSize) (cfg.inputKeys (w.reqs rid)).length →
    ∃ key, PublishedPage cfg w rid g i key

/-- After a commit all complete full pages are published exactly when those that
the pass does not visit were: the pages of the first full group below the
recorded progress, and the pages of the other full groups.  With a single full
group without draft layers this is so for every commit in every run. -/
theorem fullPagesPublished_iff (cfg : HybridConfig) (w w' : World) (hw : World.Reachable cfg w)
    (rid : Nat) (hs : World.step cfg w (.cacheComputed rid) = some w') :
    (FullPagesPublished cfg w' rid ↔ ∀ g ∈ cfg.layout.groups, g.windowTokens = 0 → ∀ i,
        i < min ((w.reqs rid).numComputedTokens / cfg.blockSize)
          (cfg.inputKeys (w.reqs rid)).length →
        (g = cfg.layout.fullGroup → ∃ p, w.mgr.cachedProgress.get? rid = some p ∧ i < p) →
        ∃ key, PublishedPage cfg w rid g i key) ∧
    ((∀ g ∈ cfg.layout.groups, g.windowTokens = 0 → g = cfg.layout.fullGroup) →
      cfg.layout.fullGroup.eagle = false → FullPagesPublished cfg w' rid) := by
  obtain ⟨leak, hok⟩ := hw.wellFormed.ok
  obtain ⟨origin, ensuredAt, reach, -, hphase, -, -, -, -, -, hreq⟩ := hok.commits hs
  obtain ⟨tables, p, ht, -, hp, -, -, -⟩ := hw.commits_first hs
  have hcomplete : min ((w'.reqs rid).numComputedTokens / cfg.blockSize)
      (cfg.inputKeys (w'.reqs rid)).length =
      completePages cfg (w.reqs rid) (w.reqs rid).numComputedTokens := by
    rw [hreq]
    rfl
  refine ⟨⟨fun hall g hg hfull i hi hpassed => ?_, fun hall g hg hfull i hi => ?_⟩,
    fun hone heagle g hg hfull i hi => ?_⟩
  · refine ((hw.publishedPage_commit_iff hs hg hfull hp hi).mp
      (hall g hg hfull i (hcomplete ▸ hi))).resolve_right ?_
    rintro ⟨hfirst, hle⟩
    obtain ⟨q, hq, hlt⟩ := hpassed hfirst
    rw [hp, some.injEq] at hq
    omega
  · rw [hcomplete] at hi
    refine (hw.publishedPage_commit_iff hs hg hfull hp hi).mpr ?_
    by_cases hvisit : g = cfg.layout.fullGroup ∧ p ≤ i
    · exact .inr hvisit
    · refine .inl (hall g hg hfull i hi fun hfirst => ⟨p, hp, ?_⟩)
      exact Nat.lt_of_not_le fun hle => hvisit ⟨hfirst, hle⟩
  · rw [hcomplete] at hi
    refine (hw.publishedPage_commit_iff hs hg hfull hp hi).mpr ?_
    refine (Nat.lt_or_ge i p).imp (fun hlt => ?_) fun hge => ⟨hone g hg hfull, hge⟩
    obtain ⟨s, hslot, hcached⟩ := hw.fullPublished heagle rid _ _ _ tables p hphase ht hp i hlt
    rw [← hone g hg hfull] at hslot
    exact hw.publishedPage hg ht hslot ((hok.inv.pool.map.cached_iff s).mp hcached)

/-- A commit after two engine blocks, with a single full group. -/
theorem fullPagesPublished_sample : ∃ w w', World.Reachable (sampleConfig windowLayout) w ∧
    World.step (sampleConfig windowLayout) w (.cacheComputed 0) = some w' ∧
    (w.reqs 0).numComputedTokens = 4 ∧ FullPagesPublished (sampleConfig windowLayout) w' 0 := by
  obtain ⟨w, hreach, hcomputed, hsome⟩ := World.exists_reachable windowLayout
    [.allocate 0, .start 0 0, .ensureSlots 0 4 0, .advance 0 4]
    (fun w => (w.reqs 0).numComputedTokens = 4 ∧
      (World.step (sampleConfig windowLayout) w (.cacheComputed 0)).isSome = true)
    (by decide +kernel)
  obtain ⟨w', hs⟩ := isSome_iff_exists.mp hsome
  exact ⟨w, w', hreach, hs, hcomputed, (fullPagesPublished_iff _ w w' hreach 0 hs).2
    (by decide) (by decide)⟩

/-- Two full groups with pages of two tokens. -/
def twoFullLayout : HybridKVLayout where
  groups := [⟨0, .full, 2, 0, false⟩, ⟨1, .full, 2, 0, false⟩]
  logicalBlockTokens := 2
  retentionInterval := 0
  speculativeTokens := 0
  maxInFlightTokens := 8
  maxModelLen := 16
  logical_pos := windowLayout.logical_pos

/-- With two full groups the first commit publishes no page of the second one, and
a request with the same prompt finds nothing to reuse. -/
theorem second_full_group_unpublished : ∃ w w',
    World.Reachable (sampleConfig twoFullLayout) w ∧
    World.step (sampleConfig twoFullLayout) w (.cacheComputed 0) = some w' ∧
    ¬ FullPagesPublished (sampleConfig twoFullLayout) w' 0 ∧
    (w'.mgr.planReuse (sampleConfig twoFullLayout) (w'.reqs 1)).map
      (fun out => out.2.2.hitTokens) = .ok 0 := by
  obtain ⟨w, hw, hgo⟩ := World.exists_reachable twoFullLayout
    [.allocate 0, .start 0 0, .ensureSlots 0 4 0, .advance 0 4]
    (fun w => (World.step (sampleConfig twoFullLayout) w (.cacheComputed 0)).any fun w' =>
      (w'.reqs 0).numComputedTokens = 4 ∧
      ((sampleConfig twoFullLayout).inputKeys (w'.reqs 0)).length = 4 ∧
      ((w'.mgr.tables.get? 0).any fun tables =>
        ((tableOf tables ⟨1, .full, 2, 0, false⟩).get? 0).any fun s =>
          !(w'.mgr.pool.blocks s).cached) ∧
      (w'.mgr.planReuse (sampleConfig twoFullLayout) (w'.reqs 1)).map
        (fun out => out.2.2.hitTokens) = .ok 0)
    (by decide +kernel)
  obtain ⟨w', hs, hrest⟩ := (any_eq_true ..).mp hgo
  obtain ⟨hcomputed, hkeys, hpage, hplan⟩ := of_decide_eq_true hrest
  refine ⟨w, w', hw, hs, fun hall => ?_, hplan⟩
  obtain ⟨tables, ht, hpage⟩ := (any_eq_true ..).mp hpage
  obtain ⟨s, hslot, hnot⟩ := (any_eq_true ..).mp hpage
  obtain ⟨key, -, tables', s', ht', hslot', hcached, -⟩ :=
    hall ⟨1, .full, 2, 0, false⟩ (by decide) rfl 0 (by rw [hcomputed, hkeys]; decide)
  rw [ht, some.injEq] at ht'
  subst ht'
  rw [hslot, some.injEq] at hslot'
  subst hslot'
  rw [hcached] at hnot
  cases hnot

end TokenSim
