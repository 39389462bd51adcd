import TokenSim.Hybrid.Naming
import TokenSim.Hybrid.Shape

/-!
# Identities of held pages

The identity of a slot in a table is the key of the page it holds.  A slot gets
an identity when a pass publishes its page or when an import completes, and at
that time it is the page of one request only: slots without an identity are
never shared (`Named`).
-/

namespace TokenSim

open List OrderedDict
open World (put_mgr put_phase_self)

open HybridKVBlockManager SlotPool

variable {cfg : HybridConfig} {leak : Nat → Nat} {w w' : World} {tables tables' : GroupTables}

/-! ## A slot that occurs once -/

/-- The tables of two groups account for their occurrences of a slot. -/
theorem slotCount_add_le_tablesCount {gid gid' : Nat} {table table' : GroupTable}
    (hne : gid ≠ gid') (h : tables.get? gid = some table) (h' : tables.get? gid' = some table')
    (s : Nat) : slotCount table s + slotCount table' s ≤ tablesCount tables s := by
  have h1 : (tables.erase gid').sum (fun _ t => slotCount t s) + slotCount table' s =
      tablesCount tables s := sum_erase_of_get? h' _
  have h2 : (tables.erase gid').get? gid = some table :=
    (get?_erase_of_ne hne).trans h
  have h3 := sum_erase_of_get? h2 fun _ t => slotCount t s
  omega

variable {rid s : Nat} {op : Op}

theorem page_unique {m : HybridKVBlockManager} (hinv : Inv cfg leak m) {rid' : Nat}
    (ht : m.tables.get? rid = some tables) (ht' : m.tables.get? rid' = some tables')
    {g g' : CacheGroup} (hg : g ∈ cfg.layout.groups) (hg' : g' ∈ cfg.layout.groups)
    {i i' : Nat} (hi : (tableOf tables g).get? i = some s)
    (hi' : (tableOf tables' g').get? i' = some s) (hone : occurrences m s ≤ 1) :
    rid = rid' ∧ g = g' ∧ i = i' := by
  obtain ⟨_, -, hheld⟩ := hinv.held ht
  obtain ⟨_, -, hheld'⟩ := hinv.held ht'
  have h1 := slotCount_pos hi
  have h1' := slotCount_pos hi'
  have h2 := slotCount_le_tablesCount (hheld.tableOf hg) s
  have h2' := slotCount_le_tablesCount (hheld'.tableOf hg') s
  by_cases hr : rid' = rid
  · subst hr
    rw [ht, Option.some.injEq] at ht'
    subst ht'
    have hle : tablesCount tables s ≤ occurrences m s := by
      have : (m.tables.erase rid').sum (fun _ t => tablesCount t s) + tablesCount tables s =
        occurrences m s := sum_erase_of_get? ht _
      omega
    by_cases hgid : g.groupId = g'.groupId
    · obtain rfl := cfg.layout.eq_of_groupId hg hg' hgid
      refine ⟨rfl, rfl, ?_⟩
      by_contra hne
      -- without page `i` the slot still occurs
      have h3 := slotCount_erase hi s
      have h4 : ((tableOf tables g).erase i).get? i' = some s :=
        (get?_erase_of_ne (Ne.symm hne)).trans hi'
      have h5 := slotCount_pos h4
      rw [if_pos rfl] at h3
      omega
    · have := slotCount_add_le_tablesCount hgid (hheld.tableOf hg) (hheld'.tableOf hg') s
      omega
  · have hle : ownCount m rid s + ownCount m rid' s ≤ _ := ownCount_add_le hr s
    rw [ownCount_of_get? ht, ownCount_of_get? ht'] at hle
    omega

/-! ## What a step does to identities -/

/-- The pages that are taken over when a request is admitted have identities;
when an import is under way, all but its targets have. -/
def Taken (cfg : HybridConfig) (m : HybridKVBlockManager) (rid : Nat) (tables : GroupTables) :
    Phase → Prop
  | .admitted hit => m.cachedProgress.get? rid = some (hit / cfg.blockSize) ∧
      ∀ g ∈ cfg.layout.groups, ∀ i s, (tableOf tables g).get? i = some s →
        (m.pool.blocks s).blockHash ≠ none
  | .loading targets _ => ∀ g ∈ cfg.layout.groups, ∀ i s, (tableOf tables g).get? i = some s →
      (m.pool.blocks s).blockHash ≠ none ∨ s ∈ targets.map Destination.slot
  | .absent | .active _ _ _ => True

/-- Identities of held pages. -/
structure Named (cfg : HybridConfig) (w : World) : Prop where
  keys : ∀ rid tables, w.mgr.tables.get? rid = some tables → ∀ g ∈ cfg.layout.groups, ∀ i s key,
    (tableOf tables g).get? i = some s → (w.mgr.pool.blocks s).blockHash = some key →
    cfg.slotKey (w.reqs rid) g i = .ok (some key)
  /-- Slots without an identity are not shared. -/
  sole : ∀ s, (w.mgr.pool.blocks s).blockHash = none → occurrences w.mgr s ≤ 1
  targets : ∀ rid targets boundary, w.phase rid = .loading targets boundary → ∀ t ∈ targets,
    ∃ g ∈ cfg.layout.groups, g.groupId = t.groupId ∧
      cfg.slotKey (w.reqs rid) g t.index = .ok (some t.key)
  taken : ∀ rid tables, w.mgr.tables.get? rid = some tables →
    Taken cfg w.mgr rid tables (w.phase rid)

/-- Publishing keeps the identities that there are. -/
theorem Publishes.blockHash {m m' : HybridKVBlockManager} {r : Request}
    {own : CacheGroup → Nat → Nat → Prop} {key : SlotKey} (h : Publishes cfg r own m m')
    (hinv : Inv cfg leak m) (hs : (m.pool.blocks s).blockHash = some key) :
    (m'.pool.blocks s).blockHash = some key := by
  rw [(h.cached s ((hinv.pool.map.cached_iff s).mpr (by rw [hs]; simp))).2, hs]

section

variable (h : WorldOk cfg leak w) (hs : Steps cfg leak w op w')
include h hs

/-- An identity is an old one, or it is the key of a page whose slot had none. -/
theorem Steps.identity (hn : Named cfg w) {key : SlotKey}
    (hname : (w'.mgr.pool.blocks s).blockHash = some key) :
    (w.mgr.pool.blocks s).blockHash = some key ∨ (w.mgr.pool.blocks s).blockHash = none ∧
      ∃ rid tables, w.mgr.tables.get? rid = some tables ∧ ∃ g ∈ cfg.layout.groups, ∃ i,
        (tableOf tables g).get? i = some s ∧ cfg.slotKey (w.reqs rid) g i = .ok (some key) := by
  have hmap : ∀ {p : SlotPool SlotKey}, w.mgr.pool.SameMap p →
      (p.blocks s).blockHash = some key → (w.mgr.pool.blocks s).blockHash = some key :=
    fun hp hk => (hp.blockHash s).symm.trans hk
  have hrenews : ∀ {m' : HybridKVBlockManager} {tables tables' : GroupTables},
      Renews cfg w.mgr m' tables tables' → (m'.pool.blocks s).blockHash = some key →
      (w.mgr.pool.blocks s).blockHash = some key := by
    rintro m' tables tables' ⟨new, hnew, hold, -⟩ hk
    by_cases hmem : s ∈ new
    · rw [(hnew s hmem).1] at hk
      cases hk
    · exact (hold s hmem).1.symm.trans hk
  cases hs with
  | allocate _ admits => exact .inl (hmap admits.sameMap hname)
  | beginImport _ _ _ _ _ imports => exact .inl (hrenews imports.renews hname)
  | @finishImport rid boundary targets _ phase finishes =>
    by_cases hmem : s ∈ targets.map Destination.slot
    · obtain ⟨t, ht, rfl⟩ := mem_map.mp hmem
      have hpriv := h.loading rid targets boundary phase
      obtain ⟨own, hown, g, hg, hgid, hget⟩ := hpriv.held t ht
      obtain ⟨g', hg', hgid', hkey⟩ := hn.targets rid targets boundary phase t ht
      obtain rfl := cfg.layout.eq_of_groupId hg hg' (hgid.trans hgid'.symm)
      rw [put_mgr, (finishes.entered t ht).1] at hname
      cases hname
      exact .inr ⟨hpriv.unnamed t ht, rid, own, hown, g, hg, t.index, hget, hkey⟩
    · rw [put_mgr, finishes.other s hmem] at hname
      exact .inl hname
  | ensureSlots _ ensures => exact .inl (hrenews ensures.renews hname)
  | @cacheComputed rid _ _ _ _ tables _ _ known _ publishes =>
    rw [put_mgr] at hname
    obtain ⟨log, -, hall, hnamed⟩ := publishes.published
    cases hold : (w.mgr.pool.blocks s).blockHash with
    | some key' => exact .inl ((publishes.blockHash h.inv hold).symm.trans hname)
    | none =>
      rcases hnamed s with hsame | ⟨e, he, rfl⟩
      · rw [hsame, hold] at hname
        cases hname
      · obtain ⟨-, hkey, -, g, hg, -, hown, hslot⟩ := hall e he
        rw [hkey] at hname
        cases hname
        exact .inr ⟨rfl, rid, tables, known, g, hg, e.index, hown.2, hslot⟩
  | release releases => exact .inl (hmap releases.sameMap hname)
  | pin transfers | unpin transfers => exact .inl (hmap transfers.sameMap hname)
  | _ => exact .inl hname

/-- A page with an identity was held before, or was found under its key. -/
theorem Steps.page (ht : w'.mgr.tables.get? rid = some tables') {g : CacheGroup}
    (hg : g ∈ cfg.layout.groups) {i : Nat} {key : SlotKey}
    (hi : (tableOf tables' g).get? i = some s) (hname : (w'.mgr.pool.blocks s).blockHash = some key) :
    (∃ tables, w.mgr.tables.get? rid = some tables ∧ (tableOf tables g).get? i = some s) ∨
      cfg.slotKey (w.reqs rid) g i = .ok (some key) := by
  have hrenews : ∀ {m' : HybridKVBlockManager} {tables own : GroupTables},
      Retables w.mgr rid m' tables own → Renews cfg w.mgr m' tables own →
      m'.tables.get? rid = some tables' → (m'.pool.blocks s).blockHash = some key →
      ∃ tables, w.mgr.tables.get? rid = some tables ∧ (tableOf tables g).get? i = some s := by
    rintro m' tables own hre ⟨new, hnew, -, hpages⟩ ht hk
    rw [hre.get?_self, Option.some.injEq] at ht
    subst ht
    rcases hpages g hg i s hi with hmem | hold
    · rw [(hnew s hmem).1] at hk
      cases hk
    · exact ⟨tables, hre.known, hold⟩
  by_cases hsub : op.subject ≠ some rid
  · exact .inl ⟨tables', (hs.undisturbed h hsub).tables.symm.trans ht, hi⟩
  · rw [not_not] at hsub
    cases hs with
    | allocate _ admits =>
      cases hsub
      rw [put_mgr, admits.tables, h.ids, get?_set_self, Option.some.injEq] at ht
      subst ht
      obtain ⟨key', hkey, hfound⟩ := admits.page hg hi
      rw [put_mgr, admits.sameMap.blockHash, (h.inv.slot_of_cache hfound).2.2] at hname
      cases hname
      exact .inr hkey
    | beginImport _ _ _ _ _ imports =>
      cases hsub
      exact .inl (hrenews (imports.retables (h.ids rid)) imports.renews ht hname)
    | ensureSlots _ ensures =>
      cases hsub
      exact .inl (hrenews (ensures.retables (h.ids rid)) ensures.renews ht hname)
    | finishImport _ finishes =>
      rw [put_mgr, finishes.tables] at ht
      exact .inl ⟨tables', ht, hi⟩
    | cacheComputed _ _ _ _ publishes =>
      rw [put_mgr, publishes.tables] at ht
      exact .inl ⟨tables', ht, hi⟩
    | release releases =>
      cases hsub
      rw [put_mgr, releases.tables, h.ids, get?_erase_self] at ht
      cases ht
    | pin | unpin => cases hsub
    | _ => exact .inl ⟨tables', ht, hi⟩

theorem Steps.sole (hn : Named cfg w) (hname : (w'.mgr.pool.blocks s).blockHash = none) :
    occurrences w'.mgr s ≤ 1 := by
  have hsame : ∀ {m' : HybridKVBlockManager}, m'.tables = w.mgr.tables →
      (w.mgr.pool.blocks s).blockHash = none → occurrences m' s ≤ 1 := by
    intro m' htab hnone
    have := hn.sole s hnone
    unfold occurrences at this ⊢
    rw [htab]
    exact this
  have hrenews : ∀ {m' : HybridKVBlockManager} {tables tables' : GroupTables},
      Renews cfg w.mgr m' tables tables' → (m'.pool.blocks s).blockHash = none →
      occurrences m' s ≤ 1 := by
    rintro m' tables tables' ⟨new, hnew, hold, -⟩ hk
    by_cases hmem : s ∈ new
    · exact (hnew s hmem).2
    · obtain ⟨hhash, hle⟩ := hold s hmem
      exact le_trans hle (hn.sole s (hhash.symm.trans hk))
  cases hs with
  | @allocate _ m' _ tables' _ admits =>
    rw [put_mgr, admits.sameMap.blockHash] at hname
    have h1 := admits.not_target h.inv hname
    have h2 := hn.sole s hname
    have h3 : occurrences m' s = occurrences w.mgr s + tablesCount tables' s := by
      unfold occurrences
      rw [admits.tables]
      exact sum_set_of_get?_none admits.unknown _ _
    rw [put_mgr]
    omega
  | beginImport _ _ _ _ _ imports => exact hrenews imports.renews hname
  | @finishImport _ _ targets _ _ finishes =>
    refine hsame finishes.tables ?_
    by_cases hmem : s ∈ targets.map Destination.slot
    · obtain ⟨t, ht, rfl⟩ := mem_map.mp hmem
      rw [put_mgr, (finishes.entered t ht).1] at hname
      cases hname
    · rw [put_mgr, finishes.other s hmem] at hname
      exact hname
  | ensureSlots _ ensures => exact hrenews ensures.renews hname
  | cacheComputed _ _ _ _ publishes =>
    refine hsame publishes.tables ?_
    rw [put_mgr] at hname
    cases hold : (w.mgr.pool.blocks s).blockHash with
    | none => rfl
    | some key => cases (publishes.blockHash h.inv hold).symm.trans hname
  | @release rid _ _ releases =>
    rw [put_mgr, releases.sameMap.blockHash] at hname
    refine le_trans ?_ (hn.sole s hname)
    rw [put_mgr, occurrences, releases.tables]
    exact Nat.le.intro (occurrences_eq w.mgr (w.reqs rid).id s)
  | pin transfers | unpin transfers =>
    exact hsame transfers.tables ((transfers.sameMap.blockHash s).symm.trans hname)
  | _ => exact hsame rfl hname

/-- The pages an admitted request took over keep their identities. -/
theorem Steps.taken (hn : Named cfg w) (ht : w'.mgr.tables.get? rid = some tables') :
    Taken cfg w'.mgr rid tables' (w'.phase rid) := by
  by_cases hsub : op.subject ≠ some rid
  · have hun := hs.undisturbed h hsub
    have ht' := hun.tables.symm.trans ht
    -- an identity of a held slot stays
    have hkept : ∀ g ∈ cfg.layout.groups, ∀ i s, (tableOf tables' g).get? i = some s →
        (w.mgr.pool.blocks s).blockHash ≠ none → (w'.mgr.pool.blocks s).blockHash ≠ none := by
      intro g hg i s hi hname
      have hpos := h.inv.tablesCount_pos ht' hg hi
      rw [(hun.cached tables' ht' s hpos ((h.inv.pool.map.cached_iff s).mpr hname)).2]
      exact hname
    have htaken := hn.taken rid tables' ht'
    rw [hun.phase]
    cases hphase : w.phase rid with
    | absent | active => trivial
    | admitted hit =>
      rw [hphase] at htaken
      refine ⟨hun.cachedProgress.trans htaken.1, fun g hg i s hi => ?_⟩
      exact hkept g hg i s hi (htaken.2 g hg i s hi)
    | loading targets boundary =>
      rw [hphase] at htaken
      exact fun g hg i s hi => (htaken g hg i s hi).imp_left (hkept g hg i s hi)
  · rw [not_not] at hsub
    cases hs with
    | plan | generate =>
      cases hsub
      rw [put_phase_self]
      exact hn.taken rid tables' ht
    | allocate _ admits =>
      cases hsub
      rw [put_phase_self, put_mgr]
      rw [put_mgr, admits.tables, h.ids, get?_set_self, Option.some.injEq] at ht
      subst ht
      refine ⟨?_, fun g hg i s hi => ?_⟩
      · rw [admits.cachedProgress, h.ids, get?_set_self]
      · rw [admits.sameMap.blockHash]
        obtain ⟨key, -, hfound⟩ := admits.page hg hi
        rw [(h.inv.slot_of_cache hfound).2.2]
        exact nofun
    | @beginImport _ _ _ _ _ _ _ t t' phase _ _ _ _ imports =>
      cases hsub
      have hre := imports.retables (h.ids rid)
      have htaken := hn.taken rid t hre.known
      rw [phase] at htaken
      rw [put_phase_self, put_mgr]
      rw [put_mgr, hre.get?_self, Option.some.injEq] at ht
      subst ht
      intro g hg i s hi
      refine (imports.page hg hi).imp_left fun ⟨hnot, hget⟩ => ?_
      rw [(imports.carries.kept s (.inr ⟨g, hg, i, hnot, hget⟩)).1]
      exact htaken.2 g hg i s hget
    | advance phase | cacheComputed phase =>
      cases hsub
      rw [put_phase_self, phase]
      trivial
    | pin | unpin => cases hsub
    | _ =>
      cases hsub
      rw [put_phase_self]
      trivial

theorem Named.step (hn : Named cfg w) : Named cfg w' where
  keys rid tables' ht g hg i s key hi hname := by
    refine HybridConfig.slotKey_extend hg (hs.progress rid).toExtends ?_
    rcases hs.page h ht hg hi hname with ⟨tables, htab, hold⟩ | hkey
    · rcases hs.identity h hn hname with hname' | ⟨hnone, rid', t, ht', g', hg', i', hi', hkey⟩
      · exact hn.keys rid tables htab g hg i s key hold hname'
      · -- the slot was unshared, so this is the page that was published
        obtain ⟨rfl, rfl, rfl⟩ :=
          page_unique h.inv htab ht' hg hg' hold hi' (hn.sole s hnone)
        exact hkey
    · exact hkey
  sole s hname := hs.sole h hn hname
  targets rid targets boundary hphase t ht := by
    have hextend : ∀ {r : Request}, HybridConfig.Extends r (w'.reqs rid) →
        (∃ g ∈ cfg.layout.groups, g.groupId = t.groupId ∧
          cfg.slotKey r g t.index = .ok (some t.key)) →
        ∃ g ∈ cfg.layout.groups, g.groupId = t.groupId ∧
          cfg.slotKey (w'.reqs rid) g t.index = .ok (some t.key) := by
      rintro r hr ⟨g, hg, hgid, hkey⟩
      exact ⟨g, hg, hgid, HybridConfig.slotKey_extend hg hr hkey⟩
    refine hextend (hs.progress rid).toExtends ?_
    by_cases hsub : op.subject ≠ some rid
    · rw [(hs.undisturbed h hsub).phase] at hphase
      exact hn.targets rid targets boundary hphase t ht
    · rw [not_not] at hsub
      cases hs with
      | plan | generate =>
        cases hsub
        rw [put_phase_self] at hphase
        exact hn.targets rid targets boundary hphase t ht
      | beginImport _ _ _ _ keys imports =>
          cases hsub
          rw [put_phase_self] at hphase
          cases hphase
          obtain ⟨g, hg, hgid, hmem, -⟩ := imports.written t ht
          exact ⟨g, hg, hgid, keys g hg _ hmem⟩
      | advance phase | cacheComputed phase =>
        cases hsub
        rw [put_phase_self, phase] at hphase
        cases hphase
      | pin | unpin => cases hsub
      | _ =>
        cases hsub
        rw [put_phase_self] at hphase
        cases hphase
  taken rid tables' ht := hs.taken h hn ht

end

theorem World.Reachable.named (h : World.Reachable cfg w) : Named cfg w := by
  obtain ⟨reqs, hreqs, hrun⟩ := h
  have := hrun.invariant (P := fun w => WellFormed cfg w ∧ Named cfg w)
    ⟨wellFormed_init hreqs.id, nofun, fun _ _ => Nat.zero_le _,
      nofun, nofun⟩ fun h _ hs => by
      obtain ⟨leak, hok⟩ := h.1.ok
      exact ⟨h.1.step hs, h.2.step hok (step_cases hok hs)⟩
  exact this.2

end TokenSim
