import TokenSim.Hybrid.Naming
import TokenSim.Hybrid.Shape

/-!
# Prefix isolation

A page that one request published is hit by another only when the two agree on
everything up to the end of the block that names the page, and that block lies
inside the known prompt of both.

Every publication is logged.  A log entry stays the key of its page
(`LogOk`), and a plan finds pages under the planning request's own keys, so both
requests have one key for the page.  A key that names a request belongs to that
request alone, and a key of known content stands for one prefix.
-/

namespace TokenSim

open List
open HybridConfig (blockKeys_cases hashedTexts_extend prefixTexts_subset slotKey_eq_some)

open HybridKVBlockManager

variable {cfg : HybridConfig} {leak : Nat → Nat} {w w' : World}

/-- Page `i` of request `a` and page `j` of request `b` end in one known block,
and the two requests agree up to its end. -/
structure SharesPrefix (cfg : HybridConfig) (a b : Request) (g : CacheGroup) (i j : Nat) :
    Prop where
  cacheSalt : a.cacheSalt = b.cacheSalt
  reuseGroup : a.reuseGroup = b.reuseGroup
  block : cfg.containing a g i = cfg.containing b g j
  signatures : ((cfg.naming a g).1.take (cfg.containing a g i + 1)).map HashId.signature =
    ((cfg.naming b g).1.take (cfg.containing a g i + 1)).map HashId.signature
  /-- The block has a hash and lies inside the prompt. -/
  known : cfg.containing a g i < (cfg.naming a g).1.length ∧
    (cfg.containing a g i + 1) * (cfg.naming a g).2 ≤ a.prefillLen
  known' : cfg.containing b g j < (cfg.naming b g).1.length ∧
    (cfg.containing b g j + 1) * (cfg.naming b g).2 ≤ b.prefillLen

theorem known_of_buildPrefixKeys {r : Request} {hashes : List HashId} {size i : Nat}
    {key : PrefixCacheKey}
    (h : (buildPrefixKeys cfg.sha256 (hashes.take (r.prefillLen / size)) cfg.model r.cacheSalt
      r.reuseGroup)[i]? = some key) : i < hashes.length ∧ (i + 1) * size ≤ r.prefillLen := by
  have hlt := (List.getElem?_eq_some_iff.mp h).1
  rw [length_buildPrefixKeys, length_take, Nat.lt_min] at hlt
  exact ⟨hlt.2, Nat.mul_le_of_le_div _ _ _ hlt.1⟩

/-- Two requests with one key for a page share its prefix. -/
theorem sharesPrefix_of_slotKey {a b : Request} {g : CacheGroup} {i j : Nat} {key : SlotKey}
    (hg : g ∈ cfg.layout.groups) (hid : a.cacheIdentity ≠ b.cacheIdentity)
    (hinj : cfg.HashInjOn (cfg.hashedTexts a ++ cfg.hashedTexts b))
    (ha : cfg.slotKey a g i = .ok (some key)) (hb : cfg.slotKey b g j = .ok (some key)) :
    SharesPrefix cfg a b g i j := by
  obtain ⟨-, -, -, hblock, -⟩ := (slotKey_eq_some hg).mp ha
  obtain ⟨-, -, -, hblock', -⟩ := (slotKey_eq_some hg).mp hb
  rcases blockKeys_cases hblock with ⟨p, hp, hprefix⟩ | ⟨l, hl, hown, -⟩
  · rcases blockKeys_cases hblock' with ⟨p', hp', hprefix'⟩ | ⟨l', hl', -, -⟩
    · obtain rfl : p = p' := by
        rw [hp] at hp'
        exact BlockKey.prompt.inj hp'
      have hknown := known_of_buildPrefixKeys hprefix
      have hknown' := known_of_buildPrefixKeys hprefix'
      obtain ⟨-, hsalt, hgroup, hsame, hsig⟩ := buildPrefixKeys_inj (hinj.mono (append_subset.mpr
          ⟨subset_append_of_subset_left _ (prefixTexts_subset a g),
            subset_append_of_subset_right _ (prefixTexts_subset b g)⟩))
        hprefix hprefix'
      refine ⟨hsalt, hgroup, hsame, ?_, hknown, hknown'⟩
      have hle : cfg.containing a g i + 1 ≤ a.prefillLen / (cfg.naming a g).2 := by
        have := (List.getElem?_eq_some_iff.mp hprefix).1
        rw [length_buildPrefixKeys, length_take, Nat.lt_min] at this
        exact this.1
      have hle' : cfg.containing a g i + 1 ≤ b.prefillLen / (cfg.naming b g).2 := by
        have := (List.getElem?_eq_some_iff.mp hprefix').1
        rw [length_buildPrefixKeys, length_take, Nat.lt_min, ← hsame] at this
        exact this.1
      rwa [take_take, take_take, min_eq_left hle, min_eq_left hle'] at hsig
    · rw [hp] at hl'
      cases hl'
  · rcases blockKeys_cases hblock' with ⟨p', hp', -⟩ | ⟨l', hl', hown', -⟩
    · rw [hl] at hp'
      cases hp'
    · -- a key that names a request belongs to it
      rw [hl] at hl'
      cases hl'
      exact absurd (hown.symm.trans hown') hid

/-! ## The log of publications -/

/-- Every logged page is a page of its request, under the key it still has. -/
def LogOk (cfg : HybridConfig) (w : World) : Prop :=
  ∀ e ∈ w.mgr.published, ∃ g ∈ cfg.layout.groups, g.groupId = e.groupId ∧
    cfg.slotKey (w.reqs e.requestId) g e.index = .ok (some e.key)

/-- What a step adds to the log. -/
theorem Steps.published {op : Op} (h : WorldOk cfg leak w) (hs : Steps cfg leak w op w') :
    ∃ log, w'.mgr.published = w.mgr.published ++ log ∧ ∀ e ∈ log, ∃ g ∈ cfg.layout.groups,
      g.groupId = e.groupId ∧ cfg.slotKey (w.reqs e.requestId) g e.index = .ok (some e.key) := by
  have hsame : w'.mgr.published = w.mgr.published →
      ∃ log, w'.mgr.published = w.mgr.published ++ log ∧ ∀ e ∈ log, ∃ g ∈ cfg.layout.groups,
        g.groupId = e.groupId ∧
        cfg.slotKey (w.reqs e.requestId) g e.index = .ok (some e.key) :=
    fun he => ⟨[], by rw [he, append_nil], nofun⟩
  cases hs with
  | allocate _ admits => exact hsame admits.published
  | beginImport _ _ _ _ _ imports => exact hsame imports.records.published
  | finishImport _ finishes => exact hsame finishes.published
  | ensureSlots _ ensures => exact hsame ensures.records.published
  | cacheComputed _ _ _ _ publishes =>
    obtain ⟨log, hlog, hall, -⟩ := publishes.published
    refine ⟨log, hlog, fun e he => ?_⟩
    obtain ⟨hid, -, -, g, hg, hgid, -, hkey⟩ := hall e he
    rw [h.ids] at hid
    exact ⟨g, hg, hgid, hid ▸ hkey⟩
  | release releases => exact hsame releases.published
  | pin transfers => exact hsame transfers.published
  | unpin transfers => exact hsame transfers.published
  | _ => exact hsame rfl

theorem LogOk.step {op : Op} (h : LogOk cfg w) (hok : WorldOk cfg leak w)
    (hs : Steps cfg leak w op w') : LogOk cfg w' := by
  obtain ⟨log, hlog, hall⟩ := hs.published hok
  intro e he
  rw [hlog] at he
  obtain ⟨g, hg, hgid, hkey⟩ := (mem_append.mp he).elim (h e) (hall e)
  exact ⟨g, hg, hgid, HybridConfig.slotKey_extend hg (hs.progress e.requestId).toExtends hkey⟩

theorem World.Reachable.logOk (h : World.Reachable cfg w) : LogOk cfg w := by
  obtain ⟨reqs, hreqs, hrun⟩ := h
  have := hrun.invariant (P := fun w => WellFormed cfg w ∧ LogOk cfg w)
    ⟨wellFormed_init hreqs.id, nofun⟩ fun h _ hs => by
      obtain ⟨leak, hok⟩ := h.1.ok
      exact ⟨h.1.step hs, h.2.step hok (step_cases hok hs)⟩
  exact this.2

/-! ## Isolation -/

/-- Every page of a plan is in a slot whose identity is the planning request's
key of the page. -/
theorem WorldOk.planned {m' : HybridKVBlockManager} {r' : Request} {plan : HybridReusePlan}
    {b : Nat} (h : WorldOk cfg leak w)
    (hplan : w.mgr.planReuse cfg (w.reqs b) = .ok (m', r', plan)) {gid : Nat}
    {pairs : List (Nat × Nat)} (hpairs : (gid, pairs) ∈ plan.groupHits) {j s : Nat}
    (hpage : (j, s) ∈ pairs) : ∃ g ∈ cfg.layout.groups, g.groupId = gid ∧
      ∃ key, cfg.slotKey (w.reqs b) g j = .ok (some key) ∧
        (w.mgr.pool.blocks s).blockHash = some key := by
  obtain ⟨hok, -⟩ := planReuse_spec (h.memo b) hplan
  rcases hok.hits with ⟨-, hnil⟩ | ⟨blocks, -, -, -, hhits⟩
  · rw [hnil] at hpairs
    exact nomatch hpairs
  · obtain ⟨listed, hlisted, hall⟩ := hhits.listed
    rw [hlisted] at hpairs
    obtain ⟨g, hg, he⟩ := mem_map.mp hpairs
    cases he
    obtain ⟨key, hkey, hfound⟩ := (hall g hg).2 _ hpage
    exact ⟨g, hg, rfl, key, hkey, (h.inv.slot_of_cache hfound).2.2⟩

/-- Isolation: a page in a plan of request `b` that another request `a`
published ends in a known block of both, and `a` and `b` agree up to its end;
for every layout and every run.  The key function of a request is total and
injective, in every context it grows to, exactly when the short pages fit evenly
into the blocks of its trace. -/
theorem prefix_isolation (cfg : HybridConfig) :
    (∀ w, World.Reachable cfg w →
      (∀ i j, (w.reqs i).cacheIdentity = (w.reqs j).cacheIdentity → i = j) →
      ∀ a b, a ≠ b →
      cfg.HashInjOn (cfg.hashedTexts (w.reqs a) ++ cfg.hashedTexts (w.reqs b)) →
      ∀ m' r' plan, w.mgr.planReuse cfg (w.reqs b) = .ok (m', r', plan) →
      ∀ gid pairs, (gid, pairs) ∈ plan.groupHits → ∀ j s, (j, s) ∈ pairs →
      ∀ e ∈ w.mgr.published, e.requestId = a → e.slot = s →
      (w.mgr.pool.blocks s).blockHash = some e.key →
      ∃ g ∈ cfg.layout.groups, g.groupId = gid ∧ e.groupId = gid ∧
        SharesPrefix cfg (w.reqs a) (w.reqs b) g e.index j) ∧
    ∀ digest r, cfg.TraceAccepted digest r → cfg.HashInjOn (cfg.hashedTexts r) →
      ((∀ r', HybridConfig.Extends r r' → cfg.SlotKeysOk r') ↔ cfg.PagesFitTrace r) := by
  refine ⟨?_, fun digest r haccept hinj => HybridConfig.slotKeysOk_iff haccept hinj⟩
  intro w hw hunique a b hne hinj m' r' plan hplan gid pairs hpairs j s hpage e he hea hes hname
  obtain ⟨leak, hok⟩ := hw.wellFormed.ok
  obtain ⟨g, hg, hgid, key, hkey, hslot⟩ := hok.planned hplan hpairs hpage
  obtain ⟨g', hg', hgid', hkey'⟩ := hw.logOk e he
  rw [hname, Option.some.injEq] at hslot
  -- the group is part of the key
  obtain ⟨-, -, hkg, -, -⟩ := (slotKey_eq_some hg).mp hkey
  obtain ⟨-, -, hkg', -, -⟩ := (slotKey_eq_some hg').mp hkey'
  obtain rfl : g' = g := HybridKVLayout.eq_of_groupId hg' hg (by rw [← hkg, ← hkg', hslot])
  refine ⟨g', hg', hgid, hgid'.symm.trans hgid, ?_⟩
  rw [hea, hslot] at hkey'
  exact sharesPrefix_of_slotKey hg' (fun h => hne (hunique a b h)) hinj hkey' hkey

/-- Request 1 plans with a window page that request 0 published; and the key
function of a request without a trace. -/
theorem prefix_isolation_sample :
    (∃ w, World.Reachable (sampleConfig windowLayout) w ∧
      SharesPrefix (sampleConfig windowLayout) (w.reqs 0) (w.reqs 1) ⟨1, .window, 1, 3, false⟩ 3 3) ∧
    (sampleConfig windowLayout).SlotKeysOk (sampleRequest (sampleConfig windowLayout) 0) := by
  have hinj : (sampleConfig windowLayout).HashInjOn
      ((sampleConfig windowLayout).hashedTexts (sampleRequest (sampleConfig windowLayout) 0) ++
        (sampleConfig windowLayout).hashedTexts
          (sampleRequest (sampleConfig windowLayout) 1)) := by
    have hnodup : (((sampleConfig windowLayout).hashedTexts
        (sampleRequest (sampleConfig windowLayout) 0)).map sampleSha256).Nodup := by
      decide +kernel
    intro x hx y hy hxy
    exact inj_on_of_nodup_map hnodup ((mem_append.mp hx).elim id id)
      ((mem_append.mp hy).elim id id) hxy
  constructor
  · obtain ⟨w, hw, hplan, e, he, hea, hei, hes, hname⟩ :=
      exists_reaches (World.step (sampleConfig windowLayout)) (fun _ _ => True)
        (World.sample windowLayout)
        [.allocate 0, .start 0 0, .ensureSlots 0 4 0, .advance 0 4, .cacheComputed 0]
        (fun w => ((w.mgr.planReuse (sampleConfig windowLayout) (w.reqs 1)).toOption.map
            fun x => x.2.2.groupHits) = some [(0, [(0, 1), (1, 2)]), (1, [(2, 5), (3, 6)])] ∧
          ∃ e ∈ w.mgr.published, e.requestId = 0 ∧ e.index = 3 ∧ e.slot = 6 ∧
            (w.mgr.pool.blocks 6).blockHash = some e.key) (by decide +kernel)
    obtain ⟨⟨m', r', plan⟩, hplan, hhits⟩ := Option.map_eq_some_iff.mp hplan
    have hreach : World.Reachable (sampleConfig windowLayout) w :=
      ⟨_, sampleRequest_arriving _, hw⟩
    have hmoved := (wellFormed_init (sampleRequest_arriving _).id).progress hw
    obtain ⟨g, hg, hgid, -, hshares⟩ := (prefix_isolation (sampleConfig windowLayout)).1 w hreach
      (fun i j h => by
        rw [(hmoved i).cacheIdentity, (hmoved j).cacheIdentity] at h
        exact h)
      0 1 (by decide)
      (by
        rw [hashedTexts_extend (hmoved 0).toExtends, hashedTexts_extend (hmoved 1).toExtends]
        exact hinj)
      m' r' plan (toOption_eq_some hplan) 1 [(2, 5), (3, 6)] (by rw [hhits]; decide) 3 6
      (by decide) e he hea hes hname
    obtain rfl : g = ⟨1, .window, 1, 3, false⟩ :=
      HybridKVLayout.eq_of_groupId hg (by decide) hgid
    exact ⟨w, hreach, hei ▸ hshares⟩
  · refine ((prefix_isolation (sampleConfig windowLayout)).2 (fun _ => "")
      (sampleRequest (sampleConfig windowLayout) 0) nofun
      (hinj.mono (subset_append_left ..))).mpr nofun _
      (Progress.refl _).toExtends

/-- Pages of two tokens in engine blocks of six. -/
def traceLayout : HybridKVLayout where
  groups := [⟨0, .full, 6, 0, false⟩, ⟨1, .window, 2, 3, false⟩]
  logicalBlockTokens := 6
  retentionInterval := 0
  speculativeTokens := 0
  maxInFlightTokens := 8
  maxModelLen := 24

/-- A request whose prompt is one engine block, from a trace. -/
def traceRequest (traceBlockSize : Nat) (words : List Int) : Request where
  id := 0
  prefillLen := 6
  decodeLen := 1
  blockSize := 6
  cacheIdentity := 0
  traceHashIds := some (words.map .int)
  traceBlockSize := traceBlockSize

/-- Trace blocks of one token are shorter than the pages: the key function
raises.  In trace blocks of three tokens two pages have one key. -/
theorem slotKey_of_misfit :
    (∀ digest, (sampleConfig traceLayout).TraceAccepted digest
      (traceRequest 1 [1, 2, 3, 4, 5, 6])) ∧
    (sampleConfig traceLayout).slotKey (traceRequest 1 [1, 2, 3, 4, 5, 6])
      ⟨1, .window, 2, 3, false⟩ 0 = .error .zeroDivision ∧
    (∀ digest, (sampleConfig traceLayout).TraceAccepted digest (traceRequest 3 [1, 2])) ∧
    ∃ key, (sampleConfig traceLayout).slotKey (traceRequest 3 [1, 2])
        ⟨1, .window, 2, 3, false⟩ 1 = .ok (some key) ∧
      (sampleConfig traceLayout).slotKey (traceRequest 3 [1, 2])
        ⟨1, .window, 2, 3, false⟩ 2 = .ok (some key) := by
  refine ⟨fun digest hashes h => ?_, by decide +kernel, fun digest hashes h => ?_, ?_⟩
  · cases h
    exact ⟨[1, 2, 3, 4, 5, 6], _, rfl, rfl⟩
  · cases h
    exact ⟨[1, 2], _, rfl, rfl⟩
  · have hsame : (sampleConfig traceLayout).slotKey (traceRequest 3 [1, 2])
        ⟨1, .window, 2, 3, false⟩ 1 = (sampleConfig traceLayout).slotKey (traceRequest 3 [1, 2])
        ⟨1, .window, 2, 3, false⟩ 2 := by decide +kernel
    have hsome : ((sampleConfig traceLayout).slotKey (traceRequest 3 [1, 2])
        ⟨1, .window, 2, 3, false⟩ 2).toOption.join.isSome = true := by decide +kernel
    obtain ⟨key, hkey⟩ := Option.isSome_iff_exists.mp hsome
    have hkey : (sampleConfig traceLayout).slotKey (traceRequest 3 [1, 2])
        ⟨1, .window, 2, 3, false⟩ 2 = .ok (some key) :=
      toOption_eq_some (Option.join_eq_some_iff.mp hkey)
    exact ⟨key, hsame.trans hkey, hkey⟩

end TokenSim
