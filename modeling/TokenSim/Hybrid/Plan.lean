import TokenSim.Hybrid.Manager
import TokenSim.Hybrid.SlotPoolInvariant

/-!
# What a reuse plan contains

A plan that returned found every page it was asked for.  `demandedPages` are
the pages of a group that a prefix of engine blocks needs; `Finds` says that a
page is found under its key.  A plan with a hit lists, for every group, the
demanded pages (without the one past the boundary), each found in the prefix
map (`computePlan_spec`); a prefix whose pages are all found is never missed
(`le_hitTokens_of_finds`).

Plans are memoised.  The memo is keyed by the version of the prefix map, and as
long as it is valid the plan is the one that would be computed
(`MemoOk`, `planReuse_spec`).
-/

namespace TokenSim

open List Option

open Except

variable {β : Type} {cfg : HybridConfig} {r : Request} {find : SlotKey → Option β}

/-- The pages of a group that a prefix of `blocks` engine blocks needs. -/
def demandedPages (cfg : HybridConfig) (g : CacheGroup) (blocks : Nat) : List Nat :=
  if g.windowTokens = 0 then List.range blocks else tailPages g (blocks * cfg.blockSize)

/-- Page `index` of a group is found under its key. -/
def Finds (cfg : HybridConfig) (r : Request) (find : SlotKey → Option β) (g : CacheGroup)
    (index : Nat) (page : β) : Prop :=
  ∃ key, cfg.slotKey r g index = .ok (some key) ∧ find key = some page

variable {g : CacheGroup} {probe : CacheGroup → Except Err (Option (List (Nat × β)))}
  {hitsAt : Nat → Except Err (Option (GroupHits β))} {cache : OrderedDict SlotKey Nat}
  {r' : Request}

theorem lookupPages_spec : ∀ {indices : List Nat} {pairs : List (Nat × Option β)},
    lookupPages cfg r find g indices = .ok pairs →
    (∀ hits, allFound pairs = some hits →
      hits.map Prod.fst = indices ∧ ∀ e ∈ hits, Finds cfg r find g e.1 e.2) ∧
    (allFound pairs = none → ∃ i ∈ indices, ∀ page, ¬ Finds cfg r find g i page)
  | [], pairs, h => by
    cases h
    refine ⟨fun hits hh => ?_, nofun⟩
    cases hh
    exact ⟨rfl, nofun⟩
  | index :: rest, pairs, h => by
    obtain ⟨key, hkey, h⟩ := bind_eq_ok.mp h
    obtain ⟨tail, htail, h⟩ := bind_eq_ok.mp h
    cases h
    obtain ⟨hsome, hnone⟩ := lookupPages_spec htail
    cases hf : key.bind find with
    | none =>
      refine ⟨fun hits hh => by simp [allFound] at hh, fun _ => ⟨index, by simp, ?_⟩⟩
      rintro page ⟨key', hkey', hpage⟩
      rw [hkey, ok.injEq] at hkey'
      subst hkey'
      rw [bind_some, hpage] at hf
      cases hf
    | some page =>
      have hfinds : Finds cfg r find g index page := by
        obtain ⟨k, rfl, hk⟩ := bind_eq_some_iff.mp hf
        exact ⟨k, hkey, hk⟩
      refine ⟨fun hits hh => ?_, fun hh => ?_⟩
      · obtain ⟨hits', hh', rfl⟩ := map_eq_some_iff.mp hh
        obtain ⟨hfst, hall⟩ := hsome hits' hh'
        exact ⟨by rw [map_cons, hfst], forall_mem_cons.mpr ⟨hfinds, hall⟩⟩
      · obtain ⟨i, hi, hmiss⟩ := hnone (map_eq_none_iff.mp hh)
        exact ⟨i, mem_cons_of_mem _ hi, hmiss⟩

theorem groupHits_spec :
    ∀ {groups : List CacheGroup} {result : Option (GroupHits β)},
    groupHits probe groups = .ok result →
    (∀ hits, result = some hits → ∃ pairs : CacheGroup → List (Nat × β),
      (∀ g ∈ groups, probe g = .ok (some (pairs g))) ∧
      hits = groups.map fun g => (g.groupId, dropEagle g (pairs g))) ∧
    (result = none → ∃ g ∈ groups, probe g = .ok none)
  | [], result, h => by
    cases h
    refine ⟨fun hits hh => ⟨fun _ => [], nofun, ?_⟩, nofun⟩
    cases hh
    rfl
  | g :: groups, result, h => by
    obtain ⟨found, hfound, h⟩ := bind_eq_ok.mp h
    cases found with
    | none =>
      cases h
      exact ⟨nofun, fun _ => ⟨g, mem_cons_self .., hfound⟩⟩
    | some pairs =>
      obtain ⟨tail, htail, h⟩ := bind_eq_ok.mp h
      cases h
      obtain ⟨hsome, hnone⟩ := groupHits_spec htail
      refine ⟨fun hits hh => ?_, fun hh => ?_⟩
      · obtain ⟨hits', rfl, rfl⟩ := map_eq_some_iff.mp hh
        obtain ⟨pairs', hprobe, rfl⟩ := hsome hits' rfl
        -- the pairs of `g` are what its probe returned, also where `g` occurs again
        have hg : ∀ g' ∈ groups, g' = g → pairs' g' = pairs := by
          rintro g' hg' rfl
          have := (hprobe g' hg').symm.trans hfound
          exact some.inj (ok.inj this)
        refine ⟨Function.update pairs' g pairs, fun g' hg' => ?_, ?_⟩
        · by_cases he : g' = g
          · subst he
            rw [Function.update_self]; exact hfound
          · rw [Function.update_of_ne he]
            exact hprobe g' ((mem_cons.mp hg').resolve_left he)
        · rw [map_cons, Function.update_self]
          congr 1
          refine map_congr_left fun g' hg' => ?_
          by_cases he : g' = g
          · subst he
            rw [Function.update_self, hg g' hg' rfl]
          · rw [Function.update_of_ne he]
      · obtain ⟨g', hg', hp⟩ := hnone (map_eq_none_iff.mp hh)
        exact ⟨g', mem_cons_of_mem _ hg', hp⟩

theorem longestHit_spec {start : Nat} :
    ∀ {n : Nat} {result : Option (Nat × GroupHits β)}, longestHit hitsAt start n = .ok result →
    (∀ blocks hits, result = some (blocks, hits) →
      start < blocks ∧ blocks ≤ n ∧ hitsAt blocks = .ok (some hits)) ∧
    ∀ b, start < b → b ≤ n → (∀ blocks hits, result = some (blocks, hits) → blocks < b) →
      hitsAt b = .ok none
  | 0, result, h => by
    cases h
    exact ⟨nofun, fun b hb hb' => by omega⟩
  | n + 1, result, h => by
    unfold longestHit at h
    split at h
    · rename_i hle
      cases h
      exact ⟨nofun, fun b hb hb' => by omega⟩
    · rename_i hlt
      obtain ⟨found, hfound, h⟩ := bind_eq_ok.mp h
      cases found with
      | some hits =>
        cases h
        refine ⟨fun blocks hits' hh => ?_, fun b hb hb' hmax => ?_⟩
        · cases hh
          exact ⟨by omega, le_rfl, hfound⟩
        · have := hmax (n + 1) hits rfl
          omega
      | none =>
        obtain ⟨hhit, hmiss⟩ := longestHit_spec h
        refine ⟨fun blocks hits hh => ?_, fun b hb hb' hmax => ?_⟩
        · obtain ⟨h1, h2, h3⟩ := hhit blocks hits hh
          exact ⟨h1, by omega, h3⟩
        · rcases Nat.eq_or_lt_of_le hb' with rfl | hlt'
          · exact hfound
          · exact hmiss b hb (by omega) hmax

/-! ## Local plans -/

theorem slotKey_full (hg : g.blockTokens = cfg.blockSize) (index : Nat) :
    cfg.slotKey r g index =
      .ok ((cfg.inputKeys r)[index]?.map fun key => ⟨g.groupId, key, 0⟩) := by
  have hpos := cfg.blockSize_pos
  have hcoarse : cfg.coarseSlotKey g index (cfg.inputKeys r) =
      (cfg.inputKeys r)[index]?.map fun key => ⟨g.groupId, key, 0⟩ := by
    have hcont : ((index + 1) * cfg.blockSize - 1) / cfg.blockSize = index := by
      rw [show (index + 1) * cfg.blockSize - 1 = cfg.blockSize - 1 + index * cfg.blockSize by
        rw [Nat.succ_mul]; omega, Nat.add_mul_div_right _ _ hpos,
        Nat.div_eq_of_lt (by omega), zero_add]
    unfold HybridConfig.coarseSlotKey
    rw [hg, hcont, Nat.div_self hpos, Nat.mod_one]
  unfold HybridConfig.slotKey
  cases r.traceHashIds with
  | none => rw [hcoarse]; rfl
  | some hashes =>
    dsimp only
    rw [if_neg (by omega), hcoarse]
    rfl

theorem leadingFound_length_le (find : SlotKey → Option β) (gid : Nat) :
    ∀ keys : List BlockKey, (leadingFound find gid keys).length ≤ keys.length
  | [] => le_rfl
  | key :: rest => by
    unfold leadingFound
    split
    · exact Nat.succ_le_succ (leadingFound_length_le find gid rest)
    · exact Nat.zero_le _

/-- The leading pages are found one by one, and the run of them is maximal. -/
theorem leadingFound_spec (find : SlotKey → Option β) (gid : Nat) : ∀ (keys : List BlockKey),
    (∀ (i : Nat) (page : β), (leadingFound find gid keys)[i]? = some page →
      ∃ key, keys[i]? = some key ∧ find ⟨gid, key, 0⟩ = some page) ∧
    ∀ b, b ≤ keys.length → (∀ i : Nat, i < b → ∃ key, keys[i]? = some key ∧
      ∃ page, find ⟨gid, key, 0⟩ = some page) → b ≤ (leadingFound find gid keys).length
  | [] => ⟨fun i page h => by simp [leadingFound] at h, fun b hb _ => hb⟩
  | key :: rest => by
    obtain ⟨hfound, hmax⟩ := leadingFound_spec find gid rest
    cases hf : find ⟨gid, key, 0⟩ with
    | none =>
      have hnil : leadingFound find gid (key :: rest) = [] := by
        unfold leadingFound; rw [hf]
      rw [hnil]
      refine ⟨fun i page h => by simp at h, fun b _ hall => ?_⟩
      rcases Nat.eq_zero_or_pos b with hb | hb
      · exact le_of_eq hb
      · obtain ⟨k, hk, page, hpage⟩ := hall 0 hb
        cases hk
        rw [hf] at hpage
        cases hpage
    | some page =>
      have hcons : leadingFound find gid (key :: rest) = page :: leadingFound find gid rest := by
        conv_lhs => unfold leadingFound
        rw [hf]
      rw [hcons]
      refine ⟨fun i p h => ?_, fun b hb hall => ?_⟩
      · cases i with
        | zero => cases h; exact ⟨key, rfl, hf⟩
        | succ i => exact hfound i p h
      · cases b with
        | zero => exact Nat.zero_le _
        | succ b =>
          refine Nat.succ_le_succ (hmax b (Nat.le_of_succ_le_succ hb) fun i hi => ?_)
          exact hall (i + 1) (Nat.succ_lt_succ hi)

theorem localProbe_spec {blocks : Nat} {result : Option (List (Nat × Nat))}
    (hb : blocks ≤ (leadingFound cache.get? cfg.layout.fullGroup.groupId
      ((cfg.inputKeys r).take (maximumBlocks cfg r))).length)
    (h : localProbe cfg r cache (leadingFound cache.get? cfg.layout.fullGroup.groupId
      ((cfg.inputKeys r).take (maximumBlocks cfg r))) blocks g = .ok result) :
    (∀ pairs, result = some pairs → pairs.map Prod.fst = demandedPages cfg g blocks ∧
      ∀ e ∈ pairs, Finds cfg r cache.get? g e.1 e.2) ∧
    (result = none → ∃ i ∈ demandedPages cfg g blocks, ∀ s, ¬ Finds cfg r cache.get? g i s) := by
  unfold localProbe at h
  by_cases hg : g = cfg.layout.fullGroup
  · rw [if_pos hg] at h
    cases h
    refine ⟨fun pairs hp => ?_, nofun⟩
    cases hp
    generalize hfound : leadingFound cache.get? cfg.layout.fullGroup.groupId
      ((cfg.inputKeys r).take (maximumBlocks cfg r)) = found at hb ⊢
    have hlen : (found.take blocks).length = blocks := length_take_of_le hb
    have hw : g.windowTokens = 0 := hg ▸ cfg.layout.fullGroup_windowTokens
    refine ⟨?_, fun e he => ?_⟩
    · rw [map_fst_zip (by simp), hlen, demandedPages, if_pos hw]
    · obtain ⟨i, hi⟩ := mem_iff_getElem?.mp he
      obtain ⟨hidx, hpage⟩ := getElem?_zip_eq_some.mp hi
      have hie : i = e.1 := by
        obtain ⟨_, hri⟩ := List.getElem?_eq_some_iff.mp hidx
        simpa using hri
      have hlt : i < blocks := by
        have := (List.getElem?_eq_some_iff.mp hidx).1
        simpa [hlen] using this
      rw [getElem?_take, if_pos hlt, ← hfound] at hpage
      obtain ⟨key, hkey, hfind⟩ := (leadingFound_spec _ _ _).1 i e.2 hpage
      have hkey' : (cfg.inputKeys r)[i]? = some key := by
        rw [getElem?_take] at hkey
        split at hkey
        · exact hkey
        · cases hkey
      refine ⟨⟨g.groupId, key, 0⟩, ?_, hg ▸ hfind⟩
      have hbt : g.blockTokens = cfg.blockSize := hg ▸ cfg.layout.fullGroup_blockTokens
      rw [slotKey_full hbt, ← hie, hkey']
      rfl
  · rw [if_neg hg] at h
    obtain ⟨pairs, hpairs, h⟩ := bind_eq_ok.mp h
    cases h
    exact lookupPages_spec hpairs

/-- The pages that are acquired of those that are demanded. -/
def heldPages (g : CacheGroup) (pages : List Nat) : List Nat :=
  if g.eagle then pages.dropLast else pages

/-- The hits of a plan: every group has its demanded pages, and the plan lists
those that are to be held. -/
structure HitsOk (cfg : HybridConfig) (r : Request) (find : SlotKey → Option β)
    (pages : CacheGroup → List Nat) (hits : GroupHits β) : Prop where
  demanded : ∀ g ∈ cfg.layout.groups, ∀ i ∈ pages g, ∃ page, Finds cfg r find g i page
  listed : ∃ pairs : CacheGroup → List (Nat × β),
    hits = cfg.layout.groups.map (fun g => (g.groupId, pairs g)) ∧
    ∀ g ∈ cfg.layout.groups, (pairs g).map Prod.fst = heldPages g (pages g) ∧
      ∀ e ∈ pairs g, Finds cfg r find g e.1 e.2

theorem map_fst_dropEagle (g : CacheGroup) (pairs : List (Nat × β)) :
    (dropEagle g pairs).map Prod.fst = heldPages g (pairs.map Prod.fst) := by
  unfold dropEagle heldPages
  split
  · exact map_dropLast ..
  · rfl

theorem mem_of_mem_dropEagle {pairs : List (Nat × β)} {e : Nat × β}
    (h : e ∈ dropEagle g pairs) : e ∈ pairs := by
  unfold dropEagle at h
  split at h
  · exact dropLast_subset _ h
  · exact h

theorem hitsOk_of_groupHits {pages : CacheGroup → List Nat} {hits : GroupHits β}
    (hprobe : ∀ g ∈ cfg.layout.groups, ∀ pairs, probe g = .ok (some pairs) →
      pairs.map Prod.fst = pages g ∧ ∀ e ∈ pairs, Finds cfg r find g e.1 e.2)
    (h : groupHits probe cfg.layout.groups = .ok (some hits)) :
    HitsOk cfg r find pages hits := by
  obtain ⟨pairs, hpairs, rfl⟩ := (groupHits_spec h).1 hits rfl
  refine ⟨fun g hg i hi => ?_, fun g => dropEagle g (pairs g), rfl, fun g hg => ?_⟩
  · obtain ⟨hfst, hall⟩ := hprobe g hg _ (hpairs g hg)
    rw [← hfst] at hi
    obtain ⟨e, he, rfl⟩ := List.mem_map.mp hi
    exact ⟨e.2, hall e he⟩
  · obtain ⟨hfst, hall⟩ := hprobe g hg _ (hpairs g hg)
    refine ⟨?_, fun e he => hall e (mem_of_mem_dropEagle he)⟩
    rw [map_fst_dropEagle, hfst]

/-- The plan of a request against a prefix map. -/
structure PlanOk (cfg : HybridConfig) (r : Request) (cache : OrderedDict SlotKey Nat)
    (plan : HybridReusePlan) : Prop where
  /-- A hit ends at an engine block and all groups have its pages. -/
  hits : plan.hitTokens = 0 ∧ plan.groupHits = [] ∨
    ∃ blocks, 0 < blocks ∧ blocks ≤ maximumBlocks cfg r ∧
      plan.hitTokens = blocks * cfg.blockSize ∧
      HitsOk cfg r cache.get? (demandedPages cfg · blocks) plan.groupHits
  /-- No longer prefix has all its pages. -/
  maximal : ∀ blocks, blocks ≤ maximumBlocks cfg r →
    (∀ g ∈ cfg.layout.groups, ∀ i ∈ demandedPages cfg g blocks,
      ∃ s, Finds cfg r cache.get? g i s) → blocks * cfg.blockSize ≤ plan.hitTokens

theorem computePlan_spec {plan : HybridReusePlan} (h : computePlan cfg r cache = .ok (plan, r')) :
    PlanOk cfg r cache plan ∧ (r' = r ∨ ∃ blocks,
      r' = { r with sharedPrefixBoundaries := [blocks * cfg.blockSize] }) := by
  obtain ⟨best, hbest, h⟩ := bind_eq_ok.mp h
  obtain ⟨rfl, rfl⟩ := Prod.mk.inj (pure_eq_ok.mp h)
  generalize hfound : leadingFound cache.get? cfg.layout.fullGroup.groupId
    ((cfg.inputKeys r).take (maximumBlocks cfg r)) = found at hbest
  have hfoundLe : found.length ≤ maximumBlocks cfg r := by
    have := leadingFound_length_le cache.get? cfg.layout.fullGroup.groupId
      ((cfg.inputKeys r).take (maximumBlocks cfg r))
    rw [hfound, length_take] at this
    omega
  have hprobe : ∀ b, b ≤ found.length → ∀ g result,
      localProbe cfg r cache found b g = .ok result → _ := fun b hb g result hp =>
    localProbe_spec (hfound ▸ hb) (hfound ▸ hp)
  obtain ⟨hhit, hmiss⟩ := longestHit_spec hbest
  -- a prefix with all its pages starts with that many full pages
  have hleading : ∀ b, b ≤ maximumBlocks cfg r →
      (∀ g ∈ cfg.layout.groups, ∀ i ∈ demandedPages cfg g b,
        ∃ s, Finds cfg r cache.get? g i s) → b ≤ found.length := by
    intro b hb hall
    rw [← hfound]
    refine (leadingFound_spec _ _ _).2 b ?_ fun i hi => ?_
    · rw [length_take]
      have : maximumBlocks cfg r ≤ (cfg.inputKeys r).length := min_le_left ..
      omega
    · have hmem : i ∈ demandedPages cfg cfg.layout.fullGroup b := by
        rw [demandedPages, if_pos cfg.layout.fullGroup_windowTokens]
        exact mem_range.mpr hi
      obtain ⟨s, key, hkey, hs⟩ := hall _ cfg.layout.fullGroup_mem i hmem
      rw [slotKey_full cfg.layout.fullGroup_blockTokens, ok.injEq] at hkey
      obtain ⟨k, hk, rfl⟩ := map_eq_some_iff.mp hkey
      exact ⟨k, by rw [getElem?_take, if_pos (by omega)]; exact hk, s, hs⟩
  refine ⟨⟨?_, fun b hb hall => ?_⟩, ?_⟩
  · cases best with
    | none => exact .inl ⟨rfl, rfl⟩
    | some e =>
      obtain ⟨blocks, hits⟩ := e
      obtain ⟨hpos, hle, hhits⟩ := hhit blocks hits rfl
      exact .inr ⟨blocks, hpos, by omega, rfl, hitsOk_of_groupHits
        (fun g _ pairs hp => (hprobe blocks hle g _ hp).1 pairs rfl) hhits⟩
  · by_contra hlt
    have hbf := hleading b hb hall
    rcases Nat.eq_zero_or_pos b with rfl | hpos
    · simp at hlt
    have hnone := hmiss b hpos hbf fun blocks hits he => by
      subst he
      exact Nat.lt_of_mul_lt_mul_right (Nat.lt_of_not_le hlt)
    obtain ⟨g, hg, hp⟩ := (groupHits_spec hnone).2 rfl
    obtain ⟨i, hi, hno⟩ := (hprobe b hbf g _ hp).2 rfl
    obtain ⟨s, hs⟩ := hall g hg i hi
    exact hno s hs
  · exact (ite_eq_or_eq _ _ _).symm.imp id fun he => ⟨found.length, he⟩

/-! ## External plans -/

/-- The pages of a group that an external prefix needs after `start` local
blocks. -/
def externalPages (cfg : HybridConfig) (start blocks : Nat) (g : CacheGroup) : List Nat :=
  if g.windowTokens = 0 then List.range' start (blocks - start)
  else tailPages g (blocks * cfg.blockSize)

theorem planExternalReuse_spec {lookup : SlotKey → Bool} {localTokens boundary : Nat}
    {hits : GroupHits SlotKey} (h : planExternalReuse cfg r lookup localTokens = .ok (boundary, hits))
    (hne : hits ≠ []) :
    ∃ blocks, localTokens / cfg.blockSize < blocks ∧ blocks ≤ maximumBlocks cfg r ∧
      boundary = blocks * cfg.blockSize ∧
      HitsOk cfg r (fun key => if lookup key then some key else none)
        (externalPages cfg (localTokens / cfg.blockSize) blocks) hits := by
  obtain ⟨best, hbest, h⟩ := bind_eq_ok.mp h
  obtain ⟨hhit, -⟩ := longestHit_spec hbest
  cases best with
  | none =>
    cases h
    exact absurd rfl hne
  | some e =>
    obtain ⟨blocks, hits'⟩ := e
    cases h
    obtain ⟨hlt, hle, hhits⟩ := hhit blocks hits rfl
    refine ⟨blocks, hlt, ?_, rfl, hitsOk_of_groupHits (fun g _ pairs hp => ?_) hhits⟩
    · have hlen := leadingFound_length_le (fun key => if lookup key then some key else none)
        cfg.layout.fullGroup.groupId
        (((cfg.inputKeys r).take (maximumBlocks cfg r)).drop (localTokens / cfg.blockSize))
      rw [length_drop, length_take] at hlen
      omega
    · obtain ⟨found, hfound, hp⟩ := bind_eq_ok.mp hp
      exact (lookupPages_spec hfound).1 pairs (pure_eq_ok.mp hp)

/-! ## The memo -/

/-- A request that has moved on: only its progress may differ. -/
structure Progress (r r' : Request) : Prop extends HybridConfig.Extends r r' where
  id : r'.id = r.id
  /-- The logical blocks only grow with the context. -/
  logical : r'.contextLen = r.contextLen → r'.numLogicalTokenBlocks = r.numLogicalTokenBlocks

theorem Progress.refl (r : Request) : Progress r r :=
  ⟨⟨rfl, rfl, rfl, rfl, rfl, rfl, rfl, le_rfl⟩, rfl, fun _ => rfl⟩

theorem Progress.trans {r r'' : Request} (h : Progress r r') (h' : Progress r' r'') :
    Progress r r'' :=
  ⟨⟨h'.prefillLen.trans h.prefillLen, h'.cacheIdentity.trans h.cacheIdentity,
    h'.hashIds.trans h.hashIds, h'.traceHashIds.trans h.traceHashIds,
    h'.traceBlockSize.trans h.traceBlockSize, h'.cacheSalt.trans h.cacheSalt,
    h'.reuseGroup.trans h.reuseGroup, le_trans h.contextLen h'.contextLen⟩,
    h'.id.trans h.id, fun he => by
      have h1 := h.contextLen
      have h2 := h'.contextLen
      rw [h'.logical (by omega), h.logical (by omega)]⟩

section Congr

section

variable (h : HybridConfig.Extends r r') (hc : r'.contextLen = r.contextLen)
include h hc

theorem inputKeys_congr :
    cfg.inputKeys r' = cfg.inputKeys r := by
  unfold HybridConfig.inputKeys HybridConfig.extendContextKeys HybridConfig.promptKeys
    HybridConfig.extraHash
  rw [h.prefillLen, h.cacheIdentity, h.hashIds, h.cacheSalt, h.reuseGroup, hc]

theorem slotKey_congr :
    cfg.slotKey r' = cfg.slotKey r := by
  have hfine : cfg.fineInputKeys r' = cfg.fineInputKeys r := by
    funext hashes
    unfold HybridConfig.fineInputKeys HybridConfig.extendContextKeys HybridConfig.promptKeys
      HybridConfig.extraHash
    rw [h.prefillLen, h.cacheIdentity, h.traceBlockSize, h.cacheSalt, h.reuseGroup, hc]
  funext g index
  unfold HybridConfig.slotKey
  rw [h.traceHashIds, h.traceBlockSize, hfine, inputKeys_congr h hc]

theorem lookupPages_congr (find : SlotKey → Option β) (g : CacheGroup) : ∀ indices : List Nat,
    lookupPages cfg r' find g indices = lookupPages cfg r find g indices
  | [] => rfl
  | index :: rest => by
    unfold lookupPages
    rw [slotKey_congr h hc, lookupPages_congr find g rest]

end

/-- A plan depends on the content of the request only. -/
theorem computePlan_congr (h : Progress r r') (hc : r'.contextLen = r.contextLen)
    {cache : OrderedDict SlotKey Nat} {plan : HybridReusePlan} {s : Request}
    (hp : computePlan cfg r cache = .ok (plan, s)) :
    ∃ s', computePlan cfg r' cache = .ok (plan, s') := by
  have hmax : maximumBlocks cfg r' = maximumBlocks cfg r := by
    unfold maximumBlocks
    rw [inputKeys_congr h.toExtends hc, hc]
  have hprobe : ∀ found blocks, localProbe cfg r' cache found blocks =
      localProbe cfg r cache found blocks := by
    intro found blocks
    funext g
    unfold localProbe
    simp only [lookupPages_congr h.toExtends hc]
  obtain ⟨best, hbest, hp⟩ := bind_eq_ok.mp hp
  obtain ⟨rfl, -⟩ := Prod.mk.inj (pure_eq_ok.mp hp)
  refine ⟨_, bind_eq_ok.mpr ⟨best, ?_, pure_eq_ok.mpr (Prod.ext ?_ rfl)⟩⟩
  · simp only [inputKeys_congr h.toExtends hc, hmax, hprobe]
    exact hbest
  · dsimp only
    rw [inputKeys_congr h.toExtends hc, h.prefillLen, h.logical hc, h.hashIds]

end Congr

open HybridKVBlockManager

/-- As long as nothing has changed, the memoised plan is the one that would be
computed. -/
structure MemoOk (cfg : HybridConfig) (m : HybridKVBlockManager) (r : Request) : Prop where
  version : ∀ state plan, m.plans.get? r.id = some (state, plan) →
    state.cacheVersion ≤ m.pool.cacheVersion ∧ state.contextLen ≤ r.contextLen
  plan : ∀ state plan, m.plans.get? r.id = some (state, plan) → state = m.planState r →
    ∃ s, computePlan cfg r m.pool.cache = .ok (plan, s)

/-- The memo stays valid while the request and the map move on. -/
theorem MemoOk.mono {m m' : HybridKVBlockManager} {r : Request} (h : MemoOk cfg m r)
    (hr : Progress r r') (hv : m.pool.Versioned m'.pool)
    (hplans : ∀ e, m'.plans.get? r.id = some e → m.plans.get? r.id = some e) :
    MemoOk cfg m' r' := by
  refine ⟨fun state plan hp => ?_, fun state plan hp hs => ?_⟩
  · rw [hr.id] at hp
    obtain ⟨h1, h2⟩ := h.version state plan (hplans _ hp)
    exact ⟨le_trans h1 hv.le, le_trans h2 hr.contextLen⟩
  · rw [hr.id] at hp
    obtain ⟨h1, h2⟩ := h.version state plan (hplans _ hp)
    have hle := hv.le
    have hctx := hr.contextLen
    have hver : m'.pool.cacheVersion = m.pool.cacheVersion := by
      have : state.cacheVersion = m'.pool.cacheVersion := by rw [hs]; rfl
      omega
    have hc : r'.contextLen = r.contextLen := by
      have : state.contextLen = r'.contextLen := by rw [hs]; rfl
      omega
    have hcache := hv.cache hver
    obtain ⟨s, hcomp⟩ := h.plan state plan (hplans _ hp) (by
      rw [hs]
      unfold planState
      rw [hc, hr.logical hc, hver, hcache])
    rw [hcache]
    exact computePlan_congr hr hc hcomp

theorem planReuse_cases (m : HybridKVBlockManager) (r : Request) :
    m.planReuse cfg r = planReuse.recompute cfg m r ∨
      ∃ plan, m.plans.get? r.id = some (m.planState r, plan) ∧
        m.planReuse cfg r = .ok (m, r, plan) := by
  unfold planReuse
  cases hmemo : m.plans.get? r.id with
  | none => exact .inl rfl
  | some e =>
    obtain ⟨state, plan⟩ := e
    dsimp only
    by_cases hs : state = m.planState r
    · rw [if_pos hs]
      exact .inr ⟨plan, by rw [hs], rfl⟩
    · rw [if_neg hs]
      exact .inl rfl

/-- A plan that was asked for is the one computed from the current map, and
only the memo and the request's shared boundaries may change. -/
theorem planReuse_spec {m m' : HybridKVBlockManager} {plan : HybridReusePlan}
    (hm : MemoOk cfg m r) (h : m.planReuse cfg r = .ok (m', r', plan)) :
    PlanOk cfg r m.pool.cache plan ∧
    (r' = r ∨ ∃ blocks, r' = { r with sharedPrefixBoundaries := [blocks * cfg.blockSize] }) ∧
    (∃ plans, m' = { m with plans := plans } ∧
      ∀ rid, rid ≠ r.id → plans.get? rid = m.plans.get? rid) ∧
    MemoOk cfg m' r := by
  rcases planReuse_cases m r with hrec | ⟨plan', hmemo, hhit⟩
  · rw [hrec] at h
    obtain ⟨⟨plan', s⟩, hcomp, h⟩ := bind_eq_ok.mp h
    cases h
    obtain ⟨hplan, hshared⟩ := computePlan_spec hcomp
    have hget : ∀ e, (m.plans.set r.id (m.planState r, plan)).get? r.id = some e →
        e = (m.planState r, plan) := fun e he => by
      rw [OrderedDict.get?_set_self, some.injEq] at he
      exact he.symm
    refine ⟨hplan, hshared, ⟨_, rfl, fun rid hrid => ?_⟩, fun state p hp => ?_,
      fun state p hp _ => ?_⟩
    · rw [OrderedDict.get?_set, if_neg hrid]
    · cases hget _ hp
      exact ⟨le_rfl, le_rfl⟩
    · cases hget _ hp
      exact ⟨_, hcomp⟩
  · rw [hhit] at h
    cases h
    obtain ⟨s, hcomp⟩ := hm.plan _ plan hmemo rfl
    exact ⟨(computePlan_spec hcomp).1, .inl rfl, ⟨m.plans, rfl, fun _ _ => rfl⟩, hm⟩

/-! ## Plans return when keys are defined -/

theorem lookupPages_total (hkeys : ∀ i, ∃ key, cfg.slotKey r g i = .ok key) :
    ∀ indices : List Nat, ∃ pairs, lookupPages cfg r find g indices = .ok pairs
  | [] => ⟨[], rfl⟩
  | i :: rest => exists_bind_eq_ok (hkeys i) fun _ =>
    exists_bind_eq_ok (lookupPages_total hkeys rest) fun _ => ⟨_, rfl⟩

theorem groupHits_total :
    ∀ {groups : List CacheGroup}, (∀ g ∈ groups, ∃ result, probe g = .ok result) →
    ∃ hits, groupHits probe groups = .ok hits
  | [], _ => ⟨some [], rfl⟩
  | g :: rest, hprobe => by
    refine exists_bind_eq_ok (hprobe g mem_cons_self) fun result => ?_
    cases result with
    | none => exact ⟨none, rfl⟩
    | some pairs =>
      exact exists_bind_eq_ok
        (groupHits_total (forall_mem_cons.mp hprobe).2)
        fun _ => ⟨_, rfl⟩

theorem longestHit_total {start : Nat} (hhits : ∀ blocks, ∃ hits, hitsAt blocks = .ok hits) :
    ∀ n : Nat, ∃ result, longestHit hitsAt start n = .ok result
  | 0 => ⟨none, rfl⟩
  | n + 1 => by
    unfold longestHit
    split
    · exact ⟨none, rfl⟩
    · refine exists_bind_eq_ok (hhits (n + 1)) fun found => ?_
      cases found with
      | some hits => exact ⟨_, rfl⟩
      | none => exact longestHit_total hhits n

theorem localProbe_total (hkeys : ∀ i, ∃ key, cfg.slotKey r g i = .ok key)
    (cache : OrderedDict SlotKey Nat) (found : List Nat) (blocks : Nat) :
    ∃ result, localProbe cfg r cache found blocks g = .ok result := by
  unfold localProbe
  split
  · exact ⟨_, rfl⟩
  · exact exists_bind_eq_ok (lookupPages_total hkeys _) fun _ => ⟨_, rfl⟩

theorem planReuse_total (hkeys : ∀ g ∈ cfg.layout.groups, ∀ i, ∃ key, cfg.slotKey r g i = .ok key)
    (m : HybridKVBlockManager) : ∃ m' r' plan, m.planReuse cfg r = .ok (m', r', plan) := by
  rcases planReuse_cases m r with hrec | ⟨plan, -, hhit⟩
  · have hplan : ∃ out, computePlan cfg r m.pool.cache = .ok out :=
      exists_bind_eq_ok (longestHit_total (fun blocks => groupHits_total fun g hg =>
        localProbe_total (hkeys g hg) _ _ blocks) _) fun _ => ⟨_, rfl⟩
    obtain ⟨out, hout⟩ := exists_bind_eq_ok hplan fun _ => ⟨_, rfl⟩
    exact ⟨_, _, _, hrec.trans hout⟩
  · exact ⟨_, _, plan, hhit⟩

end TokenSim
