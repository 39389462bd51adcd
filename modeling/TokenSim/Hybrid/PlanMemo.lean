import TokenSim.Hybrid.Steps

/-!
# The memo of reuse plans

A plan is remembered with the context length, the number of logical blocks, the version
of the prefix map and its size.  Here the manager is called in any order and with any
arguments, and requests move on between the calls.  Every operation that changes a
primary entry of the prefix map also raises its version, whichever request it is for, so
a plan from the memo is the plan that would be computed.
-/

namespace TokenSim

open Option
open Function (update_of_ne update_self)

open HybridKVBlockManager SlotPool
open Except

/-! ## Versions of the pool -/

namespace SlotPool

variable {p q : SlotPool SlotKey}

theorem acquire_versioned {s : Nat} (h : p.acquire s = .ok q) : Versioned p q := by
  unfold acquire at h
  repeat' split at h
  all_goals cases h
  all_goals exact ⟨le_rfl, fun _ => rfl⟩

theorem acquireMany_versioned : ∀ {slots : List Nat} {p : SlotPool SlotKey},
    p.acquireMany slots = .ok q → Versioned p q
  | [], p, h => by
    cases h
    exact .refl _
  | s :: rest, p, h => by
    obtain ⟨p', hp', h⟩ := bind_eq_ok.mp h
    exact (acquire_versioned hp').trans (acquireMany_versioned h)

theorem releaseLoop_versioned : ∀ {slots uncached uncached' : List Nat} {p : SlotPool SlotKey},
    p.releaseLoop uncached slots = .ok (q, uncached') → Versioned p q
  | [], _, _, p, h => by
    cases h
    exact .refl _
  | s :: rest, _, _, p, h => by
    rw [releaseLoop, ite_throw_eq_ok] at h
    obtain ⟨-, h⟩ := h
    dsimp only at h
    repeat' split at h
    all_goals
      have hrest := releaseLoop_versioned h
      exact ⟨hrest.le, hrest.cache⟩

theorem releaseMany_versioned {slots : List Nat} (h : p.releaseMany slots = .ok q) :
    Versioned p q := by
  obtain ⟨⟨p', uncached⟩, hloop, h⟩ := bind_eq_ok.mp h
  cases h
  exact (releaseLoop_versioned hloop).trans ⟨le_rfl, fun _ => rfl⟩

theorem claim_versioned : ∀ {slots : List Nat} {p : SlotPool SlotKey},
    p.claim slots = .ok q → Versioned p q
  | [], p, h => by
    cases h
    exact .refl _
  | s :: rest, p, h => by
    rw [claim, ite_throw_eq_ok] at h
    obtain ⟨-, h⟩ := h
    have hrest := claim_versioned h
    refine Versioned.trans (q := if (p.blocks s).blockHash.isSome ∨ (p.blocks s).cached
      then p.evict s else p) ?_ ⟨hrest.le, hrest.cache⟩
    split
    · exact evict_versioned p s
    · exact .refl p

theorem allocateMany_versioned {count : Nat} {slots : List Nat}
    (h : p.allocateMany count = .ok (q, slots)) : Versioned p q := by
  unfold allocateMany at h
  split at h
  · cases h
    exact .refl p
  · rw [ite_throw_eq_ok] at h
    obtain ⟨-, h⟩ := h
    obtain ⟨p', hclaim, h⟩ := bind_eq_ok.mp h
    cases h
    have hclaimed := claim_versioned hclaim
    exact ⟨hclaimed.le, hclaimed.cache⟩

end SlotPool

/-! ## Versions of the manager -/

/-- The pool has moved on and the memo has no new entry. -/
structure Moves (m m' : HybridKVBlockManager) : Prop where
  versioned : m.pool.Versioned m'.pool
  plans : ∀ rid e, m'.plans.get? rid = some e → m.plans.get? rid = some e

theorem Moves.refl (m : HybridKVBlockManager) : Moves m m := ⟨.refl _, fun _ _ h => h⟩

/-- A loop over the groups whose steps are related relates its ends. -/
theorem forGroups_related {σ : Type} {R : σ → σ → Prop} (hrefl : ∀ s, R s s)
    (htrans : ∀ {s s' s''}, R s s' → R s' s'' → R s s'')
    {f : CacheGroup → σ → GroupTable → Option Span → Except Err (σ × GroupTable × Option Span)}
    (hf : ∀ {g s table span s' table' span'}, f g s table span = .ok (s', table', span') → R s s') :
    ∀ {groups : List CacheGroup} {spans spans' : List (Option Span)} {s s' : σ}
      {tables tables' : GroupTables}, forGroups f groups spans s tables = .ok (s', tables', spans') →
      R s s'
  | g :: groups, span :: spans, _, s, _, tables, _, h => by
    obtain ⟨⟨s₁, table, span₁⟩, hstep, h⟩ := bind_eq_ok.mp h
    obtain ⟨⟨s₂, tables₂, spans₂⟩, hrest, h⟩ := bind_eq_ok.mp h
    cases h
    exact htrans (hf hstep) (forGroups_related hrefl htrans hf hrest)
  | [], spans, _, s, _, tables, _, h => by
    cases h
    exact hrefl s
  | _ :: _, [], _, s, _, tables, _, h => by
    cases h
    exact hrefl s

section Operations

variable {cfg : HybridConfig} {m m' : HybridKVBlockManager} {r r' : Request}

variable {computed slot : Nat} {g : CacheGroup} {table table' : GroupTable}

theorem reclaim_versioned {pool pool' : SlotPool SlotKey} {span span' : Option Span}
    (h : reclaim computed g pool table span = .ok (pool', table', span')) :
    pool.Versioned pool' := by
  have hpop : ∀ {indices : List Nat} {span₁ : Option Span},
      (popPages table indices >>= fun x => pool.releaseMany x.2 >>= fun q =>
        pure (q, x.1, span₁)) = .ok (pool', table', span') → pool.Versioned pool' := fun h => by
    obtain ⟨⟨t, slots⟩, -, h⟩ := bind_eq_ok.mp h
    obtain ⟨q, hq, h⟩ := bind_eq_ok.mp h
    cases h
    exact releaseMany_versioned hq
  unfold reclaim at h
  dsimp only at h
  repeat' split at h
  all_goals first | exact hpop h | (cases h; exact .refl pool)

theorem addFresh_versioned {pool pool' : SlotPool SlotKey}
    {indices : List Nat} (h : addFresh pool table indices = .ok (pool', table')) :
    pool.Versioned pool' := by
  obtain ⟨⟨q, slots⟩, hq, h⟩ := bind_eq_ok.mp h
  cases h
  exact allocateMany_versioned hq

theorem grow_versioned {stop : Nat} {state state' : SlotPool SlotKey × Bool}
    {span span' : Option Span}
    (h : grow computed stop g state table span = .ok (state', table', span')) :
    state.1.Versioned state'.1 := by
  obtain ⟨pool, behind⟩ := state
  have hfill : ∀ {indices : List Nat} {flag : Bool}
      {span₁ : SlotPool SlotKey × GroupTable → Option Span},
      (addFresh pool table indices >>= fun x => pure ((x.1, flag), x.2, span₁ x)) =
        .ok (state', table', span') → pool.Versioned state'.1 := fun h => by
    obtain ⟨⟨q, t⟩, hq, h⟩ := bind_eq_ok.mp h
    cases h
    exact addFresh_versioned hq
  unfold grow at h
  dsimp only at h
  repeat' split at h
  all_goals first | exact hfill h | (cases h; exact .refl pool)

theorem ensureSlots_moves {scheduled lookahead : Nat}
    (h : m.ensureSlots cfg r scheduled lookahead = .ok m') : Moves m m' := by
  obtain ⟨tables, -, h⟩ := bind_eq_ok.mp h
  obtain ⟨spans, -, h⟩ := bind_eq_ok.mp h
  obtain ⟨⟨pool₁, tables₁, spans₁⟩, hreclaim, h⟩ := bind_eq_ok.mp h
  obtain ⟨⟨⟨pool₂, behind⟩, tables₂, spans₂⟩, hgrow, h⟩ := bind_eq_ok.mp h
  cases h
  have hfreed : m.pool.Versioned pool₁ :=
    forGroups_related Versioned.refl Versioned.trans reclaim_versioned hreclaim
  have htaken : (pool₁, false).1.Versioned (pool₂, behind).1 :=
    forGroups_related (R := fun s s' : SlotPool SlotKey × Bool => s.1.Versioned s'.1)
      (fun s => .refl s.1) Versioned.trans grow_versioned hgrow
  exact ⟨hfreed.trans htaken, fun _ _ he => he⟩

theorem cacheComputed_moves (h : m.cacheComputed cfg r = .ok (m', r')) : Moves m m' := by
  cases ht : m.tables.get? r.id with
  | none =>
    rw [cacheComputed, ht] at h
    cases h
    exact .refl m
  | some tables =>
    obtain ⟨hpub, -⟩ := cacheComputed_spec ht h
    exact ⟨hpub.versioned, fun _ _ he => hpub.plans ▸ he⟩

theorem releaseTables_versioned : ∀ {ts : List GroupTable} {p q : SlotPool SlotKey},
    releaseTables p ts = .ok q → p.Versioned q
  | [], p, _, h => by
    cases h
    exact .refl _
  | table :: rest, p, _, h => by
    obtain ⟨p₁, hp₁, h⟩ := bind_eq_ok.mp h
    exact (releaseMany_versioned hp₁).trans (releaseTables_versioned h)

theorem releaseRequestBlocks_moves (h : m.releaseRequestBlocks r = .ok (m', r')) :
    Moves m m' := by
  obtain ⟨pool, hpool, h⟩ := bind_eq_ok.mp h
  cases h
  exact ⟨releaseTables_versioned hpool, fun rid e he => (OrderedDict.get?_of_erase he).2⟩

theorem dropReplaced_versioned : ∀ {pairs : List (Nat × SlotKey)} {p q : SlotPool SlotKey}
    {table table' : GroupTable}, dropReplaced p table pairs = .ok (q, table') → p.Versioned q
  | [], p, _, _, _, h => by
    cases h
    exact .refl _
  | (index, _) :: rest, p, _, table, _, h => by
    rw [dropReplaced] at h
    split at h
    · exact dropReplaced_versioned h
    · obtain ⟨p₁, hp₁, h⟩ := bind_eq_ok.mp h
      exact (releaseMany_versioned hp₁).trans (dropReplaced_versioned h)

theorem dropAllReplaced_versioned : ∀ {hits : GroupHits SlotKey} {p q : SlotPool SlotKey}
    {tables tables' : GroupTables}, dropAllReplaced p tables hits = .ok (q, tables') →
    p.Versioned q
  | [], p, _, _, _, h => by
    cases h
    exact .refl _
  | (groupId, pairs) :: rest, p, _, _, _, h => by
    obtain ⟨table, -, h⟩ := bind_eq_ok.mp h
    obtain ⟨⟨p₁, table₁⟩, hp₁, h⟩ := bind_eq_ok.mp h
    exact (dropReplaced_versioned hp₁).trans (dropAllReplaced_versioned h)

theorem addDestinations_versioned {gid : Nat} : ∀ {pairs : List (Nat × SlotKey)}
    {p q : SlotPool SlotKey} {table table' : GroupTable} {targets : List Destination},
    addDestinations gid p table pairs = .ok (q, table', targets) → p.Versioned q
  | [], p, _, _, _, _, h => by
    cases h
    exact .refl _
  | (index, key) :: rest, p, _, _, _, _, h => by
    obtain ⟨⟨p₁, slots⟩, hp₁, h⟩ := bind_eq_ok.mp h
    obtain ⟨slot, -, h⟩ := bind_eq_ok.mp h
    obtain ⟨⟨p₂, table₂, targets₂⟩, hp₂, h⟩ := bind_eq_ok.mp h
    cases h
    exact (allocateMany_versioned hp₁).trans (addDestinations_versioned hp₂)

theorem addAllDestinations_versioned : ∀ {hits : GroupHits SlotKey} {p q : SlotPool SlotKey}
    {tables tables' : GroupTables} {targets : List Destination},
    addAllDestinations p tables hits = .ok (q, tables', targets) → p.Versioned q
  | [], p, _, _, _, _, h => by
    cases h
    exact .refl _
  | (groupId, pairs) :: rest, p, _, _, _, _, h => by
    obtain ⟨table, -, h⟩ := bind_eq_ok.mp h
    obtain ⟨⟨p₁, table₁, targets₁⟩, hp₁, h⟩ := bind_eq_ok.mp h
    obtain ⟨⟨p₂, tables₂, targets₂⟩, hp₂, h⟩ := bind_eq_ok.mp h
    cases h
    exact (addDestinations_versioned hp₁).trans (addAllDestinations_versioned hp₂)

theorem allocateExternalDestinations_moves {hits : GroupHits SlotKey} {targets : List Destination}
    (h : m.allocateExternalDestinations cfg r hits = .ok (m', targets)) : Moves m m' := by
  obtain ⟨tables, -, h⟩ := bind_eq_ok.mp h
  rw [ite_throw_eq_ok] at h
  obtain ⟨-, h⟩ := h
  obtain ⟨⟨pool₁, tables₁⟩, hdrop, h⟩ := bind_eq_ok.mp h
  obtain ⟨⟨pool₂, tables₂, targets₂⟩, hadd, h⟩ := bind_eq_ok.mp h
  cases h
  exact ⟨(dropAllReplaced_versioned hdrop).trans (addAllDestinations_versioned hadd),
    fun _ _ he => he⟩

/-- The entries of an import are written under one version, which is then raised. -/
theorem foldl_enter_cacheVersion (targets : List Destination) : ∀ pool : SlotPool SlotKey,
    (targets.foldl (fun pool target => pool.enter target.slot target.key) pool).cacheVersion =
      pool.cacheVersion := by
  induction targets with
  | nil => exact fun _ => rfl
  | cons target rest ih => exact fun pool => (ih _).trans (enter_cacheVersion pool _ _)

theorem finishExternalImport_moves (targets : List Destination) (hitTokens : Nat) :
    Moves m (m.finishExternalImport cfg r targets hitTokens) := by
  refine ⟨⟨?_, fun he => ?_⟩, fun _ _ he => he⟩
  · exact Nat.le_succ_of_le (le_of_eq (foldl_enter_cacheVersion targets m.pool).symm)
  · have hraised : (targets.foldl (fun pool target => pool.enter target.slot target.key)
        m.pool).cacheVersion + 1 = m.pool.cacheVersion := he
    rw [foldl_enter_cacheVersion] at hraised
    omega

theorem pinTransfer_moves (h : m.pinTransfer slot = .ok m') : Moves m m' := by
  obtain ⟨pool, hpool, h⟩ := bind_eq_ok.mp h
  cases h
  exact ⟨acquire_versioned hpool, fun _ _ he => he⟩

theorem unpinTransfer_moves (h : m.unpinTransfer slot = .ok m') : Moves m m' := by
  unfold unpinTransfer at h
  dsimp only at h
  rw [ite_throw_eq_ok] at h
  obtain ⟨-, h⟩ := h
  obtain ⟨pool, hpool, h⟩ := bind_eq_ok.mp h
  cases h
  exact ⟨releaseMany_versioned hpool, fun _ _ he => he⟩

end Operations

/-! ## Calls in any order -/

/-- A manager with the requests it is called for. -/
structure Caller where
  mgr : HybridKVBlockManager
  reqs : Nat → Request

/-- A call with any arguments, or progress of a request. -/
inductive Call where
  | plan (rid : Nat)
  | allocate (rid : Nat)
  | ensureSlots (rid scheduledTokens lookahead : Nat)
  | cacheComputed (rid : Nat)
  | release (rid : Nat)
  | allocateExternalDestinations (rid : Nat) (hits : GroupHits SlotKey)
  | finishExternalImport (rid : Nat) (targets : List Destination) (hitTokens : Nat)
  | pin (slot : Nat)
  | unpin (slot : Nat)
  /-- The computed position of a request is set. -/
  | compute (rid position : Nat)
  /-- The context grows by generated tokens. -/
  | generate (rid tokens : Nat)

namespace Caller

variable (cfg : HybridConfig)

def init (reqs : Nat → Request) : Caller := ⟨.init cfg, reqs⟩

def put (c : Caller) (out : HybridKVBlockManager × Request) (rid : Nat) : Caller :=
  ⟨out.1, Function.update c.reqs rid out.2⟩

/-- A call that raises ends the run. -/
def step (c : Caller) : Call → Option Caller
  | .plan rid => (c.mgr.planReuse cfg (c.reqs rid)).toOption.map fun out =>
    c.put (out.1, out.2.1) rid
  | .allocate rid => (c.mgr.allocate cfg (c.reqs rid)).toOption.map fun out => c.put out rid
  | .ensureSlots rid scheduledTokens lookahead =>
    (c.mgr.ensureSlots cfg (c.reqs rid) scheduledTokens lookahead).toOption.map fun m =>
      c.put (m, c.reqs rid) rid
  | .cacheComputed rid =>
    (c.mgr.cacheComputed cfg (c.reqs rid)).toOption.map fun out => c.put out rid
  | .release rid =>
    (c.mgr.releaseRequestBlocks (c.reqs rid)).toOption.map fun out => c.put out rid
  | .allocateExternalDestinations rid hits =>
    (c.mgr.allocateExternalDestinations cfg (c.reqs rid) hits).toOption.map fun out =>
      c.put (out.1, c.reqs rid) rid
  | .finishExternalImport rid targets hitTokens =>
    some (c.put (c.mgr.finishExternalImport cfg (c.reqs rid) targets hitTokens, c.reqs rid) rid)
  | .pin slot => (c.mgr.pinTransfer slot).toOption.map fun m => { c with mgr := m }
  | .unpin slot => (c.mgr.unpinTransfer slot).toOption.map fun m => { c with mgr := m }
  | .compute rid position =>
    some (c.put (c.mgr, { c.reqs rid with numComputedTokens := position }) rid)
  | .generate rid tokens => some (c.put (c.mgr, { c.reqs rid with
      generationIdx := (c.reqs rid).generationIdx + tokens
      logicalTokens := (c.reqs rid).logicalTokens + tokens }) rid)

variable {cfg} {c c' : Caller}

/-- The memos of all requests are valid. -/
structure Ok (cfg : HybridConfig) (c : Caller) : Prop where
  ids : ∀ rid, (c.reqs rid).id = rid
  memo : ∀ rid, MemoOk cfg c.mgr (c.reqs rid)

variable {m' : HybridKVBlockManager} {r' : Request} {rid : Nat}

theorem progress_put (hr : Progress (c.reqs rid) r') (i : Nat) :
    Progress (c.reqs i) ((c.put (m', r') rid).reqs i) := by
  change Progress (c.reqs i) (Function.update c.reqs rid r' i)
  by_cases hi : i = rid
  · subst hi
    rw [update_self]
    exact hr
  · rw [update_of_ne hi]
    exact .refl _

theorem Ok.moves (h : Ok cfg c) (hm : Moves c.mgr c'.mgr)
    (hr : ∀ i, Progress (c.reqs i) (c'.reqs i)) : Ok cfg c' :=
  ⟨fun i => (hr i).id.trans (h.ids i),
    fun i => (h.memo i).mono (hr i) hm.versioned fun e he => hm.plans _ e he⟩

theorem Ok.plan (h : Ok cfg c)
    {plan : HybridReusePlan} (hplan : c.mgr.planReuse cfg (c.reqs rid) = .ok (m', r', plan)) :
    Ok cfg (c.put (m', r') rid) := by
  obtain ⟨-, hshared, ⟨plans, rfl, hothers⟩, hmemo⟩ := planReuse_spec (h.memo rid) hplan
  have hprogress : ∀ i, Progress (c.reqs i)
      ((c.put ({ c.mgr with plans := plans }, r') rid).reqs i) :=
    progress_put (Progress.of_plan hshared)
  refine ⟨fun i => (hprogress i).id.trans (h.ids i), fun i => ?_⟩
  by_cases hi : i = rid
  · subst hi
    exact hmemo.mono (hprogress i) (.refl _) fun e he => he
  · refine (h.memo i).mono (hprogress i) (.refl _) fun e he => ?_
    rw [← hothers (c.reqs i).id (by rw [h.ids, h.ids]; exact hi)]
    exact he

theorem Ok.allocate (h : Ok cfg c)
    (halloc : c.mgr.allocate cfg (c.reqs rid) = .ok (m', r')) : Ok cfg (c.put (m', r') rid) := by
  unfold HybridKVBlockManager.allocate at halloc
  rw [ite_throw_eq_ok] at halloc
  obtain ⟨-, halloc⟩ := halloc
  obtain ⟨⟨m₁, r₁, plan⟩, hplan, halloc⟩ := bind_eq_ok.mp halloc
  obtain ⟨pool, hpool, halloc⟩ := bind_eq_ok.mp halloc
  obtain ⟨tables, -, halloc⟩ := bind_eq_ok.mp halloc
  obtain ⟨hm', hr'⟩ := Prod.mk.inj (pure_eq_ok.mp halloc)
  -- the plan first, then the rest of the admission
  refine (h.plan hplan).moves ?_ fun i => ?_
  · change Moves m₁ m'
    rw [← hm']
    exact ⟨acquireMany_versioned hpool, fun _ _ he => he⟩
  · change Progress (Function.update c.reqs rid r₁ i) (Function.update c.reqs rid r' i)
    by_cases hi : i = rid
    · subst hi
      rw [update_self, update_self, ← hr']
      exact { Progress.refl _ with }
    · rw [update_of_ne hi, update_of_ne hi]
      exact .refl _

theorem progress_cacheComputed {m : HybridKVBlockManager} {r : Request}
    (h : m.cacheComputed cfg r = .ok (m', r')) : Progress r r' := by
  unfold HybridKVBlockManager.cacheComputed at h
  split at h
  · cases h
    exact .refl _
  · obtain ⟨m₁, -, h⟩ := bind_eq_ok.mp h
    cases h
    exact { Progress.refl _ with }

theorem progress_release {m : HybridKVBlockManager} {r : Request}
    (h : m.releaseRequestBlocks r = .ok (m', r')) : Progress r r' := by
  obtain ⟨pool, -, h⟩ := bind_eq_ok.mp h
  obtain ⟨-, hr'⟩ := Prod.mk.inj (pure_eq_ok.mp h)
  rw [← hr']
  split
  · exact { Progress.refl _ with }
  · exact .refl _

theorem Ok.step (h : Ok cfg c) {call : Call} (hs : step cfg c call = some c') : Ok cfg c' := by
  have hkeep : ∀ rid, Progress (c.reqs rid) (c.reqs rid) := fun _ => .refl _
  cases call with
  | plan rid =>
    obtain ⟨⟨m', r', plan⟩, hout, rfl⟩ := map_eq_some_iff.mp hs
    exact h.plan (toOption_eq_some hout)
  | allocate rid =>
    obtain ⟨⟨m', r'⟩, hout, rfl⟩ := map_eq_some_iff.mp hs
    exact h.allocate (toOption_eq_some hout)
  | ensureSlots rid scheduledTokens lookahead =>
    obtain ⟨m', hout, rfl⟩ := map_eq_some_iff.mp hs
    exact h.moves (ensureSlots_moves (toOption_eq_some hout)) (progress_put (hkeep rid))
  | cacheComputed rid =>
    obtain ⟨⟨m', r'⟩, hout, rfl⟩ := map_eq_some_iff.mp hs
    have hcall := toOption_eq_some hout
    exact h.moves (cacheComputed_moves hcall) (progress_put (progress_cacheComputed hcall))
  | release rid =>
    obtain ⟨⟨m', r'⟩, hout, rfl⟩ := map_eq_some_iff.mp hs
    have hcall := toOption_eq_some hout
    exact h.moves (releaseRequestBlocks_moves hcall) (progress_put (progress_release hcall))
  | allocateExternalDestinations rid hits =>
    obtain ⟨⟨m', targets⟩, hout, rfl⟩ := map_eq_some_iff.mp hs
    exact h.moves (allocateExternalDestinations_moves (toOption_eq_some hout))
      (progress_put (hkeep rid))
  | finishExternalImport rid targets hitTokens =>
    cases hs
    exact h.moves (finishExternalImport_moves targets hitTokens) (progress_put (hkeep rid))
  | pin slot =>
    obtain ⟨m', hout, rfl⟩ := map_eq_some_iff.mp hs
    exact h.moves (pinTransfer_moves (toOption_eq_some hout)) hkeep
  | unpin slot =>
    obtain ⟨m', hout, rfl⟩ := map_eq_some_iff.mp hs
    exact h.moves (unpinTransfer_moves (toOption_eq_some hout)) hkeep
  | compute rid position =>
    cases hs
    exact h.moves (.refl _) (progress_put { Progress.refl _ with })
  | generate rid tokens =>
    cases hs
    exact h.moves (.refl _) (progress_put (Progress.generate _ _))

end Caller

/-- In every state that calls in any order reach, a plan that is asked for is the plan
that would be computed, or both raise the same exception, and each of its pages is the
primary entry under its slot key. -/
theorem planReuse_eq_computePlan (cfg : HybridConfig) (reqs : Nat → Request)
    (hids : ∀ rid, (reqs rid).id = rid) (c : Caller)
    (hrun : Reaches (Caller.step cfg) (fun _ _ => True) (Caller.init cfg reqs) c) (rid : Nat) :
    (c.mgr.planReuse cfg (c.reqs rid)).map (fun out => out.2.2) =
      (computePlan cfg (c.reqs rid) c.mgr.pool.cache).map Prod.fst ∧
    ∀ m' r' plan, c.mgr.planReuse cfg (c.reqs rid) = .ok (m', r', plan) →
      ∀ e ∈ plan.groupHits, ∃ g ∈ cfg.layout.groups, g.groupId = e.1 ∧ ∀ page ∈ e.2,
        ∃ key, cfg.slotKey (c.reqs rid) g page.1 = .ok (some key) ∧
          c.mgr.pool.cache.get? key = some page.2 := by
  have hok : Caller.Ok cfg c := hrun.invariant (P := Caller.Ok cfg)
    ⟨hids, fun _ => ⟨nofun, nofun⟩⟩ fun h _ hs => h.step hs
  refine ⟨?_, fun m' r' plan hplan e he => ?_⟩
  · rcases planReuse_cases c.mgr (c.reqs rid) with hrec | ⟨plan, hmemo, hhit⟩
    · rw [hrec, planReuse.recompute]
      cases computePlan cfg (c.reqs rid) c.mgr.pool.cache <;> rfl
    · obtain ⟨s, hcomp⟩ := (hok.memo rid).plan _ plan hmemo rfl
      rw [hhit, hcomp]
      rfl
  · obtain ⟨hplanOk, -⟩ := planReuse_spec (hok.memo rid) hplan
    rcases hplanOk.hits with ⟨-, hnil⟩ | ⟨blocks, -, -, -, hhits⟩
    · rw [hnil] at he
      exact nomatch he
    · obtain ⟨pairs, hpairs, hall⟩ := hhits.listed
      rw [hpairs] at he
      obtain ⟨g, hg, rfl⟩ := List.mem_map.mp he
      exact ⟨g, hg, rfl, fun page hpage => (hall g hg).2 page hpage⟩

/-- The memo of a request holds a plan of two blocks, which is still the one that would
be computed. -/
theorem planReuse_eq_computePlan_sample : ∃ c,
    Reaches (Caller.step (sampleConfig windowLayout)) (fun _ _ => True)
      (Caller.init (sampleConfig windowLayout) (sampleRequest (sampleConfig windowLayout))) c ∧
    (c.mgr.plans.get? 1).isSome = true ∧
    ((computePlan (sampleConfig windowLayout) (c.reqs 1) c.mgr.pool.cache).map Prod.fst).map
      HybridReusePlan.hitTokens = .ok 4 := by
  obtain ⟨c, hrun, hmemo, hplan⟩ := exists_reaches (Caller.step (sampleConfig windowLayout))
    (fun _ _ => True)
    (Caller.init (sampleConfig windowLayout) (sampleRequest (sampleConfig windowLayout)))
    [.allocate 0, .ensureSlots 0 4 0, .compute 0 4, .cacheComputed 0, .plan 1, .pin 1]
    (fun c => (c.mgr.plans.get? 1).isSome = true ∧
      ((c.mgr.planReuse (sampleConfig windowLayout) (c.reqs 1)).map fun out => out.2.2).map
        HybridReusePlan.hitTokens = .ok 4)
    (by decide +kernel)
  refine ⟨c, hrun, hmemo, ?_⟩
  rw [← (planReuse_eq_computePlan _ _ (fun _ => rfl) c hrun 1).1]
  exact hplan

end TokenSim
