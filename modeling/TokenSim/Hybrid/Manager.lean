import Mathlib.Data.List.Dedup
import Mathlib.Data.List.Sort
import TokenSim.Hybrid.Keys
import TokenSim.Hybrid.SlotPool

/-!
# The hybrid block manager

The manager holds, for every admitted request and every group of the layout, a
table from page indices to slots of the shared pool.

* A reuse plan (`computePlan`) finds the longest prefix of engine blocks that
  all groups can recover.  A full group must have every page of the prefix; a
  window group only a tail before the boundary, and one page past it when it
  carries draft layers.  That last page only proves the boundary and is not
  acquired.
* `allocate` acquires the pages of a plan.
* `ensureSlots` gives back the pages that fell out of a window and then
  allocates the pages of the next tokens.
* `cacheComputed` publishes complete pages.  Full pages are published in order.
  Window pages are published only in the tails before a retention boundary; a
  memo skips the window groups until the computed position reaches the next one.
* External pages are written into private slots (`allocateExternalDestinations`)
  and enter the prefix map when the transfer is done (`finishExternalImport`).

An operation returns the new state or the exception it raises.  `published`
lists the pages that the publication callbacks have seen; what a callback does
(pin the slot of the page for a transfer) is a separate operation here.
-/

namespace TokenSim

/-- The pages of one group: page index to slot. -/
abbrev GroupTable := OrderedDict Nat Nat

/-- The tables of one request by group number, in layout order. -/
abbrev GroupTables := OrderedDict Nat GroupTable

/-- An index range `(first, top)`. -/
abbrev Span := Nat × Nat

/-- The table of a group.  Admission creates one for every group. -/
def tableOf (tables : GroupTables) (g : CacheGroup) : GroupTable :=
  (tables.get? g.groupId).getD .empty

/-- The pages found for each group: page index and what was found. -/
abbrev GroupHits (β : Type) := List (Nat × List (Nat × β))

structure HybridReusePlan where
  inputKeys : List BlockKey
  fullInputBlocks : Nat
  totalLogicalBlocks : Nat
  hasHashIds : Bool
  hitTokens : Nat
  effectivePrefillTokens : Nat
  hitBlocks : List Nat
  groupHits : GroupHits Nat
deriving DecidableEq

/-- Full input blocks that the plan does not cover. -/
def HybridReusePlan.reuseMissBlocks (plan : HybridReusePlan) : Nat :=
  if plan.hasHashIds then plan.fullInputBlocks - plan.hitBlocks.length else 0

/-- What a memoised plan was computed from. -/
structure PlanState where
  contextLen : Nat
  numLogicalTokenBlocks : Nat
  cacheVersion : Nat
  cacheSize : Nat
deriving DecidableEq

/-- What a publication pass looked at. -/
structure CommitState where
  computed : Nat
  contextLen : Nat
  shared : List Nat
deriving DecidableEq

/-- When window pages have to be looked at again. -/
inductive Threshold where
  /-- At the next change. -/
  | recheck
  /-- Once this many tokens are computed. -/
  | at (position : Nat)
  | never
deriving DecidableEq

/-- Whether the window pages are due at a computed position. -/
def Threshold.due : Threshold → Nat → Bool
  | .recheck, _ => true
  | .at position, computed => position ≤ computed
  | .never, _ => false

/-- A published page, as a publication callback sees it. -/
structure Publication where
  requestId : Nat
  groupId : Nat
  index : Nat
  slot : Nat
  key : SlotKey
deriving DecidableEq

/-- A private page that a transfer writes to. -/
structure Destination where
  groupId : Nat
  index : Nat
  key : SlotKey
  slot : Nat
deriving DecidableEq

structure HybridKVBlockManager where
  pool : SlotPool SlotKey
  tables : OrderedDict Nat GroupTables
  /-- Engine blocks of a request whose full pages were considered. -/
  cachedProgress : OrderedDict Nat Nat
  /-- References that transfers hold, per slot. -/
  transferReferences : OrderedDict Nat Nat
  plans : OrderedDict Nat (PlanState × HybridReusePlan)
  committed : OrderedDict Nat (CommitState × Threshold)
  /-- For each group of a request, the range its table is known to hold. -/
  spans : OrderedDict Nat (List (Option Span))
  published : List Publication

/-! ## Reuse plans -/

section Lookup

variable {β : Type} (cfg : HybridConfig) (r : Request)

/-- The pages of a window group that prove a boundary. -/
def tailPages (g : CacheGroup) (boundary : Nat) : List Nat :=
  let stop := boundary / g.blockTokens + g.eagle.toNat
  let start := stop - g.hitTailSlots
  List.range' start (stop - start)

/-- What is found under the keys of some pages. -/
def lookupPages (find : SlotKey → Option β) (g : CacheGroup) :
    List Nat → Except Err (List (Nat × Option β))
  | [] => pure []
  | index :: rest => do
    let key ← cfg.slotKey r g index
    let pairs ← lookupPages find g rest
    pure ((index, key.bind find) :: pairs)

/-- The pairs if no page is missing. -/
def allFound : List (Nat × Option β) → Option (List (Nat × β))
  | [] => some []
  | (index, some page) :: rest => (allFound rest).map ((index, page) :: ·)
  | (_, none) :: _ => none

/-- The page past the boundary is only a proof and is dropped. -/
def dropEagle (g : CacheGroup) (pairs : List (Nat × β)) : List (Nat × β) :=
  if g.eagle then pairs.dropLast else pairs

/-- The pages of all groups, if every group has all that is asked of it. -/
def groupHits (probe : CacheGroup → Except Err (Option (List (Nat × β)))) :
    List CacheGroup → Except Err (Option (GroupHits β))
  | [] => pure (some [])
  | g :: rest => do
    match ← probe g with
    | none => pure none
    | some pairs => do
      let hits ← groupHits probe rest
      pure (hits.map ((g.groupId, dropEagle g pairs) :: ·))

/-- The largest number of blocks above `start` at which `hitsAt` succeeds. -/
def longestHit (hitsAt : Nat → Except Err (Option (GroupHits β))) (start : Nat) :
    Nat → Except Err (Option (Nat × GroupHits β))
  | 0 => pure none
  | blocks + 1 =>
    if blocks + 1 ≤ start then pure none
    else do
      match ← hitsAt (blocks + 1) with
      | some hits => pure (some (blocks + 1, hits))
      | none => longestHit hitsAt start blocks

/-- The leading blocks whose full page is found. -/
def leadingFound (find : SlotKey → Option β) (groupId : Nat) : List BlockKey → List β
  | [] => []
  | key :: rest =>
    match find ⟨groupId, key, 0⟩ with
    | some page => page :: leadingFound find groupId rest
    | none => []

/-- The engine blocks that a plan may cover: one token is left to compute. -/
def maximumBlocks : Nat :=
  min (cfg.inputKeys r).length ((r.contextLen - 1) / cfg.blockSize)

/-- The pages of a group at `blocks` engine blocks in the prefix map.  The
pages of the first full group were found before. -/
def localProbe (cache : OrderedDict SlotKey Nat) (found : List Nat) (blocks : Nat)
    (g : CacheGroup) : Except Err (Option (List (Nat × Nat))) :=
  if g = cfg.layout.fullGroup then
    pure (some ((List.range (found.take blocks).length).zip (found.take blocks)))
  else do
    let indices := if g.windowTokens = 0 then List.range blocks
      else tailPages g (blocks * cfg.blockSize)
    let pairs ← lookupPages cfg r cache.get? g indices
    pure (allFound pairs)

/-- The pages of a group in an external store, after `start` local blocks. -/
def externalProbe (lookup : SlotKey → Bool) (start blocks : Nat) (g : CacheGroup) :
    Except Err (Option (List (Nat × SlotKey))) := do
  let indices := if g.windowTokens = 0 then List.range' start (blocks - start)
    else tailPages g (blocks * cfg.blockSize)
  let pairs ← lookupPages cfg r (fun key => if lookup key then some key else none) g indices
  pure (allFound pairs)

/-- The reuse plan from the prefix map as it is.  A longer run of full pages
than all groups can recover is remembered as a boundary worth retaining. -/
def computePlan (cache : OrderedDict SlotKey Nat) : Except Err (HybridReusePlan × Request) := do
  let keys := cfg.inputKeys r
  let found := leadingFound cache.get? cfg.layout.fullGroup.groupId
    (keys.take (maximumBlocks cfg r))
  let best ← longestHit (fun blocks =>
    groupHits (localProbe cfg r cache found blocks) cfg.layout.groups) 0 found.length
  let matched := match best with
    | some (blocks, _) => blocks * cfg.blockSize
    | none => 0
  let hits := match best with
    | some (_, hits) => hits
    | none => []
  let r' := if matched < found.length * cfg.blockSize then
    { r with sharedPrefixBoundaries := [found.length * cfg.blockSize] } else r
  let fullHits := match hits.find? (fun e => e.1 = cfg.layout.fullGroup.groupId) with
    | some (_, pairs) => pairs.map Prod.snd
    | none => []
  pure (⟨keys, r.prefillLen / cfg.blockSize, r.numLogicalTokenBlocks, r.hashIds.getD [] ≠ [],
    matched, r.prefillLen - matched, fullHits, hits⟩, r')

/-- The longest prefix that an external store can supply after the local one,
and its pages. -/
def planExternalReuse (lookup : SlotKey → Bool) (localTokens : Nat) :
    Except Err (Nat × GroupHits SlotKey) := do
  let start := localTokens / cfg.blockSize
  let keys := ((cfg.inputKeys r).take (maximumBlocks cfg r)).drop start
  let contiguous := start + (leadingFound (fun key => if lookup key then some key else none)
    cfg.layout.fullGroup.groupId keys).length
  let best ← longestHit (fun blocks =>
    groupHits (externalProbe cfg r lookup start blocks) cfg.layout.groups) start contiguous
  match best with
  | some (blocks, hits) => pure (blocks * cfg.blockSize, hits)
  | none => pure (localTokens, [])

end Lookup

/-! ## Tables -/

/-- The range of a table that holds consecutive indices in order. -/
def spanOf (table : GroupTable) : Option Span :=
  match table.keys with
  | [] => some (0, 0)
  | first :: rest =>
    if first :: rest = List.range' first (first :: rest).length then
      some (first, first + (first :: rest).length)
    else none

/-- The spans of the window groups. -/
def windowSpans (groups : List CacheGroup) (tables : GroupTables) : List (Option Span) :=
  groups.map fun g => if g.windowTokens = 0 then none else spanOf (tableOf tables g)

/-- Empty tables for all groups. -/
def emptyTables (groups : List CacheGroup) : GroupTables :=
  OrderedDict.empty.update (groups.map fun g => (g.groupId, OrderedDict.empty))

/-- Write pages into the tables of their groups. -/
def addPages (tables : GroupTables) : GroupHits Nat → Except Err GroupTables
  | [] => pure tables
  | (groupId, pairs) :: rest => do
    let table ← (tables.get? groupId).orRaise .keyError
    addPages (tables.set groupId (table.update pairs)) rest

/-- Take pages out of a table. -/
def popPages (table : GroupTable) : List Nat → Except Err (GroupTable × List Nat)
  | [] => pure (table, [])
  | index :: rest => do
    let slot ← (table.get? index).orRaise .keyError
    let (table, slots) ← popPages (table.erase index) rest
    pure (table, slot :: slots)

/-- Acquire slots in order. -/
def SlotPool.acquireMany {κ : Type} (p : SlotPool κ) : List Nat → Except Err (SlotPool κ)
  | [] => pure p
  | s :: rest => do
    let p ← p.acquire s
    p.acquireMany rest

/-- The slots of all pages, group after group. -/
def GroupHits.slots (hits : GroupHits Nat) : List Nat := hits.flatMap fun e => e.2.map Prod.snd

/-- Run a step for every group in layout order, on the group's table and span. -/
def forGroups {σ : Type}
    (f : CacheGroup → σ → GroupTable → Option Span → Except Err (σ × GroupTable × Option Span)) :
    List CacheGroup → List (Option Span) → σ → GroupTables →
      Except Err (σ × GroupTables × List (Option Span))
  | g :: groups, span :: spans, s, tables => do
    let (s, table, span) ← f g s (tableOf tables g) span
    let (s, tables, spans) ← forGroups f groups spans s (tables.set g.groupId table)
    pure (s, tables, span :: spans)
  | _, spans, s, tables => pure (s, tables, spans)

/-! ## Growth -/

/-- Give back the pages before the window, newest first. -/
def reclaim (computed : Nat) (g : CacheGroup) (pool : SlotPool SlotKey) (table : GroupTable)
    (span : Option Span) : Except Err (SlotPool SlotKey × GroupTable × Option Span) :=
  if g.windowTokens = 0 then pure (pool, table, span)
  else
    let low := g.windowStart computed
    match span with
    | none => do
      let (table, slots) ← popPages table (table.keys.reverse.filter (· < low))
      let pool ← pool.releaseMany slots
      pure (pool, table, none)
    | some (first, top) =>
      let cut := min low top
      if first < cut then do
        let (table, slots) ← popPages table (List.range' first (cut - first)).reverse
        let pool ← pool.releaseMany slots
        pure (pool, table, some (cut, top))
      else pure (pool, table, some (first, top))

/-- Allocate slots for page indices that are not in the table. -/
def addFresh (pool : SlotPool SlotKey) (table : GroupTable) (indices : List Nat) :
    Except Err (SlotPool SlotKey × GroupTable) := do
  let (pool, slots) ← pool.allocateMany indices.length
  pure (pool, table.update (indices.zip slots))

/-- Allocate the pages up to `stop`.  The flag tells that a page behind the
computed position is new, so that publication has to look at it. -/
def grow (computed stop : Nat) (g : CacheGroup) (state : SlotPool SlotKey × Bool)
    (table : GroupTable) (span : Option Span) :
    Except Err ((SlotPool SlotKey × Bool) × GroupTable × Option Span) :=
  let (pool, behind) := state
  let high := (stop + g.blockTokens - 1) / g.blockTokens
  if g.windowTokens = 0 then
    if table.size < high then do
      let (pool, table) ← addFresh pool table (List.range' table.size (high - table.size))
      pure ((pool, behind), table, span)
    else pure (state, table, span)
  else
    let low := g.windowStart computed
    let fillMissing := do
      let missing := (List.range' low (high - low)).filter (· ∉ table.keys)
      let (pool, table) ← addFresh pool table missing
      let first := missing.head?.map (· * g.blockTokens)
      pure ((pool, behind || first.any (· < computed)), table, spanOf table)
    match span with
    | some (first, top) =>
      if first = top ∨ first = low then
        -- contiguous from the window start, or empty: append the tail
        let start := if first = top then low else max low top
        if start < high then do
          let (pool, table) ← addFresh pool table (List.range' start (high - start))
          pure ((pool, behind || decide (start * g.blockTokens < computed)), table,
            some (if first = top then low else first, high))
        else pure (state, table, some (first, top))
      else fillMissing
    | none => fillMissing

/-- Pages of a table that only this table references. -/
def countSole (pool : SlotPool SlotKey) (table : GroupTable) : List Nat → Except Err Nat
  | [] => pure 0
  | index :: rest => do
    let slot ← (table.get? index).orRaise .keyError
    let count ← countSole pool table rest
    pure (count + if (pool.blocks slot).refCount = 1 then 1 else 0)

/-- The pages a group needs and the pages it can give back. -/
def slotDemand (computed stop : Nat) (pool : SlotPool SlotKey) (g : CacheGroup)
    (table : GroupTable) (span : Option Span) : Except Err (Nat × Nat) :=
  let high := (stop + g.blockTokens - 1) / g.blockTokens
  if g.windowTokens = 0 then pure (high - table.size, 0)
  else
    let low := g.windowStart computed
    match span with
    | none => do
      let sole ← countSole pool table (table.keys.filter (· < low))
      pure (((List.range' low (high - low)).filter (· ∉ table.keys)).length, sole)
    | some (first, top) => do
      let sole ← countSole pool table (List.range' first (min low top - first))
      pure (high - low - (min high top - max low first), sole)

/-- The demand of all groups. -/
def totalDemand (computed stop : Nat) (pool : SlotPool SlotKey) (tables : GroupTables) :
    List CacheGroup → List (Option Span) → Except Err (Nat × Nat)
  | g :: groups, span :: spans => do
    let (needed, sole) ← slotDemand computed stop pool g (tableOf tables g) span
    let (needed', sole') ← totalDemand computed stop pool tables groups spans
    pure (needed + needed', sole + sole')
  | _, _ => pure (0, 0)

/-! ## Retention -/

/-- The boundaries of a request besides the retention segments. -/
def requestBoundaries (cfg : HybridConfig) (r : Request) : List Nat :=
  (r.sharedPrefixBoundaries ++ [(r.prefillLen - 1) / cfg.blockSize * cfg.blockSize]).filter (· ≠ 0)

/-- Page `index` lies in the tail run of a boundary. -/
def inTail (g : CacheGroup) (index boundary : Nat) : Prop :=
  let stop := boundary / g.blockTokens + g.eagle.toNat
  stop - g.hitTailSlots ≤ index ∧ index < stop

instance (g : CacheGroup) (index boundary : Nat) : Decidable (inTail g index boundary) :=
  inferInstanceAs (Decidable (_ ∧ _))

/-- The end of the retention segment that a page belongs to.  The run of a
draft group extends one page past the boundary, so that pages are shifted
before their segment is located. -/
def segmentEnd (interval : Nat) (g : CacheGroup) (index : Nat) : Int :=
  ((index : Int) - g.eagle.toNat) * g.blockTokens / interval * interval + interval

/-- Whether a window page lies in a retained tail run. -/
def retained (interval : Nat) (g : CacheGroup) (index computed : Nat) (extra : List Nat) : Bool :=
  let boundaries := if interval ≠ 0 ∧ 0 < segmentEnd interval g index ∧
      segmentEnd interval g index ≤ computed then
    extra ++ [(segmentEnd interval g index).toNat] else extra
  boundaries.any fun boundary => inTail g index boundary

/-- The retained pages from `lowest` on, enumerated by boundary. -/
def retainedRuns (interval : Nat) (g : CacheGroup) (lowest computed : Nat) (extra : List Nat) :
    List Nat :=
  -- the smallest segment end whose tail reaches `lowest`
  let first := max 1 (cdiv ((lowest + 1 - g.eagle.toNat) * g.blockTokens) interval)
  let boundaries := if interval = 0 then extra else
    extra ++ (List.range' first (computed / interval + 1 - first)).map (· * interval)
  let candidates := boundaries.flatMap fun boundary =>
    let stop := boundary / g.blockTokens + g.eagle.toNat
    let start := max lowest (stop - g.hitTailSlots)
    List.range' start (stop - start)
  candidates.dedup.insertionSort (· ≤ ·)

/-- The pages of a window table to consider for publication, in order. -/
def windowCandidates (L : HybridKVLayout) (g : CacheGroup) (table : GroupTable) (computed : Nat)
    (extra : List Nat) : List Nat :=
  match table.keys with
  | [] => []
  | lowest :: _ =>
    if L.tailsFitSegments then retainedRuns L.retentionInterval g lowest computed extra
    else table.keys.filter fun index => retained L.retentionInterval g index computed extra

/-- The smallest position past `computed` that can complete a retained run. -/
def windowThreshold (L : HybridKVLayout) (computed : Nat) (boundaries : List Nat) : Threshold :=
  let segment := computed / L.retentionInterval * L.retentionInterval
  let candidates := if L.retentionInterval = 0 then boundaries else
    boundaries ++ [segment, segment + L.retentionInterval]
  let values := (L.groups.filter fun g => g.windowTokens ≠ 0).flatMap fun g =>
    candidates.flatMap fun boundary =>
      [boundary, boundary + if g.eagle then g.blockTokens else 0]
  match (values.filter (computed < ·)).min? with
  | some position => .at position
  | none => .never

namespace HybridKVBlockManager

variable (cfg : HybridConfig)

/-- The manager before any use. -/
def init : HybridKVBlockManager where
  pool := .init cfg.numSlots
  tables := .empty
  cachedProgress := .empty
  transferReferences := .empty
  plans := .empty
  committed := .empty
  spans := .empty
  published := []

variable (m : HybridKVBlockManager) (r : Request)

/-- What the plan of a request depends on besides the request's content. -/
def planState : PlanState :=
  ⟨r.contextLen, r.numLogicalTokenBlocks, m.pool.cacheVersion, m.pool.cache.size⟩

/-- The reuse plan of a request, from the memo if nothing has changed. -/
def planReuse : Except Err (HybridKVBlockManager × Request × HybridReusePlan) :=
  match m.plans.get? r.id with
  | some (state, plan) =>
    if state = m.planState r then pure (m, r, plan) else recompute
  | none => recompute
where
  recompute : Except Err (HybridKVBlockManager × Request × HybridReusePlan) := do
    let (plan, r') ← computePlan cfg r m.pool.cache
    pure ({ m with plans := m.plans.set r.id (m.planState r, plan) }, r', plan)

/-- Admit a request with the pages of its plan. -/
def allocate : Except Err (HybridKVBlockManager × Request) :=
  if r.id ∈ m.tables.keys then
    throw (.simulationState "duplicate native hybrid request admission")
  else do
    let (m, r, plan) ← m.planReuse cfg r
    let pool ← m.pool.acquireMany plan.groupHits.slots
    let tables ← addPages (emptyTables cfg.layout.groups) plan.groupHits
    let cached := min r.prefillLen plan.hitTokens
    pure ({ m with
        pool := pool
        tables := m.tables.set r.id tables
        cachedProgress := m.cachedProgress.set r.id (plan.hitTokens / cfg.blockSize)
        committed := m.committed.erase r.id
        spans := m.spans.set r.id (windowSpans cfg.layout.groups tables) },
      { r with
        cachedPrefillTokens := cached
        cachedPrefillBlocks := cached / cfg.blockSize
        gpuCachedContextTokens := plan.hitTokens
        effectivePrefillTokens := plan.effectivePrefillTokens
        reuseHitBlocks := cached / cfg.blockSize
        reuseMissBlocks := plan.reuseMissBlocks
        inputCacheKeys := plan.inputKeys
        inputCacheCommitted := false })

/-- The end of the tokens of a step, with lookahead. -/
def stepEnd (scheduledTokens lookahead : Nat) : Nat :=
  min cfg.layout.maxModelLen (r.numComputedTokens + scheduledTokens + lookahead)

def canEnsureSlots (scheduledTokens lookahead : Nat) : Except Err Bool := do
  let tables ← (m.tables.get? r.id).orRaise .keyError
  let spans ← (m.spans.get? r.id).orRaise .keyError
  let (needed, sole) ← totalDemand r.numComputedTokens (stepEnd cfg r scheduledTokens lookahead)
    m.pool tables cfg.layout.groups spans
  pure (needed ≤ m.pool.getNumFreeBlocks + sole)

/-- Allocate the pages of the next tokens.  All old windows are reclaimed
before any group grows. -/
def ensureSlots (scheduledTokens lookahead : Nat) : Except Err HybridKVBlockManager := do
  let stop := stepEnd cfg r scheduledTokens lookahead
  let tables ← (m.tables.get? r.id).orRaise .keyError
  let spans ← (m.spans.get? r.id).orRaise .keyError
  let (pool, tables, spans) ← forGroups (reclaim r.numComputedTokens) cfg.layout.groups spans
    m.pool tables
  let ((pool, behind), tables, spans) ← forGroups (grow r.numComputedTokens stop)
    cfg.layout.groups spans (pool, false) tables
  pure { m with
    pool := pool
    tables := m.tables.set r.id tables
    spans := m.spans.set r.id spans
    committed := if behind then m.committed.erase r.id else m.committed }

/-! ## Publication -/

/-- Publish one complete page; `false` when its key is not known yet. -/
def publish (g : CacheGroup) (index slot : Nat) : Except Err (HybridKVBlockManager × Bool) := do
  match ← cfg.slotKey r g index with
  | none => pure (m, false)
  | some key => pure ({ m with
      pool := m.pool.publish slot key
      published := m.published ++ [⟨r.id, g.groupId, index, slot, key⟩] }, true)

section

variable (g : CacheGroup) (table : GroupTable)

/-- Publish the full pages of the given indices that are not published yet. -/
def publishFull : HybridKVBlockManager → List Nat → Except Err HybridKVBlockManager
  | m, [] => pure m
  | m, index :: rest => do
    let slot ← (table.get? index).orRaise .keyError
    if (m.pool.blocks slot).cached then publishFull m rest
    else do
      let (m, _) ← m.publish cfg r g index slot
      publishFull m rest

/-- Publish the complete window pages of the given indices.  The flag tells
that a page lacked its key. -/
def publishWindow (computed : Nat) :
    HybridKVBlockManager → List Nat → Except Err (HybridKVBlockManager × Bool)
  | m, [] => pure (m, false)
  | m, index :: rest =>
    match table.get? index with
    | none => publishWindow computed m rest
    | some slot =>
      if (m.pool.blocks slot).cached ∨ computed < (index + 1) * g.blockTokens then
        publishWindow computed m rest
      else do
        let (m, known) ← m.publish cfg r g index slot
        let (m, deferred) ← publishWindow computed m rest
        pure (m, !known || deferred)

end

/-- The publication pass over one group. -/
def publishGroup (tables : GroupTables) (computed : Nat) (windows : Bool)
    (g : CacheGroup) (m : HybridKVBlockManager) : Except Err (HybridKVBlockManager × Bool) :=
  if g.windowTokens = 0 then do
    let stop := min (computed / g.blockTokens) (cfg.inputKeys r).length
    let start ← (m.cachedProgress.get? r.id).orRaise .keyError
    let m ← publishFull cfg r g (tableOf tables g)
      { m with cachedProgress := m.cachedProgress.set r.id stop }
      (List.range' start (stop - start))
    pure (m, false)
  else if windows then
    publishWindow cfg r g (tableOf tables g) computed m
      (windowCandidates cfg.layout g (tableOf tables g) computed
        ((requestBoundaries cfg r).filter (· ≤ computed)))
  else pure (m, false)

/-- The publication pass over all groups. -/
def publishGroups (tables : GroupTables) (computed : Nat) (windows : Bool) :
    List CacheGroup → HybridKVBlockManager → Except Err (HybridKVBlockManager × Bool)
  | [], m => pure (m, false)
  | g :: groups, m => do
    let (m, deferred) ← publishGroup cfg r tables computed windows g m
    let (m, deferred') ← publishGroups tables computed windows groups m
    pure (m, deferred || deferred')

/-- Publish newly complete retained pages; return when the window pages are
due again. -/
def publishComputed (tables : GroupTables)
    (computed : Nat) (windows : Bool) : Except Err (HybridKVBlockManager × Threshold) := do
  let (m, deferred) ← publishGroups cfg r tables computed windows cfg.layout.groups m
  pure (m, if !windows || deferred || !cfg.layout.tailsFitSegments then .recheck
    else windowThreshold cfg.layout computed (requestBoundaries cfg r))

/-- The state a publication pass looks at. -/
def commitState : CommitState :=
  ⟨r.numComputedTokens, r.contextLen, r.sharedPrefixBoundaries⟩

/-- Whether a pass has to look at the window pages. -/
def windowsDue (entry : Option (CommitState × Threshold)) (r : Request) : Bool :=
  match entry with
  | none => true
  | some (state, threshold) =>
    decide (state.shared ≠ r.sharedPrefixBoundaries) || threshold.due r.numComputedTokens

/-- A publication pass, unless nothing has changed since the last one. -/
def publicationPass (tables : GroupTables) : Except Err HybridKVBlockManager :=
  let entry := m.committed.get? r.id
  if entry.map Prod.fst = some (commitState r) then pure m
  else do
    let windows := windowsDue entry r
    let (m, threshold) ← m.publishComputed cfg r tables r.numComputedTokens windows
    let threshold := match entry with
      | some (_, old) => if windows then threshold else old
      | none => threshold
    pure { m with committed := m.committed.set r.id (commitState r, threshold) }

/-- Publish the pages that the computed tokens complete. -/
def cacheComputed : Except Err (HybridKVBlockManager × Request) :=
  match m.tables.get? r.id with
  | none => pure (m, r)
  | some tables => do
    let m ← m.publicationPass cfg r tables
    pure (m, { r with inputCacheCommitted := !r.isPrefill })

/-! ## Release -/

/-- Release the pages of the tables, each tail first. -/
def releaseTables : SlotPool SlotKey → List GroupTable → Except Err (SlotPool SlotKey)
  | pool, [] => pure pool
  | pool, table :: rest => do
    let pool ← pool.releaseMany table.values.reverse
    releaseTables pool rest

def releaseRequestBlocks : Except Err (HybridKVBlockManager × Request) := do
  let tables := (m.tables.get? r.id).getD .empty
  let pool ← releaseTables m.pool tables.values
  pure ({ m with
      pool := pool
      tables := m.tables.erase r.id
      cachedProgress := m.cachedProgress.erase r.id
      plans := m.plans.erase r.id
      committed := m.committed.erase r.id
      spans := m.spans.erase r.id },
    if (m.tables.get? r.id).isSome then { r with physicalTokenBlocks := [] } else r)

/-! ## External pages -/

/-- Slots that an import takes from the free queue: pages of the table that
only this request holds are given back first. -/
def externalImportSlots (tables : GroupTables)
    (hits : GroupHits SlotKey) : Nat :=
  (hits.map fun e => e.2.length).sum - (hits.map fun e =>
    e.2.countP fun pair => (((tables.get? e.1).getD .empty).get? pair.1).any fun slot =>
      (m.pool.blocks slot).refCount = 1).sum

/-- Release the pages of a table that an import replaces. -/
def dropReplaced : SlotPool SlotKey → GroupTable → List (Nat × SlotKey) →
    Except Err (SlotPool SlotKey × GroupTable)
  | pool, table, [] => pure (pool, table)
  | pool, table, (index, _) :: rest =>
    match table.get? index with
    | none => dropReplaced pool table rest
    | some slot => do
      let pool ← pool.releaseMany [slot]
      dropReplaced pool (table.erase index) rest

def dropAllReplaced : SlotPool SlotKey → GroupTables → GroupHits SlotKey →
    Except Err (SlotPool SlotKey × GroupTables)
  | pool, tables, [] => pure (pool, tables)
  | pool, tables, (groupId, pairs) :: rest => do
    let table ← (tables.get? groupId).orRaise .keyError
    let (pool, table) ← dropReplaced pool table pairs
    dropAllReplaced pool (tables.set groupId table) rest

/-- Allocate the private pages of an import in one group. -/
def addDestinations (groupId : Nat) : SlotPool SlotKey → GroupTable → List (Nat × SlotKey) →
    Except Err (SlotPool SlotKey × GroupTable × List Destination)
  | pool, table, [] => pure (pool, table, [])
  | pool, table, (index, key) :: rest => do
    let (pool, slots) ← pool.allocateMany 1
    let slot ← slots.head?.orRaise .indexError
    let (pool, table, targets) ← addDestinations groupId pool (table.set index slot) rest
    pure (pool, table, ⟨groupId, index, key, slot⟩ :: targets)

def addAllDestinations : SlotPool SlotKey → GroupTables → GroupHits SlotKey →
    Except Err (SlotPool SlotKey × GroupTables × List Destination)
  | pool, tables, [] => pure (pool, tables, [])
  | pool, tables, (groupId, pairs) :: rest => do
    let table ← (tables.get? groupId).orRaise .keyError
    let (pool, table, targets) ← addDestinations groupId pool table pairs
    let (pool, tables, targets') ← addAllDestinations pool (tables.set groupId table) rest
    pure (pool, tables, targets ++ targets')

/-- Reserve private pages for an external prefix. -/
def allocateExternalDestinations
    (hits : GroupHits SlotKey) : Except Err (HybridKVBlockManager × List Destination) := do
  let tables ← (m.tables.get? r.id).orRaise .keyError
  if m.pool.getNumFreeBlocks < m.externalImportSlots tables hits then
    throw (.outOfBlocks "external hybrid import needs more free GPU slots")
  else do
    let (pool, tables) ← dropAllReplaced m.pool tables hits
    let (pool, tables, targets) ← addAllDestinations pool tables hits
    pure ({ m with
      pool := pool
      tables := m.tables.set r.id tables
      committed := m.committed.erase r.id
      spans := m.spans.set r.id (windowSpans cfg.layout.groups tables) }, targets)

/-- Enter the imported pages into the prefix map. -/
def finishExternalImport (targets : List Destination)
    (hitTokens : Nat) : HybridKVBlockManager :=
  let pool := targets.foldl (fun pool target => pool.enter target.slot target.key) m.pool
  { m with
    pool := { pool with cacheVersion := pool.cacheVersion + 1 }
    cachedProgress := m.cachedProgress.set r.id (hitTokens / cfg.blockSize)
    committed := m.committed.erase r.id }

/-- A transfer takes a reference of its own. -/
def pinTransfer (slot : Nat) : Except Err HybridKVBlockManager := do
  let pool ← m.pool.acquire slot
  pure { m with
    pool := pool
    transferReferences := m.transferReferences.set slot
      ((m.transferReferences.get? slot).getD 0 + 1) }

def unpinTransfer (slot : Nat) : Except Err HybridKVBlockManager := do
  let count := (m.transferReferences.get? slot).getD 0
  if count = 0 then throw (.simulationState "invalid native DMA reference release")
  else do
    let pool ← m.pool.releaseMany [slot]
    pure { m with
      pool := pool
      transferReferences := if count = 1 then m.transferReferences.erase slot
        else m.transferReferences.set slot (count - 1) }

end HybridKVBlockManager

end TokenSim
