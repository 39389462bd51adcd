import Mathlib.Data.List.Sort
import Mathlib.Data.Rat.Floor
import TokenSim.Block
import TokenSim.Lib.Tally

/-!
# Routing statistics of mixture-of-experts layers

Without recorded routes the routes of a step are made up: every token takes
`numExpertsPerTok` of them, and they are dealt out over the experts.  Uniform
routing deals them in a fixed order of the experts that changes the
expert-parallel rank as often as it can, and a cursor remembers across steps
where the last partial round ended.

A histogram depends only on the number of routes and the cursor, so that it is
kept in a memo of bounded size.
-/

namespace TokenSim

/-- Counts of routes by expert. -/
abbrev Histogram := Tally Nat

namespace Histogram

/-- The routes counted for an expert. -/
def count (h : Histogram) (expert : Nat) : Int := Tally.amount h expert

def total (h : Histogram) : Int := h.values.sum

end Histogram

/-- `moe_routing_distribution`. -/
inductive RoutingDistribution where
  | uniform
  | skew
  | hot
  | burst
deriving DecidableEq, Repr

structure RoutingConfig where
  distribution : RoutingDistribution := .uniform
  hotExperts : Option (List Int) := none
  hotExpertFraction : ℚ := 1 / 2

/-- What routing reads of a model.  A model with expert layers has experts. -/
structure MoEModelConfig where
  isMoeModel : Bool
  numExperts : Nat
  numExpertsPerTok : Nat
  numMoeLayers : Nat
  experts_pos : isMoeModel = true → 0 < numExperts

def MoEModelConfig.enabled (c : MoEModelConfig) : Bool := c.isMoeModel && decide (0 < c.numMoeLayers)

theorem MoEModelConfig.pos_of_enabled {c : MoEModelConfig} (h : c.enabled = true) :
    0 < c.numExperts :=
  c.experts_pos (Bool.and_elim_left h)

/-! ## Routers -/

/-- What does not change about a router.  Its order has every expert once. -/
structure ExpertRouting where
  moeConfig : MoEModelConfig
  routingConfig : RoutingConfig
  expertOrder : List Nat
  covers : expertOrder.Perm (List.range moeConfig.numExperts)

/-- What steps change. -/
structure RoutingState where
  routeCursor : Nat
  syntheticCache : OrderedDict (Nat × Nat) Histogram

/-- The experts of all ranks, one of each rank in turn. -/
def interleave (groups : List (List Nat)) : List Nat :=
  (List.range ((groups.map List.length).foldl max 0)).flatMap fun i =>
    groups.filterMap fun experts => experts[i]?

namespace ExpertRouting

/-- The order of the experts for a placement on expert-parallel ranks. -/
def orderOf (count : Nat) (rankToExperts : OrderedDict Int (List Nat)) : List Nat :=
  if rankToExperts.size = 0 then List.range count
  else interleave ((rankToExperts.keys.insertionSort (· ≤ ·)).filterMap rankToExperts.get?)

/-- Set up a router and its state. -/
def init (moeConfig : MoEModelConfig) (routingConfig : RoutingConfig) (seed : Int)
    (rankToExperts : OrderedDict Int (List Nat)) : Except Err (ExpertRouting × RoutingState) :=
  let count := moeConfig.numExperts
  let order := orderOf count rankToExperts
  if h : order.insertionSort (· ≤ ·) = List.range count then
    pure (⟨moeConfig, routingConfig, order, h ▸ (List.perm_insertionSort (· ≤ ·) order).symm⟩,
      ⟨if count = 0 then 0 else (seed % count).toNat, .empty⟩)
  else throw (.workloadValidation "expert placement must cover every expert once")

variable (x : ExpertRouting)

/-- Full rounds for every expert, and a partial round from the offset on. -/
def uniformHistogram (routeCount offset : Nat) : Histogram :=
  let base := routeCount / x.moeConfig.numExperts
  let remainder := routeCount % x.moeConfig.numExperts
  let full : Histogram :=
    if base ≠ 0 then OrderedDict.empty.update (x.expertOrder.map fun e => (e, (base : Int)))
    else .empty
  full.update (((List.range remainder).filterMap fun index =>
    x.expertOrder[(offset + index) % x.moeConfig.numExperts]?).map fun e => (e, (base : Int) + 1))

/-- Deal routes out one by one, around a list of experts. -/
def dealt (routeCount : Nat) (experts : List Nat) : List (Nat × Int) :=
  (List.range routeCount).filterMap fun index =>
    experts[index % experts.length]?.map fun e => (e, 1)

/-- A share of the routes for the hot experts and the rest for the others. -/
def hotHistogram (routeCount : Nat) : Histogram :=
  let known := ((x.routingConfig.hotExperts.getD []).filter fun e : Int =>
    0 ≤ e ∧ e < x.moeConfig.numExperts).map Int.toNat
  let hot := if known = [] then [0] else known
  let hotCount := ⌊routeCount * x.routingConfig.hotExpertFraction⌋.toNat
  let others := (List.range x.moeConfig.numExperts).filter (· ∉ hot)
  let cold := if others = [] then hot else others
  Tally.addAll (Tally.addAll .empty (dealt hotCount hot)) (dealt (routeCount - hotCount) cold)

/-- The histogram of a number of routes from an offset, computed afresh. -/
def freshHistogram (routeCount offset : Nat) : Histogram :=
  match x.routingConfig.distribution with
  | .uniform => x.uniformHistogram routeCount offset
  | .skew | .hot | .burst => x.hotHistogram routeCount

end ExpertRouting

/-- Enter a value into a memo, which is cleared when it is full. -/
def boundedSet {α β : Type} [DecidableEq α] (maxEntries : Nat) (d : OrderedDict α β) (k : α)
    (v : β) : OrderedDict α β :=
  (if maxEntries ≤ d.size ∧ d.get? k = none then .empty else d).set k v

/-- `_SYNTHETIC_CACHE_LIMIT`. -/
def syntheticCacheLimit : Nat := 4096

inductive RoutingPhase where
  | prefill
  | decode
deriving DecidableEq, Repr

/-- What a step reads of a request that brings no histogram of its own. -/
structure RoutedRequest where
  isPrefill : Bool
  scheduledTokens : Int := 0
  needsRecompute : Bool := false
  recomputeTokens : Int := 0
  prefillComputeLen : Int := 0

/-- The tokens of a request in a step. -/
def RoutedRequest.tokenCount (r : RoutedRequest) (phase : RoutingPhase) : Nat :=
  if 0 < r.scheduledTokens then r.scheduledTokens.toNat
  else if r.needsRecompute then r.recomputeTokens.toNat
  else if phase = .prefill then r.prefillComputeLen.toNat
  else 1

/-- The requests of a step, and the phase if the caller gives one. -/
structure RoutingStep where
  requests : List RoutedRequest
  phase : Option RoutingPhase := none

/-- The tokens of a step. -/
def RoutingStep.tokenCount (step : RoutingStep) : Nat :=
  (step.requests.map fun r =>
    r.tokenCount (step.phase.getD (if r.isPrefill then .prefill else .decode))).sum

namespace ExpertRouting

variable (x : ExpertRouting)

/-- The histogram of a number of tokens, from the memo if it is there. -/
def syntheticHistogram (s : RoutingState) (tokenCount : Int) (offset : Nat) :
    Histogram × RoutingState :=
  let routeCount := tokenCount.toNat * x.moeConfig.numExpertsPerTok
  if routeCount = 0 then (.empty, s)
  else
    let offset := if x.routingConfig.distribution = .uniform then offset % x.moeConfig.numExperts
      else 0
    match s.syntheticCache.get? (routeCount, offset) with
    | some cached => (cached, s)
    | none =>
      let histogram := x.freshHistogram routeCount offset
      let cache := boundedSet syntheticCacheLimit s.syntheticCache (routeCount, offset) histogram
      (histogram, { s with syntheticCache := cache })

/-- The routing statistics of a step. -/
def histogramForStep (s : RoutingState) (step : RoutingStep) : Histogram × RoutingState :=
  if x.moeConfig.enabled = false ∨ step.requests = [] then (.empty, s)
  else if step.tokenCount = 0 then (.empty, s)
  else
    let (histogram, s) := x.syntheticHistogram s step.tokenCount s.routeCursor
    let cursor := (s.routeCursor + step.tokenCount * x.moeConfig.numExpertsPerTok) %
      x.moeConfig.numExperts
    (Tally.addAll .empty histogram.entries, { s with routeCursor := cursor })

/-- The histograms of a sequence of steps, and the state after them. -/
def run : RoutingState → List RoutingStep → List Histogram × RoutingState
  | s, [] => ([], s)
  | s, step :: steps =>
    let (histogram, s) := x.histogramForStep s step
    let (histograms, s) := run s steps
    (histogram :: histograms, s)

/-- The tokens that a step routes. -/
def routedTokens (step : RoutingStep) : Nat := if x.moeConfig.enabled then step.tokenCount else 0

end ExpertRouting

end TokenSim
