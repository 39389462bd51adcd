import Mathlib.Data.Rat.Defs
import TokenSim.Block
import TokenSim.PrefixKeys

/-!
# Requests

The fields of a request that the caches and the paged scheduler read or write,
and the transitions of its token progress.  `numComputedTokens` is the number
of context tokens whose KV is present on the worker; `scheduledTokens` is what
the scheduler assigned to the current step.

Wall-clock timing, routing histograms and reporting counters are left out.
-/

namespace TokenSim

inductive RequestStatus where
  | waiting
  | running
  | waitingForKv
  | waitingForConnectorFree
  | finishedStopped
  | finishedLengthCapped
  | cancelPending
  | finishedCancelled
deriving DecidableEq, Repr

/-- A physical block as a request table names it. -/
structure BlockRef where
  device : Device
  number : Nat
deriving DecidableEq, Repr

/-- The sources of the prompt at the first admission. -/
structure PrefillSourceStats where
  inputTokens : Nat
  gpuHitTokens : Nat
  cpuHitTokens : Nat
deriving DecidableEq, Repr

structure Request where
  id : Nat
  prefillLen : Nat
  decodeLen : Nat
  blockSize : Nat
  /-- An opaque object that is unique to the request. -/
  cacheIdentity : Nat
  arrivalAt : Rat := 0
  hashIds : Option (List HashId) := none
  outputHashIds : Option (List HashId) := none
  cacheSalt : Option String := none
  reuseGroup : Option String := none
  traceHashIds : Option (List HashId) := none
  traceBlockSize : Nat := 0
  cachedPrefillBlocks : Nat := 0
  cachedPrefillTokens : Nat := 0
  gpuCachedPrefillTokens : Nat := 0
  externalCachedPrefillTokens : Nat := 0
  gpuCachedContextTokens : Nat := 0
  externalCachedContextTokens : Nat := 0
  firstPrefillSource : Option PrefillSourceStats := none
  sharedPrefixBoundaries : List Nat := []
  prefillAdmissionCount : Nat := 0
  reloadedGpuTokens : Nat := 0
  reloadedCpuTokens : Nat := 0
  reloadedGeneratedGpuTokens : Nat := 0
  reloadedGeneratedCpuTokens : Nat := 0
  effectivePrefillTokens : Nat := prefillLen
  reuseHitBlocks : Nat := 0
  reuseMissBlocks : Nat := 0
  inputCacheCommitted : Bool := false
  inputCacheKeys : List BlockKey := []
  generationIdx : Nat := 0
  needsRecompute : Bool := false
  recomputeTokens : Nat := 0
  status : RequestStatus := .waiting
  numComputedTokens : Nat := 0
  scheduledTokens : Nat := 0
  scheduledQueryTokens : Nat := 0
  scheduledAcceptedTokens : Nat := 0
  decodeRound : Nat := 0
  scheduledPlaceholderTokens : Nat := 0
  prefillChunkPending : Bool := false
  maxModelLen : Option Nat := none
  cancelRequested : Bool := false
  /-- Tokens in the logical blocks; blocks fill left to right. -/
  logicalTokens : Nat := prefillLen
  physicalTokenBlocks : List BlockRef := []
deriving DecidableEq, Repr

namespace Request

variable (r : Request)

def isPrefill : Bool := r.generationIdx = 0

def contextLen : Nat := r.prefillLen + r.generationIdx

/-- The context has reached the model's limit. -/
def lengthCapped : Bool :=
  match r.maxModelLen with
  | none => false
  | some limit => limit ≤ r.contextLen

def isDone : Bool :=
  !r.cancelRequested && (decide (r.decodeLen ≤ r.generationIdx) || r.lengthCapped)

/-- Context tokens still to compute before this request can sample a token. -/
def remainingContextTokens : Nat := r.contextLen - r.numComputedTokens

/-- The prompt, or a preempted context, is being computed. -/
def isContextBuild : Bool := r.isPrefill || r.needsRecompute

/-- Tokens this request computes in the current step. -/
def stepTokens : Nat :=
  if r.scheduledTokens = 0 then max 1 r.remainingContextTokens else r.scheduledTokens

/-- `ceil(tokens / block_size)`. -/
def numLogicalTokenBlocks : Nat := (r.logicalTokens + r.blockSize - 1) / r.blockSize

/-- Record the context already present in KV when the request is admitted.  At
least one token is always computed. -/
def startContextBuild (cachedTokens : Nat) : Request :=
  { r with
    numComputedTokens := min cachedTokens (r.contextLen - 1)
    scheduledTokens := 0
    scheduledQueryTokens := 0
    scheduledPlaceholderTokens := 0 }

/-- Preemption released the KV: the whole context must be rebuilt. -/
def prepareRecompute : Request :=
  { r with
    needsRecompute := true
    recomputeTokens := r.contextLen
    numComputedTokens := 0
    scheduledTokens := 0
    scheduledQueryTokens := 0
    scheduledPlaceholderTokens := 0 }

def finishRecompute : Request :=
  { r with needsRecompute := false, recomputeTokens := 0 }

/-- Sample tokens: clip the output to what is left and extend the context. -/
def step (outputTokens : Nat) : Request :=
  if r.cancelRequested then r
  else
    let output := max 1 (min outputTokens (r.decodeLen - r.generationIdx))
    let output := match r.maxModelLen with
      | none => output
      | some limit => min output (limit - r.contextLen)
    let r := { r with
      generationIdx := r.generationIdx + output
      logicalTokens := r.logicalTokens + output }
    if r.isDone && r.lengthCapped then { r with status := .finishedLengthCapped } else r

/-- Apply one scheduler step.  Only the step that completes the context samples
tokens. -/
def advance : Request :=
  if r.cancelRequested then r
  else
    let contextBuild := r.isContextBuild
    let tokens := r.stepTokens
    let r := { r with
      decodeRound := if contextBuild then r.decodeRound else r.decodeRound + 1
      scheduledTokens := 0
      scheduledQueryTokens := 0
      scheduledPlaceholderTokens := 0
      numComputedTokens := r.numComputedTokens + tokens }
    if r.numComputedTokens < r.contextLen then r
    else
      let r := if r.needsRecompute then r.finishRecompute else r
      r.step (if contextBuild then 1 else tokens)

end Request

end TokenSim
