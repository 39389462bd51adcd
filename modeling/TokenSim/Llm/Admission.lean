import TokenSim.Lib.Raising
import TokenSim.Request

/-!
# Admissions

How a scheduler takes in a request.  `admitRequest` allocates its blocks after a reuse
plan.  If the connector offloads asynchronously and holds further pages, they
start to load; otherwise the position where the computation starts is set,
behind the hits of the plan and those that the connector supplies at once.

An admission may raise, when the hits leave no token of the context to compute
(`LeavesNoQuery`).  What it writes is undone by `restoreAdmissionState`, so that
an admission that does not run leaves the request as it was (`Admitted`).
-/

namespace TokenSim

/-- What an admission reads of a reuse plan. -/
structure ReusePlan where
  hitTokens : Nat
  reuseMissBlocks : Nat
  inputKeys : List BlockKey

/-- What the scheduler asks of its block manager and its connector: the answers
and the updates of an arbitrary state. -/
structure Cache (β : Type) where
  asyncOffload : Bool
  watermarkBlocks : Nat
  getNumFreeBlocks : β → Nat
  /-- `used / total < max_occupy_ratio` -/
  isOccupyBelowUsage : β → Bool
  planReuse : β → Request → ReusePlan
  /-- The boundary of an external hit, and whether there are pages to load. -/
  probe : β → Request → Nat × Bool
  canAllocate : β → Request → Bool → Bool
  canAdmitExternal : β → Request → Bool → Bool
  allocate : β → Request → β
  /-- The connector starts to load the pages up to a boundary. -/
  beginLoad : β → Request → Nat → β
  /-- The tokens that the connector supplies at once, behind those that are
  computed. -/
  getNumNewMatchedTokens : β → Request → Nat → β × Nat
  updateStateAfterAlloc : β → Request → Nat → β
  canEnsureSlots : β → Request → Nat → Nat → Bool
  ensureSlots : β → Request → Nat → Nat → β
  canAppendSlot : β → Request → Bool
  appendSlot : β → Request → β
  remainingAdmissionSlots : β → Request → Nat
  releaseRequestBlocks : β → Request → β

/-- What `allocate` writes into the request.  The managers of uniform and grouped
caches differ in `gpu_cached_context_tokens` only, since the hits of a uniform
one are blocks of the prompt. -/
def ReusePlan.apply (plan : ReusePlan) (grouped : Bool) (r : Request) : Request :=
  let cached := min r.prefillLen plan.hitTokens
  { r with
    cachedPrefillTokens := cached
    cachedPrefillBlocks := cached / r.blockSize
    gpuCachedContextTokens := if grouped then plan.hitTokens else r.gpuCachedContextTokens
    effectivePrefillTokens := r.prefillLen - plan.hitTokens
    reuseHitBlocks := cached / r.blockSize
    reuseMissBlocks := plan.reuseMissBlocks
    inputCacheKeys := plan.inputKeys
    inputCacheCommitted := false }

namespace Request

/-- The tokens of the prompt that an admission found.  The first admission is
kept apart from those after a preemption. -/
def recordPrefillAdmission (r : Request) (gpuTokens cpuTokens : Nat) : Except Err Request :=
  if r.prefillLen < gpuTokens + cpuTokens then
    .error (.simulationState "prompt-source tokens exceed the original input")
  else
    let r := match r.firstPrefillSource with
      | none => { r with firstPrefillSource := some ⟨r.prefillLen, gpuTokens, cpuTokens⟩ }
      | some _ => { r with
          reloadedGpuTokens := r.reloadedGpuTokens + gpuTokens
          reloadedCpuTokens := r.reloadedCpuTokens + cpuTokens }
    .ok { r with prefillAdmissionCount := r.prefillAdmissionCount + 1 }

/-- The error of an admission whose hits cover the whole context. -/
def noQuery : Err := .simulationState "context-source tokens must leave a real query"

/-- Record the tokens of the context that an admission found. -/
def recordContextAdmission (r : Request) (gpuTokens cpuTokens : Int) : Except Err Request :=
  if min gpuTokens cpuTokens < 0 ∨ r.contextLen ≤ gpuTokens + cpuTokens then .error noQuery
  else
    let gpu := gpuTokens.toNat
    let cpu := cpuTokens.toNat
    let promptGpu := min gpu r.prefillLen
    let promptCpu := min cpu (r.prefillLen - promptGpu)
    recordPrefillAdmission { r with
      gpuCachedContextTokens := gpu
      externalCachedContextTokens := cpu
      gpuCachedPrefillTokens := promptGpu
      externalCachedPrefillTokens := promptCpu
      cachedPrefillTokens := promptGpu + promptCpu
      cachedPrefillBlocks := (promptGpu + promptCpu) / r.blockSize
      effectivePrefillTokens := r.prefillLen - (promptGpu + promptCpu)
      reloadedGeneratedGpuTokens := r.reloadedGeneratedGpuTokens + (gpu - promptGpu)
      reloadedGeneratedCpuTokens := r.reloadedGeneratedCpuTokens + (cpu - promptCpu) }
      promptGpu promptCpu

/-- What the connector writes into a request whose pages it loads.  A boundary
before the local hit is refused by `recordContextAdmission`. -/
def beginLoad (r : Request) (boundary : Nat) : Request :=
  let external := boundary - r.gpuCachedContextTokens
  let gpu := min r.prefillLen r.gpuCachedContextTokens
  let cached := min r.prefillLen boundary
  { r with
    externalCachedContextTokens := external
    gpuCachedPrefillTokens := gpu
    externalCachedPrefillTokens := min external (r.prefillLen - gpu)
    cachedPrefillTokens := cached
    cachedPrefillBlocks := cached / r.blockSize
    effectivePrefillTokens := r.prefillLen - boundary
    status := .waitingForKv }

/-- What a block store writes into a request whose tokens it supplies at once. -/
def updateStateAfterAlloc (r : Request) (numExternalTokens : Nat) : Request :=
  if numExternalTokens = 0 then r
  else
    let cached := min r.prefillLen (r.cachedPrefillTokens + numExternalTokens)
    let blocks := min (r.prefillLen / r.blockSize)
      (r.cachedPrefillBlocks + numExternalTokens / r.blockSize)
    { r with
      cachedPrefillTokens := cached
      cachedPrefillBlocks := blocks
      effectivePrefillTokens := r.prefillLen - cached
      reuseHitBlocks := blocks
      reuseMissBlocks := r.prefillLen / r.blockSize - blocks }

/-- The tokens to compute again, for a request that was preempted. -/
def planRecompute (r : Request) (tokens : Nat) : Request :=
  { r with recomputeTokens := if r.needsRecompute then tokens else r.recomputeTokens }

/-- Undo an admission that never ran: the fields that it writes are those of
`state` again. -/
def restoreAdmissionState (r state : Request) : Request :=
  { r with
    status := state.status
    numComputedTokens := state.numComputedTokens
    scheduledTokens := state.scheduledTokens
    scheduledQueryTokens := state.scheduledQueryTokens
    scheduledPlaceholderTokens := state.scheduledPlaceholderTokens
    recomputeTokens := state.recomputeTokens
    cachedPrefillBlocks := state.cachedPrefillBlocks
    cachedPrefillTokens := state.cachedPrefillTokens
    gpuCachedPrefillTokens := state.gpuCachedPrefillTokens
    externalCachedPrefillTokens := state.externalCachedPrefillTokens
    gpuCachedContextTokens := state.gpuCachedContextTokens
    externalCachedContextTokens := state.externalCachedContextTokens
    effectivePrefillTokens := state.effectivePrefillTokens
    reuseHitBlocks := state.reuseHitBlocks
    reuseMissBlocks := state.reuseMissBlocks
    inputCacheKeys := state.inputCacheKeys
    inputCacheCommitted := state.inputCacheCommitted
    firstPrefillSource := state.firstPrefillSource
    prefillAdmissionCount := state.prefillAdmissionCount
    reloadedGpuTokens := state.reloadedGpuTokens
    reloadedCpuTokens := state.reloadedCpuTokens
    reloadedGeneratedGpuTokens := state.reloadedGeneratedGpuTokens
    reloadedGeneratedCpuTokens := state.reloadedGeneratedCpuTokens }

end Request

namespace ReusePlan

variable (plan : ReusePlan) (grouped : Bool) (r : Request)

/-- The admission of a request with a connector that offloads asynchronously. -/
def admitAsync (external : Nat × Bool) : Except Err Request :=
  let hit := plan.hitTokens
  let r := { plan.apply grouped r with
    gpuCachedContextTokens := hit
    gpuCachedPrefillTokens := min r.prefillLen hit
    externalCachedPrefillTokens := 0
    externalCachedContextTokens := 0 }
  if external.2 then (r.beginLoad external.1).recordContextAdmission hit (external.1 - hit)
  else do
    let r := (r.planRecompute (r.contextLen - hit)).startContextBuild hit
    let r ← r.recordContextAdmission hit 0
    return { r with status := .running }

/-- The tokens of its context that an admitted request computes.  When the KV
arrived through a connector only the newest token is computed. -/
def toCompute : Nat :=
  if r.needsRecompute then r.recomputeTokens
  else if r.isPrefill then r.effectivePrefillTokens
  else 1

/-- The admission of a request with the other connectors, which supply tokens at
once. -/
def admitSync (numExternalTokens : Nat) : Except Err Request :=
  let hit := plan.hitTokens
  let r := { r with inputCacheKeys := plan.inputKeys }
  let r := r.planRecompute (r.contextLen - hit - numExternalTokens)
  let r := (plan.apply grouped r).updateStateAfterAlloc numExternalTokens
  let r := { r.startContextBuild (r.contextLen - toCompute r) with status := .running }
  if grouped then r.recordContextAdmission hit numExternalTokens else .ok r

/-- The tokens that an asynchronous connector loads. -/
def loadTokens (external : Nat × Bool) : Int :=
  if external.2 then external.1 - plan.hitTokens else 0

/-- The hits of a request are out of order or cover its context. -/
def LeavesNoQuery (externalTokens : Int) : Prop :=
  externalTokens < 0 ∨ r.contextLen ≤ plan.hitTokens + externalTokens

/-- The admission of a request, which waits for its pages or runs.  Without
tokens from the connector its context is built from the local hit. -/
structure Admitted (loads : Bool) (externalTokens : Int) (r' : Request) : Prop where
  restores : r'.restoreAdmissionState r = r
  computed : r.numComputedTokens < r.contextLen → r'.numComputedTokens < r.contextLen
  status : r'.status = if loads then .waitingForKv else .running
  position : grouped = true → loads = false → externalTokens = 0 → r.isContextBuild = true →
    r'.numComputedTokens = plan.hitTokens

end ReusePlan

open Request

theorem Request.id_of_restores {r r' : Request} (h : r'.restoreAdmissionState r = r) :
    r'.id = r.id := by
  rw [← h]
  rfl

theorem Request.contextLen_of_restores {r r' : Request} (h : r'.restoreAdmissionState r = r) :
    r'.contextLen = r.contextLen := by
  rw [← h]
  rfl

/-- A record of the hits of a request that is being admitted leaves its position
and its status. -/
theorem Request.recordContextAdmission_post {r q : Request} (hq : q.restoreAdmissionState r = r)
    (gpuTokens cpuTokens : Int) : (q.recordContextAdmission gpuTokens cpuTokens).Post
      (fun r' => r'.restoreAdmissionState r = r ∧ r'.numComputedTokens = q.numComputedTokens ∧
        r'.status = q.status ∧ gpuTokens + cpuTokens < r.contextLen)
      (fun e => e = noQuery ∧
        (min gpuTokens cpuTokens < 0 ∨ r.contextLen ≤ gpuTokens + cpuTokens)) := by
  have hlen := contextLen_of_restores hq
  unfold recordContextAdmission
  split
  · rename_i hraise
    exact ⟨rfl, by omega⟩
  · rename_i hok
    dsimp only
    unfold recordPrefillAdmission
    -- the tokens of the prompt are cut to the prompt
    rw [if_neg (by dsimp only; omega)]
    dsimp only
    split <;> exact ⟨hq, rfl, rfl, by omega⟩

theorem Request.restore_updateStateAfterAlloc (q state : Request) (n : Nat) :
    (q.updateStateAfterAlloc n).restoreAdmissionState state = q.restoreAdmissionState state := by
  unfold updateStateAfterAlloc
  split <;> rfl

namespace ReusePlan

theorem admitAsync_post (plan : ReusePlan) (grouped : Bool) (r : Request) (external : Nat × Bool) :
    (plan.admitAsync grouped r external).Post
      (plan.Admitted grouped r external.2 (plan.loadTokens external))
      (fun e => e = noQuery ∧ plan.LeavesNoQuery r (plan.loadTokens external)) := by
  unfold admitAsync LeavesNoQuery loadTokens
  dsimp only
  split
  · rename_i hloads
    rw [hloads]
    refine Except.Post.mono (recordContextAdmission_post (r := r) ?_ _ _) ?_ ?_
    · rfl
    · rintro r' ⟨hrestores, hcomputed, hstatus, -⟩
      exact ⟨hrestores, fun h => hcomputed ▸ h, hstatus, nofun⟩
    · rintro e ⟨he, hraise⟩
      exact ⟨he, by omega⟩
  · rename_i hloads
    rw [Bool.eq_false_iff.mpr hloads]
    refine Except.Post.bind (recordContextAdmission_post (r := r) ?_ _ _) ?_ ?_
    · rfl
    · rintro r' ⟨hrestores, hcomputed, -, hleft⟩
      have hposition : r'.numComputedTokens = min plan.hitTokens (r.contextLen - 1) := hcomputed
      refine ⟨hrestores, fun h => ?_, rfl, fun _ _ _ _ => ?_⟩
      · show r'.numComputedTokens < _
        omega
      · show r'.numComputedTokens = _
        omega
    · rintro e ⟨he, hraise⟩
      exact ⟨he, by omega⟩

/-- An admission to a uniform cache does not record its hits. -/
theorem admitSync_post (plan : ReusePlan) (grouped : Bool) (r : Request) (externalTokens : Nat) :
    (plan.admitSync grouped r externalTokens).Post (plan.Admitted grouped r false externalTokens)
      (fun e => e = noQuery ∧ grouped = true ∧ plan.LeavesNoQuery r externalTokens) := by
  unfold admitSync LeavesNoQuery
  dsimp only
  generalize hq : (plan.apply grouped _).updateStateAfterAlloc externalTokens = q
  have hrestores : q.restoreAdmissionState r = r := by
    rw [← hq, restore_updateStateAfterAlloc]
    rfl
  have hlen := contextLen_of_restores hrestores
  -- without external tokens the plan says what is left to compute
  have hcompute : (externalTokens : Int) = 0 → r.isContextBuild = true →
      toCompute q = r.contextLen - plan.hitTokens := by
    intro hzero hbuild
    obtain rfl := Int.natCast_eq_zero.mp hzero
    subst hq
    simp only [updateStateAfterAlloc, if_true, toCompute, apply, planRecompute]
    cases hneeds : r.needsRecompute with
    | true => rfl
    | false =>
      have hprefill : r.isPrefill = true := by simpa [isContextBuild, hneeds] using hbuild
      have hgen : r.generationIdx = 0 := of_decide_eq_true hprefill
      simp [isPrefill, contextLen, hgen]
  split
  · rename_i hgrouped
    refine Except.Post.mono (recordContextAdmission_post (r := r) ?_ _ _) ?_ ?_
    · exact hrestores
    · rintro r' ⟨hrestores', hcomputed, hstatus, hleft⟩
      have hposition : r'.numComputedTokens =
        min (q.contextLen - toCompute q) (q.contextLen - 1) := hcomputed
      refine ⟨hrestores', fun h => by omega, hstatus, fun _ _ hzero hbuild => ?_⟩
      have := hcompute hzero hbuild
      omega
    · rintro e ⟨he, hraise⟩
      exact ⟨he, hgrouped, by omega⟩
  · rename_i hgrouped
    refine ⟨hrestores, fun h => ?_, rfl, fun hg => absurd hg hgrouped⟩
    show min (q.contextLen - toCompute q) (q.contextLen - 1) < _
    omega

end ReusePlan

namespace Cache

variable {β : Type} (cache : Cache β) (grouped : Bool)

/-- Allocate blocks for the whole context and record what is already cached. -/
def admitRequest (m : β) (r : Request) (external : Nat × Bool) : Except Err (β × Request) :=
  -- `allocate` plans again, from the same cache
  let plan := cache.planReuse m r
  if cache.asyncOffload then do
    let r' ← plan.admitAsync grouped r external
    let m := cache.allocate m r
    return (if external.2 then cache.beginLoad m r' external.1 else m, r')
  else do
    let (m, numExternalTokens) := cache.getNumNewMatchedTokens m
      { r with inputCacheKeys := plan.inputKeys } plan.hitTokens
    let r' ← plan.admitSync grouped r numExternalTokens
    return (cache.updateStateAfterAlloc (cache.allocate m r) r' numExternalTokens, r')

/-- The tokens of a request that the connector supplies. -/
def externalTokens (m : β) (r : Request) : Int :=
  let plan := cache.planReuse m r
  if cache.asyncOffload then plan.loadTokens (cache.probe m r)
  else
    (cache.getNumNewMatchedTokens m { r with inputCacheKeys := plan.inputKeys } plan.hitTokens).2

/-- The cache records its hits, and those of some request leave it no token to
compute. -/
def LeavesNoQuery : Prop :=
  (cache.asyncOffload || grouped) = true ∧ ∃ m r, r.numComputedTokens < r.contextLen ∧
    (cache.planReuse m r).LeavesNoQuery r (cache.externalTokens m r)

theorem admit_post (m : β) (r : Request) :
    (cache.admitRequest grouped m r (cache.probe m r)).Post
      (fun x => (cache.planReuse m r).Admitted grouped r
        (cache.asyncOffload && (cache.probe m r).2) (cache.externalTokens m r) x.2)
      (fun e => e = noQuery ∧
        (r.numComputedTokens < r.contextLen → cache.LeavesNoQuery grouped)) := by
  unfold admitRequest
  dsimp only
  cases hasync : cache.asyncOffload with
  | true =>
    have hexternal : cache.externalTokens m r =
        (cache.planReuse m r).loadTokens (cache.probe m r) := if_pos hasync
    rw [hexternal]
    refine Except.Post.bind (ReusePlan.admitAsync_post ..) (fun _ h => h) ?_
    rintro e ⟨he, hleaves⟩
    exact ⟨he, fun hr => ⟨by rw [hasync]; rfl, m, r, hr, hexternal ▸ hleaves⟩⟩
  | false =>
    have hexternal : cache.externalTokens m r = (cache.getNumNewMatchedTokens m
        { r with inputCacheKeys := (cache.planReuse m r).inputKeys }
        (cache.planReuse m r).hitTokens).2 :=
      if_neg (Bool.eq_false_iff.mp hasync)
    rw [hexternal]
    refine Except.Post.bind (ReusePlan.admitSync_post ..) (fun _ h => h) ?_
    rintro e ⟨he, hgrouped, hleaves⟩
    exact ⟨he, fun hr => ⟨by rw [hgrouped, Bool.or_true], m, r, hr, hexternal ▸ hleaves⟩⟩

end Cache

end TokenSim
