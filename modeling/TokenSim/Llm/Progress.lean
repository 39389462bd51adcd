import TokenSim.Lib.Runs
import TokenSim.Llm.PagedTokens

/-!
# Progress of one request under the paged scheduler

The run of a request through one scheduler: admission with whatever context the
caches supply, context chunks, decode steps with any accepted lengths,
preemption and recompute.  The other requests, the budget that is left, the
reuse plan and the free blocks are the environment, and every choice of them is
an event.

`Sound` says where the counters of a request stand between steps, `Placed` what
its place in the scheduler adds.
-/

namespace TokenSim

open Option

/-! ## One advance -/

namespace Request

variable {r : Request}

theorem isDone_eq_false (hlive : r.cancelRequested = false) : r.isDone = false ↔
    r.generationIdx < r.decodeLen ∧ ∀ limit, r.maxModelLen = some limit → r.contextLen < limit := by
  cases hmax : r.maxModelLen <;> simp [isDone, lengthCapped, hlive, hmax]

/-- The output tokens of a step that samples `tokens`. -/
def sampled (r : Request) (tokens : Nat) : Nat :=
  match r.maxModelLen with
  | none => max 1 (min tokens (r.decodeLen - r.generationIdx))
  | some limit => min (max 1 (min tokens (r.decodeLen - r.generationIdx))) (limit - r.contextLen)

theorem sampled_eq {tokens : Nat} (hpos : 1 ≤ tokens) (hout : tokens ≤ r.decodeLen - r.generationIdx)
    (hroom : ∀ limit, r.maxModelLen = some limit → tokens ≤ limit - r.contextLen) :
    r.sampled tokens = tokens := by
  unfold sampled
  split
  · omega
  · rename_i limit hmax
    have := hroom limit hmax
    omega

/-- The fields an advance leaves alone. -/
structure SameShape (r r' : Request) : Prop where
  prefillLen : r'.prefillLen = r.prefillLen
  decodeLen : r'.decodeLen = r.decodeLen
  blockSize : r'.blockSize = r.blockSize
  maxModelLen : r'.maxModelLen = r.maxModelLen
  cancelRequested : r'.cancelRequested = r.cancelRequested
  physicalTokenBlocks : r'.physicalTokenBlocks = r.physicalTokenBlocks

theorem step_eq (hlive : r.cancelRequested = false) (tokens : Nat) : ∃ status, r.step tokens =
    { r with
      generationIdx := r.generationIdx + r.sampled tokens
      logicalTokens := r.logicalTokens + r.sampled tokens
      status := status } := by
  have hstep : r.step tokens = if r.cancelRequested then r else
      let q : Request := { r with
        generationIdx := r.generationIdx + r.sampled tokens
        logicalTokens := r.logicalTokens + r.sampled tokens }
      if q.isDone && q.lengthCapped then { q with status := .finishedLengthCapped } else q := rfl
  rw [hstep, if_neg (hlive ▸ Bool.false_ne_true)]
  dsimp only
  split
  · exact ⟨_, rfl⟩
  · exact ⟨_, rfl⟩

/-- The request after its tokens of this step are computed. -/
def moved (r : Request) : Request :=
  { r with
    decodeRound := if r.isContextBuild then r.decodeRound else r.decodeRound + 1
    scheduledTokens := 0
    scheduledQueryTokens := 0
    scheduledPlaceholderTokens := 0
    numComputedTokens := r.numComputedTokens + r.stepTokens }

/-- A chunk that does not complete the context only moves the position. -/
theorem advance_chunk (hlive : r.cancelRequested = false)
    (hlt : r.numComputedTokens + r.stepTokens < r.contextLen) : r.advance = r.moved := by
  unfold advance
  rw [if_neg (hlive ▸ Bool.false_ne_true)]
  exact if_pos hlt

/-- The step that completes the context ends a recompute and samples. -/
theorem advance_complete (hlive : r.cancelRequested = false)
    (hle : r.contextLen ≤ r.numComputedTokens + r.stepTokens) :
    ∃ status recomputeTokens, r.advance = { r.moved with
      needsRecompute := false
      recomputeTokens := recomputeTokens
      generationIdx := r.generationIdx + r.sampled (if r.isContextBuild then 1 else r.stepTokens)
      logicalTokens := r.logicalTokens + r.sampled (if r.isContextBuild then 1 else r.stepTokens)
      status := status } := by
  obtain ⟨n, hn⟩ : ∃ n, (if r.needsRecompute then r.moved.finishRecompute else r.moved) =
      { r.moved with needsRecompute := false, recomputeTokens := n } := by
    cases hrec : r.needsRecompute with
    | true => exact ⟨0, rfl⟩
    | false => exact ⟨r.recomputeTokens, by rw [if_neg Bool.false_ne_true, ← hrec]; rfl⟩
  have hadvance : r.advance = (if r.needsRecompute then r.moved.finishRecompute else r.moved).step
      (if r.isContextBuild then 1 else r.stepTokens) := by
    unfold advance
    rw [if_neg (hlive ▸ Bool.false_ne_true)]
    exact if_neg (Nat.not_lt.mpr hle)
  rw [hn] at hadvance
  obtain ⟨status, hstep⟩ := step_eq (r := { r.moved with
    needsRecompute := false
    recomputeTokens := n }) hlive (if r.isContextBuild then 1 else r.stepTokens)
  exact ⟨status, n, hadvance.trans hstep⟩

/-- No advance takes output back or changes what the request asks for. -/
theorem advance_frame (r : Request) :
    SameShape r r.advance ∧ r.generationIdx ≤ r.advance.generationIdx := by
  cases hlive : r.cancelRequested with
  | true =>
    have hsame : r.advance = r := if_pos hlive
    rw [hsame]
    exact ⟨⟨rfl, rfl, rfl, rfl, rfl, rfl⟩, le_rfl⟩
  | false =>
    rcases Nat.lt_or_ge (r.numComputedTokens + r.stepTokens) r.contextLen with hlt | hge
    · rw [advance_chunk hlive hlt]
      exact ⟨⟨rfl, rfl, rfl, rfl, rfl, rfl⟩, le_rfl⟩
    · obtain ⟨status, n, hadvance⟩ := advance_complete hlive hge
      rw [hadvance]
      exact ⟨⟨rfl, rfl, rfl, rfl, rfl, rfl⟩, Nat.le_add_right _ _⟩

theorem advance_isDone (hdone : r.isDone = true) : r.advance.isDone = true := by
  obtain ⟨hsame, hgen⟩ := r.advance_frame
  unfold isDone lengthCapped contextLen at hdone ⊢
  rw [hsame.prefillLen, hsame.decodeLen, hsame.maxModelLen, hsame.cancelRequested]
  cases hlimit : r.maxModelLen with
  | none =>
    simp only [hlimit, Bool.and_eq_true, Bool.or_false, decide_eq_true_eq] at hdone ⊢
    exact ⟨hdone.1, by omega⟩
  | some limit =>
    simp only [hlimit, Bool.and_eq_true, Bool.or_eq_true, decide_eq_true_eq] at hdone ⊢
    exact ⟨hdone.1, by omega⟩

theorem stepTokens_of_scheduled (hpos : 1 ≤ r.scheduledTokens) :
    r.stepTokens = r.scheduledTokens := by
  simp [stepTokens, Nat.ne_of_gt hpos]

end Request

/-! ## The run -/

inductive Place where
  | waiting
  /-- KV blocks are allocated and the position is set; the fields of the request
  before the admission are kept for a withdrawal. -/
  | admitted (state : Request)
  | running
  /-- The request is part of the step that runs. -/
  | batch
  | finished
deriving DecidableEq, Repr

structure PagedRun where
  req : Request
  place : Place
deriving DecidableEq, Repr

inductive PagedRunEvent where
  /-- Admission, or the end of an external load, with `cached` context tokens in
  the KV and, under the uniform cache, the blocks of the reuse plan. -/
  | admission (cached : Nat) (hitBlocks fresh : List BlockRef)
  /-- The slots of an admitted request are not available. -/
  | withdraw
  /-- A waiting request gets its first tokens. -/
  | assign (threshold : Nat) (budget : Option Nat) (scheduled prefillScheduled : Bool)
  /-- A running request gets tokens and, under the uniform cache, perhaps the
  free block `block`. -/
  | schedule (threshold accepted : Nat) (budget : Option Nat) (block : BlockRef)
  | preempt
  | advance

namespace PagedRun

variable (cfg : PagedConfig) (r : Request)

/-- The table of a newly admitted request: its hits, then new blocks for the
rest of its logical blocks.  A reuse plan covers full input blocks only. -/
def allocate (hitBlocks fresh : List BlockRef) : Option Request :=
  if r.physicalTokenBlocks = [] ∧ hitBlocks.length ≤ r.prefillLen / r.blockSize ∧
      fresh.length = r.numLogicalTokenBlocks - hitBlocks.length then
    some { r with physicalTokenBlocks := hitBlocks ++ fresh }
  else none

/-- Allocate a physical slot for a new token. -/
def appendSlot (block : BlockRef) : Request :=
  if r.physicalTokenBlocks.length < r.numLogicalTokenBlocks then
    { r with physicalTokenBlocks := r.physicalTokenBlocks ++ [block] }
  else r

def releaseRequestBlocks : Request := { r with physicalTokenBlocks := [] }

/-- Allocate KV blocks for the whole context and record what is already cached.
The tables of a grouped cache are not the request's block list. -/
def admission (cached : Nat) (hitBlocks fresh : List BlockRef) : Option Request :=
  let r := if r.needsRecompute then { r with recomputeTokens := r.contextLen - cached } else r
  (if cfg.groupedCache then some r else allocate r hitBlocks fresh).map
    fun r => { r.startContextBuild cached with status := .running }

def assignWaiting (tokens queryTokens : Nat) : Request :=
  { r with
    scheduledTokens := tokens
    scheduledQueryTokens := queryTokens
    scheduledPlaceholderTokens := if r.isContextBuild then queryTokens - tokens else 0
    prefillChunkPending := decide (r.numComputedTokens + queryTokens < r.contextLen) }

def assignRunning (tokens queryTokens : Nat) : Request :=
  { r with
    scheduledTokens := tokens
    scheduledQueryTokens := queryTokens
    prefillChunkPending := decide (r.numComputedTokens + queryTokens < r.contextLen) }

def step (s : PagedRun) : PagedRunEvent → Option PagedRun
  | .admission cached hitBlocks fresh =>
    if s.place = .waiting then
      (admission cfg s.req cached hitBlocks fresh).map fun r => ⟨r, .admitted s.req⟩
    else none
  | .withdraw =>
    match s.place with
    | .admitted state => some ⟨releaseRequestBlocks state, .waiting⟩
    | _ => none
  | .assign threshold budget scheduled prefillScheduled =>
    match s.place with
    | .admitted _ =>
      let tokens := cfg.stepTokens threshold 1 s.req budget
      let queries := cfg.waitingQueryTokens s.req tokens (cfg.queryTokens s.req tokens) budget
        scheduled prefillScheduled
      if queries = 0 then none else some ⟨assignWaiting s.req tokens queries, .batch⟩
    | _ => none
  | .schedule threshold accepted budget block =>
    if s.place = .running then
      let tokens := cfg.stepTokens threshold accepted s.req budget
      if tokens = 0 then some s
      else
        let queries := cfg.queryTokens s.req tokens
        let r := if s.req.isContextBuild || cfg.groupedCache then s.req
          else appendSlot s.req block
        some ⟨assignRunning r tokens queries, .batch⟩
    else none
  | .preempt =>
    if s.place = .running then
      some ⟨{ (releaseRequestBlocks s.req).prepareRecompute with status := .waiting }, .waiting⟩
    else none
  | .advance =>
    if s.place = .batch then
      some ⟨s.req.advance, if s.req.advance.isDone then .finished else .running⟩
    else none

/-- A request as the scheduler takes it in: `add_requests` refuses a prompt that
does not fit and copies the limit; an arriving request has a prompt and asks
for at least one token. -/
def Fresh : Prop :=
  1 ≤ r.prefillLen ∧ 1 ≤ r.decodeLen ∧ (∀ limit ∈ cfg.maxModelLen, r.prefillLen < limit) ∧
  r.maxModelLen = cfg.maxModelLen ∧ r.generationIdx = 0 ∧ r.numComputedTokens = 0 ∧
  r.cancelRequested = false ∧ r.logicalTokens = r.prefillLen

instance (r : Request) : Decidable (Fresh cfg r) := by unfold Fresh; infer_instance

/-! ## Where the counters stand -/

/-- The counters between steps. -/
structure Sound (r : Request) : Prop where
  prompt : 1 ≤ r.prefillLen
  live : r.cancelRequested = false
  limit : r.maxModelLen = cfg.maxModelLen
  logical : r.logicalTokens = r.contextLen
  computed : r.numComputedTokens ≤ r.contextLen
  output : r.generationIdx ≤ r.decodeLen
  context : ∀ limit, cfg.maxModelLen = some limit → r.contextLen ≤ limit
  decoding : r.isContextBuild = false → r.numComputedTokens = r.contextLen - 1

/-- There are tokens left to emit. -/
def Open : Prop :=
  r.generationIdx < r.decodeLen ∧ ∀ limit, cfg.maxModelLen = some limit → r.contextLen < limit

/-- Blocks for `tokens` tokens. -/
def blocksFor (tokens : Nat) : Nat := (tokens + r.blockSize - 1) / r.blockSize

/-- Under the uniform cache the table of the request covers `tokens` tokens. -/
def Covers (tokens : Nat) : Prop :=
  cfg.groupedCache = false → r.physicalTokenBlocks.length = blocksFor r tokens

/-- What the place of a request in the scheduler says about it.  A running
request that decodes has yet to be given the slot of its newest token. -/
def Placed : Place → Prop
  | .waiting => Open cfg r ∧ r.isContextBuild = true
  | .admitted state =>
    (Open cfg r ∧ r.isContextBuild = true ∧ r.numComputedTokens < r.contextLen ∧
      Covers cfg r r.contextLen) ∧
    Sound cfg state ∧ Open cfg state ∧ state.isContextBuild = true
  | .running =>
    Open cfg r ∧ (r.isContextBuild = true → r.numComputedTokens < r.contextLen) ∧
    Covers cfg r (if r.isContextBuild then r.contextLen else r.contextLen - 1)
  | .batch =>
    Open cfg r ∧ 1 ≤ r.scheduledTokens ∧
    (r.isContextBuild = true → r.numComputedTokens + r.scheduledTokens ≤ r.contextLen) ∧
    (r.isContextBuild = false → r.scheduledTokens ≤ cfg.remainingOutput r) ∧
    (cfg.groupedCache = false → r.isContextBuild = false → r.scheduledTokens = 1) ∧
    Covers cfg r r.contextLen
  | .finished => True

structure Inv (s : PagedRun) : Prop where
  sound : Sound cfg s.req
  placed : Placed cfg s.req s.place

variable {cfg r} {r' : Request} {s t : PagedRun}

theorem remainingOutput_le (hopen : Open cfg r) :
    cfg.remainingOutput r ≤ r.decodeLen - r.generationIdx ∧
    ∀ limit, cfg.maxModelLen = some limit → cfg.remainingOutput r ≤ limit - r.contextLen := by
  have hpos := hopen.1
  constructor
  · refine (clip_le _ _).trans ?_
    omega
  · intro limit hlimit
    simp only [PagedConfig.remainingOutput, hlimit, map_some]
    exact clip_le_some _ _

theorem blocksFor_succ (r : Request) (n : Nat) :
    blocksFor r n ≤ blocksFor r (n + 1) ∧ blocksFor r (n + 1) ≤ blocksFor r n + 1 := by
  unfold blocksFor
  cases hsize : r.blockSize with
  | zero => simp
  | succ size =>
    have hle : (n + (size + 1) - 1) ≤ (n + 1 + (size + 1) - 1) := by omega
    have hsucc : n + 1 + (size + 1) - 1 ≤ n + (size + 1) - 1 + (size + 1) := by omega
    refine ⟨Nat.div_le_div_right hle, (Nat.div_le_div_right hsucc).trans ?_⟩
    rw [Nat.add_div_right _ (Nat.succ_pos size)]

variable {fresh hits : List BlockRef} {budget : Option Nat}

theorem allocate_spec (hlogical : r.logicalTokens = r.contextLen)
    (h : allocate r hits fresh = some r') :
    r' = { r with physicalTokenBlocks := hits ++ fresh } ∧
    r'.physicalTokenBlocks.length = blocksFor r r.contextLen := by
  unfold allocate at h
  split at h
  · rename_i hok
    cases h
    obtain ⟨-, hhits, hfresh⟩ := hok
    have htotal : r.numLogicalTokenBlocks = blocksFor r r.contextLen := by
      rw [Request.numLogicalTokenBlocks, hlogical, blocksFor]
    -- a full input block is a logical block
    have hfull : r.prefillLen / r.blockSize ≤ blocksFor r r.contextLen := by
      unfold blocksFor Request.contextLen
      cases hsize : r.blockSize with
      | zero => simp
      | succ size => exact Nat.div_le_div_right (by omega)
    refine ⟨rfl, ?_⟩
    simp only [List.length_append]
    omega
  · cases h

/-! ## The steps keep the invariant -/

/-- The context of a request and what it asks for are unchanged. -/
structure SameContext (r r' : Request) : Prop where
  prefillLen : r'.prefillLen = r.prefillLen
  decodeLen : r'.decodeLen = r.decodeLen
  maxModelLen : r'.maxModelLen = r.maxModelLen
  cancelRequested : r'.cancelRequested = r.cancelRequested
  generationIdx : r'.generationIdx = r.generationIdx
  needsRecompute : r'.needsRecompute = r.needsRecompute
  logicalTokens : r'.logicalTokens = r.logicalTokens

theorem SameContext.contextLen (h : SameContext r r') : r'.contextLen = r.contextLen := by
  simp [Request.contextLen, h.prefillLen, h.generationIdx]

theorem SameContext.isContextBuild (h : SameContext r r') :
    r'.isContextBuild = r.isContextBuild := by
  simp [Request.isContextBuild, Request.isPrefill, h.generationIdx, h.needsRecompute]

theorem SameContext.remainingOutput (h : SameContext r r') :
    cfg.remainingOutput r' = cfg.remainingOutput r := by
  simp [PagedConfig.remainingOutput, h.contextLen, h.decodeLen, h.generationIdx]

theorem SameContext.isOpen (h : SameContext r r') (hopen : Open cfg r) : Open cfg r' := by
  constructor
  · rw [h.generationIdx, h.decodeLen]
    exact hopen.1
  · rw [h.contextLen]
    exact hopen.2

theorem Sound.move (h : Sound cfg r) (hsame : SameContext r r')
    (hcomputed : r'.numComputedTokens ≤ r.contextLen)
    (hdecoding : r.isContextBuild = false → r'.numComputedTokens = r.numComputedTokens) :
    Sound cfg r' where
  prompt := hsame.prefillLen ▸ h.prompt
  live := hsame.cancelRequested.trans h.live
  limit := hsame.maxModelLen.trans h.limit
  logical := (hsame.logicalTokens.trans h.logical).trans hsame.contextLen.symm
  computed := hsame.contextLen.symm ▸ hcomputed
  output := by
    rw [hsame.generationIdx, hsame.decodeLen]
    exact h.output
  context := hsame.contextLen.symm ▸ h.context
  decoding := by
    intro hdec
    rw [hsame.isContextBuild] at hdec
    rw [hdecoding hdec, hsame.contextLen]
    exact h.decoding hdec

theorem inv_fresh (h : Fresh cfg r) : Inv cfg ⟨r, .waiting⟩ := by
  obtain ⟨hprompt, hdecode, hfits, hmax, hgen, hcomp, hlive, hlogical⟩ := h
  have hctx : r.contextLen = r.prefillLen := by simp [Request.contextLen, hgen]
  have hbuild : r.isContextBuild = true := by
    simp [Request.isContextBuild, Request.isPrefill, hgen]
  have hopen : Open cfg r := by
    refine ⟨by omega, fun limit hlimit => ?_⟩
    rw [hctx]
    exact hfits limit hlimit
  refine ⟨⟨hprompt, hlive, hmax, hlogical.trans hctx.symm, hcomp.trans_le (Nat.zero_le _),
    hgen.trans_le (Nat.zero_le _), ?_, ?_⟩, hopen, hbuild⟩
  · exact fun limit hlimit => le_of_lt (hopen.2 limit hlimit)
  · intro hdec
    rw [hbuild] at hdec
    cases hdec

/-- An admission keeps the context and leaves at least one token of it to
compute. -/
theorem admission_spec {cached : Nat} (h : Sound cfg r)
    (ha : admission cfg r cached hits fresh = some r') :
    SameContext r r' ∧ r'.numComputedTokens < r.contextLen ∧ Covers cfg r' r.contextLen := by
  have hpos : 1 ≤ r.contextLen := le_trans h.prompt (Nat.le_add_right _ _)
  have hlt : min cached (r.contextLen - 1) < r.contextLen := by omega
  obtain ⟨q, hq, rfl⟩ := map_eq_some_iff.mp ha
  -- only `recomputeTokens` changes before the allocation
  obtain ⟨n, hn⟩ : ∃ n, (if r.needsRecompute then
      { r with recomputeTokens := r.contextLen - cached } else r) = { r with recomputeTokens := n } := by
    split
    · exact ⟨_, rfl⟩
    · exact ⟨r.recomputeTokens, rfl⟩
  rw [hn] at hq
  split at hq
  · rename_i hgrouped
    cases hq
    refine ⟨⟨rfl, rfl, rfl, rfl, rfl, rfl, rfl⟩, hlt, fun huniform => ?_⟩
    rw [hgrouped] at huniform
    cases huniform
  · obtain ⟨rfl, hblocks⟩ := allocate_spec (r := { r with recomputeTokens := n }) h.logical hq
    exact ⟨⟨rfl, rfl, rfl, rfl, rfl, rfl, rfl⟩, hlt, fun _ => hblocks⟩

/-- A decode query of a waiting request is a decode query; a context chunk that
has a query has tokens. -/
theorem tokens_pos_of_waitingQueryTokens {tokens : Nat} {a b : Bool}
    (hbuild : r.isContextBuild = true)
    (h : cfg.waitingQueryTokens r tokens (cfg.queryTokens r tokens) budget a b ≠ 0) :
    1 ≤ tokens := by
  cases tokens with
  | succ n => exact Nat.succ_pos n
  | zero =>
    have hzero : cfg.queryTokens r 0 = 0 := by
      simp only [PagedConfig.queryTokens, hbuild, Bool.true_or, if_true]
      exact Nat.le_zero.mp (clip_le 0 _)
    simp [PagedConfig.waitingQueryTokens, hzero] at h

theorem appendSlot_spec (block : BlockRef) (hpos : 1 ≤ r.contextLen)
    (hlogical : r.logicalTokens = r.contextLen) :
    SameContext r (appendSlot r block) ∧
    (appendSlot r block).numComputedTokens = r.numComputedTokens ∧
    (r.physicalTokenBlocks.length = blocksFor r (r.contextLen - 1) →
      (appendSlot r block).physicalTokenBlocks.length =
        blocksFor (appendSlot r block) r.contextLen) := by
  have htotal : r.numLogicalTokenBlocks = blocksFor r r.contextLen := by
    rw [Request.numLogicalTokenBlocks, hlogical, blocksFor]
  obtain ⟨hle, hsucc⟩ := blocksFor_succ r (r.contextLen - 1)
  rw [Nat.sub_add_cancel hpos] at hle hsucc
  unfold appendSlot
  split
  · rename_i hlt
    refine ⟨⟨rfl, rfl, rfl, rfl, rfl, rfl, rfl⟩, rfl, fun hlen => ?_⟩
    have hgoal : r.physicalTokenBlocks.length + 1 = blocksFor r r.contextLen := by omega
    rw [List.length_append]
    exact hgoal
  · rename_i hge
    exact ⟨⟨rfl, rfl, rfl, rfl, rfl, rfl, rfl⟩, rfl, fun hlen => by omega⟩

/-! ### One lemma per event -/

theorem Inv.admission {cached : Nat} (h : Inv cfg s)
    (hs : s.step cfg (.admission cached hits fresh) = some t) : Inv cfg t := by
  obtain ⟨hplace, hs⟩ := ite_none_right_eq_some.mp hs
  obtain ⟨r', ha, rfl⟩ := map_eq_some_iff.mp hs
  obtain ⟨hopen, hbuild⟩ : Open cfg s.req ∧ s.req.isContextBuild = true := by
    have := h.placed
    rwa [hplace] at this
  obtain ⟨hsame, hlt, hcovers⟩ := admission_spec h.sound ha
  refine ⟨h.sound.move hsame (le_of_lt hlt) fun hdec => ?_,
    ⟨hsame.isOpen hopen, hsame.isContextBuild.trans hbuild, ?_, ?_⟩, h.sound, hopen, hbuild⟩
  · rw [hbuild] at hdec
    cases hdec
  · exact hsame.contextLen.symm ▸ hlt
  · exact hsame.contextLen.symm ▸ hcovers

theorem Inv.withdraw (h : Inv cfg s) (hs : s.step cfg .withdraw = some t) : Inv cfg t := by
  simp only [step] at hs
  split at hs
  · rename_i state hplace
    cases hs
    have hplaced := h.placed
    rw [hplace] at hplaced
    obtain ⟨-, hsound, hopen, hbuild⟩ := hplaced
    have hsame : SameContext state (releaseRequestBlocks state) := ⟨rfl, rfl, rfl, rfl, rfl, rfl, rfl⟩
    exact ⟨hsound.move hsame hsound.computed fun _ => rfl, hsame.isOpen hopen, hbuild⟩
  · cases hs

theorem Inv.assign {threshold : Nat} {a b : Bool} (h : Inv cfg s)
    (hs : s.step cfg (.assign threshold budget a b) = some t) : Inv cfg t := by
  simp only [step] at hs
  split at hs
  · rename_i state hplace
    obtain ⟨hquery, ⟨⟩⟩ := ite_none_left_eq_some.mp hs
    have hplaced := h.placed
    rw [hplace] at hplaced
    obtain ⟨⟨hopen, hbuild, hlt, hcovers⟩, -⟩ := hplaced
    have hpos := tokens_pos_of_waitingQueryTokens hbuild hquery
    have hle := cfg.stepTokens_contextBuild_le threshold 1 budget hbuild hlt
    refine ⟨h.sound.move ⟨rfl, rfl, rfl, rfl, rfl, rfl, rfl⟩ h.sound.computed fun _ => rfl, hopen,
      hpos, fun _ => ?_, fun hdec => ?_, fun _ hdec => ?_, hcovers⟩
    · rw [Nat.add_comm]
      exact hle
    · exact absurd (hbuild.symm.trans hdec) (by decide)
    · exact absurd (hbuild.symm.trans hdec) (by decide)
  · cases hs

/-- What a running request is given: its slot, then its tokens. -/
theorem Inv.schedule {threshold accepted : Nat} {block : BlockRef}
    (h : Inv cfg s) (hs : s.step cfg (.schedule threshold accepted budget block) = some t) :
    Inv cfg t := by
  obtain ⟨hplace, hs⟩ := ite_none_right_eq_some.mp hs
  split at hs
  · cases hs
    exact h
  · rename_i htokens
    cases hs
    have hplaced := h.placed
    rw [hplace] at hplaced
    obtain ⟨hopen, hlt, hcovers⟩ := hplaced
    have hpos := Nat.pos_of_ne_zero htokens
    cases hbuild : s.req.isContextBuild with
    | true =>
      have hle := cfg.stepTokens_contextBuild_le threshold accepted budget hbuild (hlt hbuild)
      simp only [hbuild, Bool.true_or, if_true] at hcovers ⊢
      refine ⟨h.sound.move ⟨rfl, rfl, rfl, rfl, rfl, rfl, rfl⟩ h.sound.computed fun _ => rfl,
        hopen, hpos, fun _ => ?_, fun hdec => ?_, fun _ hdec => ?_, hcovers⟩
      · rw [Nat.add_comm]
        exact hle
      · exact absurd (hbuild.symm.trans hdec) (by decide)
      · exact absurd (hbuild.symm.trans hdec) (by decide)
    | false =>
      have hctx : 1 ≤ s.req.contextLen := le_trans h.sound.prompt (Nat.le_add_right _ _)
      have hle := cfg.stepTokens_decode_le threshold accepted budget hbuild
      have hone : cfg.groupedCache = false →
          cfg.stepTokens threshold accepted s.req budget = 1 := by
        intro huniform
        have := cfg.stepTokens_decode_le_one threshold accepted budget hbuild
          (cfg.uniform_mtp huniform)
        omega
      simp only [hbuild, Bool.false_eq_true, if_false, Bool.false_or] at hcovers ⊢
      cases hgrouped : cfg.groupedCache with
      | true =>
        simp only [if_true]
        refine ⟨h.sound.move ⟨rfl, rfl, rfl, rfl, rfl, rfl, rfl⟩ h.sound.computed fun _ => rfl,
          hopen, hpos, fun hb => ?_, fun _ => hle, fun hu => ?_, fun hu => ?_⟩
        · exact absurd (hb.symm.trans hbuild) (by decide)
        · exact absurd (hgrouped.symm.trans hu) (by decide)
        · exact absurd (hgrouped.symm.trans hu) (by decide)
      | false =>
        simp only [Bool.false_eq_true, if_false]
        obtain ⟨hsame, hcomp, hblocks⟩ := appendSlot_spec block hctx h.sound.logical
        have hsame' : SameContext s.req (assignRunning (appendSlot s.req block)
            (cfg.stepTokens threshold accepted s.req budget)
            (cfg.queryTokens s.req (cfg.stepTokens threshold accepted s.req budget))) :=
          ⟨hsame.1, hsame.2, hsame.3, hsame.4, hsame.5, hsame.6, hsame.7⟩
        refine ⟨h.sound.move hsame' (hcomp.trans_le h.sound.computed) fun _ => hcomp,
          hsame'.isOpen hopen, hpos, fun hb => ?_, fun _ => ?_, fun _ _ => hone hgrouped, ?_⟩
        · exact absurd ((hsame'.isContextBuild.symm.trans hb).symm.trans hbuild) (by decide)
        · rw [hsame'.remainingOutput]
          exact hle
        · intro _
          rw [hsame'.contextLen]
          exact hblocks (hcovers hgrouped)

theorem Inv.preempt (h : Inv cfg s) (hs : s.step cfg .preempt = some t) : Inv cfg t := by
  obtain ⟨hplace, hs⟩ := ite_none_right_eq_some.mp hs
  cases hs
  have hplaced := h.placed
  rw [hplace] at hplaced
  have hbuild : ({ (releaseRequestBlocks s.req).prepareRecompute with
      status := .waiting } : Request).isContextBuild = true := by
    simp [Request.isContextBuild, Request.prepareRecompute]
  refine ⟨⟨h.sound.prompt, h.sound.live, h.sound.limit, h.sound.logical, Nat.zero_le _,
    h.sound.output, h.sound.context, fun hdec => ?_⟩, hplaced.1, hbuild⟩
  exact absurd (hbuild.symm.trans hdec) (by decide)

/-- How the position and the context of a request move in one advance. -/
theorem advance_moves (h : Inv cfg s) (hplace : s.place = .batch) :
    s.req.advance.logicalTokens = s.req.advance.contextLen ∧
    ((s.req.isContextBuild = true ∧ s.req.advance.needsRecompute = s.req.needsRecompute ∧
        s.req.advance.generationIdx = s.req.generationIdx ∧
        s.req.advance.numComputedTokens < s.req.contextLen) ∨
      (s.req.advance.needsRecompute = false ∧ ∃ emitted,
        1 ≤ emitted ∧ emitted ≤ cfg.remainingOutput s.req ∧
        (s.req.isContextBuild = true → emitted = 1) ∧
        (cfg.groupedCache = false → emitted = 1) ∧
        s.req.advance.generationIdx = s.req.generationIdx + emitted ∧
        s.req.advance.numComputedTokens + 1 = s.req.contextLen + emitted)) := by
  have hplaced := h.placed
  rw [hplace] at hplaced
  obtain ⟨hopen, hpos, hbuild, hdecode, hone, -⟩ := hplaced
  have hctx : 1 ≤ s.req.contextLen := le_trans h.sound.prompt (Nat.le_add_right _ _)
  obtain ⟨hout, hroom⟩ := remainingOutput_le hopen
  have hleft : 1 ≤ cfg.remainingOutput s.req := by
    have hgen := hopen.1
    unfold PagedConfig.remainingOutput
    cases hmax : cfg.maxModelLen with
    | none =>
      simp only [map_none, clip]
      omega
    | some limit =>
      have := hopen.2 limit hmax
      simp only [map_some, clip]
      omega
  have hsampled : ∀ tokens, 1 ≤ tokens → tokens ≤ cfg.remainingOutput s.req →
      s.req.sampled tokens = tokens := by
    intro tokens htokens hle
    refine Request.sampled_eq htokens (hle.trans hout) fun limit hlimit => hle.trans (hroom limit ?_)
    rw [← h.sound.limit, hlimit]
  have htokens := Request.stepTokens_of_scheduled hpos
  rcases Nat.lt_or_ge (s.req.numComputedTokens + s.req.stepTokens) s.req.contextLen with hlt | hge
  · rw [Request.advance_chunk h.sound.live hlt]
    refine ⟨h.sound.logical, .inl ⟨?_, rfl, rfl, hlt⟩⟩
    -- a decode step always reaches the end of the context
    cases hb : s.req.isContextBuild with
    | true => rfl
    | false =>
      have := h.sound.decoding hb
      omega
  · obtain ⟨status, n, hadvance⟩ := Request.advance_complete h.sound.live hge
    have hlogical : s.req.logicalTokens = s.req.prefillLen + s.req.generationIdx := h.sound.logical
    have hlen : s.req.advance.contextLen = s.req.prefillLen + s.req.advance.generationIdx := by
      rw [Request.contextLen, s.req.advance_frame.1.prefillLen]
    have hcomp : s.req.advance.numComputedTokens = s.req.numComputedTokens + s.req.stepTokens := by
      rw [hadvance]
      rfl
    refine ⟨?_, .inr ⟨by rw [hadvance], ?_⟩⟩
    · rw [hlen, hadvance]
      dsimp only
      omega
    cases hb : s.req.isContextBuild with
    | true =>
      have hend := hbuild hb
      rw [hb, if_pos rfl, hsampled 1 (Nat.le_refl 1) hleft] at hadvance
      exact ⟨1, Nat.le_refl 1, hleft, fun _ => rfl, fun _ => rfl, by rw [hadvance], by omega⟩
    | false =>
      have hend := h.sound.decoding hb
      rw [hb, if_neg Bool.false_ne_true, htokens, hsampled _ hpos (hdecode hb)] at hadvance
      exact ⟨_, hpos, hdecode hb, by rintro ⟨⟩, fun huniform => hone huniform hb,
        by rw [hadvance], by omega⟩

theorem Inv.advance (h : Inv cfg s) (hs : s.step cfg .advance = some t) : Inv cfg t := by
  obtain ⟨hplace, hs⟩ := ite_none_right_eq_some.mp hs
  cases hs
  obtain ⟨hsame, -⟩ := s.req.advance_frame
  obtain ⟨hlogical, hmoves⟩ := advance_moves h hplace
  have hplaced := h.placed
  rw [hplace] at hplaced
  obtain ⟨hopen, -, -, -, -, hcovers⟩ := hplaced
  obtain ⟨hout, hroom⟩ := remainingOutput_le hopen
  have hlen : s.req.advance.contextLen = s.req.prefillLen + s.req.advance.generationIdx := by
    rw [Request.contextLen, hsame.prefillLen]
  have hlen' : s.req.contextLen = s.req.prefillLen + s.req.generationIdx := rfl
  have hprompt := h.sound.prompt
  have hlive := hsame.cancelRequested.trans h.sound.live
  have hlimit := hsame.maxModelLen.trans h.sound.limit
  -- the position is below the end of a context that is still built, and one
  -- below the end of a context that decodes
  have hposition : (s.req.advance.isContextBuild = true →
        s.req.advance.numComputedTokens < s.req.advance.contextLen) ∧
      (s.req.advance.isContextBuild = false →
        s.req.advance.numComputedTokens = s.req.advance.contextLen - 1) ∧
      s.req.advance.numComputedTokens ≤ s.req.advance.contextLen ∧
      s.req.advance.generationIdx ≤ s.req.decodeLen ∧
      (∀ limit, cfg.maxModelLen = some limit → s.req.advance.contextLen ≤ limit) ∧
      (cfg.groupedCache = false → (if s.req.advance.isContextBuild then s.req.advance.contextLen
        else s.req.advance.contextLen - 1) = s.req.contextLen) := by
    rcases hmoves with ⟨hb, hrec, hgen, hlt⟩ | ⟨hrec, emitted, hpos, hle, -, hone, hgen, hcomp⟩
    · have hb' : s.req.advance.isContextBuild = true := by
        rw [← hb]
        simp [Request.isContextBuild, Request.isPrefill, hgen, hrec]
      refine ⟨fun _ => by omega, fun hdec => ?_, by omega, ?_, fun limit hmax => ?_, fun _ => ?_⟩
      · exact absurd (hb'.symm.trans hdec) (by decide)
      · exact hgen ▸ h.sound.output
      · have := h.sound.context limit hmax
        omega
      · rw [if_pos hb']
        omega
    · have hb' : s.req.advance.isContextBuild = false := by
        have : s.req.advance.generationIdx ≠ 0 := by omega
        simp [Request.isContextBuild, Request.isPrefill, hrec, this]
      refine ⟨fun hb => ?_, fun _ => by omega, by omega, ?_, fun limit hmax => ?_, fun huniform => ?_⟩
      · exact absurd (hb'.symm.trans hb) (by decide)
      · have := hopen.1
        omega
      · have := hopen.2 limit hmax
        have := hroom limit hmax
        omega
      · have := hone huniform
        rw [if_neg (by simp [hb'])]
        omega
  obtain ⟨hbelow, hdecoding, hcomputed, houtput, hcontext, htable⟩ := hposition
  refine ⟨⟨hsame.prefillLen ▸ hprompt, hlive, hlimit, hlogical, hcomputed,
    hsame.decodeLen.symm ▸ houtput, hcontext, hdecoding⟩, ?_⟩
  dsimp only
  split
  · trivial
  · rename_i hdone
    have hopen' := (Request.isDone_eq_false hlive).mp (Bool.not_eq_true _ ▸ hdone)
    rw [hlimit] at hopen'
    refine ⟨hopen', hbelow, fun huniform => ?_⟩
    rw [htable huniform, hsame.physicalTokenBlocks, hcovers huniform, blocksFor, blocksFor,
      hsame.blockSize]

theorem Inv.step {e : PagedRunEvent} (h : Inv cfg s) (hs : s.step cfg e = some t) : Inv cfg t := by
  cases e with
  | admission cached hits fresh => exact h.admission hs
  | withdraw => exact h.withdraw hs
  | assign threshold budget a b => exact h.assign hs
  | schedule threshold accepted budget block => exact h.schedule hs
  | preempt => exact h.preempt hs
  | advance => exact h.advance hs

/-! ## Every run -/

/-- In every run of a request the counters stay within their bounds, a request
that decodes has computed all of its context but the newest token after every
advance, a recompute that completes emits one token, and under the uniform cache
a request that decodes owns a block for each of its logical blocks when its
step runs. -/
theorem run_progress (cfg : PagedConfig) (r : Request) (hfresh : Fresh cfg r) (s : PagedRun)
    (hrun : Reaches (step cfg) (fun _ _ => True) ⟨r, .waiting⟩ s) :
    s.req.numComputedTokens ≤ s.req.contextLen ∧
    s.req.generationIdx ≤ s.req.decodeLen ∧
    (∀ limit, cfg.maxModelLen = some limit → s.req.contextLen ≤ limit) ∧
    (∀ t, step cfg s .advance = some t →
      (t.req.isDone = false → 0 < t.req.generationIdx → t.req.needsRecompute = false →
        t.req.numComputedTokens = t.req.contextLen - 1) ∧
      (s.req.needsRecompute = true → t.req.needsRecompute = false →
        t.req.generationIdx = s.req.generationIdx + 1)) ∧
    (cfg.groupedCache = false → s.place = .batch → s.req.isContextBuild = false →
      s.req.physicalTokenBlocks.length = s.req.numLogicalTokenBlocks) := by
  have hinv : Inv cfg s := hrun.invariant (inv_fresh hfresh) fun h _ hs => h.step hs
  refine ⟨hinv.sound.computed, hinv.sound.output, hinv.sound.context, ?_, ?_⟩
  · intro t ht
    have hinv' := hinv.step ht
    refine ⟨fun _ hgen hrec => hinv'.sound.decoding ?_, fun hrec hrec' => ?_⟩
    · simp [Request.isContextBuild, Request.isPrefill, hrec, ne_of_gt hgen]
    · obtain ⟨hplace, ⟨⟩⟩ := ite_none_right_eq_some.mp ht
      have hbuild : s.req.isContextBuild = true := by simp [Request.isContextBuild, hrec]
      rcases (advance_moves hinv hplace).2 with ⟨-, hkept, -⟩ | ⟨-, emitted, -, -, hone, -, hgen, -⟩
      · rw [hkept, hrec] at hrec'
        cases hrec'
      · rw [hgen, hone hbuild]
  · intro huniform hplace _
    have hplaced := hinv.placed
    rw [hplace] at hplaced
    rw [hplaced.2.2.2.2.2 huniform, Request.numLogicalTokenBlocks, hinv.sound.logical, blocksFor]

/-- A prompt of seven tokens computed in two chunks, a preemption after the first
output token, a recompute over a cached block, and a decode step. -/
def preemptedRun : List PagedRunEvent :=
  [.admission 0 [] [⟨.gpu, 0⟩, ⟨.gpu, 1⟩], .assign 0 (some 3) false false, .advance,
    .schedule 0 1 none ⟨.gpu, 2⟩, .advance, .preempt,
    .admission 4 [⟨.gpu, 0⟩] [⟨.gpu, 1⟩], .assign 0 none false false, .advance,
    .schedule 0 1 none ⟨.gpu, 2⟩]

/-- A prompt of seven tokens that asks for three. -/
def shortRequest : Request where
  id := 0
  prefillLen := 7
  decodeLen := 3
  blockSize := 4
  cacheIdentity := 0

theorem run_progress_preempted : ∃ s : PagedRun,
    Reaches (step uniformConfig) (fun _ _ => True) ⟨shortRequest, .waiting⟩ s ∧
    (s.place = .batch ∧ s.req.isContextBuild = false ∧ s.req.generationIdx = 2) ∧
    s.req.physicalTokenBlocks.length = s.req.numLogicalTokenBlocks := by
  obtain ⟨s, hrun, hend⟩ := exists_reaches (step uniformConfig) (fun _ _ => True)
    ⟨shortRequest, .waiting⟩ preemptedRun
    (fun s => s.place = .batch ∧ s.req.isContextBuild = false ∧ s.req.generationIdx = 2) (by decide)
  have hprogress := run_progress uniformConfig shortRequest (by decide) s hrun
  exact ⟨s, hrun, hend, hprogress.2.2.2.2 rfl hend.1 hend.2.1⟩

end PagedRun

end TokenSim
