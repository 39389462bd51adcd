import TokenSim.Request

/-!
# Token budgets of the paged scheduler

How many tokens a request computes in a step.  A context build (a prompt, or a
preempted context) takes its remaining context, cut to the long-prefill
threshold and the budget; a decode step takes the accepted output tokens and
runs only when the budget covers the whole verification query.

The acceptance draw of multi-token prediction is keyed by hashes of the request
and the round; here it is the argument `accepted`, an arbitrary number.
-/

namespace TokenSim

/-- What the paged scheduler reads from its configuration and its cache layout.
Grouped caches carry the speculative lookahead and the model's context limit;
uniform caches have neither. -/
structure PagedConfig where
  groupedCache : Bool
  speculativeTokens : Nat
  maxModelLen : Option Nat
  mtpEnabled : Bool
  uniform : groupedCache = false → speculativeTokens = 0 ∧ maxModelLen = none
  /-- "enabled MTP scheduler requires positive cache K" -/
  mtp_positive : mtpEnabled = true → 0 < speculativeTokens

/-- `min` with a bound that may be infinite. -/
def clip (n : Nat) : Option Nat → Nat
  | none => n
  | some bound => min n bound

theorem clip_le (n : Nat) (bound : Option Nat) : clip n bound ≤ n := by
  cases bound with
  | none => exact Nat.le_refl n
  | some b => exact min_le_left n b

theorem clip_le_some (n b : Nat) : clip n (some b) ≤ b := min_le_right n b

namespace PagedConfig

variable (cfg : PagedConfig)

/-- Query positions left below the model's limit. -/
def queryRoom (r : Request) : Option Nat :=
  cfg.maxModelLen.map fun limit => limit - r.numComputedTokens - 1

def decodeOutputTokens (accepted remaining : Nat) : Nat :=
  if cfg.mtpEnabled then min accepted remaining else min 1 remaining

/-- Target verification processes the complete speculative input even when only
one output token remains. -/
def queryTokens (r : Request) (accepted : Nat) : Nat :=
  if r.isContextBuild || !cfg.mtpEnabled then clip accepted (cfg.queryRoom r)
  else clip (1 + cfg.speculativeTokens) (cfg.queryRoom r)

/-- Output tokens a decoding request may still emit. -/
def remainingOutput (r : Request) : Nat :=
  clip (max 1 (r.decodeLen - r.generationIdx))
    (cfg.maxModelLen.map fun limit => limit - r.contextLen)

/-- The budget of a step covers a cost. -/
def covers (budget : Option Nat) (cost : Nat) : Bool :=
  match budget with
  | none => true
  | some b => cost ≤ b

def stepTokens (threshold accepted : Nat) (r : Request) (budget : Option Nat) : Nat :=
  if r.isContextBuild then
    let remaining := max 1 r.remainingContextTokens
    let remaining := if threshold = 0 then remaining else min remaining threshold
    clip (clip remaining (cfg.queryRoom r)) budget
  else
    let remaining := cfg.remainingOutput r
    if remaining = 0 then 0
    else
      let accepted := clip (cfg.decodeOutputTokens accepted remaining) (cfg.queryRoom r)
      if covers budget (cfg.queryTokens r accepted) then accepted else 0

/-- A waiting request with one context token left is padded to the width of a
decode query. -/
def waitingQueryTokens (r : Request) (realTokens queries : Nat) (budget : Option Nat)
    (scheduled prefillScheduled : Bool) : Nat :=
  let width := 1 + cfg.speculativeTokens
  if !cfg.mtpEnabled || !r.isContextBuild || realTokens != 1 then queries
  else if r.contextLen - r.numComputedTokens != 1 || prefillScheduled ||
      !(scheduled || decide (0 < r.numComputedTokens)) then queries
  else if cfg.maxModelLen.any fun limit => decide (limit < r.numComputedTokens + width + 1) then
    queries
  else if covers budget width then width else 0

/-! ## What a step can be given -/

section

variable {r : Request} (threshold accepted : Nat) (budget : Option Nat)

theorem stepTokens_contextBuild_le (hbuild : r.isContextBuild = true)
    (hlt : r.numComputedTokens < r.contextLen) :
    cfg.stepTokens threshold accepted r budget + r.numComputedTokens ≤ r.contextLen := by
  have hbound : cfg.stepTokens threshold accepted r budget ≤ max 1 r.remainingContextTokens := by
    simp only [stepTokens, hbuild, if_true]
    refine (clip_le _ _).trans ((clip_le _ _).trans ?_)
    split
    · exact le_rfl
    · exact min_le_left _ _
  have hremaining : r.remainingContextTokens = r.contextLen - r.numComputedTokens := rfl
  omega

/-- A decode step emits no more than is left of the output and of the model's
context. -/
theorem stepTokens_decode_le (hdecode : r.isContextBuild = false) :
    cfg.stepTokens threshold accepted r budget ≤ cfg.remainingOutput r := by
  have houtput : ∀ remaining, cfg.decodeOutputTokens accepted remaining ≤ remaining := by
    intro remaining
    unfold decodeOutputTokens
    split <;> exact min_le_right _ _
  simp only [stepTokens, hdecode, Bool.false_eq_true, if_false]
  split
  · exact Nat.zero_le _
  · split
    · exact (clip_le _ _).trans (houtput _)
    · exact Nat.zero_le _

theorem stepTokens_decode_le_one (hdecode : r.isContextBuild = false)
    (hmtp : cfg.mtpEnabled = false) : cfg.stepTokens threshold accepted r budget ≤ 1 := by
  have houtput : ∀ remaining, cfg.decodeOutputTokens accepted remaining ≤ 1 := by
    intro remaining
    simp only [decodeOutputTokens, hmtp, Bool.false_eq_true, if_false]
    exact min_le_left _ _
  simp only [stepTokens, hdecode, Bool.false_eq_true, if_false]
  split
  · exact Nat.zero_le _
  · split
    · exact (clip_le _ _).trans (houtput _)
    · exact Nat.zero_le _

end

theorem uniform_mtp (hgrouped : cfg.groupedCache = false) : cfg.mtpEnabled = false := by
  have hK := (cfg.uniform hgrouped).1
  cases hmtp : cfg.mtpEnabled with
  | false => rfl
  | true =>
    have := cfg.mtp_positive hmtp
    omega

end PagedConfig

/-- Blocks of four tokens, no context limit and no multi-token prediction. -/
def PagedRun.uniformConfig : PagedConfig where
  groupedCache := false
  speculativeTokens := 0
  maxModelLen := none
  mtpEnabled := false
  uniform := fun _ => ⟨rfl, rfl⟩
  mtp_positive := nofun

end TokenSim
