import TokenSim.Lib.OrderedDict
import Mathlib.Algebra.BigOperators.Intervals
import Mathlib.Tactic.Ring

/-!
# The work of compressed attention

The numbers of pairs of queries and context are closed forms of sums: a query sees its
context up to a limit, so a ramp is cut off there (`causalLimitedPairs_eq`,
`compressedContextPairs_eq`).

`work` prices a shape term by term.  `limitsUs` prices it from constants of a shape with
one token and no context, which it keeps for every ratio, number of heads and parallel
size.  Whatever it kept, the two agree (`limitsUs_eq_work`).
-/

namespace TokenSim

open Finset (range sum_congr)

/-- Sum `min (pre + i + 1) limit` in constant time. -/
def causalLimitedPairs (batch queries pre limit : Int) : Int :=
  if queries ≤ 0 ∨ limit ≤ 0 then 0
  else
    let ramp := min queries (max 0 (limit - pre))
    batch * (ramp * pre + ramp * (ramp + 1) / 2 + (queries - ramp) * limit)

/-- The sum of `i / divisor` for `i` up to `n`. -/
def sumFloor (n divisor : Int) : Int :=
  if n < 0 then 0
  else
    let quotient := n / divisor
    let remainder := n % divisor
    divisor * quotient * (quotient - 1) / 2 + quotient * (remainder + 1)

/-- Sum `min ((pre + i + 1) / ratio) limit`. -/
def compressedContextPairs (batch queries pre ratio limit : Int) : Int :=
  if queries ≤ 0 ∨ ratio ≤ 0 ∨ limit ≤ 0 then 0
  else
    let rampEnd := min (pre + queries) (limit * ratio - 1)
    let rampQueries := max 0 (rampEnd - pre)
    let ramp := if rampQueries = 0 then 0 else sumFloor rampEnd ratio - sumFloor pre ratio
    batch * (ramp + (queries - rampQueries) * limit)

/-! ## Sums -/

/-- A sum that is cut off at a limit from some place on. -/
theorem sum_min_limit {f : ℕ → ℕ} {limit m n : ℕ} (hmn : m ≤ n) (hlow : ∀ i < m, f i ≤ limit)
    (hhigh : ∀ i, m ≤ i → i < n → limit ≤ f i) :
    ∑ i ∈ range n, min (f i) limit = ∑ i ∈ range m, f i + (n - m) * limit := by
  rw [← Finset.sum_range_add_sum_Ico _ hmn]
  congr 1
  · exact sum_congr rfl fun i hi => min_eq_left (hlow i (Finset.mem_range.mp hi))
  · rw [sum_congr rfl fun i hi => min_eq_right (hhigh i (Finset.mem_Ico.mp hi).1
      (Finset.mem_Ico.mp hi).2)]
    simp

theorem sum_ramp (pre m : ℕ) :
    ((∑ i ∈ range m, (pre + i + 1) : ℕ) : Int) = m * pre + m * (m + 1) / 2 := by
  induction m with
  | zero => simp
  | succ m ih =>
    have hnext : ((m + 1 : ℕ) : Int) * ((m + 1 : ℕ) + 1) = m * (m + 1) + (m + 1) * 2 := by
      push_cast
      ring
    rw [Finset.sum_range_succ, Nat.cast_add, ih, hnext, Int.add_mul_ediv_right _ _ two_ne_zero]
    push_cast
    ring

variable {ratio : ℕ} (hratio : 1 ≤ ratio)
include hratio

theorem sumFloor_eq (n : ℕ) : sumFloor n ratio = (∑ k ∈ range (n + 1), k / ratio : ℕ) := by
  have hclosed : ∀ n : ℕ, sumFloor n ratio = ratio * (n / ratio : ℕ) * ((n / ratio : ℕ) - 1) / 2 +
      (n / ratio : ℕ) * ((n % ratio : ℕ) + 1) := fun n => if_neg (by omega)
  induction n with
  | zero => simp [sumFloor]
  | succ n ih =>
    rw [hclosed, Finset.sum_range_succ, Nat.cast_add, ← ih, hclosed]
    have hsplit := Nat.div_add_mod n ratio
    have hmod := Nat.mod_lt n hratio
    generalize n / ratio = q at hsplit ⊢
    generalize n % ratio = r at hsplit hmod ⊢
    by_cases hlast : r + 1 = ratio
    · -- the next number begins a block
      have hn : n + 1 = ratio * (q + 1) := by rw [mul_add]; omega
      have hnext : (ratio : Int) * (q + 1 : ℕ) * ((q + 1 : ℕ) - 1) =
          ratio * q * (q - 1) + q * ratio * 2 := by
        push_cast
        ring
      rw [hn, Nat.mul_div_cancel_left _ hratio, Nat.mul_mod_right, hnext,
        Int.add_mul_ediv_right _ _ two_ne_zero, ← hlast]
      push_cast
      ring
    · have hn : n + 1 = ratio * q + (r + 1) := by omega
      have hr : r + 1 < ratio := by omega
      rw [hn, Nat.mul_add_div hratio, Nat.mul_add_mod, Nat.div_eq_of_lt hr, Nat.mod_eq_of_lt hr,
        add_zero]
      push_cast
      ring

theorem sum_floors (pre m : ℕ) : ((∑ i ∈ range m, (pre + i + 1) / ratio : ℕ) : Int) =
    sumFloor (pre + m : ℕ) ratio - sumFloor pre ratio := by
  have hsum := Finset.sum_range_add (fun k => k / ratio) (pre + 1) m
  rw [sumFloor_eq hratio, sumFloor_eq hratio, show pre + m + 1 = pre + 1 + m by omega, hsum]
  simp only [show ∀ i, pre + 1 + i = pre + i + 1 by omega]
  push_cast
  ring

theorem compressedContextPairs_eq (batch queries pre limit : ℕ) :
    compressedContextPairs batch queries pre ratio limit =
      (batch * ∑ i ∈ range queries, min ((pre + i + 1) / ratio) limit : ℕ) := by
  unfold compressedContextPairs
  split
  · have hzero : queries = 0 ∨ limit = 0 := by omega
    rcases hzero with rfl | rfl <;> simp
  · next hsome =>
    have hpos : 0 < limit * ratio := Nat.mul_pos (by omega) hratio
    rw [← Nat.cast_mul]
    obtain ⟨m, hm⟩ : ∃ m, m = min (pre + queries) (limit * ratio - 1) - pre := ⟨_, rfl⟩
    have hqueries : max 0 (min ((pre : Int) + queries) ((limit * ratio : ℕ) - 1) - pre) = m := by
      omega
    have hend : m ≠ 0 → min ((pre : Int) + queries) ((limit * ratio : ℕ) - 1) = (pre + m : ℕ) := by
      omega
    rw [sum_min_limit (f := fun i => (pre + i + 1) / ratio) (m := m) (by omega)]
    · simp only [hqueries]
      split
      · next hnone =>
        obtain rfl : m = 0 := by omega
        simp
      · next hramp =>
        rw [hend (by omega), ← sum_floors hratio]
        push_cast [show m ≤ queries by omega]
        ring
    · exact fun i hi => Nat.div_le_of_le_mul (by rw [mul_comm]; omega)
    · exact fun i hi hn => (Nat.le_div_iff_mul_le hratio).mpr (by omega)

omit hratio

theorem causalLimitedPairs_eq (batch queries pre limit : ℕ) :
    causalLimitedPairs batch queries pre limit =
      (batch * ∑ i ∈ range queries, min (pre + i + 1) limit : ℕ) := by
  unfold causalLimitedPairs
  split
  · have hzero : queries = 0 ∨ limit = 0 := by omega
    rcases hzero with rfl | rfl <;> simp
  · obtain ⟨m, hm⟩ : ∃ m : ℕ, m = min queries (limit - pre) := ⟨_, rfl⟩
    have hramp : min (queries : Int) (max 0 (limit - pre)) = m := by omega
    rw [sum_min_limit (m := m) (by omega) (fun i hi => by omega) (fun i hi hn => by omega)]
    simp only [hramp]
    rw [Nat.cast_mul, Nat.cast_add, sum_ramp, Nat.cast_mul, Nat.cast_sub (by omega)]

/-- Both counts are the sums they stand for, and add up over the parts of a range of
queries. -/
theorem contextPairs_sums (batch queries pre limit ratio : ℕ) (hratio : 1 ≤ ratio) :
    causalLimitedPairs batch queries pre limit =
      (batch * ∑ i ∈ range queries, min (pre + i + 1) limit : ℕ) ∧
    compressedContextPairs batch queries pre ratio limit =
      (batch * ∑ i ∈ range queries, min ((pre + i + 1) / ratio) limit : ℕ) ∧
    ∀ more : ℕ,
      causalLimitedPairs batch (queries + more : ℕ) pre limit =
        causalLimitedPairs batch queries pre limit +
          causalLimitedPairs batch more (pre + queries : ℕ) limit ∧
      compressedContextPairs batch (queries + more : ℕ) pre ratio limit =
        compressedContextPairs batch queries pre ratio limit +
          compressedContextPairs batch more (pre + queries : ℕ) ratio limit := by
  refine ⟨causalLimitedPairs_eq .., compressedContextPairs_eq hratio .., fun more => ?_⟩
  simp only [causalLimitedPairs_eq, compressedContextPairs_eq hratio, Finset.sum_range_add,
    mul_add, ← add_assoc]
  exact ⟨Nat.cast_add .., Nat.cast_add ..⟩

/-- A ramp that ends within the range: four queries after five tokens, ratio two. -/
theorem contextPairs_sums_ramp : compressedContextPairs 3 4 5 2 4 = 42 ∧
    compressedContextPairs 3 1 5 2 4 + compressedContextPairs 3 3 6 2 4 = 42 := by
  have h := contextPairs_sums 3 1 5 4 2 (by decide)
  refine ⟨by decide, ?_⟩
  exact (h.2.2 3).2.symm.trans (by decide)

/-! ## Prices -/

/-- What is read of a model. -/
structure AttentionGeometry where
  (hiddenSize headDim slidingWindow qLoraRank oLoraRank oGroups : ℕ)
  (indexNHeads indexHeadDim indexTopk indexedCompressRatio qkRopeHeadDim : ℕ)

/-- Bytes of a cached state, and of an element of each type. -/
structure AttentionWorkConfig where
  (kvStateBytes indexerStateBytes : ℚ)
  (projection outputAbsorption compressor attention indexer bf16 : ℚ)

/-- Operations a second, positive in a device's description. -/
structure ComputeRates where
  (projection outputAbsorption compressor indexer indexerWeights attention : ℚ)

/-- Prefill or decode. -/
inductive AttentionPhase where
  | context
  | generation
deriving DecidableEq

/-- What an estimate depends on. -/
structure AttentionKey where
  phase : AttentionPhase
  (batchSize inputSeqLen contextLen compressRatio numHeads tpSize : Int)

/-- Operations of an attention layer. -/
structure AttentionFlops where
  (projection outputAbsorption compressor indexer indexerWeights attention : Int)

/-- Bytes an attention layer moves. -/
structure AttentionBytes where
  (projectionWeights outputAbsorptionWeights compressorWeights : ℚ)
  (indexerProjectionWeights indexerWeights activations rope attentionKv indexerKv : ℚ)

/-- The operations, the bytes and their times. -/
structure AttentionWork where
  flops : AttentionFlops
  bytes : AttentionBytes
  mathSeconds : ℚ
  memorySeconds : ℚ

/-- The times in microseconds, and the bytes of the indexer. -/
def AttentionWork.limits (w : AttentionWork) : ℚ × ℚ × ℚ :=
  (w.mathSeconds * 10 ^ 6, w.memorySeconds * 10 ^ 6, w.bytes.indexerKv)

/-- What `limitsUs` keeps. -/
structure GrowthConstants where
  (mathPerToken weights activationPerToken attentionPerPair indexerPerPair : ℚ)

/-- The estimator of compressed attention. -/
structure CompressedAttentionWork where
  model : AttentionGeometry
  config : AttentionWorkConfig
  computeRates : ComputeRates
  bandwidth : ℚ

/-- Each operation at its own rate. -/
def AttentionFlops.seconds (f : AttentionFlops) (rates : ComputeRates) : ℚ :=
  f.projection / rates.projection + f.outputAbsorption / rates.outputAbsorption +
    f.compressor / rates.compressor + f.indexer / rates.indexer +
    f.indexerWeights / rates.indexerWeights + f.attention / rates.attention

namespace AttentionBytes

variable (b : AttentionBytes)

/-- The terms with weights in their names. -/
def weights : ℚ := b.projectionWeights + b.outputAbsorptionWeights + b.compressorWeights +
  b.indexerProjectionWeights + b.indexerWeights

/-- All bytes. -/
def total : ℚ := b.weights + b.activations + b.rope + b.attentionKv + b.indexerKv

end AttentionBytes

namespace AttentionKey

variable (key : AttentionKey) (m : AttentionGeometry)

/-- The layer a key is about. -/
def identity : Int × Int × Int := (key.compressRatio, key.numHeads, key.tpSize)

/-- The shape whose constants are kept. -/
def base : AttentionKey :=
  { key with phase := .generation, batchSize := 1, inputSeqLen := 1, contextLen := 0 }

/-- At least one sequence. -/
def batch : Int := max 1 key.batchSize

/-- Queries per sequence. -/
def queries : Int := if key.phase = .context then max 1 key.inputSeqLen else 1

/-- Tokens before the queries. -/
def pre : Int :=
  let context := max 0 key.contextLen
  if key.phase = .context then context else max 0 (context - 1)

/-- Queries of the batch. -/
def tokens : Int := key.batch * key.queries

/-- Tokens the last query sees. -/
def kvLen : Int := if key.phase = .context then key.pre + key.queries else key.pre

/-- Compressed tokens the last query sees. -/
def compressedLen : Int := if key.compressRatio > 1 then key.kvLen / key.compressRatio else 0

/-- A value for the indexed ratio, and zero for the others. -/
def ifIndexed {α : Type} [Zero α] (x : α) : α :=
  if key.compressRatio = m.indexedCompressRatio then x else 0

/-- The most compressed tokens attended to. -/
def limit : Int :=
  if key.compressRatio = m.indexedCompressRatio then m.indexTopk else key.compressedLen

/-- The pairs of the window and of the compressed context. -/
def pairs : Int :=
  if key.phase = .context then
    causalLimitedPairs key.batch key.queries key.pre m.slidingWindow +
      if key.compressRatio > 1 then
        compressedContextPairs key.batch key.queries key.pre key.compressRatio (key.limit m)
      else 0
  else key.batch * min key.kvLen m.slidingWindow + key.batch * min key.compressedLen (key.limit m)

/-- Weights and operations of the compressors.  A ratio of one has none. -/
def compressor : Int × Int :=
  if key.compressRatio > 1 then
    let mult : Int := if key.compressRatio = m.indexedCompressRatio then 2 else 1
    let weights := 2 * m.hiddenSize * mult * m.headDim
    let ops := 2 * key.tokens * weights + 2 * key.tokens * mult * m.headDim
    let indexWeights : Int := 2 * m.hiddenSize * 2 * m.indexHeadDim
    (weights + key.ifIndexed m indexWeights,
      ops + key.ifIndexed m (2 * key.tokens * indexWeights + 2 * key.tokens * 2 * m.indexHeadDim))
  else (0, 0)

end AttentionKey

namespace CompressedAttentionWork

variable (c : CompressedAttentionWork) (key : AttentionKey)

/-- The terms of a shape, for a number of output groups. -/
def account (groups : Int) : AttentionWork :=
  let m := c.model
  let cfg := c.config
  let tokens := key.tokens
  let heads := key.numHeads
  let projectionWeights := m.hiddenSize * m.qLoraRank + m.qLoraRank * heads * m.headDim +
    m.hiddenSize * m.headDim + groups * m.oLoraRank * m.hiddenSize
  let absorptionWeights := heads * m.headDim * m.oLoraRank
  let pairs := key.pairs m
  let indexerProjectionWeights : Int :=
    key.ifIndexed m (m.qLoraRank * m.indexNHeads * m.indexHeadDim)
  let indexerWeights : Int := key.ifIndexed m (m.hiddenSize * m.indexNHeads)
  let indexerPairs := key.ifIndexed m (tokens * key.compressedLen)
  let flops : AttentionFlops :=
    { projection := 2 * tokens * projectionWeights
      outputAbsorption := 2 * tokens * absorptionWeights
      compressor := (key.compressor m).2
      indexer := 2 * tokens * indexerProjectionWeights +
        2 * indexerPairs * m.indexNHeads * m.indexHeadDim
      indexerWeights := 2 * tokens * indexerWeights
      attention := 4 * heads * m.headDim * pairs }
  let bytes : AttentionBytes :=
    { projectionWeights := projectionWeights * cfg.projection
      outputAbsorptionWeights := absorptionWeights * cfg.outputAbsorption
      compressorWeights := (key.compressor m).1 * cfg.compressor
      indexerProjectionWeights := indexerProjectionWeights * cfg.indexer
      indexerWeights := indexerWeights * cfg.bf16
      activations := tokens * (m.hiddenSize + m.qLoraRank + heads * m.headDim + m.headDim +
        groups * m.oLoraRank) * cfg.projection
      rope := tokens * heads * m.qkRopeHeadDim * cfg.attention
      attentionKv := pairs * cfg.kvStateBytes
      indexerKv := key.ifIndexed m (key.batch * key.compressedLen * cfg.indexerStateBytes) }
  ⟨flops, bytes, flops.seconds c.computeRates, bytes.total / c.bandwidth⟩

/-- The work of a key, or the division by zero. -/
def work : Except String AttentionWork :=
  if key.tpSize = 0 then .error "integer division or modulo by zero"
  else .ok (c.account key (Int.fdiv c.model.oGroups key.tpSize))

/-- What is kept of the work of the base shape. -/
def constants (base : AttentionWork) : GrowthConstants :=
  { mathPerToken := base.mathSeconds * 10 ^ 6
    weights := base.bytes.weights
    activationPerToken := base.bytes.activations + base.bytes.rope
    attentionPerPair := 4 * key.numHeads * c.model.headDim / c.computeRates.attention * 10 ^ 6
    indexerPerPair := key.ifIndexed c.model
      (2 * c.model.indexNHeads * c.model.indexHeadDim / c.computeRates.indexer * 10 ^ 6) }

/-- The times and the indexer bytes of a shape, from constants. -/
def limits (k : GrowthConstants) : ℚ × ℚ × ℚ :=
  let pairs := if key.phase = .context then key.pairs c.model
    else key.batch * (min key.kvLen c.model.slidingWindow +
      min key.compressedLen (key.limit c.model))
  let indexerBytes :=
    key.ifIndexed c.model (key.batch * key.compressedLen * c.config.indexerStateBytes)
  (k.mathPerToken * key.tokens + k.attentionPerPair * pairs +
      k.indexerPerPair * key.tokens * key.compressedLen,
    (k.weights + k.activationPerToken * key.tokens + pairs * c.config.kvStateBytes +
      indexerBytes) / c.bandwidth * 10 ^ 6,
    indexerBytes)

/-- The limits of a shape, and the constants that are kept then. -/
def limitsUs (kept : OrderedDict (Int × Int × Int) GrowthConstants) :
    Except String ((ℚ × ℚ × ℚ) × OrderedDict (Int × Int × Int) GrowthConstants) :=
  match kept.get? key.identity with
  | some k => .ok (c.limits key k, kept)
  | none => do
    let k := c.constants key (← c.work key.base)
    return (c.limits key k, kept.set key.identity k)

/-- What is kept after a sequence of shapes.  One that raises leaves it as it was. -/
def priced (keys : List AttentionKey) : OrderedDict (Int × Int × Int) GrowthConstants :=
  keys.foldl (fun kept key => ((c.limitsUs key kept).map Prod.snd).toOption.getD kept) .empty

end CompressedAttentionWork

/-! ## Constants and terms -/

namespace AttentionKey

variable (key : AttentionKey) (m : AttentionGeometry)

theorem tokens_base : key.base.tokens = 1 := rfl

theorem compressedLen_base : key.base.compressedLen = 0 := by
  have hzero : key.base.kvLen = 0 := rfl
  simp [compressedLen, hzero]

theorem pairs_base : key.base.pairs m = 0 := by
  have hzero : key.base.kvLen = 0 := rfl
  have hlimit : 0 ≤ key.base.limit m := by
    unfold limit
    split
    · exact Int.natCast_nonneg _
    · exact key.compressedLen_base.ge
  have hgeneration : key.base.phase ≠ .context := nofun
  rw [pairs, if_neg hgeneration, hzero, key.compressedLen_base, min_eq_left hlimit,
    min_eq_left (Int.natCast_nonneg _), mul_zero, add_zero]

theorem pairs_eq : (if key.phase = .context then key.pairs m
    else key.batch * (min key.kvLen m.slidingWindow + min key.compressedLen (key.limit m))) =
    key.pairs m := by
  unfold pairs
  split
  · rfl
  · exact mul_add ..

theorem compressor_base : (key.base.compressor m).1 = (key.compressor m).1 ∧
    key.tokens * (key.base.compressor m).2 = (key.compressor m).2 := by
  have hratio : key.base.compressRatio = key.compressRatio := rfl
  simp only [compressor, ifIndexed, tokens_base, hratio]
  split
  · refine ⟨rfl, ?_⟩
    split <;> ring
  · exact ⟨rfl, mul_zero _⟩

end AttentionKey

namespace CompressedAttentionWork

variable (c : CompressedAttentionWork) (key : AttentionKey)

theorem limits_eq (groups : Int) :
    c.limits key (c.constants key (c.account key.base groups)) = (c.account key groups).limits := by
  obtain ⟨hweights, hops⟩ := key.compressor_base c.model
  have hheads : key.base.numHeads = key.numHeads := rfl
  have hratio : key.base.compressRatio = key.compressRatio := rfl
  simp only [limits, AttentionWork.limits, constants, account, AttentionFlops.seconds,
    AttentionBytes.total, AttentionBytes.weights, key.pairs_eq, key.pairs_base, key.tokens_base,
    key.compressedLen_base, hweights, ← hops, hheads, AttentionKey.ifIndexed, hratio]
  refine Prod.ext ?_ (Prod.ext ?_ rfl)
  · split <;> push_cast <;> ring
  · split <;> push_cast <;> ring

/-- Each entry holds the constants of its shapes. -/
def Kept (kept : OrderedDict (Int × Int × Int) GrowthConstants) : Prop :=
  ∀ key k, kept.get? key.identity = some k →
    ∃ base, c.work key.base = .ok base ∧ k = c.constants key base

variable {c key} {kept : OrderedDict (Int × Int × Int) GrowthConstants}

theorem Kept.set {base : AttentionWork} (h : c.Kept kept) (hbase : c.work key.base = .ok base) :
    c.Kept (kept.set key.identity (c.constants key base)) := by
  intro key' k hget
  rcases OrderedDict.get?_set_cases hget with ⟨hid, rfl⟩ | ⟨-, hget⟩
  · obtain ⟨phase, batchSize, inputSeqLen, contextLen, ratio, heads, tpSize⟩ := key
    obtain ⟨phase', batchSize', inputSeqLen', contextLen', ratio', heads', tpSize'⟩ := key'
    cases hid
    exact ⟨base, hbase, rfl⟩
  · exact h key' k hget

/-- The base shape raises where the shape does. -/
theorem work_cases (c : CompressedAttentionWork) (key : AttentionKey) :
    (∃ e, c.work key.base = .error e ∧ c.work key = .error e) ∨
    ∃ base w, c.work key.base = .ok base ∧ c.work key = .ok w ∧
      c.limits key (c.constants key base) = w.limits := by
  by_cases hzero : key.tpSize = 0
  · exact .inl ⟨_, if_pos hzero, if_pos hzero⟩
  · exact .inr ⟨_, _, if_neg hzero, if_neg hzero, c.limits_eq key _⟩

theorem Kept.limitsUs (h : c.Kept kept) (key : AttentionKey) :
    (c.limitsUs key kept).map Prod.fst = (c.work key).map AttentionWork.limits ∧
      ∀ out, c.limitsUs key kept = .ok out → c.Kept out.2 := by
  unfold CompressedAttentionWork.limitsUs
  rcases c.work_cases key with ⟨e, hbase, hwork⟩ | ⟨base, w, hbase, hwork, hlimits⟩
  · cases hget : kept.get? key.identity with
    | some k =>
      obtain ⟨base, hok, -⟩ := h key k hget
      cases hbase.symm.trans hok
    | none =>
      rw [hbase, hwork]
      exact ⟨rfl, nofun⟩
  · rw [hwork]
    cases hget : kept.get? key.identity with
    | some k =>
      obtain ⟨base', hok, rfl⟩ := h key k hget
      cases hbase.symm.trans hok
      refine ⟨congrArg Except.ok hlimits, ?_⟩
      rintro _ ⟨⟩
      exact h
    | none =>
      rw [hbase]
      refine ⟨congrArg Except.ok hlimits, ?_⟩
      rintro _ ⟨⟩
      exact h.set hbase

theorem kept_priced (c : CompressedAttentionWork) (keys : List AttentionKey) :
    c.Kept (c.priced keys) := by
  refine List.foldlRecOn keys _ (fun _ _ h => ?_) fun kept h key _ => ?_
  · cases h
  · cases hout : c.limitsUs key kept with
    | error e => exact h
    | ok out => exact (h.limitsUs key).2 out hout

/-- Whatever was priced before, the limits of a shape are the times and the indexer bytes of
its work. -/
theorem limitsUs_eq_work (c : CompressedAttentionWork) (keys : List AttentionKey)
    (key : AttentionKey) :
    (c.limitsUs key (c.priced keys)).map Prod.fst = (c.work key).map AttentionWork.limits :=
  ((c.kept_priced keys).limitsUs key).1

end CompressedAttentionWork

end TokenSim
