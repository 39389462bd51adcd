import TokenSim.Lib.Raising
import Mathlib.Algebra.Order.Ring.Nat

/-!
# Packing requests into blocks

The requests of an iteration are packed into blocks within a token limit, in their
order and without splitting one.  `opened` counts the batches that the packing opens
after the one at hand.  A larger load of that one opens at most one more
(`opened_mono`), so no packing has fewer batches.
-/

namespace TokenSim

open List Except

namespace Af

/-- What is read of a request.  Counters that it lacks are zero. -/
structure AFRequest where
  id : Int
  contextLen : Int
  prefillLen : Int
  needsRecompute : Bool
  prefillComputeLen : Option Int
  queryTokens : Option Int
  stepTokens : Option Int
  numComputedTokens : Option Int
  scheduledQueryTokens : Int
  scheduledTokens : Int
  /-- `none` if it is not a boolean. -/
  emitLogits : Option Bool

structure AFRequestWork where
  queries : ℕ
  offset : Int
  context : Int
  logitsRows : Int
  building : Bool

def requestWork (r : AFRequest) : Except String AFRequestWork :=
  let queries :=
    if r.needsRecompute then
      r.queryTokens.getD (r.stepTokens.getD (r.prefillComputeLen.getD r.prefillLen))
    else if r.scheduledQueryTokens ≠ 0 then r.scheduledQueryTokens
    else if r.scheduledTokens ≠ 0 then r.scheduledTokens
    else 1
  let offset :=
    if r.needsRecompute then r.numComputedTokens.getD (r.contextLen - queries)
    else max 0 (r.contextLen - queries)
  if 1 ≤ queries ∧ 0 ≤ offset ∧ offset + queries ≤ r.contextLen then
    match r.emitLogits with
    | none => .error "AF emit_logits must be a boolean"
    | some emitLogits =>
      let rows := if r.needsRecompute then (if offset + queries = r.contextLen then 1 else 0)
        else queries
      .ok ⟨queries.toNat, offset, offset + queries, if emitLogits then rows else 0,
        r.needsRecompute⟩
  else .error "AF scheduled queries must lie inside the request context"

/-- The loop of `requestBatches`. -/
def packRequests (tokenLimit : Int) : List AFRequest → List (List AFRequest) → List AFRequest →
    ℕ → Except String (List (List AFRequest))
  | [], batches, current, _ => .ok (if current = [] then batches else batches ++ [current])
  | r :: rest, batches, current, tokens => do
    let count := (← requestWork r).queries
    if tokenLimit < count then
      .error s!"AF request {r.id} needs {count} query tokens, exceeding the af_block_size={tokenLimit} workspace token budget; increase af_block_size or schedule a smaller query chunk"
    else if current ≠ [] ∧ tokenLimit < (tokens + count : ℕ) then
      packRequests tokenLimit rest (batches ++ [current]) [r] count
    else packRequests tokenLimit rest batches (current ++ [r]) (tokens + count)

/-- Pack whole requests within the activation budget of a block. -/
def requestBatches (requests : List AFRequest) (tokenLimit : Int) :
    Except String (List (List AFRequest)) := packRequests tokenLimit requests [] [] 0

/-! ## Greedy packing -/

/-- Batches that are opened after one with a load. -/
def opened (limit : Int) : ℕ → List ℕ → ℕ
  | _, [] => 0
  | load, count :: counts =>
    if limit < (load + count : ℕ) then opened limit count counts + 1
    else opened limit (load + count) counts

section

variable (limit : Int)

theorem opened_mono : ∀ (counts : List ℕ) {load load' : ℕ}, load ≤ load' →
    opened limit load counts ≤ opened limit load' counts ∧
      opened limit load' counts ≤ opened limit load counts + 1
  | [], _, _, _ => ⟨Nat.le_refl 0, Nat.zero_le _⟩
  | count :: counts, load, load', hle => by
    have hfresh := opened_mono counts (Nat.le_add_left count load)
    unfold opened
    split
    · rw [if_pos (by omega)]
      omega
    · split
      · omega
      · exact opened_mono counts (Nat.add_le_add_right hle count)

theorem opened_append (counts : List ℕ) : ∀ (batch : List ℕ) (load : ℕ),
    (load + batch.sum : ℕ) ≤ limit →
    opened limit load (batch ++ counts) = opened limit (load + batch.sum) counts
  | [], _, _ => rfl
  | c :: batch, load, hfits => by
    rw [sum_cons, ← add_assoc] at hfits ⊢
    rw [cons_append, opened, if_neg (by omega), opened_append counts batch _ hfits]

/-- Batches within the limit are at least as many as are opened for what they hold. -/
theorem opened_le : ∀ (batches : List (List ℕ)) (load : ℕ), (∀ b ∈ batches, b.sum ≤ limit) →
    opened limit load batches.flatten ≤ batches.length
  | [], _, _ => Nat.le_refl 0
  | b :: batches, load, hb => by
    obtain ⟨hfits, hb⟩ := forall_mem_cons.mp hb
    -- the batch at hand might as well be empty, for one more that is opened
    have hfresh := (opened_mono limit (b ++ batches.flatten) load.zero_le).2
    rw [opened_append limit _ b 0 (by simpa using hfits), zero_add] at hfresh
    have hrest := opened_le batches b.sum hb
    rw [flatten_cons, length_cons]
    omega

end

/-! ## The loop -/

/-- Query tokens of a request whose work is defined. -/
def queries (r : AFRequest) : ℕ :=
  match requestWork r with
  | .ok work => work.queries
  | .error _ => 0

def Within (tokenLimit : Int) (requests : List AFRequest) : Prop :=
  ∀ r ∈ requests, ∃ work, requestWork r = .ok work ∧ work.queries ≤ tokenLimit

/-- Consecutive batches within the limit. -/
structure Splits (tokenLimit : Int) (requests : List AFRequest) (batches : List (List AFRequest)) :
    Prop where
  flatten : batches.flatten = requests
  fits : ∀ b ∈ batches, (b.map queries).sum ≤ tokenLimit

variable {tokenLimit : Int} {r : AFRequest} {work : AFRequestWork}

theorem requestWork_pos (h : requestWork r = .ok work) : 1 ≤ work.queries := by
  unfold requestWork at h
  extract_lets queries offset at h
  by_cases hin : 1 ≤ queries ∧ 0 ≤ offset ∧ offset + queries ≤ r.contextLen
  · rw [if_pos hin] at h
    split at h
    · cases h
    · cases h
      have hpos := hin.1
      show 1 ≤ queries.toNat
      omega
  · rw [if_neg hin] at h
    cases h

/-- A request within the limit opens a batch if the one at hand has no room. -/
theorem packRequests_cons (hwork : requestWork r = .ok work) (hle : work.queries ≤ tokenLimit)
    (rest current : List AFRequest) (batches : List (List AFRequest)) (tokens : ℕ) :
    packRequests tokenLimit (r :: rest) batches current tokens =
      if current ≠ [] ∧ tokenLimit < (tokens + queries r : ℕ) then
        packRequests tokenLimit rest (batches ++ [current]) [r] (queries r)
      else packRequests tokenLimit rest batches (current ++ [r]) (tokens + queries r) := by
  have hcount : queries r = work.queries := by rw [queries, hwork]
  rw [packRequests, hwork, hcount]
  exact if_neg (Int.not_lt.mpr hle)

theorem packRequests_spec : ∀ (requests current : List AFRequest) (batches : List (List AFRequest)),
    Within tokenLimit requests → current ≠ [] → (current.map queries).sum ≤ tokenLimit → ∃ out,
    packRequests tokenLimit requests batches current (current.map queries).sum =
        .ok (batches ++ out) ∧
      Splits tokenLimit (current ++ requests) out ∧ (∀ b ∈ out, b ≠ []) ∧
      out.length = opened tokenLimit (current.map queries).sum (requests.map queries) + 1
  | [], current, batches, _, hcurrent, hfits => by
    refine ⟨[current], ?_, ⟨by simp, by simpa using hfits⟩, by simpa using hcurrent, rfl⟩
    rw [packRequests, if_neg hcurrent]
  | r :: rest, current, batches, hwithin, hcurrent, hfits => by
    obtain ⟨⟨work, hwork, hle⟩, hrest⟩ := forall_mem_cons.mp hwithin
    have hcount : queries r ≤ tokenLimit := by rwa [queries, hwork]
    rw [packRequests_cons hwork hle, map_cons, opened]
    by_cases hfull : tokenLimit < ((current.map queries).sum + queries r : ℕ)
    · obtain ⟨out, hout, hsplits, hne, hlen⟩ := packRequests_spec rest [r] (batches ++ [current])
        hrest (by simp) (by simpa using hcount)
      rw [map_singleton, sum_singleton] at hout hlen
      rw [if_pos ⟨hcurrent, hfull⟩, if_pos hfull, hout, append_assoc]
      refine ⟨current :: out, rfl, ⟨?_, forall_mem_cons.mpr ⟨hfits, hsplits.fits⟩⟩,
        forall_mem_cons.mpr ⟨hcurrent, hne⟩, congrArg (· + 1) hlen⟩
      rw [flatten_cons, hsplits.flatten, singleton_append]
    · rw [if_neg fun h => hfull h.2, if_neg hfull]
      simpa using packRequests_spec rest (current ++ [r]) batches hrest (by simp)
        (by simpa using Int.not_lt.mp hfull)

theorem packRequests_raises : ∀ {requests current : List AFRequest}
    {batches : List (List AFRequest)} {tokens : ℕ}, ¬ Within tokenLimit requests →
    ∃ e, packRequests tokenLimit requests batches current tokens = .error e
  | [], _, _, _, h => absurd (by simp [Within]) h
  | r :: rest, current, batches, tokens, h => by
    cases hwork : requestWork r with
    | error e =>
      rw [packRequests, hwork]
      exact ⟨e, rfl⟩
    | ok work =>
      by_cases hle : work.queries ≤ tokenLimit
      · have hrest : ¬ Within tokenLimit rest := fun hrest =>
          h (forall_mem_cons.mpr ⟨⟨work, hwork, hle⟩, hrest⟩)
        rw [packRequests_cons hwork hle]
        split
        · exact packRequests_raises hrest
        · exact packRequests_raises hrest
      · rw [packRequests, hwork]
        exact ⟨_, if_pos (Int.not_le.mp hle)⟩

/-- Requests within the limit are packed into consecutive batches that are not empty, and no
packing has fewer.  Others raise. -/
theorem requestBatches_fewest (requests : List AFRequest) (tokenLimit : Int) :
    (Within tokenLimit requests → ∃ batches, requestBatches requests tokenLimit = .ok batches ∧
      Splits tokenLimit requests batches ∧ (∀ b ∈ batches, b ≠ []) ∧
      ∀ other, Splits tokenLimit requests other → batches.length ≤ other.length) ∧
    (¬ Within tokenLimit requests → ∃ e, requestBatches requests tokenLimit = .error e) := by
  refine ⟨fun hwithin => ?_, packRequests_raises⟩
  cases requests with
  | nil => exact ⟨[], rfl, ⟨rfl, by simp⟩, by simp, fun _ _ => Nat.zero_le _⟩
  | cons r rest =>
    obtain ⟨⟨work, hwork, hle⟩, hrest⟩ := forall_mem_cons.mp hwithin
    have hcount : queries r = work.queries := by rw [queries, hwork]
    have hpos := requestWork_pos hwork
    rw [requestBatches, packRequests_cons hwork hle, if_neg (by simp)]
    obtain ⟨out, hout, hsplits, hne, hlen⟩ := packRequests_spec rest [r] [] hrest
      (by simp) (by simpa [hcount] using hle)
    refine ⟨out, by simpa using hout, hsplits, hne, fun other hother => ?_⟩
    -- a batch that is full has to be left for the first request
    have hopened := opened_le tokenLimit (other.map (map queries)) tokenLimit.toNat
      (by simpa using hother.fits)
    rw [← map_flatten, hother.flatten, map_cons, opened, if_pos (by omega), length_map] at hopened
    rw [map_singleton, sum_singleton] at hlen
    omega

end Af

end TokenSim
