import Mathlib.Algebra.Order.BigOperators.Group.List
import Mathlib.Data.Prod.Lex
import TokenSim.Moe.Balance

/-!
# Provided histograms

A request may bring the counts of its routes by expert.  A step that computes
another number of tokens scales them: the shares are rounded down, and what is
then missing is given to the largest remainders.

The missing routes are the sum of the remainders, each of which is below one.  The
remainders are taken in falling order, so that none that is zero is reached
(`take_pos`).
-/

namespace TokenSim

open List OrderedDict

open Except

/-- A histogram as a request brings it; `none` is a value that is not an integer. -/
inductive ProvidedHistogram where
  | absent
  | items (items : List (Option Int × Option Int))
  | experts (ids : List Int)
  | otherList
  | other

def invalidHistogram (requestId : Option Int) (detail : String) : String :=
  match requestId with
  | some id => s!"expert histogram for request {id} {detail}"
  | none => s!"expert histogram {detail}"

/-- The pairs that are read; a list of experts is counted first. -/
def ProvidedHistogram.pairs (requestId : Option Int) :
    ProvidedHistogram → Except String (List (Option Int × Option Int))
  | absent => .ok []
  | items l => .ok l
  | experts ids =>
    .ok ((Tally.addAll .empty (ids.map (·, 1))).entries.map fun e => (some e.1, some e.2))
  | otherList => .error (invalidHistogram requestId "must be a dict or [expert, count] list")
  | other => .error (invalidHistogram requestId "must be a dict or list")

def normalizeItems (numExperts : Nat) (requestId : Option Int) :
    List (Option Int × Option Int) → Histogram → Except String Histogram
  | [], h => .ok h
  | (some expert, some count) :: l, h =>
    if expert < 0 ∨ numExperts ≤ expert then
      .error (invalidHistogram requestId s!"expert id {expert} outside [0, {numExperts})")
    else if count < 0 then
      .error (invalidHistogram requestId "expert counts must be non-negative")
    else normalizeItems numExperts requestId l
      (if count = 0 then h else Tally.add h expert.toNat count)
  | _ :: _, _ => .error (invalidHistogram requestId "expert ids and counts must be integers")

def normalizeExpertHistogram (value : ProvidedHistogram) (numExperts : Nat)
    (requestId expectedRouteCount : Option Int) : Except String Histogram :=
  match value with
  | .absent => .ok .empty
  | value => do
    let histogram ← normalizeItems numExperts requestId (← value.pairs requestId) .empty
    match expectedRouteCount with
    | some expected =>
      if histogram.total ≠ expected then
        .error (invalidHistogram requestId
          s!"total routed count must equal {expected}; got {histogram.total}")
      else .ok histogram
    | none => .ok histogram

/-- `int` of a fraction. -/
def truncate (q : ℚ) : Int := q.num.tdiv q.den

/-- One more for each of the first experts. -/
def roundUp : List Nat → Int → Histogram → Histogram
  | [], _, scaled => scaled
  | expert :: experts, remainder, scaled =>
    if remainder ≤ 0 then scaled
    else roundUp experts (remainder - 1) (Tally.add scaled expert 1)

/-- The experts by falling remainder, and then by number. -/
def byRemainder (lost : Nat → ℚ) (experts : List Nat) : List Nat :=
  experts.insertionSort fun a b => toLex (-lost a, a) ≤ toLex (-lost b, b)

def scaledHistogram (histogram : Histogram) (share : ℚ) (targetCount : Int) : Histogram :=
  let raw : OrderedDict Nat ℚ := OrderedDict.map (fun count : Int => (count : ℚ) * share) histogram
  let scaled : Histogram := raw.map truncate
  let order := byRemainder (fun e => (raw.get? e).getD 0 - scaled.count e) raw.keys
  let scaled := roundUp order (targetCount - scaled.total) scaled
  OrderedDict.filter (fun count => 0 < count) scaled

def RoutedRequest.sourceTokens (r : RoutedRequest) (phase : RoutingPhase) : Int :=
  if phase = .prefill then r.prefillComputeLen else 1

def normalizeStepHistogram (config : MoEModelConfig) (r : RoutedRequest) (requestId : Int)
    (phase : RoutingPhase) (provided : ProvidedHistogram) (tokenCount : Int) :
    Except String Histogram := do
  let sourceTokens := r.sourceTokens phase
  let histogram ← normalizeExpertHistogram provided config.numExperts (some requestId)
    (some (sourceTokens * config.numExpertsPerTok))
  if tokenCount ≠ sourceTokens then
    .ok (scaledHistogram histogram (tokenCount / (max 1 sourceTokens : Int))
      (tokenCount * config.numExpertsPerTok))
  else .ok histogram

/-! ## Largest remainders -/

section Remainders

variable {α : Type} {f : α → ℚ} {l : List α} {n : Nat}

/-- Remainders in falling order that sum up to a whole number: as many as that are
positive. -/
theorem take_pos (hf : ∀ a, 0 ≤ f a ∧ f a < 1) : ∀ {l : List α} {n : Nat},
    l.Pairwise (fun a b => f b ≤ f a) → (n : ℚ) ≤ (l.map f).sum →
    n ≤ l.length ∧ ∀ a ∈ l.take n, 0 < f a
  | _, 0, _, _ => ⟨Nat.zero_le _, fun _ h => by simp at h⟩
  | [], n + 1, _, hsum => by
    rw [map_nil, sum_nil] at hsum
    exact absurd hsum (not_le.mpr (Nat.cast_pos.mpr n.succ_pos))
  | a :: l, n + 1, hsorted, hsum => by
    obtain ⟨hhead, hsorted⟩ := pairwise_cons.mp hsorted
    rw [map_cons, sum_cons, Nat.cast_succ] at hsum
    obtain ⟨hlength, hpos⟩ := take_pos hf (n := n) hsorted (by linarith [(hf a).2])
    refine ⟨Nat.succ_le_succ hlength, ?_⟩
    rw [take_succ_cons]
    intro b hb
    rcases mem_cons.mp hb with rfl | hb
    · -- were the largest remainder zero, all of them were
      refine lt_of_le_of_ne (hf b).1 fun hzero => ?_
      have hrest : (l.map f).sum ≤ 0 := by
        refine (sum_le_card_nsmul _ 0 fun q hq => ?_).trans_eq (nsmul_zero _)
        obtain ⟨c, hc, rfl⟩ := mem_map.mp hq
        exact hzero ▸ hhead c hc
      have hn : (0 : ℚ) ≤ n := Nat.cast_nonneg n
      linarith
    · exact hpos b hb

end Remainders

namespace Histogram

variable {h h' : Histogram} {e : Nat}

theorem total_of_count {k : Nat} {n : Int}
    (hcount : ∀ e, h'.count e = h.count e + if k = e then n else 0) : h'.total = h.total + n := by
  obtain ⟨bound, hbound⟩ := Finset.exists_nat_subset_range (k :: h.keys ++ h'.keys).toFinset
  have hlt : ∀ e ∈ k :: h.keys ++ h'.keys, e < bound := fun e he =>
    Finset.mem_range.mp (hbound (mem_toFinset.mpr he))
  rw [total_eq_sum (n := bound) fun e he => hlt e (mem_append_right _ he),
    total_eq_sum (n := bound) fun e he =>
      hlt e (mem_append_left _ (mem_cons_of_mem _ he)),
    Finset.sum_congr rfl fun e _ => hcount e, Finset.sum_add_distrib, Finset.sum_ite_eq,
    if_pos (Finset.mem_range.mpr (hlt k mem_cons_self))]

theorem count_of_mem {c : Int} (hmem : (e, c) ∈ h.entries) : h.count e = c := by
  unfold count Tally.amount
  rw [get?_eq_some_iff.mpr hmem]
  rfl

theorem total_eq_keys (h : Histogram) : h.total = (h.keys.map h.count).sum := by
  unfold total OrderedDict.keys OrderedDict.values Entries.keys
  rw [map_map]
  refine congrArg List.sum (map_congr_left fun e he => ?_)
  exact (count_of_mem he).symm

theorem count_eq_zero (he : e ∉ h.keys) : h.count e = 0 := by
  unfold count Tally.amount
  rw [get?_eq_none.mpr he]
  rfl

end Histogram

/-! ## What a provided histogram becomes -/

theorem normalizeItems_nonneg {numExperts : Nat} {requestId : Option Int} :
    ∀ {l : List (Option Int × Option Int)} {h h' : Histogram},
    normalizeItems numExperts requestId l h = .ok h' → (∀ e, 0 ≤ h.count e) → ∀ e, 0 ≤ h'.count e
  | [], _, _, hok, hpos => by
    cases hok
    exact hpos
  | (some expert, some count) :: l, h, h', hok, hpos => by
    rw [normalizeItems] at hok
    split at hok
    · cases hok
    · split at hok
      · cases hok
      · next hcount =>
        refine normalizeItems_nonneg hok fun e => ?_
        split
        · exact hpos e
        · have he : 0 ≤ Tally.amount h e := hpos e
          rw [Histogram.count, Tally.amount_add]
          split <;> omega
  | (none, _) :: _, _, _, hok, _ => by cases hok
  | (some _, none) :: _, _, _, hok, _ => by cases hok

theorem normalizeExpertHistogram_spec {provided : ProvidedHistogram} {numExperts : Nat}
    {requestId : Option Int} {h : Histogram}
    (hok : normalizeExpertHistogram provided numExperts requestId none = .ok h) :
    normalizeExpertHistogram provided numExperts requestId (some h.total) = .ok h ∧
    ∀ e, 0 ≤ h.count e := by
  unfold normalizeExpertHistogram at hok ⊢
  cases provided with
  | absent =>
    cases hok
    exact ⟨rfl, fun _ => Int.le_refl 0⟩
  | items | experts | otherList | other =>
    obtain ⟨items, hitems, hok⟩ := bind_eq_ok.mp hok
    obtain ⟨h', hnorm, hok⟩ := bind_eq_ok.mp hok
    cases hok
    refine ⟨?_, normalizeItems_nonneg hnorm fun _ => Int.le_refl 0⟩
    exact bind_eq_ok.mpr ⟨items, hitems, bind_eq_ok.mpr ⟨h, hnorm, if_neg (not_not.mpr rfl)⟩⟩

section Scaling

variable {h : Histogram} {share : ℚ} {order : List Nat}

theorem truncate_of_nonneg {q : ℚ} (hq : 0 ≤ q) : truncate q = ⌊q⌋ := by
  rw [Rat.floor_def', truncate, Int.tdiv_eq_ediv_of_nonneg (Rat.num_nonneg.mpr hq)]

theorem roundUp_spec : ∀ {order : List Nat} {n : Nat} {h : Histogram}, order.Nodup →
    (∀ e, (roundUp order n h).count e = h.count e + if e ∈ order.take n then 1 else 0) ∧
    (n ≤ order.length → (roundUp order n h).total = h.total + n)
  | order, 0, h, _ => by
    have hself : roundUp order ((0 : Nat) : Int) h = h := by
      cases order with
      | nil => rfl
      | cons a order => exact if_pos (Int.le_refl 0)
    rw [hself]
    simp
  | [], n + 1, h, _ => ⟨fun e => by simp [roundUp], fun hn => absurd hn (Nat.not_succ_le_zero n)⟩
  | a :: order, n + 1, h, hnodup => by
    obtain ⟨ha, hnodup⟩ := nodup_cons.mp hnodup
    have hstep : roundUp (a :: order) ((n + 1 : Nat) : Int) h =
        roundUp order (n : Int) (Tally.add h a 1) := by
      rw [roundUp, if_neg (by omega), Nat.cast_succ, Int.add_sub_cancel]
    have hadd : ∀ e, Histogram.count (Tally.add h a 1) e = h.count e + if a = e then 1 else 0 :=
      fun e => Tally.amount_add ..
    obtain ⟨hcount, htotal⟩ := roundUp_spec (n := n) (h := Tally.add h a 1) hnodup
    rw [hstep]
    constructor
    · intro e
      rw [hcount, hadd, take_succ_cons]
      by_cases he : a = e
      · subst he
        have hnot : a ∉ order.take n := fun hm => ha (mem_of_mem_take hm)
        simp [hnot]
      · simp [he, Ne.symm he]
    · intro hn
      rw [htotal (Nat.le_of_succ_le_succ hn), Histogram.total_of_count hadd]
      push_cast
      omega

theorem byRemainder_sorted (lost : Nat → ℚ) (experts : List Nat) :
    (byRemainder lost experts).Pairwise fun a b =>
      lost b < lost a ∨ lost a = lost b ∧ a ≤ b := by
  have htotal : Std.Total fun a b : Nat => toLex (-lost a, a) ≤ toLex (-lost b, b) :=
    ⟨fun _ _ => le_total _ _⟩
  have htrans : IsTrans Nat fun a b => toLex (-lost a, a) ≤ toLex (-lost b, b) :=
    ⟨fun _ _ _ => le_trans⟩
  refine (pairwise_insertionSort _ experts).imp fun {a b} hab => ?_
  simpa [Prod.Lex.toLex_le_toLex] using hab

/-- What an expert loses when its share is rounded down. -/
def lost (h : Histogram) (share : ℚ) (e : Nat) : ℚ := Int.fract (h.count e * share)

theorem sum_lost (h : Histogram) (share : ℚ) :
    (h.keys.map (lost h share)).sum =
      h.total * share - (h.keys.map fun e => ⌊h.count e * share⌋).sum := by
  rw [Histogram.total_eq_keys]
  induction h.keys with
  | nil => simp
  | cons e l ih =>
    rw [map_cons, sum_cons, ih, map_cons, sum_cons, map_cons,
      sum_cons, Int.cast_add, Int.cast_add, lost, Int.fract]
    ring

theorem count_filter (hpos : ∀ e, 0 ≤ h.count e) (e : Nat) :
    Histogram.count (OrderedDict.filter (fun count => 0 < count) h) e = h.count e := by
  have he := hpos e
  unfold Histogram.count Tally.amount at he ⊢
  rw [OrderedDict.get?_filter]
  cases hget : OrderedDict.get? h e with
  | none => rfl
  | some c =>
    rw [hget] at he
    rw [Option.filter_some]
    by_cases hc : 0 < c
    · rw [if_pos (decide_eq_true hc)]
    · rw [if_neg (by simpa using hc)]
      exact Int.le_antisymm he (Int.not_lt.mp hc)

/-- Shares are rounded to whole routes, the largest remainders upwards. -/
structure Apportioned (share : Nat → ℚ) (result : Histogram) : Prop where
  rounded : ∀ e, result.count e = ⌊share e⌋ ∨ result.count e = ⌈share e⌉
  largestFirst : ∀ a b, result.count a = ⌊share a⌋ → result.count b ≠ ⌊share b⌋ →
    Int.fract (share a) < Int.fract (share b) ∨
      Int.fract (share a) = Int.fract (share b) ∧ b < a

/-- Experts in falling order of their remainders, of which the first are rounded up. -/
structure Rounded (h : Histogram) (share : ℚ) (result : Histogram) (order : List Nat) (n : Nat) :
    Prop where
  perm : order.Perm h.keys
  sorted : order.Pairwise fun a b =>
    lost h share b < lost h share a ∨ lost h share a = lost h share b ∧ a ≤ b
  taken : ∀ e ∈ order.take n, 0 < lost h share e
  count : ∀ e, result.count e = ⌊h.count e * share⌋ + if e ∈ order.take n then 1 else 0

theorem scaledHistogram_rounded (hpos : ∀ e, 0 ≤ h.count e) (hshare : 0 ≤ share) (target : Int)
    (htarget : (target : ℚ) = h.total * share) :
    (∃ order n, Rounded h share (scaledHistogram h share target) order n) ∧
    (scaledHistogram h share target).total = target ∧
    ∀ e c, (scaledHistogram h share target).get? e = some c → 0 < c := by
  have hnonneg : ∀ e, 0 ≤ h.count e * share := fun e =>
    mul_nonneg (Int.cast_nonneg (hpos e)) hshare
  let raw : OrderedDict Nat ℚ := OrderedDict.map (fun count : Int => (count : ℚ) * share) h
  let scaled : Histogram := raw.map truncate
  have hraw : ∀ e, (raw.get? e).getD 0 = h.count e * share := by
    intro e
    unfold Histogram.count Tally.amount
    rw [get?_map]
    cases OrderedDict.get? h e <;> simp
  have hscaled : ∀ e, scaled.count e = ⌊h.count e * share⌋ := by
    intro e
    rw [← truncate_of_nonneg (hnonneg e), ← hraw]
    unfold Histogram.count Tally.amount
    rw [get?_map]
    cases raw.get? e <;> rfl
  have hkeys : scaled.keys = h.keys := (keys_map ..).trans (keys_map ..)
  have hlost : (fun e => (raw.get? e).getD 0 - scaled.count e) = lost h share :=
    funext fun e => by rw [hraw, hscaled]; rfl
  -- what is missing is the sum of the remainders
  have hmissing : ((target - scaled.total : Int) : ℚ) = (h.keys.map (lost h share)).sum := by
    rw [sum_lost, ← htarget, Int.cast_sub, Histogram.total_eq_keys scaled, hkeys, funext hscaled]
  obtain ⟨n, hn⟩ := Int.eq_ofNat_of_zero_le (show 0 ≤ target - scaled.total by
    rw [← Int.cast_nonneg_iff (R := ℚ), hmissing]
    refine sum_nonneg fun q hq => ?_
    obtain ⟨e, -, rfl⟩ := mem_map.mp hq
    exact Int.fract_nonneg _)
  let order := byRemainder (lost h share) h.keys
  have hperm : order.Perm h.keys := perm_insertionSort ..
  have hsorted := byRemainder_sorted (lost h share) h.keys
  obtain ⟨hlength, htaken⟩ := take_pos (f := lost h share) (n := n)
    (fun e => ⟨Int.fract_nonneg _, Int.fract_lt_one _⟩)
    (hsorted.imp fun {a b} hab => hab.elim le_of_lt fun heq => heq.1.ge)
    (by rw [(hperm.map _).sum_eq, ← hmissing, hn]; exact le_refl _)
  obtain ⟨hcount, htotal⟩ := roundUp_spec (n := n) (h := scaled) (hperm.nodup_iff.mpr h.nodup)
  have hresult : scaledHistogram h share target =
      OrderedDict.filter (fun count => 0 < count) (roundUp order n scaled) := by
    unfold scaledHistogram
    dsimp only
    rw [hlost, hn, OrderedDict.keys_map]
  have hpos' : ∀ e, 0 ≤ (roundUp order n scaled).count e := by
    intro e
    rw [hcount, hscaled]
    have := Int.floor_nonneg.mpr (hnonneg e)
    split <;> omega
  have hfinal : ∀ e, (scaledHistogram h share target).count e =
      ⌊h.count e * share⌋ + if e ∈ order.take n then 1 else 0 := by
    intro e
    rw [hresult, count_filter hpos', hcount, hscaled]
  refine ⟨⟨order, n, hperm, hsorted, htaken, hfinal⟩, ?_, ?_⟩
  · rw [Histogram.total_of_count (h := roundUp order n scaled) (k := 0) (n := 0) (by
      intro e
      rw [hfinal, hcount, hscaled]
      simp), htotal hlength]
    omega
  · intro e c hc
    rw [hresult, OrderedDict.get?_filter, Option.filter_eq_some_iff] at hc
    exact of_decide_eq_true hc.2

namespace Rounded

variable {result : Histogram} {order : List Nat} {n e : Nat}

theorem count_of_not_mem (hr : Rounded h share result order n) (he : e ∉ h.keys) :
    result.count e = 0 := by
  rw [hr.count, Histogram.count_eq_zero he,
    if_neg fun hm => he (hr.perm.mem_iff.mp (mem_of_mem_take hm))]
  simp

theorem apportioned (hr : Rounded h share result order n) :
    Apportioned (fun e => h.count e * share) result := by
  constructor
  · intro e
    rw [hr.count]
    split
    · next he =>
      right
      have hfract := hr.taken e he
      rw [lost, ← Int.self_sub_floor] at hfract
      refine (Int.ceil_eq_iff.mpr ⟨?_, ?_⟩).symm
      · push_cast
        linarith
      · push_cast
        exact (Int.lt_floor_add_one _).le
    · exact .inl (Int.add_zero _)
  · intro a b ha hb
    rw [hr.count] at ha hb
    have hna : a ∉ order.take n := fun hm => by rw [if_pos hm] at ha; omega
    have hmb : b ∈ order.take n := by
      by_contra hm
      exact hb (by rw [if_neg hm, Int.add_zero])
    by_cases hka : a ∈ h.keys
    · have hsplit := hr.sorted
      have horder := hr.perm.mem_iff.mpr hka
      rw [← take_append_drop n order] at hsplit horder
      have hda : a ∈ order.drop n := (mem_append.mp horder).resolve_left hna
      rcases (pairwise_append.mp hsplit).2.2 b hmb a hda with hlt | ⟨heq, hle⟩
      · exact .inl hlt
      · exact .inr ⟨heq.symm, lt_of_le_of_ne hle fun hba => hna (hba ▸ hmb)⟩
    · left
      rw [Histogram.count_eq_zero hka, Int.cast_zero, zero_mul, Int.fract_zero]
      exact hr.taken b hmb

end Rounded

end Scaling

/-- A provided histogram whose counts are as many as the source tokens have routes.  A
step of any number of tokens is given a histogram with as many counts as the step has
routes, of experts that were provided, each share rounded. -/
theorem normalizeStepHistogram_apportioned (config : MoEModelConfig) (r : RoutedRequest)
    (requestId : Int) (phase : RoutingPhase) (hsource : 1 ≤ r.sourceTokens phase)
    (provided : ProvidedHistogram) (h : Histogram)
    (hprovided : normalizeExpertHistogram provided config.numExperts (some requestId) none = .ok h)
    (htotal : h.total = r.sourceTokens phase * config.numExpertsPerTok) (tokenCount : Nat) :
    ∃ result, normalizeStepHistogram config r requestId phase provided tokenCount = .ok result ∧
      result.total = tokenCount * config.numExpertsPerTok ∧
      (∀ e ∈ result.keys, e ∈ h.keys) ∧
      Apportioned (fun e => h.count e * (tokenCount / r.sourceTokens phase)) result := by
  obtain ⟨hok, hpos⟩ := normalizeExpertHistogram_spec hprovided
  rw [htotal] at hok
  have hzero : (r.sourceTokens phase : ℚ) ≠ 0 := Int.cast_ne_zero.mpr (by omega)
  unfold normalizeStepHistogram
  dsimp only
  rw [hok]
  show ∃ result, (if (tokenCount : Int) ≠ r.sourceTokens phase then _ else _) = _ ∧ _
  by_cases hsame : (tokenCount : Int) = r.sourceTokens phase
  · rw [if_neg (not_not.mpr hsame)]
    refine ⟨h, rfl, hsame ▸ htotal, fun _ he => he, ?_⟩
    have hone : (tokenCount : ℚ) / r.sourceTokens phase = 1 := by
      rw [← hsame, Int.cast_natCast] at hzero ⊢
      exact div_self hzero
    rw [hone]
    exact ⟨fun e => .inl (by rw [mul_one, Int.floor_intCast]),
      fun a b _ hb => absurd (by rw [mul_one, Int.floor_intCast]) hb⟩
  · rw [if_pos hsame, max_eq_right hsource, Int.cast_natCast]
    have hshare : (0 : ℚ) ≤ tokenCount / r.sourceTokens phase :=
      div_nonneg (Nat.cast_nonneg _) (Int.cast_nonneg (by omega))
    obtain ⟨⟨order, n, hr⟩, htotal', hcounts⟩ := scaledHistogram_rounded hpos hshare
      (tokenCount * config.numExpertsPerTok) (by
        rw [htotal]
        push_cast
        field_simp)
    refine ⟨_, rfl, htotal', fun e he => ?_, hr.apportioned⟩
    by_contra hnot
    obtain ⟨c, hc⟩ := mem_keys_iff.mp he
    have hcount := hr.count_of_not_mem hnot
    rw [Histogram.count_of_mem (get?_eq_some_iff.mp hc)] at hcount
    exact absurd hcount (hcounts e c hc).ne'

/-- Half of a prefill: its shares are a half, one and a half, and one. -/
theorem normalizeStepHistogram_apportioned_half :
    let config : MoEModelConfig := ⟨true, 8, 1, 1, fun _ => by decide⟩
    let r : RoutedRequest := { isPrefill := true, prefillComputeLen := 6 }
    let h : Histogram := .update .empty [(5, 1), (2, 3), (7, 2)]
    r.sourceTokens .prefill = 6 ∧ h.total = 6 ∧ ∃ result,
      normalizeStepHistogram config r 0 .prefill
        (.items [(some 5, some 1), (some 2, some 3), (some 7, some 2)]) 3 = .ok result ∧
      result.total = 3 ∧ (∀ e ∈ result.keys, e ∈ h.keys) ∧
      Apportioned (fun e => h.count e * (3 / 6)) result := by
  intro config r h
  refine ⟨rfl, rfl, ?_⟩
  exact normalizeStepHistogram_apportioned config r 0 .prefill (by decide) _ h rfl rfl 3

end TokenSim
