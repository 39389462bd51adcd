import Mathlib.Algebra.BigOperators.Fin
import TokenSim.Lib.Cycle
import TokenSim.Lib.Raising
import TokenSim.Moe.Routing

/-!
# Uniform routing is balanced

The cursor of a router walks around the order of the experts, and every route is
one step of it.  A histogram counts the visits of the cursor to each position
(`count_uniformHistogram`), and because the cursor goes on where the step before
ended, so do the counts of a whole sequence of steps (`run_spec`).  No expert is
then more than one route ahead of another.

If all ranks hold equally many experts, the order takes one expert of each rank in
turn.  The routes of a rank are the visits of the same cursor to one position of a
cycle of ranks (`sum_rank`).

The memo holds what would be computed (`MemoValid`).
-/

namespace TokenSim

open List OrderedDict

namespace Histogram

theorem total_eq_sum {h : Histogram} {n : Nat} (hkeys : ∀ e ∈ h.keys, e < n) :
    h.total = ∑ e ∈ Finset.range n, h.count e := by
  have hentry : ∀ e ∈ h.entries, e.2 = h.count e.1 := fun e he => by
    have hget : h.get? e.1 = some e.2 := get?_eq_some_iff.mpr he
    rw [count, Tally.amount, hget]
    rfl
  calc h.total = (h.entries.map fun e => h.count e.1).sum := by
        rw [total, OrderedDict.values, map_congr_left hentry]
    _ = (h.keys.map h.count).sum := by
        rw [OrderedDict.keys, Entries.keys, map_map]
        rfl
    _ = ∑ e ∈ h.keys.toFinset, h.count e := (sum_toFinset _ h.keys_nodup).symm
    _ = ∑ e ∈ Finset.range n, h.count e := by
        refine Finset.sum_subset (fun e he => ?_) fun e _ hnot => ?_
        · exact Finset.mem_range.mpr (hkeys e (mem_toFinset.mp he))
        · have hnone : h.get? e = none :=
            get?_eq_none.mpr fun he => hnot (mem_toFinset.mpr he)
          rw [count, Tally.amount, hnone]
          rfl

theorem count_addAll_empty (h : Histogram) (e : Nat) :
    count (Tally.addAll .empty h.entries) e = h.count e := by
  rw [count, Tally.amount_addAll, Tally.postings_entries, Tally.amount_empty, Int.zero_add]
  rfl

end Histogram

theorem get?_update_const {α β : Type} [DecidableEq α] (v : β) (k : α) : ∀ (l : List α)
    (d : OrderedDict α β),
    (d.update (l.map fun e => (e, v))).get? k = if k ∈ l then some v else d.get? k
  | [], d => by simp
  | e :: l, d => by
    rw [map_cons, update_cons, get?_update_const v k l, get?_set]
    by_cases hl : k ∈ l
    · simp [hl]
    · by_cases he : k = e <;> simp [hl, he]

namespace ExpertRouting

variable {x : ExpertRouting} {s s' : RoutingState} {e p : Nat}

/-! ## The order of the experts -/

theorem length_expertOrder (x : ExpertRouting) : x.expertOrder.length = x.moeConfig.numExperts := by
  rw [x.covers.length_eq, length_range]

theorem nodup_expertOrder (x : ExpertRouting) : x.expertOrder.Nodup :=
  x.covers.nodup_iff.mpr nodup_range

theorem mem_expertOrder : e ∈ x.expertOrder ↔ e < x.moeConfig.numExperts := by
  rw [x.covers.mem_iff, mem_range]

theorem exists_position (he : e < x.moeConfig.numExperts) :
    ∃ p < x.moeConfig.numExperts, x.expertOrder[p]? = some e := by
  obtain ⟨p, hp, hget⟩ := mem_iff_getElem.mp (mem_expertOrder.mpr he)
  rw [← length_expertOrder]
  exact ⟨p, hp, List.getElem?_eq_some_iff.mpr ⟨hp, hget⟩⟩

theorem position_unique {q : Nat} (hp : x.expertOrder[p]? = some e)
    (hq : x.expertOrder[q]? = some e) : p = q := by
  obtain ⟨hlp, hp⟩ := List.getElem?_eq_some_iff.mp hp
  obtain ⟨hlq, hq⟩ := List.getElem?_eq_some_iff.mp hq
  exact x.nodup_expertOrder.getElem_inj_iff.mp (hp.trans hq.symm)

theorem sum_experts {f g : Nat → Int}
    (h : ∀ p e, x.expertOrder[p]? = some e → f e = g p) :
    ∑ e ∈ Finset.range x.moeConfig.numExperts, f e =
      ∑ p ∈ Finset.range x.moeConfig.numExperts, g p := by
  calc ∑ e ∈ Finset.range x.moeConfig.numExperts, f e
      = ((List.range x.moeConfig.numExperts).map f).sum := rfl
    _ = (x.expertOrder.map f).sum := ((x.covers.map f).sum_eq).symm
    _ = ∑ i : Fin x.expertOrder.length, f x.expertOrder[i] :=
        (Fin.sum_univ_fun_getElem ..).symm
    _ = ∑ i : Fin x.expertOrder.length, g i := by
        refine Finset.sum_congr rfl fun i _ => h i _ ?_
        exact getElem?_eq_getElem i.isLt
    _ = ∑ p ∈ Finset.range x.moeConfig.numExperts, g p := by
        rw [← length_expertOrder, Finset.sum_range]

/-! ## One histogram -/

/-- A uniform histogram counts how often the cursor visits each expert. -/
theorem count_uniformHistogram (hp : x.expertOrder[p]? = some e) (routeCount offset : Nat) :
    (x.uniformHistogram routeCount offset).count e =
      visits x.moeConfig.numExperts offset routeCount p := by
  have hlt : p < x.moeConfig.numExperts := by
    rw [← length_expertOrder]
    exact (List.getElem?_eq_some_iff.mp hp).1
  -- the partial round reaches the expert when the cursor stands at its position
  have hpartial : e ∈ (List.range (routeCount % x.moeConfig.numExperts)).filterMap (fun index =>
      x.expertOrder[(offset + index) % x.moeConfig.numExperts]?) ↔
      ∃ k < routeCount % x.moeConfig.numExperts, (offset + k) % x.moeConfig.numExperts = p := by
    simp only [mem_filterMap, mem_range]
    refine exists_congr fun k => and_congr_right fun _ => ⟨fun h => position_unique h hp, ?_⟩
    rintro rfl
    exact hp
  rw [visits_eq hlt, Histogram.count, Tally.amount, uniformHistogram]
  rw [get?_update_const, if_congr hpartial rfl rfl]
  split
  · simp
  · by_cases hbase : routeCount / x.moeConfig.numExperts = 0
    · simp [hbase]
    · rw [if_pos hbase, get?_update_const, if_pos (mem_of_getElem? hp)]
      simp

theorem keys_uniformHistogram {routeCount offset : Nat}
    (he : e ∈ (x.uniformHistogram routeCount offset).keys) : e < x.moeConfig.numExperts := by
  obtain ⟨v, hv⟩ := mem_keys_iff.mp he
  rw [uniformHistogram] at hv
  rw [get?_update_const] at hv
  rw [← mem_expertOrder]
  split at hv
  · next hmem =>
    obtain ⟨index, -, hget⟩ := mem_filterMap.mp hmem
    exact mem_of_getElem? hget
  · split at hv
    · rw [get?_update_const] at hv
      split at hv
      · assumption
      · cases hv
    · cases hv

/-! ## The memo -/

/-- The memo holds what would be computed. -/
def MemoValid (x : ExpertRouting) (s : RoutingState) : Prop :=
  ∀ routeCount offset h, s.syntheticCache.get? (routeCount, offset) = some h →
    h = x.freshHistogram routeCount offset

/-- The histogram of a number of tokens without a memo. -/
def recomputed (x : ExpertRouting) (tokenCount : Int) (offset : Nat) : Histogram :=
  let routeCount := tokenCount.toNat * x.moeConfig.numExpertsPerTok
  if routeCount = 0 then .empty
  else x.freshHistogram routeCount
    (if x.routingConfig.distribution = .uniform then offset % x.moeConfig.numExperts else 0)

/-- The memo changes no result, stays valid, and the cursor stays. -/
theorem syntheticHistogram_spec (h : MemoValid x s) (tokenCount : Int) (offset : Nat) :
    (x.syntheticHistogram s tokenCount offset).1 = x.recomputed tokenCount offset ∧
    MemoValid x (x.syntheticHistogram s tokenCount offset).2 ∧
    (x.syntheticHistogram s tokenCount offset).2.routeCursor = s.routeCursor := by
  unfold syntheticHistogram recomputed
  dsimp only
  split
  · exact ⟨rfl, h, rfl⟩
  · generalize (if x.routingConfig.distribution = .uniform then offset % x.moeConfig.numExperts
      else 0) = start
    generalize tokenCount.toNat * x.moeConfig.numExpertsPerTok = routes
    cases hget : s.syntheticCache.get? (routes, start) with
    | some cached => exact ⟨h _ _ _ hget, h, rfl⟩
    | none =>
      refine ⟨rfl, fun routeCount offset' h' hget' => ?_, rfl⟩
      dsimp only [boundedSet] at hget'
      rw [get?_set] at hget'
      split at hget'
      · next hkey =>
        obtain ⟨rfl, rfl⟩ := Prod.mk.inj hkey
        exact (Option.some.inj hget').symm
      · split at hget'
        · cases hget'
        · exact h _ _ _ hget'

/-! ## Steps and runs -/

/-- The routes of a step. -/
def routes (x : ExpertRouting) (step : RoutingStep) : Nat :=
  x.routedTokens step * x.moeConfig.numExpertsPerTok

/-- The routes of a sequence of steps. -/
def routesOf (x : ExpertRouting) (steps : List RoutingStep) : Nat := (steps.map x.routes).sum

/-- What a step returns and leaves behind. -/
structure Stepped (x : ExpertRouting) (s : RoutingState) (routes : Nat) (h : Histogram)
    (s' : RoutingState) : Prop where
  memo : MemoValid x s'
  cursor : s'.routeCursor % x.moeConfig.numExperts =
    (s.routeCursor + routes) % x.moeConfig.numExperts
  total : h.total = routes
  count : ∀ p e, x.expertOrder[p]? = some e →
    h.count e = visits x.moeConfig.numExperts s.routeCursor routes p

theorem Stepped.idle (h : MemoValid x s) : Stepped x s 0 .empty s :=
  ⟨h, rfl, rfl, fun _ _ _ => rfl⟩

theorem histogramForStep_spec (hu : x.routingConfig.distribution = .uniform) (h : MemoValid x s)
    (step : RoutingStep) :
    Stepped x s (x.routes step) (x.histogramForStep s step).1 (x.histogramForStep s step).2 := by
  unfold histogramForStep routes routedTokens
  by_cases hidle : x.moeConfig.enabled = false ∨ step.requests = []
  · rw [if_pos hidle]
    have hzero : (if x.moeConfig.enabled then step.tokenCount else 0) = 0 := by
      rcases hidle with hoff | hnil
      · rw [hoff]
        rfl
      · rw [RoutingStep.tokenCount, hnil]
        exact ite_self _
    rw [hzero, zero_mul]
    exact .idle h
  · obtain ⟨hon, -⟩ := not_or.mp hidle
    rw [if_neg hidle, if_pos (Bool.eq_true_of_not_eq_false hon)]
    by_cases htokens : step.tokenCount = 0
    · rw [if_pos htokens, htokens, zero_mul]
      exact .idle h
    rw [if_neg htokens]
    have hpos := MoEModelConfig.pos_of_enabled (Bool.eq_true_of_not_eq_false hon)
    obtain ⟨hresult, hmemo, hcursor⟩ := syntheticHistogram_spec h step.tokenCount s.routeCursor
    generalize x.syntheticHistogram s step.tokenCount s.routeCursor = out at hresult hmemo hcursor
    obtain ⟨histogram, s₁⟩ := out
    dsimp only at hresult hmemo hcursor ⊢
    have hcount : ∀ p e, x.expertOrder[p]? = some e →
        Histogram.count (Tally.addAll .empty histogram.entries) e =
          visits x.moeConfig.numExperts s.routeCursor
            (step.tokenCount * x.moeConfig.numExpertsPerTok) p := by
      intro p e hp
      rw [Histogram.count_addAll_empty, hresult, recomputed, Int.toNat_natCast]
      split
      · next hzero =>
        rw [hzero]
        rfl
      · rw [freshHistogram, hu]
        dsimp only
        exact (count_uniformHistogram hp ..).trans (congrArg _ (visits_mod ..))
    have hkeys : ∀ e ∈ (Tally.addAll .empty histogram.entries).keys, e < x.moeConfig.numExperts := by
      intro e he
      rw [Tally.mem_keys_addAll] at he
      have he := he.resolve_left not_mem_nil
      change e ∈ histogram.keys at he
      rw [hresult, recomputed] at he
      split at he
      · exact nomatch he
      · rw [freshHistogram, hu] at he
        exact keys_uniformHistogram he
    refine ⟨hmemo, ?_, ?_, hcount⟩
    · dsimp only
      rw [hcursor, Nat.mod_mod]
    · rw [Histogram.total_eq_sum hkeys, sum_experts hcount, ← Nat.cast_sum, sum_visits hpos]

/-- The counts of an expert over several histograms. -/
def accumulated (histograms : List Histogram) (e : Nat) : Int :=
  (histograms.map fun h => h.count e).sum

theorem run_cons (s : RoutingState) (step : RoutingStep) (steps : List RoutingStep) :
    x.run s (step :: steps) = ((x.histogramForStep s step).1 ::
      (x.run (x.histogramForStep s step).2 steps).1,
      (x.run (x.histogramForStep s step).2 steps).2) := rfl

/-- What a sequence of steps returns and leaves behind: the histograms count one
walk of the cursor. -/
theorem run_spec (hu : x.routingConfig.distribution = .uniform) : ∀ (steps : List RoutingStep)
    {s : RoutingState}, MemoValid x s →
    MemoValid x (x.run s steps).2 ∧
    ((x.run s steps).1.map Histogram.total).sum = x.routesOf steps ∧
    ∀ p e, x.expertOrder[p]? = some e →
      accumulated (x.run s steps).1 e =
        visits x.moeConfig.numExperts s.routeCursor (x.routesOf steps) p
  | [], s, h => ⟨h, rfl, fun _ _ _ => rfl⟩
  | step :: steps, s, h => by
    have hstep := histogramForStep_spec hu h step
    have hroutes : x.routesOf (step :: steps) = x.routes step + x.routesOf steps := sum_cons
    obtain ⟨hmemo, htotal, hcount⟩ := run_spec hu steps hstep.memo
    rw [run_cons, hroutes]
    refine ⟨hmemo, ?_, fun p e hp => ?_⟩
    · rw [map_cons, sum_cons, htotal, hstep.total, Nat.cast_add]
    · have haccumulated : ∀ h hs, accumulated (h :: hs) e = h.count e + accumulated hs e :=
        fun h hs => sum_cons
      have hrest : visits x.moeConfig.numExperts (x.histogramForStep s step).2.routeCursor
          (x.routesOf steps) p = visits x.moeConfig.numExperts
          (s.routeCursor + x.routes step) (x.routesOf steps) p := by
        rw [← visits_mod, hstep.cursor, visits_mod]
      rw [haccumulated, hcount p e hp, hstep.count p e hp, hrest, visits_add, Nat.cast_add]

/-! ## Ranks -/

theorem foldl_max_replicate (n : Nat) : ∀ k, (List.replicate k n).foldl max n = n
  | 0 => rfl
  | k + 1 => by
    rw [replicate_succ, foldl_cons, Nat.max_self]
    exact foldl_max_replicate n k

theorem getElem?_flatMap_range' {f : Nat → List Nat} {m j : Nat} (hj : j < m) :
    ∀ (n a i : Nat), (∀ k, k < a + n → (f k).length = m) → i < n →
      ((List.range' a n).flatMap f)[i * m + j]? = (f (a + i))[j]?
  | 0, a, i, _, hi => absurd hi (Nat.not_lt_zero i)
  | n + 1, a, 0, hlen, hi => by
    have ha := hlen a (by omega)
    rw [range'_succ, flatMap_cons, zero_mul, zero_add, getElem?_append_left (by omega)]
    rfl
  | n + 1, a, i + 1, hlen, hi => by
    have ha := hlen a (by omega)
    have hshift : (i + 1) * m + j - (f a).length = i * m + j := by
      rw [ha, Nat.succ_mul]
      omega
    rw [range'_succ, flatMap_cons, getElem?_append_right
      (by rw [ha, Nat.succ_mul]; omega), hshift, show a + (i + 1) = a + 1 + i by omega]
    exact getElem?_flatMap_range' hj n (a + 1) i (fun k hk => hlen k (by omega)) (by omega)

section Ranks

variable {groups : List (List Nat)} {n : Nat} (hlen : ∀ g ∈ groups, g.length = n)
include hlen

theorem row_eq {i : Nat} (hi : i < n) :
    groups.filterMap (fun g => g[i]?) = groups.map fun g => g.getD i 0 := by
  rw [← filterMap_eq_map']
  refine filterMap_congr fun g hg => ?_
  have hlt : i < g.length := by rw [hlen g hg]; exact hi
  rw [getD_eq_getElem?_getD, getElem?_eq_getElem hlt]
  rfl

theorem interleave_eq (hne : groups ≠ []) :
    interleave groups = (List.range' 0 n).flatMap fun i => groups.filterMap fun g => g[i]? := by
  have hmax : (groups.map List.length).foldl max 0 = n := by
    have hall : groups.map List.length = List.replicate groups.length n := by
      rw [eq_replicate_iff]
      refine ⟨length_map .., fun k hk => ?_⟩
      obtain ⟨g, hg, rfl⟩ := mem_map.mp hk
      exact hlen g hg
    obtain ⟨k, hk⟩ := Nat.exists_eq_succ_of_ne_zero
      (Nat.pos_iff_ne_zero.mp (length_pos_iff.mpr hne))
    rw [hall, hk, replicate_succ, foldl_cons, Nat.zero_max]
    exact foldl_max_replicate n k
  rw [interleave, hmax, range_eq_range']

theorem length_interleave (hne : groups ≠ []) :
    (interleave groups).length = n * groups.length := by
  rw [interleave_eq hlen hne, length_flatMap]
  have hrows : (List.range' 0 n).map (fun i => (groups.filterMap fun g => g[i]?).length) =
      List.replicate n groups.length := by
    rw [eq_replicate_iff]
    refine ⟨by simp, fun k hk => ?_⟩
    obtain ⟨i, hi, rfl⟩ := mem_map.mp hk
    rw [row_eq hlen (by simpa using hi), length_map]
  rw [hrows, sum_replicate, smul_eq_mul]

/-- Expert `i` of rank `j` comes in round `i`, at the place of its rank. -/
theorem getElem?_interleave {i j : Nat} (hi : i < n) {g : List Nat} (hj : groups[j]? = some g) :
    (interleave groups)[i * groups.length + j]? = g[i]? := by
  obtain ⟨hlt, hget⟩ := List.getElem?_eq_some_iff.mp hj
  have hg : g ∈ groups := mem_of_getElem? hj
  have hrows : ∀ k, k < 0 + n → (groups.filterMap fun g => g[k]?).length = groups.length :=
    fun k hk => by rw [row_eq hlen (by omega), length_map]
  rw [interleave_eq hlen (ne_nil_of_mem hg), getElem?_flatMap_range' hlt n 0 i hrows hi,
    zero_add, row_eq hlen hi, getElem?_map, hj, Option.map_some,
    getD_eq_getElem?_getD, getElem?_eq_getElem (by rw [hlen g hg]; exact hi)]
  rfl

/-- The routes of a rank are the visits to its place in a cycle of ranks. -/
theorem sum_rank (horder : x.expertOrder = interleave groups) {f : Nat → Int} {start len : Nat}
    (hf : ∀ p e, x.expertOrder[p]? = some e → f e = visits x.moeConfig.numExperts start len p)
    (hn : 0 < n) {j : Nat} {g : List Nat} (hj : groups[j]? = some g) :
    (g.map f).sum = visits groups.length start len j := by
  obtain ⟨hlt, -⟩ := List.getElem?_eq_some_iff.mp hj
  have hg : g ∈ groups := mem_of_getElem? hj
  have hcount : x.moeConfig.numExperts = n * groups.length := by
    rw [← length_expertOrder, horder, length_interleave hlen (ne_nil_of_mem hg)]
  calc (g.map f).sum = ∑ i : Fin g.length, f g[i] := (Fin.sum_univ_fun_getElem ..).symm
    _ = ∑ i : Fin g.length, (visits (n * groups.length) start len (i * groups.length + j) : Int) := by
        refine Finset.sum_congr rfl fun i _ => ?_
        rw [← hcount]
        refine hf _ _ ?_
        rw [horder, getElem?_interleave hlen (hlen g hg ▸ i.isLt) hj]
        exact getElem?_eq_getElem i.isLt
    _ = ∑ i ∈ Finset.range n, (visits (n * groups.length) start len (i * groups.length + j) : Int) := by
        rw [← hlen g hg, Finset.sum_range]
    _ = visits groups.length start len j := by
        rw [← Nat.cast_sum, sum_visits_stride hn hlt]

end Ranks

/-! ## Balance -/

theorem init_eq_ok {config : MoEModelConfig} {routing : RoutingConfig} {seed : Int}
    {placement : OrderedDict Int (List Nat)}
    (h : init config routing seed placement = .ok (x, s)) :
    x.moeConfig = config ∧ x.routingConfig = routing ∧
      x.expertOrder = orderOf config.numExperts placement ∧ s.syntheticCache = .empty := by
  unfold init at h
  dsimp only at h
  split at h
  · obtain ⟨rfl, rfl⟩ := Prod.mk.inj (Except.pure_eq_ok.mp h)
    exact ⟨rfl, rfl, rfl, rfl⟩
  · cases h

theorem mem_groups {placement : OrderedDict Int (List Nat)} {g : List Nat} :
    g ∈ (placement.keys.insertionSort (· ≤ ·)).filterMap placement.get? ↔ g ∈ placement.values := by
  rw [mem_filterMap]
  constructor
  · rintro ⟨rank, -, hget⟩
    exact mem_values_of_get? hget
  · intro hg
    obtain ⟨e, he, rfl⟩ := mem_map.mp hg
    refine ⟨e.1, ?_, get?_eq_some_iff.mpr he⟩
    rw [mem_insertionSort]
    exact mem_map_of_mem he

/-- Over every sequence of steps, uniform routing counts exactly the routes of the
tokens, no two experts differ by more than one route, and no two ranks do if all
hold equally many experts.  Whatever the memo holds afterwards, it returns what
would be computed. -/
theorem uniform_routing_balanced (config : MoEModelConfig) (routing : RoutingConfig)
    (huniform : routing.distribution = .uniform) (seed : Int)
    (placement : OrderedDict Int (List Nat)) (x : ExpertRouting) (s : RoutingState)
    (hinit : init config routing seed placement = .ok (x, s)) (steps : List RoutingStep) :
    ((x.run s steps).1.map Histogram.total).sum =
      config.numExpertsPerTok * (steps.map x.routedTokens).sum ∧
    (∀ e < config.numExperts, ∀ e' < config.numExperts,
      accumulated (x.run s steps).1 e ≤ accumulated (x.run s steps).1 e' + 1) ∧
    (∀ n, (∀ g ∈ placement.values, g.length = n) → ∀ g ∈ placement.values, ∀ g' ∈ placement.values,
        (g.map (accumulated (x.run s steps).1)).sum ≤
          (g'.map (accumulated (x.run s steps).1)).sum + 1) ∧
    ∀ tokenCount offset, (x.syntheticHistogram (x.run s steps).2 tokenCount offset).1 =
      x.recomputed tokenCount offset := by
  obtain ⟨rfl, rfl, horder, hempty⟩ := init_eq_ok hinit
  have hmemo : MemoValid x s := fun routeCount offset h hget => by
    rw [hempty] at hget
    cases hget
  obtain ⟨hmemo', htotal, hcount⟩ := run_spec huniform steps hmemo
  refine ⟨?_, fun e he e' he' => ?_, fun n hlen g hg g' hg' => ?_, fun tokenCount offset => ?_⟩
  · rw [htotal, routesOf]
    unfold routes
    rw [sum_map_mul_right, mul_comm]
    push_cast
    rfl
  · obtain ⟨p, hp, hpe⟩ := exists_position he
    obtain ⟨q, hq, hqe⟩ := exists_position he'
    rw [hcount p e hpe, hcount q e' hqe]
    exact_mod_cast visits_le_succ hp hq
  · rcases Nat.eq_zero_or_pos n with rfl | hn
    · rw [length_eq_zero_iff.mp (hlen g hg), length_eq_zero_iff.mp (hlen g' hg')]
      simp
    · have hne : placement.size ≠ 0 := fun h0 => by
        rw [OrderedDict.size, length_eq_zero_iff] at h0
        rw [OrderedDict.values, h0] at hg
        exact not_mem_nil hg
      rw [orderOf, if_neg hne] at horder
      have hlen' : ∀ g ∈ (placement.keys.insertionSort (· ≤ ·)).filterMap placement.get?,
          g.length = n := fun g hg => hlen g (mem_groups.mp hg)
      obtain ⟨j, hj⟩ := mem_iff_getElem?.mp (mem_groups.mpr hg)
      obtain ⟨j', hj'⟩ := mem_iff_getElem?.mp (mem_groups.mpr hg')
      rw [sum_rank hlen' horder hcount hn hj, sum_rank hlen' horder hcount hn hj']
      exact_mod_cast visits_le_succ (List.getElem?_eq_some_iff.mp hj).1
        (List.getElem?_eq_some_iff.mp hj').1
  · exact (syntheticHistogram_spec hmemo' tokenCount offset).1

/-- Four experts on two ranks, two routes for each token. -/
def sampleMoE : MoEModelConfig := ⟨true, 4, 2, 1, fun _ => by decide⟩

/-- Ranks that hold every other expert. -/
def samplePlacement : OrderedDict Int (List Nat) := OrderedDict.empty.update [(0, [0, 2]), (1, [1, 3])]

/-- A decode step, a prompt of two tokens and a chunk of three. -/
def sampleSteps : List RoutingStep :=
  [⟨[⟨false, 0, false, 0, 0⟩], none⟩, ⟨[⟨true, 0, false, 0, 2⟩], none⟩,
    ⟨[⟨true, 3, false, 0, 0⟩], none⟩]

/-- The two ranks share twelve routes, from a negative seed. -/
theorem uniform_routing_balanced_sample : ∃ x s,
    init sampleMoE ⟨.uniform, none, 1 / 2⟩ (-3) samplePlacement = .ok (x, s) ∧
    ((x.run s sampleSteps).1.map Histogram.total).sum = 12 ∧
    ([0, 2].map (accumulated (x.run s sampleSteps).1)).sum ≤
      ([1, 3].map (accumulated (x.run s sampleSteps).1)).sum + 1 := by
  obtain ⟨⟨x, s⟩, hinit, htokens⟩ : ∃ out,
      init sampleMoE ⟨.uniform, none, 1 / 2⟩ (-3) samplePlacement = .ok out ∧
      (sampleSteps.map out.1.routedTokens).sum = 6 := ⟨_, rfl, by decide⟩
  obtain ⟨htotal, -, hranks, -⟩ :=
    uniform_routing_balanced sampleMoE _ rfl (-3) samplePlacement x s hinit sampleSteps
  refine ⟨x, s, hinit, ?_, hranks 2 (by decide) _ (by decide) _ (by decide)⟩
  rw [htotal, htokens]
  rfl

end ExpertRouting

end TokenSim
