import Mathlib.Tactic.Ring
import TokenSim.Hybrid.Shape

/-!
# Retained window pages

A window page is worth publishing only when a later request can resume at a
boundary whose tail run contains it.  The boundaries are the ends of the
retention segments, the shared prefix and the end of the prompt.

`RetainedBy` is the one notion behind the three rules of the code: `retained`
decides it page by page, `retainedRuns` enumerates it by boundary, and
`windowThreshold` bounds from below when it can next become true of a complete
page.  The enumeration is right when tail runs are not longer than a segment,
which is when the code uses it.
-/

namespace TokenSim

open List

variable {L : HybridKVLayout} {g : CacheGroup} {index computed lowest : Nat}
  {boundaries : List Nat}

/-- Page `index` lies in the tail run of a boundary that was computed: one of
the request's own, or the end of the page's retention segment. -/
def RetainedBy (L : HybridKVLayout) (g : CacheGroup) (index computed : Nat)
    (boundaries : List Nat) : Prop :=
  ∃ b, b ≤ computed ∧ inTail g index b ∧ (b ∈ boundaries ∨
    L.retentionInterval ≠ 0 ∧ 0 < b ∧ segmentEnd L.retentionInterval g index = b)

theorem retained_iff : retained L.retentionInterval g index computed
    (boundaries.filter (· ≤ computed)) = true ↔ RetainedBy L g index computed boundaries := by
  unfold retained
  simp only [any_eq_true, decide_eq_true_eq]
  constructor
  · rintro ⟨b, hb, htail⟩
    split at hb
    · rename_i hseg
      rcases mem_append.mp hb with hb | hb
      · obtain ⟨hmem, hle⟩ := mem_filter.mp hb
        exact ⟨b, of_decide_eq_true hle, htail, .inl hmem⟩
      · have hb' := mem_singleton.mp hb
        refine ⟨b, by omega, htail, .inr ⟨hseg.1, by omega, by omega⟩⟩
    · obtain ⟨hmem, hle⟩ := mem_filter.mp hb
      exact ⟨b, of_decide_eq_true hle, htail, .inl hmem⟩
  · rintro ⟨b, hle, htail, hmem | ⟨hI, hpos, hseg⟩⟩
    · have hb : b ∈ boundaries.filter (· ≤ computed) := mem_filter.mpr ⟨hmem, by simpa using hle⟩
      refine ⟨b, ?_, htail⟩
      split
      · exact mem_append_left _ hb
      · exact hb
    · refine ⟨b, ?_, htail⟩
      rw [if_pos ⟨hI, by omega, by omega⟩, hseg]
      exact mem_append_right _ (mem_singleton.mpr (by simp))

/-! ## Segments -/

/-- A page in the tail run of a segment end belongs to that segment, when tail
runs are not longer than segments. -/
theorem segmentEnd_of_inTail {interval k : Nat} (hpos : 0 < g.blockTokens)
    (hdvd : g.blockTokens ∣ interval) (hfit : g.hitTailSlots * g.blockTokens ≤ interval)
    (hI : interval ≠ 0) (hk : 0 < k) (h : inTail g index (k * interval)) :
    segmentEnd interval g index = (k * interval : Nat) := by
  obtain ⟨q, rfl⟩ := hdvd
  have hq : 0 < q := Nat.pos_of_ne_zero fun h0 => hI (by rw [h0, mul_zero])
  have hneed : g.hitTailSlots ≤ q :=
    Nat.le_of_mul_le_mul_right (by rw [mul_comm q]; exact hfit) hpos
  have hstop : k * (g.blockTokens * q) / g.blockTokens = k * q := by
    rw [show k * (g.blockTokens * q) = g.blockTokens * (k * q) by ring]
    exact Nat.mul_div_cancel_left _ hpos
  obtain ⟨hlow, hhigh⟩ := h
  rw [hstop] at hlow hhigh
  obtain ⟨j, rfl⟩ : ∃ j, k = j + 1 := ⟨k - 1, by omega⟩
  rw [add_mul, one_mul] at hlow hhigh
  have hdiv : ((index : Int) - g.eagle.toNat) * g.blockTokens / ((g.blockTokens * q : Nat) : Int) =
      j := by
    push_cast
    rw [mul_comm, Int.mul_ediv_mul_of_pos _ _ (by exact_mod_cast hpos)]
    rw [Int.ediv_eq_iff_of_pos (by exact_mod_cast hq)]
    have h1 : ((j * q : Nat) : Int) = (j : Int) * q := by push_cast; ring
    constructor
    · rw [← h1]
      omega
    · rw [← h1]
      omega
  unfold segmentEnd
  rw [hdiv]
  push_cast
  ring

theorem retentionInterval_dvd_of_segmentEnd {b : Nat}
    (h : segmentEnd L.retentionInterval g index = b) : L.retentionInterval ∣ b := by
  refine Int.natCast_dvd_natCast.mp ?_
  rw [← h]
  exact Int.dvd_add (Int.dvd_mul_left ..) (Int.dvd_refl _)

theorem mem_retainedRuns_iff (interval : Nat) (hlow : lowest ≤ index) :
    index ∈ retainedRuns interval g lowest computed boundaries ↔
      (∃ b ∈ boundaries, inTail g index b) ∨ interval ≠ 0 ∧ ∃ k,
        max 1 (cdiv ((lowest + 1 - g.eagle.toNat) * g.blockTokens) interval) ≤ k ∧
        k ≤ computed / interval ∧ inTail g index (k * interval) := by
  have htail : ∀ b, index ∈ List.range' (max lowest (b / g.blockTokens + g.eagle.toNat -
      g.hitTailSlots)) (b / g.blockTokens + g.eagle.toNat - max lowest (b / g.blockTokens +
      g.eagle.toNat - g.hitTailSlots)) ↔ inTail g index b := by
    intro b
    rw [mem_range'_1]
    unfold inTail
    dsimp only
    omega
  unfold retainedRuns
  dsimp only
  rw [mem_insertionSort, mem_dedup, mem_flatMap]
  simp only [htail]
  by_cases hI : interval = 0
  · rw [if_pos hI]
    simp [hI]
  · rw [if_neg hI]
    constructor
    · rintro ⟨b, hb, ht⟩
      rcases mem_append.mp hb with hb | hb
      · exact .inl ⟨b, hb, ht⟩
      · obtain ⟨k, hk, rfl⟩ := mem_map.mp hb
        have := mem_range'_1.mp hk
        exact .inr ⟨hI, k, this.1, by omega, ht⟩
    · rintro (⟨b, hb, ht⟩ | ⟨-, k, h1, h2, ht⟩)
      · exact ⟨b, mem_append_left _ hb, ht⟩
      · refine ⟨k * interval, mem_append_right _ (mem_map.mpr ⟨k, ?_, rfl⟩), ht⟩
        exact mem_range'_1.mpr (by omega)

theorem pairwise_retainedRuns (interval lowest computed : Nat) (boundaries : List Nat) :
    (retainedRuns interval g lowest computed boundaries).Pairwise (· < ·) := by
  have hsorted : ∀ l : List Nat, (l.dedup.insertionSort (· ≤ ·)).Pairwise (· < ·) := by
    intro l
    have hle := pairwise_insertionSort (· ≤ · : Nat → Nat → Prop) l.dedup
    have hne : (l.dedup.insertionSort (· ≤ ·)).Pairwise (· ≠ ·) :=
      (perm_insertionSort (· ≤ · : Nat → Nat → Prop) l.dedup).nodup_iff.mpr
        (nodup_dedup l)
    exact (hle.and hne).imp fun h => Nat.lt_of_le_of_ne h.1 h.2
  exact hsorted _

/-- The enumeration by boundary finds exactly the retained pages. -/
theorem mem_retainedRuns (hg : g ∈ L.groups) (hfit : L.tailsFitSegments = true)
    (hlow : lowest ≤ index) :
    index ∈ retainedRuns L.retentionInterval g lowest computed
      (boundaries.filter (· ≤ computed)) ↔ RetainedBy L g index computed boundaries := by
  have hpos := HybridKVLayout.blockTokens_pos hg
  have hdvd : g.blockTokens ∣ L.retentionInterval :=
    Nat.dvd_trans (L.tokens_dvd g hg) L.retention_dvd
  have hown : (∃ b ∈ boundaries.filter (· ≤ computed), inTail g index b) ↔
      ∃ b, b ≤ computed ∧ inTail g index b ∧ b ∈ boundaries := by
    constructor
    · rintro ⟨b, hb, ht⟩
      obtain ⟨hmem, hle⟩ := mem_filter.mp hb
      exact ⟨b, of_decide_eq_true hle, ht, hmem⟩
    · rintro ⟨b, hle, ht, hmem⟩
      exact ⟨b, mem_filter.mpr ⟨hmem, by simpa using hle⟩, ht⟩
  rw [mem_retainedRuns_iff _ hlow, hown]
  constructor
  · rintro (⟨b, hle, ht, hmem⟩ | ⟨hI, k, hfirst, hlast, ht⟩)
    · exact ⟨b, hle, ht, .inl hmem⟩
    · have hgfit : g.hitTailSlots * g.blockTokens ≤ L.retentionInterval := by
        rcases of_decide_eq_true hfit with h0 | hall
        · exact absurd h0 hI
        · exact hall g hg
      have hk : 0 < k := by omega
      refine ⟨k * L.retentionInterval, ?_, ht, .inr ⟨hI, ?_, ?_⟩⟩
      · exact (Nat.le_div_iff_mul_le (Nat.pos_of_ne_zero hI)).mp hlast
      · exact Nat.mul_pos hk (Nat.pos_of_ne_zero hI)
      · exact segmentEnd_of_inTail hpos hdvd hgfit hI hk ht
  · rintro ⟨b, hle, ht, hmem | ⟨hI, hb, hseg⟩⟩
    · exact .inl ⟨b, hle, ht, hmem⟩
    · -- a segment end is a multiple of the interval
      have hIpos := Nat.pos_of_ne_zero hI
      obtain ⟨k, rfl⟩ := retentionInterval_dvd_of_segmentEnd hseg
      rw [mul_comm] at hb hle ht
      have hk : 0 < k := Nat.pos_of_mul_pos_right hb
      refine .inr ⟨hI, k, Nat.max_le.mpr ⟨hk, ?_⟩, (Nat.le_div_iff_mul_le hIpos).mpr hle, ht⟩
      rw [cdiv_le_iff hIpos]
      have hstop : index + 1 - g.eagle.toNat ≤ k * L.retentionInterval / g.blockTokens :=
        Nat.sub_le_of_le_add ht.2
      exact (Nat.mul_le_mul_right _ (Nat.sub_le_sub_right (Nat.succ_le_succ hlow) _)).trans
        ((Nat.le_div_iff_mul_le hpos).mp hstop)

/-! ## Thresholds -/

section

variable {c₀ c : Nat} (hg : g ∈ L.groups) (hw : g.windowTokens ≠ 0)
  (hdue : (windowThreshold L c₀ boundaries).due c = false)
include hg hw hdue

/-- Before the threshold no position is passed at which a run can complete. -/
theorem lt_of_not_due {b : Nat}
    (hb : b ∈ boundaries ∨ L.retentionInterval ≠ 0 ∧
      (b = c₀ / L.retentionInterval * L.retentionInterval ∨
        b = c₀ / L.retentionInterval * L.retentionInterval + L.retentionInterval)) :
    (c₀ < b → c < b) ∧ (g.eagle = true → c₀ < b + g.blockTokens → c < b + g.blockTokens) := by
  have hcand : b ∈ if L.retentionInterval = 0 then boundaries else
      boundaries ++ [c₀ / L.retentionInterval * L.retentionInterval,
        c₀ / L.retentionInterval * L.retentionInterval + L.retentionInterval] := by
    rcases hb with hb | ⟨hI, hb⟩
    · split
      · exact hb
      · exact mem_append_left _ hb
    · rw [if_neg hI]
      exact mem_append_right _ (by simpa using hb)
  have hvalue : ∀ v, v ∈ [b, b + if g.eagle then g.blockTokens else 0] → c₀ < v → c < v := by
    intro v hv hlt
    unfold windowThreshold at hdue
    dsimp only at hdue
    split at hdue
    · rename_i position hmin
      have hle := (min?_eq_some_iff.mp hmin).2 v (mem_filter.mpr
        ⟨mem_flatMap.mpr ⟨g, mem_filter.mpr ⟨hg, by simpa using hw⟩,
          mem_flatMap.mpr ⟨b, hcand, hv⟩⟩, by simpa using hlt⟩)
      have : ¬ position ≤ c := by simpa [Threshold.due] using hdue
      omega
    · rename_i hnone
      have hmem : v ∈ ([] : List Nat) := by
        rw [← min?_eq_none_iff.mp hnone]
        exact mem_filter.mpr ⟨mem_flatMap.mpr ⟨g, mem_filter.mpr
          ⟨hg, by simpa using hw⟩, mem_flatMap.mpr ⟨b, hcand, hv⟩⟩, by simpa using hlt⟩
      exact absurd hmem not_mem_nil
  refine ⟨hvalue b mem_cons_self, fun he => hvalue (b + g.blockTokens) ?_⟩
  rw [if_pos he]
  exact mem_cons_of_mem _ (mem_singleton.mpr rfl)

/-- Before the threshold no segment end is passed either, nor the EAGLE page
after one. -/
theorem segment_passed {b k : Nat} (hI : L.retentionInterval ≠ 0)
    (hb : b = k * L.retentionInterval) (hle : b ≤ c) :
    b ≤ c₀ ∧ g.blockTokens ∣ b ∧
      (g.eagle = true → c₀ < b + g.blockTokens → c < b + g.blockTokens) := by
  have hIpos := Nat.pos_of_ne_zero hI
  have hIdvd : g.blockTokens ∣ L.retentionInterval :=
    Nat.dvd_trans (L.tokens_dvd g hg) L.retention_dvd
  have hseg : c₀ / L.retentionInterval * L.retentionInterval ≤ c₀ := Nat.div_mul_le_self ..
  have hnext : c₀ < c₀ / L.retentionInterval * L.retentionInterval + L.retentionInterval :=
    Nat.lt_div_mul_add hIpos
  have hk : k ≤ c₀ / L.retentionInterval := by
    by_contra hgt
    have h1 := (lt_of_not_due hg hw hdue (.inr ⟨hI, .inr rfl⟩)).1 hnext
    have h2 := Nat.mul_le_mul_right L.retentionInterval
      (show c₀ / L.retentionInterval + 1 ≤ k by omega)
    rw [add_mul, one_mul] at h2
    omega
  have hpassed : b ≤ c₀ := hb.le.trans ((Nat.mul_le_mul_right _ hk).trans hseg)
  refine ⟨hpassed, hb ▸ Nat.dvd_trans hIdvd ⟨k, mul_comm ..⟩, fun he hlt => ?_⟩
  rcases Nat.lt_or_eq_of_le hk with hk' | hk'
  · -- an earlier segment: its EAGLE page lies within the next segment
    have h1 := Nat.mul_le_mul_right L.retentionInterval (show k + 1 ≤ c₀ / L.retentionInterval from hk')
    have h2 := Nat.le_of_dvd hIpos hIdvd
    rw [add_mul, one_mul] at h1
    omega
  · exact (lt_of_not_due hg hw hdue (.inr ⟨hI, .inl (by rw [hb, hk'])⟩)).2 he hlt

end

/-- Before the threshold, a complete page is retained only if it already was
complete and retained when the threshold was set. -/
theorem retainedBy_of_not_due {c₀ c : Nat} (hg : g ∈ L.groups) (hw : g.windowTokens ≠ 0)
    (hdvd : ∀ b ∈ boundaries, g.blockTokens ∣ b)
    (hdue : (windowThreshold L c₀ boundaries).due c = false)
    (hcomplete : (index + 1) * g.blockTokens ≤ c) (h : RetainedBy L g index c boundaries) :
    (index + 1) * g.blockTokens ≤ c₀ ∧ RetainedBy L g index c₀ boundaries := by
  have hpos := HybridKVLayout.blockTokens_pos hg
  obtain ⟨b, hle, htail, horigin⟩ := h
  obtain ⟨hpassed, hbdvd, heagle⟩ : b ≤ c₀ ∧ g.blockTokens ∣ b ∧
      (g.eagle = true → c₀ < b + g.blockTokens → c < b + g.blockTokens) := by
    rcases horigin with hmem | ⟨hI, hb, hseg⟩
    · obtain ⟨h1, h2⟩ := lt_of_not_due hg hw hdue (.inl hmem)
      exact ⟨by omega, hdvd b hmem, h2⟩
    · obtain ⟨k, hk⟩ := retentionInterval_dvd_of_segmentEnd hseg
      exact segment_passed hg hw hdue hI (by rw [hk, mul_comm]) hle
  refine ⟨?_, b, hpassed, htail, horigin⟩
  have hmul : b / g.blockTokens * g.blockTokens = b := Nat.div_mul_cancel hbdvd
  have hstop := htail.2
  -- a page before the boundary is complete there
  have hbefore : index + 1 ≤ b / g.blockTokens → (index + 1) * g.blockTokens ≤ c₀ := fun hle' =>
    ((Nat.mul_le_mul_right g.blockTokens hle').trans hmul.le).trans hpassed
  cases he : g.eagle with
  | false =>
    rw [he] at hstop
    exact hbefore hstop
  | true =>
    rw [he, Bool.toNat_true] at hstop
    rcases Nat.lt_or_ge c₀ (b + g.blockTokens) with hlt | hge
    · -- the EAGLE page itself is not complete before the threshold
      refine hbefore ?_
      have hcb := heagle he hlt
      by_contra hno
      have hidx : index + 1 = b / g.blockTokens + 1 := by omega
      rw [hidx, add_mul, hmul, one_mul] at hcomplete
      omega
    · have := Nat.mul_le_mul_right g.blockTokens (show index + 1 ≤ b / g.blockTokens + 1 by omega)
      rw [add_mul (b / g.blockTokens), hmul, one_mul] at this
      omega

end TokenSim
