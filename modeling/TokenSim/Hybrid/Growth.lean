import TokenSim.Hybrid.Tables
import TokenSim.Lib.Ranges

/-!
# Reclaiming and growing

What `ensureSlots` does to the table of one group, and to the tables of all
groups.  `reclaim` and `grow` each have a fast path that trusts the recorded
span and a slow path that searches the table.  Under `SpanOk` both do the same:
`reclaim` keeps the pages from the window start on, and `grow` appends
`freshPages`.
-/

namespace TokenSim

open List OrderedDict

open HybridKVBlockManager
open Except

variable {g : CacheGroup} {pool pool' : SlotPool SlotKey} {table table' : GroupTable}
  {span span' : Option Span} {computed stop : Nat} {behind behind' : Bool}

/-! ## One group -/

theorem SlotPool.releaseMany_nil (p : SlotPool SlotKey) : p.releaseMany [] = .ok p := by
  have : { p with freeUncached := p.freeUncached ++ [] } = p := by rw [append_nil]
  exact congrArg Except.ok this

theorem SlotPool.length_of_allocateMany {p q : SlotPool SlotKey} {count : Nat} {slots : List Nat}
    (h : p.allocateMany count = .ok (q, slots)) : slots.length = count := by
  unfold SlotPool.allocateMany at h
  by_cases hc : count = 0
  · rw [if_pos hc] at h
    obtain ⟨-, rfl⟩ := Prod.mk.inj (pure_eq_ok.mp h)
    exact hc.symm
  · rw [if_neg hc, Except.ite_throw_eq_ok] at h
    obtain ⟨hfree, h⟩ := h
    obtain ⟨q', -, h⟩ := bind_eq_ok.mp h
    obtain ⟨-, rfl⟩ := Prod.mk.inj (pure_eq_ok.mp h)
    simp only [SlotPool.getNumFreeBlocks] at hfree
    simp only [length_append, length_reverse, length_drop, length_take]
    omega

/-- Reclaiming releases the pages before the window and keeps the others. -/
structure Reclaimed (computed : Nat) (g : CacheGroup) (pool : SlotPool SlotKey)
    (table : GroupTable) (pool' : SlotPool SlotKey) (table' : GroupTable) : Prop where
  released : ∃ slots, pool.releaseMany slots = .ok pool' ∧
    ∀ s, slotCount table' s + slots.count s = slotCount table s
  keys : table'.keys = table.keys.filter (g.windowStart computed ≤ ·)
  get? : ∀ i, table'.get? i = if i < g.windowStart computed then none else table.get? i

theorem reclaimed_of_popPages {indices slots : List Nat}
    (hmem : ∀ i ∈ table.keys, i ∈ indices ↔ i < g.windowStart computed)
    (hsub : ∀ i ∈ indices, i ∈ table.keys)
    (hpop : popPages table indices = .ok (table', slots))
    (hrel : pool.releaseMany slots = .ok pool') : Reclaimed computed g pool table pool' table' := by
  obtain ⟨hkeys, hget, hcount⟩ := popPages_spec hpop
  refine ⟨⟨slots, hrel, hcount⟩, ?_, fun i => ?_⟩
  · rw [hkeys]
    refine filter_congr fun i hi => ?_
    rw [decide_eq_decide, hmem i hi]
    exact not_lt
  · rw [hget]
    by_cases hi : i ∈ table.keys
    · simp only [hmem i hi]
    · have hnone := get?_eq_none.mpr hi
      rw [hnone, if_neg fun h => hi (hsub i h), ite_self]

theorem reclaim_spec (hspan : SpanOk g table span) (hw : g.windowTokens ≠ 0)
    (h : reclaim computed g pool table span = .ok (pool', table', span')) :
    Reclaimed computed g pool table pool' table' ∧ SpanOk g table' span' := by
  unfold reclaim at h
  rw [if_neg hw] at h
  dsimp only at h
  cases span with
  | none =>
    obtain ⟨⟨t, slots⟩, hpop, h⟩ := bind_eq_ok.mp h
    obtain ⟨q, hrel, h⟩ := bind_eq_ok.mp h
    obtain ⟨rfl, hrest⟩ := Prod.mk.inj (pure_eq_ok.mp h)
    obtain ⟨rfl, rfl⟩ := Prod.mk.inj hrest
    refine ⟨reclaimed_of_popPages (fun i hi => ?_) (fun i hi => ?_) hpop hrel, spanOk_none _ _⟩
    · simp [hi]
    · exact mem_reverse.mp (mem_of_mem_filter hi)
  | some s =>
    obtain ⟨first, top⟩ := s
    obtain ⟨-, hle, hkeys⟩ := hspan first top rfl
    dsimp only at h
    by_cases hcut : first < min (g.windowStart computed) top
    · rw [if_pos hcut] at h
      obtain ⟨⟨t, slots⟩, hpop, h⟩ := bind_eq_ok.mp h
      obtain ⟨q, hrel, h⟩ := bind_eq_ok.mp h
      obtain ⟨rfl, hrest⟩ := Prod.mk.inj (pure_eq_ok.mp h)
      obtain ⟨rfl, rfl⟩ := Prod.mk.inj hrest
      have hrec : Reclaimed computed g pool table q t := by
        refine reclaimed_of_popPages (fun i hi => ?_) (fun i hi => ?_) hpop hrel
        · rw [hkeys, mem_range'_1] at hi
          rw [mem_reverse, mem_range'_1]
          omega
        · rw [mem_reverse, mem_range'_1] at hi
          rw [hkeys, mem_range'_1]
          omega
      refine ⟨hrec, fun first' top' he => ?_⟩
      obtain ⟨rfl, rfl⟩ := Prod.mk.inj (Option.some.inj he)
      refine ⟨hw, by omega, ?_⟩
      rw [hrec.keys, hkeys, filter_le_range']
      by_cases hlow : g.windowStart computed ≤ top
      · congr 1 <;> omega
      · rw [show first + (top - first) - max first (g.windowStart computed) = 0 by omega,
          show top - min (g.windowStart computed) top = 0 by omega]
        rfl
    · rw [if_neg hcut] at h
      obtain ⟨rfl, hrest⟩ := Prod.mk.inj (pure_eq_ok.mp h)
      obtain ⟨rfl, rfl⟩ := Prod.mk.inj hrest
      have hall : ∀ i ∈ table.keys, g.windowStart computed ≤ i := by
        intro i hi
        rw [hkeys, mem_range'_1] at hi
        omega
      refine ⟨⟨⟨[], SlotPool.releaseMany_nil pool, fun s => rfl⟩, ?_, fun i => ?_⟩, hspan⟩
      · exact (filter_eq_self.mpr fun i hi => by simpa using hall i hi).symm
      · split
        · rename_i hi
          exact get?_eq_none.mpr fun hmem => absurd (hall i hmem) (by omega)
        · rfl

/-- The pages that growing to `stop` allocates besides the pages `keys`. -/
def freshPages (computed stop : Nat) (g : CacheGroup) (keys : List Nat) : List Nat :=
  let high := (stop + g.blockTokens - 1) / g.blockTokens
  if g.windowTokens = 0 then List.range' keys.length (high - keys.length)
  else (List.range' (g.windowStart computed) (high - g.windowStart computed)).filter (· ∉ keys)

theorem nodup_freshPages (computed stop : Nat) (g : CacheGroup) (keys : List Nat) :
    (freshPages computed stop g keys).Nodup := by
  unfold freshPages
  dsimp only
  split
  · exact nodup_range'
  · exact List.Nodup.filter _ nodup_range'

/-- Pages were allocated for `indices` and written into the table. -/
structure Filled (pool : SlotPool SlotKey) (table : GroupTable) (indices : List Nat)
    (pool' : SlotPool SlotKey) (table' : GroupTable) : Prop where
  allocated : ∃ slots, pool.allocateMany indices.length = .ok (pool', slots) ∧
    table' = table.update (indices.zip slots)

theorem filled_of_addFresh {indices : List Nat}
    (h : addFresh pool table indices = .ok (pool', table')) :
    Filled pool table indices pool' table' := by
  obtain ⟨⟨q, slots⟩, hq, h⟩ := bind_eq_ok.mp h
  obtain ⟨rfl, rfl⟩ := Prod.mk.inj (pure_eq_ok.mp h)
  exact ⟨slots, hq, rfl⟩

theorem filled_nil (pool : SlotPool SlotKey) (table : GroupTable) :
    Filled pool table [] pool table := ⟨[], rfl, rfl⟩

section

variable {indices : List Nat} {i : Nat} (h : Filled pool table indices pool' table')
  (hnd : indices.Nodup) (hnew : ∀ i ∈ indices, i ∉ table.keys)
include h hnd hnew

theorem Filled.keys :
    table'.keys = table.keys ++ indices := by
  obtain ⟨slots, hq, rfl⟩ := h.allocated
  exact keys_update_zip hnd hnew (SlotPool.length_of_allocateMany hq)

theorem Filled.get? (hi : i ∈ table.keys) :
    table'.get? i = table.get? i := by
  obtain ⟨slots, hq, rfl⟩ := h.allocated
  exact get?_update_zip hnd hnew (SlotPool.length_of_allocateMany hq) hi

end

theorem grow_full (hw : g.windowTokens = 0)
    (h : grow computed stop g (pool, behind) table span = .ok ((pool', behind'), table', span')) :
    Filled pool table (freshPages computed stop g table.keys) pool' table' ∧ behind' = behind ∧
      span' = span := by
  unfold grow at h
  dsimp only at h
  rw [if_pos hw] at h
  unfold freshPages
  dsimp only
  rw [if_pos hw, length_keys]
  by_cases hlt : table.size < (stop + g.blockTokens - 1) / g.blockTokens
  · rw [if_pos hlt] at h
    obtain ⟨⟨q, t⟩, hq, h⟩ := bind_eq_ok.mp h
    cases h
    exact ⟨filled_of_addFresh hq, rfl, rfl⟩
  · rw [if_neg hlt] at h
    cases h
    rw [show (stop + g.blockTokens - 1) / g.blockTokens - table.size = 0 by omega]
    exact ⟨filled_nil _ _, rfl, rfl⟩

/-- A window group grows by the pages that its window lacks.  The flag is
raised when one of them starts behind the computed position. -/
theorem grow_window (hspan : SpanOk g table span) (hw : g.windowTokens ≠ 0)
    (h : grow computed stop g (pool, behind) table span = .ok ((pool', behind'), table', span')) :
    Filled pool table (freshPages computed stop g table.keys) pool' table' ∧ SpanOk g table' span' ∧
      behind' = (behind || (freshPages computed stop g table.keys).head?.any
        (· * g.blockTokens < computed)) := by
  have hfresh : freshPages computed stop g table.keys = (List.range' (g.windowStart computed)
      ((stop + g.blockTokens - 1) / g.blockTokens - g.windowStart computed)).filter
        (· ∉ table.keys) := by
    unfold freshPages
    dsimp only
    rw [if_neg hw]
  have hnew : ∀ i ∈ freshPages computed stop g table.keys, i ∉ table.keys := by
    intro i hi
    rw [hfresh] at hi
    simpa using (mem_filter.mp hi).2
  have hslow : (addFresh pool table (freshPages computed stop g table.keys) >>= fun x =>
      pure ((x.1, behind || ((freshPages computed stop g table.keys).head?.map
        (· * g.blockTokens)).any (· < computed)), x.2, spanOf x.2)) =
          .ok ((pool', behind'), table', span') →
      Filled pool table (freshPages computed stop g table.keys) pool' table' ∧ SpanOk g table' span' ∧
        behind' = (behind || (freshPages computed stop g table.keys).head?.any
          (· * g.blockTokens < computed)) := by
    intro h
    obtain ⟨⟨q, t⟩, hq, h⟩ := bind_eq_ok.mp h
    cases h
    refine ⟨filled_of_addFresh hq, spanOk_spanOf hw _, ?_⟩
    rw [Option.any_map]
  unfold grow at h
  dsimp only at h
  rw [if_neg hw, ← hfresh] at h
  cases span with
  | none => exact hslow h
  | some s =>
    obtain ⟨first, top⟩ := s
    obtain ⟨-, hle, hkeys⟩ := hspan first top rfl
    dsimp only at h
    by_cases hfast : first = top ∨ first = g.windowStart computed
    · rw [if_pos hfast] at h
      -- the span path asks for the same pages
      have hstart : freshPages computed stop g table.keys = List.range'
          (if first = top then g.windowStart computed else max (g.windowStart computed) top)
          ((stop + g.blockTokens - 1) / g.blockTokens - if first = top then g.windowStart computed
            else max (g.windowStart computed) top) := by
        rw [hfresh, hkeys, filter_not_mem_range' (by omega)]
        by_cases hft : first = top
        · simp only [hft, Nat.sub_self, if_pos, max_self]
          congr 1
          omega
        · have hz : ¬ (top - first = 0) := by omega
          simp only [hz, hft, if_false]
          rw [show first + (top - first) = top by omega]
          congr 1
          omega
      by_cases hlt : (if first = top then g.windowStart computed
          else max (g.windowStart computed) top) < (stop + g.blockTokens - 1) / g.blockTokens
      · rw [if_pos hlt, ← hstart] at h
        obtain ⟨⟨q, t⟩, hq, h⟩ := bind_eq_ok.mp h
        cases h
        have hfill := filled_of_addFresh hq
        refine ⟨hfill, fun first' top' he => ?_, ?_⟩
        · obtain ⟨rfl, rfl⟩ := Prod.mk.inj (Option.some.inj he)
          have hk := hfill.keys (nodup_freshPages computed stop g table.keys) hnew
          rw [hk, hstart, hkeys]
          by_cases hft : first = top
          · simp only [if_pos hft] at hlt ⊢
            refine ⟨hw, le_of_lt hlt, ?_⟩
            rw [show top - first = 0 by omega]
            rfl
          · simp only [if_neg hft] at hlt ⊢
            refine ⟨hw, by omega, ?_⟩
            rw [show max (g.windowStart computed) top = top by omega]
            exact range'_append_of_le hle (by omega)
        · rw [hstart]
          have hne : (stop + g.blockTokens - 1) / g.blockTokens -
              (if first = top then g.windowStart computed
                else max (g.windowStart computed) top) ≠ 0 := by omega
          obtain ⟨k, hk⟩ := Nat.exists_eq_succ_of_ne_zero hne
          rw [hk, range'_succ]
          rfl
      · rw [if_neg hlt] at h
        cases h
        have hnil : freshPages computed stop g table.keys = [] := by
          rw [hstart, show (stop + g.blockTokens - 1) / g.blockTokens -
            (if first = top then g.windowStart computed
              else max (g.windowStart computed) top) = 0 by omega]
          rfl
        rw [hnil]
        exact ⟨filled_nil _ _, hspan, by simp⟩
    · rw [if_neg hfast] at h
      exact hslow h

/-! ## All groups -/

theorem tableOf_set (tables : GroupTables) (g g' : CacheGroup) (table : GroupTable) :
    tableOf (tables.set g.groupId table) g' =
      if g'.groupId = g.groupId then table else tableOf tables g' := by
  unfold tableOf
  rw [get?_set]
  split <;> rfl

/-- The loop over the groups: what every step does to its own group, `R`, has
been done to every group, and what every step keeps, `I`, is kept.  The groups
are distinct, so a step finds its table as it was before the loop. -/
theorem forGroups_spec {σ : Type}
    {f : CacheGroup → σ → GroupTable → Option Span → Except Err (σ × GroupTable × Option Span)}
    {I : σ → GroupTables → Prop} {R : CacheGroup → GroupTable → GroupTable → Prop} :
    ∀ {groups : List CacheGroup} {spans spans' : List (Option Span)} {s s' : σ}
      {tables tables' : GroupTables}, (groups.map CacheGroup.groupId).Nodup →
    SpansOk groups tables spans →
    (∀ g ∈ groups, ∀ (span : Option Span) (s₁ s₂ : σ) (tables₁ : GroupTables) (table' : GroupTable)
        (span' : Option Span), SpanOk g (tableOf tables g) span →
      tableOf tables₁ g = tableOf tables g → I s₁ tables₁ →
      f g s₁ (tableOf tables g) span = .ok (s₂, table', span') →
      I s₂ (tables₁.set g.groupId table') ∧ R g (tableOf tables g) table' ∧ SpanOk g table' span') →
    I s tables → forGroups f groups spans s tables = .ok (s', tables', spans') →
    I s' tables' ∧ SpansOk groups tables' spans' ∧
      (∀ g ∈ groups, R g (tableOf tables g) (tableOf tables' g)) ∧
      ∀ g, g.groupId ∉ groups.map CacheGroup.groupId → tableOf tables' g = tableOf tables g
  | [], spans, spans', s, s', tables, tables', _, hspans, _, hI, h => by
    have hlen := hspans.length
    rw [length_nil, length_eq_zero_iff] at hlen
    subst hlen
    cases h
    exact ⟨hI, hspans, nofun, fun _ _ => rfl⟩
  | g :: groups, [], spans', s, s', tables, tables', _, hspans, _, hI, h => by cases hspans.length
  | g :: groups, span :: spans, spans', s, s', tables, tables', hnd, hspans, hf, hI, h => by
    obtain ⟨hni, hnd'⟩ := nodup_cons.mp hnd
    obtain ⟨⟨s₁, table₁, span₁⟩, hstep, h⟩ := bind_eq_ok.mp h
    obtain ⟨⟨s₂, tables₂, spans₂⟩, hrest, h⟩ := bind_eq_ok.mp h
    cases h
    obtain ⟨hI₁, hR₁, hspan₁⟩ := hf g mem_cons_self span s s₁ tables table₁ span₁
      (hspans.span 0 g span rfl rfl) rfl hI hstep
    have hsame : ∀ g' ∈ groups, tableOf (tables.set g.groupId table₁) g' = tableOf tables g' := by
      intro g' hg'
      have hne : g'.groupId ≠ g.groupId := fun he => hni (he ▸ mem_map_of_mem hg')
      rw [tableOf_set, if_neg hne]
    have hspans' : SpansOk groups (tables.set g.groupId table₁) spans := by
      refine ⟨Nat.succ.inj hspans.length, fun i g' span' hg' hspan' => ?_⟩
      rw [hsame g' (mem_of_getElem? hg')]
      exact hspans.span (i + 1) g' span' hg' hspan'
    obtain ⟨hI₂, hspans₂, hR₂, hother⟩ := forGroups_spec hnd' hspans' (fun g' hg' => by
      rw [hsame g' hg']
      exact hf g' (mem_cons_of_mem _ hg')) hI₁ hrest
    have hlast : tableOf tables' g = table₁ := by rw [hother g hni, tableOf_set, if_pos rfl]
    refine ⟨hI₂, ⟨congrArg (· + 1) hspans₂.length, fun i g' span' hg' hspan' => ?_⟩,
      fun g' hg' => ?_, fun g' hg' => ?_⟩
    · cases i with
      | zero =>
        cases hg'
        cases hspan'
        rw [hlast]
        exact hspan₁
      | succ i => exact hspans₂.span i g' span' hg' hspan'
    · rcases mem_cons.mp hg' with rfl | hg'
      · rw [hlast]
        exact hR₁
      · rw [← hsame g' hg']
        exact hR₂ g' hg'
    · rw [map_cons, mem_cons, not_or] at hg'
      rw [hother g' hg'.2, tableOf_set, if_neg hg'.1]

end TokenSim
