import TokenSim.Hybrid.Growth
import TokenSim.Hybrid.Plan

/-!
# Reference accounting

`Inv` is the manager's invariant: the pool is consistent when every slot is
owed its occurrences in the tables plus its transfer references, every request
has a table for every group, and the recorded spans are right.

Growing a full group writes the pages from the length of its table on.  When the
table has a gap this overwrites a page, whose reference is then never given
back.  `Inv` is therefore relative to such lost references, `leak`; there are
none as long as full tables have no gap (`Tight`).

An operation works on one request.  `Held base pool tables` is the invariant
seen from that request: `base` is what everybody else is owed and what is lost,
`tables` are the request's own.  Each step of an operation keeps `Held`;
`Inv.held` and `Inv.of_held` lead from one view to the other.
-/

namespace TokenSim

open List OrderedDict

open HybridKVBlockManager SlotPool

/-- The occurrences of a slot in all group tables. -/
def occurrences (m : HybridKVBlockManager) (s : Nat) : Nat :=
  m.tables.sum fun _ tables => tablesCount tables s

/-- The references that transfers hold to a slot. -/
def transfers (m : HybridKVBlockManager) (s : Nat) : Nat := (m.transferReferences.get? s).getD 0

/-- What a slot is owed. -/
def references (m : HybridKVBlockManager) (s : Nat) : Nat := occurrences m s + transfers m s

/-- The manager is consistent when the references `leak` are lost. -/
structure Inv (cfg : HybridConfig) (leak : Nat → Nat) (m : HybridKVBlockManager) : Prop where
  pool : m.pool.Ok cfg.numSlots fun s => references m s + leak s
  /-- The null block is in no table. -/
  null : occurrences m 0 = 0
  groups : ∀ rid tables, m.tables.get? rid = some tables →
    tables.keys = cfg.layout.groups.map CacheGroup.groupId
  spans : ∀ rid tables, m.tables.get? rid = some tables →
    ∃ spans, m.spans.get? rid = some spans ∧ SpansOk cfg.layout.groups tables spans
  spans_known : ∀ rid spans, m.spans.get? rid = some spans → ∃ tables, m.tables.get? rid = some tables

/-- The pool from the point of view of one request. -/
structure Held (cfg : HybridConfig) (base : Nat → Nat) (pool : SlotPool SlotKey)
    (tables : GroupTables) : Prop where
  ok : pool.Ok cfg.numSlots fun s => base s + tablesCount tables s
  null : tablesCount tables 0 = 0
  keys : tables.keys = cfg.layout.groups.map CacheGroup.groupId

variable {cfg : HybridConfig} {leak : Nat → Nat} {m : HybridKVBlockManager} {base : Nat → Nat}
  {pool pool' : SlotPool SlotKey} {tables tables' : GroupTables}

variable {m' : HybridKVBlockManager} {rid i computed stop : Nat} {spans : List (Option Span)}
  {g : CacheGroup} {table' : GroupTable} {new : List Nat}

/-- The occurrences of a slot in the tables of one request. -/
def ownCount (m : HybridKVBlockManager) (rid s : Nat) : Nat :=
  tablesCount ((m.tables.get? rid).getD .empty) s

theorem ownCount_of_get? (ht : m.tables.get? rid = some tables) (s : Nat) :
    ownCount m rid s = tablesCount tables s := by
  rw [ownCount, ht]
  rfl

/-- The occurrences in the tables of all others and in those of one request. -/
theorem occurrences_eq (m : HybridKVBlockManager) (rid s : Nat) :
    (m.tables.erase rid).sum (fun _ t => tablesCount t s) + ownCount m rid s = occurrences m s := by
  cases ht : m.tables.get? rid with
  | none =>
    rw [OrderedDict.erase_of_not_mem (get?_eq_none.mp ht), ownCount, ht]
    rfl
  | some tables =>
    rw [ownCount_of_get? ht]
    exact sum_erase_of_get? ht _

theorem ownCount_le_occurrences (m : HybridKVBlockManager) (rid s : Nat) :
    ownCount m rid s ≤ occurrences m s :=
  Nat.le.intro ((Nat.add_comm ..).trans (occurrences_eq m rid s))

/-- The occurrences of a slot when one request gets other tables. -/
theorem occurrences_set (hown : ∀ s, ownCount m rid s = tablesCount tables s)
    (htables : m'.tables = m.tables.set rid tables') (s : Nat) :
    occurrences m' s + tablesCount tables s = occurrences m s + tablesCount tables' s := by
  have hbefore := occurrences_eq m rid s
  have hafter := occurrences_eq m' rid s
  rw [htables, erase_set_self, ownCount_of_get? (htables ▸ get?_set_self)] at hafter
  rw [hown] at hbefore
  omega

theorem init_inv (cfg : HybridConfig) : Inv cfg (fun _ => 0) (.init cfg) where
  pool := SlotPool.init_ok cfg.numSlots
  null := rfl
  groups rid tables h := by cases h
  spans rid tables h := by cases h
  spans_known rid spans h := by cases h

/-- What the others are owed, and the view of one request. -/
theorem Inv.held (h : Inv cfg leak m) (ht : m.tables.get? rid = some tables) :
    ∃ base, (∀ s, references m s + leak s = base s + tablesCount tables s) ∧
      Held cfg base m.pool tables := by
  have hsum : ∀ s, (m.tables.erase rid).sum (fun _ t => tablesCount t s) + tablesCount tables s =
      occurrences m s := fun s => sum_erase_of_get? ht _
  refine ⟨fun s => (m.tables.erase rid).sum (fun _ t => tablesCount t s) + transfers m s + leak s,
    fun s => ?_, h.pool.congr fun s => ?_, ?_, h.groups rid tables ht⟩
  · have := hsum s
    dsimp only [references]
    omega
  · have := hsum s
    dsimp only [references]
    omega
  · have h0 := hsum 0
    have := h.null
    omega

section

variable (h : Inv cfg leak m) (hown : ∀ s, ownCount m rid s = tablesCount tables s)
  (hbase : ∀ s, references m s + leak s = base s + tablesCount tables s)
  (hspans : SpansOk cfg.layout.groups tables' spans)
  (htables : m'.tables = m.tables.set rid tables') (hsp : m'.spans = m.spans.set rid spans)
  (htr : m'.transferReferences = m.transferReferences)
include h hown hbase hspans htables hsp htr

/-- Back from the view of one request, whose tables and spans were replaced
while the references `e` were lost. -/
theorem Inv.of_held {e : Nat → Nat} (hheld : Held cfg (fun s => base s + e s) m'.pool tables') :
    Inv cfg (fun s => leak s + e s) m' := by
  have hocc := occurrences_set hown htables
  refine ⟨hheld.ok.congr fun s => ?_, ?_, fun rid' t hr => ?_, fun rid' t hr => ?_,
    fun rid' sp hr => ?_⟩
  · have h1 := hocc s
    have h2 := hbase s
    unfold references transfers at h2 ⊢
    rw [htr]
    omega
  · have h1 := hocc 0
    have h2 := h.null
    have h3 := hheld.null
    omega
  · rw [htables] at hr
    rcases get?_set_cases hr with ⟨-, rfl⟩ | ⟨-, hr⟩
    · exact hheld.keys
    · exact h.groups rid' t hr
  · rw [htables] at hr
    rw [hsp]
    rcases get?_set_cases hr with ⟨rfl, rfl⟩ | ⟨hne, hr⟩
    · exact ⟨spans, get?_set_self, hspans⟩
    · rw [get?_set_of_ne hne]
      exact h.spans rid' t hr
  · rw [htables]
    rw [hsp] at hr
    rcases get?_set_cases hr with ⟨rfl, -⟩ | ⟨hne, hr⟩
    · exact ⟨tables', get?_set_self⟩
    · rw [get?_set_of_ne hne]
      exact h.spans_known rid' sp hr

/-- The same when nothing was lost. -/
theorem Inv.of_held_same (hheld : Held cfg base m'.pool tables') : Inv cfg leak m' :=
  h.of_held hown hbase hspans htables hsp htr (e := fun _ => 0) hheld

end

theorem Held.tableOf (h : Held cfg base pool tables)
    (hg : g ∈ cfg.layout.groups) : tables.get? g.groupId = some (tableOf tables g) := by
  have hmem : g.groupId ∈ tables.keys := h.keys ▸ mem_map_of_mem hg
  obtain ⟨table, ht⟩ := mem_keys_iff.mp hmem
  rw [TokenSim.tableOf, ht]
  rfl

theorem Inv.tablesCount_pos (h : Inv cfg leak m)
    (ht : m.tables.get? rid = some tables) (hg : g ∈ cfg.layout.groups) {s : Nat}
    (hget : (tableOf tables g).get? i = some s) : 0 < tablesCount tables s := by
  obtain ⟨_, -, hheld⟩ := h.held ht
  exact lt_of_lt_of_le (slotCount_pos hget) (slotCount_le_tablesCount (hheld.tableOf hg) s)

theorem Held.null_table (h : Held cfg base pool tables)
    (hg : g ∈ cfg.layout.groups) : slotCount (TokenSim.tableOf tables g) 0 = 0 := by
  have := slotCount_le_tablesCount (h.tableOf hg) 0
  have := h.null
  omega

theorem keys_set_of_mem {tables : GroupTables} {gid : Nat} (h : gid ∈ tables.keys)
    (table : GroupTable) : (tables.set gid table).keys = tables.keys := by
  rw [keys_set, if_pos h]

/-- Replacing the table of one group, while the pool moved by the difference. -/
theorem Held.replace (h : Held cfg base pool tables) (hg : g ∈ cfg.layout.groups)
    (hok : ∀ refs : Nat → Nat, (∀ s, refs s + slotCount (TokenSim.tableOf tables g) s =
      base s + tablesCount tables s + slotCount table' s) → pool'.Ok cfg.numSlots refs)
    (h0 : slotCount table' 0 = 0) : Held cfg base pool' (tables.set g.groupId table') := by
  have hcount := tablesCount_set (h.tableOf hg) table'
  refine ⟨hok _ fun s => ?_, ?_, ?_⟩
  · have := hcount s
    omega
  · have h1 := hcount 0
    have h2 := h.null
    omega
  · rw [keys_set_of_mem (h.keys ▸ mem_map_of_mem hg)]
    exact h.keys

/-! ## Pools before and after -/

/-- What later readers of the pool rely on: the identity of a held slot stays,
no slot gains an identity, and the version tells when the map has changed. -/
structure Carries (held : Nat → Prop) (p q : SlotPool SlotKey) : Prop where
  versioned : p.Versioned q
  kept : ∀ s, held s → (q.blocks s).blockHash = (p.blocks s).blockHash ∧
    (q.blocks s).cached = (p.blocks s).cached
  unnamed : ∀ s, (p.blocks s).blockHash = none → (q.blocks s).blockHash = none

theorem Carries.refl (held : Nat → Prop) (p : SlotPool SlotKey) : Carries held p p :=
  ⟨.refl p, fun _ _ => ⟨rfl, rfl⟩, fun _ h => h⟩

theorem Carries.of_sameMap (held : Nat → Prop) {p q : SlotPool SlotKey} (h : p.SameMap q) :
    Carries held p q :=
  ⟨h.versioned, fun s _ => ⟨h.blockHash s, h.cached s⟩, fun s hs => (h.blockHash s).trans hs⟩

theorem Carries.mono {held held' : Nat → Prop} {p q : SlotPool SlotKey} (h : Carries held p q)
    (hh : ∀ s, held' s → held s) : Carries held' p q :=
  { h with kept := fun s hs => h.kept s (hh s hs) }

theorem Carries.trans {held held' : Nat → Prop} {p q r : SlotPool SlotKey}
    (h : Carries held p q) (h' : Carries held' q r) (hh : ∀ s, held s → held' s) :
    Carries held p r :=
  ⟨h.versioned.trans h'.versioned, fun s hs =>
    ⟨(h'.kept s (hh s hs)).1.trans (h.kept s hs).1, (h'.kept s (hh s hs)).2.trans (h.kept s hs).2⟩,
    fun s hs => h'.unnamed s (h.unnamed s hs)⟩

/-- A request was handed out the slots `new`, which nobody else holds, and gave
up pages; `base` is what the others are owed. -/
structure Renewal (cfg : HybridConfig) (base : Nat → Nat) (pool : SlotPool SlotKey)
    (tables : GroupTables) (pool' : SlotPool SlotKey) (tables' : GroupTables) (new : List Nat) :
    Prop where
  handed : ∀ s ∈ new, base s = 0 ∧ (pool'.blocks s).blockHash = none ∧ tablesCount tables' s ≤ 1
  kept : ∀ s, s ∉ new → (pool'.blocks s).blockHash = (pool.blocks s).blockHash ∧
    tablesCount tables' s ≤ tablesCount tables s
  pages : ∀ g ∈ cfg.layout.groups, ∀ i s, (tableOf tables' g).get? i = some s →
    s ∈ new ∨ (tableOf tables g).get? i = some s

theorem Renewal.refl (base : Nat → Nat) (pool : SlotPool SlotKey) (tables : GroupTables) :
    Renewal cfg base pool tables pool tables [] :=
  ⟨nofun, fun _ _ => ⟨rfl, le_rfl⟩,
    fun _ _ _ _ hi => .inr hi⟩

theorem Renewal.mono {base' : Nat → Nat}
    (h : Renewal cfg base pool tables pool' tables' new) (hb : ∀ s, base s = 0 → base' s = 0) :
    Renewal cfg base' pool tables pool' tables' new where
  handed s hs := (h.handed s hs).imp_left (hb s)
  kept := h.kept
  pages := h.pages

theorem Renewal.trans {pool'' : SlotPool SlotKey} {tables'' : GroupTables} {new' : List Nat}
    (h : Renewal cfg base pool tables pool' tables' new)
    (h' : Renewal cfg base pool' tables' pool'' tables'' new') :
    Renewal cfg base pool tables pool'' tables'' (new ++ new') where
  handed s hs := by
    by_cases hmem : s ∈ new'
    · exact h'.handed s hmem
    · obtain ⟨h1, h2, h3⟩ := h.handed s ((mem_append.mp hs).resolve_right hmem)
      obtain ⟨h4, h5⟩ := h'.kept s hmem
      exact ⟨h1, h4.trans h2, le_trans h5 h3⟩
  kept s hs := by
    rw [mem_append, not_or] at hs
    obtain ⟨h1, h2⟩ := h.kept s hs.1
    obtain ⟨h3, h4⟩ := h'.kept s hs.2
    exact ⟨h3.trans h1, le_trans h4 h2⟩
  pages g hg i s hi := by
    rcases h'.pages g hg i s hi with hnew | hi'
    · exact .inl (mem_append_right _ hnew)
    · exact (h.pages g hg i s hi').imp_left (mem_append_left _)

/-- A request's tables were renewed: new slots occur once, and no other slot
changed its identity or gained an occurrence. -/
def Renews (cfg : HybridConfig) (m m' : HybridKVBlockManager) (tables tables' : GroupTables) : Prop :=
  ∃ new : List Nat, (∀ s ∈ new, (m'.pool.blocks s).blockHash = none ∧ occurrences m' s ≤ 1) ∧
    (∀ s, s ∉ new → (m'.pool.blocks s).blockHash = (m.pool.blocks s).blockHash ∧
      occurrences m' s ≤ occurrences m s) ∧
    ∀ g ∈ cfg.layout.groups, ∀ i s, (tableOf tables' g).get? i = some s →
      s ∈ new ∨ (tableOf tables g).get? i = some s

theorem Renewal.renews (h : Renewal cfg base m.pool tables m'.pool tables' new)
    (ht : m.tables.get? rid = some tables)
    (hbase : ∀ s, references m s + leak s = base s + tablesCount tables s)
    (htables : m'.tables = m.tables.set rid tables') : Renews cfg m m' tables tables' := by
  have hocc := occurrences_set (ownCount_of_get? ht) htables
  refine ⟨new, fun s hs => ?_, fun s hs => ?_, h.pages⟩
  · obtain ⟨h1, h2, h3⟩ := h.handed s hs
    have h4 := hbase s
    have h5 := hocc s
    unfold references at h4
    exact ⟨h2, by omega⟩
  · obtain ⟨h1, h2⟩ := h.kept s hs
    have h3 := hocc s
    exact ⟨h1, by omega⟩

/-! ## Reclaiming and growing -/

theorem Held.reclaimed (h : Held cfg base pool tables) (hg : g ∈ cfg.layout.groups)
    (hr : Reclaimed computed g pool (TokenSim.tableOf tables g) pool' table') :
    Held cfg base pool' (tables.set g.groupId table') ∧ pool.SameMap pool' := by
  obtain ⟨slots, hrel, hcount⟩ := hr.released
  have htable := fun s => slotCount_le_tablesCount (h.tableOf hg) s
  have h0 : 0 ∉ slots := by
    intro hmem
    have h1 := hcount 0
    have h2 := h.null_table hg
    have := count_pos_iff.mpr hmem
    omega
  obtain ⟨q, hq, hok, hsame⟩ := h.ok.releaseMany slots h0 fun s => by
    have h1 := hcount s
    have h2 := htable s
    omega
  rw [hrel, Except.ok.injEq] at hq
  subst hq
  refine ⟨h.replace hg (fun refs hrefs => hok.congr fun s => ?_) ?_, hsame⟩
  · have h1 := hcount s
    have h2 := htable s
    have h3 := hrefs s
    simp only [dropRefs]
    omega
  · have h1 := hcount 0
    have h2 := h.null_table hg
    omega

/-- New pages: the pool pays for them, and slots that were held are untouched.
References are lost only where a page is overwritten. -/
theorem Held.filled (h : Held cfg base pool tables)
    (hg : g ∈ cfg.layout.groups) {indices : List Nat}
    (hf : Filled pool (TokenSim.tableOf tables g) indices pool' table') :
    ∃ extra : Nat → Nat,
      Held cfg (fun s => base s + extra s) pool' (tables.set g.groupId table') ∧
      Carries (fun s => base s + tablesCount tables s ≠ 0) pool pool' ∧
      (∀ s, tablesCount tables s ≤ extra s + tablesCount (tables.set g.groupId table') s) ∧
      (∀ s, base s + tablesCount tables s ≠ 0 →
        tablesCount (tables.set g.groupId table') s ≤ tablesCount tables s) ∧
      (∃ new, Renewal cfg base pool tables pool' (tables.set g.groupId table') new) ∧
      (indices.Nodup → (∀ i ∈ indices, i ∉ (TokenSim.tableOf tables g).keys) →
        ∀ s, extra s = 0) := by
  obtain ⟨slots, halloc, rfl⟩ := hf.allocated
  obtain ⟨q, hq, hok, hver, hother, hnone⟩ := h.ok.allocateMany (h.ok.allocateMany_le halloc)
  rw [halloc, Except.ok.injEq] at hq
  obtain ⟨rfl, rfl⟩ := Prod.mk.inj hq
  have hlen := length_of_allocateMany halloc
  have hfrontNodup : (pool.front indices.length).Nodup :=
    (nodup_append.mp ((front_perm pool indices.length).nodup_iff.mpr h.ok.free_nodup)).1
  have hfree : ∀ s ∈ pool.front indices.length, 0 < s ∧ base s + tablesCount tables s = 0 := by
    intro s hs
    have hmem : s ∈ pool.freeUncached ++ pool.freeCached :=
      (front_perm pool indices.length).subset (mem_append_left _ hs)
    obtain ⟨hpos, -, hzero⟩ := (h.ok.mem_free s).mp hmem
    exact ⟨hpos, hzero⟩
  have hle : ∀ s, slotCount ((TokenSim.tableOf tables g).update
      (indices.zip (pool.front indices.length))) s ≤
      slotCount (TokenSim.tableOf tables g) s + (pool.front indices.length).count s := by
    intro s
    have := slotCount_update_le s (indices.zip (pool.front indices.length))
      (TokenSim.tableOf tables g)
    rwa [map_snd_zip (by omega)] at this
  have hcount := tablesCount_set (h.tableOf hg) ((TokenSim.tableOf tables g).update
    (indices.zip (pool.front indices.length)))
  have hfront0 : (pool.front indices.length).count 0 = 0 :=
    List.count_eq_zero.mpr fun hmem => absurd (hfree 0 hmem).1 (lt_irrefl 0)
  refine ⟨fun s => slotCount (TokenSim.tableOf tables g) s + (pool.front indices.length).count s -
    slotCount ((TokenSim.tableOf tables g).update (indices.zip (pool.front indices.length))) s,
    ⟨hok.congr fun s => ?_, ?_, ?_⟩, ⟨hver, fun s hs => ?_, fun s hs => ?_⟩, fun s => ?_,
    fun s hs => ?_, ⟨pool.front indices.length, fun s hs => ?_, fun s hs => ?_,
      fun g' hg' i s hi => ?_⟩, fun hnd hnew s => ?_⟩
  · have h1 := hle s
    have h2 := hcount s
    simp only [addRefs]
    omega
  · have h1 := hle 0
    have h2 := hcount 0
    have h3 := h.null
    have h4 := h.null_table hg
    omega
  · rw [keys_set_of_mem (h.keys ▸ mem_map_of_mem hg)]
    exact h.keys
  · have hns : s ∉ pool.front indices.length := fun hmem => hs (hfree s hmem).2
    rw [hother s hns]
    exact ⟨rfl, rfl⟩
  · by_cases hmem : s ∈ pool.front indices.length
    · exact hnone s hmem
    · rw [hother s hmem]; exact hs
  · have h1 := hle s
    have h2 := hcount s
    dsimp only
    omega
  · have h1 := hle s
    have h2 := hcount s
    have h3 : (pool.front indices.length).count s = 0 :=
      List.count_eq_zero.mpr fun hmem => hs (hfree s hmem).2
    omega
  · obtain ⟨-, hzero⟩ := hfree s hs
    have h1 := hle s
    have h2 := hcount s
    have h3 := count_eq_one_of_mem hfrontNodup hs
    exact ⟨by omega, hnone s hs, by omega⟩
  · have h1 := hle s
    have h2 := hcount s
    have h3 := List.count_eq_zero.mpr hs
    exact ⟨by rw [hother s hs], by omega⟩
  · rw [tableOf_set] at hi
    split at hi
    · rename_i hid
      obtain rfl := cfg.layout.eq_of_groupId hg' hg hid
      rcases get?_update hi with hnew | ⟨-, hold⟩
      · exact .inl (of_mem_zip hnew).2
      · exact .inr hold
    · exact .inr hi
  · have := slotCount_update_zip hnd hnew hlen s
    dsimp only
    omega

/-- The pages that stay when the windows are reclaimed. -/
def keptPages (computed : Nat) (g : CacheGroup) (keys : List Nat) : List Nat :=
  if g.windowTokens = 0 then keys else keys.filter (g.windowStart computed ≤ ·)

theorem Held.reclaimAll (h : Held cfg base pool tables)
    {spans' : List (Option Span)} (hspans : SpansOk cfg.layout.groups tables spans)
    (hf : forGroups (reclaim computed) cfg.layout.groups spans pool tables =
      .ok (pool', tables', spans')) :
    Held cfg base pool' tables' ∧ SpansOk cfg.layout.groups tables' spans' ∧ pool.SameMap pool' ∧
      (∀ s, tablesCount tables' s ≤ tablesCount tables s) ∧
      ∀ g ∈ cfg.layout.groups,
        (TokenSim.tableOf tables' g).keys = keptPages computed g (TokenSim.tableOf tables g).keys ∧
        ∀ i ∈ keptPages computed g (TokenSim.tableOf tables g).keys,
          (TokenSim.tableOf tables' g).get? i = (TokenSim.tableOf tables g).get? i := by
  obtain ⟨⟨hheld, hsame, hless⟩, hspans', hR, -⟩ := forGroups_spec
    (I := fun p t => Held cfg base p t ∧ pool.SameMap p ∧
      ∀ s, tablesCount t s ≤ tablesCount tables s)
    (R := fun g table table' => table'.keys = keptPages computed g table.keys ∧
      ∀ i ∈ keptPages computed g table.keys, table'.get? i = table.get? i)
    cfg.layout.ids_nodup hspans
    (by
      rintro g hg span p₁ p₂ t₁ table' span' hsp htab ⟨hheld, hsame, hless⟩ hstep
      unfold keptPages
      by_cases hw : g.windowTokens = 0
      · unfold reclaim at hstep
        rw [if_pos hw] at hstep
        cases hstep
        rw [if_pos hw]
        have hcount := tablesCount_set (hheld.tableOf hg) (TokenSim.tableOf tables g)
        refine ⟨⟨?_, hsame, fun s => ?_⟩, ⟨rfl, fun _ _ => rfl⟩, hsp⟩
        · refine hheld.replace hg (fun refs hrefs => hheld.ok.congr fun s => ?_) ?_
          · have := hrefs s
            rw [htab] at this
            omega
          · rw [← htab]; exact hheld.null_table hg
        · have h1 := hcount s
          have h2 := hless s
          rw [htab] at h1
          omega
      · obtain ⟨hrec, hsp'⟩ := reclaim_spec hsp hw hstep
        rw [if_neg hw]
        obtain ⟨hheld', hsame'⟩ := hheld.reclaimed hg (htab ▸ hrec)
        refine ⟨⟨hheld', hsame.trans hsame', fun s => ?_⟩, ⟨hrec.keys, fun i hi => ?_⟩, hsp'⟩
        · have h1 := tablesCount_set (hheld.tableOf hg) table' s
          obtain ⟨slots, -, hcount⟩ := hrec.released
          have h2 := hcount s
          have h3 := hless s
          rw [htab] at h1
          omega
        · have hle : g.windowStart computed ≤ i := by simpa using (mem_filter.mp hi).2
          rw [hrec.get?, if_neg (by omega)])
    ⟨h, .refl pool, fun _ => le_rfl⟩ hf
  exact ⟨hheld, hspans', hsame, hless, hR⟩

theorem head_le_of_mem_freshPages {keys : List Nat}
    (hw : g.windowTokens ≠ 0) (hi : i ∈ freshPages computed stop g keys) :
    ∃ first, (freshPages computed stop g keys).head? = some first ∧ first ≤ i := by
  have hsorted : (freshPages computed stop g keys).Pairwise (· < ·) := by
    unfold freshPages
    dsimp only
    rw [if_neg hw]
    exact List.Pairwise.filter _ pairwise_lt_range'
  cases hl : freshPages computed stop g keys with
  | nil => rw [hl] at hi; cases hi
  | cons first rest =>
    rw [hl] at hi hsorted
    refine ⟨first, rfl, ?_⟩
    rcases mem_cons.mp hi with rfl | hmem
    · exact le_rfl
    · exact le_of_lt ((pairwise_cons.mp hsorted).1 i hmem)

/-- A full table that holds only indices below its length. -/
def Tight (table : GroupTable) : Prop := ∀ i ∈ table.keys, i < table.size

theorem freshPages_new {table : GroupTable} (htight : g.windowTokens = 0 → Tight table) :
    ∀ i ∈ freshPages computed stop g table.keys, i ∉ table.keys := by
  intro i hi
  unfold freshPages at hi
  dsimp only at hi
  split at hi
  · rename_i hw
    have hle := (mem_range'_1.mp hi).1
    rw [length_keys] at hle
    intro hmem
    have := htight hw i hmem
    omega
  · simpa using (mem_filter.mp hi).2

/-- What growing does to the table of one group.  A full table must have no gap
for it. -/
structure GroupGrown (computed stop : Nat) (g : CacheGroup) (table table' : GroupTable) :
    Prop where
  keys : (g.windowTokens = 0 → Tight table) →
    table'.keys = table.keys ++ freshPages computed stop g table.keys
  get? : (g.windowTokens = 0 → Tight table) → ∀ i ∈ table.keys, table'.get? i = table.get? i

/-- The state of the loop that grows all groups, from `pool` and `tables`. -/
structure Growing (cfg : HybridConfig) (computed : Nat) (base : Nat → Nat)
    (pool : SlotPool SlotKey) (tables : GroupTables) (state : SlotPool SlotKey × Bool)
    (t : GroupTables) : Prop where
  held : ∃ extra : Nat → Nat, Held cfg (fun s => base s + extra s) state.1 t ∧
    (∀ s, tablesCount tables s ≤ extra s + tablesCount t s) ∧
    (∀ s, base s ≠ 0 → tablesCount t s ≤ tablesCount tables s) ∧
    ((∀ g ∈ cfg.layout.groups, g.windowTokens = 0 → Tight (TokenSim.tableOf tables g)) →
      ∀ s, extra s = 0)
  carries : Carries (fun s => base s + tablesCount tables s ≠ 0) pool state.1
  renewal : ∃ new, Renewal cfg base pool tables state.1 t new
  /-- While the flag is down, no new window page is behind. -/
  flag : state.2 = false → ∀ g ∈ cfg.layout.groups, g.windowTokens ≠ 0 →
    ∀ i ∈ (TokenSim.tableOf t g).keys, i ∉ (TokenSim.tableOf tables g).keys →
      computed ≤ i * g.blockTokens

/-- What one group's step contributes, for both kinds of groups. -/
theorem grow_spec {table : GroupTable} {span span' : Option Span}
    {behind behind' : Bool} (hspan : SpanOk g table span)
    (h : grow computed stop g (pool, behind) table span = .ok ((pool', behind'), table', span')) :
    Filled pool table (freshPages computed stop g table.keys) pool' table' ∧
      SpanOk g table' span' ∧ (behind' = false → behind = false ∧ (g.windowTokens ≠ 0 →
        ∀ i ∈ freshPages computed stop g table.keys, computed ≤ i * g.blockTokens)) := by
  by_cases hw : g.windowTokens = 0
  · obtain ⟨hfill, hb, hsp⟩ := grow_full hw h
    refine ⟨hfill, ?_, fun hfalse => ⟨hb ▸ hfalse, fun h => absurd hw h⟩⟩
    rw [hsp]
    intro first top he
    exact absurd hw (hspan first top he).1
  · obtain ⟨hfill, hsp, hb⟩ := grow_window hspan hw h
    refine ⟨hfill, hsp, fun hfalse => ?_⟩
    rw [hfalse] at hb
    obtain ⟨hb₁, hhead⟩ := Bool.or_eq_false_iff.mp hb.symm
    refine ⟨hb₁, fun _ j hj => ?_⟩
    obtain ⟨first, hfirst, hle⟩ := head_le_of_mem_freshPages hw hj
    rw [hfirst, Option.any_some, decide_eq_false_iff_not] at hhead
    exact le_trans (Nat.le_of_not_lt hhead) (Nat.mul_le_mul_right _ hle)

theorem Growing.step {t₁ : GroupTables}
    {span span' : Option Span} {st₁ st₂ : SlotPool SlotKey × Bool}
    (h : Growing cfg computed base pool tables st₁ t₁) (hg : g ∈ cfg.layout.groups)
    (htab : TokenSim.tableOf t₁ g = TokenSim.tableOf tables g)
    (hspan : SpanOk g (TokenSim.tableOf tables g) span)
    (hstep : grow computed stop g st₁ (TokenSim.tableOf tables g) span = .ok (st₂, table', span')) :
    Growing cfg computed base pool tables st₂ (t₁.set g.groupId table') ∧
      GroupGrown computed stop g (TokenSim.tableOf tables g) table' ∧ SpanOk g table' span' := by
  obtain ⟨p₁, b₁⟩ := st₁
  obtain ⟨p₂, b₂⟩ := st₂
  have hnd := nodup_freshPages computed stop g (TokenSim.tableOf tables g).keys
  obtain ⟨hfill, hsp', hb⟩ := grow_spec hspan hstep
  obtain ⟨extra, hheld, hle, hforeign, htight⟩ := h.held
  obtain ⟨new, hrenewal⟩ := h.renewal
  obtain ⟨extra', hheld', hcarry', hle', hforeign', ⟨new', hrenewal'⟩, hnone'⟩ :=
    hheld.filled hg (by rw [htab]; exact hfill)
  refine ⟨⟨⟨fun s => extra s + extra' s, ?_, fun s => ?_, fun s hs => ?_, fun hall s => ?_⟩,
    h.carries.trans hcarry' fun s hs => ?_,
    ⟨new ++ new', hrenewal.trans (hrenewal'.mono fun s hs => by omega)⟩,
    fun hfalse g' hg' hw' j hj hnj => ?_⟩,
    ⟨fun ht => hfill.keys hnd (freshPages_new ht), fun ht j hj =>
      hfill.get? hnd (freshPages_new ht) hj⟩, hsp'⟩
  · simpa only [add_assoc] using hheld'
  · have h1 := hle s
    have h2 := hle' s
    dsimp only
    omega
  · exact le_trans (hforeign' s (by omega)) (hforeign s hs)
  · dsimp only
    rw [htight hall s, hnone' hnd (by rw [htab]; exact freshPages_new (hall g hg)) s]
  · have h1 := hle s
    omega
  · obtain ⟨hb₁, hfresh⟩ := hb hfalse
    rw [tableOf_set] at hj
    split at hj
    · rename_i hid
      have he := cfg.layout.eq_of_groupId hg' hg hid
      subst he
      rw [hfill.keys hnd (freshPages_new fun hw => absurd hw hw')] at hj
      exact hfresh hw' j ((mem_append.mp hj).resolve_left hnj)
    · exact h.flag hb₁ g' hg' hw' j hj hnj

theorem Held.growAll (h : Held cfg base pool tables)
    {spans' : List (Option Span)} {state : SlotPool SlotKey × Bool}
    (hspans : SpansOk cfg.layout.groups tables spans)
    (hf : forGroups (grow computed stop) cfg.layout.groups spans (pool, false) tables =
      .ok (state, tables', spans')) :
    Growing cfg computed base pool tables state tables' ∧
      SpansOk cfg.layout.groups tables' spans' ∧
      ∀ g ∈ cfg.layout.groups,
        GroupGrown computed stop g (TokenSim.tableOf tables g) (TokenSim.tableOf tables' g) := by
  have hstart : Growing cfg computed base pool tables (pool, false) tables :=
    ⟨⟨fun _ => 0, by simpa using h, fun s => by omega, fun _ _ => le_rfl, fun _ _ => rfl⟩,
      .refl _ _, ⟨[], Renewal.refl _ _ _⟩,
      fun _ g _ _ i hi hni => absurd hi hni⟩
  obtain ⟨hgrow, hspans', hR, -⟩ := forGroups_spec
    (I := fun st t => Growing cfg computed base pool tables st t)
    (R := fun g table table' => GroupGrown computed stop g table table')
    cfg.layout.ids_nodup hspans
    (fun g hg span s₁ s₂ t₁ table' span' hspan htab hI hstep => hI.step hg htab hspan hstep)
    hstart hf
  exact ⟨hgrow, hspans', hR⟩

end TokenSim
