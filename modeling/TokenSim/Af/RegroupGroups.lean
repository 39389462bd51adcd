import TokenSim.Af.Regroup
import TokenSim.Lib.Contraction

/-!
# Regrouping as a contraction

`regroup` is a contraction of the list of nodes.  The aliases of a dictionary are read
back as: a node of a group is relabelled to the new id of the group's first member, any
other node keeps its id.  For this the ids must be distinct and the new ids must not
occur among them.
-/

namespace TokenSim

open List OrderedDict

namespace Af

namespace Planning

open ExecutionNode (nodeId predecessorIds)

/-- The order of a list of nodes. -/
abbrev Ordered (nodes : List ExecutionNode) : Prop :=
  TopologicalOrder nodeId predecessorIds nodes

theorem filter_id_eq {nodes : List ExecutionNode}
    (hnodup : (nodes.map nodeId).Nodup) {n : ExecutionNode} (hn : n ∈ nodes) :
    (nodes.filter fun m => m.nodeId = n.nodeId) = [n] := by
  obtain ⟨l₁, l₂, rfl⟩ := append_of_mem hn
  rw [map_append, map_cons, nodup_append] at hnodup
  obtain ⟨-, hnodup₂, hdisjoint⟩ := hnodup
  have h₁ : (l₁.filter fun m => m.nodeId = n.nodeId) = [] :=
    filter_eq_nil_iff.mpr fun m hm => by
      simpa using hdisjoint m.nodeId (mem_map_of_mem hm) n.nodeId mem_cons_self
  have h₂ : (l₂.filter fun m => m.nodeId = n.nodeId) = [] :=
    filter_eq_nil_iff.mpr fun m hm => by
      have hne : m.nodeId ≠ n.nodeId := fun heq =>
        (nodup_cons.mp hnodup₂).1 (heq ▸ mem_map_of_mem hm)
      simpa using hne
  simp [h₁, h₂]

namespace Pass

variable {κ : Type} [DecidableEq κ] {P : Pass κ} {nodes : List ExecutionNode}
  {n m first : ExecutionNode}

theorem mem_groupWith {k : κ} :
    n ∈ P.groupWith nodes k ↔ n ∈ nodes ∧ P.selects n = true ∧ P.groupKey n = k := by
  simp [groupWith]

variable (P nodes) in
/-- The node is in a group that is replaced. -/
def Merged (n : ExecutionNode) : Prop :=
  P.selects n = true ∧ 2 ≤ (P.groupWith nodes (P.groupKey n)).length

theorem mem_mergedGroups {group : List ExecutionNode} : group ∈ P.mergedGroups nodes ↔
    ∃ n ∈ nodes, P.Merged nodes n ∧ group = P.groupWith nodes (P.groupKey n) := by
  simp only [mergedGroups, mem_filter, mem_map, mem_eraseDups, decide_eq_true_eq]
  constructor
  · rintro ⟨⟨_, ⟨n, ⟨hn, hs⟩, rfl⟩, rfl⟩, hlength⟩
    exact ⟨n, hn, ⟨hs, hlength⟩, rfl⟩
  · rintro ⟨n, hn, ⟨hs, hlength⟩, rfl⟩
    exact ⟨⟨_, ⟨n, ⟨hn, hs⟩, rfl⟩, rfl⟩, hlength⟩

theorem Merged.congr (h : P.Merged nodes n) (hs : P.selects m = true)
    (hkey : P.groupKey m = P.groupKey n) : P.Merged nodes m :=
  ⟨hs, hkey ▸ h.2⟩

variable (P nodes) in
/-- The first node of the group of `n`. -/
def Leads (first n : ExecutionNode) : Prop :=
  (P.groupWith nodes (P.groupKey n)).head? = some first

section

variable (h : P.Leads nodes first n)
include h

theorem Leads.mem :
    first ∈ nodes ∧ P.selects first = true ∧ P.groupKey first = P.groupKey n :=
  mem_groupWith.mp (mem_of_mem_head? h)

theorem Leads.unique (h' : P.Leads nodes m n) : first = m :=
  Option.some.inj (h.symm.trans h')

theorem Leads.congr (hkey : P.groupKey m = P.groupKey n) : P.Leads nodes first m := by
  unfold Leads
  rw [hkey]
  exact h

end

theorem Merged.exists_leads (h : P.Merged nodes n) : ∃ first, P.Leads nodes first n := by
  have hlength := h.2
  unfold Leads
  cases hgroup : P.groupWith nodes (P.groupKey n) with
  | nil =>
    rw [hgroup] at hlength
    exact absurd hlength (by simp)
  | cons first rest => exact ⟨first, rfl⟩

/-! ## Aliases and replacements -/

theorem mem_aliasEntries {x v : String} :
    (x, v) ∈ (P.mergedGroups nodes).flatMap P.aliasEntries ↔
      ∃ n ∈ nodes, P.Merged nodes n ∧ n.nodeId = x ∧
        ∃ first, P.Leads nodes first n ∧ v = P.newId first.nodeId := by
  have hentries : ∀ group, (x, v) ∈ P.aliasEntries group ↔
      ∃ n ∈ group, n.nodeId = x ∧ ∃ first, group.head? = some first ∧
        v = P.newId first.nodeId := by
    intro group
    cases group with
    | nil => simp [aliasEntries]
    | cons first rest => simp [aliasEntries, eq_comm]
  simp only [mem_flatMap, mem_mergedGroups, hentries]
  constructor
  · rintro ⟨_, ⟨m, -, hmerged, rfl⟩, n, hn, rfl, first, hfirst, rfl⟩
    obtain ⟨hn, hs, hkey⟩ := mem_groupWith.mp hn
    exact ⟨n, hn, hmerged.congr hs hkey, rfl, first, Leads.congr hfirst hkey, rfl⟩
  · rintro ⟨n, hn, hmerged, rfl, first, hfirst, rfl⟩
    exact ⟨_, ⟨n, hn, hmerged, rfl⟩, n, mem_groupWith.mpr ⟨hn, hmerged.1, rfl⟩, rfl, first,
      hfirst, rfl⟩

theorem mem_replacementEntries {x : String} {v : ExecutionNode} :
    (x, v) ∈ (P.mergedGroups nodes).filterMap P.replacementEntry ↔
      ∃ first ∈ nodes, P.Merged nodes first ∧ first.nodeId = x ∧
        ∃ rest, P.groupWith nodes (P.groupKey first) = first :: rest ∧
          v = P.fuse first rest := by
  have hentry : ∀ group, P.replacementEntry group = some (x, v) ↔
      ∃ first rest, group = first :: rest ∧ first.nodeId = x ∧ v = P.fuse first rest := by
    intro group
    cases group with
    | nil => simp [replacementEntry]
    | cons first rest => simp [replacementEntry, eq_comm]
  simp only [mem_filterMap, mem_mergedGroups, hentry]
  constructor
  · rintro ⟨_, ⟨m, -, hmerged, rfl⟩, first, rest, hcase, rfl, rfl⟩
    have hmem : first ∈ P.groupWith nodes (P.groupKey m) := hcase ▸ mem_cons_self
    obtain ⟨hfirst, hs, hkey⟩ := mem_groupWith.mp hmem
    exact ⟨first, hfirst, hmerged.congr hs hkey, rfl, rest, hkey ▸ hcase, rfl⟩
  · rintro ⟨first, hfirst, hmerged, rfl, rest, hcase, rfl⟩
    exact ⟨_, ⟨first, hfirst, hmerged, rfl⟩, first, rest, hcase, rfl, rfl⟩

section

variable (hl : Ordered nodes)

include hl

theorem get?_aliases_of_merged (hn : n ∈ nodes) (hmerged : P.Merged nodes n)
    (hfirst : P.Leads nodes first n) :
    (P.aliases nodes).get? n.nodeId = some (P.newId first.nodeId) := by
  refine get?_update_of_mem
    (mem_aliasEntries.mpr ⟨n, hn, hmerged, rfl, first, hfirst, rfl⟩) fun v hv => ?_
  obtain ⟨m, hm, -, hid, first', hfirst', rfl⟩ := mem_aliasEntries.mp hv
  cases hl.eq_of_key_eq hm hn hid
  rw [hfirst.unique hfirst']

theorem get?_aliases_of_not_merged (hn : n ∈ nodes) (h : ¬ P.Merged nodes n) :
    (P.aliases nodes).get? n.nodeId = none := by
  refine Option.eq_none_iff_forall_ne_some.mpr fun v hv => ?_
  rcases get?_update hv with hmem | ⟨-, hnone⟩
  · obtain ⟨m, hm, hmerged, hid, -⟩ := mem_aliasEntries.mp hmem
    exact h (hl.eq_of_key_eq hm hn hid ▸ hmerged)
  · cases hnone

theorem get?_replacements_of_first (hn : n ∈ nodes) (hmerged : P.Merged nodes n)
    {rest : List ExecutionNode} (hgroup : P.groupWith nodes (P.groupKey n) = n :: rest) :
    (P.replacements nodes).get? n.nodeId = some (P.fuse n rest) := by
  refine get?_update_of_mem
    (mem_replacementEntries.mpr ⟨n, hn, hmerged, rfl, rest, hgroup, rfl⟩) fun v hv => ?_
  obtain ⟨m, hm, -, hid, rest', hgroup', rfl⟩ := mem_replacementEntries.mp hv
  cases hl.eq_of_key_eq hm hn hid
  cases hgroup.symm.trans hgroup'
  rfl

theorem get?_replacements_of_not_first (hn : n ∈ nodes)
    (h : P.Merged nodes n → ¬ P.Leads nodes n n) :
    (P.replacements nodes).get? n.nodeId = none := by
  refine Option.eq_none_iff_forall_ne_some.mpr fun v hv => ?_
  rcases get?_update hv with hmem | ⟨-, hnone⟩
  · obtain ⟨m, hm, hmerged, hid, rest, hgroup, -⟩ := mem_replacementEntries.mp hmem
    cases hl.eq_of_key_eq hm hn hid
    exact h hmerged (by unfold Leads; rw [hgroup]; rfl)
  · cases hnone

theorem keeps_iff (hn : n ∈ nodes) : P.keeps nodes n = true ↔
    (P.Merged nodes n → P.Leads nodes n n) := by
  unfold keeps
  by_cases hmerged : P.Merged nodes n
  · obtain ⟨first, hfirst⟩ := hmerged.exists_leads
    rw [get?_aliases_of_merged hl hn hmerged hfirst]
    by_cases hlead : P.Leads nodes n n
    · obtain ⟨rest, hrest⟩ := head?_eq_some_iff.mp hlead
      rw [get?_replacements_of_first hl hn hmerged hrest]
      simp [hlead]
    · rw [get?_replacements_of_not_first hl hn fun _ => hlead]
      simp [hmerged, hlead]
  · rw [get?_aliases_of_not_merged hl hn hmerged]
    simp [hmerged]

end

/-! ## The contraction -/

variable (P nodes) in
/-- What a pass needs of the nodes and of its way to fuse them. -/
structure Fusable : Prop where
  order : Ordered nodes
  fresh : ∀ n ∈ nodes, P.selects n = true → ∀ m ∈ nodes, P.newId n.nodeId ≠ m.nodeId
  injective : ∀ n ∈ nodes, P.selects n = true → ∀ m ∈ nodes, P.selects m = true →
    P.newId n.nodeId = P.newId m.nodeId → n.nodeId = m.nodeId
  fuse_id : ∀ first rest, (P.fuse first rest).nodeId = P.newId first.nodeId
  fuse_preds : ∀ first rest, P.groupWith nodes (P.groupKey first) = first :: rest →
    ∀ x, x ∈ (P.fuse first rest).predecessorIds ↔ ∃ n ∈ first :: rest, x ∈ n.predecessorIds
  early : ∀ l₁ r l₂, nodes = l₁ ++ r :: l₂ → P.selects r = true → ∀ n ∈ nodes,
    P.selects n = true → P.groupKey n = P.groupKey r → ∀ p ∈ n.predecessorIds, p ∈ l₁.map nodeId

variable (P nodes) in
/-- The id that an id becomes. -/
abbrev label (id : String) : String := aliasOf (P.aliases nodes) id

variable (P nodes) in
/-- What a kept node becomes. -/
abbrev fused (node : ExecutionNode) : ExecutionNode :=
  rewriteNode (P.label nodes) (P.replaced nodes node)

theorem regroup_eq : P.regroup nodes = contracted (P.keeps nodes) (P.fused nodes) nodes := by
  rw [regroup, rewriteDependencies, map_map]
  rfl

namespace Fusable

variable (h : Fusable P nodes)

include h

section

variable (hn : n ∈ nodes)
include hn

theorem label_merged (hmerged : P.Merged nodes n) (hfirst : P.Leads nodes first n) :
    P.label nodes n.nodeId = P.newId first.nodeId := by
  rw [label, aliasOf, get?_aliases_of_merged h.order hn hmerged hfirst]
  rfl

theorem label_not_merged (hmerged : ¬ P.Merged nodes n) : P.label nodes n.nodeId = n.nodeId := by
  rw [label, aliasOf, get?_aliases_of_not_merged h.order hn hmerged]
  rfl

theorem label_eq_iff (hm : m ∈ nodes) :
    P.label nodes n.nodeId = P.label nodes m.nodeId ↔
      n = m ∨ P.Merged nodes m ∧ P.selects n = true ∧ P.groupKey n = P.groupKey m := by
  constructor
  · intro heq
    by_cases hn' : P.Merged nodes n
    · obtain ⟨f, hf⟩ := hn'.exists_leads
      obtain ⟨hfmem, hfs, hfkey⟩ := hf.mem
      rw [h.label_merged hn hn' hf] at heq
      by_cases hm' : P.Merged nodes m
      · obtain ⟨g, hg⟩ := hm'.exists_leads
        obtain ⟨hgmem, hgs, hgkey⟩ := hg.mem
        rw [h.label_merged hm hm' hg] at heq
        cases h.order.eq_of_key_eq hfmem hgmem (h.injective f hfmem hfs g hgmem hgs heq)
        exact .inr ⟨hm', hn'.1, hfkey.symm.trans hgkey⟩
      · rw [h.label_not_merged hm hm'] at heq
        exact absurd heq (h.fresh f hfmem hfs m hm)
    · rw [h.label_not_merged hn hn'] at heq
      by_cases hm' : P.Merged nodes m
      · obtain ⟨g, hg⟩ := hm'.exists_leads
        obtain ⟨hgmem, hgs, -⟩ := hg.mem
        rw [h.label_merged hm hm' hg] at heq
        exact absurd heq.symm (h.fresh g hgmem hgs n hn)
      · rw [h.label_not_merged hm hm'] at heq
        exact .inl (h.order.eq_of_key_eq hn hm heq)
  · rintro (rfl | ⟨hm', hs, hkey⟩)
    · rfl
    · obtain ⟨f, hf⟩ := hm'.exists_leads
      rw [h.label_merged hm hm' hf, h.label_merged hn (hm'.congr hs hkey) (hf.congr hkey)]

theorem label_eq_iff_of_not_merged (hm : m ∈ nodes) (hmerged : ¬ P.Merged nodes m) :
    P.label nodes n.nodeId = P.label nodes m.nodeId ↔ n = m := by
  rw [h.label_eq_iff hn hm]
  simp [hmerged]

section

variable (hkept : P.keeps nodes n = true)
include hkept

/-- A kept node is fused with the nodes of its label, or it is the only one. -/
theorem replaced_cases :
    ∃ rest, (nodes.filter fun m => P.label nodes m.nodeId = P.label nodes n.nodeId) = n :: rest ∧
      (P.Merged nodes n ∧ P.Leads nodes n n ∧ P.groupWith nodes (P.groupKey n) = n :: rest ∧
          P.replaced nodes n = P.fuse n rest ∨
        ¬ P.Merged nodes n ∧ rest = [] ∧ P.replaced nodes n = n) := by
  unfold replaced
  by_cases hmerged : P.Merged nodes n
  · have hlead := (keeps_iff h.order hn).mp hkept hmerged
    obtain ⟨rest, hrest⟩ := head?_eq_some_iff.mp hlead
    rw [get?_replacements_of_first h.order hn hmerged hrest]
    refine ⟨rest, ?_, .inl ⟨hmerged, hlead, hrest, rfl⟩⟩
    rw [← hrest]
    refine filter_congr fun m hm => ?_
    rw [Bool.eq_iff_iff, decide_eq_true_eq, h.label_eq_iff hm hn, Bool.and_eq_true,
      decide_eq_true_eq]
    constructor
    · rintro (rfl | ⟨-, hs, hkey⟩)
      · exact ⟨hmerged.1, rfl⟩
      · exact ⟨hs, hkey⟩
    · exact fun hs => .inr ⟨hmerged, hs⟩
  · rw [get?_replacements_of_not_first h.order hn fun hm => absurd hm hmerged]
    refine ⟨[], ?_, .inr ⟨hmerged, rfl, rfl⟩⟩
    refine (filter_congr (q := fun m => decide (m.nodeId = n.nodeId)) fun m hm => ?_).trans
      (filter_id_eq h.order.nodup hn)
    rw [Bool.eq_iff_iff, decide_eq_true_eq, decide_eq_true_eq,
      h.label_eq_iff_of_not_merged hm hn hmerged]
    exact ⟨fun heq => heq ▸ rfl, fun hid => h.order.eq_of_key_eq hm hn hid⟩

theorem key_fused :
    (P.fused nodes n).nodeId = P.label nodes n.nodeId := by
  change (P.replaced nodes n).nodeId = _
  obtain ⟨rest, -, ⟨hmerged, hlead, -, heq⟩ | ⟨hmerged, -, heq⟩⟩ := h.replaced_cases hn hkept
  · rw [heq, h.fuse_id, h.label_merged hn hmerged hlead]
  · rw [heq, h.label_not_merged hn hmerged]

/-- A quantity that a fused node sums up. -/
theorem sum_class {M : Type} [AddCommMonoid M] (f : ExecutionNode → M)
    (hfuse : ∀ first rest, P.groupWith nodes (P.groupKey first) = first :: rest →
      f (P.fuse first rest) = ((first :: rest).map f).sum) :
    f (P.replaced nodes n) = ((nodes.filter fun m =>
      P.label nodes m.nodeId = P.label nodes n.nodeId).map f).sum := by
  obtain ⟨rest, hclass, ⟨-, -, hgroup, heq⟩ | ⟨-, rfl, heq⟩⟩ := h.replaced_cases hn hkept
  · rw [heq, hclass, hfuse n rest hgroup]
  · rw [heq, hclass, map_singleton, sum_singleton]

/-- What a fused node has of its group. -/
theorem mem_class {β : Type} (S : ExecutionNode → List β)
    (hfuse : ∀ first rest, P.groupWith nodes (P.groupKey first) = first :: rest →
      ∀ x, x ∈ S (P.fuse first rest) ↔ ∃ m ∈ first :: rest, x ∈ S m) (x : β) :
    x ∈ S (P.replaced nodes n) ↔ ∃ m ∈ nodes,
      P.label nodes m.nodeId = P.label nodes n.nodeId ∧ x ∈ S m := by
  obtain ⟨rest, hclass, hcases⟩ := h.replaced_cases hn hkept
  have hmem : (∃ m ∈ nodes, P.label nodes m.nodeId = P.label nodes n.nodeId ∧ x ∈ S m) ↔
      ∃ m ∈ n :: rest, x ∈ S m := by
    rw [← hclass]
    simp only [mem_filter, decide_eq_true_eq, and_assoc]
  rw [hmem]
  rcases hcases with ⟨-, -, hgroup, heq⟩ | ⟨-, rfl, heq⟩
  · rw [heq, hfuse n rest hgroup x]
  · rw [heq]
    simp

theorem mem_preds_fused {x : String} :
    x ∈ (P.fused nodes n).predecessorIds ↔
      ∃ m ∈ nodes, P.label nodes m.nodeId = P.label nodes n.nodeId ∧
        ∃ p ∈ m.predecessorIds, P.label nodes p = x := by
  rw [fused, rewriteNode, mem_eraseDups, mem_map]
  simp only [h.mem_class hn hkept predecessorIds h.fuse_preds]
  constructor
  · rintro ⟨p, ⟨m, hm, hclass, hp⟩, rfl⟩
    exact ⟨m, hm, hclass, p, hp, rfl⟩
  · rintro ⟨m, hm, hclass, p, hp, rfl⟩
    exact ⟨p, ⟨m, hm, hclass, hp⟩, rfl⟩

end

end

/-- Regrouping contracts the groups. -/
theorem contraction : Contraction nodeId predecessorIds (P.label nodes) (P.keeps nodes)
    (P.fused nodes) nodes where
  first := by
    intro l₁ n l₂ hsplit
    have hn : n ∈ nodes := by simp [hsplit]
    by_cases hmerged : P.Merged nodes n
    · obtain ⟨f, hf⟩ := hmerged.exists_leads
      obtain ⟨hfmem, hfs, hfkey⟩ := hf.mem
      refine ⟨f, ?_, (keeps_iff h.order hfmem).mpr fun _ => hf.congr hfkey,
        (h.label_eq_iff hfmem hn).mpr (.inr ⟨hmerged, hfs, hfkey⟩)⟩
      -- the filter of the nodes up to `n` is not empty
      unfold Leads groupWith at hf
      rw [hsplit, append_cons, filter_append, head?_append_of_ne_nil _ (by
        simp [hmerged.1])] at hf
      exact (mem_filter.mp (mem_of_mem_head? hf)).1
    · exact ⟨n, by simp, (keeps_iff h.order hn).mpr fun hm => absurd hm hmerged, rfl⟩
  unique := by
    intro r hr r' hr' hkept hkept' heq
    rcases (h.label_eq_iff hr hr').mp heq with rfl | ⟨hmerged', hs, hkey⟩
    · rfl
    · have hlead := (keeps_iff h.order hr).mp hkept (hmerged'.congr hs hkey)
      have hlead' := (keeps_iff h.order hr').mp hkept' hmerged'
      rw [hlead.unique (hlead'.congr hkey)]
  key_fuse := fun r hr hkept => h.key_fused hr hkept
  preds_fuse := fun r hr hkept x => h.mem_preds_fused hr hkept
  early := by
    intro l₁ r l₂ hsplit _ n hn heq p hp
    have hr : r ∈ nodes := by simp [hsplit]
    rcases (h.label_eq_iff hn hr).mp heq with rfl | ⟨hmerged, hs, hkey⟩
    · exact h.order.before l₁ n l₂ hsplit p hp
    · exact h.early l₁ r l₂ hsplit hmerged.1 n hn hs hkey p hp

end Fusable

end Pass

end Planning

end Af

end TokenSim
