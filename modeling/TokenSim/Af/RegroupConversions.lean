import TokenSim.Af.RegroupPasses

/-!
# Transfers of converted tensors

`batchTransfers` merges the transfers of converted tensors on their own and puts the
result back among the other nodes.  It finds the aliases in the metadata of the merged
nodes.  As long as no node has such metadata before, this is the same as regrouping the
whole list; the dependencies between the transfers are rewritten twice.
-/

namespace TokenSim

open List OrderedDict Option

namespace Af

namespace Planning

open ExecutionNode (nodeId operation predecessorIds)

namespace Pass

section Transfers

variable {κ : Type} [DecidableEq κ] {P : Pass κ} {nodes : List ExecutionNode} {n : ExecutionNode}

variable (P nodes) in
/-- The selected nodes, merged on their own by their operations. -/
def combined : List ExecutionNode :=
  { P with selects := fun node => node.operation ∈ (nodes.filter P.selects).map operation
    : Pass κ }.regroup (nodes.filter P.selects)

theorem combined_eq : P.combined nodes =
    ((nodes.filter P.selects).filter (P.keeps nodes)).map (P.fused nodes) := by
  have hall : ∀ node ∈ nodes, P.selects node = true →
      node.operation ∈ (nodes.filter P.selects).map operation :=
    fun node hn hs => List.mem_map_of_mem (mem_filter.mpr ⟨hn, hs⟩)
  have hselected : (nodes.filter P.selects).filter (fun node => decide (node.operation ∈
      (nodes.filter P.selects).map operation)) = nodes.filter P.selects :=
    filter_eq_self.mpr fun node hn => decide_eq_true (List.mem_map_of_mem hn)
  have hgroup : { P with selects := fun node => decide (node.operation ∈
      (nodes.filter P.selects).map operation) : Pass κ }.groupWith (nodes.filter P.selects) =
        P.groupWith nodes := by
    funext k
    rw [groupWith, groupWith, List.filter_filter]
    refine filter_congr fun node hn => ?_
    cases hs : P.selects node with
    | false => simp
    | true => simp [hall node hn hs]
  have hgroups : { P with selects := fun node => decide (node.operation ∈
      (nodes.filter P.selects).map operation) : Pass κ }.mergedGroups (nodes.filter P.selects) =
        P.mergedGroups nodes := by
    rw [mergedGroups, mergedGroups, hgroup, hselected]
  rw [combined, regroup, rewriteDependencies, List.map_map]
  unfold keeps fused replaced label aliases replacements
  rw [hgroups]
  rfl

variable (P nodes) in
/-- The merged transfers by id. -/
def combinedById : OrderedDict String ExecutionNode :=
  .update .empty ((P.combined nodes).map fun node => (node.nodeId, node))

variable (P nodes) in
/-- The aliases in the metadata of the merged transfers. -/
def combinedAliases : OrderedDict String String :=
  .update .empty ((P.combined nodes).flatMap fun node =>
    (node.metadata.coalescedNodes.getD []).map fun member => (member, node.nodeId))

theorem mem_combined {x : ExecutionNode} : x ∈ P.combined nodes ↔
    ∃ n ∈ nodes, P.selects n = true ∧ P.keeps nodes n = true ∧ P.fused nodes n = x := by
  rw [combined_eq]
  simp only [List.mem_map, mem_filter, and_assoc]

theorem not_merged (hs : P.selects n = false) : ¬ P.Merged nodes n := fun hm => by
  rw [hm.1] at hs
  cases hs

variable (h : Fusable P nodes)

include h

theorem get?_combinedById (hn : n ∈ nodes) (hs : P.selects n = true)
    (hkept : P.keeps nodes n = true) :
    (P.combinedById nodes).get? (P.label nodes n.nodeId) = some (P.fused nodes n) := by
  refine get?_update_of_mem (List.mem_map.mpr
    ⟨_, mem_combined.mpr ⟨n, hn, hs, hkept, rfl⟩, ?_⟩) fun v hv => ?_
  · rw [h.key_fused hn hkept]
  · obtain ⟨v, hv, heq⟩ := List.mem_map.mp hv
    obtain ⟨m, hm, -, hkept', rfl⟩ := mem_combined.mp hv
    obtain ⟨hid, rfl⟩ := Prod.mk.inj heq
    rw [h.key_fused hm hkept'] at hid
    rw [h.order.eq_of_key_eq hm hn (h.contraction.unique m hm n hn hkept' hkept hid)]

theorem get?_combinedById_of_not (hn : n ∈ nodes) (hs : P.selects n = false) :
    (P.combinedById nodes).get? n.nodeId = none := by
  refine eq_none_iff_forall_ne_some.mpr fun v hv => ?_
  rcases get?_update hv with hmem | ⟨-, hnone⟩
  · obtain ⟨v, hv, heq⟩ := List.mem_map.mp hmem
    obtain ⟨m, hm, hsm, hkept, rfl⟩ := mem_combined.mp hv
    have hid := (Prod.mk.inj heq).1
    rw [h.key_fused hm hkept, ← h.label_not_merged hn (not_merged hs)] at hid
    rw [(h.label_eq_iff_of_not_merged hm hn (not_merged hs)).mp hid, hs] at hsm
    cases hsm
  · cases hnone

theorem label_label (hn : n ∈ nodes) :
    P.label nodes (P.label nodes n.nodeId) = P.label nodes n.nodeId := by
  by_cases hmerged : P.Merged nodes n
  · obtain ⟨first, hfirst⟩ := hmerged.exists_leads
    obtain ⟨hfmem, hfs, -⟩ := hfirst.mem
    rw [h.label_merged hn hmerged hfirst, label, aliasOf]
    -- no node has the new id
    have hnone : (P.aliases nodes).get? (P.newId first.nodeId) = none := by
      refine eq_none_iff_forall_ne_some.mpr fun v hv => ?_
      rcases get?_update hv with hmem | ⟨-, hnone⟩
      · obtain ⟨m, hm, -, hid, -⟩ := mem_aliasEntries.mp hmem
        exact h.fresh first hfmem hfs m hm hid.symm
      · cases hnone
    rw [hnone]
    rfl
  · rw [h.label_not_merged hn hmerged, h.label_not_merged hn hmerged]

variable (P nodes) in
/-- What a node becomes when the merged transfers are put back. -/
def putBack (node : ExecutionNode) : ExecutionNode :=
  rewriteNode (P.label nodes) (if P.selects node then P.fused nodes node else node)

theorem sameData_putBack (r : ExecutionNode) (hr : r ∈ nodes) (hkept : P.keeps nodes r = true) :
    SameData (P.putBack nodes r) (P.replaced nodes r) := by
  unfold putBack
  split
  · exact ⟨_, _, _, rfl⟩
  · next hs =>
    obtain ⟨rest, -, ⟨hmerged, -⟩ | ⟨-, -, heq⟩⟩ := h.replaced_cases hr hkept
    · exact absurd hmerged.1 hs
    · rw [heq]
      exact ⟨_, _, _, rfl⟩

theorem contraction_putBack : Contraction nodeId predecessorIds (P.label nodes) (P.keeps nodes)
    (P.putBack nodes) nodes := by
  refine ⟨h.contraction.first, h.contraction.unique, fun r hr hkept => ?_,
    fun r hr hkept x => ?_, h.contraction.early⟩
  · exact (sameData_putBack h r hr hkept).nodeId_eq.trans (h.key_fused hr hkept)
  · unfold putBack
    rw [rewriteNode, mem_eraseDups, List.mem_map]
    split
    · -- rewriting the dependencies again changes nothing
      rw [← h.mem_preds_fused hr hkept]
      have hfixed : ∀ y ∈ (P.fused nodes r).predecessorIds, P.label nodes y = y := by
        intro y hy
        obtain ⟨m, hm, -, p, hp, rfl⟩ := (h.mem_preds_fused hr hkept).mp hy
        obtain ⟨q, hq, rfl⟩ := h.order.mem_of_pred hm hp
        exact label_label h hq
      constructor
      · rintro ⟨y, hy, rfl⟩
        rw [hfixed y hy]
        exact hy
      · exact fun hx => ⟨x, hx, hfixed x hx⟩
    · next hs =>
      constructor
      · rintro ⟨p, hp, rfl⟩
        exact ⟨r, hr, rfl, p, hp, rfl⟩
      · rintro ⟨m, hm, hclass, p, hp, rfl⟩
        cases (h.label_eq_iff_of_not_merged hm hr
          (not_merged (Bool.eq_false_iff.mpr hs))).mp hclass
        exact ⟨p, hp, rfl⟩

variable (hlist : ∀ first rest, (P.fuse first rest).metadata.coalescedNodes =
  some ((first :: rest).map nodeId))

include hlist

theorem coalesced_fused (hn : n ∈ nodes) (hkept : P.keeps nodes n = true) :
    (P.Merged nodes n ∧ P.Leads nodes n n ∧
      (P.fused nodes n).metadata.coalescedNodes =
        some ((P.groupWith nodes (P.groupKey n)).map nodeId)) ∨
    ¬ P.Merged nodes n ∧
      (P.fused nodes n).metadata.coalescedNodes = n.metadata.coalescedNodes := by
  obtain ⟨rest, -, ⟨hmerged, hlead, hgroup, heq⟩ | ⟨hmerged, -, heq⟩⟩ := h.replaced_cases hn hkept
  · refine .inl ⟨hmerged, hlead, ?_⟩
    rw [fused, heq, hgroup]
    exact hlist n rest
  · refine .inr ⟨hmerged, ?_⟩
    rw [fused, heq]
    rfl

variable (hfresh : ∀ n ∈ nodes, n.metadata.coalescedNodes = none)

include hfresh

theorem mem_combinedAliases {x v : String} :
    (x, v) ∈ (P.combined nodes).flatMap (fun node =>
        (node.metadata.coalescedNodes.getD []).map fun member => (member, node.nodeId)) ↔
    (x, v) ∈ (P.mergedGroups nodes).flatMap P.aliasEntries := by
  rw [mem_aliasEntries, mem_flatMap]
  constructor
  · rintro ⟨node, hnode, hmember⟩
    obtain ⟨n, hn, -, hkept, rfl⟩ := mem_combined.mp hnode
    obtain ⟨member, hin, heq⟩ := List.mem_map.mp hmember
    obtain ⟨rfl, rfl⟩ := Prod.mk.inj heq
    rcases coalesced_fused h hlist hn hkept with ⟨hmerged, hlead, hmeta⟩ | ⟨-, hmeta⟩
    · rw [hmeta, getD_some] at hin
      obtain ⟨m, hm, rfl⟩ := List.mem_map.mp hin
      obtain ⟨hm, hs, hkey⟩ := mem_groupWith.mp hm
      exact ⟨m, hm, hmerged.congr hs hkey, rfl, n, hlead.congr hkey, by
        rw [h.key_fused hn hkept, h.label_merged hn hmerged hlead]⟩
    · rw [hmeta, hfresh n hn] at hin
      cases hin
  · rintro ⟨m, hm, hmerged, rfl, first, hfirst, rfl⟩
    obtain ⟨hfmem, hfs, hfkey⟩ := hfirst.mem
    have hkept : P.keeps nodes first = true :=
      (keeps_iff h.order hfmem).mpr fun _ => hfirst.congr hfkey
    refine ⟨_, mem_combined.mpr ⟨first, hfmem, hfs, hkept, rfl⟩, List.mem_map.mpr
      ⟨m.nodeId, ?_, ?_⟩⟩
    · rcases coalesced_fused h hlist hfmem hkept with ⟨-, -, hmeta⟩ | ⟨hnot, -⟩
      · rw [hmeta, getD_some, hfkey]
        exact List.mem_map_of_mem (mem_groupWith.mpr ⟨hm, hmerged.1, rfl⟩)
      · exact absurd (hmerged.congr hfs hfkey) hnot
    · rw [h.key_fused hfmem hkept, h.label_merged hfmem (hmerged.congr hfs hfkey)
        (hfirst.congr hfkey)]

theorem get?_combinedAliases (x : String) :
    (P.combinedAliases nodes).get? x = (P.aliases nodes).get? x := by
  have hfun : ∀ v v', (x, v) ∈ (P.mergedGroups nodes).flatMap P.aliasEntries →
      (x, v') ∈ (P.mergedGroups nodes).flatMap P.aliasEntries → v' = v := by
    intro v v' hv hv'
    obtain ⟨n, hn, -, rfl, first, hfirst, rfl⟩ := mem_aliasEntries.mp hv
    obtain ⟨m, hm, -, hid, first', hfirst', rfl⟩ := mem_aliasEntries.mp hv'
    cases h.order.eq_of_key_eq hm hn hid
    rw [hfirst.unique hfirst']
  have hmem {v : String} := mem_combinedAliases h hlist hfresh (x := x) (v := v)
  refine Option.ext fun v => ⟨fun hv => ?_, fun hv => ?_⟩
  · rcases get?_update hv with hv | ⟨-, hnone⟩
    · exact get?_update_of_mem (hmem.mp hv) fun v' hv' => hfun v v' (hmem.mp hv) hv'
    · cases hnone
  · rcases get?_update hv with hv | ⟨-, hnone⟩
    · exact get?_update_of_mem (hmem.mpr hv) fun v' hv' => hfun v v' hv (hmem.mp hv')
    · cases hnone

/-- Putting the merged transfers back contracts the whole list. -/
theorem contracted_putBack :
    rewriteDependencies ((nodes.filter fun node => !(P.selects node) ||
      ((P.combinedAliases nodes).get? node.nodeId).isNone ||
        (((P.combinedAliases nodes).get? node.nodeId).any fun id =>
          ((P.combinedById nodes).get? id).any fun group =>
            decide ((group.metadata.coalescedNodes.getD []).head? = some node.nodeId))).map
        fun node => ((P.combinedById nodes).get?
          (aliasOf (P.combinedAliases nodes) node.nodeId)).getD node)
      (P.combinedAliases nodes) = contracted (P.keeps nodes) (P.putBack nodes) nodes := by
  have hlabel : aliasOf (P.combinedAliases nodes) = P.label nodes := by
    funext id
    rw [aliasOf, get?_combinedAliases h hlist hfresh]
    rfl
  have hkeeps : ∀ n ∈ nodes, (!(P.selects n) ||
      ((P.combinedAliases nodes).get? n.nodeId).isNone ||
      (((P.combinedAliases nodes).get? n.nodeId).any fun id =>
        ((P.combinedById nodes).get? id).any fun group =>
          decide ((group.metadata.coalescedNodes.getD []).head? = some n.nodeId))) =
      P.keeps nodes n := by
    intro n hn
    rw [get?_combinedAliases h hlist hfresh, Bool.eq_iff_iff, keeps_iff h.order hn]
    by_cases hmerged : P.Merged nodes n
    · obtain ⟨first, hfirst⟩ := hmerged.exists_leads
      obtain ⟨hfmem, hfs, hfkey⟩ := hfirst.mem
      have hkept : P.keeps nodes first = true :=
        (keeps_iff h.order hfmem).mpr fun _ => hfirst.congr hfkey
      have hget := get?_combinedById h hfmem hfs hkept
      rw [h.label_merged hfmem (hmerged.congr hfs hfkey) (hfirst.congr hfkey)] at hget
      rw [get?_aliases_of_merged h.order hn hmerged hfirst, any_some, hget, any_some]
      rcases coalesced_fused h hlist hfmem hkept with ⟨-, hlead, hmeta⟩ | ⟨hnot, -⟩
      · rw [hmeta, getD_some, List.head?_map, hlead]
        simp only [hmerged.1, Bool.not_true, isNone_some, Bool.or_self, Bool.false_or,
          Option.map_some, some.injEq, decide_eq_true_eq, hmerged, true_imp_iff]
        exact ⟨fun hid => h.order.eq_of_key_eq hfmem hn hid ▸ hfirst,
          fun hlead => by rw [hfirst.unique hlead]⟩
      · exact absurd (hmerged.congr hfs hfkey) hnot
    · rw [get?_aliases_of_not_merged h.order hn hmerged]
      simp [hmerged]
  rw [filter_congr hkeeps, rewriteDependencies, List.map_map, contracted]
  refine map_congr_left fun n hn => ?_
  obtain ⟨hn, hkept⟩ := mem_filter.mp hn
  rw [Function.comp, hlabel, putBack]
  cases hs : P.selects n with
  | true =>
    rw [get?_combinedById h hn hs hkept]
    rfl
  | false =>
    rw [h.label_not_merged hn (not_merged hs), get?_combinedById_of_not h hn hs]
    rfl

end Transfers

end Pass

variable {nodes : List ExecutionNode} (hl : Ordered nodes) (hapart : Apart (nodes.map nodeId))
  (hfresh : ∀ n ∈ nodes, n.metadata.coalescedNodes = none) (h : ∀ n ∈ nodes, Convertible n)

include hl hapart hfresh h

theorem batchTransfers_reduces :
    (∃ relabel, Reduces (·.operation ∈ transferOperations) relabel nodes (batchTransfers nodes) ∧
      ∀ n ∈ nodes, n.operation ∉ transferOperations → relabel n.nodeId = n.nodeId) ∧
    ∀ n ∈ batchTransfers nodes, Convertible n := by
  cases hempty : (nodes.filter (converts nodes)).isEmpty with
  | true =>
    have heq : batchTransfers nodes = nodes := by
      unfold batchTransfers
      dsimp only
      rw [if_pos hempty]
    rw [heq]
    exact ⟨⟨id, .refl hl hapart, fun _ _ _ => rfl⟩, h⟩
  | false =>
    have hP := batches_mergePass (converts nodes)
    have hf := hP.fusable hl hapart
    have heq : batchTransfers nodes = contracted ((mergePass (converts nodes)).keeps nodes)
        ((mergePass (converts nodes)).putBack nodes) nodes := by
      rw [← Pass.contracted_putBack hf (fun _ _ => rfl) hfresh]
      unfold batchTransfers
      dsimp only
      rw [if_neg (by simp [hempty])]
      rfl
    have hop : ∀ n, converts nodes n = true → n.operation ∈ transferOperations :=
      fun n hn => (of_decide_eq_true hn).1
    have htransfer : transferOperations ⊆ mergeOperations := by
      simp [transferOperations, mergeOperations]
    rw [heq]
    refine ⟨⟨_, hP.reduces hf hapart (Pass.contraction_putBack hf) (Pass.sameData_putBack hf)
      (fun n first rest _ hs hsame => ?_)
      fun first rest hgroup => conserved_fuseTransfers fun n hn => ?_, fun n hn hnot =>
        hf.label_of_not_selected hn (Bool.eq_false_iff.mpr fun hs => hnot (hop n hs))⟩,
      hf.forall_contracted (Pass.sameData_putBack hf) SameData.convertible
        (fun first rest _ hall => ?_) h⟩
    · obtain ⟨_, _, _, rfl⟩ := hsame
      exact hop first hs
    · obtain ⟨hn, hs, -⟩ := Pass.mem_groupWith.mp (hgroup ▸ hn)
      have hmerge := htransfer (hop n hs)
      exact ⟨hmerge, ((h n hn).transfer hmerge).2⟩
    · obtain ⟨hs, hfirst⟩ := hall first mem_cons_self
      exact convertible_fuseTransfers rest hfirst (htransfer (hop first hs))

theorem batchConversions_reduces :
    ∃ nodes' kind relabel, batchConversions nodes = .ok nodes' ∧
      Reduces kind relabel nodes nodes' ∧ ∀ n ∈ nodes', Convertible n := by
  obtain ⟨nodes₁, relabel₁, hok₁, hred₁, -, hconv₁, hfresh₁⟩ :=
    batchStage_reduces (.inl rfl) hl hapart h
  obtain ⟨⟨relabel₂, hred₂, hkept₂⟩, hconv₂⟩ :=
    batchTransfers_reduces hred₁.order hred₁.apart (hfresh₁ hfresh) hconv₁
  obtain ⟨nodes₃, relabel₃, hok₃, hred₃, hkept₃, hconv₃, -⟩ :=
    batchStage_reduces (.inr rfl) hred₂.order hred₂.apart hconv₂
  have htransfer : transferOperations ⊆ mergeOperations := by
    simp [transferOperations, mergeOperations]
  refine ⟨nodes₃, _, _, ?_, (hred₁.trans hred₂ ?_ fun n hn hstage => hkept₂ n hn fun hop => ?_).trans
    hred₃ ?_ fun n hn hkind => hkept₃ n hn fun hstage => ?_, hconv₃⟩
  · rw [batchConversions, hok₁]
    exact hok₃
  · rintro _ m ⟨_, _, _, rfl⟩ hstage
    exact hstage
  · exact ((hconv₁ n hn).transfer (htransfer hop)).1 (.inl hstage)
  · rintro _ m ⟨_, _, _, rfl⟩ hkind
    exact hkind
  · rcases hkind with hencode | hop
    · simp [hencode] at hstage
    · exact ((hconv₂ n hn).transfer (htransfer hop)).1 (.inr hstage)

end Planning

end Af

end TokenSim
