import Mathlib.Data.List.TakeWhile
import TokenSim.Af.RegroupConversions

/-!
# The passes of the layer planner

Grouping the experts of a rank is a contraction too, but the members of a group have
predecessors of their own.  It keeps the order because nothing an expert depends on
stands after the first expert, and for the same reason the search for dependent members
finds none.

The passes give new ids to the nodes they merge, and nothing checks that an id is new.
Where the planner's ids are not the only ones a merged node may take the id of another
node.
-/

namespace TokenSim

open List

namespace Af

namespace Planning

open ExecutionNode (nodeId workload predecessorIds payload expertCount)

/-! ## Routed experts -/

/-- The ids of the nodes and those that groups of experts may get. -/
def expertNames (nodes : List ExecutionNode) : List String :=
  nodes.map nodeId ++
    (nodes.filter isRoutedExpert).map fun n => expertGroupId n.nodeId

/-- The routed experts of a layer.  Their work has the edges of the node, and no two of a
group work for one expert. -/
structure Routable (nodes : List ExecutionNode) : Prop where
  node : ∀ n ∈ nodes, isRoutedExpert n = true → n.localWork.isSome = true ∧
    (∀ x, x ∈ n.workEdges ↔ x ∈ n.routingEdges) ∧ (routedParts n.nodeId).2.isSome = true
  distinct : ∀ group ∈ expertPass.mergedGroups nodes,
    ((group.flatMap workload).map Prod.fst).Nodup
  names : (expertNames nodes).Nodup ∧ Apart (expertNames nodes)
  /-- What an expert depends on precedes all experts. -/
  early : ∀ n ∈ nodes, isRoutedExpert n = true → ∀ p ∈ n.predecessorIds,
    p ∈ (nodes.takeWhile fun m => !isRoutedExpert m).map nodeId

theorem mem_of_mem_takeWhile_split {p : ExecutionNode → Bool} {l₁ l₂ : List ExecutionNode}
    {r m : ExecutionNode} (hr : p r = false) (hm : m ∈ (l₁ ++ r :: l₂).takeWhile p) : m ∈ l₁ := by
  induction l₁ with
  | nil => simp [hr] at hm
  | cons a l₁ ih =>
    rw [cons_append, takeWhile_cons] at hm
    split at hm
    · rcases mem_cons.mp hm with rfl | hm
      · exact mem_cons_self ..
      · exact mem_cons_of_mem _ (ih hm)
    · cases hm

section Experts

variable {nodes : List ExecutionNode} (hl : Ordered nodes) (h : Routable nodes)

include hl h

theorem fusable_experts : expertPass.Fusable nodes where
  order := hl
  fresh := fun n hn hs m hm heq =>
    (nodup_append.mp h.names.1).2.2 m.nodeId (mem_map_of_mem hm) _
      (mem_map_of_mem (f := fun n : ExecutionNode => expertGroupId n.nodeId)
        (mem_filter.mpr ⟨hn, hs⟩)) heq.symm
  injective := by
    intro n hn hs m hm hs' heq
    have hnodup := (nodup_append.mp h.names.1).2.1
    rw [inj_on_of_nodup_map hnodup (mem_filter.mpr ⟨hn, hs⟩) (mem_filter.mpr ⟨hm, hs'⟩) heq]
  fuse_id := fun _ _ => rfl
  fuse_preds := by
    intro first rest _ x
    simp only [expertPass, fuseExperts, mem_eraseDups, mem_flatMap]
  early := by
    intro l₁ r l₂ hsplit hr n hn hs _ p hp
    obtain ⟨m, hm, rfl⟩ := mem_map.mp (h.early n hn hs p hp)
    rw [hsplit] at hm
    exact mem_map_of_mem (mem_of_mem_takeWhile_split (by simpa [expertPass] using hr) hm)

omit h in
/-- The search goes through nodes before all experts only. -/
theorem searchAncestors_eq_ok (members : List String)
    (hmembers : ∀ x ∈ members, ∃ m ∈ nodes, isRoutedExpert m = true ∧ m.nodeId = x)
    (pending visited : List String) (hpending : ∀ p ∈ pending,
      p ∈ (nodes.takeWhile fun m => !isRoutedExpert m).map nodeId) :
    searchAncestors nodes members pending visited = .ok () := by
  have hbefore : ∀ m ∈ nodes.takeWhile (fun m => !isRoutedExpert m),
      m ∈ nodes ∧ isRoutedExpert m = false := fun m hm =>
    ⟨(takeWhile_sublist _).subset hm, by simpa using mem_takeWhile_imp hm⟩
  fun_induction searchAncestors nodes members pending visited with
  | case1 => rfl
  | case2 pred pending visited hmem =>
    obtain ⟨m, hm, hs, rfl⟩ := hmembers pred hmem
    obtain ⟨k, hk, hid⟩ := mem_map.mp (hpending m.nodeId mem_cons_self)
    obtain ⟨hk, hsk⟩ := hbefore k hk
    rw [hl.eq_of_key_eq hk hm hid, hs] at hsk
    cases hsk
  | case3 pred pending visited _ _ ih =>
    exact ih (forall_mem_cons.mp hpending).2
  | case4 pred pending visited _ _ hnone =>
    obtain ⟨k, hk, rfl⟩ := mem_map.mp (hpending _ mem_cons_self)
    have hnot := find?_eq_none.mp hnone k (hbefore k hk).1
    simp at hnot
  | case5 pred pending visited _ _ node hfound ih =>
    refine ih fun p hp => ?_
    rcases mem_append.mp hp with hp | hp
    · obtain ⟨k, hk, hid⟩ := mem_map.mp (hpending _ mem_cons_self)
      have hnode := find?_some hfound
      simp only [decide_eq_true_eq] at hnode
      have heq := hl.eq_of_key_eq (hbefore k hk).1 (mem_of_find?_eq_some hfound)
        (hid.trans hnode.symm)
      subst heq
      -- the nodes before all experts depend on each other only
      obtain ⟨t₁, t₂, ht⟩ := append_of_mem hk
      have hsplit : nodes = t₁ ++ k :: (t₂ ++ nodes.dropWhile fun m => !isRoutedExpert m) := by
        conv_lhs => rw [← takeWhile_append_dropWhile (p := fun m => !isRoutedExpert m)
          (l := nodes)]
        rw [ht]
        simp
      obtain ⟨q, hq, rfl⟩ := mem_map.mp
        (hl.before t₁ k _ hsplit p (mem_reverse.mp hp))
      rw [ht]
      exact mem_map_of_mem (mem_append_left _ hq)
    · exact hpending p (mem_cons_of_mem _ hp)

theorem checkExpertGroup_eq_ok {group : List ExecutionNode}
    (hgroup : group ∈ expertPass.mergedGroups nodes) :
    checkExpertGroup nodes group = .ok () := by
  obtain ⟨n, hn, hmerged, heq⟩ := Pass.mem_mergedGroups.mp hgroup
  have hmembers : ∀ m ∈ group, m ∈ nodes ∧ isRoutedExpert m = true := by
    intro m hm
    rw [heq] at hm
    obtain ⟨hm, hs, -⟩ := Pass.mem_groupWith.mp hm
    exact ⟨hm, hs⟩
  have hsearch : searchAncestors nodes (group.map nodeId)
      (group.flatMap predecessorIds).reverse [] = .ok () := by
    refine searchAncestors_eq_ok hl _ (fun x hx => ?_) _ _ fun p hp => ?_
    · obtain ⟨m, hm, rfl⟩ := mem_map.mp hx
      exact ⟨m, (hmembers m hm).1, (hmembers m hm).2, rfl⟩
    · obtain ⟨m, hm, hp⟩ := mem_flatMap.mp (mem_reverse.mp hp)
      exact h.early m (hmembers m hm).1 (hmembers m hm).2 p hp
  have hperm : ((groupWorkload group).map Prod.fst).Perm
      ((group.flatMap workload).map Prod.fst) :=
    (perm_insertionSort _ _).map _
  unfold checkExpertGroup
  rw [hsearch]
  change (if _ then _ else if _ then _ else _) = _
  rw [if_neg (not_not.mpr (hperm.nodup_iff.mpr (h.distinct group hgroup))), if_neg]
  rintro ⟨first, hfirst, hnone⟩
  obtain ⟨hmem, hs⟩ := hmembers first (mem_of_mem_head? hfirst)
  have hsome := (h.node first hmem hs).2.2
  rw [Option.isNone_iff_eq_none.mp hnone] at hsome
  cases hsome

omit hl h in
theorem forM_eq_ok {β : Type} {f : β → Except PlanError Unit} :
    ∀ {l : List β}, (∀ b ∈ l, f b = .ok ()) → l.forM f = .ok ()
  | [], _ => rfl
  | b :: l, hok => by
    change (f b >>= fun _ => l.forM f) = _
    rw [hok b mem_cons_self]
    exact forM_eq_ok (forall_mem_cons.mp hok).2

theorem groupRoutedExpertNodes_eq_ok : groupRoutedExpertNodes nodes =
    .ok (expertPass.regroup nodes) := by
  unfold groupRoutedExpertNodes
  rw [if_neg]
  · rw [forM_eq_ok fun group hgroup => checkExpertGroup_eq_ok hl h hgroup]
    rfl
  · rintro ⟨n, hn, hs, hnone⟩
    have hsome := (h.node n hn hs).1
    rw [Option.isNone_iff_eq_none.mp hnone] at hsome
    cases hsome

variable (hconv : ∀ n ∈ nodes, Convertible n)

include hconv

omit hl in
theorem conserved_fuseExperts {first : ExecutionNode} {rest : List ExecutionNode}
    (hgroup : ∀ n ∈ first :: rest, n ∈ nodes ∧ isRoutedExpert n = true) :
    Conserved (first :: rest) [fuseExperts first rest] := by
  have hnode : ∀ n ∈ first :: rest, _ := fun n hn => h.node n (hgroup n hn).1 (hgroup n hn).2
  have hsilent : ∀ n ∈ first :: rest, ¬ n.IsTransfer := fun n hn hop => by
    have hexpert := ((hconv n (hgroup n hn).1).transfer hop).2
    rw [(hgroup n hn).2] at hexpert
    cases hexpert
  have hfirst := hsilent first mem_cons_self
  refine ⟨sum_eq_of_zero (fun n hn => if_neg (hsilent n hn)) (if_neg hfirst),
    fun rank => sum_eq_of_zero (fun n hn => if_neg (hsilent n hn)) (if_neg hfirst),
    fun rank => sum_eq_of_zero (fun n hn => if_neg (hsilent n hn)) (if_neg hfirst),
    fun expert => ?_, fun x => ?_, fun x => ?_⟩
  · rw [map_singleton, sum_singleton]
    have hwork : (fuseExperts first rest).workload = groupWorkload (first :: rest) := by
      obtain ⟨work, hwork⟩ := Option.isSome_iff_exists.mp (hnode first mem_cons_self).1
      simp [workload, fuseExperts, hwork]
    have hperm : (groupWorkload (first :: rest)).Perm
        ((first :: rest).flatMap workload) := perm_insertionSort _ _
    refine (if_pos (hgroup first mem_cons_self).2).trans ?_
    rw [hwork, postings_perm (hperm.map _), map_flatMap, postings_flatMap,
      map_congr_left fun n hn => (if_pos (hgroup n hn).2).symm]
    rfl
  · simp [fuseExperts, or_and_right, exists_or]
  · simp only [mem_singleton, exists_eq_left, fuseExperts, mem_flatMap]
    exact exists_congr fun n => and_congr_right fun hn => (hnode n hn).2.1 x

/-- Grouping the experts keeps the order, the totals and what the other passes need. -/
theorem regroup_experts : Ordered (expertPass.regroup nodes) ∧
    Conserved nodes (expertPass.regroup nodes) ∧
    Apart ((expertPass.regroup nodes).map nodeId) ∧
    ∀ n ∈ expertPass.regroup nodes, Convertible n := by
  have hf := fusable_experts hl h
  rw [Pass.regroup_eq]
  refine ⟨hf.contraction.ordered hl, hf.conserved Pass.sameData_fused hf.contraction
    fun first rest hgroup => ?_, ?_,
    hf.forall_contracted Pass.sameData_fused SameData.convertible
      (fun first rest _ hall => ?_) hconv⟩
  · refine conserved_fuseExperts h hconv fun n hn => ?_
    obtain ⟨hn, hs, -⟩ := Pass.mem_groupWith.mp (hgroup ▸ hn)
    exact ⟨hn, hs⟩
  · have hname : ∀ n ∈ contracted (expertPass.keeps nodes) (expertPass.fused nodes) nodes,
        n.nodeId ∈ expertNames nodes := by
      intro n hn
      obtain ⟨r, hr, hkept, rfl⟩ := mem_contracted.mp hn
      rw [hf.key_fused hr hkept]
      by_cases hmerged : expertPass.Merged nodes r
      · obtain ⟨first, hfirst⟩ := hmerged.exists_leads
        obtain ⟨hmem, hs, -⟩ := hfirst.mem
        rw [hf.label_merged hr hmerged hfirst]
        exact mem_append_right _ (mem_map_of_mem
          (f := fun n : ExecutionNode => expertGroupId n.nodeId) (mem_filter.mpr ⟨hmem, hs⟩))
      · rw [hf.label_not_merged hr hmerged]
        exact mem_append_left _ (mem_map_of_mem hr)
    intro x hx y hy
    obtain ⟨n, hn, rfl⟩ := mem_map.mp hx
    obtain ⟨m, hm, rfl⟩ := mem_map.mp hy
    exact h.names.2 _ (hname n hn) _ (hname m hm)
  · obtain ⟨hs, hfirst⟩ := hall first mem_cons_self
    have hstage : first.stage = some .routedExpert := (of_decide_eq_true hs).1
    refine ⟨fun hconversion => ?_, hfirst.transfer⟩
    change first.stage = _ ∨ first.stage = _ at hconversion
    rw [hstage] at hconversion
    simp at hconversion

end Experts

/-! ## All passes -/

/-- The result of a pass: nodes in order with distinct ids, no missing predecessor or
producer, and everything conserved. -/
structure Passed (nodes nodes' : List ExecutionNode) : Prop where
  ordered : Ordered nodes'
  predecessors : ∀ n ∈ nodes', ∀ p ∈ n.predecessorIds, ∃ m ∈ nodes', m.nodeId = p
  producers : ∀ n ∈ nodes', ∀ e ∈ n.inputProducerIds, ∃ m ∈ nodes', m.nodeId = e.2
  conserved : Conserved nodes nodes'

theorem passed_of_ordered {nodes nodes' : List ExecutionNode} (hl : Ordered nodes')
    (hc : Conserved nodes nodes') : Passed nodes nodes' :=
  ⟨hl, fun _ hn _ hp => hl.mem_of_pred hn hp, fun n hn e he => hl.mem_of_pred hn (n.bound e he), hc⟩

/-- The node that a node of the input becomes: the one of its id, or the new node that
lists it among its members. -/
def Becomes (nodes : List ExecutionNode) (id : String) (n' : ExecutionNode) : Prop :=
  n'.nodeId = id ∨ n'.nodeId ∉ nodes.map nodeId ∧ id ∈ n'.members

/-- The dependencies after a pass.  Nodes that are still there have the ancestors they
had.  Every node becomes one node, and this depends on what the nodes have become that the
node depended on. -/
structure KeepsAncestors (nodes nodes' : List ExecutionNode) : Prop where
  becomes : ∀ n ∈ nodes, ∃! n', n' ∈ nodes' ∧ Becomes nodes n.nodeId n'
  ancestors : ∀ n ∈ nodes, ∀ m ∈ nodes, n.nodeId ∈ nodes'.map nodeId →
    m.nodeId ∈ nodes'.map nodeId →
    (Ancestor nodeId predecessorIds nodes n.nodeId m.nodeId ↔
      Ancestor nodeId predecessorIds nodes' n.nodeId m.nodeId)
  depends : ∀ n ∈ nodes, ∀ n' ∈ nodes', Becomes nodes n.nodeId n' → ∀ x,
    x ∈ n'.predecessorIds ↔
      ∃ p ∈ n.predecessorIds, ∃ p' ∈ nodes', Becomes nodes p p' ∧ p'.nodeId = x

section

variable {kind : ExecutionNode → Prop} {relabel : String → String}
  {nodes nodes' : List ExecutionNode} (h : Reduces kind relabel nodes nodes')
  (hapart : Apart (nodes.map nodeId))

include h hapart

theorem Reduces.becomes_iff {n n' : ExecutionNode} (hn : n ∈ nodes) (hn' : n' ∈ nodes') :
    Becomes nodes n.nodeId n' ↔ n'.nodeId = relabel n.nodeId := by
  unfold Becomes
  rw [eq_comm (b := relabel _)]
  rcases h.result n' hn' with ⟨k, hk, hsame, hiff⟩ | ⟨-, ⟨⟨m, hm, j, hgrown⟩, hlist⟩⟩
  · have hold : n'.nodeId ∈ nodes.map nodeId := hsame.nodeId_eq ▸ mem_map_of_mem hk
    rw [hiff n hn, eq_comm]
    simp [hold]
  · -- the id of a merged node is new
    have hnew : ∀ k ∈ nodes, n'.nodeId ≠ k.nodeId := fun k hk heq =>
      hapart.ne hk hm j (heq.symm.trans hgrown)
    have hmem : n'.nodeId ∉ nodes.map nodeId := fun hmem => by
      obtain ⟨k, hk, heq⟩ := mem_map.mp hmem
      exact hnew k hk heq.symm
    rw [hlist n.nodeId]
    constructor
    · rintro (heq | ⟨-, _, -, -, heq⟩)
      · exact absurd heq (hnew n hn)
      · exact heq
    · exact fun heq => .inr ⟨hmem, n, hn, rfl, heq⟩

theorem Reduces.keepsAncestors (hl : Ordered nodes) : KeepsAncestors nodes nodes' where
  becomes := by
    intro n hn
    obtain ⟨n', hn', hid⟩ := h.contracts.image n hn
    refine ⟨n', ⟨hn', (h.becomes_iff hapart hn hn').mpr hid⟩, fun m' ⟨hm', hm⟩ => ?_⟩
    exact h.order.eq_of_key_eq hm' hn' (((h.becomes_iff hapart hn hm').mp hm).trans hid.symm)
  ancestors := fun _ hn _ hm hn' hm' => h.ancestor_iff hl hapart hn hm hn' hm'
  depends := by
    intro n hn n' hn' hbecomes x
    have hid := (h.becomes_iff hapart hn hn').mp hbecomes
    constructor
    · intro hx
      obtain ⟨p, hp, rfl⟩ := h.contracts.backward n hn n' hn' hid x hx
      obtain ⟨m, hm, rfl⟩ := hl.mem_of_pred hn hp
      obtain ⟨m', hm', hid'⟩ := h.contracts.image m hm
      exact ⟨_, hp, m', hm', (h.becomes_iff hapart hm hm').mpr hid', hid'⟩
    · rintro ⟨p, hp, p', hp', hbecomes', rfl⟩
      obtain ⟨m, hm, rfl⟩ := hl.mem_of_pred hn hp
      rw [(h.becomes_iff hapart hm hp').mp hbecomes']
      exact h.contracts.forward n hn n' hn' hid _ hp

end

/-- The passes return ordered nodes, lose nothing and keep the dependencies. -/
theorem passes_contract (nodes : List ExecutionNode) (hl : Ordered nodes)
    (hapart : Apart (nodes.map nodeId)) (hconv : ∀ n ∈ nodes, Convertible n) :
    (Passed nodes (coalesceReadyTransfers nodes) ∧
      KeepsAncestors nodes (coalesceReadyTransfers nodes)) ∧
    ((∀ n ∈ nodes, n.metadata.coalescedNodes = none) →
      ∃ nodes', batchConversions nodes = .ok nodes' ∧ Passed nodes nodes' ∧
        KeepsAncestors nodes nodes') ∧
    (Routable nodes → ∃ nodes', groupRoutedExpertNodes nodes = .ok nodes' ∧ Passed nodes nodes') ∧
    (Routable nodes → (∀ n ∈ nodes, n.metadata.coalescedNodes = none) →
      ∃ nodes', planPasses nodes = .ok nodes' ∧ Passed nodes nodes') := by
  refine ⟨?_, fun hfresh => ?_, fun hrouted => ?_, fun hrouted hfresh => ?_⟩
  · obtain ⟨_, _, hred⟩ := coalesceReadyTransfers_reduces hl hapart hconv
    exact ⟨passed_of_ordered hred.order hred.conserved, hred.keepsAncestors hapart hl⟩
  · obtain ⟨nodes', _, _, hok, hred, -⟩ := batchConversions_reduces hl hapart hfresh hconv
    exact ⟨nodes', hok, passed_of_ordered hred.order hred.conserved,
      hred.keepsAncestors hapart hl⟩
  · obtain ⟨horder, hconserved, -⟩ := regroup_experts hl hrouted hconv
    exact ⟨_, groupRoutedExpertNodes_eq_ok hl hrouted, passed_of_ordered horder hconserved⟩
  · obtain ⟨horder, hconserved, hapart', hconv'⟩ := regroup_experts hl hrouted hconv
    have hfresh' : ∀ n ∈ expertPass.regroup nodes, n.metadata.coalescedNodes = none := by
      rw [Pass.regroup_eq]
      refine (fusable_experts hl hrouted).forall_contracted Pass.sameData_fused ?_
        (fun first _ _ hall => (hall first mem_cons_self).2) hfresh
      rintro _ m ⟨_, _, _, rfl⟩ hm
      exact hm
    obtain ⟨nodes₂, _, _, hok₂, hred₂, hconv₂⟩ := batchConversions_reduces horder hapart'
      hfresh' hconv'
    obtain ⟨_, _, hred₃⟩ := coalesceReadyTransfers_reduces hred₂.order hred₂.apart hconv₂
    refine ⟨_, ?_, passed_of_ordered hred₃.order
      (hconserved.trans (hred₂.conserved.trans hred₃.conserved))⟩
    rw [planPasses, groupRoutedExpertNodes_eq_ok hl hrouted]
    change (batchConversions _ >>= _) = _
    rw [hok₂]
    rfl

/-! ## Nodes that the planner does not build -/

/-- The work of an expert on some tokens. -/
def expertWork (expert tokens : Nat) : RankLocalWork :=
  ⟨tokens, [("tokens", tokens)], [expert], [(expert, tokens)], none, some tokens, none, [], none,
    none, [], none, none⟩

/-- Two reductions that are merged, and a node with the id the result gets. -/
def clash : List ExecutionNode :=
  [plainNode "p" "attention" .compute (some .attention) none [],
    plainNode "a" "all_reduce" .communication none none ["p"],
    plainNode "b" "all_reduce" .communication none none ["p"],
    plainNode "a:batch" "residual" .compute (some .residual) none ["b"]]

/-- Reductions that are conversions too. -/
def overlap : List ExecutionNode :=
  ["a", "b"].map fun id =>
    { plainNode id "all_reduce" .communication (some .encode) (some (expertWork 0 1)) [] with
      payloadBytes := some 1 }

/-- A transfer that already lists the conversion it depends on. -/
def relisted : List ExecutionNode :=
  [plainNode "e" "encode" .compute (some .encode) (some (expertWork 0 1)) [],
    { plainNode "t" "af_a_to_f" .communication none none ["e"] with
      metadata := { Metadata.empty with coalescedNodes := some ["e"] } }]

/-- Conversions without work, and conversions of slices of unknown size. -/
def refused : List (List ExecutionNode) :=
  let slice : AFTensorSlice :=
    ⟨"x", (0, 1), .replicated, none, none, none, none, none, none, none, none, none, none⟩
  [[plainNode "e" "encode" .compute (some .encode) none []],
    ["a", "b"].map fun id =>
      { plainNode id "encode" .compute (some .encode) (some (expertWork 0 1)) [] with
        tensorSlices := [slice] }]

theorem ok_of_map {α β : Type} {x : Except PlanError α} {f : α → β} {b : β}
    (h : x.toOption.map f = some b) : ∃ a, x = .ok a ∧ f a = b := by
  cases x with
  | error e => cases h
  | ok a => exact ⟨a, rfl, Option.some.inj h⟩

/-- Without a condition on the nodes a pass may name two nodes alike, refuse the nodes, or
lose bytes or the order. -/
theorem passes_fail :
    (Ordered clash ∧ ¬ Ordered (coalesceReadyTransfers clash)) ∧
    (∀ nodes ∈ refused, Ordered nodes ∧ (batchConversions nodes).toOption.isNone = true) ∧
    (Ordered overlap ∧ ∃ nodes', batchConversions overlap = .ok nodes' ∧
      ¬ Conserved overlap nodes') ∧
    Ordered relisted ∧ ∃ nodes', batchConversions relisted = .ok nodes' ∧ ¬ Ordered nodes' := by
  have hclash : ¬ ((coalesceReadyTransfers clash).map nodeId).Nodup := by
    decide +kernel
  have horder : ∀ nodes ∈ clash :: overlap :: relisted :: refused,
      inOrder nodeId predecessorIds [] nodes = true := by decide +kernel
  have hrefused : ∀ nodes ∈ refused, (batchConversions nodes).toOption.isNone = true := by
    decide +kernel
  obtain ⟨nodes₁, hok₁, hbytes⟩ := ok_of_map (x := batchConversions overlap)
    (f := fun l => (l.map payload).sum) (b := 1) (by decide +kernel)
  obtain ⟨nodes₂, hok₂, hids⟩ := ok_of_map (x := batchConversions relisted)
    (f := fun l => l.map nodeId) (b := ["t", "t"]) (by decide +kernel)
  have hordered := fun nodes hmem => topologicalOrder_of_inOrder _ _ (horder nodes hmem)
  refine ⟨⟨hordered _ (by simp), fun h => hclash h.nodup⟩,
    fun nodes hmem => ⟨hordered _ (by simp [hmem]), hrefused nodes hmem⟩,
    ⟨hordered _ (by simp), nodes₁, hok₁, fun h => ?_⟩,
    hordered _ (by simp), nodes₂, hok₂, fun h => ?_⟩
  · have hsum := h.payload
    rw [hbytes] at hsum
    exact absurd hsum (by decide +kernel)
  · have hnodup := h.nodup
    rw [hids] at hnodup
    exact absurd hnodup (by decide)

theorem apart_of_last {ids : List String} (h : ∀ x ∈ ids, x.toList.getLast? ≠ some 'h') :
    Apart ids := by
  rintro x hx y _ k rfl
  refine h _ hx ?_
  rw [Function.iterate_succ_apply', batchId, String.toList_append, getLast?_append]
  rfl

/-- Two experts on one rank, and the reductions of their results. -/
def experts : List ExecutionNode :=
  [plainNode "p" "router" .compute (some .router) none [],
    plainNode "l:routed:e0:r0" "routed_expert" .compute (some .routedExpert)
      (some (expertWork 0 2)) ["p"],
    plainNode "l:routed:e1:r0" "routed_expert" .compute (some .routedExpert)
      (some (expertWork 1 3)) ["p"],
    plainNode "l:routed:e0:collective" "all_reduce" .communication none none
      ["l:routed:e0:r0"],
    plainNode "l:routed:e1:collective" "all_reduce" .communication none none
      ["l:routed:e1:r0"]]

theorem passes_contract_experts : Ordered experts ∧ Routable experts ∧
    ∃ nodes', planPasses experts = .ok nodes' ∧ Passed experts nodes' := by
  have hl : Ordered experts := topologicalOrder_of_inOrder _ _ (by decide +kernel)
  have hconv : ∀ n ∈ experts, Convertible n := by
    have hstage : ∀ n ∈ experts, ¬ n.IsConversion := by decide +kernel
    have hexpert : ∀ n ∈ experts, n.IsTransfer → isRoutedExpert n = false := by
      decide +kernel
    exact fun n hn => ⟨fun hs => absurd hs (hstage n hn), fun hop =>
      ⟨hstage n hn, hexpert n hn hop⟩⟩
  have hfresh : ∀ n ∈ experts, n.metadata.coalescedNodes = none := by decide +kernel
  have hrouted : Routable experts := by
    have hnode : ∀ n ∈ experts, isRoutedExpert n = true → n.localWork.isSome = true ∧
        n.workEdges = n.routingEdges ∧ (routedParts n.nodeId).2.isSome = true := by decide +kernel
    refine ⟨fun n hn hs => ?_, by decide +kernel, ⟨by decide +kernel, apart_of_last (by
      decide +kernel)⟩, by decide +kernel⟩
    obtain ⟨hwork, hedges, hparts⟩ := hnode n hn hs
    exact ⟨hwork, fun x => by rw [hedges], hparts⟩
  have hapart : Apart (experts.map nodeId) := apart_of_last (by decide +kernel)
  exact ⟨hl, hrouted, (passes_contract experts hl hapart hconv).2.2.2 hrouted hfresh⟩

end Planning

end Af

end TokenSim
