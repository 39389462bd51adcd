import TokenSim.Af.RegroupGroups

/-!
# The passes conserve what they merge

Every pass is a contraction.  `Reduces` collects what follows for the passes whose groups
share their predecessors: the order, the ancestors of nodes that were not merged, the
totals of bytes and workloads, the sets of slices and edges, and that a merged node lists
the nodes it stands for.  It composes.

The new ids need care, as the passes only append `:batch` to an id and run one after the
other.  `Apart` says that no id is another one with `:batch` appended any number of
times.  It keeps new ids distinct from the ids at hand, and every pass keeps it.
-/

namespace TokenSim

open List

namespace Af

namespace Planning

/-! ## Totals -/

/-- The operations of the transfers and collectives. -/
def mergeOperations : List String :=
  ["all_reduce", "reduce_scatter", "all_gather", "af_f_to_a", "af_a_to_f", "af_router_logits"]

namespace ExecutionNode

variable (node : ExecutionNode)

/-- The node communicates. -/
abbrev IsTransfer : Prop := node.operation ∈ mergeOperations

/-- The node converts a tensor. -/
abbrev IsConversion : Prop := node.stage = some .encode ∨ node.stage = some .decode

/-- The bytes that a transfer moves. -/
def payload : Nat := if node.IsTransfer then node.payloadBytes.getD 0 else 0

/-- The bytes that a transfer takes from a rank. -/
def inputBytes (rank : Nat) : Int :=
  if node.IsTransfer then postings node.logicalInputBytesPerRank rank else 0

/-- The bytes that a transfer brings to a rank. -/
def outputBytes (rank : Nat) : Int :=
  if node.IsTransfer then postings node.logicalOutputBytesPerRank rank else 0

/-- The tokens that a routed expert has for an expert. -/
def expertCount (expert : Nat) : Int :=
  if isRoutedExpert node then postings (node.workload.map fun e => (e.1, (e.2 : Int))) expert
  else 0

/-- The nodes that a merged node lists: `coalesced_nodes` or `conversion_members`. -/
def members : List String :=
  node.metadata.coalescedNodes.getD (node.metadata.conversionMembers.getD [])

end ExecutionNode

open ExecutionNode (payload nodeId predecessorIds inputBytes outputBytes expertCount workload)

/-- Bytes and workloads have the same totals, slices and edges are the same sets. -/
structure Conserved (nodes nodes' : List ExecutionNode) : Prop where
  payload : (nodes'.map payload).sum = (nodes.map payload).sum
  inputBytes : ∀ rank, (nodes'.map fun n => n.inputBytes rank).sum =
    (nodes.map fun n => n.inputBytes rank).sum
  outputBytes : ∀ rank, (nodes'.map fun n => n.outputBytes rank).sum =
    (nodes.map fun n => n.outputBytes rank).sum
  workload : ∀ expert, (nodes'.map fun n => n.expertCount expert).sum =
    (nodes.map fun n => n.expertCount expert).sum
  slices : ∀ x, (∃ n ∈ nodes', x ∈ n.tensorSlices) ↔ ∃ n ∈ nodes, x ∈ n.tensorSlices
  edges : ∀ x, (∃ n ∈ nodes', x ∈ n.routingEdges) ↔ ∃ n ∈ nodes, x ∈ n.routingEdges

theorem Conserved.refl (nodes : List ExecutionNode) : Conserved nodes nodes :=
  ⟨rfl, fun _ => rfl, fun _ => rfl, fun _ => rfl, fun _ => Iff.rfl, fun _ => Iff.rfl⟩

variable {nodes nodes' nodes'' rest : List ExecutionNode} {first n m k : ExecutionNode}

theorem Conserved.trans (h : Conserved nodes nodes') (h' : Conserved nodes' nodes'') :
    Conserved nodes nodes'' where
  payload := h'.payload.trans h.payload
  inputBytes := fun rank => (h'.inputBytes rank).trans (h.inputBytes rank)
  outputBytes := fun rank => (h'.outputBytes rank).trans (h.outputBytes rank)
  workload := fun expert => (h'.workload expert).trans (h.workload expert)
  slices := fun x => (h'.slices x).trans (h.slices x)
  edges := fun x => (h'.edges x).trans (h.edges x)

/-- Two nodes that differ in their dependencies only. -/
def SameData (n m : ExecutionNode) : Prop :=
  ∃ preds producers bound, n =
    { m with predecessorIds := preds, inputProducerIds := producers, bound := bound }

theorem SameData.trans (h : SameData n m) (h' : SameData m k) : SameData n k := by
  obtain ⟨_, _, _, rfl⟩ := h
  obtain ⟨_, _, _, rfl⟩ := h'
  exact ⟨_, _, _, rfl⟩

theorem SameData.nodeId_eq (h : SameData n m) : n.nodeId = m.nodeId := by
  obtain ⟨_, _, _, rfl⟩ := h
  rfl

theorem SameData.members_eq (h : SameData n m) : n.members = m.members := by
  obtain ⟨_, _, _, rfl⟩ := h
  rfl

namespace Pass

section Groups

variable {κ : Type} [DecidableEq κ] {P : Pass κ} {g : ExecutionNode → ExecutionNode}

theorem sameData_fused (r : ExecutionNode) (_ : r ∈ nodes) (_ : P.keeps nodes r = true) :
    SameData (P.fused nodes r) (P.replaced nodes r) := ⟨_, _, _, rfl⟩

variable (h : Fusable P nodes)
  (hg : ∀ r ∈ nodes, P.keeps nodes r = true → SameData (g r) (P.replaced nodes r))

include h hg

theorem Fusable.conserved
    (hc : Contraction nodeId predecessorIds (P.label nodes) (P.keeps nodes) g nodes)
    (hfuse : ∀ first rest, P.groupWith nodes (P.groupKey first) = first :: rest →
      Conserved (first :: rest) [P.fuse first rest]) :
    Conserved nodes (contracted (P.keeps nodes) g nodes) := by
  have hsum : ∀ {M : Type} [AddCommMonoid M] (f : ExecutionNode → M),
      (∀ n m, SameData n m → f n = f m) →
      (∀ first rest, P.groupWith nodes (P.groupKey first) = first :: rest →
        ([P.fuse first rest].map f).sum = ((first :: rest).map f).sum) →
      ((contracted (P.keeps nodes) g nodes).map f).sum = (nodes.map f).sum := by
    intro M _ f hsame hgroup
    refine hc.sum_eq h.order f fun r hr hkept => (hsame _ _ (hg r hr hkept)).trans ?_
    refine h.sum_class hr hkept f fun first rest hfirst => ?_
    rw [← hgroup first rest hfirst, map_singleton, sum_singleton]
  have hmem : ∀ {β : Type} (S : ExecutionNode → List β),
      (∀ n m, SameData n m → S n = S m) →
      (∀ first rest, P.groupWith nodes (P.groupKey first) = first :: rest →
        ∀ x, (∃ n ∈ [P.fuse first rest], x ∈ S n) ↔ ∃ n ∈ first :: rest, x ∈ S n) →
      ∀ x, (∃ n ∈ contracted (P.keeps nodes) g nodes, x ∈ S n) ↔ ∃ n ∈ nodes, x ∈ S n := by
    intro β S hsame hgroup
    refine hc.mem_iff S fun r hr hkept x => ?_
    rw [hsame _ _ (hg r hr hkept)]
    refine h.mem_class hr hkept S (fun first rest hfirst x => ?_) x
    rw [← hgroup first rest hfirst x]
    simp
  refine ⟨hsum _ ?_ fun f r hf => (hfuse f r hf).payload,
    fun rank => hsum _ ?_ fun f r hf => (hfuse f r hf).inputBytes rank,
    fun rank => hsum _ ?_ fun f r hf => (hfuse f r hf).outputBytes rank,
    fun expert => hsum _ ?_ fun f r hf => (hfuse f r hf).workload expert,
    hmem _ ?_ fun f r hf => (hfuse f r hf).slices, hmem _ ?_ fun f r hf => (hfuse f r hf).edges⟩
  all_goals
    rintro _ m ⟨_, _, _, rfl⟩
    rfl

/-- What holds of all nodes and of fused groups holds after the pass. -/
theorem Fusable.forall_contracted {Q : ExecutionNode → Prop}
    (hQ : ∀ n m, SameData n m → Q m → Q n)
    (hfuse : ∀ first rest, P.groupWith nodes (P.groupKey first) = first :: rest →
      (∀ m ∈ first :: rest, P.selects m = true ∧ Q m) → Q (P.fuse first rest))
    (hall : ∀ n ∈ nodes, Q n) : ∀ n ∈ contracted (P.keeps nodes) g nodes, Q n := by
  intro n hn
  obtain ⟨r, hr, hkept, rfl⟩ := mem_contracted.mp hn
  refine hQ _ _ (hg r hr hkept) ?_
  obtain ⟨rest, -, ⟨-, -, hgroup, heq⟩ | ⟨-, -, heq⟩⟩ := h.replaced_cases hr hkept
  · rw [heq]
    refine hfuse r rest hgroup fun m hm => ?_
    obtain ⟨hm, hs, -⟩ := mem_groupWith.mp (hgroup ▸ hm)
    exact ⟨hs, hall m hm⟩
  · rw [heq]
    exact hall r hr

end Groups

end Pass

/-! ## Ids -/

theorem batchId_injective : Function.Injective batchId := by
  intro a b h
  have hlist := congrArg String.toList h
  simp only [batchId, String.toList_append] at hlist
  exact String.toList_injective (append_cancel_right hlist)

/-- No id is another one with `:batch` appended. -/
def Apart (ids : List String) : Prop :=
  ∀ x ∈ ids, ∀ y ∈ ids, ∀ k, x ≠ batchId^[k + 1] y

theorem Apart.ne (h : Apart (nodes.map nodeId)) (hn : n ∈ nodes) (hm : m ∈ nodes) (k : Nat) :
    n.nodeId ≠ batchId^[k + 1] m.nodeId :=
  h _ (mem_map_of_mem hn) _ (mem_map_of_mem hm) k

section

variable (relabel : String → String) (nodes : List ExecutionNode) (n' : ExecutionNode)

/-- A node of the result that is an old one. -/
def Stays : Prop :=
  ∃ n ∈ nodes, SameData n' n ∧ ∀ k ∈ nodes, relabel k.nodeId = n'.nodeId ↔ k.nodeId = n'.nodeId

/-- A new node, with an old id with `:batch` appended.  It lists the nodes it stands for. -/
structure Joins : Prop where
  grows : ∃ m ∈ nodes, ∃ k, n'.nodeId = batchId^[k + 1] m.nodeId
  members : ∀ id, id ∈ n'.members ↔ ∃ n ∈ nodes, n.nodeId = id ∧ relabel id = n'.nodeId

end

/-- What a pass with shared predecessors does to the nodes.  It merges nodes of a kind. -/
structure Reduces (kind : ExecutionNode → Prop) (relabel : String → String)
    (nodes nodes' : List ExecutionNode) : Prop where
  order : Ordered nodes'
  apart : Apart (nodes'.map nodeId)
  contracts : Contracts nodeId predecessorIds relabel nodes nodes'
  result : ∀ n' ∈ nodes', Stays relabel nodes n' ∨ kind n' ∧ Joins relabel nodes n'
  conserved : Conserved nodes nodes'

variable {kind kind' : ExecutionNode → Prop} {relabel relabel' : String → String}

theorem Reduces.refl (hl : Ordered nodes) (hapart : Apart (nodes.map nodeId)) :
    Reduces kind id nodes nodes :=
  ⟨hl, hapart, .refl hl, fun n hn => .inl ⟨n, hn, ⟨_, _, n.bound, rfl⟩, fun _ _ => .rfl⟩,
    .refl nodes⟩

/-- The second pass merges none of the nodes that the first one has made. -/
theorem Reduces.trans (h : Reduces kind relabel nodes nodes')
    (h' : Reduces kind' relabel' nodes' nodes'') (hkind : ∀ n m, SameData n m → kind m → kind n)
    (hkept : ∀ n' ∈ nodes', kind n' → relabel' n'.nodeId = n'.nodeId) :
    Reduces (fun n => kind n ∨ kind' n) (relabel' ∘ relabel) nodes nodes'' where
  order := h'.order
  apart := h'.apart
  contracts := h.contracts.trans h'.contracts
  conserved := h.conserved.trans h'.conserved
  result := by
    intro n'' hn''
    rcases h'.result n'' hn'' with ⟨n', hn', hsame', hiff'⟩ | ⟨hk', ⟨⟨m', hm', j, hid⟩, hlist'⟩⟩
    · -- an old node of the second pass
      have hpull : ∀ k ∈ nodes, relabel' (relabel k.nodeId) = n''.nodeId ↔
          relabel k.nodeId = n'.nodeId := by
        intro k hk
        obtain ⟨k', hk', heq⟩ := h.contracts.image k hk
        rw [← heq, hiff' k' hk', hsame'.nodeId_eq]
      rcases h.result n' hn' with ⟨n, hn, hsame, hiff⟩ | ⟨hk, ⟨hgrows, hlist⟩⟩
      · refine .inl ⟨n, hn, hsame'.trans hsame, fun k hk => ?_⟩
        rw [Function.comp, hpull k hk, hiff k hk, hsame'.nodeId_eq]
      · refine .inr ⟨.inl (hkind _ _ hsame' hk), ⟨hsame'.nodeId_eq ▸ hgrows, fun id => ?_⟩⟩
        rw [hsame'.members_eq, hlist id]
        refine exists_congr fun n => and_congr_right fun hn => and_congr_right ?_
        rintro rfl
        exact (hpull n hn).symm
    · -- a node the first pass has made is not among the members
      have hold : ∀ k' ∈ nodes', relabel' k'.nodeId = n''.nodeId → Stays relabel nodes k' := by
        intro k' hk'' heq
        refine (h.result k' hk'').resolve_right fun hjoin => h.apart.ne hk'' hm' j ?_
        rw [← hid, ← heq, hkept k' hk'' hjoin.1]
      refine .inr ⟨.inr hk', ⟨?_, fun id => (hlist' id).trans ⟨?_, ?_⟩⟩⟩
      · rcases h.result m' hm' with ⟨m, hm, hsame, -⟩ | ⟨-, ⟨⟨m, hm, i, hid'⟩, -⟩⟩
        · exact ⟨m, hm, j, by rw [hid, hsame.nodeId_eq]⟩
        · exact ⟨m, hm, j + 1 + i, by rw [hid, hid', ← Function.iterate_add_apply]; rfl⟩
      · rintro ⟨k', hk'', rfl, heq⟩
        obtain ⟨n, hn, hsame, hiff⟩ := hold k' hk'' heq
        refine ⟨n, hn, hsame.nodeId_eq.symm, ?_⟩
        rw [Function.comp, hsame.nodeId_eq, (hiff n hn).mpr hsame.nodeId_eq.symm]
        exact heq
      · rintro ⟨n, hn, rfl, heq⟩
        obtain ⟨k', hk'', hkid⟩ := h.contracts.image n hn
        rw [Function.comp, ← hkid] at heq
        obtain ⟨-, -, -, hiff⟩ := hold k' hk'' heq
        have hid' := (hiff n hn).mp hkid.symm
        exact ⟨k', hk'', hid'.symm, hid' ▸ heq⟩

/-- Nodes whose ids are still there have the ancestors they had. -/
theorem Reduces.ancestor_iff (h : Reduces kind relabel nodes nodes') (hl : Ordered nodes)
    (hapart : Apart (nodes.map nodeId)) (hn : n ∈ nodes) (hm : m ∈ nodes)
    (hn' : n.nodeId ∈ nodes'.map nodeId) (hm' : m.nodeId ∈ nodes'.map nodeId) :
    Ancestor nodeId predecessorIds nodes n.nodeId m.nodeId ↔
      Ancestor nodeId predecessorIds nodes' n.nodeId m.nodeId := by
  have honly : ∀ {n}, n ∈ nodes → n.nodeId ∈ nodes'.map nodeId → ∀ k ∈ nodes,
      relabel k.nodeId = n.nodeId ↔ k.nodeId = n.nodeId := by
    intro n hn hmem
    obtain ⟨n', hn', hid⟩ := mem_map.mp hmem
    rcases h.result n' hn' with ⟨-, -, -, hiff⟩ | ⟨-, ⟨⟨l, hl, j, hgrown⟩, -⟩⟩
    · rwa [hid] at hiff
    · exact absurd (hid.symm.trans hgrown) (hapart.ne hn hl j)
  exact h.contracts.ancestor_iff hl hm ((honly hn hn' n hn).mpr rfl) ((honly hm hm' m hm).mpr rfl)
    fun k hk => (honly hn hn' k hk).mp

namespace Pass

section Batches

variable {κ : Type} [DecidableEq κ] {P : Pass κ}

variable (P) in
/-- The groups of the pass share their predecessors, and a fused node lists its group. -/
structure Batches : Prop where
  newId : P.newId = batchId
  fuse_id : ∀ first rest, (P.fuse first rest).nodeId = batchId first.nodeId
  fuse_preds : ∀ first rest, (P.fuse first rest).predecessorIds = first.predecessorIds
  fuse_members : ∀ first rest, (P.fuse first rest).members = (first :: rest).map nodeId
  shared : ∀ n m, P.groupKey n = P.groupKey m → n.predecessorIds = m.predecessorIds

variable (hP : Batches P)

include hP

theorem Batches.fusable (hl : Ordered nodes) (hapart : Apart (nodes.map nodeId)) :
    Fusable P nodes where
  order := hl
  fresh := fun n hn _ m hm heq => hapart.ne hm hn 0 (by rw [← heq, hP.newId]; rfl)
  injective := fun _ _ _ _ _ _ heq => batchId_injective (hP.newId ▸ heq)
  fuse_id := fun first rest => by rw [hP.fuse_id, hP.newId]
  fuse_preds := by
    intro first rest hgroup x
    rw [hP.fuse_preds]
    refine ⟨fun hx => ⟨first, mem_cons_self .., hx⟩, ?_⟩
    rintro ⟨n, hn, hx⟩
    exact hP.shared n first (mem_groupWith.mp (hgroup ▸ hn)).2.2 ▸ hx
  early := by
    intro l₁ r l₂ hsplit _ n _ _ hkey p hp
    exact hl.before l₁ r l₂ hsplit p (hP.shared n r hkey ▸ hp)

variable (h : Fusable P nodes)

include h

omit hP in
theorem Fusable.label_of_not_selected (hn : n ∈ nodes) (hs : P.selects n = false) :
    P.label nodes n.nodeId = n.nodeId :=
  h.label_not_merged hn fun hm => absurd hm.1 (by simp [hs])

theorem Batches.label_cases (hn : n ∈ nodes) :
    (¬ P.Merged nodes n ∧ P.label nodes n.nodeId = n.nodeId) ∨
    ∃ first ∈ nodes, P.Merged nodes first ∧ P.label nodes n.nodeId = batchId first.nodeId := by
  by_cases hmerged : P.Merged nodes n
  · obtain ⟨first, hfirst⟩ := hmerged.exists_leads
    obtain ⟨hmem, hs, hkey⟩ := hfirst.mem
    refine .inr ⟨first, hmem, hmerged.congr hs hkey, ?_⟩
    rw [h.label_merged hn hmerged hfirst, hP.newId]
  · exact .inl ⟨hmerged, h.label_not_merged hn hmerged⟩

theorem Batches.reduces (hapart : Apart (nodes.map nodeId)) {g : ExecutionNode → ExecutionNode}
    (hc : Contraction nodeId predecessorIds (P.label nodes) (P.keeps nodes) g nodes)
    (hg : ∀ r ∈ nodes, P.keeps nodes r = true → SameData (g r) (P.replaced nodes r))
    (hkind : ∀ n first rest, first ∈ nodes → P.selects first = true →
      SameData n (P.fuse first rest) → kind n)
    (hfuse : ∀ first rest, P.groupWith nodes (P.groupKey first) = first :: rest →
      Conserved (first :: rest) [P.fuse first rest]) :
    Reduces kind (P.label nodes) nodes (contracted (P.keeps nodes) g nodes) where
  order := hc.ordered h.order
  contracts := hc.contracts fun n hn m hm heq => by
    rcases (h.label_eq_iff hn hm).mp heq with rfl | ⟨-, -, hkey⟩
    · rfl
    · exact hP.shared n m hkey
  conserved := h.conserved hg hc hfuse
  result := by
    intro n' hn'
    obtain ⟨r, hr, hkept, rfl⟩ := mem_contracted.mp hn'
    have hsame := hg r hr hkept
    obtain ⟨rest, hclass, ⟨hmerged, -, -, heq⟩ | ⟨hmerged, -, heq⟩⟩ := h.replaced_cases hr hkept
    · rw [heq] at hsame
      refine .inr ⟨hkind _ r rest hr hmerged.1 hsame, ⟨⟨r, hr, 0, ?_⟩, fun id => ?_⟩⟩
      · rw [hsame.nodeId_eq, hP.fuse_id]
        rfl
      · rw [hsame.members_eq, hP.fuse_members, ← hclass, hc.key_fuse r hr hkept]
        simp only [mem_map, mem_filter, decide_eq_true_eq, and_assoc]
        refine exists_congr fun n => and_congr_right fun _ => ?_
        rw [and_comm]
        exact and_congr_right fun hid => by rw [hid]
    · rw [heq] at hsame
      refine .inl ⟨r, hr, hsame, fun k hk => ?_⟩
      rw [hc.key_fuse r hr hkept, h.label_eq_iff_of_not_merged hk hr hmerged,
        h.label_not_merged hr hmerged]
      exact ⟨fun hkr => hkr ▸ rfl, h.order.eq_of_key_eq hk hr⟩
  apart := by
    intro x hx y hy k heq
    obtain ⟨x', hx', rfl⟩ := mem_map.mp hx
    obtain ⟨y', hy', rfl⟩ := mem_map.mp hy
    obtain ⟨r, hr, hkept, rfl⟩ := mem_contracted.mp hx'
    obtain ⟨q, hq, hkept', rfl⟩ := mem_contracted.mp hy'
    rw [hc.key_fuse r hr hkept, hc.key_fuse q hq hkept'] at heq
    rcases hP.label_cases h hr with ⟨-, hr'⟩ | ⟨f, hf, hfm, hr'⟩
    · rcases hP.label_cases h hq with ⟨-, hq'⟩ | ⟨e, he, -, hq'⟩
      · rw [hr', hq'] at heq
        exact hapart.ne hr hq k heq
      · rw [hr', hq', ← Function.iterate_succ_apply] at heq
        exact hapart.ne hr he (k + 1) heq
    · rcases hP.label_cases h hq with ⟨hqm, hq'⟩ | ⟨e, he, -, hq'⟩
      · rw [hr', hq', Function.iterate_succ_apply'] at heq
        have heq := batchId_injective heq
        cases k with
        | zero => exact hqm (h.order.eq_of_key_eq hf hq heq ▸ hfm)
        | succ k => exact hapart.ne hf hq k heq
      · rw [hr', hq', Function.iterate_succ_apply', ← Function.iterate_succ_apply] at heq
        exact hapart.ne hf he k (batchId_injective heq)

end Batches

end Pass

/-! ## Transfers -/

theorem postings_bytesPerRank (l : List (Nat × Int)) (k : Nat) :
    postings (bytesPerRank l) k = postings l k := by
  rw [bytesPerRank, postings_perm (perm_insertionSort _ _), Tally.postings_entries,
    Tally.amount_addAll, Tally.amount_empty, Int.zero_add]

/-- Quantities that a group and the node it becomes do not have. -/
theorem sum_eq_of_zero {M : Type} [AddCommMonoid M] {f : ExecutionNode → M}
    {group : List ExecutionNode} (h : ∀ n ∈ group, f n = 0) (h' : f n = 0) :
    ([n].map f).sum = (group.map f).sum := by
  rw [sum_eq_zero (l := group.map f), map_singleton, sum_singleton, h']
  intro k hk
  obtain ⟨n, hn, rfl⟩ := mem_map.mp hk
  exact h n hn

theorem conserved_fuseTransfers
    (h : ∀ n ∈ first :: rest, n.IsTransfer ∧ isRoutedExpert n = false) :
    Conserved (first :: rest) [fuseTransfers first rest] := by
  have hfirst := h first mem_cons_self
  have hsum : ∀ {M : Type} [AddCommMonoid M] (f : ExecutionNode → M),
      ((first :: rest).map fun n => if n.IsTransfer then f n else 0).sum =
        ((first :: rest).map f).sum := fun f => by
    rw [map_congr_left fun n hn => if_pos (h n hn).1]
  have hbytes : ∀ (bytes : ExecutionNode → List (Nat × Int)) rank,
      postings (bytesPerRank ((first :: rest).flatMap bytes)) rank =
        ((first :: rest).map fun n => if n.IsTransfer then postings (bytes n) rank else 0).sum :=
    fun bytes rank => by
      rw [postings_bytesPerRank, postings_flatMap, hsum fun n => postings (bytes n) rank]
  refine ⟨?_, fun rank => ?_, fun rank => ?_, fun expert => ?_, fun x => ?_, fun x => ?_⟩
  · rw [map_singleton, sum_singleton]
    exact (if_pos hfirst.1).trans (hsum fun n => n.payloadBytes.getD 0).symm
  · rw [map_singleton, sum_singleton]
    exact (if_pos hfirst.1).trans (hbytes _ rank)
  · rw [map_singleton, sum_singleton]
    exact (if_pos hfirst.1).trans (hbytes _ rank)
  · exact sum_eq_of_zero (fun n hn => by simp [expertCount, (h n hn).2])
      (if_neg (Bool.eq_false_iff.mp hfirst.2))
  · simp [fuseTransfers, or_and_right, exists_or]
  · simp [fuseTransfers, or_and_right, exists_or]

theorem batches_mergePass (selects : ExecutionNode → Bool) : (mergePass selects).Batches :=
  ⟨rfl, fun _ _ => rfl, fun _ _ => rfl, fun _ _ => rfl,
    fun _ _ h => congrArg MergeKey.predecessorIds h⟩

/-- Conversions have a local work and slices of known size.  Transfers and collectives are
no conversions and no routed experts. -/
structure Convertible (n : ExecutionNode) : Prop where
  conversion : n.IsConversion →
    n.localWork.isSome = true ∧ ∀ s ∈ n.tensorSlices, s.elementCount.isSome = true
  transfer : n.IsTransfer → ¬ n.IsConversion ∧ isRoutedExpert n = false

theorem SameData.convertible (n m : ExecutionNode) (hsame : SameData n m) (h : Convertible m) :
    Convertible n := by
  obtain ⟨_, _, _, rfl⟩ := hsame
  exact ⟨h.conversion, h.transfer⟩

theorem convertible_fuseTransfers (rest : List ExecutionNode)
    (h : Convertible first) (hop : first.IsTransfer) : Convertible (fuseTransfers first rest) :=
  ⟨fun hstage => absurd hstage (h.transfer hop).1, h.transfer⟩

theorem mergeNodes_reduces (hl : Ordered nodes) (hapart : Apart (nodes.map nodeId))
    (operations : List String) (hops : operations ⊆ mergeOperations)
    (h : ∀ n ∈ nodes, Convertible n) :
    (∃ relabel, Reduces (·.operation ∈ operations) relabel nodes (mergeNodes nodes operations) ∧
      ∀ n ∈ nodes, n.operation ∉ operations → relabel n.nodeId = n.nodeId) ∧
    ∀ n ∈ mergeNodes nodes operations, Convertible n := by
  have hP := batches_mergePass fun node => decide (node.operation ∈ operations)
  have hf := hP.fusable hl hapart
  rw [mergeNodes, Pass.regroup_eq]
  refine ⟨⟨_, hP.reduces hf hapart hf.contraction Pass.sameData_fused (fun n first rest _ hs hsame => ?_)
    fun first rest hgroup => conserved_fuseTransfers fun n hn => ?_,
      fun n hn hop => hf.label_of_not_selected hn (decide_eq_false hop)⟩,
    hf.forall_contracted Pass.sameData_fused SameData.convertible (fun first rest _ hall => ?_) h⟩
  · obtain ⟨_, _, _, rfl⟩ := hsame
    exact of_decide_eq_true hs
  · obtain ⟨hn, hs, -⟩ := Pass.mem_groupWith.mp (hgroup ▸ hn)
    have hop := hops (of_decide_eq_true hs)
    exact ⟨hop, ((h n hn).transfer hop).2⟩
  · obtain ⟨hs, hfirst⟩ := hall first mem_cons_self
    exact convertible_fuseTransfers rest hfirst (hops (of_decide_eq_true hs))

theorem coalesceReadyTransfers_reduces (hl : Ordered nodes)
    (hapart : Apart (nodes.map nodeId)) (h : ∀ n ∈ nodes, Convertible n) :
    ∃ kind relabel, Reduces kind relabel nodes (coalesceReadyTransfers nodes) := by
  obtain ⟨⟨relabel, hfirst, -⟩, h'⟩ := mergeNodes_reduces hl hapart
    ["all_reduce", "reduce_scatter", "all_gather"] (by simp [mergeOperations]) h
  obtain ⟨⟨relabel', hsecond, hkept⟩, -⟩ := mergeNodes_reduces hfirst.order hfirst.apart
    ["af_f_to_a", "af_a_to_f"] (by simp [mergeOperations]) h'
  refine ⟨_, _, hfirst.trans hsecond ?_ fun n' hn' hop => hkept n' hn' ?_⟩
  · rintro _ m ⟨_, _, _, rfl⟩ hop
    exact hop
  · intro hop'
    simp only [mem_cons, not_mem_nil, or_false] at hop hop'
    rcases hop with hop | hop | hop
    all_goals simp [hop] at hop'

/-! ## Conversions -/

theorem batches_conversionPass (stage : ExecutionStage) : (conversionPass stage).Batches :=
  ⟨rfl, fun _ _ => rfl, fun _ _ => rfl, fun _ _ => rfl,
    fun _ _ h => congrArg ConversionKey.predecessorIds h⟩

theorem Convertible.silent (h : Convertible n) (hn : n.IsConversion) :
    ¬ n.IsTransfer ∧ isRoutedExpert n = false := by
  refine ⟨fun hop => (h.transfer hop).1 hn, ?_⟩
  rcases hn with hn | hn
  all_goals simp [isRoutedExpert, hn]

theorem conserved_fuseConversions (h : ∀ n ∈ first :: rest, Convertible n ∧ n.IsConversion) :
    Conserved (first :: rest) [fuseConversions first rest] := by
  have hsilent := fun n hn => (h n hn).1.silent (h n hn).2
  have hfirst := hsilent first mem_cons_self
  refine ⟨sum_eq_of_zero (fun n hn => if_neg (hsilent n hn).1) (if_neg hfirst.1),
    fun rank => sum_eq_of_zero (fun n hn => if_neg (hsilent n hn).1) (if_neg hfirst.1),
    fun rank => sum_eq_of_zero (fun n hn => if_neg (hsilent n hn).1) (if_neg hfirst.1),
    fun expert => sum_eq_of_zero (fun n hn => by simp [expertCount, (hsilent n hn).2])
      (if_neg (Bool.eq_false_iff.mp hfirst.2)), fun x => ?_, fun x => ?_⟩
  · simp [fuseConversions, or_and_right, exists_or]
  · simp [fuseConversions, or_and_right, exists_or]

theorem convertible_fuseConversions (h : ∀ n ∈ first :: rest, Convertible n ∧ n.IsConversion) :
    Convertible (fuseConversions first rest) := by
  obtain ⟨hconv, hfirst⟩ := h first mem_cons_self
  refine ⟨fun _ => ⟨?_, fun s hs => ?_⟩, fun hop => absurd hfirst (hconv.transfer hop).1⟩
  · simpa [fuseConversions] using (hconv.conversion hfirst).1
  · simp only [fuseConversions, mem_eraseDups, mem_flatMap] at hs
    obtain ⟨n, hn, hs⟩ := hs
    exact ((h n hn).1.conversion (h n hn).2).2 s hs

theorem batchStage_eq_ok {stage : ExecutionStage} (hstage : stage = .encode ∨ stage = .decode)
    (h : ∀ n ∈ nodes, Convertible n) :
    batchStage nodes stage = .ok ((conversionPass stage).regroup nodes) := by
  have hconversion : ∀ {n : ExecutionNode}, n.stage = some stage → n.IsConversion := by
    intro n hn
    rw [ExecutionNode.IsConversion, hn]
    simpa using hstage
  unfold batchStage
  rw [if_neg, if_neg]
  · rintro ⟨group, hgroup, n, hn, s, hs, hcount⟩
    obtain ⟨m, -, -, rfl⟩ := Pass.mem_mergedGroups.mp hgroup
    obtain ⟨hn, hsel, -⟩ := Pass.mem_groupWith.mp hn
    have hsome := ((h n hn).conversion (hconversion (of_decide_eq_true hsel))).2 s hs
    rw [Option.isNone_iff_eq_none.mp hcount] at hsome
    cases hsome
  · rintro ⟨n, hn, hn', hnone⟩
    have hsome := ((h n hn).conversion (hconversion hn')).1
    rw [Option.isNone_iff_eq_none.mp hnone] at hsome
    cases hsome

theorem batchStage_reduces {stage : ExecutionStage}
    (hstage : stage = .encode ∨ stage = .decode) (hl : Ordered nodes)
    (hapart : Apart (nodes.map nodeId)) (h : ∀ n ∈ nodes, Convertible n) :
    ∃ nodes' relabel, batchStage nodes stage = .ok nodes' ∧
      Reduces (·.stage = some stage) relabel nodes nodes' ∧
      (∀ n ∈ nodes, n.stage ≠ some stage → relabel n.nodeId = n.nodeId) ∧
      (∀ n ∈ nodes', Convertible n) ∧
      ((∀ n ∈ nodes, n.metadata.coalescedNodes = none) →
        ∀ n ∈ nodes', n.metadata.coalescedNodes = none) := by
  have hP := batches_conversionPass stage
  have hf := hP.fusable hl hapart
  have hmember : ∀ n, (conversionPass stage).selects n = true → n.IsConversion := by
    intro n hs
    rw [ExecutionNode.IsConversion, of_decide_eq_true hs]
    simpa using hstage
  refine ⟨_, _, (batchStage_eq_ok hstage h).trans (congrArg _ Pass.regroup_eq),
    hP.reduces hf hapart hf.contraction Pass.sameData_fused (fun n first rest _ hs hsame => ?_)
      fun first rest hgroup => conserved_fuseConversions fun n hn => ?_,
    fun n hn hne => hf.label_of_not_selected hn (decide_eq_false hne),
    hf.forall_contracted Pass.sameData_fused SameData.convertible (fun first rest _ hall => ?_) h,
    hf.forall_contracted Pass.sameData_fused (Q := fun n => n.metadata.coalescedNodes = none) ?_
      fun _ _ _ _ => rfl⟩
  · obtain ⟨_, _, _, rfl⟩ := hsame
    exact of_decide_eq_true hs
  · obtain ⟨hn, hs, -⟩ := Pass.mem_groupWith.mp (hgroup ▸ hn)
    exact ⟨h n hn, hmember n hs⟩
  · exact convertible_fuseConversions fun n hn => ⟨(hall n hn).2, hmember n (hall n hn).1⟩
  · rintro _ m ⟨_, _, _, rfl⟩ hm
    exact hm

end Planning

end Af

end TokenSim
