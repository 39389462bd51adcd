import Mathlib.Data.List.Sort
import TokenSim.Lib.Tally

/-!
# Merging nodes of an execution DAG

Three passes over the nodes of a layer replace groups of nodes by one node each.
`groupRoutedExpertNodes` groups the experts that run on one rank, `batchConversions` the
conversions of tensors at shared producers together with the transfers of their results,
and `coalesceReadyTransfers` the transfers and collectives whose producers are shared.

The passes work alike.  The nodes that a pass selects are grouped by a key in a
dictionary; a group of two or more is replaced by a node at the place of its first
member, and the dependencies on its members become dependencies on that node.  This is
`Pass.regroup`.  The passes differ in what they select, in the key, and in how they fuse
a group.
-/

namespace TokenSim

open List

namespace Af

namespace Planning

/-- How a tensor lies on the ranks of its domain. -/
inductive TensorLayout where
  | sharded
  | replicated
  | partialSum
  deriving DecidableEq, Repr

/-- Nodes compute or communicate. -/
inductive NodeKind where
  | compute
  | communication
  deriving DecidableEq, Repr

/-- The stage a node belongs to. -/
inductive ExecutionStage where
  | a
  | router
  | expert
  | attention
  | denseFfn
  | routedExpert
  | sharedExpert
  | weightedCombine
  | residual
  | cast
  | encode
  | decode
  | layout
  deriving DecidableEq, Repr

/-- An interval of a tensor and its owner. -/
structure AFTensorSlice where
  tensorItemId : String
  interval : Nat × Nat
  layout : TensorLayout
  ownerDomain : Option String
  ownerDomainRank : Option Nat
  ownerDpRank : Option Nat
  ownerTpRank : Option Nat
  ownerPhysicalWorker : Option String
  partialId : Option String
  canonicalProducer : Option String
  routingWeight : Option Rat
  elementCount : Option Nat
  payloadBytes : Option Nat
  deriving DecidableEq

/-- One token sent to one expert. -/
structure AFRoutingEdge where
  iterationId : Nat
  phase : String
  decodeStep : Nat
  layerId : Nat
  requestId : Nat
  tokenId : Nat
  topKIndex : Nat
  expertId : Nat
  routingWeight : Rat
  aDpRank : Nat
  aTpRank : Nat
  deriving DecidableEq

/-- What a node computes on its rank. -/
structure RankLocalWork where
  tokenCount : Nat
  tensorShape : List (String × Nat)
  expertIds : List Nat
  expertWorkload : List (Nat × Nat)
  originalTokenCount : Option Nat
  assignmentCount : Option Nat
  outputTokenCount : Option Nat
  tensorSlices : List AFTensorSlice
  sourceLayout : Option TensorLayout
  targetLayout : Option TensorLayout
  routingEdges : List AFRoutingEdge
  sourceDtype : Option String
  targetDtype : Option String

/-- The entries of `metadata` that a pass reads or writes, and the others. -/
structure Metadata where
  coalescedNodes : Option (List String)
  originalTokenCount : Option Nat
  assignmentCount : Option Nat
  conversionMembers : Option (List String)
  executionUnit : Option String
  memberNodeIds : Option (List String)
  other : List (String × String)

/-- No metadata. -/
def Metadata.empty : Metadata := ⟨none, none, none, none, none, none, []⟩

/-- A node of an execution plan. -/
structure ExecutionNode where
  nodeId : String
  operation : String
  kind : NodeKind
  predecessorIds : List String
  stage : Option ExecutionStage
  sourceDomain : String
  targetDomain : String
  logicalParticipants : List String
  domainRanks : List Nat
  physicalWorkers : List String
  dpRank : Nat
  tpRank : Option Nat
  epRank : Option Nat
  tpGroup : List Nat
  epGroup : List Nat
  localWork : Option RankLocalWork
  network : Option String
  resourceGroup : Option String
  resourceLane : Option String
  payloadBytes : Option Nat
  logicalInputBytesPerRank : List (Nat × Int)
  logicalOutputBytesPerRank : List (Nat × Int)
  layerType : Option String
  inputProducerIds : List (String × String)
  tensorSlices : List AFTensorSlice
  sourceLayout : Option TensorLayout
  targetLayout : Option TensorLayout
  metadata : Metadata
  routingEdges : List AFRoutingEdge
  /-- The producers of the inputs are predecessors. -/
  bound : ∀ e ∈ inputProducerIds, e.2 ∈ predecessorIds

/-- What building a plan raises. -/
inductive PlanError where
  | configuration (text : String)
  /-- An attribute of a missing local work. -/
  | attribute
  /-- A sum over missing element counts. -/
  | type
  | key
  | index
  deriving DecidableEq, Repr

/-! ## Groups -/

/-- `aliases.get(key, key)`. -/
def aliasOf (aliases : OrderedDict String String) (id : String) : String :=
  (aliases.get? id).getD id

/-- Rename the nodes that a node refers to. -/
def rewriteNode (relabel : String → String) (node : ExecutionNode) : ExecutionNode :=
  { node with
    predecessorIds := (node.predecessorIds.map relabel).eraseDups
    inputProducerIds := node.inputProducerIds.map fun e => (e.1, relabel e.2)
    bound := by
      intro e he
      obtain ⟨e', he', rfl⟩ := mem_map.mp he
      exact mem_eraseDups.mpr (mem_map_of_mem (node.bound e' he')) }

/-- Rename the members of merged groups everywhere. -/
def rewriteDependencies (nodes : List ExecutionNode) (aliases : OrderedDict String String) :
    List ExecutionNode :=
  nodes.map (rewriteNode (aliasOf aliases))

/-- A pass: the nodes it groups, the key of a group, and the node a group becomes. -/
structure Pass (κ : Type) where
  selects : ExecutionNode → Bool
  groupKey : ExecutionNode → κ
  newId : String → String
  fuse : ExecutionNode → List ExecutionNode → ExecutionNode

namespace Pass

variable {κ : Type} [DecidableEq κ] (pass : Pass κ) (nodes : List ExecutionNode)

/-- The selected nodes with the key of a node. -/
def groupWith (k : κ) : List ExecutionNode :=
  nodes.filter fun node => pass.selects node && pass.groupKey node = k

/-- The values of the dictionary `groups` with two or more nodes. -/
def mergedGroups : List (List ExecutionNode) :=
  (((nodes.filter pass.selects).map pass.groupKey).eraseDups.map
    (pass.groupWith nodes)).filter fun group => 2 ≤ group.length

/-- `aliases.update` for one group. -/
def aliasEntries : List ExecutionNode → List (String × String)
  | [] => []
  | first :: rest => (first :: rest).map fun node => (node.nodeId, pass.newId first.nodeId)

/-- The entry of `replacements` for one group. -/
def replacementEntry : List ExecutionNode → Option (String × ExecutionNode)
  | [] => none
  | first :: rest => some (first.nodeId, pass.fuse first rest)

/-- Each member of a merged group, with the merged node's id. -/
def aliases : OrderedDict String String :=
  .update .empty ((pass.mergedGroups nodes).flatMap pass.aliasEntries)

/-- The first member of each merged group, with the merged node. -/
def replacements : OrderedDict String ExecutionNode :=
  .update .empty ((pass.mergedGroups nodes).filterMap pass.replacementEntry)

/-- The first members of groups and the nodes in no group. -/
def keeps (node : ExecutionNode) : Bool :=
  ((pass.aliases nodes).get? node.nodeId).isNone ||
    ((pass.replacements nodes).get? node.nodeId).isSome

/-- `replacements.get(node.node_id, node)`. -/
def replaced (node : ExecutionNode) : ExecutionNode :=
  ((pass.replacements nodes).get? node.nodeId).getD node

/-- The nodes after the pass. -/
def regroup : List ExecutionNode :=
  rewriteDependencies ((nodes.filter (pass.keeps nodes)).map (pass.replaced nodes))
    (pass.aliases nodes)

end Pass

/-! ## Transfers and collectives -/

variable (nodes : List ExecutionNode) (node : ExecutionNode)

/-- The id of a merged transfer or conversion. -/
def batchId (id : String) : String := id ++ ":batch"

/-- What the transfers of one group have in common. -/
structure MergeKey where
  operation : String
  predecessorIds : List String
  physicalWorkers : List String
  sourceDomain : String
  targetDomain : String
  sourceLayout : Option TensorLayout
  targetLayout : Option TensorLayout
  network : Option String
  resourceGroup : Option String
  resourceLane : Option String
  dpRank : Nat
  deriving DecidableEq

/-- Transfers with equal keys are merged. -/
def mergeKey : MergeKey :=
  ⟨node.operation, node.predecessorIds, node.physicalWorkers, node.sourceDomain,
    node.targetDomain, node.sourceLayout, node.targetLayout, node.network, node.resourceGroup,
    node.resourceLane, node.dpRank⟩

/-- The bytes of each rank, in the order of the ranks. -/
def bytesPerRank (l : List (Nat × Int)) : List (Nat × Int) :=
  (Tally.addAll .empty l).entries.insertionSort fun a b => a.1 ≤ b.1

/-- The number of tokens that edges start from. -/
def tokenCount (edges : List AFRoutingEdge) : Nat :=
  (edges.map fun edge => (edge.requestId, edge.tokenId)).eraseDups.length

/-- One transfer for a group of them. -/
def fuseTransfers (first : ExecutionNode) (rest : List ExecutionNode) : ExecutionNode :=
  let group := first :: rest
  let edges := (group.flatMap ExecutionNode.routingEdges).eraseDups
  { first with
    nodeId := batchId first.nodeId
    payloadBytes := some (group.map fun node => node.payloadBytes.getD 0).sum
    tensorSlices := group.flatMap ExecutionNode.tensorSlices
    routingEdges := edges
    logicalInputBytesPerRank :=
      bytesPerRank (group.flatMap ExecutionNode.logicalInputBytesPerRank)
    logicalOutputBytesPerRank :=
      bytesPerRank (group.flatMap ExecutionNode.logicalOutputBytesPerRank)
    metadata := { first.metadata with
      coalescedNodes := some (group.map ExecutionNode.nodeId)
      originalTokenCount := if edges.isEmpty then first.metadata.originalTokenCount
        else some (tokenCount edges)
      assignmentCount := if edges.isEmpty then first.metadata.assignmentCount
        else some edges.length } }

/-- The pass that merges transfers. -/
def mergePass (selects : ExecutionNode → Bool) : Pass MergeKey :=
  ⟨selects, mergeKey, batchId, fuseTransfers⟩

/-- `_merge`. -/
def mergeNodes (operations : List String) : List ExecutionNode :=
  (mergePass fun node => node.operation ∈ operations).regroup nodes

/-- Merge the collectives, then the transfers between the domains. -/
def coalesceReadyTransfers : List ExecutionNode :=
  mergeNodes (mergeNodes nodes ["all_reduce", "reduce_scatter", "all_gather"])
    ["af_f_to_a", "af_a_to_f"]

/-! ## Conversions -/

/-- The layouts, types and shape of a local work that a key has. -/
structure WorkKey where
  sourceLayout : Option TensorLayout
  targetLayout : Option TensorLayout
  sourceDtype : Option String
  targetDtype : Option String
  tensorShape : List (String × Nat)
  deriving DecidableEq

/-- The key of a local work, without some entries of its shape. -/
def workKey (without : List String) (work : RankLocalWork) : WorkKey :=
  ⟨work.sourceLayout, work.targetLayout, work.sourceDtype, work.targetDtype,
    work.tensorShape.filter fun e => e.1 ∉ without⟩

/-- What merged conversions agree on. -/
structure ConversionKey where
  predecessorIds : List String
  physicalWorkers : List String
  sourceDomain : String
  domainRanks : List Nat
  work : Option WorkKey
  deriving DecidableEq

/-- Conversions with equal keys are merged. -/
def conversionKey : ConversionKey :=
  ⟨node.predecessorIds, node.physicalWorkers, node.sourceDomain, node.domainRanks,
    node.localWork.map (workKey ["tokens", "elements"])⟩

/-- A shape with new entries, in the order of the names. -/
def updateShape (shape entries : List (String × Nat)) : List (String × Nat) :=
  ((OrderedDict.empty.update shape).update entries).entries.insertionSort fun a b => a.1 ≤ b.1

/-- One conversion for a group of them. -/
def fuseConversions (first : ExecutionNode) (rest : List ExecutionNode) : ExecutionNode :=
  let group := first :: rest
  let slices := (group.flatMap ExecutionNode.tensorSlices).eraseDups
  let edges := (group.flatMap ExecutionNode.routingEdges).eraseDups
  let elements := (slices.map fun s => s.elementCount.getD 0).sum
  { first with
    nodeId := batchId first.nodeId
    localWork := first.localWork.map fun work => { work with
      tokenCount := slices.length
      tensorShape := updateShape work.tensorShape
        [("tokens", slices.length), ("elements", elements)]
      tensorSlices := slices
      routingEdges := edges
      originalTokenCount := some (if edges.isEmpty then slices.length else tokenCount edges)
      outputTokenCount := some slices.length }
    tensorSlices := slices
    routingEdges := edges
    metadata := { Metadata.empty with conversionMembers := some (group.map ExecutionNode.nodeId) } }

/-- The pass that merges the conversions of a stage. -/
def conversionPass (stage : ExecutionStage) : Pass ConversionKey :=
  ⟨fun node => node.stage = some stage, conversionKey, batchId, fuseConversions⟩

/-- `_batch_stage`. -/
def batchStage (stage : ExecutionStage) : Except PlanError (List ExecutionNode):=
  if ∃ node ∈ nodes, node.stage = some stage ∧ node.localWork.isNone then .error .attribute
  else if ∃ group ∈ (conversionPass stage).mergedGroups nodes, ∃ node ∈ group,
      ∃ s ∈ node.tensorSlices, s.elementCount.isNone then .error .type
  else .ok ((conversionPass stage).regroup nodes)

/-- The transfers between the domains. -/
def transferOperations : List String := ["af_a_to_f", "af_f_to_a", "af_router_logits"]

/-- The transfers of converted tensors. -/
def converts : Bool :=
  node.operation ∈ transferOperations ∧
    ∃ n ∈ nodes, n.stage = some .encode ∧ n.nodeId ∈ node.predecessorIds

/-- The transfers of one conversion result become one message. -/
def batchTransfers : List ExecutionNode :=
  let converted := nodes.filter (converts nodes)
  if converted.isEmpty then nodes
  else
    let combined := mergeNodes converted (converted.map ExecutionNode.operation)
    let byId : OrderedDict String ExecutionNode :=
      .update .empty (combined.map fun node => (node.nodeId, node))
    let aliases : OrderedDict String String := .update .empty (combined.flatMap fun node =>
      (node.metadata.coalescedNodes.getD []).map fun member => (member, node.nodeId))
    let leads : ExecutionNode → Bool := fun node =>
      (aliases.get? node.nodeId).any fun id => (byId.get? id).any fun group =>
        (group.metadata.coalescedNodes.getD []).head? = some node.nodeId
    rewriteDependencies
      ((nodes.filter fun node => !(converts nodes node) ||
        (aliases.get? node.nodeId).isNone || leads node).map fun node =>
          (byId.get? (aliasOf aliases node.nodeId)).getD node) aliases

/-- Merge encodings, then transfers, then decodings. -/
def batchConversions : Except PlanError (List ExecutionNode) := do
  let nodes ← batchStage nodes .encode
  batchStage (batchTransfers nodes) .decode

/-! ## Routed experts -/

/-- The node computes routed experts. -/
def isRoutedExpert : Bool :=
  node.stage = some .routedExpert ∧ node.kind = .compute

/-- A text before and after the first occurrence of a pattern. -/
def splitFirst (pattern : List Char) : List Char → Option (List Char × List Char)
  | [] => none
  | c :: cs =>
    if pattern.isPrefixOf (c :: cs) then some ([], (c :: cs).drop pattern.length)
    else (splitFirst pattern cs).map fun parts => (c :: parts.1, parts.2)

/-- The parts of `node_id.split(":routed:")`: the first one, and the second if there is
one. -/
def routedParts (id : String) : String × Option String :=
  match splitFirst ":routed:".toList id.toList with
  | none => (id, none)
  | some (block, rest) => (String.ofList block, some (String.ofList
      ((splitFirst ":routed:".toList rest).elim rest Prod.fst)))

/-- The id of a group of routed experts. -/
def expertGroupId (id : String) : String :=
  (routedParts id).1 ++ ":routed:group:" ++ (routedParts id).2.getD ""

/-- What grouped experts agree on. -/
structure ExpertKey where
  block : String
  physicalWorkers : List String
  sourceDomain : String
  targetDomain : String
  domainRanks : List Nat
  dpRank : Nat
  tpRank : Option Nat
  epRank : Option Nat
  tpGroup : List Nat
  epGroup : List Nat
  layerType : Option String
  logicalParticipants : List String
  work : Option WorkKey
  deriving DecidableEq

/-- Experts with equal keys are grouped. -/
def expertKey : ExpertKey :=
  ⟨(routedParts node.nodeId).1, node.physicalWorkers, node.sourceDomain, node.targetDomain,
    node.domainRanks, node.dpRank, node.tpRank, node.epRank, node.tpGroup, node.epGroup,
    node.layerType, node.logicalParticipants, node.localWork.map (workKey ["tokens"])⟩

/-- The workload of a node's local work. -/
def ExecutionNode.workload : List (Nat × Nat) :=
  (node.localWork.map RankLocalWork.expertWorkload).getD []

/-- The routing edges of a node's work. -/
def ExecutionNode.workEdges : List AFRoutingEdge :=
  (node.localWork.map RankLocalWork.routingEdges).getD []

/-- The tensor slices of a node's work. -/
def ExecutionNode.workSlices : List AFTensorSlice :=
  (node.localWork.map RankLocalWork.tensorSlices).getD []

/-- The tokens per expert of a group, in order. -/
def groupWorkload (group : List ExecutionNode) : List (Nat × Nat) :=
  (group.flatMap ExecutionNode.workload).insertionSort fun a b =>
    a.1 < b.1 ∨ a.1 = b.1 ∧ a.2 ≤ b.2

/-- One node for a group of experts. -/
def fuseExperts (first : ExecutionNode) (rest : List ExecutionNode) : ExecutionNode :=
  let group := first :: rest
  let edges := group.flatMap ExecutionNode.workEdges
  let workload := groupWorkload group
  let count := (workload.map Prod.snd).sum
  { first with
    nodeId := expertGroupId first.nodeId
    localWork := first.localWork.map fun work => { work with
      tokenCount := count
      tensorShape := updateShape work.tensorShape [("tokens", count)]
      expertIds := workload.map Prod.fst
      expertWorkload := workload
      assignmentCount := some count
      originalTokenCount := some (tokenCount edges)
      outputTokenCount := some count
      routingEdges := edges
      tensorSlices := group.flatMap ExecutionNode.workSlices }
    routingEdges := edges
    tensorSlices := group.flatMap ExecutionNode.tensorSlices
    predecessorIds := (group.flatMap ExecutionNode.predecessorIds).eraseDups
    metadata := { first.metadata with
      executionUnit := some "expert_group"
      memberNodeIds := some (group.map ExecutionNode.nodeId) }
    bound := fun e he => mem_eraseDups.mpr
      (mem_flatMap.mpr ⟨first, mem_cons_self .., first.bound e he⟩) }

/-- The pass that groups the experts of a rank. -/
def expertPass : Pass ExpertKey := ⟨isRoutedExpert, expertKey, expertGroupId, fuseExperts⟩

variable {nodes node} in
theorem unvisited_lt {pred : String} {visited : List String} (hnew : pred ∉ visited)
    (hnode : (nodes.find? fun node => node.nodeId = pred) = some node) :
    (nodes.filter fun node => node.nodeId ∉ pred :: visited).length <
      (nodes.filter fun node => node.nodeId ∉ visited).length := by
  have hid := find?_some hnode
  simp only [decide_eq_true_eq] at hid
  have hmem : node ∈ nodes.filter fun node => node.nodeId ∉ visited :=
    mem_filter.mpr ⟨mem_of_find?_eq_some hnode, by simpa [hid] using hnew⟩
  have hsplit : (nodes.filter fun node => node.nodeId ∉ pred :: visited) =
      (nodes.filter fun node => node.nodeId ∉ visited).filter fun node => node.nodeId ≠ pred := by
    rw [filter_filter]
    congr 1
    funext n
    simp [not_or]
  rw [hsplit]
  exact length_filter_lt_length_iff_exists.mpr ⟨node, hmem, by simp [hid]⟩

/-- The search for a member among the ancestors of a group; the next one is in front. -/
def searchAncestors (members : List String) : List String → List String → Except PlanError Unit
  | [], _ => .ok ()
  | pred :: pending, visited =>
    if pred ∈ members then
      .error (.configuration "cannot group dependent routed expert nodes")
    else if pred ∈ visited then searchAncestors members pending visited
    else match _hfound : nodes.find? fun node => node.nodeId = pred with
      | none => .error .key
      | some node =>
        searchAncestors members (node.predecessorIds.reverse ++ pending) (pred :: visited)
termination_by pending visited =>
  ((nodes.filter fun node => node.nodeId ∉ visited).length, pending.length)
decreasing_by
  · exact Prod.Lex.right _ (Nat.lt_succ_self _)
  · exact Prod.Lex.left _ _ (unvisited_lt ‹_› _hfound)

/-- The group depends on none of its members, and repeats no expert. -/
def checkExpertGroup (group : List ExecutionNode) : Except PlanError Unit := do
  searchAncestors nodes (group.map ExecutionNode.nodeId)
    (group.flatMap ExecutionNode.predecessorIds).reverse []
  if ¬ ((groupWorkload group).map Prod.fst).Nodup then
    .error (.configuration "expert group contains duplicate expert workloads")
  else if ∃ first ∈ group.head?, (routedParts first.nodeId).2.isNone then .error .index
  else .ok ()

/-- Group the routed experts. -/
def groupRoutedExpertNodes : Except PlanError (List ExecutionNode):= do
  if ∃ node ∈ nodes, isRoutedExpert node = true ∧ node.localWork.isNone then
    .error (.configuration "routed expert missing local work")
  else do
    (expertPass.mergedGroups nodes).forM (checkExpertGroup nodes)
    .ok (expertPass.regroup nodes)

/-- The passes of the layer planner, one after the other. -/
def planPasses : Except PlanError (List ExecutionNode) := do
  let nodes ← groupRoutedExpertNodes nodes
  let nodes ← batchConversions nodes
  .ok (coalesceReadyTransfers nodes)

/-- A node of one worker without transfers or tensors. -/
def plainNode (id operation : String) (kind : NodeKind) (stage : Option ExecutionStage)
    (localWork : Option RankLocalWork) (predecessorIds : List String) : ExecutionNode where
  nodeId := id
  operation := operation
  kind := kind
  predecessorIds := predecessorIds
  stage := stage
  sourceDomain := "f"
  targetDomain := "f"
  logicalParticipants := []
  domainRanks := [0]
  physicalWorkers := ["gpu0"]
  dpRank := 0
  tpRank := none
  epRank := none
  tpGroup := []
  epGroup := []
  localWork := localWork
  network := none
  resourceGroup := none
  resourceLane := none
  payloadBytes := none
  logicalInputBytesPerRank := []
  logicalOutputBytesPerRank := []
  layerType := none
  inputProducerIds := []
  tensorSlices := []
  sourceLayout := none
  targetLayout := none
  metadata := .empty
  routingEdges := []
  bound := forall_mem_nil _

end Planning

end Af

end TokenSim
