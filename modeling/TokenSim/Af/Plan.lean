import TokenSim.Block
import TokenSim.Lib.OrderedDict
import TokenSim.Lib.Raising

/-!
# The runtime plan of an attention-FFN deployment

A deployment has domains.  A domain runs instances, and an instance is a set of
ranks that are bound to physical devices; ranks of several domains may share a
device.  The ranks of an attention domain hold partitions of the KV heads, and
their pipeline stage says of which layers.

The plan carries what `validate` checks and `compile_af_runtime_plan` builds: rank
keys and devices are distinct, every rank has a device whose model and buffers
leave memory free, and the replica of an instance lists the KV blocks of exactly
its ranks.  The hardware, the expert placement and the collective plans play no
role for the KV cache and are left out.
-/

namespace TokenSim

open List Option

namespace Af

/-- A rank: its domain and its number there. -/
abbrev RankKey := String × Nat

/-- A name in a message. -/
def quoted (name : String) : String := "'" ++ name ++ "'"

/-- The KV heads of a rank in one layer. -/
structure LayerKV where
  globalHeadIds : List Nat
  bytesPerToken : Nat
deriving DecidableEq, Repr

structure KVHeadPartition where
  globalHeadIds : List Nat
  /-- Over all layers of the rank's stage. -/
  bytesPerToken : Nat
  bytesPerBlock : Nat
  /-- The layers one by one, if their geometries differ. -/
  layerPartitions : List (Nat × LayerKV)
deriving DecidableEq, Repr

def KVHeadPartition.forLayer (p : KVHeadPartition) (layer : Nat) : Except Err LayerKV :=
  if p.layerPartitions = [] then pure ⟨p.globalHeadIds, p.bytesPerToken⟩
  else (Entries.get? p.layerPartitions layer).orRaise .keyError

structure RankBinding where
  domain : String
  instanceName : String
  domainRank : Nat
  ppRank : Nat
  physicalIdentity : String
  kvPartition : Option KVHeadPartition
deriving DecidableEq, Repr

def RankBinding.rankKey (b : RankBinding) : RankKey := (b.domain, b.domainRank)

structure PhysicalState where
  physicalIdentity : String
  capacityBytes : Nat
  modelBytes : Nat
  protocolBufferBytes : Nat
deriving DecidableEq, Repr

structure ReplicaRuntime where
  domain : String
  instanceName : String
  localGpuBlocks : List (RankKey × Nat)
deriving DecidableEq, Repr

structure DomainRuntime where
  name : String
  pipelineParallelSize : Nat
  pipelineLayerCounts : Option (List Nat)
deriving DecidableEq, Repr

structure RuntimePlan where
  totalLayers : Nat
  domains : List DomainRuntime
  rankBindings : List RankBinding
  replicas : List ReplicaRuntime
  physicalStates : List PhysicalState
  /-- The attention window of every layer. -/
  attentionWindows : List (Option Nat)
  ranks_nodup : (rankBindings.map RankBinding.rankKey).Nodup := by decide
  physical_nodup : (physicalStates.map PhysicalState.physicalIdentity).Nodup := by decide
  has_state : ∀ b ∈ rankBindings, ∃ st ∈ physicalStates,
    st.physicalIdentity = b.physicalIdentity := by decide
  model_fits : ∀ st ∈ physicalStates,
    st.modelBytes + st.protocolBufferBytes < st.capacityBytes := by decide
  replicas_nodup : (replicas.map fun r => (r.domain, r.instanceName)).Nodup := by decide
  blocks_own : ∀ r ∈ replicas, ∀ e ∈ r.localGpuBlocks, ∃ b ∈ rankBindings,
    b.rankKey = e.1 ∧ b.domain = r.domain ∧ b.instanceName = r.instanceName := by decide
  blocks_cover : ∀ r ∈ replicas, ∀ b ∈ rankBindings, b.domain = r.domain →
    b.instanceName = r.instanceName → b.rankKey ∈ r.localGpuBlocks.map Prod.fst := by decide

def stageLayerCount (totalLayers ppSize ppRank : Nat) : Nat :=
  totalLayers / ppSize + if ppRank < totalLayers % ppSize then 1 else 0

/-- The layers of a pipeline stage. -/
def stageLayerRange (totalLayers ppSize ppRank : Nat) (layerCounts : Option (List Nat)) :
    Except Err (List Nat) :=
  if ¬ (1 ≤ ppSize ∧ ppSize ≤ totalLayers) ∨ ¬ ppRank < ppSize then
    throw (.configuration "pipeline stage must own at least one model layer")
  else
    match layerCounts with
    | some counts =>
      if counts.length ≠ ppSize ∨ (∃ count ∈ counts, count < 1) ∨ counts.sum ≠ totalLayers then
        throw (.configuration
          "pipeline_layer_counts must assign every model layer once to nonempty stages")
      else pure (List.range' (counts.take ppRank).sum (counts.getD ppRank 0))
    | none =>
      pure (List.range' (ppRank * (totalLayers / ppSize) + min ppRank (totalLayers % ppSize))
        (stageLayerCount totalLayers ppSize ppRank))

theorem find?_of_nodup_map {α β : Type} [DecidableEq β] {f : α → β} {l : List α}
    (hnodup : (l.map f).Nodup) {x : α} (hx : x ∈ l) : l.find? (fun y => f y = f x) = some x := by
  obtain ⟨before, after, hsplit⟩ := append_of_mem hx
  rw [find?_eq_some_iff_append]
  refine ⟨by simp, before, after, hsplit, fun y hy => ?_⟩
  rw [hsplit, map_append, nodup_append] at hnodup
  simp only [Bool.not_eq_true', decide_eq_false_iff_not]
  exact hnodup.2.2 _ (List.mem_map_of_mem hy) _ (by simp)

namespace RuntimePlan

variable (plan : RuntimePlan)

def binding (rank : RankKey) : Except Err RankBinding :=
  (plan.rankBindings.find? fun b => b.rankKey = rank).orRaise
    (.configuration ("AF runtime plan has no rank binding for domain=" ++ quoted rank.1 ++
      ", rank=" ++ toString rank.2))

/-- The ranks of an instance.  Their order plays no role for the KV cache. -/
def instanceBindings (domain instanceName : String) : List RankBinding :=
  plan.rankBindings.filter fun b => b.domain = domain ∧ b.instanceName = instanceName

def bindingsForInstance (domain instanceName : String) : Except Err (List RankBinding) :=
  if plan.instanceBindings domain instanceName = [] then
    throw (.configuration ("AF runtime plan has no instance " ++ quoted instanceName ++
      " in domain " ++ quoted domain))
  else pure (plan.instanceBindings domain instanceName)

def replicaForInstance (domain instanceName : String) : Except Err ReplicaRuntime :=
  (plan.replicas.find? fun r => (r.domain, r.instanceName) = (domain, instanceName)).orRaise
    (.configuration ("AF runtime plan has no replica " ++ quoted instanceName ++
      " in domain " ++ quoted domain))

def physicalState (physicalIdentity : String) : Except Err PhysicalState :=
  (plan.physicalStates.find? fun st => st.physicalIdentity = physicalIdentity).orRaise
    (.configuration ("AF runtime plan has no physical state for " ++ quoted physicalIdentity))

def domainRuntime (domain : String) : Except Err DomainRuntime :=
  (plan.domains.find? fun d => d.name = domain).orRaise
    (.configuration ("AF runtime plan has no domain " ++ quoted domain))

/-- The attention window of a layer.  Zero stands for no window. -/
def attentionWindow (layer : Nat) : Except Err (Option Nat) :=
  (plan.attentionWindows[layer]?).orRaise
    (.configuration ("AF runtime plan has no layer metadata for layer_id=" ++ toString layer))

/-- The layers of which a rank holds KV. -/
def stageLayers (b : RankBinding) : Except Err (List Nat) := do
  let domain ← plan.domainRuntime b.domain
  stageLayerRange plan.totalLayers domain.pipelineParallelSize b.ppRank domain.pipelineLayerCounts

variable {plan} {domain instanceName physicalIdentity : String} {rank : RankKey}

theorem mem_instanceBindings {b : RankBinding} : b ∈ plan.instanceBindings domain instanceName ↔
    b ∈ plan.rankBindings ∧ b.domain = domain ∧ b.instanceName = instanceName := by
  simp [instanceBindings]

theorem bindingsForInstance_eq_ok {bs : List RankBinding}
    (h : plan.bindingsForInstance domain instanceName = .ok bs) :
    bs = plan.instanceBindings domain instanceName := by
  unfold bindingsForInstance at h
  obtain ⟨-, h⟩ := Except.ite_throw_eq_ok.mp h
  exact (Except.pure_eq_ok.mp h).symm

theorem binding_of_mem {b : RankBinding} (hb : b ∈ plan.rankBindings) :
    plan.binding b.rankKey = .ok b :=
  orRaise_eq_ok.mpr (find?_of_nodup_map plan.ranks_nodup hb)

theorem physicalState_of_mem {st : PhysicalState} (hst : st ∈ plan.physicalStates) :
    plan.physicalState st.physicalIdentity = .ok st :=
  orRaise_eq_ok.mpr (find?_of_nodup_map plan.physical_nodup hst)

theorem replicaForInstance_of_mem {r : ReplicaRuntime} (hr : r ∈ plan.replicas) :
    plan.replicaForInstance r.domain r.instanceName = .ok r :=
  orRaise_eq_ok.mpr (find?_of_nodup_map plan.replicas_nodup hr)

theorem replicaForInstance_eq_ok {r : ReplicaRuntime}
    (h : plan.replicaForInstance domain instanceName = .ok r) :
    r ∈ plan.replicas ∧ r.domain = domain ∧ r.instanceName = instanceName := by
  have hfind := orRaise_eq_ok.mp h
  have hkey := find?_some hfind
  simp only [decide_eq_true_eq, Prod.mk.injEq] at hkey
  exact ⟨mem_of_find?_eq_some hfind, hkey⟩

end RuntimePlan

end Af

end TokenSim
