import TokenSim.Block
import TokenSim.Lib.OrderedDict
import TokenSim.Lib.Raising
import Mathlib.Data.List.Sort

/-!
# Collective traffic plans

A collective operation among some ranks is planned as phases.  On one node, or with
one rank per node, there is one phase, a ring over all ranks.  Otherwise there is a
hierarchy of rings: among the ranks of a node, and among the ranks with the same
place in their nodes.  A ring phase lists its rounds, and a round the messages that
are sent at once, each with the range of bytes it carries.  Where the rings leave
blocks in another order than the participants', a phase without messages reorders
them.

A phase is named by what it does and for which node or slot.  Message sizes are
integers here; that the source also accepts integral floats is left out.
-/

namespace TokenSim.Comm

/-- The element types that activations can have. -/
inductive DType where
  | fp32
  | fp16
  | bf16
  | fp8
  | int8
deriving DecidableEq, Repr

def DType.sizeBytes : DType → Nat
  | .fp32 => 4
  | .fp16 | .bf16 => 2
  | .fp8 | .int8 => 1

/-- The width of an element; bytes when no type is given. -/
def elementBytes (dtype : Option DType) : Nat := (dtype.map DType.sizeBytes).getD 1

inductive Operation where
  | allReduce
  | allGather
  | reduceScatter
  | dataReorder
deriving DecidableEq, Repr

/-- `local_rs:i`, `inter_ar:slot` and so on. -/
inductive PhaseId where
  | ring
  | localRs (node : Nat)
  | localRsFor (node destination : Nat)
  | interAr (slot : Nat)
  | interAg (slot : Nat)
  | interRs (slot : Nat)
  | localAg (node : Nat)
  | layout (node : Nat)
  | inputLayout (node : Nat)
deriving DecidableEq, Repr

variable {ρ ν : Type} [DecidableEq ρ] [LinearOrder ν]

/-- A message of a ring.  `shard` is a half-open range of bytes. -/
structure Transmission (ρ ν : Type) where
  source : ρ
  target : ρ
  wireBytes : Nat
  sourceNode : ν
  targetNode : ν
  shard : Nat × Nat

structure TrafficPhase (ρ ν : Type) where
  phaseId : PhaseId
  operation : Operation
  participants : List ρ
  fan : Nat
  logicalInputBytes : Nat
  logicalOutputBytes : Nat
  rounds : List (List (Transmission ρ ν))
  predecessorIds : List PhaseId
  dtype : Option DType
  localWorkBytes : Nat := 0
  layoutPermutation : List Nat := []

structure TrafficPlan (ρ ν : Type) where
  operation : Operation
  participants : List ρ
  inputBytesPerRank : Nat
  outputBytesPerRank : Nat
  phases : List (TrafficPhase ρ ν)

/-! ## Volumes -/

def validatedBytes (value : Int) (dtype : Option DType) : Except Err Nat :=
  if value < 0 then throw (.configuration "message bytes must be a nonnegative integer")
  else if value.toNat % elementBytes dtype ≠ 0 then
    throw (.configuration "message bytes must align to dtype elements")
  else pure value.toNat

/-- The output size and the number of rounds of a ring. -/
structure CollectiveVolume where
  outputBytes : Nat
  rounds : Nat

def ringVolume (operation : Operation) (participants : Nat) (messageBytes : Int)
    (dtype : Option DType) : Except Err CollectiveVolume := do
  if participants < 1 then
    throw (.configuration "collective needs at least one actual participant")
  else
    let size ← validatedBytes messageBytes dtype
    match operation with
    | .dataReorder => throw (.configuration "unsupported ring volume operation")
    | .allGather => pure ⟨size * participants, participants - 1⟩
    | .allReduce =>
      if 1 < participants ∧ size % (participants * elementBytes dtype) ≠ 0 then
        throw (.configuration "ring shards must contain an integer number of dtype elements")
      else pure ⟨size, (participants - 1) * 2⟩
    | .reduceScatter =>
      if 1 < participants ∧ size % (participants * elementBytes dtype) ≠ 0 then
        throw (.configuration "ring shards must contain an integer number of dtype elements")
      else pure ⟨size / participants, participants - 1⟩

/-! ## Rings -/

/-- A round adds to the receiver's shard in a reduce-scatter and in the first half of
an all-reduce. -/
def reduces (operation : Operation) (count step : Nat) : Prop :=
  operation = .reduceScatter ∨ operation = .allReduce ∧ step < count - 1

instance (operation : Operation) (count step : Nat) : Decidable (reduces operation count step) :=
  inferInstanceAs (Decidable (_ ∨ _))

/-- The shard that a rank sends.  A reduction starts with the shard before its own; a
gathering starts with its own, which a reduction has left it. -/
def shardIndex (operation : Operation) (count index step : Nat) : Nat :=
  (if reduces operation count step then ((index : Int) - step - 1) % count
  else if operation = .allReduce then ((index : Int) - (step - (count - 1))) % count
  else ((index : Int) - step) % count).toNat

variable (nodeByRank : ρ → Option ν)

def ringMessage (operation : Operation) (ranks : List ρ) (chunk step index : Nat) :
    Except Err (Transmission ρ ν) := do
  let source ← ranks[index]?.orRaise .indexError
  let target ← ranks[(index + 1) % ranks.length]?.orRaise .indexError
  let sourceNode ← (nodeByRank source).orRaise .keyError
  let targetNode ← (nodeByRank target).orRaise .keyError
  let shard := shardIndex operation ranks.length index step
  pure ⟨source, target, chunk, sourceNode, targetNode, (shard * chunk, (shard + 1) * chunk)⟩

def ringRounds (operation : Operation) (ranks : List ρ) (size rounds : Nat) :
    Except Err (List (List (Transmission ρ ν))) :=
  if 1 < ranks.length ∧ size ≠ 0 then
    let chunk := if operation = .allGather then size else size / ranks.length
    (List.range rounds).mapM fun step =>
      (List.range ranks.length).mapM (ringMessage nodeByRank operation ranks chunk step)
  else pure []

def ringPhase (phaseId : PhaseId) (operation : Operation) (ranks : List ρ) (size : Nat)
    (predecessors : List PhaseId) (dtype : Option DType) : Except Err (TrafficPhase ρ ν) := do
  let volume ← ringVolume operation ranks.length size dtype
  let rounds ← ringRounds nodeByRank operation ranks size volume.rounds
  pure {
    phaseId := phaseId, operation := operation, participants := ranks, fan := ranks.length
    logicalInputBytes := size, logicalOutputBytes := volume.outputBytes, rounds := rounds
    predecessorIds := predecessors, dtype := some (dtype.getD .bf16) }

/-! ## Hierarchies -/

/-- The participants of every node, in the order of the nodes. -/
def nodeGroups (ranks : List ρ) : List (List ρ) :=
  (((ranks.filterMap nodeByRank).dedup).mergeSort (· ≤ ·)).map fun node =>
    ranks.filter fun rank => nodeByRank rank = some node

/-- The participants with one place in their nodes. -/
def slotGroup (groups : List (List ρ)) (slot : Nat) : Except Err (List ρ) :=
  groups.mapM fun group => group[slot]?.orRaise .indexError

/-- A phase that reorders the blocks of every rank of a node. -/
def reorderPhase (phaseId : PhaseId) (group : List ρ) (size : Nat) (predecessors : List PhaseId)
    (dtype : Option DType) (permutation : List Nat) : TrafficPhase ρ ν where
  phaseId := phaseId
  operation := .dataReorder
  participants := group
  fan := group.length
  logicalInputBytes := size
  logicalOutputBytes := size
  rounds := []
  predecessorIds := predecessors
  dtype := dtype
  localWorkBytes := size
  layoutPermutation := permutation

def allReducePhases (groups : List (List ρ)) (localCount size : Nat) (dtype : Option DType) :
    Except Err (List (TrafficPhase ρ ν)) := do
  let scatter ← groups.zipIdx.mapM fun row =>
    ringPhase nodeByRank (.localRs row.2) .reduceScatter row.1 size [] dtype
  let reduce ← (List.range localCount).mapM fun slot => do
    ringPhase nodeByRank (.interAr slot) .allReduce (← slotGroup groups slot) (size / localCount)
      ((List.range groups.length).map .localRs) dtype
  let gather ← groups.zipIdx.mapM fun row =>
    ringPhase nodeByRank (.localAg row.2) .allGather row.1 (size / localCount)
      ((List.range localCount).map .interAr) dtype
  pure (scatter ++ reduce ++ gather)

/-- Where the participants are in another order. -/
def placesIn (order ranks : List ρ) : List Nat := ranks.map fun rank => order.idxOf rank

/-- The order in which the blocks of the participants are gathered. -/
def gatheredOrder (groups : List (List ρ)) (localCount : Nat) : Except Err (List ρ) := do
  pure (← (List.range localCount).mapM (slotGroup groups)).flatten

def allGatherPhases (ranks : List ρ) (groups : List (List ρ)) (localCount size outputBytes : Nat)
    (dtype : Option DType) : Except Err (List (TrafficPhase ρ ν)) := do
  let across ← (List.range localCount).mapM fun slot => do
    ringPhase nodeByRank (.interAg slot) .allGather (← slotGroup groups slot) size [] dtype
  let gather ← groups.zipIdx.mapM fun row =>
    ringPhase nodeByRank (.localAg row.2) .allGather row.1 (size * groups.length)
      ((List.range localCount).map .interAg) dtype
  let order ← gatheredOrder groups localCount
  let permutation := placesIn order ranks
  let layout := if size ≠ 0 ∧ permutation ≠ List.range ranks.length then
      groups.zipIdx.map fun row =>
        reorderPhase (.layout row.2) row.1 outputBytes [.localAg row.2] dtype permutation
    else []
  pure (across ++ gather ++ layout)

def reduceScatterPhases (ranks : List ρ) (groups : List (List ρ)) (localCount size : Nat)
    (dtype : Option DType) : Except Err (List (TrafficPhase ρ ν)) := do
  let groupedOrder := groups.flatten
  let reorder : Bool := groupedOrder ≠ ranks ∧ 0 < size
  let permutation := placesIn ranks groupedOrder
  let layout := if reorder then
      groups.zipIdx.map fun row =>
        reorderPhase (.inputLayout row.2) row.1 size [] dtype permutation
    else []
  let scatter ← groups.zipIdx.mapM fun row =>
    (List.range groups.length).mapM fun destination =>
      ringPhase nodeByRank (.localRsFor row.2 destination) .reduceScatter row.1
        (size / groups.length) (if reorder then [.inputLayout row.2] else []) dtype
  let across ← (List.range localCount).mapM fun slot => do
    ringPhase nodeByRank (.interRs slot) .reduceScatter (← slotGroup groups slot)
      (size / localCount)
      ((List.range groups.length).flatMap fun i =>
        (List.range groups.length).map fun j => .localRsFor i j) dtype
  pure (layout ++ scatter.flatten ++ across)

/-- The phases of a plan: one ring, or a hierarchy of rings. -/
def planPhases (operation : Operation) (ranks : List ρ) (groups : List (List ρ))
    (localCount size outputBytes : Nat) (dtype : Option DType) :
    Except Err (List (TrafficPhase ρ ν)) :=
  if groups.length = 1 ∨ localCount = 1 then do
    pure [← ringPhase nodeByRank .ring operation ranks size [] dtype]
  else match operation with
    | .allReduce => allReducePhases nodeByRank groups localCount size dtype
    | .allGather => allGatherPhases nodeByRank ranks groups localCount size outputBytes dtype
    | _ => reduceScatterPhases nodeByRank ranks groups localCount size dtype

def collectivePlan (operation : Operation) (ranks : List ρ) (messageBytes : Int)
    (dtype : Option DType) : Except Err (TrafficPlan ρ ν) := do
  if ranks = [] ∨ ¬ ranks.Nodup ∨ ∃ rank ∈ ranks, nodeByRank rank = none then
    throw (.configuration "collective participants must be nonempty, unique and mapped")
  else
    let size ← validatedBytes messageBytes dtype
    let volume ← ringVolume operation ranks.length size dtype
    let groups := nodeGroups nodeByRank ranks
    if (groups.map List.length).dedup.length ≠ 1 then
      throw (.configuration "hierarchical collective requires equal participants per node")
    else
      let localCount ← (groups.head?.map List.length).orRaise .indexError
      let phases ← planPhases nodeByRank operation ranks groups localCount size volume.outputBytes
        dtype
      pure ⟨operation, ranks, size, volume.outputBytes, phases⟩

end TokenSim.Comm
