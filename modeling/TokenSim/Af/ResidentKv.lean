import TokenSim.Af.Plan
import TokenSim.Lib.Effects
import TokenSim.Lib.Runs
import TokenSim.Lib.Tally

/-!
# Resident KV leases

A cohort of requests keeps its KV on the ranks of one instance.  A lease reserves
the bytes of its request at the largest context it may reach, on every rank of the
instance and on the devices the ranks are bound to.  A layer with an attention
window holds no more than its window.

`admit` checks the budgets of all ranks and the capacities of all devices before it
writes anything.  The operations may raise at every step of their loops, and what
they have written by then stays written; `Accounts` says enough of the books that no
step after the first write raises.
-/

namespace TokenSim

namespace Af

/-! ## Bytes -/

/-- `min(context, window or context)`. -/
def windowed (window : Option Nat) (context : Nat) : Nat :=
  match window with
  | none | some 0 => context
  | some (w + 1) => min context (w + 1)

theorem windowed_mono (window : Option Nat) {c c' : Nat} (h : c ≤ c') :
    windowed window c ≤ windowed window c' := by
  match window with
  | none => exact h
  | some 0 => exact h
  | some (w + 1) =>
    simp only [windowed]
    omega

namespace RuntimePlan

variable (plan : RuntimePlan)

/-- The bytes per token of one layer of a rank. -/
def layerBytesPerToken (p : KVHeadPartition) (layers : List Nat) (layer : Nat) : Except Err Nat :=
  if p.layerPartitions = [] then pure (p.bytesPerToken / layers.length)
  else do
    let kv ← p.forLayer layer
    pure kv.bytesPerToken

/-- Bounded-window KV residence per layer on one rank. -/
def rankLayerKvBytes (b : RankBinding) (context : Nat) : Except Err (List (Nat × Nat)) :=
  match b.kvPartition with
  | none => pure []
  | some p => do
    let layers ← plan.stageLayers b
    if layers = [] then throw .zeroDivision
    else
      layers.mapM fun layer => do
        let perToken ← layerBytesPerToken p layers layer
        let window ← plan.attentionWindow layer
        pure (layer, perToken * windowed window context)

def rankKvBytes (b : RankBinding) (context : Nat) : Except Err Nat := do
  let sizes ← plan.rankLayerKvBytes b context
  pure (sizes.map Prod.snd).sum

/-- The bytes of an instance, by rank. -/
def rankBytes (domain instanceName : String) (context : Nat) : Except Err (List (RankKey × Nat)) := do
  let bs ← plan.bindingsForInstance domain instanceName
  bs.mapM fun b => do
    let size ← plan.rankKvBytes b context
    pure (b.rankKey, size)

/-- The bytes of an instance, by device. -/
def deviceBytes (domain instanceName : String) (context : Nat) : Except Err (Tally String) := do
  let sizes ← plan.rankBytes domain instanceName context
  let booked ← sizes.mapM fun e => do
    let b ← plan.binding e.1
    pure (b.physicalIdentity, (e.2 : Int))
  pure (Tally.addAll .empty booked)

end RuntimePlan

/-! ## Leases -/

structure KVLease where
  requestId : Nat
  domain : String
  instanceName : String
  maximumContext : Nat
  currentContext : Nat
deriving DecidableEq, Repr

structure ResidentKV where
  leases : OrderedDict Nat KVLease
  reserved : Tally String
  reservedByRank : Tally RankKey
deriving DecidableEq

/-- An integer argument, or a refusal. -/
def integer (value : Int) (name : String) (minimum : Int) : Except Err Nat :=
  if value < minimum then
    throw (.configuration (name ++ " must be an integer >= " ++ toString minimum))
  else pure value.toNat

namespace ResidentKV

variable (plan : RuntimePlan)

def init : ResidentKV where
  leases := .empty
  reserved := Tally.addAll .empty (plan.physicalStates.map fun st => (st.physicalIdentity, 0))
  reservedByRank := .empty

/-- The KV bytes that the blocks of a rank hold. -/
def blockBudget (b : RankBinding) (blocks : Nat) : Nat :=
  match b.kvPartition with
  | some p => blocks * p.bytesPerBlock
  | none => 0

/-- Every rank stays within its blocks. -/
def checkRanks (s : ResidentKV) (rankSizes : List (RankKey × Nat)) :
    List (RankKey × Nat) → Except Err Unit
  | [] => pure ()
  | (rank, blocks) :: rest => do
    let b ← plan.binding rank
    let size ← (Entries.get? rankSizes rank).orRaise .keyError
    let required := s.reservedByRank.amount rank + size
    if required > blockBudget b blocks then
      throw (.configuration ("resident KV exceeds compiled replica budget on (" ++ quoted rank.1 ++
        ", " ++ toString rank.2 ++ "): required_bytes=" ++ toString required ++
        ", available_bytes=" ++ toString (blockBudget b blocks)))
    else s.checkRanks rankSizes rest

/-- Every device has room. -/
def checkDevices (s : ResidentKV) : List (String × Int) → Except Err Unit
  | [] => pure ()
  | (physical, size) :: rest => do
    let st ← plan.physicalState physical
    let reserved ← (s.reserved.get? physical).orRaise .keyError
    let required := (st.modelBytes : Int) + st.protocolBufferBytes + reserved + size
    if required > st.capacityBytes then
      throw (.configuration ("resident KV does not fit on " ++ physical ++ ": required=" ++
        toString required ++ ", available=" ++ toString st.capacityBytes))
    else s.checkDevices rest

/-- Add to reservations that exist. -/
def chargeDevices : List (String × Int) → EStateM Err ResidentKV PUnit
  | [] => pure ⟨⟩
  | (physical, size) :: rest => do
    let s ← get
    if physical ∈ s.reserved.keys then do
      set { s with reserved := s.reserved.add physical size }
      chargeDevices rest
    else throw .keyError

/-- Add to reservations that may be new. -/
def chargeRanks : List (RankKey × Nat) → EStateM Err ResidentKV PUnit
  | [] => pure ⟨⟩
  | (rank, size) :: rest => do
    modify fun s => { s with reservedByRank := s.reservedByRank.add rank size }
    chargeRanks rest

/-- Take back reservations. -/
def creditRanks : List (RankKey × Nat) → EStateM Err ResidentKV PUnit
  | [] => pure ⟨⟩
  | (rank, size) :: rest => do
    let s ← get
    if rank ∈ s.reservedByRank.keys then do
      set { s with reservedByRank := s.reservedByRank.add rank (-size) }
      creditRanks rest
    else throw .keyError

def admission (requestId : Int) (domain instanceName : String) (maximumContext currentContext : Int) :
    EStateM Err ResidentKV PUnit := do
  let requestId ← .ofExcept (integer requestId "request ID" 0)
  let maximumContext ← .ofExcept (integer maximumContext "maximum KV context" 1)
  let currentContext ← .ofExcept (integer currentContext "current KV context" 0)
  let s ← get
  if requestId ∈ s.leases.keys ∨ currentContext > maximumContext then
    throw (.configuration "KV lease must have a unique request and bounded context")
  else do
    let sizes ← .ofExcept (plan.deviceBytes domain instanceName maximumContext)
    let rankSizes ← .ofExcept (plan.rankBytes domain instanceName maximumContext)
    let replica ← .ofExcept (plan.replicaForInstance domain instanceName)
    .ofExcept (s.checkRanks plan rankSizes replica.localGpuBlocks)
    .ofExcept (s.checkDevices plan sizes.entries)
    let lease : KVLease := ⟨requestId, domain, instanceName, maximumContext, currentContext⟩
    set { s with leases := s.leases.set requestId lease }
    chargeDevices sizes.entries
    chargeRanks rankSizes

def commit (requestId : Nat) (context : Int) : EStateM Err ResidentKV PUnit := do
  let context ← .ofExcept (integer context "committed KV context" 0)
  let s ← get
  let lease ← .ofExcept ((s.leases.get? requestId).orRaise .keyError)
  if context > lease.maximumContext then
    throw (.simulationState "KV commit exceeds the admitted reservation")
  else set { s with leases := s.leases.set requestId { lease with currentContext := context } }

def release (requestId : Nat) : EStateM Err ResidentKV PUnit := do
  let s ← get
  let lease ← .ofExcept ((s.leases.get? requestId).orRaise .keyError)
  set { s with leases := s.leases.erase requestId }
  let sizes ← .ofExcept (plan.deviceBytes lease.domain lease.instanceName lease.maximumContext)
  chargeDevices (sizes.entries.map fun e => (e.1, -e.2))
  let rankSizes ← .ofExcept (plan.rankBytes lease.domain lease.instanceName lease.maximumContext)
  creditRanks rankSizes

inductive Call where
  | admission (requestId : Int) (domain instanceName : String) (maximumContext currentContext : Int)
  | commit (requestId : Nat) (context : Int)
  | release (requestId : Nat)
deriving DecidableEq, Repr

def perform : Call → EStateM Err ResidentKV PUnit
  | .admission id domain instanceName maximum current =>
    admission plan id domain instanceName maximum current
  | .commit id context => commit id context
  | .release id => release plan id

/-- A call leaves behind what it has written, whether it returns or raises. -/
def step (s : ResidentKV) (c : Call) : Option ResidentKV := some ((perform plan c).finalState s)

end ResidentKV

end Af

end TokenSim
