import Mathlib.Data.List.Sort
import Mathlib.Data.Prod.Lex
import TokenSim.Af.ResidentKv

/-!
# Handing the KV of a request to another service

Two services run the same model in different layouts.  For every layer and KV head
`planHandoff` copies the tokens the target lacks: from the source rank of smallest
number to the target rank of smallest number (the canonical one), and from there to
the other target ranks that hold the head.  Nothing is copied between ranks that are
the same device.

`executeHandoff` starts all copies at once.  A copy to a replica waits for an event of
its layer and head, which the canonical copy triggers when it has arrived; where no
canonical copy is needed the event is triggered from the start.  The second half of
the file is this execution as a transition system: the copies proceed in any order,
each may fail at any time, and so may the handoff as a whole.
-/

namespace TokenSim

namespace Af

/-- A layer and a KV head. -/
abbrev HeadKey := Nat ×ₗ Nat

structure KVCopy where
  source : String
  target : String
  layerId : Nat
  headId : Nat
  firstToken : Nat
  endToken : Nat
  bytes : Nat
  network : String
  replication : Bool
deriving DecidableEq, Repr

def KVCopy.key (c : KVCopy) : HeadKey :=
  toLex (c.layerId, c.headId)

/-- What a handoff reads of the model. -/
structure HandoffModel where
  numLayers : Nat
  cacheSignature : String
  mlaCacheWidth : Option Nat
  headDim : Nat
  /-- The head dimensions of the layers, if they differ. -/
  geometryHeadDims : List Nat
  attentionWindows : List Nat
  slidingWindow : Nat

namespace HandoffModel

variable (m : HandoffModel)

/-- The window of a layer; zero stands for none. -/
def attentionWindow (layer : Nat) : Except Err Nat :=
  if ¬ layer < m.numLayers then
    throw (.configuration "attention window requires a valid layer index")
  else if m.attentionWindows = [] then pure m.slidingWindow
  else (m.attentionWindows[layer]?).orRaise .indexError

def geometryHeadDim (layer : Nat) : Except Err Nat := do
  let _ ← m.attentionWindow layer
  if m.geometryHeadDims = [] then pure m.headDim
  else (m.geometryHeadDims[layer]?).orRaise .indexError

/-- The bytes of one token of one head. -/
def elementBytes (dtypeBytes layer : Nat) : Except Err Nat :=
  if m.geometryHeadDims = [] then
    match m.mlaCacheWidth with
    | some width => pure (dtypeBytes * width)
    | none => pure (dtypeBytes * m.headDim * 2)
  else do
    let headDim ← m.geometryHeadDim layer
    pure (dtypeBytes * headDim * 2)

end HandoffModel

structure AFService where
  plan : RuntimePlan
  kvCacheDtype : String
  kvDtypeBytes : Nat
  model : HandoffModel
  memory : ResidentKV

structure AFSession where
  requestId : Nat
  cachedContext : Nat
deriving DecidableEq, Repr

/-! ## The plan -/

/-- The list of a key, by rank. -/
def ownersOf (owners : List (HeadKey × RankBinding)) (key : HeadKey) : List RankBinding :=
  ((owners.filter fun e => e.1 = key).map Prod.snd).insertionSort
    fun a b => a.domainRank ≤ b.domainRank

/-- The first token that a layer lacks: a window forgets what is before it. -/
def firstToken (existing context window : Nat) : Nat :=
  if window = 0 then existing else max existing (context - window)

inductive HandoffMode where
  | full
  | incremental
  | other (name : String)
deriving DecidableEq, Repr

/-- The context that the target need not receive again. -/
def HandoffMode.existing (mode : HandoffMode) (target : AFSession) : Nat :=
  if mode = .incremental then target.cachedContext else 0

/-- The process of one copy. -/
inductive CopyStatus where
  | waiting
  | moving
  | arrived
  | failed
deriving DecidableEq, Repr

/-- The process of the handoff itself: it waits for the copies, or for the rest of
them after one has failed or after it was interrupted, and then it has returned or
raised. -/
inductive HandoffPhase where
  | running
  | draining
  | committed
  | raised
deriving DecidableEq, Repr

structure Handoff where
  copies : List KVCopy
  context : Nat
  status : Nat → CopyStatus
  ready : HeadKey → Bool
  /-- The copies that have arrived, in the order of `events`. -/
  events : List Nat
  phase : HandoffPhase
  memory : ResidentKV
  session : AFSession

namespace Handoff

/-- The events of the keys without a canonical copy succeed at once. -/
def start (copies : List KVCopy) (context : Nat) (target : AFService) (session : AFSession) :
    Handoff where
  copies := copies
  context := context
  status := fun _ => .waiting
  ready := fun key => !copies.any fun c => !c.replication && c.key = key
  events := []
  phase := .running
  memory := target.memory
  session := session

variable (h : Handoff)

def setStatus (i : Nat) (status : CopyStatus) : Handoff :=
  { h with status := Function.update h.status i status }

/-- The transfer of a copy is over. -/
def arrived (i : Nat) (c : KVCopy) : Handoff :=
  { h.setStatus i .arrived with
    events := h.events ++ [i]
    ready := if c.replication then h.ready else Function.update h.ready c.key true }

/-- All processes have ended, and none of them with an exception. -/
def AllArrived : Prop :=
  ∀ i < h.copies.length, h.status i = .arrived

def AllEnded : Prop :=
  ∀ i < h.copies.length, h.status i = .arrived ∨ h.status i = .failed

instance : Decidable h.AllArrived :=
  inferInstanceAs (Decidable (∀ i < h.copies.length, _))

instance : Decidable h.AllEnded :=
  inferInstanceAs (Decidable (∀ i < h.copies.length, _))

inductive Event where
  | start (i : Nat)
  | arrive (i : Nat)
  | fail (i : Nat)
  /-- An exception of a copy reaches the handoff. -/
  | observe (i : Nat)
  | interrupt
  | finish
deriving DecidableEq, Repr

/-- The last lines of `execute_handoff`. -/
def commit : Handoff :=
  match ResidentKV.commit h.session.requestId h.context h.memory with
  | .ok _ memory =>
    { h with memory, session := { h.session with cachedContext := h.context },
             phase := .committed }
  | .error _ memory => { h with memory, phase := .raised }

def step : Event → Option Handoff
  | .start i => do
    let c ← h.copies[i]?
    if h.status i = .waiting ∧ (c.replication = true → h.ready c.key = true) then
      some (h.setStatus i .moving)
    else none
  | .arrive i => do
    let c ← h.copies[i]?
    if h.status i = .moving then some (h.arrived i c) else none
  | .fail i =>
    if i < h.copies.length ∧ (h.status i = .waiting ∨ h.status i = .moving) then
      some (h.setStatus i .failed)
    else none
  | .observe i =>
    if i < h.copies.length ∧ h.status i = .failed ∧ h.phase = .running then
      some { h with phase := .draining }
    else none
  | .interrupt => if h.phase = .running then some { h with phase := .draining } else none
  | .finish =>
    if h.phase = .running ∧ h.AllArrived then some h.commit
    else if h.phase = .draining ∧ h.AllEnded then some { h with phase := .raised }
    else none

end Handoff

end Af

end TokenSim
