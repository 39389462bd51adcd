import Mathlib.Data.List.Nodup

/-!
# Running an execution DAG

`_run_dag` starts one process for every node.  A process waits for the events of its
predecessors, or for the failure event, and every process triggers its own event when
it ends, also when it has failed or was interrupted.  So an event alone does not say
that a node has succeeded; a process looks at the failure event before it starts.

A collective with input bindings does not wait for the producers it is bound to.
They are waited for inside, by the phases of its communication plan: a phase without
predecessor phases waits for the producers of its participants.

The steps below are those of the processes and of `_run_dag` itself, in any order that
the event queue allows.  An interrupt is delivered before the events that processes wait
for, so that after the run as a whole is interrupted no process passes its wait.

The wait of the handler for the interrupted processes is not protected.  An iteration
that fails interrupts its blocks, and interrupts them once more if it is itself
interrupted; the second interrupt leaves `_run_dag` at once.
-/

namespace TokenSim

namespace Af

structure CommPhase where
  phaseId : String
  /-- The devices of the ranks that take part. -/
  participants : List String
  predecessorIds : List String
deriving DecidableEq, Repr

/-- What `_run_dag` reads of a node, with the phases of its communication plan.  A
compute node has none. -/
structure DagNode where
  nodeId : String
  predecessorIds : List String
  /-- Devices and the nodes that produce their inputs. -/
  inputProducerIds : List (String × String)
  phases : List CommPhase
  phases_nodup : (phases.map CommPhase.phaseId).Nodup
  /-- Bindings name predecessors. -/
  bound : ∀ e ∈ inputProducerIds, e.2 ∈ predecessorIds
  /-- Bindings name every device once. -/
  devices_nodup : (inputProducerIds.map Prod.fst).Nodup

/-- The nodes of a DAG, which names its nodes uniquely and every predecessor before
the node that has it. -/
structure AFExecutionDAG where
  nodes : List DagNode
  ids_nodup : (nodes.map DagNode.nodeId).Nodup
  ordered : ∀ before node after, nodes = before ++ node :: after →
    ∀ p ∈ node.predecessorIds, p ∈ before.map DagNode.nodeId

namespace AFExecutionDAG

variable (dag : AFExecutionDAG)

/-- The sinks. -/
def terminalNodeIds : List String :=
  (dag.nodes.map DagNode.nodeId).filter fun id => ∀ node ∈ dag.nodes, id ∉ node.predecessorIds

def node? (id : String) : Option DagNode :=
  dag.nodes.find? fun node => node.nodeId = id

end AFExecutionDAG

namespace DagNode

variable (node : DagNode)

/-- With physical topology a bound collective waits for its producers inside. -/
def subgroup (physical : Bool) : Bool :=
  physical && node.inputProducerIds ≠ []

/-- The predecessors a process waits for before it starts. -/
def waitsFor (physical : Bool) : List String :=
  if node.subgroup physical then
    node.predecessorIds.filter fun p => p ∉ node.inputProducerIds.map Prod.snd
  else node.predecessorIds

def phase? (id : String) : Option CommPhase :=
  node.phases.find? fun phase => phase.phaseId = id

end DagNode

inductive NodeStatus where
  | pending
  | running
  | finished
  /-- It raised. -/
  | failed
  /-- It found the failure event and did not start. -/
  | skipped
  | cancelled
deriving DecidableEq, Repr

/-- The event of the node is triggered. -/
def NodeStatus.ended : NodeStatus → Bool
  | .pending | .running => false
  | .finished | .failed | .skipped | .cancelled => true

inductive PhaseStatus where
  | pending
  | running
  | completed
  /-- It raised or was interrupted. -/
  | ended
deriving DecidableEq, Repr

/-- `_run_dag` waits; drains the processes after a failure or after an interrupt; has
returned, raised the failure or passed the interrupt on. -/
inductive RunStatus where
  | waiting
  | failing
  | cancelling
  | returned
  | raised
  | interrupted
deriving DecidableEq, Repr

/-- The run as a whole was interrupted. -/
def RunStatus.stopped : RunStatus → Bool
  | .cancelling | .interrupted => true
  | .waiting | .failing | .returned | .raised => false

structure DagRun where
  status : String → NodeStatus
  phase : String → String → PhaseStatus
  /-- `failure_event.triggered`; the list of failures is then not empty. -/
  failure : Bool
  run : RunStatus

namespace DagRun

def start : DagRun where
  status := fun _ => .pending
  phase := fun _ _ => .pending
  failure := false
  run := .waiting

inductive Event where
  /-- The wait of a node is over. -/
  | resume (node : String)
  | finish (node : String)
  | fail (node : String)
  | startPhase (node phase : String)
  | finishPhase (node phase : String)
  | endPhase (node phase : String)
  /-- The interrupt of the drain reaches a process. -/
  | cancel (node : String)
  /-- `_run_dag` is resumed from its wait. -/
  | observe
  | interrupt
  | leave
deriving DecidableEq, Repr

variable (physical : Bool) (dag : AFExecutionDAG) (s : DagRun)

def setStatus (node : String) (status : NodeStatus) : DagRun :=
  { s with status := Function.update s.status node status }

def setPhase (node phase : String) (status : PhaseStatus) : DagRun :=
  { s with
    phase := Function.update s.phase node (Function.update (s.phase node) phase status) }

/-- The producers of the participants have ended.  A participant without a binding
raises. -/
def InputsEnded (node : DagNode) (phase : CommPhase) : Prop :=
  ∀ device ∈ phase.participants,
    ∃ e ∈ node.inputProducerIds, e.1 = device ∧ (s.status e.2).ended = true

instance (node : DagNode) (phase : CommPhase) : Decidable (s.InputsEnded node phase) :=
  inferInstanceAs (Decidable (∀ device ∈ phase.participants,
    ∃ e ∈ node.inputProducerIds, e.1 = device ∧ (s.status e.2).ended = true))

/-- A phase may start: its predecessor phases are complete and, if it has none, the
producers of its participants have ended without a failure event. -/
def PhaseReady (node : DagNode) (phase : CommPhase) : Prop :=
  (∀ q ∈ phase.predecessorIds, s.phase node.nodeId q = .completed) ∧
    (node.subgroup physical = true →
      (phase.predecessorIds = [] → s.InputsEnded node phase) ∧ s.failure = false)

instance (node : DagNode) (phase : CommPhase) : Decidable (s.PhaseReady physical node phase) :=
  inferInstanceAs (Decidable (_ ∧ (_ → (_ → _) ∧ _)))

def AllEnded : Prop :=
  ∀ node ∈ dag.nodes, (s.status node.nodeId).ended = true

instance : Decidable (s.AllEnded dag) :=
  inferInstanceAs (Decidable (∀ node ∈ dag.nodes, _))

def step : Event → Option DagRun
  | .resume id => do
    let node ← dag.node? id
    if s.status id = .pending ∧ (s.run.stopped = true → node.waitsFor physical = []) then
      if s.failure then some (s.setStatus id .skipped)
      else if ∀ p ∈ node.waitsFor physical, (s.status p).ended = true then
        some (s.setStatus id .running)
      else none
    else none
  | .finish id => do
    let node ← dag.node? id
    if s.status id = .running ∧ ∀ phase ∈ node.phases, s.phase id phase.phaseId = .completed then
      some (s.setStatus id .finished)
    else none
  | .fail id => do
    let _ ← dag.node? id
    if s.status id = .running then some { s.setStatus id .failed with failure := true } else none
  | .startPhase id phaseId => do
    let node ← dag.node? id
    let phase ← node.phase? phaseId
    if s.status id = .running ∧ s.phase id phaseId = .pending ∧ s.run.stopped = false ∧
        s.PhaseReady physical node phase then
      some (s.setPhase id phaseId .running)
    else none
  | .finishPhase id phaseId =>
    if s.phase id phaseId = .running then some (s.setPhase id phaseId .completed) else none
  | .endPhase id phaseId =>
    if s.phase id phaseId = .pending ∨ s.phase id phaseId = .running then
      some (s.setPhase id phaseId .ended)
    else none
  | .cancel id =>
    if (s.run = .failing ∨ s.run.stopped = true) ∧ (s.status id).ended = false then
      some (s.setStatus id .cancelled)
    else none
  | .observe =>
    if s.run = .waiting then
      if s.failure then some { s with run := .failing }
      else if ∀ id ∈ dag.terminalNodeIds, (s.status id).ended = true then
        some { s with run := .returned }
      else none
    else none
  | .interrupt =>
    match s.run with
    | .waiting | .failing => some { s with run := .cancelling }
    | .cancelling => some { s with run := .interrupted }
    | .returned | .raised | .interrupted => none
  | .leave =>
    if s.AllEnded dag then
      match s.run with
      | .failing => some { s with run := .raised }
      | .cancelling => some { s with run := .interrupted }
      | _ => none
    else none

end DagRun

/-! ## Communication plans -/

/-- The phases of an all-to-all plan over the ranks of the nodes: within the source
nodes, between every two nodes, and within the target nodes. -/
def allToAllPhases (groups : List (Nat × List String)) (destinationRedistribution : Bool) :
    List CommPhase :=
  (groups.map fun g =>
    { phaseId := "source_local:" ++ toString g.1, participants := g.2, predecessorIds := [] }) ++
  (groups.flatMap fun g => (groups.filter fun g' => g'.1 ≠ g.1).map fun g' =>
    { phaseId := "inter:" ++ toString g.1 ++ ":" ++ toString g'.1
      participants := g.2 ++ g'.2
      predecessorIds := ["source_local:" ++ toString g.1] }) ++
  (if destinationRedistribution then
    groups.map fun g =>
      { phaseId := "destination_local:" ++ toString g.1
        participants := g.2
        predecessorIds := (groups.filter fun g' => g'.1 ≠ g.1).map fun g' =>
          "inter:" ++ toString g'.1 ++ ":" ++ toString g.1 }
  else [])

end Af

end TokenSim
