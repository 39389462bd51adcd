import Mathlib.Data.List.Dedup
import TokenSim.Af.Regroup
import TokenSim.Lib.Runs

/-!
# Batches of FFN work

The attention replicas send their FFN work to one replica, and `FFNBatcher` executes
the work of several owners as one call.  Members that may be executed together have one
key.  Each key has a list of pending members and a task, `_drain`, that waits, selects a
batch, takes the compute resources and serves it.

A member may leave at any time.  The last member that leaves a batch, or an empty list,
interrupts the task.  An interrupt has the priority of the event loop: it is delivered
before the task goes on for any other reason.  Waiting times, the grants of resources
and errors of the estimate are events of the environment, which may happen at any time;
the keys have nothing in common but the serial number of the groups.
-/

namespace TokenSim

namespace Af

namespace Batching

open Planning

/-- The fields of a query that the batcher reads or writes. -/
structure AFComputeQuery where
  phase : String
  tokenCount : Nat
  contextLengths : List Nat
  queryLengths : List Nat
  dtype : String
  weightDtype : Option String
  activationDtype : Option String
  localShape : OrderedDict String Nat
  localTokenCount : Nat
  expertIds : List Nat
  expertWorkload : List (Nat × Int)
  routingEdges : List AFRoutingEdge
  tensorSlices : List AFTensorSlice
  originalTokenCount : Option Nat
  assignmentCount : Option Nat
  inputEdgeCount : Option Nat
  outputTokenCount : Option Nat

/-- What batching raises. -/
inductive BatchError where
  | configuration (text : String)
  | key
  /-- An error of the host stage, of the estimate or of the rendezvous. -/
  | external (text : String)
  deriving DecidableEq, Repr

/-! ## Merged queries -/

/-- `dict(query.expert_workload)`. -/
def AFComputeQuery.workload (query : AFComputeQuery) : Tally Nat :=
  .update .empty query.expertWorkload

/-- The sum of a field that all queries have. -/
def total (field : AFComputeQuery → Option Nat) (queries : List AFComputeQuery) : Option Nat :=
  if ∀ query ∈ queries, (field query).isSome then
    some (queries.map fun query => (field query).getD 0).sum
  else none

/-- The tokens per expert of several queries. -/
def mergedWorkload (queries : List AFComputeQuery) : Tally Nat :=
  queries.foldl (fun t query => Tally.addAll t query.workload.entries) .empty

/-- One query for several. -/
def mergeQueries (first : AFComputeQuery) (rest : List AFComputeQuery) :
    Except BatchError AFComputeQuery :=
  let queries := first :: rest
  let count := (queries.map AFComputeQuery.localTokenCount).sum
  let workload := (mergedWorkload queries).entries.insertionSort fun a b => a.1 ≤ b.1
  let edges := queries.flatMap AFComputeQuery.routingEdges
  let shape := first.localShape.set "tokens" count
  if (first.localShape.get? "elements").isSome ∧
      ∃ query ∈ queries, query.localShape.get? "elements" = none then .error .key
  else .ok { first with
    tokenCount := count
    localTokenCount := count
    localShape := if (first.localShape.get? "elements").isSome then
      shape.set "elements" (queries.map fun query =>
        (query.localShape.get? "elements").getD 0).sum else shape
    contextLengths := queries.flatMap AFComputeQuery.contextLengths
    queryLengths := queries.flatMap AFComputeQuery.queryLengths
    expertIds := workload.map Prod.fst
    expertWorkload := workload
    routingEdges := edges
    tensorSlices := queries.flatMap AFComputeQuery.tensorSlices
    originalTokenCount := if edges.isEmpty then total AFComputeQuery.originalTokenCount queries
      else some (tokenCount edges)
    assignmentCount := total AFComputeQuery.assignmentCount queries
    inputEdgeCount := total AFComputeQuery.inputEdgeCount queries
    outputTokenCount := total AFComputeQuery.outputTokenCount queries }

/-! ## Members -/

/-- What the batcher reads of a block. -/
structure MemberBlock where
  /-- The round of its iteration in the rendezvous of native peers. -/
  round : Nat
  blockId : Nat
  aDomain : String
  aDpRank : Nat
  tokenCount : Nat

/-- One caller of the batcher with its node and query. -/
structure BatchMember where
  /-- The identity of the object. -/
  id : Nat
  block : MemberBlock
  layer : Nat
  step : ExecutionNode
  query : AFComputeQuery

/-- The attention replica of a member. -/
def BatchMember.owner (member : BatchMember) : String × Nat :=
  (member.block.aDomain, member.block.aDpRank)

/-- `query.original_token_count or block.token_count`. -/
def BatchMember.tokens (member : BatchMember) : Nat :=
  match member.query.originalTokenCount with
  | some (n + 1) => n + 1
  | _ => member.block.tokenCount

/-- The configuration the batcher reads. -/
structure Config where
  /-- `native_batches.enabled`: the batches of all peers are executed together. -/
  native : Bool
  /-- The number of attention replicas, and of native peers. -/
  dataParallelSize : Nat
  afBlockSize : Nat
  ffnBatchMaxTokens : Nat
  /-- `routed_expert_execution` is "grouped". -/
  grouped : Bool
  /-- The number of compute resources of workers. -/
  resources : List String → Nat

/-- The most tokens of a batch. -/
def Config.limit (config : Config) : Nat :=
  if config.ffnBatchMaxTokens = 0 then config.afBlockSize * config.dataParallelSize
  else config.ffnBatchMaxTokens

/-- Members with equal keys share a queue. -/
structure BatchKey where
  transaction : Option (Nat × Nat)
  layer : Nat
  stage : Option ExecutionStage
  physicalWorkers : List String
  sourceDomain : String
  domainRanks : List Nat
  tpGroup : List Nat
  epGroup : List Nat
  expertIds : List Nat
  phase : String
  dtype : String
  weightDtype : Option String
  activationDtype : Option String
  submitUs : Nat
  localShape : List (String × Nat)
  sourceLayout : Option TensorLayout
  targetLayout : Option TensorLayout
  deriving DecidableEq

/-- The queue of a member. -/
def keyOf (config : Config) (member : BatchMember) (submitUs : Nat) : BatchKey where
  transaction := if config.native then some (member.block.round, member.block.blockId) else none
  layer := member.layer
  stage := member.step.stage
  physicalWorkers := member.step.physicalWorkers
  sourceDomain := member.step.sourceDomain
  domainRanks := member.step.domainRanks
  tpGroup := member.step.tpGroup
  epGroup := member.step.epGroup
  expertIds := if config.grouped then [] else member.query.expertIds
  phase := member.query.phase
  dtype := member.query.dtype
  weightDtype := member.query.weightDtype
  activationDtype := member.query.activationDtype
  submitUs
  localShape := (member.query.localShape.entries.insertionSort fun a b => a.1 ≤ b.1).filter
    fun e => e.1 ∉ ["tokens", "elements"]
  sourceLayout := member.step.localWork.bind RankLocalWork.sourceLayout
  targetLayout := member.step.localWork.bind RankLocalWork.targetLayout

/-! ## The queue of a key -/

/-- A batch on its way. -/
structure Batch where
  number : Nat
  /-- The live pending members when the batch was selected. -/
  live : List BatchMember
  members : List BatchMember
  query : AFComputeQuery

/-- Where the task of a key waits. -/
inductive Drain where
  /-- The process has been created and has not run yet. -/
  | created
  /-- `wait_turn`. -/
  | turn
  /-- The native peers, or the batch wait. -/
  | collect
  /-- `_timestamp_boundary`. -/
  | boundary
  | submit (batch : Batch)
  | request (batch : Batch) (granted : List Nat)
  | serve (batch : Batch) (granted : List Nat)

/-- What a caller is given. -/
inductive Outcome where
  | result (query : AFComputeQuery) (groupId submitId : Option String)
  | error (error : BatchError)

/-- What has happened to the request of a batch for a compute resource. -/
inductive Lease where
  | granted (batch resource : Nat)
  | released (batch resource : Nat)
  | withdrawn (batch resource : Nat)
  deriving DecidableEq

/-- The end of the requests for `n` resources. -/
def closing (n batch : Nat) (granted : List Nat) : List Lease :=
  (List.range n).map fun i => if i ∈ granted then .released batch i else .withdrawn batch i

/-- The members of one key and the task that serves them. -/
structure Queue where
  pending : List BatchMember
  /-- The task that is alive. -/
  task : Option Drain
  /-- The interrupts of the task that are not delivered. -/
  interrupts : Nat
  /-- The members of all calls of `run`, by their ids. -/
  arrived : List Nat
  /-- The members whose call of `run` has ended. -/
  cancelled : List Nat
  /-- The calls of `done.succeed`. -/
  settled : List (Nat × Outcome)
  executed : List Batch
  leases : List Lease

/-- No member, no task. -/
def Queue.empty : Queue := ⟨[], none, 0, [], [], [], [], []⟩

/-- The batch in `current`. -/
def Drain.batch? : Drain → Option Batch
  | .created | .turn | .collect | .boundary => none
  | .submit batch | .request batch _ | .serve batch _ => some batch

/-- Where a round of the loop waits first. -/
def Config.firstWait (config : Config) : Drain :=
  if config.native then .turn
  else if 1 < config.dataParallelSize then .collect
  else .boundary

namespace Queue

variable (config : Config) (q : Queue)

/-- The batch on its way. -/
def batch? : Option Batch := q.task.bind Drain.batch?

/-- The members of the batch in `current`. -/
def group : List BatchMember := (q.batch?.map Batch.members).getD []

/-- The member was not cancelled. -/
def isLive (member : BatchMember) : Bool := member.id ∉ q.cancelled

/-- The pending members that were not cancelled. -/
def live : List BatchMember := q.pending.filter q.isLive

/-- The member has its result. -/
def triggered (member : BatchMember) : Bool := member.id ∈ q.settled.map Prod.fst

/-- A call of `run` makes a task where there is none. -/
def arrive (member : BatchMember) : Queue :=
  { q with
    pending := q.pending ++ [member]
    arrived := member.id :: q.arrived
    task := some (q.task.getD .created) }

/-- `done.succeed` for the live members of a list.  A second call for a member would be
a second entry. -/
def succeed (members : List BatchMember) (outcome : BatchMember → Outcome) : Queue :=
  { q with settled := q.settled ++ (members.filter q.isLive).map fun m => (m.id, outcome m) }

/-- `done.succeed` with an error for the members that have no result yet. -/
def fail (members : List BatchMember) (e : BatchError) : Queue :=
  q.succeed (members.filter fun m => !q.triggered m) fun _ => .error e

/-- The live members without a result. -/
def remaining : List BatchMember := q.pending.filter fun m => q.isLive m && !q.triggered m

/-- The last `finally` of `_drain`. -/
def finish : Queue :=
  { q with
    pending := q.remaining
    task := if q.remaining.isEmpty then none else some .created
    interrupts := 0 }

/-- The head of the loop of `_drain`. -/
def loop : Queue :=
  if q.live.isEmpty then q.finish else { q with task := some config.firstWait }

/-- The first `finally`: give back what was granted and withdraw the other requests. -/
def release (n : Nat) : Queue :=
  match q.task with
  | some (.request batch granted) | some (.serve batch granted) =>
    { q with leases := q.leases ++ closing n batch.number granted }
  | _ => q

/-- The members taken and put back so far. -/
structure Selection where
  selected : List BatchMember
  retained : List BatchMember
  owners : List (String × Nat)
  tokens : Nat

/-- One member in the loop of `_select`. -/
def Selection.take (limit : Nat) (s : Selection) (member : BatchMember) : Selection :=
  if member.owner ∈ s.owners ∨ (s.selected ≠ [] ∧ limit < s.tokens + member.tokens) then
    { s with retained := s.retained ++ [member] }
  else ⟨s.selected ++ [member], s.retained, member.owner :: s.owners, s.tokens + member.tokens⟩

/-- The members of the next batch. -/
def select : Selection :=
  if config.native then ⟨q.live, [], [], 0⟩
  else q.live.foldl (Selection.take config.limit) ⟨[], [], [], 0⟩

/-- The query of a batch. -/
def batchQuery (first : BatchMember) : List BatchMember → Except BatchError AFComputeQuery
  | [] => .ok first.query
  | rest => mergeQueries first.query (rest.map BatchMember.query)

/-- The query of a batch, and the check of the tokens of native peers. -/
def prepare (first : BatchMember) (rest : List BatchMember) : Except BatchError AFComputeQuery := do
  let query ← batchQuery first rest
  if config.native = true ∧
      config.limit < ((first :: rest).map fun m => m.block.tokenCount).sum then
    .error (.configuration "native AF peer batch exceeds ffn_batch_max_tokens workspace budget")
  else .ok query

/-- The part of the loop after the wait. -/
def form (submitUs : Nat) : Queue :=
  let selection := q.select config
  let q' := { q with pending := selection.retained }
  match selection.selected with
  | [] => q'.loop config
  | first :: rest =>
    match prepare config first rest with
    | .error e => (q'.fail (first :: rest) e).loop config
    | .ok query =>
      let batch := Batch.mk q.executed.length q.live (first :: rest) query
      { q' with
        executed := q.executed ++ [batch]
        task := some (if submitUs = 0 then .request batch [] else .submit batch) }

/-- The peers of a native batch are there. -/
def collected : Prop :=
  config.native = true →
    config.dataParallelSize ≤ (q.live.map fun m => m.block.aDpRank).eraseDups.length

instance : Decidable (q.collected config) := inferInstanceAs (Decidable (_ → _))

/-- Nobody waits for the task any more once a member has left. -/
def abandoned (id : Nat) : Bool :=
  match q.batch? with
  | some batch => batch.members.any (fun m => m.id = id) && batch.members.all (fun m => !q.isLive m)
  | none => q.live.isEmpty && q.task.isSome

/-- The end of a call of `run`, which may have been interrupted. -/
def leave (id : Nat) : Queue :=
  let q := { q with cancelled := id :: q.cancelled }
  if q.abandoned id then { q with interrupts := q.interrupts + 1 } else q

/-- The delivery of an interrupt. -/
def interrupted (n : Nat) : Queue :=
  let q := { q with interrupts := q.interrupts - 1 }
  match q.batch? with
  | none => q.finish
  | some batch =>
    if ∃ m ∈ batch.members, q.isLive m then (q.release n).finish
    else (q.release n).loop config

/-- The result of a member of a batch. -/
def resultOf (submitUs serial : Nat) (batch : Batch) (member : BatchMember) : Outcome :=
  let first := (batch.members.head?.map fun m => m.step.nodeId).getD ""
  .result batch.query
    (if batch.members.length ≤ 1 then none
      else some (first ++ ":ffn_batch:" ++ toString serial))
    (if submitUs = 0 ∨ batch.members.head?.map BatchMember.id ≠ some member.id then none
      else some (first ++ ":batch_submit"))

end Queue

/-! ## Events -/

/-- What can happen to a queue. -/
inductive QueueEvent where
  | arrive (member : BatchMember)
  | leave (id : Nat)
  | start
  | turn (error : Option BatchError)
  | collected
  | selected
  | submitted (error : Option BatchError)
  | granted (resource : Nat)
  | estimated (error : Option BatchError)
  | served
  | interrupted

/-- The events of the task and its resources. -/
def QueueEvent.isInternal : QueueEvent → Bool
  | .arrive _ | .leave _ => false
  | _ => true

/-- One event of a queue. -/
def Queue.step (config : Config) (key : BatchKey) (serial : Nat) (q : Queue) :
    QueueEvent → Option Queue
  | .arrive member =>
    if member.id ∈ q.arrived then none else some (q.arrive member)
  | .leave id =>
    if id ∈ q.arrived ∧ id ∉ q.cancelled then some (q.leave id) else none
  | .start => match q.task with
      | some .created => some (q.loop config)
      | _ => none
  | .turn error => match q.task, q.interrupts with
      | some .turn, 0 => some (match error with
          | none => { q with task := some .collect }
          | some e => (q.fail q.pending e).finish)
      | _, _ => none
  | .collected => match q.task, q.interrupts with
      | some .collect, 0 =>
        if q.collected config then some { q with task := some .boundary } else none
      | _, _ => none
  | .selected => match q.task, q.interrupts with
      | some .boundary, 0 => some (q.form config key.submitUs)
      | _, _ => none
  | .submitted error => match q.task, q.interrupts with
      | some (.submit batch), 0 => some (match error with
          | none => { q with task := some (.request batch []) }
          | some e => ((q.fail batch.members e).release
              (config.resources key.physicalWorkers)).loop config)
      | _, _ => none
  | .granted i => match q.task with
      | some (.request batch granted) =>
        if i < config.resources key.physicalWorkers ∧ i ∉ granted then
          some { q with
            task := some (.request batch (i :: granted))
            leases := q.leases ++ [.granted batch.number i] }
        else none
      | _ => none
  | .estimated error => match q.task, q.interrupts with
      | some (.request batch granted), 0 =>
        if ∀ i < config.resources key.physicalWorkers, i ∈ granted then
          some (match error with
            | none => { q with task := some (.serve batch granted) }
            | some e => ((q.fail batch.members e).release
                (config.resources key.physicalWorkers)).loop config)
        else none
      | _, _ => none
  | .served => match q.task, q.interrupts with
      | some (.serve batch _), 0 =>
        some (((q.succeed batch.members (Queue.resultOf key.submitUs serial batch)).release
          (config.resources key.physicalWorkers)).loop config)
      | _, _ => none
  | .interrupted => match q.task with
      | none | some .created => none
      | some _ => if q.interrupts = 0 then none
          else some (q.interrupted config (config.resources key.physicalWorkers))

/-- The queues and the number of the next batch. -/
structure FFNBatcher where
  queues : BatchKey → Queue
  serial : Nat

/-- What can happen to the batcher. -/
inductive Event where
  /-- A call of `run`. -/
  | run (member : BatchMember) (submitUs : Nat)
  | on (key : BatchKey) (event : QueueEvent)

namespace FFNBatcher

/-- No queue has a member. -/
def init : FFNBatcher := ⟨fun _ => .empty, 0⟩

/-- The serial number after an event of a queue. -/
def nextSerial (serial : Nat) (q : Queue) : QueueEvent → Nat
  | .served => if q.group.length ≤ 1 then serial else serial + 1
  | _ => serial

/-- One event of the queue of a key. -/
def advance (config : Config) (s : FFNBatcher) (key : BatchKey) (event : QueueEvent) :
    Option FFNBatcher :=
  ((s.queues key).step config key s.serial event).map fun q =>
    ⟨Function.update s.queues key q, nextSerial s.serial (s.queues key) event⟩

/-- One event of the batcher. -/
def step (config : Config) (s : FFNBatcher) : Event → Option FFNBatcher
  | .run member submitUs => s.advance config (keyOf config member submitUs) (.arrive member)
  | .on _ (.arrive _) => none
  | .on key event => s.advance config key event

end FFNBatcher

end Batching

end Af

end TokenSim
