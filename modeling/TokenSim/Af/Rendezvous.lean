import Mathlib.Data.Finset.Card
import TokenSim.Lib.Runs

/-!
# The rendezvous of native attention peers

With several attention replicas (peers) and one FFN replica the peers execute the
same transactions: one for each layer and block of a round, where the rounds of a
peer are the iterations it submits.  The stage of a round is the number of
transactions that all peers have finished.  `waitTurn` holds a peer back until its
transaction is the stage of its round and the earlier rounds are complete.

The second half of the file is the system the rendezvous is part of: peers with any
number of iterations each, in any interleaving.  Every iteration goes through its
transactions in the order of layers and blocks; it enters a transaction at the router
and finishes it later.
-/

namespace TokenSim

open Function (update)

namespace Af

structure AFBlock where
  iterationId : Nat
  blockId : Nat
  /-- `placement.a_dp_rank` -/
  aDpRank : Nat
  forwardPhase : String

structure AFIteration where
  iterationId : Nat
  blocks : List AFBlock

/-- An entry of `rounds`. -/
structure RoundTransaction where
  phases : List String
  finished : Finset Nat
  stage : Nat
  stagePeers : Finset Nat

inductive RendezvousError where
  | configuration (text : String)
  | simulationState (text : String)
  | key
  | index
  deriving DecidableEq, Repr

structure NativeRendezvous where
  peers : Nat
  enabled : Bool
  /-- The message of the error in `failure`, once it is triggered. -/
  failure : Option String
  sequences : Nat → Nat
  /-- Round and owner of the iterations that are under way. -/
  iterations : Nat → Option (Nat × Nat)
  rounds : Nat → Option RoundTransaction
  completedRound : Int

namespace NativeRendezvous

def init (executionProtocol : String) (peers : Nat) : NativeRendezvous where
  peers := peers
  enabled := executionProtocol = "vllm_afd" ∧ 1 < peers
  failure := none
  sequences := fun _ => 0
  iterations := fun _ => none
  rounds := fun _ => none
  completedRound := -1

variable (s : NativeRendezvous)

def check : Except RendezvousError Unit :=
  if s.enabled then
    match s.failure with
    | some text => .error (.simulationState text)
    | none => .ok ()
  else .ok ()

def abort (reason : String) : NativeRendezvous :=
  if s.enabled ∧ s.failure = none then
    { s with
      failure := some ("native AF peer transaction aborted: " ++ reason ++
        "; create a new executor before retrying")
      iterations := fun _ => none
      rounds := fun _ => none }
  else s

def mismatch (roundId : Nat) : String :=
  "native AF peers require matching microbatch counts and phases in submission round " ++
    toString roundId

/-- `register(iteration)`: its outcome, and the state it leaves. -/
def register (iteration : AFIteration) : Except RendezvousError Unit × NativeRendezvous :=
  if s.enabled then
    match s.check, iteration.blocks with
    | .error e, _ => (.error e, s)
    | .ok _, [] => (.error .index, s)
    | .ok _, first :: rest =>
      let owner := first.aDpRank
      let roundId := s.sequences owner
      let phases := (first :: rest).map AFBlock.forwardPhase
      let transaction := (s.rounds roundId).getD
        { phases := phases, finished := ∅, stage := 0, stagePeers := ∅ }
      let opened := { s with rounds := update s.rounds roundId (some transaction) }
      if transaction.phases ≠ phases then
        (.error (.configuration (mismatch roundId)), opened.abort (mismatch roundId))
      else
        (.ok (),
          { opened with
            iterations :=
              update s.iterations iteration.iterationId (some (roundId, owner))
            sequences := update s.sequences owner (roundId + 1) })
  else (.ok (), s)

/-- The round of a block, its transaction and the ordinal of the block in it. -/
def transactionOf (block : AFBlock) (layer : Nat) :
    Except RendezvousError (Nat × RoundTransaction × Nat) := do
  s.check
  match s.iterations block.iterationId with
  | none => throw .key
  | some (roundId, _) =>
    match s.rounds roundId with
    | none => throw .key
    | some transaction =>
      pure (roundId, transaction, layer * transaction.phases.length + block.blockId)

/-- The loop of `wait_turn`, each time it is evaluated: whether the block may pass. -/
def waitTurn (block : AFBlock) (layer : Nat) (stage : String) : Except RendezvousError Bool := do
  let (roundId, transaction, ordinal) ← s.transactionOf block layer
  pure !(decide ((roundId : Int) > s.completedRound + 1) ||
    (stage = "router" && ordinal ≠ transaction.stage))

/-- The transaction after one more peer has finished its stage. -/
def stageDone (transaction : RoundTransaction) (owner : Nat) : RoundTransaction :=
  let stagePeers := insert owner transaction.stagePeers
  if stagePeers.card = s.peers then
    { transaction with stage := transaction.stage + 1, stagePeers := ∅ }
  else { transaction with stagePeers := stagePeers }

def finishStage (block : AFBlock) (layer : Nat) : Except RendezvousError NativeRendezvous :=
  if s.enabled then do
    let (roundId, transaction, ordinal) ← s.transactionOf block layer
    if ordinal ≠ transaction.stage ∨ block.aDpRank ∈ transaction.stagePeers then
      throw (.simulationState "native AF stage completed out of transaction order")
    else
      pure { s with
        rounds :=
          update s.rounds roundId (some (s.stageDone transaction block.aDpRank)) }
  else pure s

/-- `complete(iteration)`: its outcome, and the state it leaves. -/
def complete (iterationId : Nat) : Except RendezvousError Unit × NativeRendezvous :=
  match s.iterations iterationId with
  | none => (.ok (), s)
  | some (roundId, owner) =>
    let popped := { s with iterations := update s.iterations iterationId none }
    match s.rounds roundId with
    | none => (.error .key, popped)
    | some transaction =>
      let finished := insert owner transaction.finished
      if finished.card = s.peers then
        (.ok (),
          { popped with
            rounds := update s.rounds roundId none
            completedRound := roundId })
      else
        (.ok (),
          { popped with
            rounds := update s.rounds roundId
              (some { transaction with finished := finished }) })

end NativeRendezvous

/-! ## Peers -/

/-- An iteration of a peer: how many transactions it has finished, whether it has
passed the router of the next one, and whether `complete` was called. -/
structure Job where
  iterationId : Nat
  phases : List String
  next : Nat
  entered : Bool
  done : Bool

namespace Job

variable (job : Job)

/-- The block of the next transaction. -/
def block (owner : Nat) : AFBlock where
  iterationId := job.iterationId
  blockId := job.next % job.phases.length
  aDpRank := owner
  forwardPhase := job.phases.getD (job.next % job.phases.length) ""

def layer : Nat :=
  job.next / job.phases.length

end Job

structure PeerSystem where
  rendezvous : NativeRendezvous
  nextIterationId : Nat
  /-- The iteration of a peer in a round. -/
  jobs : Nat × Nat → Option Job

namespace PeerSystem

inductive Call where
  | register (owner : Nat) (phases : List String)
  | waitTurn (owner round : Nat) (stage : String)
  | finishStage (owner round : Nat)
  | complete (owner round : Nat)
  | abort (reason : String)

def start (peers : Nat) : PeerSystem where
  rendezvous := .init "vllm_afd" peers
  nextIterationId := 0
  jobs := fun _ => none

variable (layers : Nat) (s : PeerSystem)

/-- The iteration the builder makes of the blocks of one peer. -/
def iteration (iterationId owner : Nat) (phases : List String) : AFIteration where
  iterationId := iterationId
  blocks := phases.mapIdx fun i phase =>
    { iterationId := iterationId, blockId := i, aDpRank := owner, forwardPhase := phase }

def setJob (owner round : Nat) (job : Job) : PeerSystem :=
  { s with jobs := update s.jobs (owner, round) (some job) }

/-- The number of transactions of an iteration. -/
def transactions (job : Job) : Nat :=
  layers * job.phases.length

/-- The iterations of the peer before a round are complete. -/
def EarlierDone (owner round : Nat) : Prop :=
  ∀ r < round, ∃ job, s.jobs (owner, r) = some job ∧ job.done = true

instance (owner round : Nat) : Decidable (s.EarlierDone owner round) :=
  decidable_of_iff (∀ r < round, (s.jobs (owner, r)).any Job.done = true) <| by
    simp only [EarlierDone, Option.any_eq_true]

/-- A call of one of the peers.  `none`: the peer does not make this call now.  An
iteration finishes a transaction that it has entered and completes after its last
one; in a model without layers, where no transaction holds it back, the peer
completes its iterations in order. -/
def step : Call → Option PeerSystem
  | .register owner phases =>
    if owner < s.rendezvous.peers then
      let (outcome, rendezvous) := s.rendezvous.register (iteration s.nextIterationId owner phases)
      let called := { s with rendezvous, nextIterationId := s.nextIterationId + 1 }
      match outcome with
      | .error _ => some called
      | .ok _ =>
        let job := { iterationId := s.nextIterationId, phases, next := 0, entered := false,
                     done := false }
        some (called.setJob owner (s.rendezvous.sequences owner) job)
    else none
  | .waitTurn owner round stage => do
    let job ← s.jobs (owner, round)
    if job.done = false ∧ job.next < transactions layers job then
      match s.rendezvous.waitTurn (job.block owner) job.layer stage with
      | .ok true =>
        some (s.setJob owner round { job with entered := job.entered || stage = "router" })
      | .ok false | .error _ => some s
    else none
  | .finishStage owner round => do
    let job ← s.jobs (owner, round)
    if job.done = false ∧ job.entered = true then
      match s.rendezvous.finishStage (job.block owner) job.layer with
      | .ok rendezvous =>
        some ({ s with rendezvous }.setJob owner round
          { job with next := job.next + 1, entered := false })
      | .error _ => some s
    else none
  | .complete owner round => do
    let job ← s.jobs (owner, round)
    if job.done = false ∧ job.next = transactions layers job ∧
        (layers = 0 → s.EarlierDone owner round) then
      let (_, rendezvous) := s.rendezvous.complete job.iterationId
      some ({ s with rendezvous }.setJob owner round { job with done := true })
    else none
  | .abort reason => some { s with rendezvous := s.rendezvous.abort reason }

end PeerSystem

end Af

end TokenSim
