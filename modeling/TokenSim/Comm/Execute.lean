import TokenSim.Comm.Traffic
import TokenSim.Lib.Ring

/-!
# Executing a collective plan

What a plan does to the data.  A tensor is a function from positions to values, in
elements of the plan's type, with its size kept beside it.  A ring phase runs its
rounds in order.  In a round all messages are sent at once, each with the values
that the source has in the message's range; the receiver adds them to its own or
replaces its own.  A gathering starts with the rank's input at the rank's place and
anything elsewhere.  A reorder phase moves blocks of equal size.

A phase reads, for each of its participants, what the phases before it left there,
one after the other, or the input of the plan if there is no phase before it.  The
reduce-scatters of one node, one for each destination node, read only the part for
their destination.
-/

namespace TokenSim.Comm

variable {ρ ν M : Type} [DecidableEq ρ]

/-! ## Rings -/

/-- A position, in elements of `width` bytes, is in the range of a message. -/
def Transmission.Covers (m : Transmission ρ ν) (width pos : Nat) : Prop :=
  m.shard.1 / width ≤ pos ∧ pos < m.shard.2 / width

instance (m : Transmission ρ ν) (width pos : Nat) : Decidable (m.Covers width pos) :=
  inferInstanceAs (Decidable (_ ∧ _))

section Rings

variable [Add M]

/-- What a rank has at a position after the messages of a round.  All messages carry
what their source had before the round. -/
def applyRound (width : Nat) (reduce : Bool) (messages : List (Transmission ρ ν))
    (values : ρ → Nat → M) : ρ → Nat → M := fun rank pos =>
  messages.foldl (fun acc m =>
    if m.target = rank ∧ m.Covers width pos then
      if reduce then acc + values m.source pos else values m.source pos
    else acc) (values rank pos)

/-- The rounds of a phase in order, from round `step` on. -/
def runRounds (width : Nat) (operation : Operation) (count : Nat) :
    List (List (Transmission ρ ν)) → Nat → (ρ → Nat → M) → ρ → Nat → M
  | [], _, values => values
  | messages :: rest, step, values =>
    runRounds width operation count rest (step + 1)
      (applyRound width (reduces operation count step) messages values)

/-- What a rank starts a ring with. -/
def ringStart (operation : Operation) (ranks : List ρ) (elements : Nat) (input junk : ρ → Nat → M) :
    ρ → Nat → M :=
  match operation with
  | .allGather => fun rank pos =>
    let index := ranks.idxOf rank
    if index * elements ≤ pos ∧ pos < (index + 1) * elements then input rank (pos - index * elements)
    else junk rank pos
  | _ => input

/-- What a rank keeps of what it has after a ring. -/
def ringOutput (operation : Operation) (ranks : List ρ) (elements : Nat) (values : ρ → Nat → M) :
    ρ → Nat → M :=
  match operation with
  | .reduceScatter => fun rank pos =>
    values rank (ranks.idxOf rank * (elements / ranks.length) + pos)
  | _ => values

/-- The output of a ring phase. -/
def runRing (width : Nat) (phase : TrafficPhase ρ ν) (input junk : ρ → Nat → M) : ρ → Nat → M :=
  let elements := phase.logicalInputBytes / width
  let start := ringStart phase.operation phase.participants elements input junk
  ringOutput phase.operation phase.participants elements
    (runRounds width phase.operation phase.participants.length phase.rounds 0 start)

end Rings

/-! ## Plans -/

/-- The blocks of a tensor in another order. -/
def runReorder (width : Nat) (phase : TrafficPhase ρ ν) (input : ρ → Nat → M) : ρ → Nat → M :=
  fun rank pos =>
    let block := phase.logicalInputBytes / width / phase.layoutPermutation.length
    input rank ((phase.layoutPermutation[pos / block]?).getD 0 * block + pos % block)

/-- What a phase left at its participants. -/
structure Result (ρ M : Type) where
  participants : List ρ
  size : Nat
  value : ρ → Nat → M

/-- Tensors one after the other. -/
def concatenated (junk : ρ → Nat → M) : List (Result ρ M) → ρ → Nat → M
  | [], rank, pos => junk rank pos
  | result :: rest, rank, pos =>
    if pos < result.size then result.value rank pos
    else concatenated junk rest rank (pos - result.size)

/-- The results so far. -/
abbrev Results (ρ M : Type) := PhaseId → Option (Result ρ M)

/-- The part of its input that a phase reads starts here. -/
def inputOffset (width : Nat) (phase : TrafficPhase ρ ν) : Nat :=
  match phase.phaseId with
  | .localRsFor _ destination => destination * (phase.logicalInputBytes / width)
  | _ => 0

/-- What a phase reads. -/
def phaseInput (width : Nat) (input junk : ρ → Nat → M) (results : Results ρ M)
    (phase : TrafficPhase ρ ν) : ρ → Nat → M := fun rank pos =>
  let pos := inputOffset width phase + pos
  if phase.predecessorIds = [] then input rank pos
  else
    let before := phase.predecessorIds.filterMap fun id =>
      (results id).filter fun result => rank ∈ result.participants
    concatenated junk before rank pos

section Plans

variable [Add M] (width : Nat) (input : ρ → Nat → M) (junk : PhaseId → ρ → Nat → M)

/-- Run a phase on what the phases before it left. -/
def runPhase (results : Results ρ M) (phase : TrafficPhase ρ ν) : Result ρ M where
  participants := phase.participants
  size := phase.logicalOutputBytes / width
  value :=
    let read := phaseInput width input (junk phase.phaseId) results phase
    if phase.operation = .dataReorder then runReorder width phase read
    else runRing width phase read (junk phase.phaseId)

def execute (results : Results ρ M) (phases : List (TrafficPhase ρ ν)) : Results ρ M :=
  phases.foldl (fun results phase id =>
    if id = phase.phaseId then some (runPhase width input junk results phase) else results id) results

end Plans

/-- An order of the phases in which each comes after those it depends on. -/
def Ordered (order : List (TrafficPhase ρ ν)) : Prop :=
  ∀ before phase after, order = before ++ phase :: after →
    ∀ id ∈ phase.predecessorIds, ∃ earlier ∈ before, earlier.phaseId = id

/-- What a rank has in the end: the result of the phase that no other depends on. -/
def finalResult (plan : TrafficPlan ρ ν) (results : Results ρ M) (rank : ρ) :
    Option (Result ρ M) :=
  plan.phases.findSome? fun phase =>
    if plan.phases.any fun other => decide (phase.phaseId ∈ other.predecessorIds) then none
    else (results phase.phaseId).filter fun result => rank ∈ result.participants

end TokenSim.Comm
