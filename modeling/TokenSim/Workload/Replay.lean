import Mathlib.Data.List.Dedup
import Mathlib.Data.List.Sort
import TokenSim.Lib.OrderedDict
import TokenSim.Lib.Runs

/-!
# Replay of recorded agent traces

A trace graph is a tree of conversations: the root, and workers that branches of the
root spawn and join.  A play holds one cursor for each conversation.  A turn is issued
when its cursor is due, the turns it depends on are completed and the branches that join
at it have ended; its completion moves the cursor on, and a turn of the root may open
branches.

`step` is the replay with an engine that completes, fails or cancels any request at any
time.  Times are rational numbers.  The idle shifts and the new origin at the start of
the profile move timers and nothing else; here they are events that move a timer
anywhere.  A drain that gives up on unacknowledged cancellations ends the run and is not
part of it.
-/

namespace TokenSim

namespace Replay

/-- A turn of a conversation. -/
structure TurnKey where
  conversationId : String
  turnIndex : Nat
  deriving DecidableEq, Repr

/-- A recorded request. -/
structure RawRequest where
  t : Rat
  /-- `none` also for values that are not finite. -/
  apiTime : Option Rat

/-- The recorded duration. -/
def RawRequest.durationS (r : RawRequest) : Rat :=
  match r.apiTime with
  | some a => max 0 a
  | none => 0

/-- The recorded end. -/
def RawRequest.endS (r : RawRequest) : Rat := r.t + r.durationS

/-- A turn with the turns that it waits for. -/
structure GraphTurn where
  key : TurnKey
  request : RawRequest
  waitAfterPreviousS : Rat
  predecessors : List TurnKey

/-- A conversation and its turns. -/
structure Conversation where
  conversationId : String
  turns : List GraphTurn
  /-- The key of a turn is its position. -/
  keys : ∀ (i : Nat) (turn : GraphTurn), turns[i]? = some turn → turn.key = ⟨conversationId, i⟩

/-- Workers that a turn of the root spawns, and where they join. -/
structure Branch where
  branchId : String
  childConversationIds : List String
  spawningTurnIndex : Nat
  joinTurnIndex : Option Nat
  startS : Rat

/-- A tree of conversations. -/
structure TraceGraph where
  traceId : String
  blockSize : Nat
  root : Conversation
  workers : List Conversation
  branches : List Branch
  timeStartS : Rat
  root_id : root.conversationId = traceId
  /-- Branches spawn workers of the graph, from turns of the root. -/
  children : ∀ b ∈ branches, ∀ cid ∈ b.childConversationIds,
    cid ∈ workers.map Conversation.conversationId
  spawns : ∀ b ∈ branches, b.spawningTurnIndex < root.turns.length

namespace TraceGraph

variable (graph : TraceGraph)

/-- The conversations, the root first. -/
def conversations : List Conversation := graph.root :: graph.workers

/-- Their ids. -/
def ids : List String := graph.conversations.map Conversation.conversationId

/-- The entry of `conversations` in a dictionary by id, where the last one stays. -/
def conversation? (cid : String) : Option Conversation :=
  graph.conversations.reverse.find? fun c => c.conversationId = cid

end TraceGraph

/-! ## Snapshots -/

/-- The next turn of a conversation at the time of a snapshot. -/
structure SnapshotState where
  conversationId : String
  nextTurnIndex : Nat
  dispatchOffsetS : Rat
  waitingOnChildren : Bool

/-- A trace at a time in it. -/
structure Snapshot where
  graph : TraceGraph
  laneIndex : Nat
  tStarMs : Rat
  states : List SnapshotState
  completedBoundaries : List (String × Nat)

section Snapshots

variable (graph : TraceGraph) (tStarMs : Rat)

/-- The first turn of a conversation at `tStarMs` or later. -/
def nextIndex (cid : String) : Option Nat :=
  (graph.conversation? cid).bind fun c =>
    c.turns.findIdx? fun turn => tStarMs ≤ turn.request.t * 1000

/-- The time of a turn in milliseconds. -/
def timestamp (cid : String) (i : Nat) : Rat :=
  (((graph.conversation? cid).bind fun c => c.turns[i]?).map fun turn =>
    turn.request.t * 1000).getD 0

/-- The state of a conversation whose next turn is `i`. -/
def stateOf (waiting : Bool) (cid : String) (i : Nat) : SnapshotState where
  conversationId := cid
  nextTurnIndex := i
  dispatchOffsetS := max 0 (timestamp graph cid i - tStarMs) / 1000
  waitingOnChildren := waiting

/-- The branch has not started at `tStarMs`. -/
def notStarted (branch : Branch) : Prop :=
  tStarMs < branch.startS * 1000 ∧
    (tStarMs < timestamp graph graph.traceId branch.spawningTurnIndex ∨
      (nextIndex graph tStarMs graph.traceId).any (· ≤ branch.spawningTurnIndex))

instance (branch : Branch) : Decidable (notStarted graph tStarMs branch) :=
  inferInstanceAs (Decidable (_ ∧ _))

/-- The states of the children of a branch. -/
def branchStates (branch : Branch) : List SnapshotState :=
  if notStarted graph tStarMs branch then []
  else branch.childConversationIds.filterMap fun cid =>
    (nextIndex graph tStarMs cid).map (stateOf graph tStarMs false cid)

/-- The turns at which unfinished branches join. -/
def pendingJoins : List Nat :=
  (graph.branches.filter fun b => !(branchStates graph tStarMs b).isEmpty).filterMap
    Branch.joinTurnIndex

/-- The states of all conversations that have a next turn. -/
def snapshotStates : List SnapshotState :=
  ((nextIndex graph tStarMs graph.traceId).map fun i =>
    stateOf graph tStarMs (i ∈ pendingJoins graph tStarMs) graph.traceId i).toList ++
    graph.branches.flatMap (branchStates graph tStarMs)

/-- The number of turns of a conversation before `tStarMs`. -/
def boundary (cid : String) : Nat :=
  match nextIndex graph tStarMs cid with
  | some i => i
  | none => ((graph.conversation? cid).map fun c => c.turns.length).getD 0

/-- The conversations that have turns before `tStarMs`. -/
def boundaries : List (String × Nat) :=
  (graph.ids.dedup.insertionSort (· ≤ ·)).filterMap fun cid =>
    if boundary graph tStarMs cid = 0 then none else some (cid, boundary graph tStarMs cid)

/-- The snapshot, if some conversation can go on. -/
def snapshotAt (laneIndex : Nat) : Option Snapshot :=
  let states := snapshotStates graph tStarMs
  if states.any (fun state => !state.waitingOnChildren) then
    some ⟨graph, laneIndex, tStarMs, states, boundaries graph tStarMs⟩
  else none

end Snapshots

/-! ## Plays -/

/-- The position of a play in a conversation. -/
structure StreamCursor where
  conversation : Conversation
  index : Nat
  active : Bool
  due : Option Rat
  /-- The id of the request in flight. -/
  inFlight : Option Nat
  terminal : Bool
  ordinal : Nat

/-- One pass over a trace. -/
structure TreePlay where
  graph : TraceGraph
  lane : Nat
  passIndex : Nat
  originS : Rat
  streams : OrderedDict String StreamCursor
  completed : List TurnKey
  openedBranches : List String
  inFlight : Int
  clockOriginS : Rat
  /-- The keys of `active_streams`; its values are cursors of `streams`. -/
  activeStreams : List String
  unfinishedStreams : Int

/-- Turns follow the one before, or the recorded times. -/
inductive IssueMode where
  | closedLoop
  | recorded
  deriving DecidableEq, Repr

/-- The phases of a run. -/
inductive Phase where
  | initial
  | primers
  | pressure
  | warmupDrain
  | profiling
  | grace
  | complete
  deriving DecidableEq, Repr

/-- Whether a request is measured. -/
inductive MeasurementPhase where
  | warmup
  | profile
  deriving DecidableEq, Repr

/-- How a request ended. -/
inductive Outcome where
  | successful
  | error
  | cancelled
  deriving DecidableEq, Repr

/-- An exception of the replay. -/
inductive ReplayError where
  | workloadValidation (text : String)
  | index
  deriving DecidableEq, Repr

/-- What the timers of a play depend on. -/
structure Clock where
  phase : Phase
  now : Rat
  issueMode : IssueMode

/-- A recorded time, seen from an anchor. -/
def recordedDue (originS requestS anchor : Rat) : Rat := anchor + max 0 (requestS - originS)

namespace TreePlay

variable (clock : Clock) (play : TreePlay)

/-- The timer of a turn. -/
def nextDue (turn : GraphTurn) : Rat :=
  match clock.issueMode with
  | .recorded => recordedDue play.originS turn.request.t play.clockOriginS
  | .closedLoop => clock.now + turn.waitAfterPreviousS

/-- Nothing is in flight and all conversations have ended. -/
def finished : Prop := play.inFlight = 0 ∧ play.unfinishedStreams = 0

instance : Decidable play.finished := inferInstanceAs (Decidable (_ ∧ _))

/-- Write back a cursor. -/
def store (cursor : StreamCursor) : TreePlay :=
  { play with streams := play.streams.set cursor.conversation.conversationId cursor }

/-- End a conversation. -/
def setTerminal (cursor : StreamCursor) : TreePlay :=
  { play with
    streams := play.streams.set cursor.conversation.conversationId
      { cursor with terminal := true }
    unfinishedStreams :=
      if cursor.terminal then play.unfinishedStreams else play.unfinishedStreams - 1
    activeStreams := play.activeStreams.filter (· ≠ cursor.conversation.conversationId) }

/-- The branches that join at the turn of a cursor have been opened and have ended. -/
def joinsReady (cursor : StreamCursor) : Prop :=
  cursor.ordinal = 0 → ∀ b ∈ play.graph.branches, b.joinTurnIndex = some cursor.index →
    b.branchId ∈ play.openedBranches ∧
      ∀ cid ∈ b.childConversationIds, (play.streams.get? cid).any (·.terminal) = true

instance (cursor : StreamCursor) : Decidable (play.joinsReady cursor) :=
  inferInstanceAs (Decidable (_ → _))

/-- The turn of a cursor that may be issued. -/
def ready (now : Rat) (cursor : StreamCursor) : Option GraphTurn :=
  if cursor.active = true ∧ cursor.terminal = false ∧ cursor.inFlight = none then
    cursor.conversation.turns[cursor.index]?.filter fun turn =>
      cursor.due.any (· ≤ now + 1 / 1000000000) ∧ play.joinsReady cursor ∧
        ∀ p ∈ turn.predecessors, p ∈ play.completed
  else none

/-- The timer of the first turn of a spawned conversation; its cursor may be past the
last turn. -/
def childDue (completedTurn : GraphTurn) (cursor : StreamCursor) : Except ReplayError Rat :=
  if clock.phase = .pressure then .ok clock.now
  else match cursor.conversation.turns[cursor.index]? with
    | none => .error .index
    | some turn => .ok (match clock.issueMode with
        | .recorded => play.nextDue clock turn
        | .closedLoop => clock.now + max 0 (turn.request.t - completedTurn.request.endS))

/-- One child of a branch.  The second component is an exception that has left the
loop. -/
def openChild (completedTurn : GraphTurn) (r : TreePlay × Option ReplayError)
    (cid : String) : TreePlay × Option ReplayError :=
  match r.2, r.1.streams.get? cid with
  | none, some cursor =>
    if cursor.conversation.turns.isEmpty then
      (r.1.setTerminal { cursor with active := true }, none)
    else
      let play := if cursor.terminal ∨ cid ∈ r.1.activeStreams then r.1
        else { r.1 with activeStreams := r.1.activeStreams ++ [cid] }
      match play.childDue clock completedTurn cursor with
      | .ok due => (play.store { cursor with active := true, due := some due }, none)
      | .error e => (play.store { cursor with active := true }, some e)
  | _, _ => r

/-- Open a branch of the completed turn, once. -/
def openBranch (completedTurn : GraphTurn) (r : TreePlay × Option ReplayError)
    (branch : Branch) : TreePlay × Option ReplayError :=
  if r.2.isSome ∨ branch.spawningTurnIndex ≠ completedTurn.key.turnIndex ∨
      branch.branchId ∈ r.1.openedBranches then r
  else branch.childConversationIds.foldl (openChild clock completedTurn)
    ({ r.1 with openedBranches := branch.branchId :: r.1.openedBranches }, none)

/-- Open all its branches. -/
def openBranches (completedTurn : GraphTurn) : TreePlay × Option ReplayError :=
  play.graph.branches.foldl (openBranch clock completedTurn) (play, none)

/-- The timer of the next turn of a cursor. -/
def dueAfter (cursor : StreamCursor) : Option Rat :=
  if clock.phase = .pressure then some clock.now
  else cursor.conversation.turns[cursor.index]?.map (play.nextDue clock)

/-- The part of `_completed` for the play of a request that is not a primer. -/
def settle (cid : String) (phase : MeasurementPhase) (outcome : Outcome) :
    TreePlay × Option ReplayError :=
  match play.streams.get? cid with
  | none => (play, none)
  | some cursor =>
    let play := { play with inFlight := play.inFlight - 1 }
    let cursor := { cursor with inFlight := none }
    if outcome ≠ .cancelled ∨ phase = .warmup then
      match cursor.conversation.turns[cursor.index]? with
      | none => (play.store cursor, some .index)
      | some oldTurn =>
        let play := { play with completed := oldTurn.key :: play.completed }
        let cursor := { cursor with index := cursor.index + 1 }
        let cursor := { cursor with due := play.dueAfter clock cursor }
        let play := if cursor.conversation.turns.length ≤ cursor.index
          then play.setTerminal cursor else play.store cursor
        if cursor.ordinal = 0 then play.openBranches clock oldTurn else (play, none)
    else (play.setTerminal { cursor with due := none }, none)

end TreePlay

/-- The cursor of a conversation in a new play. -/
def openCursor (clock : Clock) (graph : TraceGraph) (snapshot : Option Snapshot)
    (conv : Conversation) (ordinal : Nat) : StreamCursor :=
  let state := snapshot.bind fun snap =>
    snap.states.reverse.find? fun state => state.conversationId = conv.conversationId
  let boundary := (snapshot.bind fun snap =>
    Entries.get? snap.completedBoundaries conv.conversationId).getD 0
  let index := (state.map SnapshotState.nextTurnIndex).getD boundary
  let active := if snapshot.isSome then state.isSome else ordinal = 0
  { conversation := conv
    index
    active
    due := match state with
      | some state => some (clock.now + state.dispatchOffsetS)
      | none => if active then conv.turns[index]?.map fun turn => match clock.issueMode with
          | .closedLoop => clock.now
          | .recorded => recordedDue ((snapshot.map fun snap => snap.tStarMs / 1000).getD
              graph.timeStartS) turn.request.t clock.now
        else none
    inFlight := none
    terminal := conv.turns.length ≤ boundary ∧ snapshot.isSome
    ordinal }

/-- The turns before the snapshot. -/
def completedBefore (graph : TraceGraph) (snapshot : Option Snapshot) : List TurnKey :=
  graph.conversations.flatMap fun conv =>
    (List.range ((snapshot.bind fun snap =>
      Entries.get? snap.completedBoundaries conv.conversationId).getD 0)).map
        (TurnKey.mk conv.conversationId)

/-- The branches that were opened before the snapshot. -/
def openedBefore (graph : TraceGraph) : Option Snapshot → List String
  | none => []
  | some snap => (graph.branches.filter fun b =>
    b.spawningTurnIndex < (Entries.get? snap.completedBoundaries graph.traceId).getD 0 ∨
      ∃ cid ∈ b.childConversationIds, snap.states.any (·.conversationId = cid)).map
    Branch.branchId

/-- A new play. -/
def tree (clock : Clock) (graph : TraceGraph) (lane passIndex : Nat)
    (snapshot : Option Snapshot) : TreePlay :=
  let streams := OrderedDict.empty.update (graph.conversations.zipIdx.map fun e =>
    (e.1.conversationId, openCursor clock graph snapshot e.1 e.2))
  { graph
    lane
    passIndex
    originS := (snapshot.map fun snap => snap.tStarMs / 1000).getD graph.timeStartS
    streams
    completed := completedBefore graph snapshot
    openedBranches := openedBefore graph snapshot
    inFlight := 0
    clockOriginS := clock.now
    activeStreams := (streams.entries.filter fun e => e.2.active && !e.2.terminal).map Prod.fst
    unfinishedStreams := streams.sum fun _ c => if c.terminal then 0 else 1 }

/-! ## The replay -/

/-- The configuration of a run. -/
structure Config where
  /-- The block size of the engine. -/
  blockSize : Nat
  warmup : Bool
  warmupQuota : Nat
  issueMode : IssueMode
  pool : List TraceGraph

/-- A request of a turn. -/
structure Request where
  id : Nat
  measurementPhase : MeasurementPhase
  key : TurnKey

/-- An entry of `_in_flight`.  A primer has no stream. -/
structure Wire where
  req : Request
  play : Nat
  stream : Option String

/-- The record of a completion. -/
structure Record where
  requestId : Nat
  phase : MeasurementPhase
  outcome : Outcome

/-- An issued request that is not a primer, with the play in which it was found
ready. -/
structure Issued where
  play : Nat
  stream : String
  turnIndex : Nat
  found : TreePlay

/-- The state of a run. -/
structure AgentXReplay where
  now : Rat
  phase : Phase
  accepting : Bool
  epoch : Nat
  /-- All plays there have been; `trees` has the one of each lane. -/
  plays : List TreePlay
  trees : List Nat
  inFlight : List Wire
  sent : MeasurementPhase → Nat
  counts : MeasurementPhase → Outcome → Nat
  pressureSent : Nat → Nat
  passCounts : String → Nat
  drawCount : Nat
  nextId : Nat
  records : List Record
  issued : List Issued
  /-- An exception that has ended the run. -/
  failed : Option ReplayError

namespace AgentXReplay

/-- The state before a run. -/
def init : AgentXReplay where
  now := 0
  phase := .initial
  accepting := true
  epoch := 0
  plays := []
  trees := []
  inFlight := []
  sent := fun _ => 0
  counts := fun _ _ => 0
  pressureSent := fun _ => 0
  passCounts := fun _ => 0
  drawCount := 0
  nextId := 0
  records := []
  issued := []
  failed := none

variable (cfg : Config) (s : AgentXReplay)

/-- What the timers of its plays depend on. -/
def clock : Clock := ⟨s.phase, s.now, cfg.issueMode⟩

/-- Change a play. -/
def modifyPlay (n : Nat) (f : TreePlay → TreePlay) : AgentXReplay :=
  { s with plays := s.plays.modify n f }

/-- The request of a turn. -/
def makeRequest (play : TreePlay) (turn : GraphTurn) (warmup : Bool) :
    Except ReplayError Request :=
  if cfg.blockSize % play.graph.blockSize ≠ 0 then
    .error (.workloadValidation "engine block size must be a multiple of trace hash block size")
  else .ok ⟨s.nextId, if warmup then .warmup else .profile, turn.key⟩

/-- Send a request. -/
def launch (req : Request) (n : Nat) (stream : Option String) : AgentXReplay :=
  { s with
    nextId := s.nextId + 1
    inFlight := s.inFlight ++ [⟨req, n, stream⟩]
    sent := fun p => if p = req.measurementPhase then s.sent p + 1 else s.sent p }

/-- `_submit` of a request that is not a primer. -/
def submit (req : Request) (n : Nat) (play : TreePlay) (cursor : StreamCursor) :
    AgentXReplay :=
  let s := s.launch req n (some cursor.conversation.conversationId)
  let s := { s with issued := s.issued ++
    [Issued.mk n cursor.conversation.conversationId cursor.index play] }
  s.modifyPlay n fun play =>
    { play with inFlight := play.inFlight + 1 }.store { cursor with inFlight := some req.id }

/-- The lane has sent its share of the warmup. -/
def quotaReached (lane : Nat) : Prop :=
  s.phase = .pressure ∧ cfg.warmupQuota ≤ s.pressureSent lane

instance (lane : Nat) : Decidable (s.quotaReached cfg lane) := inferInstanceAs (Decidable (_ ∧ _))

/-- One stream in the loop of `_issue_ready`. -/
def issueStream (n : Nat) (cid : String) : AgentXReplay :=
  match s.plays[n]? with
  | none => s
  | some play => match play.streams.get? cid with
    | none => s
    | some cursor => match play.ready s.now cursor with
      | none => s
      | some turn => match s.makeRequest cfg play turn (s.phase = .pressure) with
        | .error e => { s with failed := some e }
        | .ok req =>
          let sentIn := s.pressureSent
          let s := if s.phase = .pressure then
            { s with pressureSent := fun l => if l = play.lane then sentIn l + 1 else sentIn l }
            else s
          s.submit req n play cursor

/-- The loop of `_issue_ready` over streams. -/
def issueStreams (n lane : Nat) : List String → AgentXReplay → AgentXReplay
  | [], s => s
  | cid :: rest, s =>
    if s.failed.isSome ∨ s.quotaReached cfg lane then s
    else issueStreams n lane rest (s.issueStream cfg n cid)

/-- The active streams in the order of their conversations. -/
def issueOrder (play : TreePlay) : List String :=
  play.activeStreams.insertionSort fun a b =>
    ((play.streams.get? a).map (·.ordinal)).getD 0 ≤ ((play.streams.get? b).map (·.ordinal)).getD 0

/-- All streams of a play. -/
def issuePlay (n : Nat) : AgentXReplay :=
  match s.plays[n]? with
  | none => s
  | some play => issueStreams cfg n play.lane (issueOrder play) s

/-- `_tree` for a lane. -/
def newPlay (graph : TraceGraph) (lane : Nat) (snapshot : Option Snapshot) : AgentXReplay :=
  { s with
    plays := s.plays ++ [tree (s.clock cfg) graph lane (s.passCounts graph.traceId) snapshot]
    passCounts := fun t => if t = graph.traceId then s.passCounts t + 1 else s.passCounts t }

/-- `_recycle` for the lane of play `n`. -/
def recycleLane (lane n : Nat) : AgentXReplay :=
  match s.plays[n]?, cfg.pool[s.drawCount % cfg.pool.length]? with
  | some play, some graph =>
    if play.finished ∧ s.accepting = true ∧ ¬ s.quotaReached cfg lane then
      let number := s.plays.length
      { s.newPlay cfg graph lane none with
        drawCount := s.drawCount + 1
        trees := s.trees.set lane number }
    else s
  | _, _ => s

/-- New plays for the lanes that have finished. -/
def recycle : AgentXReplay :=
  s.trees.zipIdx.foldl (fun s e => s.recycleLane cfg e.2 e.1) s

/-- Issue what can be issued. -/
def issueReady : AgentXReplay :=
  if s.accepting then
    let s := s.recycle cfg
    s.trees.foldl (fun s n => s.issuePlay cfg n) s
  else s

/-- The end of `_primer`'s wait. -/
def primer (n : Nat) (key : TurnKey) (epoch : Nat) : AgentXReplay :=
  if epoch ≠ s.epoch ∨ s.accepting = false then s
  else match s.plays[n]? with
    | none => s
    | some play =>
      match (play.streams.get? key.conversationId).bind fun c =>
        c.conversation.turns[key.turnIndex]? with
      | none => s
      | some turn => match s.makeRequest cfg play turn true with
        | .error e => { s with failed := some e }
        | .ok req => s.launch req n none

/-- The books of a completion: the request leaves `_in_flight` and is counted. -/
def record (wire : Wire) (outcome : Outcome) : AgentXReplay :=
  { s with
    inFlight := s.inFlight.filter fun w => w.req.id ≠ wire.req.id
    counts := fun p o => if p = wire.req.measurementPhase ∧ o = outcome then s.counts p o + 1
      else s.counts p o
    records := s.records ++ [⟨wire.req.id, wire.req.measurementPhase, outcome⟩] }

/-- `_completed`, with what the event and the request say about the completion. -/
def completed (requestId : Nat) (ok isDone cancelRequested : Bool) : AgentXReplay :=
  match s.inFlight.find? fun w => w.req.id = requestId with
  | none => s
  | some wire =>
    let outcome := if cancelRequested then .cancelled
      else if ok && isDone then .successful else .error
    match wire.stream, s.plays[wire.play]? with
    | some cid, some play =>
      let r := play.settle (s.clock cfg) cid wire.req.measurementPhase outcome
      { (s.record wire outcome).modifyPlay wire.play fun _ => r.1 with failed := r.2 }
    | _, _ => s.record wire outcome

/-- The events of a run. -/
inductive Event where
  /-- The trees of the lanes, from the start of a trace or from a time in it. -/
  | start (lanes : List (TraceGraph × Option Rat))
  | tick (now : Rat)
  | primer (play : Nat) (key : TurnKey) (epoch : Nat)
  | beginPressure
  | issueReady
  | completed (requestId : Nat) (ok isDone cancelRequested : Bool)
  | beginWarmupDrain
  | beginProfiling
  /-- A timer is moved. -/
  | retime (play : Nat) (stream : String) (due : Option Rat)
  /-- The origin of a play's clock is moved. -/
  | rebase (play : Nat) (clockOriginS : Rat)
  | beginGrace
  | finish

/-- Open the plays of the lanes. -/
def start (lanes : List (TraceGraph × Option Rat)) : AgentXReplay :=
  lanes.zipIdx.foldl (fun s e =>
    { s.newPlay cfg e.1.1 e.2 (e.1.2.bind fun t => snapshotAt e.1.1 t e.2) with
      trees := s.trees ++ [s.plays.length] })
    { s with phase := if cfg.warmup then .primers else .initial }

/-- Move a timer. -/
def retime (n : Nat) (cid : String) (due : Option Rat) : AgentXReplay :=
  s.modifyPlay n fun play => match play.streams.get? cid with
    | none => play
    | some cursor => play.store { cursor with due }

/-- One event.  Nothing happens after an exception; a drain ends without requests in
flight. -/
def step (event : Event) : Option AgentXReplay :=
  if s.failed.isSome then none
  else match event with
    | .start lanes => if s.phase = .initial ∧ s.trees = [] then some (s.start cfg lanes) else none
    | .tick now => if s.now ≤ now then some { s with now } else none
    | .primer n key epoch => some (s.primer cfg n key epoch)
    | .beginPressure => if s.phase = .primers then some { s with phase := .pressure } else none
    | .issueReady =>
      if s.phase = .pressure ∨ s.phase = .profiling then some (s.issueReady cfg) else none
    | .completed requestId ok isDone cancelRequested =>
      some (s.completed cfg requestId ok isDone cancelRequested)
    | .beginWarmupDrain => if s.phase = .pressure then
        some { s with accepting := false, phase := .warmupDrain } else none
    | .beginProfiling =>
      if (s.phase = .warmupDrain ∧ s.inFlight.isEmpty) ∨ s.phase = .initial then
        some ({ s with accepting := true, phase := .profiling, epoch := s.epoch + 1 }.recycle cfg)
      else none
    | .retime n cid due => some (s.retime n cid due)
    | .rebase n clockOriginS => some (s.modifyPlay n fun play => { play with clockOriginS })
    | .beginGrace => if s.phase = .profiling then
        some { s with accepting := false, epoch := s.epoch + 1, phase := .grace } else none
    | .finish => if s.phase = .grace ∧ s.inFlight.isEmpty then
        some { s with phase := .complete } else none

end AgentXReplay

end Replay

end TokenSim
