import TokenSim.Lib.Journal
import TokenSim.Lib.Runs
import Mathlib.Data.List.Sort

/-!
# The lockstep coordinator of data-parallel workers

The leaders of a data-parallel group take every step together.  One process, the
coordinator, goes round: at a step boundary it parks if no wave runs and no
worker has work; otherwise it prepares a step on every worker, waits for the
slowest load, executes one batch on every worker (a dummy one where nothing is
scheduled), waits for the slowest computation, completes the step on every
worker, waits for the slowest save, and at the boundary that follows may end the
wave.  In the meantime the consumer of each worker handles its messages: a
cancellation that comes in while the coordinator is busy is put off.

What the schedulers, connectors and latency models return is part of the events,
so that nothing is assumed about them.  Exceptions end the process they are
raised in and set the engine's failure.  `steps` and `log` are not in the source:
they count the steps that ended and list what was done.
-/

namespace TokenSim.Dp

open Function (update)

/-- The tasks of messages, in the order of their values. -/
inductive Task where
  | cancel
  | add
  | step
  | stop
deriving DecidableEq, Repr

/-- A message with the ids of its requests. -/
structure Message where
  task : Task
  requests : List Nat
deriving DecidableEq, Repr

/-- The first message of a task, and the others. -/
def takeFirst (task : Task) : List Message → Option (Message × List Message)
  | [] => none
  | msg :: rest =>
    if msg.task = task then some (msg, rest)
    else (takeFirst task rest).map fun found => (found.1, msg :: found.2)

/-- The least message of a queue that lists its messages by sequence number. -/
def nextMessage (queue : List Message) : Option (Message × List Message) :=
  takeFirst .cancel queue <|> takeFirst .add queue <|> takeFirst .step queue <|>
    takeFirst .stop queue

/-- The process that takes the messages of a worker from its queue. -/
inductive Consumer where
  /-- Not started. -/
  | starting
  /-- Waiting for a message. -/
  | waiting
  /-- The message was taken from the queue and is to be handled. -/
  | holding (msg : Message)
  | stopped
deriving DecidableEq, Repr

/-- The queues of a scheduler. -/
structure Scheduler where
  running : List Nat := []
  waiting : List Nat := []
  loading : List Nat := []
  loadedWaiting : List Nat := []
deriving DecidableEq, Repr

namespace Scheduler

/-- The scheduler holds a request. -/
def hasWork (s : Scheduler) : Bool :=
  s.running ≠ [] || s.waiting ≠ [] || s.loading ≠ [] || s.loadedWaiting ≠ []

theorem hasWork_eq_false {s : Scheduler} : s.hasWork = false ↔
    s.running = [] ∧ s.waiting = [] ∧ s.loading = [] ∧ s.loadedWaiting = [] := by
  simp [hasWork, and_assoc]

/-- Take in the requests whose cancellation was not requested in the meantime. -/
def addRequests (cancelRequested : Nat → Bool) (s : Scheduler) (requests : List Nat) : Scheduler :=
  { s with waiting := s.waiting ++ requests.filter fun r => !cancelRequested r }

/-- `cancel_request`: forget a request. -/
def cancelRequest (s : Scheduler) (r : Nat) : Scheduler where
  running := s.running.filter (· ≠ r)
  waiting := s.waiting.filter (· ≠ r)
  loading := s.loading.filter (· ≠ r)
  loadedWaiting := s.loadedWaiting.filter (· ≠ r)

/-- A load ended.  The request stays in `loading` until it is resumed, unless
its cancellation was requested. -/
def loadDone (cancelRequested : Nat → Bool) (s : Scheduler) (r : Nat) : Scheduler :=
  if cancelRequested r then { s with loading := s.loading.filter (· ≠ r) }
  else { s with loadedWaiting := s.loadedWaiting ++ [r] }

/-- Requests whose blocks were sent leave `running`. -/
def finishSending (s : Scheduler) (sent : List Nat) : Scheduler :=
  { s with running := s.running.filter (· ∉ sent) }

theorem finishSending_hasWork {s : Scheduler} (sent : List Nat) (h : s.hasWork = false) :
    (s.finishSending sent).hasWork = false := by
  rw [hasWork_eq_false] at h ⊢
  exact ⟨by simp [finishSending, h.1], h.2⟩

end Scheduler

/-- The workers in step and what they accept. -/
structure Config where
  workers : List Nat
  syncInterval : Nat
  /-- The length every prompt of a worker has to stay below. -/
  maxModelLen : Nat → Option Nat
  prefillLen : Nat → Nat
  nodup : workers.Nodup
  sync_pos : 0 < syncInterval

/-- A prompt of these leaves no room for an output token. -/
def Config.refuses (cfg : Config) (w : Nat) (requests : List Nat) : Bool :=
  match cfg.maxModelLen w with
  | none => false
  | some limit => requests.any fun r => limit ≤ cfg.prefillLen r

/-- What a worker executes in a step. -/
inductive Batch where
  | real (requests : List Nat)
  | dummy
deriving DecidableEq, Repr

/-- What the log records. -/
inductive Entry where
  /-- A cancellation was taken from the queue of a worker. -/
  | delivered (w r : Nat)
  /-- `cancel_request` of the worker's scheduler was called. -/
  | cancelled (w r : Nat)
  /-- `prepare_step` of the worker was called. -/
  | prepared (w : Nat)
  | executed (w step : Nat) (batch : Batch)
  /-- The worker's step is over: if it had a batch, `complete_step` was called. -/
  | completed (w : Nat)
deriving DecidableEq, Repr

/-- Where the coordinator is. -/
inductive Phase where
  /-- At the step boundary where a step may begin. -/
  | boundary
  /-- Waiting for a change, with no wave running. -/
  | parked
  | loadWait
  | computeWait
  | saveWait
  /-- At the step boundary where the wave may end. -/
  | closing
  | stopped
deriving DecidableEq, Repr

/-- What `prepare_step` of a worker does to its queues and returns: the requests
scheduled and the load latency. -/
structure Prepared (T : Type) where
  scheduler : Scheduler
  running : List Nat
  loadLatency : T

/-- What `complete_step` and `finalize_connector_step` of a worker do to its
queues and the save latency. -/
structure Completed (T : Type) where
  scheduler : Scheduler
  saveLatency : T

/-- The coordinator and its workers. -/
structure State where
  scheduler : Nat → Scheduler
  queue : Nat → List Message
  consumer : Nat → Consumer
  cancelRequested : Nat → Bool
  owners : Nat → List Nat
  failed : Bool
  phase : Phase
  busy : Bool
  waveRunning : Bool
  stepCounter : Nat
  wave : Nat
  batches : Nat → List Nat
  pendingCancels : Nat → List Nat
  steps : Nat
  log : List Entry

/-- Add a worker to the set of the owners of a request, which is listed in
ascending order. -/
def addOwner (w : Nat) (owners : List Nat) : List Nat :=
  if w ∈ owners then owners else owners.orderedInsert (· ≤ ·) w

/-- What can happen to the coordinator. -/
inductive Event (T : Type) where
  /-- The engine sends requests to a worker. -/
  | submit (w : Nat) (requests : List Nat)
  /-- The engine is asked to cancel a request that is not done. -/
  | cancelRequests (r : Nat)
  | sendStop (w : Nat)
  | startConsumer (w : Nat)
  /-- A consumer handles the message it holds. -/
  | consume (w : Nat)
  /-- An asynchronous load ended. -/
  | loadDone (w r : Nat)
  /-- Another process of the engine failed. -/
  | fail
  /-- Blocks were sent while a cancelled request waited for its release. -/
  | finishSending (w : Nat) (sent : List Nat)
  /-- The boundary where a step may begin.  `none` is a raised exception. -/
  | stepBoundary (prepared : Nat → Option (Prepared T)) (estimates : Nat → Option T)
  | loadTimeout (estimates : Nat → Option T)
  | computeTimeout (completed : Nat → Option (Completed T))
  | saveTimeout
  /-- The boundary where the wave may end. -/
  | closingBoundary

namespace State

/-- Nothing sent and nobody at work. -/
def init : State where
  scheduler := fun _ => {}
  queue := fun _ => []
  consumer := fun _ => .starting
  cancelRequested := fun _ => false
  owners := fun _ => []
  failed := false
  phase := .boundary
  busy := false
  waveRunning := false
  stepCounter := 0
  wave := 0
  batches := fun _ => []
  pendingCancels := fun _ => []
  steps := 0
  log := []

variable {T : Type} [LinearOrder T] [Zero T] (cfg : Config) (s : State)

/-- Add to the log. -/
def record (e : Entry) : State := { s with log := s.log ++ [e] }

/-- Replace a scheduler. -/
def setScheduler (w : Nat) (scheduler : Scheduler) : State :=
  { s with scheduler := update s.scheduler w scheduler }

/-- Replace a consumer. -/
def setConsumer (w : Nat) (consumer : Consumer) : State :=
  { s with consumer := update s.consumer w consumer }

/-- Put a message into the queue of a worker.  A waiting consumer takes it. -/
def send (w : Nat) (msg : Message) : State :=
  if s.consumer w = .waiting then s.setConsumer w (.holding msg)
  else { s with queue := update s.queue w (s.queue w ++ [msg]) }

/-- Send a message to some workers, one after the other. -/
def sendAll (s : State) (msg : Message) : List Nat → State
  | [] => s
  | w :: rest => (s.send w msg).sendAll msg rest

/-- Take the next message from the queue, or wait for one. -/
def getMessage (w : Nat) : State :=
  match nextMessage (s.queue w) with
  | none => s.setConsumer w .waiting
  | some (msg, rest) =>
    ({ s with queue := update s.queue w rest }).setConsumer w (.holding msg)

/-- Wake the coordinator if it is parked. -/
def notify : State :=
  if s.phase = .parked then { s with phase := .boundary } else s

/-- Some worker has work. -/
def hasWork : Bool := cfg.workers.any fun w => (s.scheduler w).hasWork

/-- Cancel a request between two steps. -/
def cancelAtBoundary (w r : Nat) : State :=
  (s.setScheduler w ((s.scheduler w).cancelRequest r)).record (.cancelled w r)

/-- Write a key of the dictionary of a worker's cancellations to come. -/
def putOff (w r : Nat) : State :=
  if r ∈ s.pendingCancels w then s
  else { s with
    pendingCancels := update s.pendingCancels w (s.pendingCancels w ++ [r]) }

/-- Cancel now, or put it off while a step runs. -/
def deliverCancel (w r : Nat) : State :=
  let s := s.record (.delivered w r)
  if s.busy then s.putOff w r else s.cancelAtBoundary w r

/-- Deliver the cancellations in order. -/
def deliverCancels (s : State) (w : Nat) : List Nat → State
  | [] => s
  | r :: rest => (s.deliverCancel w r).deliverCancels w rest

/-- One round of `consume_messages`. -/
def consume (w : Nat) (msg : Message) : State :=
  match msg.task with
  | .add =>
    if cfg.refuses w msg.requests then
      (({ s with failed := true }).setConsumer w .stopped).notify
    else
      ((s.setScheduler w
        ((s.scheduler w).addRequests s.cancelRequested msg.requests)).notify).getMessage w
  | .cancel => ((s.deliverCancels w msg.requests).notify).getMessage w
  | .stop => (s.setConsumer w .stopped).notify
  | .step => s.getMessage w

/-- The longest of some durations. -/
def longest : List T → T
  | [] => 0
  | d :: rest => rest.foldl max d

/-- An exception ends the coordinator. -/
def abort : State := { s with busy := false, failed := true, phase := .stopped }

/-- `prepare_step` of a worker. -/
def prepare (w : Nat) (p : Prepared T) : State :=
  ({ s.setScheduler w p.scheduler with
    batches := update s.batches w (p.running.filter fun r => !s.cancelRequested r)
      }).record (.prepared w)

/-- `prepare_step` on every worker, with the load latencies; or the state in
which one of the calls raised. -/
def prepareAll (prepared : Nat → Option (Prepared T)) : State → List T → List Nat →
    Except State (State × List T)
  | s, latencies, [] => .ok (s, latencies)
  | s, latencies, w :: rest =>
    match prepared w with
    | none => .error s
    | some p => prepareAll prepared (s.prepare w p) (latencies ++ [p.loadLatency]) rest

/-- A worker executes its batch or a dummy one. -/
def execute (w : Nat) : State :=
  s.record (.executed w s.steps (if s.batches w = [] then .dummy else .real (s.batches w)))

/-- Every worker executes; an estimate may fail. -/
def executeAll (estimates : Nat → Option T) : State → List T → List Nat →
    Except State (State × List T)
  | s, durations, [] => .ok (s, durations)
  | s, durations, w :: rest =>
    match estimates w with
    | none => .error s
    | some d => executeAll estimates (s.execute w) (durations ++ [d]) rest

/-- Execute one batch on every worker and wait for the slowest. -/
def startCompute (estimates : Nat → Option T) (s : State) : State :=
  match executeAll estimates s [] cfg.workers with
  | .error s => s.abort
  | .ok (s, durations) =>
    if longest durations ≤ 0 then s.abort else { s with phase := .computeWait }

/-- Cancel each request at the boundary. -/
def cancelAll (w : Nat) : State → List Nat → State
  | s, [] => s
  | s, r :: rest => cancelAll w (s.cancelAtBoundary w r) rest

/-- The cancellations of a worker that were put off are applied. -/
def drain (w : Nat) : State :=
  cancelAll w { s with pendingCancels := update s.pendingCancels w [] }
    (s.pendingCancels w)

/-- A worker's step is over. -/
def complete (w : Nat) (scheduler : Scheduler) : State :=
  ((s.setScheduler w scheduler).record (.completed w)).drain w

/-- `complete_step` on the workers with a batch, and the cancellations of all
workers, with the save latencies. -/
def completeAll (completed : Nat → Option (Completed T)) : State → List T → List Nat →
    Except State (State × List T)
  | s, latencies, [] => .ok (s, latencies)
  | s, latencies, w :: rest =>
    if s.batches w = [] then
      completeAll completed (s.complete w (s.scheduler w)) latencies rest
    else
      match completed w with
      | none => .error s
      | some c => completeAll completed (s.complete w c.scheduler) (latencies ++ [c.saveLatency]) rest

/-- The step has ended. -/
def endStep : State :=
  { s with steps := s.steps + 1, stepCounter := s.stepCounter + 1, busy := false, phase := .closing }

/-- Prepare every worker, then load or compute. -/
def beginStep (prepared : Nat → Option (Prepared T)) (estimates : Nat → Option T)
    (s : State) : State :=
  match prepareAll prepared { s with busy := true } [] cfg.workers with
  | .error s => s.abort
  | .ok (s, latencies) =>
    if longest latencies = 0 then s.startCompute cfg estimates
    else { s with phase := .loadWait }

/-- Complete every worker, then save or end the step. -/
def finishCompute (completed : Nat → Option (Completed T)) (s : State) : State :=
  match completeAll completed s [] cfg.workers with
  | .error s => s.abort
  | .ok (s, latencies) =>
    if longest latencies = 0 then s.endStep else { s with phase := .saveWait }

/-- The head of the coordinator's loop. -/
def stepBoundary (prepared : Nat → Option (Prepared T))
    (estimates : Nat → Option T) (s : State) : State :=
  if s.failed then { s with phase := .stopped }
  else if s.waveRunning then s.beginStep cfg prepared estimates
  else if s.hasWork cfg then
    ({ s with waveRunning := true, stepCounter := 0 }).beginStep cfg prepared estimates
  else { s with phase := .parked }

/-- The check whether the wave is over. -/
def closingBoundary : State :=
  if (s.stepCounter = 1 ∨ s.stepCounter % cfg.syncInterval = 0) ∧ s.hasWork cfg = false then
    { s with waveRunning := false, wave := s.wave + 1, stepCounter := 0, phase := .boundary }
  else { s with phase := .boundary }

/-- One event, if it can happen in this state. -/
def step : Event T → Option State
  | .submit w requests =>
    some (({ s with owners := fun r => if r ∈ requests then addOwner w (s.owners r) else s.owners r
      }).send w ⟨.add, requests⟩)
  | .cancelRequests r =>
    if s.cancelRequested r then some s
    else some (({ s with cancelRequested := update s.cancelRequested r true }).sendAll
      ⟨.cancel, [r]⟩ (s.owners r))
  | .sendStop w => some (s.send w ⟨.stop, []⟩)
  | .startConsumer w =>
    if w ∈ cfg.workers ∧ s.consumer w = .starting then some (s.getMessage w) else none
  | .consume w =>
    match s.consumer w with
    | .holding msg => if w ∈ cfg.workers then some (s.consume cfg w msg) else none
    | _ => none
  | .loadDone w r =>
    if r ∈ (s.scheduler w).loading then
      some ((s.setScheduler w ((s.scheduler w).loadDone s.cancelRequested r)).notify)
    else some s.notify
  | .fail => some { s with failed := true }
  | .finishSending w sent => some (s.setScheduler w ((s.scheduler w).finishSending sent))
  | .stepBoundary prepared estimates =>
    if s.phase = .boundary then some (s.stepBoundary cfg prepared estimates) else none
  | .loadTimeout estimates =>
    if s.phase = .loadWait then some (s.startCompute cfg estimates) else none
  | .computeTimeout completed =>
    if s.phase = .computeWait then some (s.finishCompute cfg completed) else none
  | .saveTimeout => if s.phase = .saveWait then some s.endStep else none
  | .closingBoundary => if s.phase = .closing then some (s.closingBoundary cfg) else none

end State

end TokenSim.Dp
