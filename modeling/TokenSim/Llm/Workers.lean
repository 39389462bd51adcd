import TokenSim.Dp.Coordinator
import TokenSim.Request

/-!
# The engine and its workers

The engine hands requests to workers by messages, and every worker is a process
that takes one message at a time: it admits requests, runs a step (blocking
loads, computation, saves, and on a prefill worker the hand-over of finished
prompts to a decode worker), or cancels a request.  External loads and delayed
releases of blocks run beside that process.

A message is taken out of the queue before it is handled, and what the other
processes do in between is seen when it is handled.  What the scheduler decides
in a step is a sequence of moves of requests between its queues, and every such
sequence is an event; so are the routing, the answers of the connector and the
times.  The fields `asked` and `acked` of a request are not in the source: they
record the workers that owned it when its cancellation was requested, and those
that acknowledged.
-/

namespace TokenSim.Engine

open TokenSim.Dp (Task Message Scheduler nextMessage)

/-- A request with its owners and its outcome. -/
structure Tracked where
  req : Request
  owners : List Nat := []
  pending : List Nat := []
  cancelledAt : Option Nat := none
  completedAt : Option Nat := none
  asked : List Nat := []
  acked : List Nat := []
deriving DecidableEq, Repr

namespace Tracked

variable (x : Tracked)

/-- A worker holds the request. -/
def addOwner (w : Nat) : Tracked :=
  if w ∈ x.owners then x else { x with owners := x.owners ++ [w] }

/-- Ask for the cancellation of a request that is not done. -/
def requestCancel : Tracked :=
  if x.req.isDone || x.req.cancelRequested then x
  else { x with
    req := { x.req with cancelRequested := true, status := .cancelPending }
    pending := x.owners
    asked := x.owners }

/-- The request is cancelled once no worker is left to acknowledge. -/
def settle (now : Nat) : Tracked :=
  if x.pending ≠ [] ∨ x.cancelledAt.isSome then x
  else { x with cancelledAt := some now, req := { x.req with status := .finishedCancelled } }

/-- A worker, or nobody, acknowledges a cancellation. -/
def acknowledgeCancel (now : Nat) (worker : Option Nat) : Tracked :=
  if x.req.cancelRequested then
    match worker with
    | none => x.settle now
    | some w =>
      { x with pending := x.pending.filter (· ≠ w), acked := x.acked ++ [w] }.settle now
  else x

/-- One step of the request; the step that finishes it sets `completed_at`. -/
def advance (now : Nat) : Tracked :=
  let req := x.req.advance
  { x with
    req := req
    completedAt := if req.isDone then some now else x.completedAt }

end Tracked

/-- The status a worker reports. -/
inductive WorkerStatus where
  | waiting
  | running
  | stopped
deriving DecidableEq, Repr

/-- Where the process of a worker stands. -/
inductive Activity where
  /-- Waiting for a message. -/
  | idle
  /-- The message was taken from the queue and is to be handled. -/
  | holding (msg : Message)
  /-- The blocking loads of a step run. -/
  | loading (batch : List Nat)
  | computing (batch : List Nat)
  /-- The blocking saves of a step run. -/
  | saving
  | stopped
deriving DecidableEq, Repr

/-- The batch a worker is at. -/
def Activity.batch : Activity → List Nat
  | .loading batch => batch
  | .computing batch => batch
  | _ => []

/-- A worker with its queue, scheduler and transfers. -/
structure WorkerState where
  queue : List Message := []
  activity : Activity := .idle
  status : WorkerStatus := .waiting
  sched : Scheduler := {}
  /-- Requests with blocks in the block manager. -/
  blocks : List Nat := []
  /-- External loads under way. -/
  loads : List Nat := []
  /-- Requests whose blocks the connector releases later. -/
  delayed : List Nat := []
  /-- Cancellations that wait for their blocks to be released. -/
  releases : List Nat := []
deriving DecidableEq, Repr

/-- Roles of the workers, and the prompts they refuse. -/
structure Config where
  prefillRole : Nat → Bool
  asyncOffload : Nat → Bool
  /-- `add_requests` raises for a prompt that leaves no room for an output. -/
  refuses : Nat → Nat → Bool

/-- The requests, the workers and the clock. -/
structure State where
  reqs : Nat → Tracked
  workers : Nat → WorkerState
  /-- The requests of the messages in the queue of the engine. -/
  inbox : List (List Nat) := []
  now : Nat := 0

/-- Every worker idle and every request new. -/
def initial (requests : Nat → Request) : State where
  reqs r := { req := requests r }
  workers _ := {}

namespace State

variable (cfg : Config) (s : State)

/-- Replace a worker. -/
def setWorker (w : Nat) (v : WorkerState) : State :=
  { s with workers := Function.update s.workers w v }

/-- Replace a request. -/
def setReq (r : Nat) (x : Tracked) : State :=
  { s with reqs := Function.update s.reqs r x }

/-- The request is to be cancelled. -/
def cancelRequested (r : Nat) : Bool := (s.reqs r).req.cancelRequested

/-- Put a message into the queue of a worker. -/
def send (w : Nat) (msg : Message) : State :=
  s.setWorker w { s.workers w with queue := (s.workers w).queue ++ [msg] }

/-- A worker holds each of the requests. -/
def addOwners (w : Nat) (requests : List Nat) : State :=
  requests.foldl (fun s r => s.setReq r ((s.reqs r).addOwner w)) s

/-- The receiver of an ADD owns its requests from the moment it is sent. -/
def sendAdd (w : Nat) (requests : List Nat) : State :=
  (s.addOwners w requests).send w ⟨.add, requests⟩

/-- Send the batches of a routing decision. -/
def sendAdds (batches : List (Nat × List Nat)) : State :=
  batches.foldl (fun s b => s.sendAdd b.1 b.2) s

/-! ## The engine -/

/-- Route a message of the engine: cancelled requests are left out. -/
def place (batches : List (Nat × List Nat)) : Option State :=
  match s.inbox with
  | [] => none
  | requests :: rest =>
    if (batches.map (·.2)).flatten = requests.filter (fun r => !s.cancelRequested r) then
      some ({ s with inbox := rest }.sendAdds batches)
    else none

/-- `cancel_requests` for one request. -/
def cancel (r : Nat) : State :=
  if (s.reqs r).req.isDone || (s.reqs r).req.cancelRequested then s
  else
    let x := (s.reqs r).requestCancel
    let x' := if x.pending = [] then x.acknowledgeCancel s.now none else x
    x.pending.foldl (fun s w => s.send w ⟨.cancel, [r]⟩) (s.setReq r x')

/-! ## A step of a worker -/

/-- What `schedule` does to one request. -/
inductive Move where
  | admission (r cached : Nat)
  /-- An admission whose external KV is loaded first. -/
  | load (r : Nat)
  | resume (r : Nat)
  | assign (r tokens : Nat)
  | preempt (r : Nat)
deriving DecidableEq, Repr

/-- One move of a worker's scheduler. -/
def schedule (w : Nat) : Move → Option State
  | .admission r cached =>
    let v := s.workers w
    if r ∈ v.sched.waiting then
      some ((s.setReq r { s.reqs r with req := (s.reqs r).req.startContextBuild cached }).setWorker w
        { v with
          sched := { v.sched with
            waiting := v.sched.waiting.erase r, running := v.sched.running ++ [r] }
          blocks := v.blocks ++ [r] })
    else none
  | .load r =>
    let v := s.workers w
    if r ∈ v.sched.waiting then
      some (s.setWorker w
        { v with
          sched := { v.sched with
            waiting := v.sched.waiting.erase r, loading := v.sched.loading ++ [r] }
          blocks := v.blocks ++ [r]
          loads := v.loads ++ [r] })
    else none
  | .resume r =>
    let v := s.workers w
    if r ∈ v.sched.loadedWaiting then
      some (s.setWorker w
        { v with sched := { v.sched with
            loadedWaiting := v.sched.loadedWaiting.erase r
            loading := v.sched.loading.filter (· ≠ r)
            running := v.sched.running ++ [r] } })
    else none
  | .assign r tokens =>
    let v := s.workers w
    if r ∈ v.sched.running then
      some ((s.setReq r { s.reqs r with
          req := { (s.reqs r).req with scheduledTokens := tokens } }).setWorker w
        { v with activity := .computing (v.activity.batch ++ [r]) })
    else none
  | .preempt r =>
    let v := s.workers w
    if r ∈ v.sched.running then
      some ((s.setReq r { s.reqs r with req := (s.reqs r).req.prepareRecompute }).setWorker w
        { v with
          sched := { v.sched with
            running := v.sched.running.erase r, waiting := r :: v.sched.waiting }
          blocks := v.blocks.filter (· ≠ r) })
    else none

/-- The step is over: a worker without work waits. -/
def endStep (w : Nat) (running : List Nat) : State :=
  let v := s.workers w
  s.setWorker w { v with
    activity := .idle
    status := if running = [] ∧ v.sched.waiting = [] ∧ v.sched.loadedWaiting = [] then .waiting
      else v.status }

/-- Run what is left of a batch after its loads. -/
def startCompute (w : Nat) (batch : List Nat) : State :=
  let batch := batch.filter fun r => !s.cancelRequested r
  if batch = [] then s.endStep w []
  else s.setWorker w { s.workers w with activity := .computing batch }

/-- A STEP: schedule, then load what the batch needs. -/
def beginStep (w : Nat) (moves : List Move) (blockingLoad : Bool) : Option State:=
  if (s.workers w).status = .running then
    (moves.foldlM (fun (s : State) m => s.schedule w m)
        (s.setWorker w { s.workers w with activity := .computing [] })).map fun s =>
      let batch := (s.workers w).activity.batch.filter fun r => !s.cancelRequested r
      if batch = [] ∧ cfg.asyncOffload w then
        s.setWorker w { s.workers w with activity := .idle, status := .waiting }
      else if blockingLoad then s.setWorker w { s.workers w with activity := .loading batch }
      else s.startCompute w batch
  else some (s.setWorker w { s.workers w with activity := .idle })

/-- Advance each request of a batch. -/
def advanceAll (requests : List Nat) : State :=
  requests.foldl (fun s r => s.setReq r ((s.reqs r).advance s.now)) s

/-- Advance the batch and free the requests that are done, some of them later. -/
def completeStep (w : Nat) (batch delayed : List Nat) : State :=
  let s := s.advanceAll batch
  let v := s.workers w
  let done := batch.filter fun r => (s.reqs r).req.isDone
  s.setWorker w { v with
    activity := .saving
    sched := { v.sched with running := v.sched.running.filter fun r => !(s.reqs r).req.isDone }
    blocks := v.blocks.filter fun r => r ∉ done || r ∈ delayed
    delayed := v.delayed ++ done.filter (· ∈ delayed) }

/-- Hand finished prompts over: release them here, add them there. -/
def handOver (w : Nat) (completed : List Nat) (batches : List (Nat × List Nat)) : State:=
  let v := s.workers w
  (s.setWorker w { v with
    sched := { v.sched with running := v.sched.running.filter (· ∉ completed) }
    blocks := v.blocks.filter (· ∉ completed) }).sendAdds batches

/-- The saves are over. -/
def finishStep (w : Nat) (batches : List (Nat × List Nat)) : Option State:=
  let completed := if cfg.prefillRole w then
      (s.workers w).sched.running.filter fun r => !(s.reqs r).req.isContextBuild
    else []
  if (batches.map (·.2)).flatten = completed then
    let s := s.handOver w completed batches
    some (s.endStep w (s.workers w).sched.running)
  else none

/-! ## Cancellation at a worker -/

/-- Take a request out of the queues and release its blocks, unless the
connector still sends them. -/
def cancelAt (w r : Nat) (delayed : Bool) : State :=
  let v := s.workers w
  let v := { v with sched := v.sched.cancelRequest r }
  let v := if delayed then { v with delayed := v.delayed ++ [r] }
    else { v with blocks := v.blocks.filter (· ≠ r) }
  if r ∈ v.blocks then s.setWorker w { v with releases := v.releases ++ [r] }
  else (s.setWorker w v).setReq r ((s.reqs r).acknowledgeCancel s.now (some w))

/-- Cancel each of the requests at a worker. -/
def cancelAll (w : Nat) (delayed : List Nat) (requests : List Nat) : State :=
  requests.foldl (fun s r => s.cancelAt w r (r ∈ delayed)) s

/-! ## The events -/

/-- What can happen to the system. -/
inductive Event where
  | pass (time : Nat)
  | submit (requests : List Nat)
  | place (batches : List (Nat × List Nat))
  | cancel (r : Nat)
  /-- A worker sends itself a STEP: it has work, or a transfer ended. -/
  | wake (w : Nat)
  | stop (w : Nat)
  /-- The process of a worker takes the next message. -/
  | take (w : Nat)
  /-- It handles the message it holds, with the decisions of the scheduler and
  the answers of the connector. -/
  | handle (w : Nat) (moves : List Move) (blockingLoad : Bool) (delayed : List Nat)
  | loadsOver (w : Nat)
  | computed (w : Nat) (delayed : List Nat)
  | saved (w : Nat) (batches : List (Nat × List Nat))
  /-- An external load ended at a boundary of the context. -/
  | loadDone (w r boundary : Nat)
  /-- The connector has sent the blocks of a request. -/
  | released (w r : Nat)
  /-- A cancellation that waited finds the blocks released. -/
  | acknowledge (w r : Nat)

/-- A worker handles a message. -/
def handle (w : Nat) (msg : Message) (moves : List Move)
    (blockingLoad : Bool) (delayed : List Nat) : Option State :=
  let v := s.workers w
  match msg.task with
  | .add =>
    if msg.requests.any (cfg.refuses w) then some (s.setWorker w { v with activity := .idle })
    else some (s.setWorker w { v with
      activity := .idle
      status := .running
      sched := v.sched.addRequests s.cancelRequested msg.requests })
  | .step => s.beginStep cfg w moves blockingLoad
  | .stop => some (s.setWorker w { v with activity := .stopped, status := .stopped })
  | .cancel =>
    let s := (s.setWorker w { v with activity := .idle }).cancelAll w delayed msg.requests
    some (s.endStep w (s.workers w).sched.running)

/-- A load of a worker ends. -/
def loadDone (w r boundary : Nat) : State :=
  let v := s.workers w
  let v := { v with loads := v.loads.erase r }
  if s.cancelRequested r then
    s.setWorker w { v with sched := { v.sched with loading := v.sched.loading.filter (· ≠ r) } }
  else if r ∈ v.blocks then
    (s.setReq r { s.reqs r with req := (s.reqs r).req.startContextBuild boundary }).setWorker w
      { v with sched := { v.sched with loadedWaiting := v.sched.loadedWaiting ++ [r] } }
  else s.setWorker w v

/-- One event of the system. -/
def step : Event → Option State
  | .pass time => some { s with now := s.now + time }
  | .submit requests => some { s with inbox := s.inbox ++ [requests] }
  | .place batches => s.place batches
  | .cancel r => some (s.cancel r)
  | .wake w => some (s.send w ⟨.step, []⟩)
  | .stop w => some (s.send w ⟨.stop, []⟩)
  | .take w =>
    match (s.workers w).activity, nextMessage (s.workers w).queue with
    | .idle, some (msg, rest) =>
      some (s.setWorker w { s.workers w with activity := .holding msg, queue := rest })
    | _, _ => none
  | .handle w moves blockingLoad delayed =>
    match (s.workers w).activity with
    | .holding msg => s.handle cfg w msg moves blockingLoad delayed
    | _ => none
  | .loadsOver w =>
    match (s.workers w).activity with
    | .loading batch => some (s.startCompute w batch)
    | _ => none
  | .computed w delayed =>
    match (s.workers w).activity with
    | .computing batch => some (s.completeStep w batch delayed)
    | _ => none
  | .saved w batches =>
    if (s.workers w).activity = .saving then s.finishStep cfg w batches else none
  | .loadDone w r boundary =>
    if r ∈ (s.workers w).loads then some (s.loadDone w r boundary) else none
  | .released w r =>
    let v := s.workers w
    if r ∈ v.delayed then
      some (s.setWorker w { v with
        delayed := v.delayed.erase r
        blocks := v.blocks.filter (· ≠ r)
        sched := if (s.reqs r).req.isDone then
            { v.sched with running := v.sched.running.filter (· ≠ r) }
          else v.sched })
    else none
  | .acknowledge w r =>
    let v := s.workers w
    if r ∈ v.releases ∧ r ∉ v.blocks then
      some ((s.setWorker w { v with releases := v.releases.erase r }).setReq r
        ((s.reqs r).acknowledgeCancel s.now (some w)))
    else none

end State

end TokenSim.Engine
