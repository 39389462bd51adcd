import TokenSim.Llm.Admission
import TokenSim.Llm.PagedTokens
import Mathlib.Data.List.Sort
import Mathlib.Data.Rat.Lemmas

/-!
# One step of the paged scheduler

`schedule` first goes through the running requests, oldest first: each gets its
tokens, and the youngest requests that are not yet scheduled are preempted until
its KV slot is free.  If nothing was preempted it then takes in requests, those
whose external KV is loaded first, while budget and blocks last.

The block manager and the connector are a `Cache`, about which nothing is assumed
here.  Statistics and the throttling of prefills by other ranks enter only
through their results.
-/

namespace TokenSim

/-- The queues of the scheduler, and its block manager. -/
structure PagedScheduler (β : Type) where
  running : List Request
  waiting : List Request
  loading : List Request
  loadedWaiting : List Request
  inflightPrefills : List Nat
  manager : β

/-- Mutable state of one scheduling step. -/
structure StepState where
  budget : Option Int
  scheduled : List Request := []
  preempted : List Request := []
  /-- A running request scheduled a pending prefill chunk this step. -/
  prefillScheduled : Bool := false
  /-- Running requests scheduled before admissions began. -/
  scheduledRunning : List Request := []

/-- What is fixed during one step: the configuration, the acceptance draws, the
effective long-prefill threshold and whether prefills are deferred. -/
structure StepConfig where
  paged : PagedConfig
  accepted : Request → Nat
  threshold : Nat
  deferPrefills : Bool
  maxNumSeqs : Option Nat

namespace StepConfig

variable {β : Type} (cfg : StepConfig) (cache : Cache β) (r : Request) (tokens queryTokens : Nat)

/-- The budget as the token planner sees it. -/
def tokenBudget (budget : Option Int) : Option Nat := budget.map Int.toNat

def stepTokens (budget : Option Int) : Nat :=
  cfg.paged.stepTokens cfg.threshold (cfg.accepted r) r (tokenBudget budget)

def decodeLookahead : Nat := if cfg.paged.mtpEnabled then cfg.paged.speculativeTokens else 0

def budgetCost (accepted : Nat) : Nat :=
  if r.isContextBuild then accepted else cfg.paged.queryTokens r accepted

/-! ## Running requests -/

/-- A preempted request. -/
def toRecompute : Request := { r.prepareRecompute with status := .waiting }

/-- Preempt a request: release its blocks and put it at the head of the waiting
queue, to be recomputed. -/
def preempt (s : PagedScheduler β) (r : Request) : PagedScheduler β :=
  { s with
    inflightPrefills := s.inflightPrefills.erase r.id
    manager := cache.releaseRequestBlocks s.manager r
    waiting := toRecompute r :: s.waiting }

/-- The youngest requests, given first, are preempted until there is room.  The
result says whether there is, and which requests are left. -/
def makeRoom (room : β → Bool) : List Request → PagedScheduler β → List Request →
    Bool × PagedScheduler β × List Request × List Request
  | youngest, s, preempted =>
    if room s.manager then (true, s, youngest, preempted)
    else
      match youngest with
      | [] => (false, s, [], preempted)
      | victim :: rest => makeRoom room rest (preempt cache s victim)
          (preempted ++ [toRecompute victim])

/-- The test and the update of a slot reservation. -/
def slotTest (m : β) : Bool :=
  if r.isContextBuild then
    !cfg.paged.groupedCache || cache.canEnsureSlots m r tokens cfg.decodeLookahead
  else if cfg.paged.groupedCache then cache.canEnsureSlots m r queryTokens cfg.decodeLookahead
  else cache.canAppendSlot m r

def takeSlot (m : β) : β :=
  if r.isContextBuild then
    if cfg.paged.groupedCache then cache.ensureSlots m r tokens cfg.decodeLookahead else m
  else if cfg.paged.groupedCache then cache.ensureSlots m r queryTokens cfg.decodeLookahead
  else cache.appendSlot m r

/-- The request with its tokens of this step. -/
def assigned : Request :=
  { r with
    scheduledTokens := tokens
    scheduledQueryTokens := queryTokens
    prefillChunkPending := decide (r.numComputedTokens + queryTokens < r.contextLen) }

def spend (budget : Option Int) (cost : Nat) : Option Int := budget.map (· - cost)

/-- One running request, with the younger ones that are still to be scheduled,
the youngest first. -/
def scheduleOne (youngest : List Request) (s : PagedScheduler β) (step : StepState) :
    PagedScheduler β × StepState × List Request :=
  if cfg.deferPrefills && r.prefillChunkPending then
    ({ s with running := s.running ++ [r] }, step, youngest)
  else
    let tokens := cfg.stepTokens r step.budget
    if tokens = 0 then ({ s with running := s.running ++ [r] }, step, youngest)
    else
      let queryTokens := cfg.paged.queryTokens r tokens
      match makeRoom cache (cfg.slotTest cache r tokens queryTokens) youngest s step.preempted with
      | (true, s, left, preempted) =>
        let r' := assigned r tokens queryTokens
        ({ s with
            running := s.running ++ [r']
            manager := cfg.takeSlot cache r tokens queryTokens s.manager },
          { step with
            preempted := preempted
            prefillScheduled := step.prefillScheduled || r.prefillChunkPending
            budget := spend step.budget (cfg.budgetCost r tokens)
            scheduled := step.scheduled ++ [r'] }, left)
      | (false, s, left, preempted) =>
        (preempt cache s r, { step with preempted := preempted ++ [toRecompute r] }, left)

/-- The loop over the running requests.  Every round takes at least one request
off the queue, so that its length bounds the number of rounds. -/
def scheduleRunning : Nat → List Request → PagedScheduler β → StepState →
    PagedScheduler β × StepState
  | _, [], s, step => (s, step)
  | 0, _ :: _, s, step => (s, step)
  | rounds + 1, r :: queue, s, step =>
    let next := cfg.scheduleOne cache r queue.reverse s step
    scheduleRunning rounds next.2.2.reverse next.1 next.2.1

/-! ## Admissions -/

def assignWaiting (s : PagedScheduler β) (step : StepState) : PagedScheduler β × StepState:=
  let r := { assigned r tokens queryTokens with
    scheduledPlaceholderTokens := if r.isContextBuild then queryTokens - tokens else 0 }
  ({ s with running := s.running ++ [r] },
    { step with budget := spend step.budget queryTokens, scheduled := step.scheduled ++ [r] })

/-- The query of a waiting request. -/
def waitingQuery (tokens : Nat) (step : StepState) : Nat :=
  cfg.paged.waitingQueryTokens r tokens (cfg.paged.queryTokens r tokens) (tokenBudget step.budget)
    (decide (step.scheduledRunning ≠ [])) step.prefillScheduled

/-- Schedule the first request whose external KV is resident. -/
def resumeLoaded (rest : List Request) (s : PagedScheduler β) (step : StepState) :
    Option (PagedScheduler β × StepState) :=
  if cfg.deferPrefills && decide (1 < r.remainingContextTokens) then none
  else
    let tokens := cfg.stepTokens r step.budget
    let queryTokens := cfg.waitingQuery r tokens step
    if queryTokens = 0 then none
    else
      let watermark := if s.running = [] then 0 else cache.watermarkBlocks
      if cache.getNumFreeBlocks s.manager < cache.remainingAdmissionSlots s.manager r + watermark ||
          !cache.canEnsureSlots s.manager r queryTokens cfg.decodeLookahead then none
      else
        let s := { s with
          manager := cache.ensureSlots s.manager r queryTokens cfg.decodeLookahead
          loadedWaiting := rest
          loading := s.loading.filter fun q => decide (q.id ≠ r.id) }
        some (assignWaiting { r with status := .running } tokens queryTokens s step)

/-- A hit that leaves one token is padded only when the budget covers it. -/
def paddingFits (hitTokens : Nat) (step : StepState) : Bool :=
  decide (r.contextLen - hitTokens ≠ 1) ||
    decide (cfg.paged.waitingQueryTokens { r with numComputedTokens := hitTokens } 1 1
      (tokenBudget step.budget) (decide (step.scheduledRunning ≠ [])) step.prefillScheduled ≠ 0)

/-- Whether the head of the waiting queue passes the gates of an admission. -/
def passesGates (s : PagedScheduler β) (step : StepState) : Bool :=
  let hit := (cache.planReuse s.manager r).hitTokens
  let external := cache.probe s.manager r
  let loads := cache.asyncOffload && external.2
  let boundary := if cache.asyncOffload then external.1 else hit
  let busy := decide (s.running ≠ [])
  !(cfg.deferPrefills && decide (1 < r.contextLen - boundary)) &&
  (!cfg.paged.groupedCache || loads || cfg.paddingFits r hit step) &&
  (if loads then cache.canAdmitExternal s.manager r busy
    else cache.canAllocate s.manager r (cfg.paged.groupedCache && busy))

/-- What follows the admission of the head `r` of the waiting queue as `r'`. -/
def placeAdmitted (r r' : Request) (rest : List Request) (m : β) (s : PagedScheduler β)
    (step : StepState) : Except Err (Bool × PagedScheduler β × StepState) :=
  if r'.status = .waitingForKv then
    .ok (true, { s with
      waiting := rest
      manager := m
      loading := s.loading ++ [r']
      inflightPrefills := s.inflightPrefills ++ [r'.id] }, step)
  else
    let tokens := cfg.stepTokens r' step.budget
    let queryTokens := cfg.waitingQuery r' tokens step
    if queryTokens = 0 then
      .error (.configuration "waiting query budget changed after admission")
    else if cfg.paged.groupedCache then
      if cache.canEnsureSlots m r' queryTokens cfg.decodeLookahead then
        let s := { s with
          waiting := rest
          manager := cache.ensureSlots m r' queryTokens cfg.decodeLookahead
          inflightPrefills := if r'.numComputedTokens + tokens < r'.contextLen then
              s.inflightPrefills ++ [r'.id] else s.inflightPrefills }
        .ok (true, assignWaiting r' tokens queryTokens s step)
      else
        -- the admission has not run: it is undone and keeps its place
        .ok (false, { s with
          waiting := r'.restoreAdmissionState r :: rest
          manager := cache.releaseRequestBlocks m r'
          inflightPrefills := s.inflightPrefills.erase r'.id }, step)
    else
      .ok (true, assignWaiting r' tokens queryTokens { s with waiting := rest, manager := m } step)

/-- Take in the head of the waiting queue.  The flag says whether admissions go
on. -/
def admitWaiting (rest : List Request) (s : PagedScheduler β) (step : StepState) :
    Except Err (Bool × PagedScheduler β × StepState) :=
  if cfg.passesGates cache r s step then do
    let (m, r') ← cache.admitRequest cfg.paged.groupedCache s.manager r (cache.probe s.manager r)
    cfg.placeAdmitted cache r r' rest m s step
  else .ok (false, s, step)

/-- There is budget for another admission. -/
def budgetLeft (budget : Option Int) : Bool :=
  match budget with
  | none => true
  | some b => decide (0 < b)

def belowMaxNumSeqs (s : PagedScheduler β) : Bool :=
  match cfg.maxNumSeqs with
  | none => true
  | some limit => decide (s.running.length < limit)

/-- The loop of admissions.  Every round takes a request off a queue. -/
def scheduleWaiting : Nat → PagedScheduler β → StepState → Except Err (PagedScheduler β × StepState)
  | 0, s, step => .ok (s, step)
  | rounds + 1, s, step =>
    if !budgetLeft step.budget then .ok (s, step)
    else
      match s.loadedWaiting, s.waiting with
      | r :: rest, _ =>
        if !cfg.belowMaxNumSeqs s then .ok (s, step)
        else
          match cfg.resumeLoaded cache r rest s step with
          | none => .ok (s, step)
          | some next => scheduleWaiting rounds next.1 next.2
      | [], r :: rest =>
        if !cache.isOccupyBelowUsage s.manager || !cfg.belowMaxNumSeqs s then .ok (s, step)
        else do
          let (more, s, step) ← cfg.admitWaiting cache r rest s step
          if more then scheduleWaiting rounds s step else .ok (s, step)
      | [], [] => .ok (s, step)

/-! ## The step -/

/-- Arrival order. -/
def arrivedBefore (a b : Request) : Prop := a.arrivalAt ≤ b.arrivalAt

instance : DecidableRel arrivedBefore := fun a b => inferInstanceAs (Decidable (a.arrivalAt ≤ b.arrivalAt))

/-- Build one step: the new state, with the requests that compute tokens and the
requests that were preempted. -/
def schedule (s : PagedScheduler β) (budget : Option Int) :
    Except Err (PagedScheduler β × StepState) :=
  let queue := s.running.insertionSort arrivedBefore
  let (s, step) := cfg.scheduleRunning cache queue.length queue { s with running := [] }
    ⟨budget, [], [], false, []⟩
  let step := { step with scheduledRunning := step.scheduled }
  if step.preempted = [] then
    cfg.scheduleWaiting cache (s.loadedWaiting.length + s.waiting.length) s step
  else .ok (s, step)

end StepConfig

end TokenSim
