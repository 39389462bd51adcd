import TokenSim.Native.PageStore
import TokenSim.Hybrid.Identity

/-!
# The asynchronous offload connector

The connector moves pages between the hybrid manager and an external page store
by transfers that run beside the steps of the worker.  A load reads the external
pages that extend the local prefix of a request that is being admitted; a save
writes the pages that a publication pass entered into the prefix map.  A transfer
holds a reference to its page in the store and pins its slot in the manager from
the moment it is planned until it ends.

The manager and its callers are those of `World`; what they do is a `call`.  The
imports, pins and unpins of `World` are left to the connector.  The callers release
a request whose load is under way only when its cancellation was requested.

The callback of a publication touches the store and the transfer references only.
A publication pass reads neither, so the callbacks of a pass are run after it.
A probe looks keys up in the store, which refreshes their LRU order; these lookups
are steps of their own.
-/

namespace TokenSim

namespace AsyncOffload

/-- What a worker does with the external store. -/
inductive KvRole where
  | both
  | producer
  | consumer
deriving DecidableEq, Repr

structure Config where
  hybrid : HybridConfig
  store : PageStoreConfig
  groupBytes : Nat → Nat
  role : KvRole
  groupBytes_pos : ∀ g, groupBytes g ≠ 0

/-- A load under way: the slots it writes to, each with the page it reads. -/
structure Load where
  requestId : Nat
  targets : List (Destination × Nat)
  boundary : Nat

/-- The pages that a load reads and the slots that it writes to. -/
def Load.pairs (l : Load) : List (Nat × Nat) := l.targets.map fun e => (e.2, e.1.slot)

structure State where
  world : World
  store : NativePageStore SlotKey
  loads : List Load
  /-- Pages to be written, with the slots they are read from. -/
  pendingWrites : List (Nat × Nat)
  /-- The writes under way, in batches. -/
  saves : List (List (Nat × Nat))
  cancelRequested : Nat → Bool

/-- Whatever happens to the connector. -/
inductive Event where
  /-- The callers of the manager take a step. -/
  | call (op : Op)
  | lookup (key : SlotKey)
  | beginLoad (rid : Nat)
  | loadDone (i : Nat)
  | waitForSave
  | saveDone (i : Nat)
  | requestCancel (rid : Nat)

section Transfers

/-- Take a reference to every page. -/
def acquireAll (store : NativePageStore SlotKey) : List Nat → Except Err (NativePageStore SlotKey)
  | [] => pure store
  | page :: rest => do
    let store ← store.acquire page
    acquireAll store rest

def releaseAll (store : NativePageStore SlotKey) : List Nat → Except Err (NativePageStore SlotKey)
  | [] => pure store
  | page :: rest => do
    let store ← store.release page
    releaseAll store rest

def pin (w : World) (slot : Nat) : Except Err World := do
  let m ← w.mgr.pinTransfer slot
  pure { w with mgr := m }

def unpin (w : World) (slot : Nat) : Except Err World := do
  let m ← w.mgr.unpinTransfer slot
  pure { w with mgr := m }

def pinAll (w : World) : List Nat → Except Err World
  | [] => pure w
  | slot :: rest => do
    let w ← pin w slot
    pinAll w rest

/-- The end of a transfer: `finish` every page and unpin its slot. -/
def endAll (finish : NativePageStore SlotKey → Nat → Except Err (NativePageStore SlotKey))
    (w : World) (store : NativePageStore SlotKey) :
    List (Nat × Nat) → Except Err (World × NativePageStore SlotKey)
  | [] => pure (w, store)
  | (page, slot) :: rest => do
    let store ← finish store page
    let w ← unpin w slot
    endAll finish w store rest

end Transfers

namespace State

variable (cfg : Config) (s : State)

def init (reqs : Nat → Request) : State where
  world := .init cfg.hybrid reqs
  store := .init
  loads := []
  pendingWrites := []
  saves := []
  cancelRequested := fun _ => false

/-- The callback of a publication. -/
def queueWrite (e : Publication) : Except Err State :=
  if cfg.role = .consumer then pure s
  else do
    let (store, page) ← s.store.reserveWrite cfg.store e.key (cfg.groupBytes e.groupId)
    match page with
    | none => pure { s with store := store }
    | some page => do
      let w ← pin s.world e.slot
      pure { s with store := store, world := w, pendingWrites := s.pendingWrites ++ [(page, e.slot)] }

def queueWrites (s : State) : List Publication → Except Err State
  | [] => pure s
  | e :: rest => do
    let s ← s.queueWrite cfg e
    s.queueWrites rest

/-- The steps of the callers.  A request whose load is under way is released only
after its cancellation was requested. -/
def permits : Op → Bool
  | .beginImport _ _ | .finishImport _ | .pin _ | .unpin _ => false
  | .release rid =>
    match s.world.phase rid with
    | .loading _ _ => s.cancelRequested rid
    | _ => true
  | _ => true

/-- The pages of an external prefix. -/
def pagesOf (hits : GroupHits SlotKey) : List Nat :=
  hits.flatMap fun e => e.2.map fun pair => (s.store.pages.get? pair.2).getD 0

/-- Start to load the external prefix of a request.  If its destinations cannot
be allocated, the pages are given back. -/
def beginLoad (rid boundary : Nat) (hits : GroupHits SlotKey) : Except Err State := do
  let pages := s.pagesOf hits
  let store ← acquireAll s.store pages
  match s.world.mgr.allocateExternalDestinations cfg.hybrid (s.world.reqs rid) hits with
  | .error _ => do
    let store ← releaseAll store pages
    pure { s with store := store }
  | .ok (m, targets) => do
    let w ← pinAll (s.world.put m rid (s.world.reqs rid) (.loading targets boundary))
      (targets.map Destination.slot)
    pure { s with
      store := store
      world := w
      loads := s.loads ++ [⟨rid, targets.zip pages, boundary⟩] }

/-- What a load publishes: nothing, if the cancellation of its request was
requested or its tables are gone. -/
def finishLoad (l : Load) : World :=
  if s.cancelRequested l.requestId = false ∧ (s.world.mgr.tables.get? l.requestId).isSome then
    let r := (s.world.reqs l.requestId).startContextBuild l.boundary
    s.world.put (s.world.mgr.finishExternalImport cfg.hybrid (s.world.reqs l.requestId)
      (l.targets.map Prod.fst) l.boundary) l.requestId r
      (.active .imported r.numComputedTokens l.boundary)
  else s.world

def loadDone (i : Nat) (l : Load) : Except Err State := do
  let (w, store) ← endAll NativePageStore.release (s.finishLoad cfg l) s.store l.pairs
  pure { s with world := w, store := store, loads := s.loads.eraseIdx i }

def waitForSave : State :=
  if s.pendingWrites = [] then s
  else { s with saves := s.saves ++ [s.pendingWrites], pendingWrites := [] }

def saveDone (i : Nat) (batch : List (Nat × Nat)) : Except Err State := do
  let (w, store) ← endAll NativePageStore.finishWrite s.world s.store batch
  pure { s with world := w, store := store, saves := s.saves.eraseIdx i }

/-- One event, if it can happen; an error is a raised exception. -/
def perform : Event → Option (Except Err State)
  | .call op =>
    if s.permits op then
      (World.step cfg.hybrid s.world op).map fun w =>
        queueWrites cfg { s with world := w }
          (w.mgr.published.drop s.world.mgr.published.length)
    else none
  | .lookup key => some (.ok { s with store := (s.store.lookup key).1 })
  | .beginLoad rid =>
    match s.world.phase rid with
    | .admitted hit =>
      if cfg.role = .producer then none
      else
        match planExternalReuse cfg.hybrid (s.world.reqs rid)
          s.store.readable hit with
        | .error _ => none
        | .ok (boundary, hits) => if hits = [] then none else some (s.beginLoad cfg rid boundary hits)
    | _ => none
  | .loadDone i => (s.loads[i]?).map fun l => s.loadDone cfg i l
  | .waitForSave => some (.ok s.waitForSave)
  | .saveDone i => (s.saves[i]?).map fun batch => s.saveDone i batch
  | .requestCancel rid =>
    some (.ok { s with cancelRequested := Function.update s.cancelRequested rid true })

/-- One event that raises nothing. -/
def step (e : Event) : Option State := (s.perform cfg e).bind Except.toOption

end State

end AsyncOffload

end TokenSim
