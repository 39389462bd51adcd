import TokenSim.Block
import TokenSim.Lib.OrderedDict
import TokenSim.Lib.Effects
import TokenSim.Lib.Raising

/-!
# The Mooncake store

An external store keeps KV objects by key in two tiers.  The memory tier is
bounded in bytes and evicts in LRU order.  The offload tier, if there is one, is
bounded in blocks and has its own LRU order.  A write goes to memory, evicting
objects that are neither being written nor read; what is evicted moves to the
offload tier, which may evict in turn or refuse it.  With an offload tier every
new object is also written through to it.

Times are of any linearly ordered type with an addition; nothing depends on how
the addition rounds.  Reads and writes cost what the storage backend says, so the
costs are part of the configuration.  `removals` is not in the source: it lists
the objects that left the tier that served them, with the time of the call.
-/

namespace TokenSim

variable {κ T : Type} [DecidableEq κ] [LinearOrder T] [Add T] [Zero T]

/-! ## The offload tier -/

/-- The configuration of an offload tier and the costs of its backend. -/
structure OffloadConfig (T : Type) where
  name : String
  capacityBlocks : Nat
  readSeconds : Nat → T
  writeSeconds : Nat → T

/-- What one operation of the tier moves and costs. -/
structure OffloadOperation (κ T : Type) where
  blocks : Nat
  bytes : Nat
  latency : T
  evictedKeys : List κ

/-- The tier's blocks by key, its order of use, and its pins. -/
structure OffloadTier (κ T : Type) where
  blocks : OrderedDict κ Nat
  lru : OrderedDict κ Unit
  usedBlocks : Nat
  protectedUntil : OrderedDict κ T

namespace OffloadTier

variable (t : OffloadTier κ T)

/-- The empty tier. -/
def init : OffloadTier κ T := ⟨.empty, .empty, 0, .empty⟩

/-- The tier holds the key. -/
def contains (key : κ) : Bool := (t.blocks.get? key).isSome

/-- The time a transfer of some bytes takes. -/
def latency (seconds : Nat → T) (nbytes : Nat) : T := if nbytes = 0 then 0 else seconds nbytes

/-- Read a key of the tier and move it to the end. -/
def read (cfg : OffloadConfig T) (blockBytes : Nat) (t : OffloadTier κ T) (key : κ) :
    OffloadTier κ T × OffloadOperation κ T :=
  let blocks := (t.blocks.get? key).getD 0
  let bytes := blocks * blockBytes
  ({ t with lru := t.lru.moveToEnd key }, ⟨blocks, bytes, latency cfg.readSeconds bytes, []⟩)

/-- The time until which a key is protected. -/
def protection (key : κ) : T := (t.protectedUntil.get? key).getD 0

/-- Protect a key at least until the given time. -/
def pin (key : κ) (until_ : T) : OffloadTier κ T :=
  { t with protectedUntil := t.protectedUntil.set key (max (t.protection key) until_) }

/-- Take a key out of the tier. -/
def removeExisting (key : κ) : OffloadTier κ T where
  blocks := t.blocks.erase key
  lru := t.lru.erase key
  usedBlocks := t.usedBlocks - (t.blocks.get? key).getD 0
  protectedUntil := t.protectedUntil.erase key

/-- The unprotected keys, in LRU order, that make room for `extra` blocks, and the
room they make. -/
def candidates (key : κ) (now : T) (extra : Int) :
    List κ → Int → Except Err (List κ × Int)
  | [], available => pure ([], available)
  | candidate :: rest, available =>
    if candidate ≠ key ∧ t.protection candidate ≤ now then do
      let blocks ← (t.blocks.get? candidate).orRaise .keyError
      if extra ≤ available + blocks then pure ([candidate], available + blocks)
      else do
        let (more, available) ← candidates key now extra rest (available + blocks)
        pure (candidate :: more, available)
    else candidates key now extra rest available

/-- The entries to evict for `extra` blocks when `free` blocks are free. -/
def victims (key : κ) (now : T) (extra free : Int) :
    Except Err (List κ × Int) :=
  if free < extra then t.candidates key now extra t.lru.keys free else pure ([], free)

/-- The answer to a write that the tier does not accept. -/
def refused (key : κ) : OffloadOperation κ T := ⟨0, 0, 0, [key]⟩

/-- Write a key to the tier, evicting others for it. -/
def write (cfg : OffloadConfig T) (blockBytes : Nat) (t : OffloadTier κ T) (key : κ) (blocks : Nat)
    (now : T) : Except Err (OffloadTier κ T × OffloadOperation κ T) :=
  if cfg.capacityBlocks = 0 then
    throw (.configuration (cfg.name.toUpper ++ " tier is not enabled or has zero capacity"))
  else if cfg.capacityBlocks < blocks then pure (t, refused key)
  else do
    let extra : Int := blocks - (t.blocks.get? key).getD 0
    let free : Int := cfg.capacityBlocks - t.usedBlocks
    let (evicted, available) ← t.victims key now extra free
    if available < extra then pure (t, refused key)
    else
      let bytes := blocks * blockBytes
      let t := (evicted.foldl removeExisting t).removeExisting key
      pure ({ t with
          blocks := t.blocks.set key blocks
          usedBlocks := t.usedBlocks + blocks
          lru := t.lru.set key () },
        ⟨blocks, bytes, latency cfg.writeSeconds bytes, evicted⟩)

end OffloadTier

/-! ## The store -/

/-- The tier that serves an object. -/
inductive Tier where
  | memory
  | offload
deriving DecidableEq, Repr

/-- What memory evicts. -/
inductive EvictionPolicy where
  | lru
  | none
deriving DecidableEq, Repr

/-- Whether writes are taken in. -/
inductive AdmissionPolicy where
  | always
  | never
deriving DecidableEq, Repr

/-- The configuration of a store. -/
structure MooncakeConfig (T : Type) where
  memoryCapacityBytes : Nat
  blockBytes : Nat
  evictionPolicy : EvictionPolicy
  admissionPolicy : AdmissionPolicy
  offload : Option (OffloadConfig T)

/-- One object of the store. -/
structure StoreObject (T : Type) where
  blocks : Nat
  bytes : Nat
  tier : Tier := .memory
  persisted : Bool := false
  lastAccess : Nat := 0
  readyAt : T
  inUseUntil : T

/-- The object once its write to the offload tier is under way. -/
def StoreObject.written (o : StoreObject T) (ready : T) : StoreObject T :=
  { o with persisted := true, readyAt := ready }

/-- An object is protected while it is written or read. -/
def StoreObject.Busy (o : StoreObject T) (now : T) : Prop := now < max o.readyAt o.inUseUntil

instance (o : StoreObject T) (now : T) : Decidable (o.Busy now) :=
  inferInstanceAs (Decidable (now < _))

/-- The store's counters. -/
structure MooncakeStats where
  storeHitCount : Nat := 0
  diskTierHitCount : Nat := 0
  memoryTierHitCount : Nat := 0
  storeMissCount : Nat := 0
  getCount : Nat := 0
  putCount : Nat := 0
  admissionCount : Nat := 0
  admissionRejectionCount : Nat := 0
  evictionCount : Nat := 0
  readBlocks : Nat := 0
  readBytes : Nat := 0
  writeBlocks : Nat := 0
  writeBytes : Nat := 0
deriving DecidableEq, Repr

/-- An object left the tier that served it, in a call at time `now`. -/
structure Removal (κ T : Type) where
  key : κ
  object : StoreObject T
  now : T

/-- Memory, its order of use, the offload tier and the counters. -/
structure MooncakeStore (κ T : Type) where
  memoryUsedBytes : Nat
  objects : OrderedDict κ (StoreObject T)
  memoryLru : OrderedDict κ Unit
  /-- Used only when the configuration has an offload tier. -/
  offload : OffloadTier κ T
  stats : MooncakeStats
  accessCounter : Nat
  removals : List (Removal κ T)

/-- The keys a lookup found, and the slowest tier among them. -/
structure StoreHit (κ : Type) where
  keys : List κ
  hitBlocks : Nat
  tier : Option Tier
deriving DecidableEq

/-- The time a write is charged and the time it blocks. -/
structure StoreWriteTiming (T : Type) where
  accountingLatency : T
  blockingLatency : T

/-- A write that takes no time. -/
def StoreWriteTiming.zero : StoreWriteTiming T := ⟨0, 0⟩

/-- Two writes one after the other. -/
def StoreWriteTiming.add (a b : StoreWriteTiming T) : StoreWriteTiming T :=
  ⟨a.accountingLatency + b.accountingLatency, a.blockingLatency + b.blockingLatency⟩

namespace MooncakeStore

/-- The empty store. -/
def init : MooncakeStore κ T := ⟨0, .empty, .empty, .init, {}, 0, []⟩

/-- An operation of the store.  A raise leaves the store as it was reached. -/
abbrev StoreM (κ T : Type) := EStateM Err (MooncakeStore κ T)

variable (cfg : MooncakeConfig T) (s : MooncakeStore κ T)

/-- Change the counters. -/
def updateStats (f : MooncakeStats → MooncakeStats) (s : MooncakeStore κ T) : MooncakeStore κ T :=
  { s with stats := f s.stats }

/-- Replace an object. -/
def setObject (key : κ) (o : StoreObject T) : MooncakeStore κ T :=
  { s with objects := s.objects.set key o }

/-- An object of the offload tier is served only while the tier has its entry. -/
def served (key : κ) (o : StoreObject T) : Bool :=
  o.tier = .memory || s.offload.contains key

/-! ### Lookup and reads -/

/-- The leading keys that can be read at time `now`, and their slowest tier. -/
def hitPrefix (now : T) : List κ → Option Tier → List κ × Option Tier
  | [], slowest => ([], slowest)
  | key :: rest, slowest =>
    match s.objects.get? key with
    | none => ([], slowest)
    | some o =>
      if now < o.readyAt then ([], slowest)
      else if !s.served key o then ([], slowest)
      else
        let slowest := if o.tier = .offload then some .offload else slowest.or (some .memory)
        let (keys, slowest) := hitPrefix now rest slowest
        (key :: keys, slowest)

/-- `lookup`: the leading keys that are there and ready. -/
def lookup (keys : List κ) (now : T) : StoreM κ T (StoreHit κ) := do
  if keys = [] then pure ⟨[], 0, none⟩
  else
    let s ← get
    let (hits, slowest) := s.hitPrefix now keys none
    modify (updateStats fun st =>
      if hits = [] then { st with storeMissCount := st.storeMissCount + 1 }
      else if slowest = some .offload then
        { st with storeHitCount := st.storeHitCount + 1, diskTierHitCount := st.diskTierHitCount + 1 }
      else { st with
        storeHitCount := st.storeHitCount + 1, memoryTierHitCount := st.memoryTierHitCount + 1 })
    pure ⟨hits, hits.length, slowest⟩

/-- Note an access to an object. -/
def touch (key : κ) (o : StoreObject T) : MooncakeStore κ T :=
  { s with
    accessCounter := s.accessCounter + 1
    objects := s.objects.set key { o with lastAccess := s.accessCounter + 1 }
    memoryLru := if o.tier = .memory then s.memoryLru.moveToEnd key else s.memoryLru }

/-- Read an object from its tier, after reads that took `latency`. -/
def readOne (now : T) (latency : T) (key : κ) : StoreM κ T T := do
  let s ← get
  match s.objects.get? key with
  | none => throw (.simulationState "external KV read needs a ready resident object")
  | some o =>
    if now < o.readyAt then
      throw (.simulationState "external KV read needs a ready resident object")
    else
      match o.tier, cfg.offload with
      | .offload, some tierCfg => do
        let (tier, op) := s.offload.read tierCfg cfg.blockBytes key
        set (updateStats (fun st => { st with
          readBlocks := st.readBlocks + op.blocks, readBytes := st.readBytes + op.bytes })
          { s.touch key o with offload := tier })
        pure (latency + op.latency)
      | _, _ => do
        set (s.touch key o)
        pure latency

/-- Read the keys in order, adding up their latencies. -/
def readAll (now : T) : List κ → T → StoreM κ T T
  | [], latency => pure latency
  | key :: rest, latency => do
    let latency ← readOne cfg now latency key
    readAll now rest latency

/-- An object is in use until its transfer ends. -/
def useUntil (until_ : T) (s : MooncakeStore κ T) (key : κ) : MooncakeStore κ T :=
  match s.objects.get? key with
  | none => s
  | some o =>
    let o := { o with inUseUntil := max o.inUseUntil until_ }
    let s := s.setObject key o
    if o.tier = .offload then { s with offload := s.offload.pin key o.inUseUntil } else s

/-- `get`: read every key and keep it until the read is over. -/
def fetch (keys : List κ) (now initialDelay : T) : StoreM κ T T := do
  if keys = [] then pure 0
  else
    modify (updateStats fun st => { st with getCount := st.getCount + 1 })
    let latency ← readAll cfg now keys 0
    modify fun s => keys.foldl (useUntil (now + initialDelay + latency)) s
    pure latency

/-! ### Writes -/

/-- An object is ready when its write to the offload tier ends; until then its
entry is pinned. -/
def writeTiming (key : κ) (o : StoreObject T) (mediaLatency now initialDelay : T) :
    StoreM κ T (StoreObject T × StoreWriteTiming T) := do
  let ready := now + initialDelay + mediaLatency
  modify fun s => { s with offload := s.offload.pin key ready }
  pure (o.written ready, ⟨mediaLatency, mediaLatency⟩)

/-- An object whose entry the offload tier dropped is gone if the tier served it. -/
def dropEvicted (now : T) (s : MooncakeStore κ T) (key : κ) : MooncakeStore κ T :=
  match s.objects.get? key with
  | none => s
  | some o =>
    if o.tier = .offload then
      updateStats (fun st => { st with evictionCount := st.evictionCount + 1 })
        { s with
          objects := s.objects.erase key
          removals := s.removals ++ [⟨key, o, now⟩] }
    else s.setObject key { o with persisted := false }

/-- Count a write of the tier and drop what it evicted. -/
def recordOffloadWrite (now : T) (op : OffloadOperation κ T) (s : MooncakeStore κ T) :
    MooncakeStore κ T :=
  op.evictedKeys.foldl (dropEvicted now) (updateStats (fun st => { st with
    writeBlocks := st.writeBlocks + op.blocks, writeBytes := st.writeBytes + op.bytes }) s)

/-- Write to the offload tier. -/
def offloadWrite (tierCfg : OffloadConfig T) (key : κ) (blocks : Nat) (now : T) :
    StoreM κ T (OffloadOperation κ T) := do
  let s ← get
  let (tier, op) ← EStateM.ofExcept (s.offload.write tierCfg cfg.blockBytes key blocks now)
  set { s with offload := tier }
  pure op

/-- Write an object of the store to the offload tier, if the tier accepts it. -/
def writeThrough (tierCfg : OffloadConfig T) (key : κ) (o : StoreObject T) (now initialDelay : T) :
    StoreM κ T (Option (StoreWriteTiming T)) := do
  let op ← offloadWrite cfg tierCfg key o.blocks now
  modify (recordOffloadWrite now op)
  if key ∈ op.evictedKeys then pure none
  else do
    let (o, timing) ← writeTiming key o op.latency now initialDelay
    modify fun s => s.setObject key o
    pure (some timing)

/-- Take an object out of memory. -/
def leaveMemory (key : κ) (o : StoreObject T) (now : T) (s : MooncakeStore κ T) :
    MooncakeStore κ T :=
  updateStats (fun st => { st with evictionCount := st.evictionCount + 1 })
    { s with
      memoryLru := s.memoryLru.erase key
      memoryUsedBytes := s.memoryUsedBytes - o.bytes
      removals := s.removals ++ [⟨key, o, now⟩] }

/-- Evict one key from memory, to the tier if there is one. -/
def evictMemory (key : κ) (now : T) : StoreM κ T (StoreWriteTiming T) := do
  let s ← get
  match s.objects.get? key with
  | none => do
    set { s with memoryLru := s.memoryLru.erase key }
    pure .zero
  | some o =>
    if o.tier ≠ .memory then do
      set { s with memoryLru := s.memoryLru.erase key }
      pure .zero
    else
      match cfg.offload with
      | some tierCfg => do
        let o' := { o with tier := .offload }
        set ((s.leaveMemory key o now).setObject key o')
        if s.offload.contains key then pure .zero
        else do
          let timing ← writeThrough cfg tierCfg key o' now 0
          pure (timing.getD .zero)
      | none => do
        set { s.leaveMemory key o now with objects := s.objects.erase key }
        pure .zero

/-- The first key in LRU order whose object is not busy. -/
def memoryCandidate (now : T) : List κ → Except Err (Option κ)
  | [] => pure none
  | key :: rest => do
    let o ← (s.objects.get? key).orRaise .keyError
    if o.Busy now then memoryCandidate now rest else pure (some key)

/-- Evict until there is room.  Every round takes one key out of the LRU order, so
its size bounds the number of rounds. -/
def evictUntil (bytes : Nat) (now : T) :
    Nat → StoreWriteTiming T → StoreM κ T (Bool × StoreWriteTiming T)
  | 0, timing => do
    let s ← get
    pure (s.memoryUsedBytes + bytes ≤ cfg.memoryCapacityBytes, timing)
  | rounds + 1, timing => do
    let s ← get
    if s.memoryUsedBytes + bytes ≤ cfg.memoryCapacityBytes then pure (true, timing)
    else if cfg.evictionPolicy ≠ .lru ∨ s.memoryLru.keys = [] then pure (false, timing)
    else do
      match ← EStateM.ofExcept (s.memoryCandidate now s.memoryLru.keys) with
      | none => pure (false, timing)
      | some candidate => do
        let evicted ← evictMemory cfg candidate now
        evictUntil bytes now rounds (timing.add evicted)

/-- Evict until the bytes fit. -/
def ensureMemoryCapacity (bytes : Nat) (now : T) : StoreM κ T (Bool × StoreWriteTiming T) := do
  if cfg.memoryCapacityBytes < bytes then pure (false, .zero)
  else do
    let s ← get
    evictUntil cfg bytes now s.memoryLru.keys.length .zero

/-- A new object for one block. -/
def newObject (readyAt : T) : StoreObject T :=
  { blocks := 1, bytes := cfg.blockBytes, readyAt := readyAt, inUseUntil := 0 }

/-- Without room in memory a new object goes to the offload tier, or nowhere. -/
def putOffload (key : κ) (now initialDelay : T) (timing : StoreWriteTiming T) :
    StoreM κ T (StoreWriteTiming T) := do
  let reject : StoreM κ T Unit := modify (updateStats fun st =>
    { st with admissionRejectionCount := st.admissionRejectionCount + 1 })
  match cfg.offload with
  | none => do reject; pure timing
  | some tierCfg => do
    let o : StoreObject T := { newObject cfg (now + initialDelay) with tier := .offload }
    let op ← offloadWrite cfg tierCfg key o.blocks now
    if key ∈ op.evictedKeys then do reject; pure timing
    else do
      let (o, written) ←
        writeTiming key o op.latency now (initialDelay + timing.accountingLatency)
      modify (recordOffloadWrite now op)
      modify fun s => updateStats
        (fun st => { st with admissionCount := st.admissionCount + 1 }) (s.setObject key o)
      pure (timing.add written)

/-- Put a new object into memory. -/
def enterMemory (key : κ) (o : StoreObject T) (s : MooncakeStore κ T) : MooncakeStore κ T :=
  updateStats (fun st => { st with admissionCount := st.admissionCount + 1 })
    { s.setObject key o with
      memoryUsedBytes := s.memoryUsedBytes + o.bytes
      memoryLru := s.memoryLru.set key () }

/-- With room in memory a new object is also written through to the offload
tier. -/
def putMemory (key : κ) (now initialDelay : T) (timing : StoreWriteTiming T) :
    StoreM κ T (StoreWriteTiming T) := do
  let o : StoreObject T := newObject cfg (now + initialDelay + timing.accountingLatency)
  modify (enterMemory key o)
  match cfg.offload with
  | none => pure timing
  | some tierCfg => do
    match ← writeThrough cfg tierCfg key o now (initialDelay + timing.accountingLatency) with
    | none => pure timing
    | some written => pure (timing.add written)

/-- Write one key, or touch it if it is there. -/
def putOne (now initialDelay : T) (key : κ) : StoreM κ T (StoreWriteTiming T) := do
  let s ← get
  match s.objects.get? key with
  | some o => do
    set (s.touch key o)
    pure .zero
  | none => do
    let (hasRoom, timing) ← ensureMemoryCapacity cfg cfg.blockBytes now
    if hasRoom then putMemory cfg key now initialDelay timing
    else putOffload cfg key now initialDelay timing

/-- Write the keys in order, each after those before it. -/
def putAll (now initialDelay : T) :
    List κ → StoreWriteTiming T → StoreM κ T (StoreWriteTiming T)
  | [], timing => pure timing
  | key :: rest, timing => do
    let written ← putOne cfg now (initialDelay + timing.accountingLatency) key
    putAll now initialDelay rest (timing.add written)

/-- The batch can be made to fit by evicting. -/
def evictionPolicyAllowsBatch (blocks : Nat) : Bool :=
  cfg.evictionPolicy = .lru && blocks * cfg.blockBytes ≤ cfg.memoryCapacityBytes

/-- Touch a key that is in memory; it joins the LRU order if it is not there. -/
def settle (key : κ) : MooncakeStore κ T :=
  let s := if key ∈ s.memoryLru.keys then s else { s with memoryLru := s.memoryLru.set key () }
  match s.objects.get? key with
  | none => s
  | some o => s.touch key o

/-- Distinct keys, in the order of their first occurrences. -/
def distinct (keys : List κ) : List κ :=
  (OrderedDict.empty.update (keys.map fun key => (key, ()))).keys

/-- The keys of a batch that are not in the store. -/
def freshKeys (keys : List κ) : List κ :=
  keys.filter fun key => (s.objects.get? key).isNone

/-- Install a batch that fits without evicting. -/
def installBatch (selected : List κ) (now initialDelay : T) (s : MooncakeStore κ T) :
    MooncakeStore κ T :=
  let fresh := s.freshKeys selected
  let s := fresh.foldl (fun s key => s.setObject key (newObject cfg (now + initialDelay))) s
  let s := { s with memoryUsedBytes := s.memoryUsedBytes + fresh.length * cfg.blockBytes }
  let s := selected.foldl settle s
  updateStats (fun st => { st with admissionCount := st.admissionCount + fresh.length }) s

/-- `put_with_timing`: admission, the capacity check, then the writes. -/
def putWithTiming (keys : List κ) (blocks : Option Nat) (now initialDelay : T)
    (admissionPolicy : Option AdmissionPolicy) : StoreM κ T (StoreWriteTiming T) := do
  if admissionPolicy.getD cfg.admissionPolicy = .never ∨ keys = [] then do
    modify (updateStats fun st =>
      { st with admissionRejectionCount := st.admissionRejectionCount + keys.length })
    pure .zero
  else do
    modify (updateStats fun st => { st with putCount := st.putCount + 1 })
    let blocks := blocks.getD keys.length
    let s ← get
    let selected := distinct (keys.take blocks)
    -- large batches without an offload tier are installed without admission scans
    if cfg.offload.isNone ∧ 64 < blocks ∧ evictionPolicyAllowsBatch cfg blocks = true ∧
        s.memoryUsedBytes + (s.freshKeys selected).length * cfg.blockBytes ≤
          cfg.memoryCapacityBytes then do
      modify (installBatch cfg selected now initialDelay)
      pure .zero
    else putAll cfg now initialDelay (keys.take blocks) .zero

/-- `put`: the time the write blocks. -/
def put (keys : List κ) (blocks : Option Nat) (now initialDelay : T) : StoreM κ T T := do
  let timing ← putWithTiming cfg keys blocks now initialDelay none
  pure timing.blockingLatency

/-! ## Calls -/

/-- A call of the store. -/
inductive Call (κ T : Type) where
  | put (keys : List κ) (blocks : Option Nat) (now initialDelay : T)
  | putWithTiming (keys : List κ) (blocks : Option Nat) (now initialDelay : T)
      (admissionPolicy : Option AdmissionPolicy)
  | get (keys : List κ) (now initialDelay : T)
  | lookup (keys : List κ) (now : T)

/-- The time of a call. -/
def Call.now : Call κ T → T
  | .put _ _ now _ | .putWithTiming _ _ now _ _ | .get _ now _ | .lookup _ now => now

/-- The store after a call, whether it returned or raised. -/
def exec : Call κ T → MooncakeStore κ T
  | .put keys blocks now delay => (put cfg keys blocks now delay).finalState s
  | .putWithTiming keys blocks now delay policy =>
    (putWithTiming cfg keys blocks now delay policy).finalState s
  | .get keys now delay => (fetch cfg keys now delay).finalState s
  | .lookup keys now => (lookup keys now).finalState s

end MooncakeStore

end TokenSim
