import TokenSim.Hybrid.Manager
import TokenSim.Lib.Runs

/-!
# The hybrid manager and its callers

The scheduler, the workers and the transfer connector drive the manager.  This
module models the orders in which they call it.

* A request is admitted by `allocate`.  Its computation then starts at the end
  of the local prefix; or after an import, at the end of the external prefix;
  or, when its KV was received from another worker, further on.
* `ensureSlots` is called only when `canEnsureSlots` allows it.  The computed
  position moves up to what was ensured, the context grows by generated tokens,
  and `cacheComputed` may be called whenever the tables cover the computed
  tokens.
* A request may be released at any time, also while an import is under way
  (cancellation) and with the intention to admit it again (preemption).
* Plans may be asked for at any time, and transfers pin and unpin any slot.

A `World` is the manager with the requests and, for each of them, how far its
callers have taken it.
-/

namespace TokenSim

/-- Where the computation of a request took up. -/
inductive Origin where
  /-- At the end of the local prefix. -/
  | localPrefix
  /-- At the end of an imported prefix. -/
  | imported
  /-- Past the prefix: the KV in between was received from another worker. -/
  | handedOver
deriving DecidableEq, Repr

/-- How far the callers have taken a request. -/
inductive Phase where
  | absent
  /-- Allocated with a local prefix of `hit` tokens. -/
  | admitted (hit : Nat)
  /-- External pages up to `boundary` are being written to `targets`. -/
  | loading (targets : List Destination) (boundary : Nat)
  /-- Computing.  Slots were last ensured at computed position `ensuredAt`, and
  `reach` is the largest end ensured so far. -/
  | active (origin : Origin) (ensuredAt reach : Nat)
deriving DecidableEq

structure World where
  mgr : HybridKVBlockManager
  reqs : Nat → Request
  phase : Nat → Phase

/-- A call of the manager, or progress of a request between two calls. -/
inductive Op where
  | plan (rid : Nat)
  | allocate (rid : Nat)
  /-- Start computing at `position`. -/
  | start (rid position : Nat)
  /-- Reserve pages for what an external store holds after the local prefix. -/
  | beginImport (rid : Nat) (lookup : SlotKey → Bool)
  | finishImport (rid : Nat)
  | ensureSlots (rid scheduledTokens lookahead : Nat)
  /-- Tokens up to `position` are computed. -/
  | advance (rid position : Nat)
  /-- The context grows by generated tokens. -/
  | generate (rid tokens : Nat)
  | cacheComputed (rid : Nat)
  | release (rid : Nat)
  | pin (slot : Nat)
  | unpin (slot : Nat)

namespace World

variable (cfg : HybridConfig)

/-- A world before any call, with requests named by their ids. -/
def init (reqs : Nat → Request) : World := ⟨.init cfg, reqs, fun _ => .absent⟩

/-- Replace the manager and the state of one request. -/
def put (w : World) (m : HybridKVBlockManager) (rid : Nat) (r : Request) (phase : Phase) : World :=
  ⟨m, Function.update w.reqs rid r, Function.update w.phase rid phase⟩

section Put

variable (w : World) (m : HybridKVBlockManager) (rid : Nat) (r : Request) (phase : Phase)

@[simp] theorem put_mgr : (w.put m rid r phase).mgr = m := rfl

@[simp] theorem put_reqs_self : (w.put m rid r phase).reqs rid = r := Function.update_self ..

@[simp] theorem put_phase_self : (w.put m rid r phase).phase rid = phase :=
  Function.update_self ..

variable {w m rid r phase} {i : Nat}

@[simp] theorem put_reqs_of_ne (h : i ≠ rid) : (w.put m rid r phase).reqs i = w.reqs i :=
  Function.update_of_ne h ..

@[simp] theorem put_phase_of_ne (h : i ≠ rid) : (w.put m rid r phase).phase i = w.phase i :=
  Function.update_of_ne h ..

end Put

/-- One step, if the callers take it in this state and it does not raise. -/
def step (w : World) : Op → Option World
  | .plan rid => do
    let (m, r, _) ← (w.mgr.planReuse cfg (w.reqs rid)).toOption
    some (w.put m rid r (w.phase rid))
  | .allocate rid =>
    match w.phase rid with
    | .absent => do
      let (m, r) ← (w.mgr.allocate cfg (w.reqs rid)).toOption
      some (w.put m rid r (.admitted r.gpuCachedContextTokens))
    | _ => none
  | .start rid position =>
    match w.phase rid with
    | .admitted hit =>
      if hit ≤ position then
        let r := (w.reqs rid).startContextBuild position
        some (w.put w.mgr rid r (.active
          (if r.numComputedTokens = hit then .localPrefix else .handedOver)
          r.numComputedTokens hit))
      else none
    | _ => none
  | .beginImport rid lookup =>
    match w.phase rid with
    | .admitted hit => do
      let (boundary, hits) ← (planExternalReuse cfg (w.reqs rid) lookup hit).toOption
      if hits = [] then none
      else do
        let (m, targets) ←
          (w.mgr.allocateExternalDestinations cfg (w.reqs rid) hits).toOption
        some (w.put m rid (w.reqs rid) (.loading targets boundary))
    | _ => none
  | .finishImport rid =>
    match w.phase rid with
    | .loading targets boundary =>
      let r := (w.reqs rid).startContextBuild boundary
      some (w.put (w.mgr.finishExternalImport cfg (w.reqs rid) targets boundary) rid r
        (.active .imported r.numComputedTokens boundary))
    | _ => none
  | .ensureSlots rid scheduledTokens lookahead =>
    match w.phase rid with
    | .active origin _ reach => do
      let r := w.reqs rid
      let able ← (w.mgr.canEnsureSlots cfg r scheduledTokens lookahead).toOption
      if able then do
        let m ← (w.mgr.ensureSlots cfg r scheduledTokens lookahead).toOption
        some (w.put m rid r (.active origin r.numComputedTokens
          (max reach (HybridKVBlockManager.stepEnd cfg r scheduledTokens lookahead))))
      else none
    | _ => none
  | .advance rid position =>
    match w.phase rid with
    | .active _ _ reach =>
      if (w.reqs rid).numComputedTokens ≤ position ∧ position ≤ reach then
        some (w.put w.mgr rid { w.reqs rid with numComputedTokens := position } (w.phase rid))
      else none
    | _ => none
  | .generate rid tokens =>
    some (w.put w.mgr rid { w.reqs rid with
      generationIdx := (w.reqs rid).generationIdx + tokens
      logicalTokens := (w.reqs rid).logicalTokens + tokens } (w.phase rid))
  | .cacheComputed rid =>
    match w.phase rid with
    | .active _ _ reach =>
      if (w.reqs rid).numComputedTokens ≤ reach then do
        let (m, r) ← (w.mgr.cacheComputed cfg (w.reqs rid)).toOption
        some (w.put m rid r (w.phase rid))
      else none
    | _ => none
  | .release rid => do
    let (m, r) ← (w.mgr.releaseRequestBlocks (w.reqs rid)).toOption
    some (w.put m rid r .absent)
  | .pin slot =>
    if slot < cfg.numSlots then do
      let m ← (w.mgr.pinTransfer slot).toOption
      some { w with mgr := m }
    else none
  | .unpin slot => do
    let m ← (w.mgr.unpinTransfer slot).toOption
    some { w with mgr := m }

/-- Requests as they arrive: each under its id, and no plan has noted a shared
prefix yet. -/
structure Arriving (reqs : Nat → Request) : Prop where
  id : ∀ rid, (reqs rid).id = rid
  shared : ∀ rid, (reqs rid).sharedPrefixBoundaries = []

/-- A world that some run reaches from the start. -/
def Reachable (w : World) : Prop :=
  ∃ reqs : Nat → Request, Arriving reqs ∧
    Reaches (step cfg) (fun _ _ => True) (init cfg reqs) w

theorem Reachable.step {cfg : HybridConfig} {w w' : World} {op : Op} (h : Reachable cfg w)
    (hs : World.step cfg w op = some w') : Reachable cfg w' := by
  obtain ⟨reqs, hreqs, hrun⟩ := h
  exact ⟨reqs, hreqs, .tail hrun trivial hs⟩

end World

/-! ## Samples -/

/-- The SHA-256 digests of the texts that are hashed for the sample requests:
the extra hash, the root and the three blocks of the chain. -/
def sampleDigests : List (String × String) :=
  let extra := "d853b58ee52e9466c306b70e85d70776302f05b26b2c3dcf42c6d6875115839e"
  let root := "4b03e67cdee2b07600de1f79270a3d1aaf02084153fb442689d4ae22e95f89ec"
  let first := "f7be0055f14b1a45a142ac9b49a9dd28a5fb29d5833f7fe0d2111c28b7f2d500"
  let second := "96359a062bb289018dd58b5b97f1e9620c33fa8c5b5e81ecdb9783398a8e19e4"
  let third := "7e636393135507602ed6a18ac97e930faa28a33e5447b36115b1b24fd218d1c5"
  [(extraPayload "m" none none, extra), (rootPayload extra, root),
    (chainPayload root "1" extra, first), (chainPayload first "2" extra, second),
    (chainPayload second "3" extra, third)]

def sampleSha256 (text : String) : String :=
  ((sampleDigests.find? fun e => e.1 = text).map Prod.snd).getD ""

/-- One full-attention group, which holds draft layers. -/
def draftLayout : HybridKVLayout where
  groups := [⟨0, .full, 1, 0, true⟩]
  logicalBlockTokens := 1
  retentionInterval := 0
  speculativeTokens := 1
  maxInFlightTokens := 8
  maxModelLen := 16

/-- Full attention in pages of two tokens, and a window of three tokens in pages
of one token. -/
def windowLayout : HybridKVLayout where
  groups := [⟨0, .full, 2, 0, false⟩, ⟨1, .window, 1, 3, false⟩]
  logicalBlockTokens := 2
  retentionInterval := 4
  speculativeTokens := 0
  maxInFlightTokens := 8
  maxModelLen := 16

/-- Twelve slots. -/
def sampleConfig (layout : HybridKVLayout) : HybridConfig :=
  ⟨layout, 12, "m", sampleSha256, 0, by decide⟩

/-- Requests that share a prompt of four blocks, of which three are known. -/
def sampleRequest (cfg : HybridConfig) (rid : Nat) : Request where
  id := rid
  prefillLen := 4 * cfg.blockSize
  decodeLen := 2
  blockSize := cfg.blockSize
  cacheIdentity := rid
  hashIds := some [.int 1, .int 2, .int 3]

theorem sampleRequest_arriving (cfg : HybridConfig) : World.Arriving (sampleRequest cfg) :=
  ⟨fun _ => rfl, fun _ => rfl⟩

def World.sample (layout : HybridKVLayout) : World :=
  .init (sampleConfig layout) (sampleRequest (sampleConfig layout))

theorem World.exists_reachable (layout : HybridKVLayout) (ops : List Op) (P : World → Prop)
    [DecidablePred P] (h : (runActions (World.step (sampleConfig layout)) (fun _ _ => True)
      (World.sample layout) ops).any (P ·) = true) :
    ∃ w, World.Reachable (sampleConfig layout) w ∧ P w := by
  obtain ⟨w, hw, hP⟩ := exists_reaches _ _ _ ops P h
  exact ⟨w, ⟨_, sampleRequest_arriving _, hw⟩, hP⟩

end TokenSim
