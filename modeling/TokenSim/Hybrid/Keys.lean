import TokenSim.Hybrid.Layout
import TokenSim.Lib.Raising
import TokenSim.Request

/-!
# Slot keys

A page of a group is identified by a slot key: the group, the key of the block
that contains the end of the page, and the ordinal of the page inside that
block.  Blocks are engine blocks, or trace blocks for groups whose pages are
shorter than an engine block when the workload supplies hashes at trace
granularity.

The source keeps the block keys of a request in a memo and extends it when the
context has grown.  The keys are a function of the request alone
(`extendContextKeys_extend`), so the memo is left out.
-/

namespace TokenSim

open List

/-- What a manager is built from. -/
structure HybridConfig where
  layout : HybridKVLayout
  numSlots : Nat
  model : String
  /-- The hexadecimal digest of a text. -/
  sha256 : String → String
  watermarkBlocks : Nat
  /-- The pool needs a null slot and usable slots. -/
  slots_ok : 2 ≤ numSlots

/-- The identity of a page. -/
structure SlotKey where
  groupId : Nat
  key : BlockKey
  ordinal : Nat
deriving DecidableEq, Repr

/-- The key of known content, if it is one. -/
def BlockKey.prompt? : BlockKey → Option PrefixCacheKey
  | .prompt key => some key
  | .requestLocal _ => none

namespace HybridConfig

variable (cfg : HybridConfig)

def blockSize : Nat := cfg.layout.logicalBlockTokens

theorem blockSize_pos : 0 < cfg.blockSize := cfg.layout.logical_pos

/-- The hash of everything besides the content that two requests must share. -/
def extraHash (r : Request) : String :=
  makeExtraHash cfg.sha256 cfg.model r.cacheSalt r.reuseGroup

/-- Extend block keys to the whole context.  Known prompt hashes stay
shareable; everything past them gets an identity of the request's own,
including a block that mixes the prompt's tail with generated tokens. -/
def extendContextKeys (r : Request) (keys : List BlockKey) (blockTokens : Nat) : List BlockKey :=
  let blocks := r.contextLen / blockTokens
  if keys.length < blocks then
    let parent := keys.reverse.findSome? BlockKey.prompt?
    keys ++ (List.range' keys.length (blocks - keys.length)).map fun index =>
      .requestLocal ⟨r.cacheIdentity, blockTokens, index, parent, cfg.extraHash r⟩
  else keys

/-- The keys of the prompt blocks whose hashes are known. -/
def promptKeys (r : Request) (hashes : List HashId) (blockTokens : Nat) : List BlockKey :=
  (buildPrefixKeys cfg.sha256 (hashes.take (r.prefillLen / blockTokens)) cfg.model r.cacheSalt
    r.reuseGroup).map .prompt

/-- The keys of the engine blocks. -/
def inputKeys (r : Request) : List BlockKey :=
  cfg.extendContextKeys r (cfg.promptKeys r (r.hashIds.getD []) cfg.blockSize) cfg.blockSize

/-- The keys of the trace blocks. -/
def fineInputKeys (r : Request) (hashes : List HashId) : Except Err (List BlockKey) :=
  if r.traceBlockSize = 0 then throw .zeroDivision
  else pure (cfg.extendContextKeys r (cfg.promptKeys r hashes r.traceBlockSize) r.traceBlockSize)

/-- The key of a page inside an engine block, unless the block is not known. -/
def coarseSlotKey (g : CacheGroup) (index : Nat) (keys : List BlockKey) : Option SlotKey :=
  let containing := ((index + 1) * g.blockTokens - 1) / cfg.blockSize
  keys[containing]?.map fun key => ⟨g.groupId, key, index % (cfg.blockSize / g.blockTokens)⟩

/-- The key of a page inside a trace block.  The remainder raises when a page
is longer than a trace block. -/
def fineSlotKey (g : CacheGroup) (index : Nat) (fine : List BlockKey) (traceSize : Nat) :
    Except Err (Option SlotKey) :=
  let containing := ((index + 1) * g.blockTokens - 1) / traceSize
  match fine[containing]? with
  | none => pure none
  | some key =>
    if traceSize / g.blockTokens = 0 then throw .zeroDivision
    else pure (some ⟨g.groupId, key, index % (traceSize / g.blockTokens)⟩)

/-- The key of page `index` of a group, `none` while it is not known. -/
def slotKey (r : Request) (g : CacheGroup) (index : Nat) : Except Err (Option SlotKey) :=
  match r.traceHashIds with
  | some hashes =>
    if g.blockTokens < cfg.blockSize then do
      let fine ← cfg.fineInputKeys r hashes
      fineSlotKey g index fine r.traceBlockSize
    else pure (cfg.coarseSlotKey g index (cfg.inputKeys r))
  | none => pure (cfg.coarseSlotKey g index (cfg.inputKeys r))

/-! ## The memo of block keys -/

/-- A request in which only the progress of the computation has moved. -/
structure Extends (r r' : Request) : Prop where
  prefillLen : r'.prefillLen = r.prefillLen
  cacheIdentity : r'.cacheIdentity = r.cacheIdentity
  hashIds : r'.hashIds = r.hashIds
  traceHashIds : r'.traceHashIds = r.traceHashIds
  traceBlockSize : r'.traceBlockSize = r.traceBlockSize
  cacheSalt : r'.cacheSalt = r.cacheSalt
  reuseGroup : r'.reuseGroup = r.reuseGroup
  contextLen : r.contextLen ≤ r'.contextLen

theorem length_extendContextKeys (r : Request) (keys : List BlockKey) (blockTokens : Nat) :
    (cfg.extendContextKeys r keys blockTokens).length =
      max keys.length (r.contextLen / blockTokens) := by
  unfold extendContextKeys
  dsimp only
  split
  · simp only [length_append, length_map, length_range']
    omega
  · omega

/-- Extending the keys of a shorter context is building the keys afresh. -/
theorem extendContextKeys_extend {r r' : Request} (h : Extends r r') (keys : List BlockKey)
    (blockTokens : Nat) :
    cfg.extendContextKeys r' (cfg.extendContextKeys r keys blockTokens) blockTokens =
      cfg.extendContextKeys r' keys blockTokens := by
  have hle : r.contextLen / blockTokens ≤ r'.contextLen / blockTokens :=
    Nat.div_le_div_right h.contextLen
  have hextra : cfg.extraHash r' = cfg.extraHash r := by
    rw [extraHash, extraHash, h.cacheSalt, h.reuseGroup]
  -- request-private keys never become the parent of later ones
  have hparent : ∀ (l : List Nat) (f : Nat → RequestLocalPrefixKey),
      (keys ++ l.map fun i => BlockKey.requestLocal (f i)).reverse.findSome? BlockKey.prompt? =
        keys.reverse.findSome? BlockKey.prompt? := by
    intro l f
    rw [reverse_append, findSome?_append]
    have hnone : (l.map fun i => BlockKey.requestLocal (f i)).reverse.findSome?
        BlockKey.prompt? = none := by
      rw [findSome?_eq_none_iff]
      intro k hk
      obtain ⟨i, -, rfl⟩ := mem_map.mp (mem_reverse.mp hk)
      rfl
    rw [hnone]
    rfl
  by_cases hlt : keys.length < r.contextLen / blockTokens
  · have hlt' : keys.length < r'.contextLen / blockTokens := by omega
    have hr : cfg.extendContextKeys r keys blockTokens =
        keys ++ (List.range' keys.length (r.contextLen / blockTokens - keys.length)).map
          fun index => .requestLocal ⟨r.cacheIdentity, blockTokens, index,
            keys.reverse.findSome? BlockKey.prompt?, cfg.extraHash r⟩ := by
      rw [extendContextKeys]; exact if_pos hlt
    have hr' : cfg.extendContextKeys r' keys blockTokens =
        keys ++ (List.range' keys.length (r'.contextLen / blockTokens - keys.length)).map
          fun index => .requestLocal ⟨r.cacheIdentity, blockTokens, index,
            keys.reverse.findSome? BlockKey.prompt?, cfg.extraHash r⟩ := by
      rw [extendContextKeys, h.cacheIdentity, hextra]; exact if_pos hlt'
    have hlen : (cfg.extendContextKeys r keys blockTokens).length =
        r.contextLen / blockTokens := by
      rw [length_extendContextKeys]; omega
    rw [hr']
    conv_lhs => rw [extendContextKeys]
    dsimp only
    rw [hlen]
    split
    · rw [hr, hparent, h.cacheIdentity, hextra, append_assoc, ← map_append]
      congr 2
      have hsplit := range'_append_1 (s := keys.length)
        (m := r.contextLen / blockTokens - keys.length)
        (n := r'.contextLen / blockTokens - r.contextLen / blockTokens)
      rw [show keys.length + (r.contextLen / blockTokens - keys.length) =
        r.contextLen / blockTokens by omega] at hsplit
      rw [hsplit]
      congr 1
      omega
    · rw [hr, show r.contextLen / blockTokens = r'.contextLen / blockTokens by omega]
  · rw [show cfg.extendContextKeys r keys blockTokens = keys by
      rw [extendContextKeys]; exact if_neg hlt]

end HybridConfig

end TokenSim
