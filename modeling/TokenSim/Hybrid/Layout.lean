import Mathlib.Data.List.Nodup

/-!
# The layout of the hybrid cache

The layers of a model are packed into cache groups.  A full-attention group
keeps every page of a request; a sliding-window group keeps the pages that
overlap the last `windowTokens` tokens.  All groups share one pool of slots,
and one page of a group takes one slot.

Page widths differ between groups.  The logical block, at whose boundaries
prefixes are matched, is a common multiple of all of them, and the full groups'
own page width.  Page bytes and the layers inside a group play no role for the
slots and are left out.
-/

namespace TokenSim

/-- `ceil(value / divisor)`. -/
def cdiv (value divisor : Nat) : Nat := (value + divisor - 1) / divisor

inductive CacheKind where
  | full
  | window
deriving DecidableEq, Repr

/-- One group of layers whose pages are allocated together. -/
structure CacheGroup where
  groupId : Nat
  kind : CacheKind
  /-- Tokens of one page. -/
  blockTokens : Nat
  /-- The sliding window; zero for full attention. -/
  windowTokens : Nat
  /-- The group holds draft layers, which need one page past a boundary. -/
  eagle : Bool
deriving DecidableEq, Repr

namespace CacheGroup

/-- Pages before a boundary that a hit needs of a window group. -/
def hitTailSlots (g : CacheGroup) : Nat :=
  if g.windowTokens = 0 then 0 else cdiv (g.windowTokens - 1) g.blockTokens + g.eagle.toNat

/-- The first page that overlaps the window of the next token. -/
def windowStart (g : CacheGroup) (computed : Nat) : Nat :=
  if computed > g.windowTokens - 1 then (computed - (g.windowTokens - 1)) / g.blockTokens else 0

end CacheGroup

/-- The groups of a model and the widths they agree on. -/
structure HybridKVLayout where
  groups : List CacheGroup
  logicalBlockTokens : Nat
  retentionInterval : Nat
  speculativeTokens : Nat
  maxInFlightTokens : Nat
  maxModelLen : Nat
  /-- Groups are numbered. -/
  ids_nodup : (groups.map CacheGroup.groupId).Nodup := by decide
  logical_pos : 0 < logicalBlockTokens := by decide
  /-- Retention is zero or a multiple of the logical block. -/
  retention_dvd : logicalBlockTokens ∣ retentionInterval := by decide
  /-- The logical block is a common multiple of the page widths. -/
  tokens_dvd : ∀ g ∈ groups, g.blockTokens ∣ logicalBlockTokens := by decide
  /-- Full groups have pages of one logical block. -/
  full_tokens : ∀ g ∈ groups, g.kind = .full → g.blockTokens = logicalBlockTokens := by decide
  /-- Exactly the window groups have a window. -/
  full_iff : ∀ g ∈ groups, g.kind = .full ↔ g.windowTokens = 0 := by decide
  has_full : ∃ g ∈ groups, g.kind = .full := by decide

namespace HybridKVLayout

variable (L : HybridKVLayout)

/-- The first full group, at whose pages prefixes are matched. -/
def fullGroup : CacheGroup :=
  (L.groups.find? fun g => g.kind = .full).get (by
    obtain ⟨g, hg, hk⟩ := L.has_full
    exact List.find?_isSome.mpr ⟨g, hg, by simpa using hk⟩)

/-- Every tail run of a window group fits in one retention segment. -/
def tailsFitSegments : Bool :=
  L.retentionInterval = 0 ∨
    ∀ g ∈ L.groups, g.hitTailSlots * g.blockTokens ≤ L.retentionInterval

theorem fullGroup_find : L.groups.find? (fun g => g.kind = .full) = some L.fullGroup :=
  (Option.some_get _).symm

theorem fullGroup_mem : L.fullGroup ∈ L.groups := List.mem_of_find?_eq_some L.fullGroup_find

theorem fullGroup_kind : L.fullGroup.kind = .full := by
  simpa using List.find?_some L.fullGroup_find

theorem fullGroup_blockTokens : L.fullGroup.blockTokens = L.logicalBlockTokens :=
  L.full_tokens _ L.fullGroup_mem L.fullGroup_kind

theorem fullGroup_windowTokens : L.fullGroup.windowTokens = 0 :=
  (L.full_iff _ L.fullGroup_mem).mp L.fullGroup_kind

variable {L}

theorem blockTokens_pos {g : CacheGroup} (hg : g ∈ L.groups) : 0 < g.blockTokens :=
  Nat.pos_of_dvd_of_pos (L.tokens_dvd g hg) L.logical_pos

theorem blockTokens_of_no_window {g : CacheGroup} (hg : g ∈ L.groups) (hw : g.windowTokens = 0) :
    g.blockTokens = L.logicalBlockTokens :=
  L.full_tokens g hg ((L.full_iff g hg).mpr hw)

theorem eq_of_groupId {g g' : CacheGroup} (hg : g ∈ L.groups) (hg' : g' ∈ L.groups)
    (h : g.groupId = g'.groupId) : g = g' :=
  List.inj_on_of_nodup_map L.ids_nodup hg hg' h

end HybridKVLayout

end TokenSim
