import TokenSim.Block
import TokenSim.Lib.OrderedDict
import TokenSim.Lib.Raising

/-!
# The slot pool of the hybrid cache

One physical pool serves every cache group.  A slot is free when nothing
references it.  Free slots without a prefix identity live on a stack, whose
top is the end of the list; free slots that still hold a published page live
in an ordered map, oldest first, and are evicted in that order once the stack
is empty.

`cache` maps a slot key to the slot that answers lookups for it.  Several
requests may publish the same page concurrently; the later copies are kept in
`duplicates`, and evicting the primary promotes the oldest copy.

Slot `0` is the null block.  It is never free and never released.

`freeCached` and the inner maps of `duplicates` are ordered maps whose values
are determined by their keys; they are modelled by the lists of their keys.
The counters of allocations, releases, evictions and peak use are left out.
-/

namespace TokenSim

/-- Write a key into an ordered map that holds keys only: a key that is
present keeps its place. -/
def insertKey (l : List Nat) (k : Nat) : List Nat := if k ∈ l then l else l ++ [k]

/-- The physical slots, the free queue and the prefix map. -/
structure SlotPool (κ : Type) where
  /-- The block of each slot. -/
  blocks : Nat → PhysicalTokenBlock κ
  /-- Free slots without an identity; the last one is handed out first. -/
  freeUncached : List Nat
  /-- Free slots that hold a published page, least recently released first. -/
  freeCached : List Nat
  /-- The slot that answers lookups of a slot key. -/
  cache : OrderedDict κ Nat
  /-- The further copies of a published page, oldest first. -/
  duplicates : OrderedDict κ (List Nat)
  /-- Changes with every change of `cache`. -/
  cacheVersion : Nat

namespace SlotPool

variable {κ : Type}

/-- The pool of `n` slots before any use.  Slot `1` is the front of the queue. -/
def init (n : Nat) : SlotPool κ where
  blocks s := if s = 0 then { PhysicalTokenBlock.fresh with refCount := 1 } else .fresh
  freeUncached := (List.range' 1 (n - 1)).reverse
  freeCached := []
  cache := .empty
  duplicates := .empty
  cacheVersion := 0

variable (p : SlotPool κ)

/-- Replace the block of a slot. -/
def setBlock (s : Nat) (b : PhysicalTokenBlock κ) : SlotPool κ :=
  { p with blocks := Function.update p.blocks s b }

/-- Write the reference count of a slot. -/
def setRef (s c : Nat) : SlotPool κ :=
  p.setBlock s { p.blocks s with refCount := c }

def getNumFreeBlocks : Nat := p.freeUncached.length + p.freeCached.length

/-- Take one more reference to a slot, out of the free queue if need be. -/
def acquire (s : Nat) : Except Err (SlotPool κ) :=
  if (p.blocks s).refCount = 0 then
    if s ∈ p.freeCached then
      pure ({ p with freeCached := p.freeCached.erase s }.setRef s 1)
    else if s ∈ p.freeUncached then
      pure ({ p with freeUncached := p.freeUncached.erase s }.setRef s 1)
    else throw .valueError
  else pure (p.setRef s ((p.blocks s).refCount + 1))

/-- The loop of `_release_many`.  `uncached` collects the slots that go back
on the stack. -/
def releaseLoop : SlotPool κ → List Nat → List Nat → Except Err (SlotPool κ × List Nat)
  | p, uncached, [] => pure (p, uncached)
  | p, uncached, s :: rest =>
    if s = 0 ∨ (p.blocks s).refCount = 0 then
      throw (.simulationState "invalid hybrid slot release")
    else
      let p' := p.setRef s ((p.blocks s).refCount - 1)
      if (p.blocks s).refCount - 1 = 0 then
        if (p.blocks s).blockHash.isSome then
          releaseLoop { p' with freeCached := insertKey p.freeCached s } uncached rest
        else releaseLoop p' (uncached ++ [s]) rest
      else releaseLoop p' uncached rest

/-- Give up one reference of each slot, in order.  Slots without an identity
go to the top of the stack, the first one topmost. -/
def releaseMany (ordered : List Nat) : Except Err (SlotPool κ) := do
  let (p, uncached) ← p.releaseLoop [] ordered
  pure { p with freeUncached := p.freeUncached ++ uncached.reverse }

variable [DecidableEq κ]

/-- The copies of a page besides the primary one. -/
def copies (key : κ) : List Nat := (p.duplicates.get? key).getD []

/-- Write the copies of a page back; an empty map is dropped. -/
def setCopies (key : κ) (l : List Nat) : SlotPool κ :=
  { p with duplicates := if l = [] then p.duplicates.erase key else p.duplicates.set key l }

/-- Take a slot out of the prefix map under its own key, promoting the oldest
copy when the slot was the primary one. -/
def unmap (s : Nat) (key : κ) : SlotPool κ :=
  if p.cache.get? key = some s then
    match p.copies key with
    | first :: rest => { p with cache := p.cache.set key first }.setCopies key rest
    | [] => { p with cache := p.cache.erase key }.setCopies key []
  else p.setCopies key ((p.copies key).filter (· ≠ s))

/-- Forget the identity of a slot. -/
def evict (s : Nat) : SlotPool κ :=
  match (p.blocks s).blockHash with
  | none => p.setBlock s (p.blocks s).clearCacheMetadata
  | some key =>
    { p.unmap s key with cacheVersion := p.cacheVersion + 1 }.setBlock s
      (p.blocks s).clearCacheMetadata

/-- Claim slots that were just taken off the free queue. -/
def claim : SlotPool κ → List Nat → Except Err (SlotPool κ)
  | p, [] => pure p
  | p, s :: rest =>
    if (p.blocks s).refCount ≠ 0 then
      throw (.simulationState "free hybrid slot has live references")
    else
      let p := if (p.blocks s).blockHash.isSome ∨ (p.blocks s).cached then p.evict s else p
      claim (p.setRef s 1) rest

/-- Take `count` slots from the front of the free queue, in order. -/
def allocateMany (count : Nat) : Except Err (SlotPool κ × List Nat) :=
  if count = 0 then pure (p, [])
  else if count > p.getNumFreeBlocks then
    throw (.outOfBlocks "native hybrid shared pool exhausted")
  else do
    let take := min count p.freeUncached.length
    let keep := p.freeUncached.length - take
    let slots := (p.freeUncached.drop keep).reverse ++ p.freeCached.take (count - take)
    let p ← claim { p with
      freeUncached := p.freeUncached.take keep
      freeCached := p.freeCached.drop (count - take) } slots
    pure (p, slots)

/-- Enter a slot into the prefix map under a key: as the primary entry if the
key is new, else as a further copy. -/
def enter (s : Nat) (key : κ) : SlotPool κ :=
  let p' := p.setBlock s ((p.blocks s).publishAs key)
  match p.cache.get? key with
  | none => { p' with cache := p.cache.set key s }
  | some t => if t = s then p' else p'.setCopies key (insertKey (p.copies key) s)

/-- Publish a slot under a key.  An older identity of the slot is evicted
first.  The version changes when the key was not mapped before. -/
def publish (s : Nat) (key : κ) : SlotPool κ :=
  let p := if (p.blocks s).blockHash = some key then p else p.evict s
  let q := p.enter s key
  match p.cache.get? key with
  | none => { q with cacheVersion := p.cacheVersion + 1 }
  | some _ => q

/-! ## Field lemmas -/

section

variable (s c : Nat) (b : PhysicalTokenBlock κ) (key : κ) (l : List Nat)

@[simp] theorem setCopies_blocks : (p.setCopies key l).blocks = p.blocks := rfl

@[simp] theorem setCopies_cache : (p.setCopies key l).cache = p.cache := rfl

@[simp] theorem setCopies_freeUncached : (p.setCopies key l).freeUncached = p.freeUncached := rfl

@[simp] theorem setCopies_freeCached : (p.setCopies key l).freeCached = p.freeCached := rfl

omit [DecidableEq κ]

@[simp] theorem setBlock_blocks : (p.setBlock s b).blocks = Function.update p.blocks s b := rfl

@[simp] theorem setBlock_freeUncached : (p.setBlock s b).freeUncached = p.freeUncached := rfl

@[simp] theorem setBlock_freeCached : (p.setBlock s b).freeCached = p.freeCached := rfl

@[simp] theorem setBlock_cache : (p.setBlock s b).cache = p.cache := rfl

@[simp] theorem setBlock_duplicates : (p.setBlock s b).duplicates = p.duplicates := rfl

@[simp] theorem setRef_blocks :
    (p.setRef s c).blocks = Function.update p.blocks s { p.blocks s with refCount := c } := rfl

@[simp] theorem setRef_freeUncached : (p.setRef s c).freeUncached = p.freeUncached := rfl

@[simp] theorem setRef_freeCached : (p.setRef s c).freeCached = p.freeCached := rfl

@[simp] theorem setRef_cache : (p.setRef s c).cache = p.cache := rfl

@[simp] theorem setRef_duplicates : (p.setRef s c).duplicates = p.duplicates := rfl

end

theorem copies_setCopies (p : SlotPool κ) (key j : κ) (l : List Nat) :
    (p.setCopies key l).copies j = if j = key then l else p.copies j := by
  by_cases hl : l = [] <;> by_cases hj : j = key <;> simp [copies, setCopies, hl, hj]

end SlotPool

theorem mem_insertKey {l : List Nat} {k x : Nat} : x ∈ insertKey l k ↔ x ∈ l ∨ x = k := by
  by_cases h : k ∈ l
  · simp only [insertKey, if_pos h]
    exact ⟨Or.inl, fun hx => hx.elim id fun hxk => hxk ▸ h⟩
  · simp [insertKey, h]

theorem nodup_insertKey {l : List Nat} (hl : l.Nodup) (k : Nat) : (insertKey l k).Nodup := by
  by_cases h : k ∈ l
  · rw [insertKey, if_pos h]; exact hl
  · rw [insertKey, if_neg h]
    exact List.nodup_append.mpr ⟨hl, List.nodup_singleton k, fun a ha b hb hab => by
      rw [List.mem_singleton] at hb
      exact h (hb ▸ hab ▸ ha)⟩

end TokenSim
