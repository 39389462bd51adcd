import Mathlib.Logic.Function.Basic

/-!
# Blocks and errors

The state of one physical block of the KV cache, and the exceptions the
modelled code raises.  A block is named by its number: two blocks of one pool
are the same object exactly when their numbers agree.
-/

namespace TokenSim

/-- The exceptions of the modelled code, with their messages. -/
inductive Err where
  /-- `OutOfBlocksError`. -/
  | outOfBlocks (msg : String)
  /-- `SimulationStateError`. -/
  | simulationState (msg : String)
  /-- `ConfigurationError`. -/
  | configuration (msg : String)
  /-- `WorkloadValidationError`. -/
  | workloadValidation (msg : String)
  /-- A missing dictionary key. -/
  | keyError
  /-- `list.remove` of an absent element. -/
  | valueError
  /-- An access past the end of a list. -/
  | indexError
  /-- A division or remainder by zero. -/
  | zeroDivision
  /-- An integer that does not fit a machine word. -/
  | overflow
deriving DecidableEq, Repr

/-- The memory a block lives in. -/
inductive Device where
  | gpu
  | cpu
deriving DecidableEq, Repr

/-- The state of a block in the KV cache.  `κ` is the type of its hash. -/
structure PhysicalTokenBlock (κ : Type) where
  /-- The references held by request tables, reservations and transfers. -/
  refCount : Nat := 0
  /-- The prefix identity the block is, or will be, published under. -/
  blockHash : Option κ := none
  isFull : Bool := false
  /-- The block is an entry of the prefix cache. -/
  cached : Bool := false
  lastAccessed : Nat := 0
deriving DecidableEq, Repr

namespace PhysicalTokenBlock

variable {κ : Type}

/-- A block that was never used. -/
def fresh : PhysicalTokenBlock κ := {}

instance : Inhabited (PhysicalTokenBlock κ) := ⟨fresh⟩

/-- Forget the prefix identity.  The references stay. -/
def clearCacheMetadata (b : PhysicalTokenBlock κ) : PhysicalTokenBlock κ :=
  { b with blockHash := none, isFull := false, cached := false, lastAccessed := 0 }

/-- Publish the block under a prefix identity. -/
def publishAs (b : PhysicalTokenBlock κ) (key : κ) : PhysicalTokenBlock κ :=
  { b with blockHash := some key, cached := true, isFull := true }

variable (b : PhysicalTokenBlock κ) (key : κ)

@[simp] theorem clearCacheMetadata_refCount : b.clearCacheMetadata.refCount = b.refCount := rfl

@[simp] theorem clearCacheMetadata_blockHash : b.clearCacheMetadata.blockHash = none := rfl

@[simp] theorem clearCacheMetadata_cached : b.clearCacheMetadata.cached = false := rfl

@[simp] theorem publishAs_refCount : (b.publishAs key).refCount = b.refCount := rfl

@[simp] theorem publishAs_blockHash : (b.publishAs key).blockHash = some key := rfl

@[simp] theorem publishAs_cached : (b.publishAs key).cached = true := rfl

end PhysicalTokenBlock

end TokenSim
