import Mathlib.Algebra.Order.Ring.Rat
import Mathlib.Data.List.Sort
import Mathlib.Data.Prod.Lex
import Mathlib.Data.String.Basic
import Mathlib.Data.Sum.Order
import TokenSim.Lib.Runs

/-!
# Atomic reservations of communication resources

A request names resource keys and waits until it may take all of them at once.  Each
key has a queue ordered by priority, that is by arrival time and then by the stable
identity of the request.  A waiting request that is cancelled stays in the queues
until it comes to the front of one.

`arbitrate` does not look at every waiter.  It looks at the fronts of the keys that
were marked dirty since it last ran, and grants those that are at the front of all
their keys while the keys are free.

A request object is represented by the serial number it is queued with.  A grant takes
the priority of the request out of a set and raises a `KeyError` when it is not there,
which ends the simulation; `none` is this outcome.
-/

namespace TokenSim

open Function (update)

namespace Af

/-- A component of the identity a caller gives. -/
inductive IdentityPart where
  | int (n : Int)
  | str (s : String)
  | other
  deriving DecidableEq, Repr

/-- The pairs of type name and value, ordered as Python orders them: `"int"` comes
before `"str"`. -/
abbrev StableIdentity := List (Int ⊕ₗ String)

def IdentityPart.stable : IdentityPart → Option (Int ⊕ₗ String)
  | .int n => some (toLex (.inl n))
  | .str s => some (toLex (.inr s))
  | .other => none

/-- Arrival time and stable identity, in lexicographic order. -/
abbrev Priority := ℚ ×ₗ StableIdentity

/-- What the heaps hold: the priority, the serial number and with it the request. -/
abbrev QueueEntry := Priority ×ₗ Nat

structure DomainRequest (κ : Type) where
  keys : List κ
  priority : Priority
  /-- `event.triggered` -/
  triggered : Bool := false
  acquired : Bool := false
  cancelled : Bool := false

structure DomainScheduler (κ : Type) where
  resourceIds : List κ
  owners : κ → Option Nat
  /-- The request objects made so far, under their serial numbers. -/
  requests : Nat → DomainRequest κ
  waiters : List Nat
  priorities : List Priority
  resourceQueues : κ → List QueueEntry
  dirtyQueueKeys : List κ
  serial : Nat
  /-- An arbitration is among the scheduled events. -/
  scheduled : Bool

/-- A loop over keys that changes the entry of each in a dictionary. -/
def eachKey {κ α : Type} [DecidableEq κ] (keys : List κ) (change : α → α) (entries : κ → α) : κ → α :=
  keys.foldl (fun entries key => update entries key (change (entries key))) entries

namespace DomainScheduler

variable {κ : Type} [LinearOrder κ]

/-- `DomainScheduler(env, resource_ids)`. -/
def init (resourceIds : List κ) : DomainScheduler κ where
  resourceIds := resourceIds
  owners := fun _ => none
  requests := fun _ => { keys := [], priority := toLex (0, []) }
  waiters := []
  priorities := []
  resourceQueues := fun _ => []
  dirtyQueueKeys := []
  serial := 0
  scheduled := false

variable (s : DomainScheduler κ)

def keys (id : Nat) : List κ :=
  (s.requests id).keys

/-- The entry a request is queued with. -/
def entry (id : Nat) : QueueEntry :=
  toLex ((s.requests id).priority, id)

/-- Assign to fields of a request object. -/
def modifyRequest (id : Nat) (f : DomainRequest κ → DomainRequest κ) : DomainScheduler κ :=
  { s with requests := update s.requests id (f (s.requests id)) }

def wake : DomainScheduler κ :=
  { s with scheduled := true }

/-! ## Requests -/

/-- `tuple(sorted(set(keys)))`. -/
def sortedKeys (keys : List κ) : List κ :=
  keys.dedup.insertionSort (· ≤ ·)

/-- `repr` of a tuple, from those of its elements. -/
def tupleText : List String → String
  | [] => "()"
  | [part] => "(" ++ part ++ ",)"
  | parts => "(" ++ ", ".intercalate parts ++ ")"

/-- `request(keys, identity)` at time `now`: the serial number of the new request. -/
def request [ToString κ] (now : ℚ) (keys : List κ) (identity : List IdentityPart) :
    Except String (Nat × DomainScheduler κ) :=
  let keys := sortedKeys keys
  if keys = [] ∨ ¬ keys ⊆ s.resourceIds then
    .error ("invalid communication domain request: " ++ tupleText (keys.map toString))
  else
    match identity.mapM IdentityPart.stable with
    | none => .error "domain request identity must contain stable integer/string components"
    | some stableIdentity =>
      let priority : Priority := toLex (now, stableIdentity)
      if s.priorities.any (· = priority) then
        .error "concurrent domain requests need unique stable logical identities"
      else
        let id := s.serial + 1
        let queued : DomainScheduler κ :=
          { s with
            requests := update s.requests id { keys := keys, priority := priority }
            waiters := s.waiters ++ [id]
            priorities := priority :: s.priorities
            serial := id
            dirtyQueueKeys := s.dirtyQueueKeys ∪ keys
            -- `heapq.heappush`
            resourceQueues :=
              eachKey keys (List.orderedInsert (· ≤ ·) (toLex (priority, id))) s.resourceQueues }
        .ok (id, queued.wake)

/-! ## Arbitration -/

/-- `while queue and queue[0][2].cancelled: heapq.heappop(queue)`. -/
def purge (key : κ) : DomainScheduler κ :=
  { s with
    resourceQueues :=
      update s.resourceQueues key
        ((s.resourceQueues key).dropWhile fun e => (s.requests (ofLex e).2).cancelled) }

/-- `_front(key)`. -/
def front (key : κ) : Option Nat × DomainScheduler κ :=
  (((s.purge key).resourceQueues key).head?.map fun e => (ofLex e).2, s.purge key)

/-- The fronts of the changed keys, each request once. -/
def candidates : List κ → DomainScheduler κ → List Nat × DomainScheduler κ
  | [], s => ([], s)
  | key :: rest, s =>
    let (found, s) := s.front key
    let (others, s) := candidates rest s
    (match found with
      | none => others
      | some id => others.insert id, s)

/-- `any(key in self.owners or self._front(key) is not request for key in request.keys)`.
The fronts are looked at one after the other, up to the first key that blocks. -/
def blocked (id : Nat) : List κ → DomainScheduler κ → Bool × DomainScheduler κ
  | [], s => (false, s)
  | key :: rest, s =>
    if (s.owners key).isSome then (true, s)
    else
      let (found, s) := s.front key
      if found = some id then blocked id rest s else (true, s)

/-- The request gets its keys, leaves their queues and its event succeeds. -/
def granted (id : Nat) : DomainScheduler κ :=
  { s.modifyRequest id fun r => { r with acquired := true, triggered := true } with
    waiters := s.waiters.filter (· ≠ id)
    priorities := s.priorities.filter (· ≠ (s.requests id).priority)
    owners := eachKey (s.keys id) (fun _ => some id) s.owners
    resourceQueues := eachKey (s.keys id) List.tail s.resourceQueues }

/-- `self._priorities.remove(request.priority)` raises when another release took the
priority away. -/
def grant (id : Nat) : Option (DomainScheduler κ) :=
  if s.priorities.any (· = (s.requests id).priority) then some (s.granted id) else none

/-- One round of the loop over the candidates. -/
def consider (id : Nat) : Option (DomainScheduler κ) :=
  let (isBlocked, t) := blocked id (s.keys id) s
  if isBlocked then some t else t.grant id

/-- `_arbitrate`. -/
def arbitrate : Option (DomainScheduler κ) :=
  let (found, t) := candidates s.dirtyQueueKeys { s with scheduled := false, dirtyQueueKeys := [] }
  (found.insertionSort fun i j => (t.requests i).priority ≤ (t.requests j).priority).foldlM
    consider t

/-! ## Releases -/

/-- The keys of a request that has them become free. -/
def vacate (id : Nat) : DomainScheduler κ :=
  { s.modifyRequest id fun r => { r with acquired := false } with
    owners := eachKey (s.keys id) (fun owner => if owner = some id then none else owner) s.owners }

/-- A waiting request is withdrawn.  Its entries stay in the queues. -/
def cancel (id : Nat) : DomainScheduler κ :=
  { s.modifyRequest id fun r => { r with cancelled := true } with
    waiters := s.waiters.filter (· ≠ id)
    priorities := s.priorities.filter (· ≠ (s.requests id).priority) }

/-- `release(request)`: of a request that has its keys, or the cancellation of one
that waits for them. -/
def release (id : Nat) : DomainScheduler κ :=
  let released := if (s.requests id).acquired then s.vacate id else s.cancel id
  { released with dirtyQueueKeys := released.dirtyQueueKeys ∪ s.keys id }.wake

/-! ## Runs -/

inductive Event (κ : Type) where
  | request (now : ℚ) (keys : List κ) (identity : List IdentityPart)
  | arbitrate
  | release (id : Nat)

/-- A request that raises changes nothing, an arbitration runs when it has been
scheduled, and only request objects that were made can be released. -/
def step [ToString κ] (s : DomainScheduler κ) : Event κ → Option (DomainScheduler κ)
  | .request now keys identity =>
    match s.request now keys identity with
    | .ok (_, t) => some t
    | .error _ => some s
  | .arbitrate => if s.scheduled then s.arbitrate else none
  | .release id => if 1 ≤ id ∧ id ≤ s.serial then some (s.release id) else none

/-- Only a request that waits or has its keys is released, as `run` does: a second release
of one request is excluded. -/
def Live (s : DomainScheduler κ) : Event κ → Prop
  | .release id => id ∈ s.waiters ∨ (s.requests id).acquired = true
  | .request .. | .arbitrate => True

instance (s : DomainScheduler κ) : DecidablePred s.Live
  | .release _ => inferInstanceAs (Decidable (_ ∨ _))
  | .request .. | .arbitrate => .isTrue trivial

end DomainScheduler

end Af

end TokenSim
