import Mathlib.Data.Finset.Max
import Mathlib.Data.List.TakeWhile
import TokenSim.Af.DomainScheduler

/-!
# No lost wake-up in the domain scheduler

`Core` relates the queues, the owners and the flags of the request objects.  Under it
the front of a queue is the waiting request of smallest entry among those that name
the key (`Core.front_eq_some`), a fact about the waiters alone.  So an arbitration
may drop cancelled entries from the queues without changing any front.

`Woken` says what the dirty keys are for: a request that could be granted names a
dirty key, and an arbitration is scheduled while there are dirty keys.  A request and
a release mark all their keys, and they can only make a request grantable that shares
one of them.
-/

namespace TokenSim

open List Option

namespace Af

/-! ## Queues -/

theorem pairwise_lt_orderedInsert {α : Type} [LinearOrder α] {a : α} {l : List α}
    (h : l.Pairwise (· < ·)) (ha : a ∉ l) : (l.orderedInsert (· ≤ ·) a).Pairwise (· < ·) := by
  have hle : (l.orderedInsert (· ≤ ·) a).Pairwise (· ≤ ·) :=
    (h.imp le_of_lt).orderedInsert a l
  have hne : (l.orderedInsert (· ≤ ·) a).Nodup :=
    (l.perm_orderedInsert (· ≤ ·) a).nodup_iff.mpr (nodup_cons.mpr ⟨ha, h.imp ne_of_lt⟩)
  exact (hle.and hne).imp fun h => lt_of_le_of_ne h.1 h.2

theorem eachKey_apply {κ α : Type} [DecidableEq κ] {keys : List κ} (hnodup : keys.Nodup)
    (change : α → α) (entries : κ → α) (k : κ) :
    eachKey keys change entries k = if k ∈ keys then change (entries k) else entries k := by
  induction keys generalizing entries with
  | nil => rfl
  | cons key rest ih =>
    obtain ⟨hnot, hrest⟩ := nodup_cons.mp hnodup
    refine (ih hrest _).trans ?_
    by_cases hk : k = key
    · subst hk
      simp [hnot]
    · simp [hk]

namespace DomainScheduler

variable {κ : Type} {s t : DomainScheduler κ} {id : Nat}

variable {j : Nat} {k : κ}

theorem eq_of_entry_eq {i : Nat} (h : s.entry i = s.entry j) : i = j :=
  congrArg (fun e => (ofLex e).2) h

/-! ## Fronts -/

/-- The request has the smallest entry of the waiting requests that name the key. -/
def AtFront (s : DomainScheduler κ) (k : κ) (id : Nat) : Prop :=
  id ∈ s.waiters ∧ k ∈ s.keys id ∧ ∀ j ∈ s.waiters, k ∈ s.keys j → s.entry id ≤ s.entry j

/-- The request waits at the front of all its keys, and they are free. -/
def Grantable (s : DomainScheduler κ) (id : Nat) : Prop :=
  id ∈ s.waiters ∧ ∀ k ∈ s.keys id, s.owners k = none ∧ s.AtFront k id

theorem AtFront.unique {i : Nat} (hi : s.AtFront k i) (hj : s.AtFront k j) : i = j :=
  eq_of_entry_eq (le_antisymm (hi.2.2 j hj.1 hj.2.1) (hj.2.2 i hi.1 hi.2.1))

structure Core (s : DomainScheduler κ) : Prop where
  fresh : ∀ id, s.serial < id → id ∉ s.waiters ∧ (s.requests id).acquired = false
  nodup : ∀ id, (s.keys id).Nodup
  live : ∀ id ∈ s.waiters, s.keys id ≠ [] ∧ (s.requests id).acquired = false ∧
    (s.requests id).triggered = false ∧ (s.requests id).cancelled = false
  queued : ∀ id ∈ s.waiters, ∀ k ∈ s.keys id, s.entry id ∈ s.resourceQueues k
  entries : ∀ k, ∀ e ∈ s.resourceQueues k, ∃ id, e = s.entry id ∧ id ≤ s.serial ∧
    k ∈ s.keys id ∧ (id ∈ s.waiters ∨ (s.requests id).cancelled = true)
  sorted : ∀ k, (s.resourceQueues k).Pairwise (· < ·)
  owned : ∀ k id, s.owners k = some id ↔ (s.requests id).acquired = true ∧ k ∈ s.keys id

theorem Core.le_serial (h : s.Core) (hw : id ∈ s.waiters) : id ≤ s.serial :=
  not_lt.mp fun hlt => (h.fresh id hlt).1 hw

variable [LinearOrder κ]

theorem purge_self (s : DomainScheduler κ) (k : κ) : (s.purge k).resourceQueues k =
    (s.resourceQueues k).dropWhile fun e => (s.requests (ofLex e).2).cancelled :=
  Function.update_self ..

theorem purge_of_ne {key : κ} (hk : k ≠ key) :
    (s.purge key).resourceQueues k = s.resourceQueues k :=
  Function.update_of_ne hk ..

namespace Core

theorem purge (h : s.Core) (key : κ) : (s.purge key).Core := by
  have hsuffix : ∀ k, (s.purge key).resourceQueues k <:+ s.resourceQueues k := by
    intro k
    by_cases hk : k = key
    · subst hk
      rw [purge_self]
      exact dropWhile_suffix _
    · rw [purge_of_ne hk]
  refine ⟨h.fresh, h.nodup, h.live, ?_, fun k e he => h.entries k e ((hsuffix k).mem he),
    fun k => (h.sorted k).sublist (hsuffix k).sublist, h.owned⟩
  intro id hw k hk
  have hmem := h.queued id hw k hk
  by_cases hkey : k = key
  · subst hkey
    -- the entry of a live request is not among those dropped
    rw [purge_self]
    rw [← takeWhile_append_dropWhile (p := fun e => (s.requests (ofLex e).2).cancelled)
      (l := s.resourceQueues k), mem_append] at hmem
    refine hmem.resolve_left fun htake => ?_
    have hcancelled := mem_takeWhile_imp htake
    exact Bool.false_ne_true ((h.live id hw).2.2.2.symm.trans hcancelled)
  · rw [purge_of_ne hkey]
    exact hmem

theorem head?_purge (h : s.Core) (k : κ) :
    (∃ id, ((s.purge k).resourceQueues k).head? = some (s.entry id) ∧ s.AtFront k id) ∨
      ((s.purge k).resourceQueues k).head? = none ∧ ∀ id, ¬ s.AtFront k id := by
  have hcore := h.purge k
  cases hq : (s.purge k).resourceQueues k with
  | nil =>
    refine .inr ⟨rfl, fun id hfront => ?_⟩
    have := hcore.queued id hfront.1 k hfront.2.1
    rw [hq] at this
    exact not_mem_nil this
  | cons e rest =>
    obtain ⟨id, rfl, -, hk, hlive⟩ := hcore.entries k e (hq ▸ mem_cons_self)
    have hwaits : id ∈ s.waiters := by
      refine hlive.resolve_right fun hcancelled => ?_
      have hhead := head?_dropWhile_not
        (fun e => (s.requests (ofLex e).2).cancelled) (s.resourceQueues k)
      rw [← purge_self, hq] at hhead
      exact Bool.false_ne_true (hhead.symm.trans hcancelled)
    refine .inl ⟨id, rfl, hwaits, hk, fun j hj hkj => ?_⟩
    have hmem := hcore.queued j hj k hkj
    have hsorted := hcore.sorted k
    rw [hq] at hmem hsorted
    rcases mem_cons.mp hmem with heq | hrest
    · exact (show s.entry j = s.entry id from heq).ge
    · exact le_of_lt ((pairwise_cons.mp hsorted).1 _ hrest)

theorem front_eq_some (h : s.Core) (k : κ) (id : Nat) :
    (s.front k).1 = some id ↔ s.AtFront k id := by
  rcases h.head?_purge k with ⟨i, hhead, hfront⟩ | ⟨hhead, hnone⟩
  · simp only [front, hhead, map_some, some.injEq]
    constructor
    · rintro rfl
      exact hfront
    · exact hfront.unique
  · simp only [front, hhead, map_none, reduceCtorEq, false_iff]
    exact hnone id

end Core

/-! ## Looking at fronts -/

/-- `t` is `s` but for cancelled entries that left the queues. -/
structure Purged (s t : DomainScheduler κ) : Prop where
  core : t.Core
  rest : ∃ queues, t = { s with resourceQueues := queues }
  /-- A live entry at the head of a queue stays there. -/
  heads : ∀ k, ∀ id ∈ s.waiters, (s.resourceQueues k).head? = some (s.entry id) →
    (t.resourceQueues k).head? = some (s.entry id)

omit [LinearOrder κ] in
theorem Purged.refl (h : s.Core) : Purged s s :=
  ⟨h, ⟨s.resourceQueues, rfl⟩, fun _ _ _ h => h⟩

omit [LinearOrder κ] in
theorem Purged.trans {u : DomainScheduler κ} (h : Purged s t) (h' : Purged t u) : Purged s u := by
  obtain ⟨queues, rfl⟩ := h.rest
  obtain ⟨queues', rfl⟩ := h'.rest
  exact ⟨h'.core, ⟨queues', rfl⟩, fun k id hw hhead => h'.heads k id hw (h.heads k id hw hhead)⟩

theorem Core.purged (h : s.Core) (key : κ) : Purged s (s.purge key) := by
  refine ⟨h.purge key, ⟨_, rfl⟩, fun k id hw hhead => ?_⟩
  by_cases hk : k = key
  · subst hk
    have hnot : (s.requests (ofLex (s.entry id)).2).cancelled = false := (h.live id hw).2.2.2
    rw [purge_self]
    cases hq : s.resourceQueues k with
    | nil => simp [hq] at hhead
    | cons e rest =>
      obtain rfl : e = s.entry id := by simpa [hq] using hhead
      rw [dropWhile_cons_of_neg (by simp [hnot]), head?_cons]
  · rw [purge_of_ne hk]
    exact hhead

theorem Core.candidates_spec (h : s.Core) (changed : List κ) :
    Purged s (candidates changed s).2 ∧
      ∀ id, id ∈ (candidates changed s).1 ↔ ∃ k ∈ changed, s.AtFront k id := by
  induction changed generalizing s with
  | nil => exact ⟨.refl h, by simp [candidates]⟩
  | cons key rest ih =>
    obtain ⟨hpurged, hmem⟩ := ih (h.purge key)
    refine ⟨(h.purged key).trans hpurged, fun id => ?_⟩
    have hfront := h.front_eq_some key id
    have hmem' : id ∈ (candidates rest (s.purge key)).1 ↔ ∃ k ∈ rest, s.AtFront k id := hmem id
    simp only [exists_mem_cons_iff, ← hmem', ← hfront]
    simp only [candidates, front]
    cases ((s.purge key).resourceQueues key).head? with
    | none => simp
    | some e => simp [mem_insert_iff, eq_comm]

/-- A request is not blocked at keys that are free and where it is at the front; it
is then the head of their queues. -/
theorem Core.blocked_spec (h : s.Core) (id : Nat) (keys : List κ) :
    Purged s (blocked id keys s).2 ∧
      ((blocked id keys s).1 = false ↔ ∀ k ∈ keys, s.owners k = none ∧ s.AtFront k id) ∧
      ((blocked id keys s).1 = false → ∀ k ∈ keys,
        ((blocked id keys s).2.resourceQueues k).head? = some (s.entry id)) := by
  induction keys generalizing s with
  | nil => exact ⟨.refl h, by simp [blocked], by simp⟩
  | cons key rest ih =>
    cases howner : s.owners key with
    | some j => simp [blocked, howner, Purged.refl h]
    | none =>
      by_cases hfront : (s.front key).1 = some id
      · have heq : blocked id (key :: rest) s = blocked id rest (s.purge key) := by
          simp only [blocked, howner, isSome_none, Bool.false_eq_true, if_false, hfront, if_true]
          rfl
        obtain ⟨hpurged, hiff, hheads⟩ := ih (h.purge key)
        have hat := (h.front_eq_some key id).mp hfront
        rw [heq]
        refine ⟨(h.purged key).trans hpurged, ?_, fun hfalse k hk => ?_⟩
        · rw [hiff, forall_mem_cons]
          exact ⟨fun hrest => ⟨⟨howner, hat⟩, hrest⟩, fun hall => hall.2⟩
        · rcases mem_cons.mp hk with rfl | hk
          · refine hpurged.heads k id hat.1 ?_
            rcases h.head?_purge k with ⟨i, hhead, hi⟩ | ⟨-, hnone⟩
            · rwa [hi.unique hat] at hhead
            · exact absurd hat (hnone id)
          · exact hheads hfalse k hk
      · have heq : blocked id (key :: rest) s = (true, s.purge key) := by
          simp only [blocked, howner, isSome_none, Bool.false_eq_true, if_false, hfront]
          rfl
        rw [heq]
        refine ⟨h.purged key, ?_, fun hfalse => Bool.noConfusion hfalse⟩
        simp only [Bool.true_eq_false, false_iff, forall_mem_cons, not_and]
        exact fun hat => absurd ((h.front_eq_some key id).mpr hat.2) hfront

/-! ## Grants -/

/-- What a grant leaves behind, at keys that were free and headed by the request. -/
structure Granted (s : DomainScheduler κ) (id : Nat) (t : DomainScheduler κ) : Prop where
  dirty : t.dirtyQueueKeys = s.dirtyQueueKeys
  keys : t.keys = s.keys
  entry : t.entry = s.entry
  waiters : ∀ j, j ∈ t.waiters ↔ j ∈ s.waiters ∧ j ≠ id
  acquired : ∀ j, (t.requests j).acquired = true ↔ j = id ∨ (s.requests j).acquired = true
  owners : ∀ k, t.owners k = if k ∈ s.keys id then some id else s.owners k
  priorities : t.priorities = s.priorities.filter (· ≠ (s.requests id).priority)

section Marked

omit [LinearOrder κ]

/-- Only flags of one request object are set. -/
structure Marked (s : DomainScheduler κ) (id : Nat) (t : DomainScheduler κ) : Prop where
  serial : t.serial = s.serial
  others : ∀ j, j ≠ id → t.requests j = s.requests j
  ownKeys : (t.requests id).keys = (s.requests id).keys
  ownPriority : (t.requests id).priority = (s.requests id).priority

theorem marked_modifyRequest {r : DomainRequest κ} (hserial : t.serial = s.serial)
    (ht : t.requests = Function.update s.requests id r) (hkeys : r.keys = (s.requests id).keys)
    (hpriority : r.priority = (s.requests id).priority) : Marked s id t := by
  refine ⟨hserial, fun j hj => ?_, ?_, ?_⟩
  · rw [ht, Function.update_of_ne hj]
  · rw [ht, Function.update_self, hkeys]
  · rw [ht, Function.update_self, hpriority]

theorem Marked.keys (h : Marked s id t) : t.keys = s.keys := by
  funext j
  by_cases hj : j = id
  · exact hj ▸ h.ownKeys
  · exact congrArg DomainRequest.keys (h.others j hj)

theorem Marked.entry (h : Marked s id t) : t.entry = s.entry := by
  funext j
  have hpriority : (t.requests j).priority = (s.requests j).priority := by
    by_cases hj : j = id
    · exact hj ▸ h.ownPriority
    · rw [h.others j hj]
  exact congrArg (fun p : Priority => (toLex (p, j) : QueueEntry)) hpriority

end Marked

omit [LinearOrder κ] in
/-- A request stops waiting: it leaves the queues, or what is left of it there is cancelled. -/
theorem Core.without (h : s.Core) (hid : id ≤ s.serial) (hm : Marked s id t)
    (hwaiters : ∀ j, j ∈ t.waiters ↔ j ∈ s.waiters ∧ j ≠ id)
    (hqueue : ∀ k, (t.resourceQueues k).Sublist (s.resourceQueues k))
    (hkept : ∀ k, ∀ e ∈ s.resourceQueues k, e ≠ s.entry id → e ∈ t.resourceQueues k)
    (hleft : ∀ k ∈ s.keys id, s.entry id ∈ t.resourceQueues k →
      id ∈ s.waiters ∨ (s.requests id).cancelled = true → (t.requests id).cancelled = true)
    (howned : ∀ k j, t.owners k = some j ↔ (t.requests j).acquired = true ∧ k ∈ s.keys j) :
    t.Core := by
  refine ⟨fun j hj => ?_, fun j => hm.keys ▸ h.nodup j, fun j hj => ?_, fun j hj k hk => ?_,
    fun k e he => ?_, fun k => (h.sorted k).sublist (hqueue k), hm.keys ▸ howned⟩
  · rw [hm.serial] at hj
    rw [hwaiters, hm.others j (by omega)]
    exact ⟨fun hw => (h.fresh j hj).1 hw.1, (h.fresh j hj).2⟩
  · obtain ⟨hj, hne⟩ := (hwaiters j).mp hj
    rw [hm.others j hne, hm.keys]
    exact h.live j hj
  · obtain ⟨hj, hne⟩ := (hwaiters j).mp hj
    rw [hm.entry]
    exact hkept k _ (h.queued j hj k (hm.keys ▸ hk)) fun heq => hne (eq_of_entry_eq heq)
  · obtain ⟨j, rfl, hle, hk, hlive⟩ := h.entries k e ((hqueue k).subset he)
    refine ⟨j, by rw [hm.entry], by rw [hm.serial]; exact hle, by rw [hm.keys]; exact hk, ?_⟩
    by_cases hj : j = id
    · subst hj
      exact .inr (hleft k hk he hlive)
    · rw [hwaiters, hm.others j hj]
      exact hlive.imp_left fun hw => ⟨hw, hj⟩

theorem Core.granted_spec (h : s.Core) (hw : id ∈ s.waiters)
    (hfree : ∀ k ∈ s.keys id, s.owners k = none)
    (hhead : ∀ k ∈ s.keys id, (s.resourceQueues k).head? = some (s.entry id)) :
    (s.granted id).Core ∧ Granted s id (s.granted id) := by
  have hm : Marked s id (s.granted id) := marked_modifyRequest rfl rfl rfl rfl
  have hgranted : Granted s id (s.granted id) := by
    refine ⟨rfl, hm.keys, hm.entry, fun j => by simp [granted], fun j => ?_,
      eachKey_apply (h.nodup id) (fun _ => some id) s.owners, rfl⟩
    by_cases hj : j = id
    · subst hj
      simp [granted, modifyRequest]
    · simp [hm.others j hj, hj]
  have hqueue : ∀ k, (s.granted id).resourceQueues k =
      if k ∈ s.keys id then (s.resourceQueues k).tail else s.resourceQueues k :=
    eachKey_apply (h.nodup id) _ _
  -- the queues of its keys start with the request, which is in no queue twice
  have hcons : ∀ k ∈ s.keys id, s.resourceQueues k = s.entry id :: (s.resourceQueues k).tail :=
    fun k hk => (cons_head?_tail (hhead k hk)).symm
  refine ⟨h.without (h.le_serial hw) hm hgranted.waiters ?_ ?_ ?_ ?_,
    hgranted⟩
  · intro k
    rw [hqueue]
    split
    · exact tail_sublist _
    · exact .refl _
  · intro k e he hne
    rw [hqueue]
    split
    · next hmine =>
      rw [hcons k hmine, mem_cons] at he
      exact he.resolve_left hne
    · exact he
  · intro k hk hmem _
    have hsorted := h.sorted k
    rw [hcons k hk, pairwise_cons] at hsorted
    rw [hqueue, if_pos hk] at hmem
    exact absurd (hsorted.1 _ hmem) (lt_irrefl _)
  · intro k j
    rw [hgranted.owners, hgranted.acquired]
    split
    · next hmine =>
      rw [some.injEq]
      constructor
      · rintro rfl
        exact ⟨.inl rfl, hmine⟩
      · rintro ⟨rfl | hacquired, hk⟩
        · rfl
        · have := (h.owned k j).mpr ⟨hacquired, hk⟩
          rw [hfree k hmine] at this
          cases this
    · next hmine =>
      rw [h.owned]
      constructor
      · exact fun hj => ⟨.inr hj.1, hj.2⟩
      · rintro ⟨rfl | hacquired, hk⟩
        · exact absurd hk hmine
        · exact ⟨hacquired, hk⟩

/-- One candidate of an arbitration: it is granted exactly when it may be. -/
theorem Core.consider_spec (h : s.Core) (hkeys : s.keys id ≠ []) :
    (¬ s.Grantable id ∧ ∃ t, s.consider id = some t ∧ Purged s t) ∨
      (s.Grantable id ∧ ∃ t, t.Core ∧ Granted s id t ∧ (∀ u, s.consider id = some u → u = t) ∧
        ((s.requests id).priority ∈ s.priorities → s.consider id = some t)) := by
  obtain ⟨hpurged, hiff, hheads⟩ := h.blocked_spec id (s.keys id)
  cases hb : (blocked id (s.keys id) s).1 with
  | true =>
    refine .inl ⟨fun hgrantable => ?_, _, by simp [consider, hb], hpurged⟩
    exact Bool.false_ne_true ((hiff.mpr hgrantable.2).symm.trans hb)
  | false =>
    have heq : s.consider id = (blocked id (s.keys id) s).2.grant id := by simp [consider, hb]
    have hfree := hiff.mp hb
    obtain ⟨k, hk⟩ := exists_mem_of_ne_nil _ hkeys
    have hw : id ∈ s.waiters := (hfree k hk).2.1
    have hhead := hheads hb
    obtain ⟨queues, hqueues⟩ := hpurged.rest
    have hcore := hpurged.core
    rw [hqueues] at hcore hhead heq
    obtain ⟨hcore', hgranted⟩ := hcore.granted_spec hw (fun k hk => (hfree k hk).1) hhead
    refine .inr ⟨⟨hw, hfree⟩, _, hcore', { hgranted with }, fun u hu => ?_, fun hlisted => ?_⟩
    · rw [heq, grant] at hu
      exact (some.inj (ite_none_right_eq_some.mp hu).2).symm
    · rw [heq, grant, if_pos (any_eq_true.mpr ⟨_, hlisted, by simp⟩)]

/-! ## One arbitration -/

/-- No other waiting request that shares a key has a smaller entry. -/
def Foremost (s : DomainScheduler κ) (id : Nat) : Prop :=
  ∀ j ∈ s.waiters, ∀ k ∈ s.keys j, k ∈ s.keys id → s.entry id ≤ s.entry j

/-- The arbitration of `s` has reached `t` and has yet to consider `rest`. -/
structure Pass (s : DomainScheduler κ) (t : DomainScheduler κ) (rest : List Nat) : Prop where
  core : t.Core
  dirty : t.dirtyQueueKeys = []
  keys : t.keys = s.keys
  entry : t.entry = s.entry
  waiters : ∀ j ∈ t.waiters, j ∈ s.waiters
  /-- Who waited at the start waits still or has its keys. -/
  kept : ∀ j ∈ s.waiters, j ∈ t.waiters ∨ (t.requests j).acquired = true
  fair : ∀ j, (t.requests j).acquired = true →
    (s.requests j).acquired = true ∨ j ∈ s.waiters ∧ s.Foremost j
  pending : ∀ j, t.Grantable j → j ∈ rest

theorem Pass.consider {u : DomainScheduler κ} {c : Nat} {rest : List Nat}
    (h : Pass s t (c :: rest)) (hkeys : s.keys c ≠ []) (hu : t.consider c = some u) :
    Pass s u rest := by
  rcases h.core.consider_spec (by rw [h.keys]; exact hkeys) with
    ⟨hnot, u', hu', hpurged⟩ | ⟨hgrantable, u', hcore, hgranted, hu', -⟩
  · obtain ⟨queues, hqueues⟩ := hpurged.rest
    have hcore := hpurged.core
    cases hu'.symm.trans hu
    rw [hqueues] at hcore ⊢
    refine ⟨hcore, h.dirty, h.keys, h.entry, h.waiters, h.kept, h.fair, fun j hj => ?_⟩
    refine (mem_cons.mp (h.pending j hj)).resolve_left ?_
    rintro rfl
    exact hnot hj
  · cases hu' u hu
    refine ⟨hcore, hgranted.dirty.trans h.dirty, hgranted.keys.trans h.keys,
      hgranted.entry.trans h.entry, ?_, ?_, ?_, ?_⟩
    · exact fun j hj => h.waiters j ((hgranted.waiters j).mp hj).1
    · intro j hj
      rw [hgranted.waiters, hgranted.acquired]
      by_cases hjc : j = c
      · exact .inr (.inl hjc)
      · exact (h.kept j hj).imp (fun hj => ⟨hj, hjc⟩) .inr
    · intro j hj
      rcases (hgranted.acquired j).mp hj with rfl | hj
      · refine .inr ⟨h.waiters j hgrantable.1, fun i hi k hki hkj => ?_⟩
        rw [← h.keys] at hki hkj
        obtain ⟨hfree, -, -, hleast⟩ := hgrantable.2 k hkj
        -- a rival granted earlier in this pass would own the shared key
        rcases h.kept i hi with hwaits | hacquired
        · rw [← h.entry]
          exact hleast i hwaits hki
        · have := (h.core.owned k i).mpr ⟨hacquired, hki⟩
          rw [hfree] at this
          cases this
      · exact h.fair j hj
    · intro j hj
      obtain ⟨hwaits, hne⟩ := (hgranted.waiters j).mp hj.1
      refine (mem_cons.mp (h.pending j ⟨hwaits, fun k hk => ?_⟩)).resolve_left hne
      obtain ⟨hfree, -, -, hleast⟩ := hj.2 k (by rw [hgranted.keys]; exact hk)
      rw [hgranted.owners] at hfree
      split at hfree
      · cases hfree
      · next hnot =>
        refine ⟨hfree, hwaits, hk, fun i hi hki => ?_⟩
        rw [hgranted.entry, hgranted.keys] at hleast
        refine hleast i ((hgranted.waiters i).mpr ⟨hi, ?_⟩) hki
        rintro rfl
        exact hnot hki

theorem Pass.run {u : DomainScheduler κ} {rest : List Nat} (h : Pass s t rest)
    (hkeys : ∀ c ∈ rest, s.keys c ≠ []) (hu : rest.foldlM DomainScheduler.consider t = some u) :
    Pass s u [] := by
  induction rest generalizing t with
  | nil =>
    cases hu
    exact h
  | cons c rest ih =>
    obtain ⟨hc, hrest⟩ := forall_mem_cons.mp hkeys
    rw [foldlM_cons] at hu
    obtain ⟨t', ht', hu⟩ := bind_eq_some_iff.mp hu
    exact ih (h.consider hc ht') hrest hu

/-- The priorities of the waiting requests are in the set, each for one of them. -/
structure Listed (s : DomainScheduler κ) : Prop where
  mem : ∀ id ∈ s.waiters, (s.requests id).priority ∈ s.priorities
  unique : ∀ i ∈ s.waiters, ∀ j ∈ s.waiters,
    (s.requests i).priority = (s.requests j).priority → i = j

omit [LinearOrder κ] in
theorem Listed.mono (h : s.Listed) (hentry : t.entry = s.entry)
    (hwaiters : ∀ j ∈ t.waiters, j ∈ s.waiters)
    (hmem : ∀ j ∈ t.waiters, (s.requests j).priority ∈ t.priorities) : t.Listed := by
  have hpriority : ∀ j, (t.requests j).priority = (s.requests j).priority :=
    fun j => congrArg (fun e => (ofLex e).1) (congrFun hentry j)
  refine ⟨fun j hj => hpriority j ▸ hmem j hj, fun i hi j hj => ?_⟩
  rw [hpriority, hpriority]
  exact h.unique i (hwaiters i hi) j (hwaiters j hj)

omit [LinearOrder κ] in
/-- A waiting request leaves, and its priority with it. -/
theorem Listed.without (h : s.Listed) (hw : id ∈ s.waiters) (hentry : t.entry = s.entry)
    (hwaiters : ∀ j, j ∈ t.waiters ↔ j ∈ s.waiters ∧ j ≠ id)
    (hpriorities : t.priorities = s.priorities.filter (· ≠ (s.requests id).priority)) :
    t.Listed := by
  refine h.mono hentry (fun j hj => ((hwaiters j).mp hj).1) fun j hj => ?_
  obtain ⟨hj, hne⟩ := (hwaiters j).mp hj
  rw [hpriorities, mem_filter]
  exact ⟨h.mem j hj, by simpa using fun heq => hne (h.unique j hj id hw heq)⟩

/-- With the priorities of all waiting requests in the set no grant raises. -/
theorem Pass.total {rest : List Nat} (h : Pass s t rest) (hkeys : ∀ c ∈ rest, s.keys c ≠ [])
    (hl : t.Listed) : ∃ u, rest.foldlM DomainScheduler.consider t = some u ∧ u.Listed := by
  induction rest generalizing t with
  | nil => exact ⟨t, rfl, hl⟩
  | cons c rest ih =>
    obtain ⟨hc, hrest⟩ := forall_mem_cons.mp hkeys
    have hnext : ∃ t', t.consider c = some t' ∧ t'.Listed := by
      rcases h.core.consider_spec (by rw [h.keys]; exact hc) with
        ⟨-, t', ht', hpurged⟩ | ⟨hgrantable, t', -, hgranted, -, ht'⟩
      · obtain ⟨queues, rfl⟩ := hpurged.rest
        exact ⟨_, ht', hl.mem, hl.unique⟩
      · exact ⟨t', ht' (hl.mem c hgrantable.1), hl.without hgrantable.1 hgranted.entry hgranted.waiters
          hgranted.priorities⟩
    obtain ⟨t', ht', hl'⟩ := hnext
    obtain ⟨u, hu, hlisted⟩ := ih (h.consider hc ht') hrest hl'
    exact ⟨u, by rw [foldlM_cons, ht']; exact hu, hlisted⟩

/-! ## Wake-ups -/

structure Woken (s : DomainScheduler κ) : Prop where
  core : s.Core
  grantable : ∀ id, s.Grantable id → ∃ k ∈ s.keys id, k ∈ s.dirtyQueueKeys
  scheduled : s.dirtyQueueKeys ≠ [] → s.scheduled = true

/-- An arbitration is a pass over the fronts of the dirty keys. -/
theorem Woken.arbitrate (h : s.Woken) : ∃ (t : DomainScheduler κ) (rest : List Nat),
    s.arbitrate = rest.foldlM consider t ∧ Pass s t rest ∧ (∀ c ∈ rest, s.keys c ≠ []) ∧
      (s.Listed → t.Listed) := by
  have hcore : ({ s with scheduled := false, dirtyQueueKeys := [] } : DomainScheduler κ).Core :=
    { h.core with }
  obtain ⟨hpurged, hmem⟩ := hcore.candidates_spec s.dirtyQueueKeys
  refine ⟨_, _, rfl, ?_, fun c hc => ?_, fun hl => ?_⟩
  · obtain ⟨queues, hqueues⟩ := hpurged.rest
    have hcore' := hpurged.core
    rw [hqueues] at hcore' ⊢
    refine ⟨hcore', rfl, rfl, rfl, fun _ hj => hj, fun _ hj => .inl hj, fun _ hj => .inl hj,
      fun j hj => ?_⟩
    obtain ⟨k, hk, hdirty⟩ := h.grantable j hj
    rw [mem_insertionSort]
    exact (hmem j).mpr ⟨k, hdirty, (hj.2 k hk).2⟩
  · rw [mem_insertionSort] at hc
    obtain ⟨_, _, hfront⟩ := (hmem c).mp hc
    exact (h.core.live c hfront.1).1
  · obtain ⟨queues, hqueues⟩ := hpurged.rest
    rw [hqueues]
    exact ⟨hl.mem, hl.unique⟩

theorem Woken.pass (h : s.Woken) (ht : s.arbitrate = some t) : Pass s t [] := by
  obtain ⟨_, _, heq, hpass, hkeys, -⟩ := h.arbitrate
  exact hpass.run hkeys (heq ▸ ht)

omit [LinearOrder κ] in
theorem Pass.woken (h : Pass s t []) : t.Woken :=
  ⟨h.core, fun id hid => absurd (h.pending id hid) not_mem_nil,
    fun hdirty => absurd h.dirty hdirty⟩

/-! ## Requests and releases -/

/-- What a request that does not raise changes. -/
structure Requested (s : DomainScheduler κ) (keys : List κ) (priority : Priority)
    (t : DomainScheduler κ) : Prop where
  serial : t.serial = s.serial + 1
  requests : t.requests =
    Function.update s.requests (s.serial + 1) { keys := keys, priority := priority }
  waiters : ∀ j, j ∈ t.waiters ↔ j ∈ s.waiters ∨ j = s.serial + 1
  owners : t.owners = s.owners
  queues : ∀ k, t.resourceQueues k =
    if k ∈ keys then (s.resourceQueues k).orderedInsert (· ≤ ·) (toLex (priority, s.serial + 1))
    else s.resourceQueues k
  dirty : ∀ k, k ∈ t.dirtyQueueKeys ↔ k ∈ s.dirtyQueueKeys ∨ k ∈ keys
  scheduled : t.scheduled = true
  unlisted : priority ∉ s.priorities
  priorities : t.priorities = priority :: s.priorities

theorem requested_of_request [ToString κ] {now : ℚ} {keys : List κ} {identity : List IdentityPart}
    (h : s.request now keys identity = .ok (id, t)) :
    ∃ keys' priority, keys' ≠ [] ∧ keys'.Nodup ∧ Requested s keys' priority t := by
  have hnodup : (sortedKeys keys).Nodup :=
    (perm_insertionSort _ _).nodup_iff.mpr keys.nodup_dedup
  simp only [request] at h
  by_cases hkeys : sortedKeys keys = [] ∨ ¬ sortedKeys keys ⊆ s.resourceIds
  · rw [if_pos hkeys] at h
    cases h
  · rw [if_neg hkeys] at h
    cases hidentity : identity.mapM IdentityPart.stable with
    | none =>
      rw [hidentity] at h
      cases h
    | some stableIdentity =>
      simp only [hidentity] at h
      split at h
      · cases h
      · next hnew =>
        cases h
        exact ⟨sortedKeys keys, toLex (now, stableIdentity), fun hnil => hkeys (.inl hnil),
          hnodup, rfl, rfl, by simp [wake], rfl, eachKey_apply hnodup _ _,
          fun _ => mem_union_iff, rfl,
          fun hmem => hnew (any_eq_true.mpr ⟨_, hmem, by simp⟩), rfl⟩

namespace Requested

variable {keys : List κ} {priority : Priority}

section

variable (h : Requested s keys priority t)
include h

theorem request_of_ne (hj : j ≠ s.serial + 1) :
    t.requests j = s.requests j := by
  rw [h.requests, Function.update_of_ne hj]

theorem keys_of_ne (hj : j ≠ s.serial + 1) :
    t.keys j = s.keys j :=
  congrArg DomainRequest.keys (h.request_of_ne hj)

theorem entry_of_ne (hj : j ≠ s.serial + 1) :
    t.entry j = s.entry j :=
  congrArg (fun r : DomainRequest κ => (toLex (r.priority, j) : QueueEntry)) (h.request_of_ne hj)

theorem request_new :
    t.requests (s.serial + 1) = { keys := keys, priority := priority } := by
  rw [h.requests, Function.update_self]

theorem keys_new : t.keys (s.serial + 1) = keys :=
  congrArg DomainRequest.keys h.request_new

theorem entry_new :
    t.entry (s.serial + 1) = toLex (priority, s.serial + 1) :=
  congrArg (fun r : DomainRequest κ => (toLex (r.priority, s.serial + 1) : QueueEntry))
    h.request_new

/-- The new request aside, the waiters are those from before. -/
theorem waiter_cases (hcore : s.Core)
    (hj : j ∈ t.waiters) : (j ∈ s.waiters ∧ j ≠ s.serial + 1) ∨ j = s.serial + 1 :=
  ((h.waiters j).mp hj).imp_left fun hold =>
    ⟨hold, fun heq => absurd (hcore.le_serial hold) (by omega)⟩

theorem core (hcore : s.Core) (hkeys : keys ≠ [])
    (hnodup : keys.Nodup) : t.Core := by
  have hfresh : ∀ k, ∀ e ∈ s.resourceQueues k, e ≠ toLex (priority, s.serial + 1) := by
    rintro k e he rfl
    obtain ⟨j, hj, hle, -⟩ := hcore.entries k _ he
    have : s.serial + 1 = j := congrArg (fun e => (ofLex e).2) hj
    omega
  refine ⟨?_, ?_, ?_, ?_, ?_, ?_, ?_⟩
  · intro j hj
    rw [h.serial] at hj
    obtain ⟨hnot, hacquired⟩ := hcore.fresh j (by omega)
    rw [h.waiters, h.request_of_ne (by omega)]
    exact ⟨fun hw => hw.elim hnot (by omega), hacquired⟩
  · intro j
    by_cases hj : j = s.serial + 1
    · rw [hj, h.keys_new]
      exact hnodup
    · rw [h.keys_of_ne hj]
      exact hcore.nodup j
  · intro j hj
    rcases h.waiter_cases hcore hj with ⟨hold, hne⟩ | rfl
    · rw [h.keys_of_ne hne, h.request_of_ne hne]
      exact hcore.live j hold
    · rw [h.keys_new, h.request_new]
      exact ⟨hkeys, rfl, rfl, rfl⟩
  · intro j hj k hk
    rw [h.queues]
    rcases h.waiter_cases hcore hj with ⟨hold, hne⟩ | rfl
    · rw [h.entry_of_ne hne]
      rw [h.keys_of_ne hne] at hk
      have hmem := hcore.queued j hold k hk
      split
      · exact (mem_orderedInsert _).mpr (.inr hmem)
      · exact hmem
    · rw [h.keys_new] at hk
      rw [if_pos hk, h.entry_new]
      exact (mem_orderedInsert _).mpr (.inl rfl)
  · intro k e he
    have hold : e ∈ s.resourceQueues k → ∃ j, e = t.entry j ∧ j ≤ t.serial ∧ k ∈ t.keys j ∧
        (j ∈ t.waiters ∨ (t.requests j).cancelled = true) := by
      intro he
      obtain ⟨j, rfl, hle, hk, hlive⟩ := hcore.entries k e he
      have hne : j ≠ s.serial + 1 := by omega
      refine ⟨j, (h.entry_of_ne hne).symm, by rw [h.serial]; omega, ?_, ?_⟩
      · rw [h.keys_of_ne hne]
        exact hk
      · rw [h.waiters, h.request_of_ne hne]
        exact hlive.imp_left .inl
    rw [h.queues] at he
    split at he
    · next hk =>
      rcases (mem_orderedInsert _).mp he with rfl | he
      · refine ⟨s.serial + 1, h.entry_new.symm, h.serial.ge, by rw [h.keys_new]; exact hk, ?_⟩
        exact .inl ((h.waiters _).mpr (.inr rfl))
      · exact hold he
    · exact hold he
  · intro k
    rw [h.queues]
    split
    · exact pairwise_lt_orderedInsert (hcore.sorted k) fun hmem => hfresh k _ hmem rfl
    · exact hcore.sorted k
  · intro k j
    rw [h.owners]
    by_cases hj : j = s.serial + 1
    · rw [hj, h.request_new, hcore.owned, (hcore.fresh _ (Nat.lt_succ_self _)).2]
      simp
    · rw [h.request_of_ne hj, h.keys_of_ne hj]
      exact hcore.owned k j

theorem grantable_of_ne (hcore : s.Core)
    (hid : id ≠ s.serial + 1) (hg : t.Grantable id) : s.Grantable id := by
  have hw : id ∈ s.waiters := ((h.waiters id).mp hg.1).resolve_right hid
  refine ⟨hw, fun k hk => ?_⟩
  obtain ⟨hfree, -, -, hleast⟩ := hg.2 k (by rw [h.keys_of_ne hid]; exact hk)
  rw [h.owners] at hfree
  refine ⟨hfree, hw, hk, fun j hj hkj => ?_⟩
  have hne : j ≠ s.serial + 1 := fun heq => absurd (hcore.le_serial hj) (by omega)
  rw [← h.entry_of_ne hid, ← h.entry_of_ne hne]
  exact hleast j ((h.waiters j).mpr (.inl hj)) (by rw [h.keys_of_ne hne]; exact hkj)

theorem woken (hs : s.Woken) (hkeys : keys ≠ [])
    (hnodup : keys.Nodup) : t.Woken := by
  refine ⟨h.core hs.core hkeys hnodup, fun id hg => ?_, fun _ => h.scheduled⟩
  simp only [h.dirty]
  by_cases hid : id = s.serial + 1
  · obtain ⟨k, hk⟩ := exists_mem_of_ne_nil _ hkeys
    exact ⟨k, by rw [hid, h.keys_new]; exact hk, .inr hk⟩
  · obtain ⟨k, hk, hdirty⟩ := hs.grantable id (h.grantable_of_ne hs.core hid hg)
    exact ⟨k, by rw [h.keys_of_ne hid]; exact hk, .inl hdirty⟩

end

end Requested

/-- What a release or a cancellation changes. -/
structure Released (s : DomainScheduler κ) (id : Nat) (t : DomainScheduler κ) : Prop where
  core : t.Core
  keys : t.keys = s.keys
  entry : t.entry = s.entry
  waiters : ∀ j, j ≠ id → (j ∈ t.waiters ↔ j ∈ s.waiters)
  left : id ∉ t.waiters
  acquired : ∀ j, (t.requests j).acquired = true → (s.requests j).acquired = true
  owners : ∀ k, k ∉ s.keys id → t.owners k = s.owners k
  dirty : ∀ k, k ∈ t.dirtyQueueKeys ↔ k ∈ s.dirtyQueueKeys ∨ k ∈ s.keys id
  scheduled : t.scheduled = true
  /-- Only a request that waits takes its priority along. -/
  listed : s.Listed → s.Live (.release id) → t.Listed

/-- A release can only make requests grantable that share one of its keys. -/
theorem Released.woken (h : Released s id t) (hs : s.Woken) : t.Woken := by
  refine ⟨h.core, fun j hg => ?_, fun _ => h.scheduled⟩
  simp only [h.dirty, h.keys]
  by_cases hshared : ∃ k ∈ s.keys j, k ∈ s.keys id
  · obtain ⟨k, hkj, hk⟩ := hshared
    exact ⟨k, hkj, .inr hk⟩
  · have hne : j ≠ id := fun heq => h.left (heq ▸ hg.1)
    have hw : j ∈ s.waiters := (h.waiters j hne).mp hg.1
    have hbefore : s.Grantable j := by
      refine ⟨hw, fun k hk => ?_⟩
      obtain ⟨hfree, -, -, hleast⟩ := hg.2 k (by rw [h.keys]; exact hk)
      have hnot : k ∉ s.keys id := fun hmine => hshared ⟨k, hk, hmine⟩
      rw [h.owners k hnot] at hfree
      refine ⟨hfree, hw, hk, fun i hi hki => ?_⟩
      rw [h.entry, h.keys] at hleast
      have hine : i ≠ id := by
        rintro rfl
        exact hnot hki
      exact hleast i ((h.waiters i hine).mpr hi) hki
    obtain ⟨k, hk, hdirty⟩ := hs.grantable j hbefore
    exact ⟨k, hk, .inl hdirty⟩

section

theorem Core.vacate_owners (h : s.Core) (id : Nat) (k : κ) :
    (s.vacate id).owners k = if s.owners k = some id then none else s.owners k := by
  refine (eachKey_apply (h.nodup id) (fun owner => if owner = some id then none else owner)
    s.owners k).trans ?_
  split
  · rfl
  · next hk => rw [if_neg fun howner => hk ((h.owned k id).mp howner).2]

theorem vacate_marked (s : DomainScheduler κ) (id : Nat) : Marked s id (s.vacate id) :=
  marked_modifyRequest rfl rfl rfl rfl

theorem Core.vacate (h : s.Core) (hid : id ≤ s.serial) (ha : (s.requests id).acquired = true) :
    (s.vacate id).Core := by
  have hm := vacate_marked s id
  have hrequest : (s.vacate id).requests id = { s.requests id with acquired := false } :=
    Function.update_self ..
  have hnot : id ∉ s.waiters := fun hw => Bool.false_ne_true ((h.live id hw).2.1.symm.trans ha)
  refine h.without hid hm (fun j => ?_) (fun _ => .refl _) (fun _ _ he _ => he)
    (fun k _ _ hlive => ?_) fun k j => ?_
  · exact (and_iff_left_of_imp fun hj (heq : j = id) => hnot (heq ▸ hj)).symm
  · rw [hrequest]
    exact hlive.resolve_left hnot
  · rw [h.vacate_owners]
    by_cases hj : j = id
    · subst hj
      rw [hrequest]
      refine iff_of_false ?_ fun hacquired => Bool.false_ne_true hacquired.1
      split
      · nofun
      · assumption
    · rw [hm.others j hj, ← h.owned]
      split
      · next hmine => simp [hmine, Ne.symm hj]
      · rfl

omit [LinearOrder κ]

theorem cancel_marked (s : DomainScheduler κ) (id : Nat) : Marked s id (s.cancel id) :=
  marked_modifyRequest rfl rfl rfl rfl

theorem mem_cancel_waiters : j ∈ (s.cancel id).waiters ↔ j ∈ s.waiters ∧ j ≠ id := by
  simp [cancel]

theorem cancel_request (s : DomainScheduler κ) (id : Nat) :
    (s.cancel id).requests id = { s.requests id with cancelled := true } :=
  Function.update_self ..

theorem Core.cancel (h : s.Core) (hid : id ≤ s.serial) : (s.cancel id).Core := by
  have hm := cancel_marked s id
  refine h.without hid hm (fun _ => mem_cancel_waiters) (fun _ => .refl _) (fun _ _ he _ => he)
    (fun k _ _ _ => ?_) fun k j => ?_
  · rw [cancel_request]
  · rw [show (s.cancel id).owners = s.owners from rfl, h.owned]
    by_cases hj : j = id
    · rw [hj, cancel_request]
    · rw [hm.others j hj]

end

theorem Core.released (h : s.Core) (hid : id ≤ s.serial) : Released s id (s.release id) := by
  cases ha : (s.requests id).acquired with
  | true =>
    have heq : s.release id = { s.vacate id with
        dirtyQueueKeys := (s.vacate id).dirtyQueueKeys ∪ s.keys id, scheduled := true } := by
      simp only [release, ha, if_true, wake]
    have hcore := h.vacate hid ha
    have hm := vacate_marked s id
    rw [heq]
    refine ⟨{ hcore with }, hm.keys, hm.entry, fun _ _ => Iff.rfl, ?_, ?_, ?_,
      fun _ => mem_union_iff, rfl, fun hl _ => hl.mono hm.entry (fun _ hj => hj) hl.mem⟩
    · exact fun hw => Bool.false_ne_true ((h.live id hw).2.1.symm.trans ha)
    · intro j hj
      by_cases hji : j = id
      · exact hji ▸ ha
      · rwa [hm.others j hji] at hj
    · intro k hk
      exact (h.vacate_owners id k).trans (if_neg fun howner => hk ((h.owned k id).mp howner).2)
  | false =>
    have heq : s.release id = { s.cancel id with
        dirtyQueueKeys := (s.cancel id).dirtyQueueKeys ∪ s.keys id, scheduled := true } := by
      simp only [release, ha, Bool.false_eq_true, if_false, wake]
    have hcore := h.cancel hid
    have hm := cancel_marked s id
    rw [heq]
    refine ⟨{ hcore with }, hm.keys, hm.entry, ?_, ?_, ?_, fun _ _ => rfl,
      fun _ => mem_union_iff, rfl, fun hl hlive => ?_⟩
    · exact fun j hj => mem_cancel_waiters.trans (and_iff_left hj)
    · exact fun hw => (mem_cancel_waiters.mp hw).2 rfl
    · intro j hj
      by_cases hji : j = id
      · subst hji
        rwa [cancel_request] at hj
      · rwa [hm.others j hji] at hj
    · have hw : id ∈ s.waiters := hlive.resolve_right (by rw [ha]; exact Bool.false_ne_true)
      exact hl.without hw hm.entry (fun j => mem_cancel_waiters) rfl

/-! ## Runs -/

section Runs

variable [ToString κ]

omit [LinearOrder κ] [ToString κ] in
theorem init_woken (resourceIds : List κ) : (init resourceIds).Woken := by
  refine ⟨⟨fun _ _ => ⟨not_mem_nil, rfl⟩, fun _ => nodup_nil,
    nofun, nofun,
    fun _ _ h => absurd h not_mem_nil, fun _ => .nil, ?_⟩,
    fun _ h => absurd h.1 not_mem_nil, fun h => absurd rfl h⟩
  simp [init, keys]

/-- A step keeps the wake-ups, and a request gets its keys only in an arbitration
that was scheduled, being the foremost of the requests that wait for any of them. -/
theorem Woken.step (h : s.Woken) {event : Event κ} (ht : s.step event = some t) :
    t.Woken ∧ ∀ id, (t.requests id).acquired = true →
      (s.requests id).acquired = true ∨ id ∈ s.waiters ∧ s.Foremost id := by
  cases event with
  | request now keys identity =>
    simp only [DomainScheduler.step] at ht
    cases hr : s.request now keys identity with
    | error e =>
      rw [hr] at ht
      cases ht
      exact ⟨h, fun _ ha => .inl ha⟩
    | ok result =>
      obtain ⟨id, u⟩ := result
      rw [hr] at ht
      cases ht
      obtain ⟨keys', priority, hkeys, hnodup, hreq⟩ := requested_of_request hr
      refine ⟨hreq.woken h hkeys hnodup, fun j hj => .inl ?_⟩
      by_cases hnew : j = s.serial + 1
      · rw [hnew, hreq.request_new] at hj
        cases hj
      · rwa [hreq.request_of_ne hnew] at hj
  | arbitrate =>
    have hpass := h.pass (ite_none_right_eq_some.mp ht).2
    exact ⟨hpass.woken, hpass.fair⟩
  | release id =>
    obtain ⟨hid, ⟨⟩⟩ := ite_none_right_eq_some.mp ht
    have hrel := h.core.released hid.2
    exact ⟨hrel.woken h, fun j hj => .inl (hrel.acquired j hj)⟩

/-- When each request is released at most once, the set has the priorities of those that
wait. -/
theorem Listed.step (h : s.Woken) (hl : s.Listed) {event : Event κ} (hlive : s.Live event)
    (ht : s.step event = some t) : t.Listed := by
  cases event with
  | request now keys identity =>
    simp only [DomainScheduler.step] at ht
    cases hr : s.request now keys identity with
    | error e =>
      rw [hr] at ht
      cases ht
      exact hl
    | ok result =>
      obtain ⟨id, u⟩ := result
      rw [hr] at ht
      cases ht
      obtain ⟨keys', priority, -, -, hreq⟩ := requested_of_request hr
      have hnew : ∀ j ∈ s.waiters, (s.requests j).priority ≠ priority :=
        fun j hj heq => hreq.unlisted (heq ▸ hl.mem j hj)
      refine ⟨fun j hj => ?_, fun i hi j hj heq => ?_⟩
      · rw [hreq.priorities]
        rcases hreq.waiter_cases h.core hj with ⟨hold, hne⟩ | rfl
        · rw [hreq.request_of_ne hne]
          exact mem_cons_of_mem _ (hl.mem j hold)
        · rw [hreq.request_new]
          exact mem_cons_self
      · rcases hreq.waiter_cases h.core hi with ⟨hi, hine⟩ | rfl <;>
          rcases hreq.waiter_cases h.core hj with ⟨hj, hjne⟩ | rfl
        · rw [hreq.request_of_ne hine, hreq.request_of_ne hjne] at heq
          exact hl.unique i hi j hj heq
        · rw [hreq.request_of_ne hine, hreq.request_new] at heq
          exact absurd heq (hnew i hi)
        · rw [hreq.request_of_ne hjne, hreq.request_new] at heq
          exact absurd heq.symm (hnew j hj)
        · rfl
  | arbitrate =>
    obtain ⟨_, _, heq, hpass, hkeys, hlisted⟩ := h.arbitrate
    obtain ⟨u, hu, hl'⟩ := hpass.total hkeys (hlisted hl)
    cases (heq.trans hu).symm.trans (ite_none_right_eq_some.mp ht).2
    exact hl'
  | release id =>
    obtain ⟨hid, ⟨⟩⟩ := ite_none_right_eq_some.mp ht
    exact (h.core.released hid.2).listed hl hlive

theorem woken_of_reaches {resourceIds : List κ}
    (hs : Reaches step (fun _ _ => True) (init resourceIds) s) : s.Woken :=
  hs.invariant (init_woken resourceIds) fun h _ ht => (h.step ht).1

omit [LinearOrder κ] [ToString κ] in
/-- While no key is owned, the waiter of smallest entry can be granted. -/
theorem Woken.scheduled_of_waiting (h : s.Woken) (hw : s.waiters ≠ [])
    (hfree : ∀ k, s.owners k = none) : s.scheduled = true := by
  obtain ⟨id, hid, hleast⟩ :=
    s.waiters.toFinset.exists_min_image s.entry ((toFinset_nonempty_iff _).mpr hw)
  simp only [List.mem_toFinset] at hid hleast
  have hg : s.Grantable id := ⟨hid, fun k hk => ⟨hfree k, hid, hk, fun j hj _ => hleast j hj⟩⟩
  obtain ⟨k, -, hdirty⟩ := h.grantable id hg
  exact h.scheduled (ne_nil_of_mem hdirty)

theorem listed_of_reaches {resourceIds : List κ} (hs : Reaches step Live (init resourceIds) s) :
    s.Woken ∧ s.Listed :=
  hs.invariant (P := fun s => s.Woken ∧ s.Listed) ⟨init_woken resourceIds, nofun, nofun⟩
    fun h hlive ht => ⟨(h.1.step ht).1, h.2.step h.1 hlive ht⟩

/-- At every instant of every run a request owns all its keys or none; a request gets its
keys only by an arbitration, and then no other waiting request that shares a key has a
smaller priority; an arbitration leaves no request that could have its keys; and while
some request waits and no key is owned, an arbitration is scheduled.  No arbitration
raises as long as each request is released at most once. -/
theorem grants_atomic_fair_and_woken (resourceIds : List κ) (s : DomainScheduler κ)
    (hs : Reaches step (fun _ _ => True) (init resourceIds) s) :
    (∀ id, ((s.requests id).acquired = true ∧ ∀ k ∈ s.keys id, s.owners k = some id) ∨
      ((s.requests id).acquired = false ∧ ∀ k, s.owners k ≠ some id)) ∧
    (∀ event t id, s.step event = some t → (s.requests id).acquired = false →
      (t.requests id).acquired = true →
      id ∈ s.waiters ∧ ∀ j ∈ s.waiters, (∃ k ∈ s.keys j, k ∈ s.keys id) →
        ¬ (s.requests j).priority < (s.requests id).priority) ∧
    (∀ t, s.arbitrate = some t → ∀ id ∈ t.waiters, ¬ ∀ k ∈ t.keys id,
      t.owners k = none ∧ (t.front k).1 = some id) ∧
    (∀ id ∈ s.waiters, (∀ k ∈ s.keys id, s.owners k = none ∧ (s.front k).1 = some id) →
      s.scheduled = true) ∧
    (s.waiters ≠ [] → (∀ k, s.owners k = none) → s.scheduled = true) ∧
    (Reaches step Live (init resourceIds) s → ∃ t, s.arbitrate = some t) := by
  have h := woken_of_reaches hs
  refine ⟨fun id => ?_, fun event t id ht hbefore hacquired => ?_, fun t ht id hw hall => ?_,
    fun id hw hall => ?_, h.scheduled_of_waiting, fun hlive => ?_⟩
  · cases ha : (s.requests id).acquired with
    | true => exact .inl ⟨rfl, fun k hk => (h.core.owned k id).mpr ⟨ha, hk⟩⟩
    | false =>
      exact .inr ⟨rfl, fun k howner =>
        Bool.false_ne_true (ha.symm.trans ((h.core.owned k id).mp howner).1)⟩
  · rcases (h.step ht).2 id hacquired with ha | ⟨hw, hforemost⟩
    · exact absurd (hbefore.symm.trans ha) Bool.false_ne_true
    · refine ⟨hw, fun j hj hshared hlt => ?_⟩
      obtain ⟨k, hkj, hk⟩ := hshared
      exact absurd (hforemost j hj k hkj hk) (not_le.mpr (Prod.Lex.toLex_lt_toLex.mpr (.inl hlt)))
  · have hafter := h.pass ht
    refine not_mem_nil (hafter.pending id ⟨hw, fun k hk => ?_⟩)
    exact ⟨(hall k hk).1, (hafter.core.front_eq_some k id).mp (hall k hk).2⟩
  · obtain ⟨k, -, hdirty⟩ := h.grantable id
      ⟨hw, fun k hk => ⟨(hall k hk).1, (h.core.front_eq_some k id).mp (hall k hk).2⟩⟩
    exact h.scheduled (ne_nil_of_mem hdirty)
  · obtain ⟨_, _, heq, hpass, hkeys, hlisted⟩ := h.arbitrate
    obtain ⟨u, hu, -⟩ := hpass.total hkeys (hlisted (listed_of_reaches hlive).2)
    exact ⟨u, heq.trans hu⟩

/-- Two requests share a key: the second waits while the first has it, and an arbitration
is scheduled when the first has released its keys. -/
theorem grants_atomic_fair_and_woken_two : ∃ s : DomainScheduler Nat,
    s.waiters = [2] ∧ s.scheduled = true ∧ ∃ t, s.arbitrate = some t := by
  obtain ⟨s, hs, hwaiters, hfree⟩ := exists_reaches step Live (init [1, 2, 3])
    [.request 0 [2, 1] [.str "a"], .request 0 [2, 3] [.str "b"], .arbitrate, .release 1]
    (fun s => s.waiters = [2] ∧ ∀ k ∈ s.keys 2, s.owners k = none ∧ (s.front k).1 = some 2)
    (by decide +kernel)
  have hall := hs.invariant (P := Reaches step (fun _ _ => True) (init [1, 2, 3])) (.refl _)
    fun h _ ht => .tail h trivial ht
  obtain ⟨-, -, -, hscheduled, -, htotal⟩ := grants_atomic_fair_and_woken [1, 2, 3] s hall
  exact ⟨s, hwaiters, hscheduled 2 (by rw [hwaiters]; decide) hfree, htotal hs⟩

/-- A second release takes the priority of another request away, which then cannot be
granted. -/
example : ((runActions step (fun _ _ => True) (init [1])
    [.request 0 [1] [.str "a"], .arbitrate, .release 1, .request 0 [1] [.str "a"],
      .release 1]).map fun s => s.arbitrate.isNone) = some true := by
  decide +kernel

end Runs

end DomainScheduler

end Af

end TokenSim
