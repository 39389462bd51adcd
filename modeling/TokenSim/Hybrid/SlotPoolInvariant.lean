import TokenSim.Hybrid.SlotPool

/-!
# The slot pool invariant

`MapOk` relates the identities of the blocks to the prefix map: a block has an
identity exactly when it is an entry of `cache` or of `duplicates` under it,
and it is such an entry once.  `Ok` adds the free queue.  It is relative to a
function `refs` that says how many references each slot is owed; the tables of
the manager and the transfers in flight supply it.  A slot is free exactly
when it is owed nothing, and a free slot is on the side of the queue that its
identity says.

Each operation has one lemma: it keeps the invariant while `refs` moves by
what the operation took or gave back.
-/

namespace TokenSim.SlotPool

open List OrderedDict
open Function (update)

variable {κ : Type} [DecidableEq κ]

/-! ## The prefix map -/

/-- The slots under a key, the primary one first. -/
def entries (p : SlotPool κ) (key : κ) : List Nat := (p.cache.get? key).toList ++ p.copies key

/-- The identities of the blocks are exactly the entries of the prefix map. -/
structure MapOk (p : SlotPool κ) : Prop where
  /-- A block is cached exactly when it has an identity. -/
  cached_iff : ∀ s, (p.blocks s).cached = true ↔ (p.blocks s).blockHash ≠ none
  /-- The entries under a key are the blocks with this identity. -/
  identity : ∀ key s, s ∈ p.entries key ↔ (p.blocks s).blockHash = some key
  /-- No block is an entry twice. -/
  nodup : ∀ key, (p.entries key).Nodup
  /-- A page with copies has a primary entry. -/
  copies_primary : ∀ key, p.copies key ≠ [] → p.cache.get? key ≠ none

variable {p q : SlotPool κ} {key : κ} {s n : Nat} {refs : Nat → Nat}

theorem mem_entries : s ∈ p.entries key ↔ p.cache.get? key = some s ∨ s ∈ p.copies key := by
  simp [entries]

theorem entries_of_get? (h : p.cache.get? key = some s) : p.entries key = s :: p.copies key := by
  rw [entries, h]
  rfl

theorem MapOk.primary (h : MapOk p) (hs : p.cache.get? key = some s) :
    (p.blocks s).blockHash = some key :=
  (h.identity key s).mp (mem_entries.mpr (.inl hs))

/-- Only the blocks, without their reference counts, and the two maps matter. -/
theorem MapOk.of_eq (h : MapOk p) (hb : ∀ s, (q.blocks s).cached = (p.blocks s).cached ∧
      (q.blocks s).blockHash = (p.blocks s).blockHash)
    (hc : q.cache = p.cache) (hd : q.duplicates = p.duplicates) : MapOk q := by
  have hcopies : q.copies = p.copies := funext fun key => by rw [copies, copies, hd]
  have hentries : q.entries = p.entries := funext fun key => by rw [entries, entries, hc, hcopies]
  refine ⟨fun s => ?_, fun key s => ?_, ?_, ?_⟩
  · rw [(hb s).1, (hb s).2]
    exact h.cached_iff s
  · rw [hentries, (hb s).2]
    exact h.identity key s
  · rw [hentries]
    exact h.nodup
  · rw [hcopies, hc]
    exact h.copies_primary

theorem MapOk.setRef (h : MapOk p) (s c : Nat) : MapOk (p.setRef s c) := by
  refine h.of_eq (fun t => ?_) rfl rfl
  by_cases ht : t = s
  · subst ht; simp
  · simp [ht]

/-- The entries under one key change. -/
theorem MapOk.change (h : MapOk p) {l : List Nat}
    (hother : ∀ j, j ≠ key → q.cache.get? j = p.cache.get? j ∧ q.copies j = p.copies j)
    (hkey : q.entries key = l) (hprimary : q.copies key ≠ [] → q.cache.get? key ≠ none) :
    (∀ j, q.entries j = if j = key then l else p.entries j) ∧
      ∀ j, q.copies j ≠ [] → q.cache.get? j ≠ none := by
  refine ⟨fun j => ?_, fun j => ?_⟩ <;> by_cases hj : j = key
  · rw [if_pos hj, hj, hkey]
  · rw [if_neg hj, entries, (hother j hj).1, (hother j hj).2, entries]
  · rw [hj]
    exact hprimary
  · rw [(hother j hj).1, (hother j hj).2]
    exact h.copies_primary j

theorem copies_setCopies_self (q : SlotPool κ) (key : κ) (l : List Nat) :
    (q.setCopies key l).copies key = l := by
  rw [copies_setCopies, if_pos rfl]

theorem copies_setCopies_of_ne {j : κ} {l : List Nat} (hj : j ≠ key)
    (hd : q.duplicates = p.duplicates) : (q.setCopies key l).copies j = p.copies j := by
  rw [copies_setCopies, if_neg hj, copies, hd, copies]

/-! ### Eviction -/

/-- A slot leaves the entries under its key, and the oldest copy follows a primary one. -/
theorem MapOk.unmap (h : MapOk p) (s : Nat) (key : κ) :
    (∀ j, (p.unmap s key).entries j =
      if j = key then (p.entries key).filter (· ≠ s) else p.entries j) ∧
    ∀ j, (p.unmap s key).copies j ≠ [] → (p.unmap s key).cache.get? j ≠ none := by
  unfold SlotPool.unmap
  by_cases hp : p.cache.get? key = some s
  · have hnodup := h.nodup key
    rw [entries_of_get? hp] at hnodup ⊢
    have hfilter : (s :: p.copies key).filter (· ≠ s) = p.copies key := by
      rw [filter_cons_of_neg (by simp), filter_eq_self]
      exact fun t ht => by simpa using fun he : t = s => (nodup_cons.mp hnodup).1 (he ▸ ht)
    rw [if_pos hp, hfilter]
    cases hc : p.copies key with
    | nil =>
      refine h.change (fun j hj => ⟨get?_erase_of_ne hj, copies_setCopies_of_ne hj rfl⟩) ?_ ?_
      · simp [entries, copies_setCopies_self]
      · simp [copies_setCopies_self]
    | cons first rest =>
      refine h.change (fun j hj => ⟨get?_set_of_ne hj, copies_setCopies_of_ne hj rfl⟩) ?_ ?_
      · simp [entries, copies_setCopies_self]
      · simp
  · have hkept : (p.cache.get? key).toList.filter (· ≠ s) = (p.cache.get? key).toList :=
      filter_eq_self.mpr fun t ht => by
        simpa using fun he : t = s => hp (he ▸ Option.mem_toList.mp ht)
    rw [if_neg hp]
    refine h.change (fun j hj => ⟨rfl, copies_setCopies_of_ne hj rfl⟩) ?_ fun hne => ?_
    · rw [entries, copies_setCopies_self, entries, filter_append, hkept]
      rfl
    · rw [copies_setCopies_self] at hne
      exact h.copies_primary key fun he => hne (by simp [he])

section

variable (p : SlotPool κ) (s : Nat) (key : κ)

@[simp] theorem unmap_blocks : (p.unmap s key).blocks = p.blocks := by
  unfold unmap
  split
  · split <;> rfl
  · rfl

@[simp] theorem unmap_freeUncached : (p.unmap s key).freeUncached = p.freeUncached := by
  unfold unmap
  split
  · split <;> rfl
  · rfl

@[simp] theorem unmap_freeCached : (p.unmap s key).freeCached = p.freeCached := by
  unfold unmap
  split
  · split <;> rfl
  · rfl

@[simp] theorem evict_blocks :
    (p.evict s).blocks = update p.blocks s (p.blocks s).clearCacheMetadata := by
  unfold evict
  split
  · rfl
  · simp

@[simp] theorem evict_freeUncached : (p.evict s).freeUncached = p.freeUncached := by
  unfold evict
  split <;> simp

@[simp] theorem evict_freeCached : (p.evict s).freeCached = p.freeCached := by
  unfold evict
  split <;> simp

end

theorem MapOk.evict (h : MapOk p) (s : Nat) : MapOk (p.evict s) := by
  have hevict : (∀ j, (p.evict s).entries j = (p.entries j).filter (· ≠ s)) ∧
      ∀ j, (p.evict s).copies j ≠ [] → (p.evict s).cache.get? j ≠ none := by
    -- under another key than its own the slot is no entry
    have hself : ∀ j, (p.blocks s).blockHash ≠ some j →
        (p.entries j).filter (· ≠ s) = p.entries j := fun j hj =>
      filter_eq_self.mpr fun t ht => by
        simpa using fun he : t = s => hj ((h.identity j s).mp (he ▸ ht))
    unfold SlotPool.evict
    cases hs : (p.blocks s).blockHash with
    | none => exact ⟨fun j => (hself j (by simp [hs])).symm, h.copies_primary⟩
    | some key =>
      obtain ⟨hentries, hprimary⟩ := h.unmap s key
      refine ⟨fun j => (hentries j).trans ?_, hprimary⟩
      split
      · next hj => rw [hj]
      · next hj => exact (hself j (by simpa [hs] using Ne.symm hj)).symm
  refine ⟨fun t => ?_, fun j t => ?_, fun j => ?_, hevict.2⟩
  · by_cases hts : t = s
    · subst hts; simp
    · simpa [hts] using h.cached_iff t
  · rw [hevict.1, mem_filter, h.identity]
    by_cases hts : t = s
    · subst hts; simp
    · simp [hts]
  · rw [hevict.1]
    exact (h.nodup j).filter _

/-! ### Entering a slot -/

section

variable (p : SlotPool κ) (s : Nat) (key : κ)

@[simp] theorem enter_blocks :
    (p.enter s key).blocks = update p.blocks s ((p.blocks s).publishAs key) := by
  unfold enter
  split
  · rfl
  · split <;> rfl

@[simp] theorem enter_freeUncached : (p.enter s key).freeUncached = p.freeUncached := by
  unfold enter
  split
  · rfl
  · split <;> rfl

@[simp] theorem enter_freeCached : (p.enter s key).freeCached = p.freeCached := by
  unfold enter
  split
  · rfl
  · split <;> rfl

@[simp] theorem enter_cacheVersion : (p.enter s key).cacheVersion = p.cacheVersion := by
  unfold enter
  split
  · rfl
  · split <;> rfl

theorem enter_blockHash (t : Nat) : ((p.enter s key).blocks t).blockHash =
    if t = s then some key else (p.blocks t).blockHash := by
  by_cases ht : t = s
  · subst ht; simp
  · simp [ht]

end

/-- A slot becomes the primary entry of a key that is not mapped, and a copy of one that is. -/
theorem MapOk.entries_enter (h : MapOk p) (s : Nat) (key : κ) :
    (∀ j, (p.enter s key).entries j =
      if j = key then insertKey (p.entries key) s else p.entries j) ∧
    ∀ j, (p.enter s key).copies j ≠ [] → (p.enter s key).cache.get? j ≠ none := by
  unfold SlotPool.enter
  cases hc : p.cache.get? key with
  | none =>
    have hnil : p.copies key = [] := by_contra fun hne => h.copies_primary key hne hc
    refine h.change (fun j hj => ⟨get?_set_of_ne hj, rfl⟩) ?_ fun _ => ?_
    · rw [entries_of_get? (s := s) get?_set_self, entries, hc, hnil]
      exact congrArg _ hnil
    · rw [get?_set_self]
      exact Option.some_ne_none _
  | some u =>
    dsimp only
    by_cases hu : u = s
    · subst hu
      rw [if_pos rfl, entries_of_get? hc, insertKey, if_pos mem_cons_self]
      exact h.change (fun _ _ => ⟨rfl, rfl⟩) (entries_of_get? hc) (h.copies_primary key)
    · rw [if_neg hu, entries_of_get? hc]
      refine h.change (fun j hj => ⟨rfl, copies_setCopies_of_ne hj rfl⟩) ?_ fun _ => ?_
      · have hget := hc
        rw [← setBlock_cache p s ((p.blocks s).publishAs key), ← setCopies_cache] at hget
        rw [entries_of_get? hget, copies_setCopies_self]
        by_cases hs : s ∈ p.copies key
        · simp [insertKey, hs]
        · simp [insertKey, hs, Ne.symm hu]
      · rw [setCopies_cache, setBlock_cache, hc]
        exact Option.some_ne_none _

/-- A slot without an identity, or already under this very key, may enter. -/
theorem MapOk.enter (h : MapOk p)
    (hs : (p.blocks s).blockHash = none ∨ (p.blocks s).blockHash = some key) :
    MapOk (p.enter s key) := by
  obtain ⟨hentries, hprimary⟩ := h.entries_enter s key
  refine ⟨fun t => ?_, fun j t => ?_, fun j => ?_, hprimary⟩
  · by_cases hts : t = s
    · subst hts; simp
    · simpa [hts] using h.cached_iff t
  · have hmem : t ∈ (p.enter s key).entries j ↔ t ∈ p.entries j ∨ t = s ∧ j = key := by
      rw [hentries]
      split
      · next hj => simp [mem_insertKey, hj]
      · next hj => simp [hj]
    rw [hmem, h.identity, enter_blockHash]
    by_cases hts : t = s
    · subst hts
      rcases hs with hs | hs <;> simp [hs, eq_comm]
    · simp [hts]
  · rw [hentries]
    split
    · exact nodup_insertKey (h.nodup key) s
    · exact h.nodup j

theorem MapOk.publish (h : MapOk p) (s : Nat) (key : κ) :
    MapOk (p.publish s key) := by
  have henter : MapOk ((if (p.blocks s).blockHash = some key then p else p.evict s).enter s key) := by
    by_cases hs : (p.blocks s).blockHash = some key
    · rw [if_pos hs]; exact h.enter (Or.inr hs)
    · rw [if_neg hs]; exact (h.evict s).enter (Or.inl (by simp))
  unfold SlotPool.publish
  dsimp only
  split
  · exact henter.of_eq (fun _ => ⟨rfl, rfl⟩) rfl rfl
  · exact henter

section

variable (p : SlotPool κ) (s : Nat) (key : κ)

theorem publish_blocks (t : Nat) :
    ((p.publish s key).blocks t).refCount = (p.blocks t).refCount ∧
    ((p.publish s key).blocks t).blockHash =
      (if t = s then some key else (p.blocks t).blockHash) ∧
    ((p.publish s key).blocks t).cached = (if t = s then true else (p.blocks t).cached) ∧
    (t ≠ s → (p.publish s key).blocks t = p.blocks t) := by
  have hb : (p.publish s key).blocks =
      ((if (p.blocks s).blockHash = some key then p else p.evict s).enter s key).blocks := by
    unfold SlotPool.publish
    dsimp only
    split <;> rfl
  rw [hb, enter_blocks]
  by_cases ht : t = s
  · subst ht
    by_cases hs : (p.blocks t).blockHash = some key
    · simp [hs]
    · simp [hs]
  · by_cases hs : (p.blocks s).blockHash = some key
    · simp [hs, ht]
    · simp [hs, ht]

@[simp] theorem publish_freeUncached : (p.publish s key).freeUncached = p.freeUncached := by
  unfold SlotPool.publish
  dsimp only
  split <;> split <;> simp

@[simp] theorem publish_freeCached : (p.publish s key).freeCached = p.freeCached := by
  unfold SlotPool.publish
  dsimp only
  split <;> split <;> simp

end

/-! ## The free queue -/

/-- `refs` with one more reference for each occurrence in `slots`. -/
def addRefs (refs : Nat → Nat) (slots : List Nat) (s : Nat) : Nat := refs s + slots.count s

/-- `refs` with one reference less for each occurrence in `slots`. -/
def dropRefs (refs : Nat → Nat) (slots : List Nat) (s : Nat) : Nat := refs s - slots.count s

/-- The pool of `n` slots is consistent when slot `s` is owed `refs s`
references. -/
structure Ok (n : Nat) (refs : Nat → Nat) (p : SlotPool κ) : Prop where
  map : MapOk p
  /-- Reference counts are what is owed. -/
  ref_eq : ∀ s, 0 < s → (p.blocks s).refCount = refs s
  /-- Only existing slots are referenced. -/
  owed : ∀ s, refs s ≠ 0 → s < n
  free_nodup : (p.freeUncached ++ p.freeCached).Nodup
  /-- A slot is free exactly when nothing references it. -/
  mem_free : ∀ s, s ∈ p.freeUncached ++ p.freeCached ↔ 0 < s ∧ s < n ∧ refs s = 0
  free_uncached : ∀ s ∈ p.freeUncached, (p.blocks s).blockHash = none
  free_cached : ∀ s ∈ p.freeCached, (p.blocks s).blockHash ≠ none
  /-- The null block is held and has no identity. -/
  null : (p.blocks 0).refCount ≠ 0 ∧ (p.blocks 0).blockHash = none
  /-- Only existing slots have an identity. -/
  published : ∀ s, (p.blocks s).blockHash ≠ none → s < n

omit [DecidableEq κ] in
theorem init_blocks (n s : Nat) : ((init n : SlotPool κ).blocks s).blockHash = none ∧
    ((init n : SlotPool κ).blocks s).cached = false := by
  by_cases hs : s = 0
  · simp [init, hs, PhysicalTokenBlock.fresh]
  · simp [init, hs, PhysicalTokenBlock.fresh]

theorem init_map (n : Nat) : MapOk (init n : SlotPool κ) := by
  refine ⟨fun s => by simp [init_blocks n s], fun key s => ?_, fun _ => nodup_nil,
    fun key hk => absurd rfl hk⟩
  rw [(init_blocks n s).1]
  exact ⟨nofun, nofun⟩

theorem init_ok (n : Nat) : Ok n (fun _ => 0) (init n : SlotPool κ) where
  map := init_map n
  ref_eq s hs := by simp [init, ne_of_gt hs, PhysicalTokenBlock.fresh]
  owed s hs := absurd rfl hs
  free_nodup := by
    simp only [init, append_nil, nodup_reverse]
    exact nodup_range'
  mem_free s := by
    simp only [init, append_nil, mem_reverse, mem_range'_1, and_true]
    omega
  free_uncached s _ := (init_blocks n s).1
  free_cached s hs := by cases hs
  null := by simp [init, PhysicalTokenBlock.fresh]
  published s hs := absurd (init_blocks n s).1 hs

theorem Ok.congr {refs' : Nat → Nat} (h : Ok n refs p)
    (heq : ∀ s, refs' s = refs s) : Ok n refs' p := by
  have : refs' = refs := funext heq
  rw [this]; exact h

/-- A change of the map that keeps reference counts, the free queue and the
identities of free slots keeps the pool consistent. -/
theorem Ok.of_map (h : Ok n refs p)
    (hm : MapOk q) (hr : ∀ s, (q.blocks s).refCount = (p.blocks s).refCount)
    (hu : q.freeUncached = p.freeUncached) (hc : q.freeCached = p.freeCached)
    (hfree : ∀ s, s ∈ p.freeUncached ++ p.freeCached →
      (q.blocks s).blockHash = (p.blocks s).blockHash)
    (hnull : (q.blocks 0).blockHash = none)
    (hpub : ∀ s, (q.blocks s).blockHash ≠ none → s < n) : Ok n refs q where
  map := hm
  ref_eq s hs := (hr s).trans (h.ref_eq s hs)
  owed := h.owed
  free_nodup := by rw [hu, hc]; exact h.free_nodup
  mem_free s := by rw [hu, hc]; exact h.mem_free s
  free_uncached s hs := by
    rw [hu] at hs
    rw [hfree s (mem_append_left _ hs)]
    exact h.free_uncached s hs
  free_cached s hs := by
    rw [hc] at hs
    rw [hfree s (mem_append_right _ hs)]
    exact h.free_cached s hs
  null := ⟨by rw [hr]; exact h.null.1, hnull⟩
  published := hpub

section

variable (h : Ok n refs p) (hs : 0 < s) (href : refs s ≠ 0)
include h hs href

theorem Ok.identify (hm : MapOk q)
    (hr : ∀ t, (q.blocks t).refCount = (p.blocks t).refCount)
    (hb : ∀ t, (q.blocks t).blockHash = if t = s then some key else (p.blocks t).blockHash)
    (hu : q.freeUncached = p.freeUncached) (hc : q.freeCached = p.freeCached) : Ok n refs q := by
  refine h.of_map hm hr hu hc (fun t ht => ?_) ?_ (fun t ht => ?_)
  · have hts : t ≠ s := fun he => href (he ▸ ((h.mem_free t).mp ht).2.2)
    rw [hb t, if_neg hts]
  · rw [hb 0, if_neg (Nat.ne_of_lt hs)]; exact h.null.2
  · rw [hb t] at ht
    by_cases hts : t = s
    · exact hts ▸ h.owed s href
    · rw [if_neg hts] at ht; exact h.published t ht

theorem Ok.publish (key : κ) : Ok n refs (p.publish s key) :=
  have hb := publish_blocks p s key
  h.identify hs href (h.map.publish s key) (fun t => (hb t).1) (fun t => (hb t).2.1) (by simp)
    (by simp)

theorem Ok.enter (hk : (p.blocks s).blockHash = none ∨ (p.blocks s).blockHash = some key) :
    Ok n refs (p.enter s key) := by
  refine h.identify hs href (h.map.enter hk) (fun t => ?_) (enter_blockHash p s key) (by simp)
    (by simp)
  by_cases hts : t = s
  · subst hts; simp
  · simp [hts]

end

/-! ### Moving references -/

omit [DecidableEq κ] in
@[simp] theorem update_ref_blockHash (f : Nat → PhysicalTokenBlock κ) (s c t : Nat) :
    (update f s { f s with refCount := c } t).blockHash = (f t).blockHash := by
  by_cases ht : t = s
  · subst ht; simp
  · simp [ht]

omit [DecidableEq κ] in
@[simp] theorem update_ref_cached (f : Nat → PhysicalTokenBlock κ) (s c t : Nat) :
    (update f s { f s with refCount := c } t).cached = (f t).cached := by
  by_cases ht : t = s
  · subst ht; simp
  · simp [ht]

/-- The pool `q` differs from `p` in reference counts and in the free queue
only. -/
structure SameMap (p q : SlotPool κ) : Prop where
  blockHash : ∀ t, (q.blocks t).blockHash = (p.blocks t).blockHash
  cached : ∀ t, (q.blocks t).cached = (p.blocks t).cached
  cache : q.cache = p.cache
  duplicates : q.duplicates = p.duplicates
  cacheVersion : q.cacheVersion = p.cacheVersion

omit [DecidableEq κ] in
theorem SameMap.refl (p : SlotPool κ) : SameMap p p :=
  ⟨fun _ => rfl, fun _ => rfl, rfl, rfl, rfl⟩

omit [DecidableEq κ] in
theorem SameMap.trans {r : SlotPool κ} (h : SameMap p q) (h' : SameMap q r) : SameMap p r :=
  ⟨fun t => (h'.blockHash t).trans (h.blockHash t), fun t => (h'.cached t).trans (h.cached t),
    h'.cache.trans h.cache, h'.duplicates.trans h.duplicates,
    h'.cacheVersion.trans h.cacheVersion⟩

/-- References moved and the free queue was rearranged to match. -/
theorem Ok.requeue {refs' : Nat → Nat} (h : Ok n refs p)
    (hsame : SameMap p q) (href : ∀ t, 0 < t → (q.blocks t).refCount = refs' t)
    (hnull : (q.blocks 0).refCount ≠ 0) (howed : ∀ t, refs' t ≠ 0 → t < n)
    (hnd : (q.freeUncached ++ q.freeCached).Nodup)
    (hmem : ∀ t, t ∈ q.freeUncached ++ q.freeCached ↔ 0 < t ∧ t < n ∧ refs' t = 0)
    (hu : ∀ t ∈ q.freeUncached, (p.blocks t).blockHash = none)
    (hc : ∀ t ∈ q.freeCached, (p.blocks t).blockHash ≠ none) : Ok n refs' q where
  map := h.map.of_eq (fun t => ⟨hsame.cached t, hsame.blockHash t⟩) hsame.cache hsame.duplicates
  ref_eq := href
  owed := howed
  free_nodup := hnd
  mem_free := hmem
  free_uncached t ht := by rw [hsame.blockHash]; exact hu t ht
  free_cached t ht := by rw [hsame.blockHash]; exact hc t ht
  null := ⟨hnull, by rw [hsame.blockHash]; exact h.null.2⟩
  published t ht := by rw [hsame.blockHash] at ht; exact h.published t ht

theorem Ok.not_free (h : Ok n refs p)
    (hr : (p.blocks s).refCount ≠ 0) : s ∉ p.freeUncached ++ p.freeCached := by
  intro hf
  obtain ⟨hpos, -, href⟩ := (h.mem_free s).mp hf
  exact hr ((h.ref_eq s hpos).trans href)

/-- One count is written.  The queue has the slot exactly when nothing is owed for
it, and the other slots as before. -/
theorem Ok.setRef {refs' : Nat → Nat} {c : Nat} {fu fc : List Nat} (h : Ok n refs p) (hs : s < n)
    (hnull : s = 0 → c ≠ 0) (hc : 0 < s → refs' s = c) (hrest : ∀ t, t ≠ s → refs' t = refs t)
    (hnd : (fu ++ fc).Nodup)
    (hmem : ∀ t, t ∈ fu ++ fc ↔
      if t = s then 0 < s ∧ c = 0 else t ∈ p.freeUncached ++ p.freeCached)
    (hu : ∀ t ∈ fu, (p.blocks t).blockHash = none)
    (hcached : ∀ t ∈ fc, (p.blocks t).blockHash ≠ none) :
    Ok n refs' ({ p with freeUncached := fu, freeCached := fc }.setRef s c) := by
  refine h.requeue ⟨by simp, by simp, rfl, rfl, rfl⟩ (fun t ht => ?_) ?_ (fun t ht => ?_) hnd
    (fun t => ?_) hu hcached
  · by_cases hts : t = s
    · subst hts; simp [hc ht]
    · simp [hts, hrest t hts, h.ref_eq t ht]
  · by_cases h0 : 0 = s
    · subst h0; simpa using hnull rfl
    · simp [h0, h.null.1]
  · by_cases hts : t = s
    · exact hts ▸ hs
    · exact h.owed t (hrest t hts ▸ ht)
  · refine (hmem t).trans ?_
    split
    · next hts =>
      subst hts
      exact ⟨fun hf => ⟨hf.1, hs, (hc hf.1).trans hf.2⟩,
        fun hf => ⟨hf.1, (hc hf.1).symm.trans hf.2.2⟩⟩
    · next hts => rw [hrest t hts]; exact h.mem_free t

/-- A count is written that leaves the queue alone. -/
theorem Ok.setRef_owed {refs' : Nat → Nat} {c : Nat} (h : Ok n refs p) (hs : s < n)
    (hr : (p.blocks s).refCount ≠ 0) (hc0 : c ≠ 0) (hc : 0 < s → refs' s = c)
    (hrest : ∀ t, t ≠ s → refs' t = refs t) : Ok n refs' (p.setRef s c) := by
  refine h.setRef hs (fun _ => hc0) hc hrest h.free_nodup (fun t => ?_) h.free_uncached
    h.free_cached
  split
  · next hts => exact ⟨fun hf => absurd (hts ▸ hf) (h.not_free hr), fun hf => absurd hf.2 hc0⟩
  · rfl

/-! ### Acquisition -/

theorem addRefs_singleton (refs : Nat → Nat) (s t : Nat) :
    addRefs refs [s] t = if t = s then refs s + 1 else refs t := by
  by_cases ht : t = s
  · subst ht; simp [addRefs]
  · simp [addRefs, ht, Ne.symm ht]

theorem Ok.acquire (h : Ok n refs p) (hs : s < n) :
    ∃ q, p.acquire s = .ok q ∧ Ok n (addRefs refs [s]) q ∧ SameMap p q := by
  have hself : addRefs refs [s] s = refs s + 1 := by rw [addRefs_singleton, if_pos rfl]
  have hrest : ∀ t, t ≠ s → addRefs refs [s] t = refs t := fun t hts => by
    rw [addRefs_singleton, if_neg hts]
  unfold SlotPool.acquire
  by_cases hr : (p.blocks s).refCount = 0
  · have hpos : 0 < s := Nat.pos_of_ne_zero fun h0 => h.null.1 (h0 ▸ hr)
    have href : refs s = 0 := (h.ref_eq s hpos).symm.trans hr
    have hfree : s ∈ p.freeUncached ++ p.freeCached := (h.mem_free s).mpr ⟨hpos, hs, href⟩
    -- whichever end of the queue it stands in, the slot leaves the queue
    have hleave : ∀ {fu fc : List Nat}, (p.freeUncached ++ p.freeCached).erase s = fu ++ fc →
        (∀ t ∈ fu, (p.blocks t).blockHash = none) → (∀ t ∈ fc, (p.blocks t).blockHash ≠ none) →
        Ok n (addRefs refs [s]) ({ p with freeUncached := fu, freeCached := fc }.setRef s 1) := by
      intro fu fc he hu hc
      refine h.setRef hs (fun _ => one_ne_zero) (fun _ => by rw [hself, href]) hrest
        (he ▸ h.free_nodup.erase s) (fun t => ?_) hu hc
      rw [← he, h.free_nodup.mem_erase_iff]
      split <;> simp [*]
    rw [if_pos hr]
    by_cases hc : s ∈ p.freeCached
    · have hnotu : s ∉ p.freeUncached := fun hu => (nodup_append.mp h.free_nodup).2.2 s hu s hc rfl
      rw [if_pos hc]
      exact ⟨_, rfl, hleave (erase_append_right _ hnotu) h.free_uncached
        (fun t ht => h.free_cached t (mem_of_mem_erase ht)), by simp, by simp, rfl, rfl, rfl⟩
    · have hu : s ∈ p.freeUncached := (mem_append.mp hfree).resolve_right hc
      rw [if_neg hc, if_pos hu]
      exact ⟨_, rfl, hleave (erase_append_left _ hu)
        (fun t ht => h.free_uncached t (mem_of_mem_erase ht)) h.free_cached,
        by simp, by simp, rfl, rfl, rfl⟩
  · rw [if_neg hr]
    exact ⟨_, rfl, h.setRef_owed hs hr (Nat.succ_ne_zero _)
      (fun hpos => by rw [hself, h.ref_eq s hpos]) hrest, by simp, by simp, rfl, rfl, rfl⟩

/-! ### Release -/

/-- The pool with the slots collected by the release loop on its stack. -/
def withStack (p : SlotPool κ) (uncached : List Nat) : SlotPool κ :=
  { p with freeUncached := p.freeUncached ++ uncached.reverse }

omit [DecidableEq κ] in
@[simp] theorem withStack_blocks (p : SlotPool κ) (uncached : List Nat) :
    (p.withStack uncached).blocks = p.blocks := rfl

theorem dropRefs_cons (refs : Nat → Nat) (s : Nat) (rest : List Nat) (t : Nat) :
    dropRefs refs (s :: rest) t = dropRefs (dropRefs refs [s]) rest t := by
  simp only [dropRefs, count_cons, count_nil]
  omega

theorem dropRefs_singleton (refs : Nat → Nat) (s t : Nat) :
    dropRefs refs [s] t = if t = s then refs s - 1 else refs t := by
  by_cases ht : t = s
  · subst ht; simp [dropRefs]
  · simp [dropRefs, ht, Ne.symm ht]

theorem Ok.releaseLoop_cons {uncached : List Nat} (h : Ok n refs (p.withStack uncached))
    (hs0 : s ≠ 0) (hone : 1 ≤ refs s) (rest : List Nat) :
    ∃ p' uncached', p.releaseLoop uncached (s :: rest) = p'.releaseLoop uncached' rest ∧
      Ok n (dropRefs refs [s]) (p'.withStack uncached') ∧ SameMap p p' := by
  have hcount : (p.blocks s).refCount = refs s := h.ref_eq s (Nat.pos_of_ne_zero hs0)
  have hrc : (p.blocks s).refCount ≠ 0 := by omega
  have hnotfree : s ∉ p.freeUncached ++ uncached.reverse ++ p.freeCached := h.not_free hrc
  have hself : dropRefs refs [s] s = (p.blocks s).refCount - 1 := by
    rw [dropRefs_singleton, if_pos rfl, hcount]
  have hrest : ∀ t, t ≠ s → dropRefs refs [s] t = refs t := fun t hts => by
    rw [dropRefs_singleton, if_neg hts]
  have hsn : s < n := h.owed s (by omega)
  rw [releaseLoop]
  rw [if_neg (by simp [hs0, hrc])]
  by_cases hz : (p.blocks s).refCount - 1 = 0
  · -- whichever end of the queue it joins, the slot enters the queue
    have hjoin : ∀ {fu fc : List Nat},
        (fu ++ fc).Perm (s :: (p.freeUncached ++ uncached.reverse ++ p.freeCached)) →
        (∀ t ∈ fu, (p.blocks t).blockHash = none) → (∀ t ∈ fc, (p.blocks t).blockHash ≠ none) →
        Ok n (dropRefs refs [s]) ({ p with freeUncached := fu, freeCached := fc }.setRef s
          ((p.blocks s).refCount - 1)) := by
      intro fu fc hperm hu hc
      refine h.setRef hsn (fun h0 => absurd h0 hs0) (fun _ => hself) hrest
        (hperm.nodup_iff.mpr (nodup_cons.mpr ⟨hnotfree, h.free_nodup⟩)) (fun t => ?_) hu hc
      rw [hperm.mem_iff, mem_cons]
      split
      · next hts => exact iff_of_true (.inl hts) ⟨Nat.pos_of_ne_zero hs0, hz⟩
      · next hts => exact or_iff_right hts
    rw [if_pos hz]
    by_cases hh : (p.blocks s).blockHash.isSome
    · rw [if_pos hh]
      have hins : insertKey p.freeCached s = p.freeCached ++ [s] := by
        rw [insertKey, if_neg fun hc => hnotfree (mem_append_right _ hc)]
      refine ⟨_, _, rfl, hjoin ?_ h.free_uncached fun t ht => ?_, by simp, by simp, rfl, rfl, rfl⟩
      · rw [hins, ← append_assoc]
        exact perm_append_singleton s _
      · rw [hins, mem_append, mem_singleton] at ht
        rcases ht with ht | rfl
        · exact h.free_cached t ht
        · exact Option.isSome_iff_ne_none.mp hh
    · rw [if_neg hh]
      have hperm : (p.freeUncached ++ (uncached ++ [s]).reverse ++ p.freeCached).Perm
          (s :: (p.freeUncached ++ uncached.reverse ++ p.freeCached)) := by
        rw [reverse_append, reverse_singleton, singleton_append, append_assoc,
          cons_append, append_assoc]
        exact perm_middle
      refine ⟨_, _, rfl, hjoin hperm (fun t ht => ?_) h.free_cached,
        by simp, by simp, rfl, rfl, rfl⟩
      simp only [mem_append, reverse_append, reverse_singleton, mem_singleton] at ht
      rcases ht with ht | rfl | ht
      · exact h.free_uncached t (mem_append_left _ ht)
      · exact Option.not_isSome_iff_eq_none.mp hh
      · exact h.free_uncached t (mem_append_right _ ht)
  · rw [if_neg hz]
    exact ⟨_, _, rfl, h.setRef_owed hsn hrc hz (fun _ => hself) hrest,
      by simp, by simp, rfl, rfl, rfl⟩

/-- The loop returns when every slot is owed what it gives back, and then exactly
these references are gone. -/
theorem releaseLoop_ok : ∀ (slots : List Nat) {refs : Nat → Nat} {p : SlotPool κ}
    {uncached : List Nat}, Ok n refs (p.withStack uncached) → 0 ∉ slots →
    (∀ t, slots.count t ≤ refs t) →
    ∃ q uncached', p.releaseLoop uncached slots = .ok (q, uncached') ∧
      Ok n (dropRefs refs slots) (q.withStack uncached') ∧ SameMap p q
  | [], refs, p, uncached, h, _, _ =>
    ⟨p, uncached, rfl, h.congr fun s => by simp [dropRefs], .refl p⟩
  | s :: rest, refs, p, uncached, h, h0, hle => by
    have hs0 : s ≠ 0 := fun he => h0 (he ▸ mem_cons_self ..)
    have hone : 1 ≤ refs s := by
      have := hle s
      rw [count_cons_self] at this
      omega
    have hle' : ∀ t, rest.count t ≤ dropRefs refs [s] t := by
      intro t
      have := hle t
      rw [dropRefs_singleton]
      by_cases hts : t = s
      · subst hts
        rw [count_cons_self] at this
        simp only [if_pos]
        omega
      · rw [count_cons_of_ne (Ne.symm hts)] at this
        rw [if_neg hts]; exact this
    have h0' : 0 ∉ rest := fun hh => h0 (mem_cons_of_mem _ hh)
    obtain ⟨p', uncached', heq, hstep, hsame⟩ := h.releaseLoop_cons hs0 hone rest
    obtain ⟨q, acc, hq, hok, hsame'⟩ := releaseLoop_ok rest hstep h0' hle'
    exact ⟨q, acc, heq.trans hq, hok.congr (dropRefs_cons refs s rest), hsame.trans hsame'⟩

/-- Releasing references that are owed succeeds and takes exactly them away. -/
theorem Ok.releaseMany (h : Ok n refs p)
    (slots : List Nat) (h0 : 0 ∉ slots) (hle : ∀ t, slots.count t ≤ refs t) :
    ∃ q, p.releaseMany slots = .ok q ∧ Ok n (dropRefs refs slots) q ∧ SameMap p q := by
  have hstack : Ok n refs (p.withStack []) := by
    simpa [withStack] using h
  obtain ⟨q, acc, hq, hok, hsm⟩ := releaseLoop_ok slots hstack h0 hle
  refine ⟨q.withStack acc, ?_, hok, hsm.trans ⟨fun _ => rfl, fun _ => rfl, rfl, rfl, rfl⟩⟩
  unfold SlotPool.releaseMany
  rw [hq]
  rfl

/-! ### Allocation -/

/-- What holds between a pool and a later one as far as the version tells: it
never decreases, and while it stands still the primary entries do too. -/
structure Versioned (p q : SlotPool κ) : Prop where
  le : p.cacheVersion ≤ q.cacheVersion
  cache : q.cacheVersion = p.cacheVersion → q.cache = p.cache

omit [DecidableEq κ] in
theorem Versioned.refl (p : SlotPool κ) : Versioned p p := ⟨le_rfl, fun _ => rfl⟩

omit [DecidableEq κ] in
theorem Versioned.trans {r : SlotPool κ} (h : Versioned p q) (h' : Versioned q r) :
    Versioned p r := by
  have hle := h.le
  have hle' := h'.le
  refine ⟨le_trans hle hle', fun he => ?_⟩
  rw [h'.cache (by omega), h.cache (by omega)]

omit [DecidableEq κ] in
theorem SameMap.versioned (h : SameMap p q) : Versioned p q :=
  ⟨le_of_eq h.cacheVersion.symm, fun _ => h.cache⟩

theorem evict_versioned (p : SlotPool κ) (s : Nat) : Versioned p (p.evict s) := by
  unfold evict
  split
  · exact ⟨le_rfl, fun _ => rfl⟩
  · refine ⟨Nat.le_succ _, fun he => ?_⟩
    have hsucc : p.cacheVersion + 1 = p.cacheVersion := he
    omega

theorem publish_versioned (p : SlotPool κ) (s : Nat) (key : κ) : Versioned p (p.publish s key) := by
  have hpre : Versioned p (if (p.blocks s).blockHash = some key then p else p.evict s) := by
    split
    · exact .refl p
    · exact evict_versioned p s
  refine hpre.trans ?_
  unfold publish
  generalize (if (p.blocks s).blockHash = some key then p else p.evict s) = q
  dsimp only
  have hver := enter_cacheVersion q s key
  cases hc : q.cache.get? key with
  | none =>
    refine ⟨Nat.le_succ _, fun he => ?_⟩
    have hsucc : q.cacheVersion + 1 = q.cacheVersion := he
    omega
  | some t =>
    refine ⟨le_of_eq hver.symm, fun _ => ?_⟩
    unfold enter
    rw [hc]
    dsimp only
    split <;> rfl

/-- Claiming distinct unreferenced slots succeeds.  Each gets one reference and
loses its identity. -/
theorem claim_spec : ∀ (slots : List Nat) {p : SlotPool κ}, MapOk p → slots.Nodup →
    (∀ s ∈ slots, (p.blocks s).refCount = 0) →
    ∃ q, p.claim slots = .ok q ∧ MapOk q ∧ Versioned p q ∧
      q.freeUncached = p.freeUncached ∧ q.freeCached = p.freeCached ∧
      (∀ t, t ∉ slots → q.blocks t = p.blocks t) ∧
      ∀ t ∈ slots, (q.blocks t).refCount = 1 ∧ (q.blocks t).blockHash = none
  | [], p, hm, _, _ => ⟨p, rfl, hm, .refl p, rfl, rfl, fun _ _ => rfl, nofun⟩
  | s :: rest, p, hm, hnd, hz => by
    rw [nodup_cons] at hnd
    -- after the eviction, needed or not, the slot has no identity
    obtain ⟨p₁, hp₁, hm₁, hblk₁, hhash₁, hver₁, hfu₁, hfc₁⟩ : ∃ p₁ : SlotPool κ,
        (if (p.blocks s).blockHash.isSome ∨ (p.blocks s).cached then p.evict s else p) = p₁ ∧
        MapOk p₁ ∧ (∀ t, t ≠ s → p₁.blocks t = p.blocks t) ∧ (p₁.blocks s).blockHash = none ∧
        Versioned p p₁ ∧ p₁.freeUncached = p.freeUncached ∧ p₁.freeCached = p.freeCached := by
      split
      · exact ⟨_, rfl, hm.evict s, fun t ht => by simp [ht], by simp, evict_versioned p s,
          by simp, by simp⟩
      · next hcond =>
        exact ⟨p, rfl, hm, fun _ _ => rfl, Option.not_isSome_iff_eq_none.mp (not_or.mp hcond).1,
          .refl p, rfl, rfl⟩
    have hz' : ∀ t ∈ rest, ((p₁.setRef s 1).blocks t).refCount = 0 := by
      intro t ht
      have hts : t ≠ s := fun he => hnd.1 (he ▸ ht)
      simpa [hts, hblk₁ t hts] using hz t (mem_cons_of_mem _ ht)
    obtain ⟨q, hq, hmq, hvq, hfu, hfc, hother, hin⟩ :=
      claim_spec rest (hm₁.setRef s 1) hnd.2 hz'
    refine ⟨q, ?_, hmq, hver₁.trans ⟨hvq.le, hvq.cache⟩,
      hfu.trans hfu₁, hfc.trans hfc₁, fun t ht => ?_, fun t ht => ?_⟩
    · unfold claim
      rw [if_neg (by simp [hz s mem_cons_self])]
      dsimp only
      rw [hp₁]
      exact hq
    · rw [mem_cons, not_or] at ht
      rw [hother t ht.2]
      simp [ht.1, hblk₁ t ht.1]
    · rcases mem_cons.mp ht with ht | ht
      · subst ht
        rw [hother t hnd.1]
        simpa using hhash₁
      · exact hin t ht

/-- The slots that `allocateMany` hands out, in order: from the top of the
stack, then the oldest published ones. -/
def front (p : SlotPool κ) (count : Nat) : List Nat :=
  let take := min count p.freeUncached.length
  (p.freeUncached.drop (p.freeUncached.length - take)).reverse ++ p.freeCached.take (count - take)

omit [DecidableEq κ] in
theorem front_perm (p : SlotPool κ) (count : Nat) :
    (p.front count ++ (p.freeUncached.take (p.freeUncached.length -
      min count p.freeUncached.length) ++
        p.freeCached.drop (count - min count p.freeUncached.length))).Perm
      (p.freeUncached ++ p.freeCached) := by
  generalize hk : p.freeUncached.length - min count p.freeUncached.length = k
  generalize hm : count - min count p.freeUncached.length = m
  have hu : (p.freeUncached.take k ++ p.freeUncached.drop k) = p.freeUncached :=
    take_append_drop k _
  have hc : (p.freeCached.take m ++ p.freeCached.drop m) = p.freeCached :=
    take_append_drop m _
  have hfront : p.front count = (p.freeUncached.drop k).reverse ++ p.freeCached.take m := by
    simp only [front, hk, hm]
  calc p.front count ++ (p.freeUncached.take k ++ p.freeCached.drop m)
      = (p.freeUncached.drop k).reverse ++ (p.freeCached.take m ++
          (p.freeUncached.take k ++ p.freeCached.drop m)) := by
        rw [hfront, append_assoc]
    _ |>.Perm (p.freeUncached.drop k ++ (p.freeUncached.take k ++
          (p.freeCached.take m ++ p.freeCached.drop m))) := by
        refine (reverse_perm _).append ?_
        rw [← append_assoc, ← append_assoc]
        exact (perm_append_comm).append_right _
    _ |>.Perm (p.freeUncached ++ p.freeCached) := by
        rw [hc, ← append_assoc]
        refine List.Perm.append_right _ ?_
        calc p.freeUncached.drop k ++ p.freeUncached.take k
            |>.Perm (p.freeUncached.take k ++ p.freeUncached.drop k) := perm_append_comm
          _ = p.freeUncached := hu

/-- Allocation succeeds when the free queue is long enough.  It hands out the
front of the queue: distinct slots that nothing referenced, now with one
reference each and without an identity.  Nothing else about a block changes. -/
theorem Ok.allocateMany (h : Ok n refs p) {count : Nat} (hle : count ≤ p.getNumFreeBlocks) :
    ∃ q, p.allocateMany count = .ok (q, p.front count) ∧
      Ok n (addRefs refs (p.front count)) q ∧ Versioned p q ∧
      (∀ t, t ∉ p.front count → q.blocks t = p.blocks t) ∧
      ∀ t ∈ p.front count, (q.blocks t).blockHash = none := by
  by_cases hcount : count = 0
  · subst hcount
    have hfront : p.front 0 = [] := by simp [front]
    rw [hfront]
    exact ⟨p, by simp [SlotPool.allocateMany, pure, Except.pure],
      h.congr fun s => by simp [addRefs], .refl p, fun _ _ => rfl, nofun⟩
  · have hperm := front_perm p count
    have hndall := hperm.nodup_iff.mpr h.free_nodup
    obtain ⟨hndf, hndr, hdis⟩ := nodup_append.mp hndall
    have hfree : ∀ s ∈ p.front count, 0 < s ∧ s < n ∧ refs s = 0 := fun s hs =>
      (h.mem_free s).mp (hperm.subset (mem_append_left _ hs))
    have hzero : ∀ s ∈ p.front count, (p.blocks s).refCount = 0 := fun s hs =>
      (h.ref_eq s (hfree s hs).1).trans (hfree s hs).2.2
    let p₁ : SlotPool κ := { p with
      freeUncached := p.freeUncached.take (p.freeUncached.length - min count p.freeUncached.length)
      freeCached := p.freeCached.drop (count - min count p.freeUncached.length) }
    have hm₁ : MapOk p₁ := h.map.of_eq (fun _ => ⟨rfl, rfl⟩) rfl rfl
    obtain ⟨q, hq, hmq, hvq, hfu, hfc, hother, hin⟩ := claim_spec (p.front count) hm₁ hndf hzero
    have hcountf : ∀ t, (p.front count).count t = if t ∈ p.front count then 1 else 0 := by
      intro t
      by_cases ht : t ∈ p.front count
      · rw [if_pos ht]; exact count_eq_one_of_mem hndf ht
      · rw [if_neg ht]; exact List.count_eq_zero.mpr ht
    refine ⟨q, ?_, ⟨hmq, fun t ht => ?_, fun t ht => ?_, ?_, fun t => ?_, fun t ht => ?_,
      fun t ht => ?_, ?_, fun t ht => ?_⟩, ⟨hvq.le, hvq.cache⟩, hother,
      fun t ht => (hin t ht).2⟩
    · unfold SlotPool.allocateMany
      rw [if_neg hcount, if_neg (by omega)]
      exact Except.bind_eq_ok.mpr ⟨q, hq, rfl⟩
    · by_cases htf : t ∈ p.front count
      · rw [addRefs, hcountf, if_pos htf, (hin t htf).1, (hfree t htf).2.2]
      · rw [addRefs, hcountf, if_neg htf, hother t htf]
        exact h.ref_eq t ht
    · by_cases htf : t ∈ p.front count
      · exact (hfree t htf).2.1
      · rw [addRefs, hcountf, if_neg htf] at ht
        exact h.owed t ht
    · rw [hfu, hfc]; exact hndr
    · rw [hfu, hfc, addRefs, hcountf]
      have hall : t ∈ p.front count ++ (p₁.freeUncached ++ p₁.freeCached) ↔
          0 < t ∧ t < n ∧ refs t = 0 := hperm.mem_iff.trans (h.mem_free t)
      by_cases htf : t ∈ p.front count
      · rw [if_pos htf]
        exact ⟨fun hr => absurd rfl (hdis t htf t hr), fun hh => by omega⟩
      · rw [if_neg htf, add_zero, ← hall]
        exact ⟨mem_append_right _, fun hh => (mem_append.mp hh).resolve_left htf⟩
    · rw [hfu] at ht
      have htf : t ∉ p.front count := fun hf =>
        hdis t hf t (mem_append_left _ ht) rfl
      rw [hother t htf]
      exact h.free_uncached t (mem_of_mem_take ht)
    · rw [hfc] at ht
      have htf : t ∉ p.front count := fun hf =>
        hdis t hf t (mem_append_right _ ht) rfl
      rw [hother t htf]
      exact h.free_cached t (mem_of_mem_drop ht)
    · have h0 : 0 ∉ p.front count := fun hf => absurd (hfree 0 hf).1 (lt_irrefl 0)
      rw [hother 0 h0]; exact h.null
    · by_cases htf : t ∈ p.front count
      · exact (hfree t htf).2.1
      · rw [hother t htf] at ht; exact h.published t ht

theorem Ok.allocateMany_le (_ : Ok n refs p)
    {count : Nat} {r : SlotPool κ × List Nat} (hr : p.allocateMany count = .ok r) :
    count ≤ p.getNumFreeBlocks := by
  unfold SlotPool.allocateMany at hr
  by_cases hcount : count = 0
  · omega
  · rw [if_neg hcount] at hr
    obtain ⟨hle, -⟩ := Except.ite_throw_eq_ok.mp hr
    omega

end TokenSim.SlotPool
