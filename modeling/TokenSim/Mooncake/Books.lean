import TokenSim.Mooncake.Offload

/-!
# The books of the store

The memory tier and the offload tier keep their books separately.  `Ledger` are
the books of the memory tier, and `Books` adds those of the offload tier and that
every object the offload tier serves has an entry there.  One write can evict
from memory into the offload tier, which evicts in turn; in between the books of
memory agree (`Ledger.demote`, `Dropped`), and at the end all do
(`evictMemory_spec`, `putOne_spec`).

A tier that cannot hold a single block raises in the middle of an eviction and
leaves an object behind that neither tier has (`zero_block_tier_loses_object`).
-/

set_option linter.unusedSectionVars false

namespace TokenSim

open List OrderedDict Option

namespace MooncakeStore

open EStateM

variable {κ T : Type} [DecidableEq κ] [LinearOrder T] [Add T] [Zero T]
  {cfg : MooncakeConfig T} {s s' : MooncakeStore κ T} {key : κ} {o o' : StoreObject T} {now : T}

/-! ## The memory tier -/

/-- What an object occupies in memory. -/
def memoryBytes (o : StoreObject T) : Nat := if o.tier = .memory then o.bytes else 0

/-- The books of the memory tier agree. -/
structure Ledger (s : MooncakeStore κ T) : Prop where
  lru : ∀ k, k ∈ s.memoryLru.keys ↔ ∃ o, s.objects.get? k = some o ∧ o.tier = .memory
  used : s.memoryUsedBytes = s.objects.sum fun _ o => memoryBytes o
  sized : ∀ k o, s.objects.get? k = some o → 0 < o.blocks

theorem Ledger.congr (h : Ledger s) (ho : s'.objects = s.objects)
    (hl : ∀ k, k ∈ s'.memoryLru.keys ↔ k ∈ s.memoryLru.keys)
    (hu : s'.memoryUsedBytes = s.memoryUsedBytes) : Ledger s' := by
  refine ⟨fun k => ?_, ?_, ?_⟩
  · rw [hl, ho]
    exact h.lru k
  · rw [hu, ho]
    exact h.used
  · rw [ho]
    exact h.sized

/-- The books after the object of one key changed, with its bytes and its place in
the order. -/
theorem Ledger.change {m : MooncakeStore κ T} {old new : Option (StoreObject T)} (h : Ledger s)
    (hold : s.objects.get? key = old) (hnew : m.objects.get? key = new)
    (hobjects : m.objects.erase key = s.objects.erase key)
    (hlru : ∀ k, k ≠ key → (k ∈ m.memoryLru.keys ↔ k ∈ s.memoryLru.keys))
    (hkey : key ∈ m.memoryLru.keys ↔ ∃ o, new = some o ∧ o.tier = .memory)
    (hused : m.memoryUsedBytes + old.elim 0 memoryBytes =
      s.memoryUsedBytes + new.elim 0 memoryBytes)
    (hsized : ∀ o, new = some o → 0 < o.blocks) : Ledger m := by
  have hother : ∀ k, k ≠ key → m.objects.get? k = s.objects.get? k := fun k hk => by
    rw [← get?_erase_of_ne hk, hobjects, get?_erase_of_ne hk]
  refine ⟨fun k => ?_, ?_, fun k x hx => ?_⟩
  · by_cases hk : k = key
    · rw [hk, hnew]
      exact hkey
    · rw [hlru k hk, hother k hk]
      exact h.lru k
  · have hsum : ∀ d : OrderedDict κ (StoreObject T), (d.sum fun _ o => memoryBytes o) =
        ((d.erase key).sum fun _ o => memoryBytes o) + (d.get? key).elim 0 memoryBytes := fun d =>
      sum_eq_erase d key fun _ o => memoryBytes o
    have := h.used
    rw [hsum, hold] at this
    rw [hsum, hnew, hobjects]
    omega
  · by_cases hk : k = key
    · rw [hk, hnew] at hx
      exact hsized x hx
    · exact h.sized k x (hother k hk ▸ hx)

theorem memoryBytes_of_memory (h : o.tier = .memory) : memoryBytes o = o.bytes := if_pos h

theorem memoryBytes_of_offload (h : o.tier = .offload) : memoryBytes o = 0 :=
  if_neg (by rw [h]; decide)

/-- An object that the memory tier holds is counted there. -/
theorem Ledger.bytes_le (h : Ledger s) (ho : s.objects.get? key = some o)
    (hmem : o.tier = .memory) : o.bytes ≤ s.memoryUsedBytes := by
  have hsum := sum_erase_of_get? ho fun _ x => memoryBytes x
  have := memoryBytes_of_memory hmem
  have := h.used
  omega

theorem Ledger.setObject (h : Ledger s) (ho : s.objects.get? key = some o)
    (htier : o'.tier = o.tier) (hbytes : o'.bytes = o.bytes) (hblocks : 0 < o'.blocks) :
    Ledger (s.setObject key o') := by
  refine h.change ho get?_set_self (erase_set_self ..) (fun _ _ => .rfl) ?_ ?_ ?_
  · refine (h.lru key).trans ?_
    simp [ho, htier]
  · have hsame : memoryBytes o' = memoryBytes o := by unfold memoryBytes; rw [htier, hbytes]
    exact congrArg (s.memoryUsedBytes + ·) hsame.symm
  · rintro _ ⟨⟩
    exact hblocks

theorem Ledger.touch (h : Ledger s) (ho : s.objects.get? key = some o) :
    Ledger (s.touch key o) := by
  have hset : Ledger (s.setObject key { o with lastAccess := s.accessCounter + 1 }) :=
    h.setObject ho rfl rfl (h.sized key o ho)
  refine hset.congr rfl (fun k => ?_) rfl
  show k ∈ (if o.tier = .memory then s.memoryLru.moveToEnd key else s.memoryLru).keys ↔ _
  split
  · exact mem_keys_moveToEnd
  · exact .rfl

variable {m : MooncakeStore κ T} {tierCfg : OffloadConfig T} {initialDelay : T} {l keys : List κ}

theorem Ledger.eraseOffloaded (h : Ledger s) (ho : s.objects.get? key = some o)
    (htier : o.tier = .offload) (hm : m.objects = s.objects.erase key)
    (hl : m.memoryLru = s.memoryLru) (hu : m.memoryUsedBytes = s.memoryUsedBytes) : Ledger m := by
  have hnone : m.objects.get? key = none := hm ▸ get?_erase_self
  refine h.change ho hnone (hm ▸ erase_erase_self ..) (fun _ _ => hl ▸ .rfl) ?_ ?_ nofun
  · rw [hl, h.lru, ho]
    simp [htier]
  · rw [hu]
    exact congrArg (s.memoryUsedBytes + ·) (memoryBytes_of_offload htier)

theorem Ledger.dropEvicted (h : Ledger s) (now : T) (k : κ) :
    Ledger (MooncakeStore.dropEvicted now s k) := by
  unfold MooncakeStore.dropEvicted
  cases ho : s.objects.get? k with
  | none => exact h
  | some o =>
    dsimp only
    split
    · rename_i htier
      exact h.eraseOffloaded ho htier rfl rfl rfl
    · exact h.setObject ho rfl rfl (h.sized k o ho)

/-! ## What the offload tier dropped -/

/-- The object of a key after the tier dropped some entries. -/
theorem get?_dropEvicted (now : T) (s : MooncakeStore κ T) (j k : κ) :
    (dropEvicted now s j).objects.get? k =
      if k = j then (s.objects.get? k).bind fun o =>
        if o.tier = .offload then none else some { o with persisted := false }
      else s.objects.get? k := by
  unfold dropEvicted
  cases ho : s.objects.get? j with
  | none =>
    by_cases hk : k = j
    · subst hk
      simp [ho]
    · simp [hk]
  | some o =>
    dsimp only
    split
    · rename_i htier
      show (s.objects.erase j).get? k = _
      rw [get?_erase]
      by_cases hk : k = j
      · subst hk
        simp [ho, htier]
      · simp [hk]
    · rename_i htier
      show (s.objects.set j _).get? k = _
      rw [get?_set]
      by_cases hk : k = j
      · subst hk
        simp [ho, htier]
      · simp [hk]

/-- What a record of a write leaves alone, and what it does to the objects. -/
structure Dropped (s : MooncakeStore κ T) (evicted : List κ) (s' : MooncakeStore κ T) : Prop where
  memoryLru : s'.memoryLru = s.memoryLru
  memoryUsedBytes : s'.memoryUsedBytes = s.memoryUsedBytes
  offload : s'.offload = s.offload
  ledger : Ledger s → Ledger s'
  absent : ∀ k, s.objects.get? k = none → s'.objects.get? k = none
  /-- Objects that stay keep everything but their mark of persistence. -/
  kept : ∀ k o', s'.objects.get? k = some o' → ∃ o, s.objects.get? k = some o ∧
    o'.tier = o.tier ∧ o'.readyAt = o.readyAt ∧ o'.inUseUntil = o.inUseUntil ∧
    o'.bytes = o.bytes ∧ o'.blocks = o.blocks
  /-- None that the tier served and dropped stays. -/
  served : ∀ k ∈ evicted, ∀ o', s'.objects.get? k = some o' → o'.tier = .memory
  other : ∀ k, k ∉ evicted → s'.objects.get? k = s.objects.get? k

theorem dropped_dropAll (now : T) : ∀ (evicted : List κ) (s : MooncakeStore κ T),
    Dropped s evicted (evicted.foldl (dropEvicted now) s)
  | [], s => ⟨rfl, rfl, rfl, id, fun _ h => h, fun k o h => ⟨o, h, rfl, rfl, rfl, rfl, rfl⟩,
      nofun, fun _ _ => rfl⟩
  | j :: rest, s => by
    have hfirst : (dropEvicted now s j).memoryLru = s.memoryLru ∧
        (dropEvicted now s j).memoryUsedBytes = s.memoryUsedBytes ∧
        (dropEvicted now s j).offload = s.offload := by
      unfold dropEvicted
      cases s.objects.get? j with
      | none => exact ⟨rfl, rfl, rfl⟩
      | some o =>
        dsimp only
        split
        · exact ⟨rfl, rfl, rfl⟩
        · exact ⟨rfl, rfl, rfl⟩
    have ih := dropped_dropAll now rest (dropEvicted now s j)
    have hj : ∀ o', (dropEvicted now s j).objects.get? j = some o' → o'.tier = .memory := by
      intro o' ho'
      rw [get?_dropEvicted, if_pos rfl] at ho'
      obtain ⟨o, -, ho⟩ := bind_eq_some_iff.mp ho'
      split at ho
      · cases ho
      · rename_i htier
        cases ho
        cases hm : o.tier with
        | memory => rfl
        | offload => exact absurd hm htier
    refine ⟨ih.memoryLru.trans hfirst.1, ih.memoryUsedBytes.trans hfirst.2.1,
      ih.offload.trans hfirst.2.2, fun h => ih.ledger (h.dropEvicted now j), fun k hk => ?_,
      fun k o' ho' => ?_, fun k hk o' ho' => ?_, fun k hk => ?_⟩
    · refine ih.absent k ?_
      rw [get?_dropEvicted, hk]
      split <;> rfl
    · obtain ⟨o₁, ho₁, h1, h2, h3, h4, h5⟩ := ih.kept k o' ho'
      rw [get?_dropEvicted] at ho₁
      split at ho₁
      · obtain ⟨o, ho, hsome⟩ := bind_eq_some_iff.mp ho₁
        split at hsome
        · cases hsome
        · cases hsome
          exact ⟨o, ho, h1, h2, h3, h4, h5⟩
      · exact ⟨o₁, ho₁, h1, h2, h3, h4, h5⟩
    · by_cases hrest : k ∈ rest
      · exact ih.served k hrest o' ho'
      · rw [foldl_cons, ih.other k hrest] at ho'
        rcases mem_cons.mp hk with rfl | hk
        · exact hj o' ho'
        · exact absurd hk hrest
    · rw [mem_cons, not_or] at hk
      rw [foldl_cons, ih.other k hk.2, get?_dropEvicted, if_neg hk.1]

theorem dropped_record (now : T) (op : OffloadOperation κ T) (s : MooncakeStore κ T) :
    Dropped s op.evictedKeys (recordOffloadWrite now op s) := by
  have h := dropped_dropAll now op.evictedKeys (updateStats (fun st => { st with
    writeBlocks := st.writeBlocks + op.blocks, writeBytes := st.writeBytes + op.bytes }) s)
  exact ⟨h.memoryLru, h.memoryUsedBytes, h.offload,
    fun hl => h.ledger { hl with }, h.absent, h.kept, h.served, h.other⟩

/-! ## Both tiers -/

/-- The blocks that the offload tier can hold. -/
def tierCapacity (cfg : MooncakeConfig T) : Nat :=
  match cfg.offload with
  | some tierCfg => tierCfg.capacityBlocks
  | none => 0

/-- Objects of the offload tier, except possibly one, have an entry there. -/
def OffloadedBut (s : MooncakeStore κ T) (key : κ) : Prop :=
  ∀ k o, s.objects.get? k = some o → o.tier = .offload → k = key ∨ k ∈ s.offload.blocks.keys

/-- The books of the store agree. -/
structure Books (cfg : MooncakeConfig T) (s : MooncakeStore κ T) : Prop where
  ledger : Ledger s
  within : s.memoryUsedBytes ≤ cfg.memoryCapacityBytes
  offloaded : ∀ k o, s.objects.get? k = some o → o.tier = .offload → k ∈ s.offload.blocks.keys
  tier : s.offload.Ok (tierCapacity cfg)

theorem init_books (cfg : MooncakeConfig T) : Books cfg (init : MooncakeStore κ T) := by
  refine ⟨⟨fun k => ?_, rfl, nofun⟩, Nat.zero_le _, nofun,
    OffloadTier.init_ok _⟩
  show k ∈ [] ↔ ∃ o, (none : Option (StoreObject T)) = some o ∧ _
  simp

theorem Books.updateStats (h : Books cfg s) (f : MooncakeStats → MooncakeStats) :
    Books cfg (s.updateStats f) :=
  ⟨{ h.ledger with }, h.within, h.offloaded, h.tier⟩

/-- A configured tier holds at least one block. -/
def TierUsable (cfg : MooncakeConfig T) : Prop :=
  ∀ tierCfg, cfg.offload = some tierCfg → 0 < tierCfg.capacityBlocks

theorem offloadWrite_spec {blocks : Nat} (hpos : 0 < blocks) :
    Post (offloadWrite cfg tierCfg key blocks now) s
      (fun op s' => ∃ t', s' = { s with offload := t' } ∧
        OffloadTier.Writes tierCfg.capacityBlocks s.offload key now t' op)
      (fun _ s' => s' = s ∧ ¬ (s.offload.Ok tierCfg.capacityBlocks ∧ 0 < tierCfg.capacityBlocks)) := by
  unfold offloadWrite
  refine post_bind.mpr (post_get.mpr (post_bind.mpr (post_ofExcept.mpr ⟨fun out hout => ?_,
    fun e he => ⟨rfl, fun ⟨hok, hcap⟩ => ?_⟩⟩)))
  · exact ⟨out.1, rfl, OffloadTier.write_spec hpos hout⟩
  · obtain ⟨out, hout⟩ : ∃ out, s.offload.write tierCfg cfg.blockBytes key blocks now = .ok out :=
      OffloadTier.write_total hok hcap
    rw [hout] at he
    cases he

/-- After a write and its record every served object has an entry. -/
theorem offloaded_of_record {t' : OffloadTier κ T}
    {op : OffloadOperation κ T} (hbut : OffloadedBut s key)
    (hwrites : OffloadTier.Writes tierCfg.capacityBlocks s.offload key now t' op)
    (hobjects : m.objects = s.objects) (hblocks : m.offload.blocks = t'.blocks)
    (hdropped : Dropped m op.evictedKeys s') :
    ∀ k o, s'.objects.get? k = some o → o.tier = .offload → k ∈ s'.offload.blocks.keys := by
  intro k o ho htier
  rw [hdropped.offload, hblocks]
  have hnot : k ∉ op.evictedKeys := fun hk => by
    rw [hdropped.served k hk o ho] at htier
    cases htier
  rw [hdropped.other k hnot, hobjects] at ho
  rw [hwrites.blocks]
  rcases hbut k o ho htier with rfl | hmem
  · exact .inl ⟨rfl, hnot⟩
  · exact .inr ⟨hmem, .inl hnot⟩

/-! ## Evicting from memory -/

/-- An object leaves memory, for the offload tier or altogether. -/
theorem Ledger.leave {new : Option (StoreObject T)} (h : Ledger s)
    (ho : s.objects.get? key = some o) (hmem : o.tier = .memory)
    (hnew : m.objects.get? key = new) (hobjects : m.objects.erase key = s.objects.erase key)
    (hl : m.memoryLru = s.memoryLru.erase key) (hu : m.memoryUsedBytes = s.memoryUsedBytes - o.bytes)
    (hoffload : ∀ x, new = some x → x.tier = .offload ∧ 0 < x.blocks) : Ledger m := by
  refine h.change ho hnew hobjects (fun k hk => ?_) ?_ ?_ fun x hx => (hoffload x hx).2
  · rw [hl, mem_keys_erase]
    exact and_iff_right hk
  · rw [hl, mem_keys_erase]
    refine iff_of_false (fun hin => hin.1 rfl) ?_
    rintro ⟨x, hx, hxmem⟩
    cases (hoffload x hx).1.symm.trans hxmem
  · have hle := h.bytes_le ho hmem
    have hbytes := memoryBytes_of_memory hmem
    have hzero : new.elim 0 memoryBytes = 0 := by
      cases hx : new with
      | none => rfl
      | some x => exact memoryBytes_of_offload (hoffload x hx).1
    rw [hu, hzero, elim_some, hbytes]
    omega

/-- What an eviction keeps: the books, and that absent keys stay absent. -/
structure Evicts (cfg : MooncakeConfig T) (s s' : MooncakeStore κ T) : Prop where
  books : Books cfg s'
  absent : ∀ k, s.objects.get? k = none → s'.objects.get? k = none

theorem Evicts.trans {s'' : MooncakeStore κ T} (h : Evicts cfg s s') (h' : Evicts cfg s' s'') :
    Evicts cfg s s'' :=
  ⟨h'.books, fun k hk => h'.absent k (h.absent k hk)⟩

/-- The state in which an object is written to the offload tier: all books agree,
but the object may be marked as served by a tier that has no entry for it. -/
structure Pending (cfg : MooncakeConfig T) (key : κ) (s : MooncakeStore κ T) : Prop where
  ledger : Ledger s
  within : s.memoryUsedBytes ≤ cfg.memoryCapacityBytes
  offloaded : OffloadedBut s key
  tier : s.offload.Ok (tierCapacity cfg)

theorem writeThrough_spec (h : Pending cfg key s)
    (hcap : TierUsable cfg) (htier : cfg.offload = some tierCfg)
    (ho : s.objects.get? key = some o) :
    Post (writeThrough cfg tierCfg key o now initialDelay) s (fun _ s' => Evicts cfg s s')
      fun _ _ => False := by
  have hcapacity : tierCapacity cfg = tierCfg.capacityBlocks := by unfold tierCapacity; rw [htier]
  unfold writeThrough
  refine (offloadWrite_spec (h.ledger.sized key o ho)).bind ?_ fun e s' he =>
    he.2 ⟨hcapacity ▸ h.tier, hcap tierCfg htier⟩
  rintro op _ ⟨t', rfl, hwrites⟩
  refine post_bind.mpr (post_modify.mpr ?_)
  have hdropped := dropped_record now op { s with offload := t' }
  generalize recordOffloadWrite now op { s with offload := t' } = s₁ at hdropped ⊢
  have hledger : Ledger s₁ := hdropped.ledger { h.ledger with }
  have hbooks : Books cfg s₁ := by
    refine ⟨hledger, ?_, offloaded_of_record (m := { s with offload := t' }) h.offloaded
      hwrites rfl rfl hdropped, ?_⟩
    · rw [hdropped.memoryUsedBytes]
      exact h.within
    · rw [hdropped.offload, hcapacity]
      exact hwrites.ok (hcapacity ▸ h.tier)
  split
  · exact post_pure.mpr ⟨hbooks, hdropped.absent⟩
  · rename_i hnot
    refine post_bind.mpr (post_bind.mpr (post_modify.mpr (post_pure.mpr
      (post_bind.mpr (post_modify.mpr (post_pure.mpr ?_))))))
    have ho₁ : s₁.objects.get? key = some o := (hdropped.other key hnot).trans ho
    have hset : Ledger (s₁.setObject key (o.written (now + initialDelay + op.latency))) :=
      hledger.setObject ho₁ rfl rfl (hledger.sized key o ho₁)
    refine ⟨⟨{ hset with }, hbooks.within, fun k x hx hxt => ?_,
      hbooks.tier.pin _⟩, fun k hk => ?_⟩
    · rcases get?_set_cases hx with ⟨rfl, rfl⟩ | ⟨-, hx⟩
      · exact hbooks.offloaded k o ho₁ hxt
      · exact hbooks.offloaded k x hx hxt
    · exact get?_set_eq_none ho₁ (hdropped.absent k hk)

theorem evictMemory_spec (h : Books cfg s) (hcap : TierUsable cfg)
    (ho : s.objects.get? key = some o) (hmem : o.tier = .memory) :
    Post (evictMemory cfg key now) s (fun _ s' => Evicts cfg s s') fun _ _ => False := by
  unfold evictMemory
  refine post_bind.mpr (post_get.mpr ?_)
  simp only [ho, hmem, ne_eq, not_true_eq_false, if_false]
  cases htier : cfg.offload with
  | none =>
    have hledger : Ledger { s.leaveMemory key o now with objects := s.objects.erase key } :=
      h.ledger.leave ho hmem get?_erase_self (erase_erase_self ..) rfl rfl (by rintro _ ⟨⟩)
    refine post_bind.mpr (post_set.mpr (post_pure.mpr
      ⟨⟨hledger, le_trans (Nat.sub_le ..) h.within, fun k x hx hxt => ?_, h.tier⟩,
        fun k hk => ?_⟩))
    · exact h.offloaded k x (get?_of_erase hx).2 hxt
    · show (s.objects.erase key).get? k = none
      rw [get?_erase, hk, ite_self]
  | some tierCfg =>
    dsimp only
    have hledger : Ledger ((s.leaveMemory key o now).setObject key { o with tier := .offload }) := by
      refine h.ledger.leave ho hmem get?_set_self (erase_set_self ..) rfl rfl ?_
      rintro _ ⟨⟩
      exact ⟨rfl, h.ledger.sized key o ho⟩
    have hpending : Pending cfg key
        ((s.leaveMemory key o now).setObject key { o with tier := .offload }) := by
      refine ⟨hledger, le_trans (Nat.sub_le ..) h.within, fun k x hx hxt => ?_, h.tier⟩
      rcases get?_set_cases hx with ⟨hk, -⟩ | ⟨-, hx⟩
      · exact .inl hk
      · exact .inr (h.offloaded k x hx hxt)
    have habsent : ∀ k, s.objects.get? k = none →
        ((s.leaveMemory key o now).setObject key { o with tier := .offload }).objects.get? k =
          none := fun k hk => get?_set_eq_none ho hk
    have hget : ((s.leaveMemory key o now).setObject key { o with tier := .offload }).objects.get?
        key = some { o with tier := .offload } := get?_set_self
    refine post_bind.mpr (post_set.mpr ?_)
    split
    · rename_i hcontains
      rw [OffloadTier.contains_iff] at hcontains
      refine post_pure.mpr ⟨⟨hledger, hpending.within, fun k x hx hxt => ?_, h.tier⟩, habsent⟩
      rcases hpending.offloaded k x hx hxt with rfl | hk
      · exact hcontains
      · exact hk
    · refine (writeThrough_spec hpending hcap htier hget).bind (fun _ s' hs' => ?_)
        fun _ _ => id
      exact post_pure.mpr ⟨hs'.books, fun k hk => hs'.absent k (habsent k hk)⟩

theorem memoryCandidate_spec : ∀ {keys : List κ} {candidate : κ},
    s.memoryCandidate now keys = .ok (some candidate) →
    candidate ∈ keys ∧ ∃ o, s.objects.get? candidate = some o ∧ ¬ o.Busy now
  | [], candidate, h => by cases h
  | k :: rest, candidate, h => by
    obtain ⟨o, ho, h⟩ := Except.bind_eq_ok.mp h
    rw [orRaise_eq_ok] at ho
    split at h
    · obtain ⟨hmem, hfree⟩ := memoryCandidate_spec h
      exact ⟨mem_cons_of_mem _ hmem, hfree⟩
    · rename_i hfree
      cases h
      exact ⟨mem_cons_self .., o, ho, hfree⟩

theorem memoryCandidate_total : ∀ {keys : List κ}, (∀ k ∈ keys, ∃ o, s.objects.get? k = some o) →
    ∃ out, s.memoryCandidate now keys = .ok out
  | [], _ => ⟨_, rfl⟩
  | k :: rest, hkeys => by
    obtain ⟨o, ho⟩ := hkeys k mem_cons_self
    refine Except.exists_bind_eq_ok ⟨o, orRaise_eq_ok.mpr ho⟩ fun o => ?_
    split
    · exact memoryCandidate_total (forall_mem_cons.mp hkeys).2
    · exact ⟨_, rfl⟩

theorem evictUntil_spec (hcap : TierUsable cfg) {bytes : Nat} : ∀ {rounds : Nat}
    {timing : StoreWriteTiming T} {s : MooncakeStore κ T}, Books cfg s →
    Post (evictUntil cfg bytes now rounds timing) s
      (fun out s' => Evicts cfg s s' ∧
        (out.1 = true → s'.memoryUsedBytes + bytes ≤ cfg.memoryCapacityBytes)) fun _ _ => False
  | 0, timing, s, h =>
    post_bind.mpr (post_get.mpr (post_pure.mpr ⟨⟨h, fun _ hk => hk⟩, of_decide_eq_true⟩))
  | rounds + 1, timing, s, h => by
    have hstay : Evicts cfg s s := ⟨h, fun _ hk => hk⟩
    unfold evictUntil
    refine post_bind.mpr (post_get.mpr ?_)
    split
    · rename_i hroom
      exact post_pure.mpr ⟨hstay, fun _ => hroom⟩
    split
    · exact post_pure.mpr ⟨hstay, nofun⟩
    refine post_bind.mpr (post_ofExcept.mpr ⟨fun candidate hcandidate => ?_, fun e he => ?_⟩)
    · cases candidate with
      | none => exact post_pure.mpr ⟨hstay, nofun⟩
      | some candidate =>
        obtain ⟨hmem, -⟩ := memoryCandidate_spec hcandidate
        obtain ⟨o, ho, htier⟩ := (h.ledger.lru candidate).mp hmem
        refine (evictMemory_spec h hcap ho htier).bind (fun evicted s' hs' => ?_) fun _ _ => id
        exact (evictUntil_spec hcap hs'.books).mono
          (fun out s'' hout => ⟨hs'.trans hout.1, hout.2⟩) fun _ _ => id
    · obtain ⟨out, hout⟩ : ∃ out, s.memoryCandidate now s.memoryLru.keys = .ok out :=
        memoryCandidate_total fun k hk => by
          obtain ⟨o, ho, -⟩ := (h.ledger.lru k).mp hk
          exact ⟨o, ho⟩
      rw [hout] at he
      cases he

/-! ## Writes -/

theorem Ledger.enter (h : Ledger s) (hnew : s.objects.get? key = none) (hmem : o.tier = .memory)
    (hblocks : 0 < o.blocks) : Ledger (s.enterMemory key o) := by
  refine h.change hnew get?_set_self (erase_set_self ..) (fun k hk => ?_) ?_ ?_ ?_
  · exact mem_keys_set.trans (or_iff_right hk)
  · exact iff_of_true (mem_keys_set.mpr (.inl rfl)) ⟨o, rfl, hmem⟩
  · exact congrArg (s.memoryUsedBytes + ·) (memoryBytes_of_memory hmem).symm
  · rintro _ ⟨⟩
    exact hblocks

theorem Books.enterMemory (h : Books cfg s) (hnew : s.objects.get? key = none)
    (hmem : o.tier = .memory) (hblocks : 0 < o.blocks)
    (hroom : s.memoryUsedBytes + o.bytes ≤ cfg.memoryCapacityBytes) :
    Books cfg (s.enterMemory key o) := by
  refine ⟨h.ledger.enter hnew hmem hblocks, hroom, fun k x hx hxt => ?_, h.tier⟩
  rcases get?_set_cases hx with ⟨-, rfl⟩ | ⟨-, hx⟩
  · rw [hmem] at hxt
    cases hxt
  · exact h.offloaded k x hx hxt

theorem putMemory_spec {timing : StoreWriteTiming T} (h : Books cfg s)
    (hcap : TierUsable cfg) (hnew : s.objects.get? key = none)
    (hroom : s.memoryUsedBytes + cfg.blockBytes ≤ cfg.memoryCapacityBytes) :
    Post (putMemory cfg key now initialDelay timing) s (fun _ s' => Books cfg s')
      fun _ _ => False := by
  unfold putMemory
  refine post_bind.mpr (post_modify.mpr ?_)
  generalize hobj : newObject cfg (now + initialDelay + timing.accountingLatency) = o
  have hmem : o.tier = .memory := by rw [← hobj]; rfl
  have hget : (s.enterMemory key o).objects.get? key = some o := get?_set_self
  have hbooks := h.enterMemory hnew hmem (by rw [← hobj]; exact Nat.one_pos)
    (by rw [← hobj]; exact hroom)
  cases htier : cfg.offload with
  | none => exact post_pure.mpr hbooks
  | some tierCfg =>
    have hpending : Pending cfg key (s.enterMemory key o) :=
      ⟨hbooks.ledger, hbooks.within, fun k x hx hxt => .inr (hbooks.offloaded k x hx hxt), hbooks.tier⟩
    refine (writeThrough_spec hpending hcap htier hget).bind (fun written s' hs' => ?_)
      fun _ _ => id
    cases written with
    | none => exact post_pure.mpr hs'.books
    | some written => exact post_pure.mpr hs'.books

/-- The books agree after a new object was written to the offload tier only. -/
theorem Books.enterOffload (h : Books cfg s) (hnew : s.objects.get? key = none)
    (htier : o.tier = .offload) (hblocks : 0 < o.blocks) (hentry : key ∈ s.offload.blocks.keys) :
    Books cfg (s.setObject key o) := by
  refine ⟨h.ledger.change hnew get?_set_self (erase_set_self ..) (fun _ _ => .rfl) ?_ ?_ ?_, h.within,
    fun k x hx hxt => ?_, h.tier⟩
  · refine (h.ledger.lru key).trans ?_
    simp [hnew, htier]
  · exact congrArg (s.memoryUsedBytes + ·) (memoryBytes_of_offload htier).symm
  · rintro _ ⟨⟩
    exact hblocks
  · rcases get?_set_cases hx with ⟨rfl, -⟩ | ⟨-, hx⟩
    · exact hentry
    · exact h.offloaded k x hx hxt

theorem Books.touch (h : Books cfg s) (ho : s.objects.get? key = some o) :
    Books cfg (s.touch key o) := by
  refine ⟨h.ledger.touch ho, h.within, fun k x hx hxt => ?_, h.tier⟩
  rcases get?_set_cases hx with ⟨rfl, rfl⟩ | ⟨-, hx⟩
  · exact h.offloaded k o ho hxt
  · exact h.offloaded k x hx hxt

theorem putOffload_spec {timing : StoreWriteTiming T} (h : Books cfg s)
    (hcap : TierUsable cfg) (hnew : s.objects.get? key = none) :
    Post (putOffload cfg key now initialDelay timing) s (fun _ s' => Books cfg s')
      fun _ _ => False := by
  unfold putOffload
  cases htier : cfg.offload with
  | none =>
    exact post_bind.mpr (post_modify.mpr (post_pure.mpr (h.updateStats _)))
  | some tierCfg =>
    have hcapacity : tierCapacity cfg = tierCfg.capacityBlocks := by
      unfold tierCapacity
      rw [htier]
    refine (offloadWrite_spec Nat.one_pos).bind ?_ fun e s' he =>
      he.2 ⟨hcapacity ▸ h.tier, hcap tierCfg htier⟩
    rintro op _ ⟨t', rfl, hwrites⟩
    split
    · rename_i hrefused
      obtain rfl := hwrites.refused hrefused
      exact post_bind.mpr (post_modify.mpr (post_pure.mpr (h.updateStats _)))
    · rename_i hnot
      refine post_bind.mpr (post_bind.mpr (post_modify.mpr (post_pure.mpr (post_bind.mpr
        (post_modify.mpr (post_bind.mpr (post_modify.mpr (post_pure.mpr ?_))))))))
      generalize hm : ({ s with offload := t'.pin key (now + (initialDelay +
        timing.accountingLatency) + op.latency) } : MooncakeStore κ T) = m
      have hdropped := dropped_record now op m
      generalize hs₁ : recordOffloadWrite now op m = s₁ at hdropped
      have hbooks : Books cfg s₁ := by
        refine ⟨hdropped.ledger (h.ledger.congr (by rw [← hm]) (fun _ => by rw [← hm])
          (by rw [← hm])), ?_, ?_, ?_⟩
        · rw [hdropped.memoryUsedBytes, ← hm]
          exact h.within
        · exact offloaded_of_record (fun k o ho ht => .inr (h.offloaded k o ho ht)) hwrites
            (by rw [← hm]) (by rw [← hm]; rfl) hdropped
        · rw [hdropped.offload, ← hm, hcapacity]
          exact (hwrites.ok (hcapacity ▸ h.tier)).pin _
      have hentry : key ∈ s₁.offload.blocks.keys := by
        rw [hdropped.offload, ← hm]
        exact (hwrites.blocks key).mpr (.inl ⟨rfl, hnot⟩)
      have hnew₁ := hdropped.absent key (by rw [← hm]; exact hnew)
      exact (hbooks.enterOffload hnew₁ rfl Nat.one_pos hentry).updateStats _

theorem ensureMemoryCapacity_spec (h : Books cfg s) (hcap : TierUsable cfg) {bytes : Nat} :
    Post (ensureMemoryCapacity cfg bytes now) s
      (fun out s' => Evicts cfg s s' ∧
        (out.1 = true → s'.memoryUsedBytes + bytes ≤ cfg.memoryCapacityBytes)) fun _ _ => False := by
  unfold ensureMemoryCapacity
  split
  · exact post_pure.mpr ⟨⟨h, fun _ hk => hk⟩, nofun⟩
  · exact post_bind.mpr (post_get.mpr (evictUntil_spec hcap h))

theorem putOne_spec (h : Books cfg s) (hcap : TierUsable cfg) :
    Post (putOne cfg now initialDelay key) s (fun _ s' => Books cfg s') fun _ _ => False := by
  unfold putOne
  refine post_bind.mpr (post_get.mpr ?_)
  cases ho : s.objects.get? key with
  | some o => exact post_bind.mpr (post_set.mpr (post_pure.mpr (h.touch ho)))
  | none =>
    refine (ensureMemoryCapacity_spec h hcap).bind ?_ fun _ _ => id
    rintro ⟨hasRoom, timing⟩ s' ⟨hevicts, hroom⟩
    have hnew := hevicts.absent key ho
    cases hasRoom with
    | true => exact putMemory_spec hevicts.books hcap hnew (hroom rfl)
    | false => exact putOffload_spec hevicts.books hcap hnew

theorem putAll_spec (hcap : TierUsable cfg) (keys : List κ) :
    ∀ (timing : StoreWriteTiming T) {s : MooncakeStore κ T}, Books cfg s →
    Post (putAll cfg now initialDelay keys timing) s (fun _ s' => Books cfg s')
      fun _ _ => False := by
  induction keys with
  | nil => exact fun _ _ h => h
  | cons key rest ih =>
    intro timing s h
    exact (putOne_spec h hcap).bind (fun written s' h' => ih _ h') fun _ _ => id

/-! ## Batches -/

theorem Books.memory_of_no_offload (h : Books cfg s) (hnone : cfg.offload = none) {k : κ}
    (ho : s.objects.get? k = some o) : o.tier = .memory := by
  cases htier : o.tier with
  | memory => rfl
  | offload =>
    obtain ⟨n, hn⟩ := mem_keys_iff.mp (h.offloaded k o ho htier)
    have hpos := h.tier.positive k n hn
    have hsum := sum_erase_of_get? hn fun _ n => n
    have hused := h.tier.used
    have hwithin := h.tier.within
    unfold tierCapacity at hwithin
    rw [hnone] at hwithin
    dsimp only at hwithin
    omega

/-- An object without the time of its last access. -/
def unstamped (o : StoreObject T) : StoreObject T := { o with lastAccess := 0 }

/-- Two stores that differ in times of access only. -/
structure Alike (s s' : MooncakeStore κ T) : Prop where
  objects : s.objects.map unstamped = s'.objects.map unstamped
  memoryLru : s.memoryLru = s'.memoryLru
  memoryUsedBytes : s.memoryUsedBytes = s'.memoryUsedBytes
  offload : s.offload = s'.offload
  stats : s.stats = s'.stats
  removals : s.removals = s'.removals

theorem get?_of_unstamped {d : OrderedDict κ (StoreObject T)}
    (h : (d.map unstamped).get? key = some (unstamped o)) :
    ∃ o', d.get? key = some o' ∧ o'.tier = o.tier ∧ o'.blocks = o.blocks := by
  rw [get?_map] at h
  obtain ⟨o', ho', hsame⟩ := map_eq_some_iff.mp h
  have htier := congrArg StoreObject.tier hsame
  have hblocks := congrArg StoreObject.blocks hsame
  exact ⟨o', ho', htier, hblocks⟩

theorem Alike.get? (h : Alike s s') (ho : s.objects.get? key = some o) :
    ∃ o', s'.objects.get? key = some o' ∧ o'.tier = o.tier ∧ o'.blocks = o.blocks := by
  refine get?_of_unstamped ?_
  rw [← h.objects, get?_map, ho]
  rfl

theorem Alike.symm (h : Alike s s') : Alike s' s :=
  ⟨h.1.symm, h.2.symm, h.3.symm, h.4.symm, h.5.symm, h.6.symm⟩

theorem Books.of_alike (h : Books cfg s') (ha : Alike s s') : Books cfg s := by
  refine ⟨⟨fun k => ?_, ?_, fun k x hx => ?_⟩, ha.memoryUsedBytes ▸ h.within, fun k x hx htier => ?_,
    ha.offload ▸ h.tier⟩
  · rw [ha.memoryLru, h.ledger.lru]
    constructor
    · rintro ⟨y, hy, htier⟩
      obtain ⟨x, hx, hsame, -⟩ := ha.symm.get? hy
      exact ⟨x, hx, hsame.trans htier⟩
    · rintro ⟨x, hx, htier⟩
      obtain ⟨y, hy, hsame, -⟩ := ha.get? hx
      exact ⟨y, hy, hsame.trans htier⟩
  · have hsum : ∀ d : OrderedDict κ (StoreObject T),
        (d.sum fun _ o => memoryBytes o) = (d.map unstamped).sum fun _ o => memoryBytes o :=
      fun d => (sum_map unstamped d fun _ o => memoryBytes o).symm
    rw [ha.memoryUsedBytes, h.ledger.used, hsum, ← ha.objects, ← hsum]
  · obtain ⟨y, hy, -, hblocks⟩ := ha.get? hx
    exact hblocks ▸ h.ledger.sized k y hy
  · obtain ⟨y, hy, hsame, -⟩ := ha.get? hx
    exact ha.offload ▸ h.offloaded k y hy (hsame.trans htier)

/-- What a put of one key does when there is room in memory. -/
def enter (o : StoreObject T) (s : MooncakeStore κ T) (key : κ) : MooncakeStore κ T :=
  match s.objects.get? key with
  | some x => s.touch key x
  | none => s.enterMemory key o

variable {rest : List κ}

/-- The store `b` has the objects of the keys that `p` has still to enter, and their
bytes; `n` of them are counted when all are settled. -/
structure Ahead (o : StoreObject T) (n : Nat) (fresh : List κ) (b p : MooncakeStore κ T) :
    Prop where
  objects : b.objects.map unstamped =
    (p.objects.map unstamped).update (fresh.map fun k => (k, unstamped o))
  memoryLru : b.memoryLru = p.memoryLru
  memoryUsedBytes : b.memoryUsedBytes = p.memoryUsedBytes + fresh.length * o.bytes
  offload : b.offload = p.offload
  stats : { b.stats with admissionCount := b.stats.admissionCount + n } =
    { p.stats with admissionCount := p.stats.admissionCount + fresh.length }
  removals : b.removals = p.removals

theorem freshKeys_enter (hkey : key ∉ rest) : (s.enter o key).freshKeys rest = s.freshKeys rest := by
  refine filter_congr fun k hk => ?_
  have hne : k ≠ key := fun he => hkey (he ▸ hk)
  have hget : (s.enter o key).objects.get? k = s.objects.get? k := by
    unfold enter
    split
    · exact get?_set_of_ne hne
    · exact get?_set_of_ne hne
  rw [hget]

theorem Ahead.settle {n : Nat} {b p : MooncakeStore κ T} (hp : Ledger p)
    (hmem : ∀ k x, p.objects.get? k = some x → x.tier = .memory) (ho : o.tier = .memory)
    (hkey : key ∉ rest) (h : Ahead o n (p.freshKeys (key :: rest)) b p) :
    Ahead o n ((p.enter o key).freshKeys rest) (b.settle key) (p.enter o key) := by
  have hnew : key ∉ Entries.keys ((p.freshKeys rest).map fun k => (k, unstamped o)) := by
    rw [Entries.keys, List.map_map]
    intro hmem
    obtain ⟨k, hk, rfl⟩ := List.mem_map.mp hmem
    exact hkey (mem_of_mem_filter hk)
  -- an access leaves the object as it is but for its time
  have htouched : ∀ {d : OrderedDict κ (StoreObject T)} {x : StoreObject T} (c : Nat),
      d.get? key = some x → (d.set key { x with lastAccess := c }).map unstamped =
        d.map unstamped := by
    intro d x c hx
    rw [OrderedDict.map_set]
    refine set_of_get? ?_
    rw [get?_map, hx]
    rfl
  rw [freshKeys_enter hkey]
  cases hget : p.objects.get? key with
  | some x =>
    have hfresh : p.freshKeys (key :: rest) = p.freshKeys rest :=
      filter_cons_of_neg (by rw [hget]; exact Bool.false_ne_true)
    rw [hfresh] at h
    obtain ⟨y, hy, hytier, -⟩ : ∃ y, b.objects.get? key = some y ∧ y.tier = x.tier ∧ _ := by
      refine get?_of_unstamped ?_
      rw [h.objects, get?_update_of_not_mem hnew, get?_map, hget]
      rfl
    have hlru : key ∈ b.memoryLru.keys :=
      h.memoryLru ▸ (hp.lru key).mpr ⟨x, hget, hmem key x hget⟩
    have hsettle : b.settle key = b.touch key y := by
      rw [MooncakeStore.settle, if_pos hlru]
      simp only [hy]
    have henter : p.enter o key = p.touch key x := by
      unfold enter
      rw [hget]
    rw [hsettle, henter]
    refine ⟨?_, ?_, h.memoryUsedBytes, h.offload, h.stats, h.removals⟩
    · refine (htouched _ hy).trans (h.objects.trans ?_)
      exact congrArg (fun d => OrderedDict.update d _) (htouched _ hget).symm
    · simp only [MooncakeStore.touch, hytier, hmem key x hget, if_true, h.memoryLru]
  | none =>
    have hfresh : p.freshKeys (key :: rest) = key :: p.freshKeys rest :=
      filter_cons_of_pos (by rw [hget]; rfl)
    rw [hfresh] at h
    obtain ⟨y, hy, hytier, -⟩ : ∃ y, b.objects.get? key = some y ∧ y.tier = o.tier ∧ _ := by
      refine get?_of_unstamped ?_
      rw [h.objects, map_cons, update_cons, get?_update_of_not_mem hnew, get?_set_self]
    have hlru : key ∉ p.memoryLru.keys := by
      intro hin
      obtain ⟨x, hx, -⟩ := (hp.lru key).mp hin
      rw [hget] at hx
      cases hx
    have hsettle : b.settle key = { b with memoryLru := b.memoryLru.set key () }.touch key y := by
      rw [MooncakeStore.settle, if_neg (h.memoryLru ▸ hlru)]
      simp only [hy]
    have henter : p.enter o key = p.enterMemory key o := by
      unfold enter
      rw [hget]
    rw [hsettle, henter]
    refine ⟨?_, ?_, ?_, h.offload, ?_, h.removals⟩
    · refine (htouched _ hy).trans (h.objects.trans ?_)
      exact congrArg (fun d => OrderedDict.update d _) (OrderedDict.map_set ..).symm
    · simp only [MooncakeStore.touch, hytier, ho, if_true, h.memoryLru]
      exact moveToEnd_set hlru ()
    · refine h.memoryUsedBytes.trans ?_
      show _ = p.memoryUsedBytes + o.bytes + _
      rw [length_cons, Nat.succ_mul]
      omega
    · refine h.stats.trans ?_
      rw [length_cons, add_comm _ 1, ← add_assoc]
      rfl

/-- Entering a key keeps the books when its block fits. -/
theorem Books.enter (h : Books cfg s) (hmem : o.tier = .memory) (hblocks : 0 < o.blocks)
    (hroom : s.memoryUsedBytes + (s.freshKeys (key :: rest)).length * o.bytes ≤
      cfg.memoryCapacityBytes) (hkey : key ∉ rest) :
    Books cfg (s.enter o key) ∧
      (s.enter o key).memoryUsedBytes + ((s.enter o key).freshKeys rest).length * o.bytes ≤
        cfg.memoryCapacityBytes := by
  rw [freshKeys_enter hkey]
  unfold MooncakeStore.enter
  cases hget : s.objects.get? key with
  | some x =>
    rw [freshKeys, filter_cons_of_neg (by rw [hget]; exact Bool.false_ne_true)] at hroom
    exact ⟨h.touch hget, hroom⟩
  | none =>
    rw [freshKeys, filter_cons_of_pos (by rw [hget]; rfl), length_cons,
      Nat.succ_mul] at hroom
    refine ⟨h.enterMemory hget hmem hblocks (by omega), ?_⟩
    show s.memoryUsedBytes + o.bytes + (s.freshKeys rest).length * o.bytes ≤ _
    unfold freshKeys
    omega

/-- Keys whose objects are installed, settled one by one, and the same keys entered
one by one. -/
theorem Ahead.settleAll {n : Nat} (hnone : cfg.offload = none) (hmem : o.tier = .memory)
    (hblocks : 0 < o.blocks) : ∀ {keys : List κ} {b p : MooncakeStore κ T}, keys.Nodup →
    Books cfg p → p.memoryUsedBytes + (p.freshKeys keys).length * o.bytes ≤
      cfg.memoryCapacityBytes → Ahead o n (p.freshKeys keys) b p →
    Ahead o n [] (keys.foldl MooncakeStore.settle b) (keys.foldl (MooncakeStore.enter o) p) ∧
      Books cfg (keys.foldl (MooncakeStore.enter o) p)
  | [], _, _, _, hbooks, _, h => ⟨h, hbooks⟩
  | key :: rest, b, p, hnodup, hbooks, hroom, h => by
    obtain ⟨hkey, hnodup⟩ := nodup_cons.mp hnodup
    obtain ⟨hbooks', hroom'⟩ := hbooks.enter hmem hblocks hroom hkey
    have hahead := h.settle hbooks.ledger
      (fun k x hx => hbooks.memory_of_no_offload hnone hx) hmem hkey
    have hrest := settleAll hnone hmem hblocks hnodup hbooks' hroom' hahead
    exact hrest

theorem setAll_eq : ∀ (keys : List κ) {s : MooncakeStore κ T},
    keys.foldl (fun s key => s.setObject key o) s =
      { s with objects := s.objects.update (keys.map fun k => (k, o)) }
  | [], _ => rfl
  | _ :: rest, _ => setAll_eq rest

theorem map_update (keys : List κ) : ∀ {d : OrderedDict κ (StoreObject T)},
    (d.update (keys.map fun k => (k, o))).map unstamped =
      (d.map unstamped).update (keys.map fun k => (k, unstamped o)) := by
  induction keys with
  | nil => exact rfl
  | cons key keys ih =>
    intro d
    rw [map_cons, update_cons, ih, OrderedDict.map_set]
    rfl

theorem distinct_nodup (keys : List κ) : (distinct keys).Nodup := keys_nodup _

/-- A batch that fits ends up as if its keys were entered one by one. -/
theorem installBatch_alike {selected : List κ} (h : Books cfg s)
    (hnone : cfg.offload = none) (hselected : selected.Nodup)
    (hroom : s.memoryUsedBytes + (s.freshKeys selected).length * cfg.blockBytes ≤
      cfg.memoryCapacityBytes) :
    let p := selected.foldl (MooncakeStore.enter (newObject cfg (now + initialDelay))) s
    Alike (installBatch cfg selected now initialDelay s) p ∧ Books cfg p := by
  obtain ⟨hahead, hbooks⟩ := Ahead.settleAll (n := (s.freshKeys selected).length)
    (o := newObject cfg (now + initialDelay)) (b := { s with
      objects := s.objects.update ((s.freshKeys selected).map fun k =>
        (k, newObject cfg (now + initialDelay)))
      memoryUsedBytes := s.memoryUsedBytes + (s.freshKeys selected).length * cfg.blockBytes })
    hnone rfl Nat.one_pos hselected h hroom ⟨map_update _, rfl, rfl, rfl, rfl, rfl⟩
  refine ⟨?_, hbooks⟩
  unfold installBatch
  dsimp only
  rw [setAll_eq]
  exact ⟨hahead.objects, hahead.memoryLru, hahead.memoryUsedBytes.trans (by simp), hahead.offload,
    hahead.stats, hahead.removals⟩

/-! ## Whole calls -/

theorem putWithTiming_spec (h : Books cfg s) (hcap : TierUsable cfg)
    {blocks : Option Nat} {policy : Option AdmissionPolicy} :
    Post (putWithTiming cfg keys blocks now initialDelay policy) s (fun _ s' => Books cfg s')
      fun _ _ => False := by
  unfold putWithTiming
  split
  · exact post_bind.mpr (post_modify.mpr (post_pure.mpr (h.updateStats _)))
  · refine post_bind.mpr (post_modify.mpr (post_bind.mpr (post_get.mpr ?_)))
    dsimp only
    split
    · rename_i hbatch
      obtain ⟨hnone, -, -, hroom⟩ := hbatch
      obtain ⟨halike, hbooks⟩ := installBatch_alike (h.updateStats _)
        (isNone_iff_eq_none.mp hnone) (distinct_nodup _) hroom
      exact post_bind.mpr (post_modify.mpr (post_pure.mpr (hbooks.of_alike halike)))
    · exact putAll_spec hcap _ _ (h.updateStats _)

theorem Books.setObject (h : Books cfg s) (ho : s.objects.get? key = some o) {o' : StoreObject T}
    (htier : o'.tier = o.tier) (hbytes : o'.bytes = o.bytes) (hblocks : o'.blocks = o.blocks) :
    Books cfg (s.setObject key o') := by
  refine ⟨h.ledger.setObject ho htier hbytes (hblocks ▸ h.ledger.sized key o ho), h.within, fun k x hx hxt => ?_, h.tier⟩
  rcases get?_set_cases hx with ⟨rfl, rfl⟩ | ⟨-, hx⟩
  · exact h.offloaded k o ho (htier ▸ hxt)
  · exact h.offloaded k x hx hxt

theorem Books.useUntil (h : Books cfg s) (until_ : T) (k : κ) : Books cfg (s.useUntil until_ k) := by
  unfold MooncakeStore.useUntil
  cases ho : s.objects.get? k with
  | none => exact h
  | some o =>
    have hset : Books cfg (s.setObject k { o with inUseUntil := max o.inUseUntil until_ }) :=
      h.setObject ho rfl rfl rfl
    dsimp only
    split
    · exact ⟨{ hset.ledger with }, hset.within, hset.offloaded, hset.tier.pin _⟩
    · exact hset

/-- What reads do to a store keeps a property. -/
structure KeptByReads (cfg : MooncakeConfig T) (P : MooncakeStore κ T → Prop) : Prop where
  updateStats : ∀ {s} f, P s → P (s.updateStats f)
  touch : ∀ {s key o}, s.objects.get? key = some o → P s → P (s.touch key o)
  read : ∀ {s tierCfg key}, P s →
    P { s with offload := (s.offload.read tierCfg cfg.blockBytes key).1 }
  useUntil : ∀ {s} until_ key, P s → P (s.useUntil until_ key)

theorem books_keptByReads : KeptByReads cfg (Books cfg : MooncakeStore κ T → Prop) where
  updateStats f h := h.updateStats f
  touch ho h := h.touch ho
  read {s tierCfg key} h := by
    have htier : (s.offload.read tierCfg cfg.blockBytes key).1.Ok (tierCapacity cfg) := h.tier.read
    exact ⟨{ h.ledger with }, h.within, h.offloaded, htier⟩
  useUntil until_ key h := h.useUntil until_ key

section Reads

variable {P : MooncakeStore κ T → Prop} (hP : KeptByReads cfg P)
include hP

theorem readOne_keeps {latency : T} : Keeps P (readOne cfg now latency key) := by
  refine Keeps.get_bind fun s h => ?_
  cases ho : s.objects.get? key with
  | none => exact post_throw.mpr h
  | some o =>
    dsimp only
    split
    · exact post_throw.mpr h
    · have htouch := hP.touch ho h
      split
      · exact post_bind.mpr (post_set.mpr (post_pure.mpr (hP.updateStats _ (hP.read htouch))))
      · exact post_bind.mpr (post_set.mpr (post_pure.mpr htouch))

theorem readAll_keeps (keys : List κ) : ∀ latency : T,
    Keeps P (readAll cfg now keys latency) := by
  induction keys with
  | nil => exact fun latency => Keeps.pure latency
  | cons key rest ih => exact fun latency => Keeps.bind (readOne_keeps hP) ih

theorem fetch_keeps : Keeps P (fetch cfg keys now initialDelay) := by
  have huse : ∀ (until_ : T) (keys : List κ) {s : MooncakeStore κ T}, P s →
      P (keys.foldl (MooncakeStore.useUntil until_) s) := by
    intro until_ keys
    induction keys with
    | nil => intro s h; exact h
    | cons k rest ih => intro s h; exact ih (hP.useUntil until_ k h)
  refine Keeps.ite (fun _ => Keeps.pure _) fun _ => ?_
  refine Keeps.bind (Keeps.modify fun s h => hP.updateStats _ h) fun _ => ?_
  refine Keeps.bind (readAll_keeps hP keys 0) fun latency => ?_
  exact Keeps.bind (Keeps.modify fun s h => huse _ keys h) fun _ => Keeps.pure _

theorem lookup_keeps : Keeps P (lookup keys now) := by
  refine Keeps.ite (fun _ => Keeps.pure _) fun _ => ?_
  refine Keeps.get_bind fun s h => ?_
  exact post_bind.mpr (post_modify.mpr (post_pure.mpr (hP.updateStats _ h)))

end Reads

theorem exec_books (h : Books cfg s) (hcap : TierUsable cfg) (call : Call κ T) :
    Books cfg (exec cfg s call) := by
  cases call with
  | put keys blocks now delay =>
    exact post_finalState.mp ((putWithTiming_spec h hcap).bind
      (fun timing s' h' => post_pure.mpr h') fun _ _ => False.elim)
  | putWithTiming keys blocks now delay policy =>
    exact post_finalState.mp ((putWithTiming_spec h hcap).mono (fun _ _ => id)
      fun _ _ => False.elim)
  | get keys now delay => exact post_finalState.mp (fetch_keeps books_keptByReads s h)
  | lookup keys now => exact post_finalState.mp (lookup_keeps books_keptByReads s h)

theorem run_books (hcap : TierUsable cfg) (calls : List (Call κ T)) : ∀ {s : MooncakeStore κ T},
    Books cfg s → Books cfg (calls.foldl (exec cfg) s) := by
  induction calls with
  | nil => intro s h; exact h
  | cons call calls ih => intro s h; exact ih (exec_books h hcap call)

end MooncakeStore

end TokenSim
