import TokenSim.Mooncake.Store

/-!
# The books of the offload tier

`OffloadTier.Ok` says that the tier's books agree: the LRU order lists the stored
keys, the used blocks are the sum over the entries and fit the capacity, and no
entry is empty.  `write_spec` says what a write does to a tier in this state:
it is refused and nothing changes, or it is accepted after evicting entries that
are not protected.
-/

set_option linter.unusedSectionVars false

namespace TokenSim

open List OrderedDict

namespace OffloadTier

variable {κ T : Type} [DecidableEq κ] [LinearOrder T] [Add T] [Zero T]
  {t t' : OffloadTier κ T} {key : κ} {now : T}

/-- The books of a tier with a capacity agree. -/
structure Ok (capacity : Nat) (t : OffloadTier κ T) : Prop where
  lru : ∀ k, k ∈ t.lru.keys ↔ k ∈ t.blocks.keys
  used : t.usedBlocks = t.blocks.sum fun _ n => n
  within : t.usedBlocks ≤ capacity
  positive : ∀ k n, t.blocks.get? k = some n → 0 < n

theorem init_ok (capacity : Nat) : Ok capacity (init : OffloadTier κ T) :=
  ⟨fun _ => Iff.rfl, rfl, Nat.zero_le _, nofun⟩

theorem contains_iff : t.contains key = true ↔ key ∈ t.blocks.keys := by
  rw [contains, Option.isSome_iff_exists, mem_keys_iff]

/-- The blocks of an entry, zero if there is none. -/
def sizeOf (t : OffloadTier κ T) (k : κ) : Nat := (t.blocks.get? k).getD 0

variable {k : κ} {capacity blockBytes : Nat} {cfg : OffloadConfig T}

theorem sizeOf_removeExisting_of_ne (h : k ≠ key) :
    (t.removeExisting key).sizeOf k = t.sizeOf k := by
  unfold sizeOf removeExisting
  rw [get?_erase_of_ne h]

theorem sum_erase_add_sizeOf (t : OffloadTier κ T) (k : κ) :
    ((t.blocks.erase k).sum fun _ n => n) + t.sizeOf k = t.blocks.sum fun _ n => n := by
  unfold sizeOf
  cases hk : t.blocks.get? k with
  | none => rw [OrderedDict.erase_of_not_mem (get?_eq_none.mp hk)]; rfl
  | some n => exact sum_erase_of_get? hk _

theorem Ok.removeExisting (h : Ok capacity t) (k : κ) :
    Ok capacity (t.removeExisting k) ∧
      (t.removeExisting k).usedBlocks + t.sizeOf k = t.usedBlocks := by
  have hsum := t.sum_erase_add_sizeOf k
  have hused : (t.removeExisting k).usedBlocks = t.usedBlocks - t.sizeOf k := rfl
  have := h.used
  refine ⟨⟨fun j => ?_, ?_, ?_, fun j n hj => ?_⟩, by omega⟩
  · show j ∈ (t.lru.erase k).keys ↔ j ∈ (t.blocks.erase k).keys
    rw [mem_keys_erase, mem_keys_erase, h.lru]
  · show t.usedBlocks - t.sizeOf k = (t.blocks.erase k).sum fun _ n => n
    omega
  · have := h.within
    omega
  · exact h.positive j n (get?_of_erase hj).2

theorem mem_blocks_removeAll : ∀ {keys : List κ} {t : OffloadTier κ T},
    k ∈ (keys.foldl OffloadTier.removeExisting t).blocks.keys ↔
      k ∈ t.blocks.keys ∧ k ∉ keys
  | [], t => by simp
  | j :: rest, t => by
    rw [foldl_cons, mem_blocks_removeAll, mem_cons, not_or]
    show k ∈ (t.blocks.erase j).keys ∧ _ ↔ _
    rw [mem_keys_erase]
    tauto

theorem protection_removeAll : ∀ {keys : List κ} {t : OffloadTier κ T}, k ∉ keys →
    (keys.foldl OffloadTier.removeExisting t).protection k = t.protection k
  | [], t, _ => rfl
  | j :: rest, t, h => by
    rw [mem_cons, not_or] at h
    rw [foldl_cons, protection_removeAll h.2]
    unfold protection removeExisting
    rw [get?_erase_of_ne h.1]

theorem Ok.removeAll : ∀ {keys : List κ} {t : OffloadTier κ T}, Ok capacity t →
    keys.Nodup → Ok capacity (keys.foldl OffloadTier.removeExisting t) ∧
      (keys.foldl OffloadTier.removeExisting t).usedBlocks + (keys.map t.sizeOf).sum =
        t.usedBlocks
  | [], t, h, _ => ⟨h, rfl⟩
  | j :: rest, t, h, hnodup => by
    obtain ⟨hj, hnodup⟩ := nodup_cons.mp hnodup
    obtain ⟨hok, hused⟩ := h.removeExisting j
    obtain ⟨hok', hused'⟩ := Ok.removeAll hok hnodup
    refine ⟨hok', ?_⟩
    have hsizes : rest.map (t.removeExisting j).sizeOf = rest.map t.sizeOf :=
      map_congr_left fun k hk => sizeOf_removeExisting_of_ne fun he => hj (he ▸ hk)
    rw [hsizes] at hused'
    rw [foldl_cons, map_cons, sum_cons]
    omega

/-- The chosen candidates are stored, unprotected and not the written key; they
make the room that is stated. -/
theorem candidates_spec {extra : Int} : ∀ {keys : List κ} {available room : Int}
    {chosen : List κ}, t.candidates key now extra keys available = .ok (chosen, room) →
    List.Sublist chosen keys ∧ room = available + (chosen.map t.sizeOf).sum ∧
      ∀ k ∈ chosen, k ≠ key ∧ t.protection k ≤ now ∧ k ∈ t.blocks.keys
  | [], available, room, chosen, h => by
    cases h
    exact ⟨.slnil, by simp, nofun⟩
  | c :: rest, available, room, chosen, h => by
    rw [candidates] at h
    split at h
    · rename_i hc
      obtain ⟨n, hn, h⟩ := Except.bind_eq_ok.mp h
      rw [Option.orRaise_eq_ok] at hn
      have hsize : t.sizeOf c = n := by unfold sizeOf; rw [hn]; rfl
      have hmem : c ∈ t.blocks.keys := mem_keys_iff.mpr ⟨n, hn⟩
      split at h
      · cases h
        refine ⟨.cons_cons c (nil_sublist _), by simp [hsize], fun k hk => ?_⟩
        cases mem_singleton.mp hk
        exact ⟨hc.1, hc.2, hmem⟩
      · obtain ⟨⟨more, room'⟩, hmore, h⟩ := Except.bind_eq_ok.mp h
        cases h
        obtain ⟨hsub, hroom, hall⟩ := candidates_spec hmore
        refine ⟨hsub.cons_cons c, ?_, forall_mem_cons.mpr ⟨⟨hc.1, hc.2, hmem⟩, hall⟩⟩
        rw [hroom, map_cons, sum_cons, hsize]
        push_cast
        omega
    · obtain ⟨hsub, hroom, hall⟩ := candidates_spec h
      exact ⟨hsub.cons c, hroom, hall⟩

theorem candidates_total (key : κ) (now : T) (extra : Int) : ∀ {keys : List κ}, (∀ k ∈ keys, k ∈ t.blocks.keys) →
    ∀ available, ∃ out, t.candidates key now extra keys available = .ok out
  | [], _, available => ⟨_, rfl⟩
  | c :: rest, hmem, available => by
    have hrest := candidates_total key now extra (forall_mem_cons.mp hmem).2
    rw [candidates]
    split
    · obtain ⟨n, hn⟩ := mem_keys_iff.mp (hmem c mem_cons_self)
      refine Except.exists_bind_eq_ok ⟨n, Option.orRaise_eq_ok.mpr hn⟩ fun n => ?_
      split
      · exact ⟨_, rfl⟩
      · exact Except.exists_bind_eq_ok (hrest _) fun _ => ⟨_, rfl⟩
    · exact hrest available

/-- What a write that returned did. -/
structure Writes (capacity : Nat) (t : OffloadTier κ T) (key : κ) (now : T)
    (t' : OffloadTier κ T) (op : OffloadOperation κ T) : Prop where
  /-- The entries: those that were there and not evicted, and the written one. -/
  blocks : ∀ k, k ∈ t'.blocks.keys ↔
    k = key ∧ key ∉ op.evictedKeys ∨ k ∈ t.blocks.keys ∧ (k ∉ op.evictedKeys ∨ k = key)
  /-- A refused write changes nothing. -/
  refused : key ∈ op.evictedKeys → t' = t
  /-- Only unprotected entries were evicted. -/
  evicted : ∀ k ∈ op.evictedKeys, k = key ∨ t.protection k ≤ now
  protection : ∀ k, k ≠ key → k ∉ op.evictedKeys → t'.protection k = t.protection k
  positive : (∀ k n, t.blocks.get? k = some n → 0 < n) →
    ∀ k n, t'.blocks.get? k = some n → 0 < n
  /-- A written entry starts without protection. -/
  unpinned : key ∉ op.evictedKeys → t'.protection key = 0
  ok : Ok capacity t → Ok capacity t'

theorem get?_removeAll {keys : List κ} {n : Nat}
    (h : (keys.foldl OffloadTier.removeExisting t).blocks.get? k = some n) :
    t.blocks.get? k = some n := by
  induction keys generalizing t with
  | nil => exact h
  | cons j keys ih =>
    exact (get?_of_erase (ih h)).2

theorem write_spec {blocks : Nat} {op : OffloadOperation κ T}
    (hpos : 0 < blocks) (h : t.write cfg blockBytes key blocks now = .ok (t', op)) :
    Writes cfg.capacityBlocks t key now t' op := by
  have hrefused : Writes cfg.capacityBlocks t key now t (refused key) := by
    refine ⟨fun k => ?_, fun _ => rfl, fun k hk => .inl (mem_singleton.mp hk),
      fun _ _ _ => rfl, id, fun hk => absurd (mem_singleton_self key) hk, id⟩
    show k ∈ t.blocks.keys ↔ k = key ∧ key ∉ [key] ∨ k ∈ t.blocks.keys ∧ (k ∉ [key] ∨ k = key)
    by_cases hk : k = key <;> simp [hk]
  obtain ⟨-, h⟩ := Except.ite_throw_eq_ok.mp h
  split at h
  · cases h
    exact hrefused
  · dsimp only at h
    obtain ⟨⟨evicted, available⟩, hev, h⟩ := Except.bind_eq_ok.mp h
    -- the evicted entries are candidates, or there are none
    have hchosen : List.Sublist evicted t.lru.keys ∧
        available = cfg.capacityBlocks - t.usedBlocks + (evicted.map t.sizeOf).sum ∧
        ∀ k ∈ evicted, k ≠ key ∧ t.protection k ≤ now ∧ k ∈ t.blocks.keys := by
      unfold victims at hev
      split at hev
      · exact candidates_spec hev
      · cases hev
        exact ⟨nil_sublist _, by simp, by simp⟩
    obtain ⟨hsub, havailable, hall⟩ := hchosen
    have hnodup : evicted.Nodup := hsub.nodup t.lru.keys_nodup
    have hkey : key ∉ evicted := fun hk => (hall key hk).1 rfl
    dsimp only at h
    split at h
    · cases h
      exact hrefused
    · rename_i hfits
      cases h
      refine ⟨fun k => ?_, fun hk => absurd hk hkey, fun k hk => .inr (hall k hk).2.1,
        fun k hk hne => ?_, fun hp k n hn => ?_, fun _ => ?_, fun hok => ?_⟩
      · show k ∈ (OrderedDict.set _ key blocks).keys ↔ _
        rw [mem_keys_set]
        show k = key ∨ k ∈ (OrderedDict.erase _ key).keys ↔ _
        rw [mem_keys_erase, mem_blocks_removeAll]
        by_cases hk : k = key <;> simp [hk, hkey]
      · show protection (removeExisting _ key) k = _
        rw [show protection (removeExisting (evicted.foldl removeExisting t) key) k =
          protection (evicted.foldl removeExisting t) k by
            unfold protection removeExisting
            rw [get?_erase_of_ne hk]]
        exact protection_removeAll hne
      · rcases get?_set_cases hn with ⟨-, rfl⟩ | ⟨-, hn⟩
        · exact hpos
        · exact hp k n (get?_removeAll (get?_of_erase hn).2)
      · show ((OrderedDict.erase _ key).get? key).getD 0 = 0
        rw [get?_erase_self]
        rfl
      · obtain ⟨hok₁, hused₁⟩ := hok.removeAll hnodup
        obtain ⟨hok₂, hused₂⟩ := hok₁.removeExisting key
        have hsize : (evicted.foldl removeExisting t).sizeOf key = t.sizeOf key := by
          unfold sizeOf
          congr 1
          cases hg : t.blocks.get? key with
          | none =>
            rw [get?_eq_none, mem_blocks_removeAll]
            exact fun h => get?_eq_none.mp hg h.1
          | some n =>
            obtain ⟨n', hn'⟩ := mem_keys_iff.mp (mem_blocks_removeAll.mpr
              ⟨mem_keys_iff.mpr ⟨n, hg⟩, hkey⟩)
            rw [hn', ← get?_removeAll hn', hg]
        have hnone : (removeExisting (evicted.foldl removeExisting t) key).blocks.get? key = none :=
          get?_erase_self
        have hsized : ((t.blocks.get? key).getD 0 : Int) = t.sizeOf key := rfl
        refine ⟨fun k => ?_, ?_, ?_, fun k n hn => ?_⟩
        · show k ∈ (OrderedDict.set _ key ()).keys ↔ k ∈ (OrderedDict.set _ key blocks).keys
          rw [mem_keys_set, mem_keys_set, hok₂.lru]
        · show _ + blocks = OrderedDict.sum _ (OrderedDict.set _ key blocks)
          rw [sum_set_of_get?_none hnone, ← hok₂.used]
        · show _ + blocks ≤ _
          omega
        · rcases get?_set_cases hn with ⟨-, rfl⟩ | ⟨-, hn⟩
          · exact hpos
          · exact hok₂.positive k n hn

theorem write_total {blocks : Nat} (hok : Ok cfg.capacityBlocks t) (hcap : 0 < cfg.capacityBlocks) :
    ∃ out, t.write cfg blockBytes key blocks now = .ok out := by
  unfold write
  rw [if_neg (by omega)]
  split
  · exact ⟨_, rfl⟩
  · dsimp only
    refine Except.exists_bind_eq_ok ?_ fun out => ?_
    · unfold victims
      split
      · exact candidates_total _ _ _ (fun k hk => (hok.lru k).mp hk) _
      · exact ⟨_, rfl⟩
    · split
      · exact ⟨_, rfl⟩
      · exact ⟨_, rfl⟩

theorem Ok.read (h : Ok capacity t) :
    Ok capacity (t.read cfg blockBytes key).1 :=
  ⟨fun k => (mem_keys_moveToEnd).trans (h.lru k), h.used, h.within, h.positive⟩

theorem Ok.pin (h : Ok capacity t) (until_ : T) : Ok capacity (t.pin key until_) :=
  { h with }

end OffloadTier

end TokenSim
