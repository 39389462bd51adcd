import TokenSim.Mooncake.Books

/-!
# The bulk path of a put

A large batch that fits into memory is installed without admission scans.  Such a
batch never evicts, so a put of each key by itself enters it into memory or only
touches it (`putOne_eq`), and the batch is the fold of these steps
(`installBatch_alike`) but for the times of access.
-/

namespace TokenSim

open List

namespace MooncakeStore

variable {κ T : Type} [DecidableEq κ] [LinearOrder T] [AddMonoid T] {cfg : MooncakeConfig T}
  {s : MooncakeStore κ T} {key : κ} {now initialDelay : T}

theorem ensureMemoryCapacity_eq {bytes : Nat}
    (hroom : s.memoryUsedBytes + bytes ≤ cfg.memoryCapacityBytes) :
    ensureMemoryCapacity cfg bytes now s = .ok (true, .zero) s := by
  have hfits : ¬ cfg.memoryCapacityBytes < bytes := by omega
  have hevict : ∀ rounds : Nat,
      evictUntil cfg bytes now rounds StoreWriteTiming.zero s = .ok (true, .zero) s
    | 0 => by
      show EStateM.Result.ok (decide _, _) s = _
      rw [decide_eq_true hroom]
    | rounds + 1 => by
      show (if s.memoryUsedBytes + bytes ≤ cfg.memoryCapacityBytes then _ else _ :
        StoreM κ T (Bool × StoreWriteTiming T)) s = _
      rw [if_pos hroom]
      rfl
  rw [ensureMemoryCapacity, if_neg hfits]
  exact hevict _

theorem putOne_eq (hnone : cfg.offload = none) (hroom : s.objects.get? key = none →
    s.memoryUsedBytes + cfg.blockBytes ≤ cfg.memoryCapacityBytes) :
    putOne cfg now initialDelay key s =
      .ok .zero (s.enter (newObject cfg (now + initialDelay)) key) := by
  unfold enter putOne
  dsimp only [bind, EStateM.bind, MonadState.get, getThe, MonadStateOf.get, EStateM.get]
  cases hget : s.objects.get? key with
  | some o => rfl
  | none =>
    show EStateM.bind (ensureMemoryCapacity cfg cfg.blockBytes now) _ s = _
    rw [EStateM.bind, ensureMemoryCapacity_eq (hroom hget)]
    show putMemory cfg key now initialDelay .zero s = _
    rw [putMemory, hnone, show now + initialDelay + StoreWriteTiming.zero.accountingLatency =
      now + initialDelay from add_zero _]
    rfl

theorem putAll_eq (hnone : cfg.offload = none) : ∀ {keys : List κ} {s : MooncakeStore κ T},
    keys.Nodup → Books cfg s →
    s.memoryUsedBytes + (s.freshKeys keys).length * cfg.blockBytes ≤ cfg.memoryCapacityBytes →
    putAll cfg now initialDelay keys .zero s =
      .ok .zero (keys.foldl (MooncakeStore.enter (newObject cfg (now + initialDelay))) s)
  | [], _, _, _, _ => rfl
  | key :: rest, s, hnodup, hbooks, hroom => by
    obtain ⟨hkey, hnodup⟩ := nodup_cons.mp hnodup
    obtain ⟨hbooks', hroom'⟩ := hbooks.enter (o := newObject cfg (now + initialDelay)) rfl
      Nat.one_pos hroom hkey
    have hone : s.objects.get? key = none →
        s.memoryUsedBytes + cfg.blockBytes ≤ cfg.memoryCapacityBytes := by
      intro hget
      rw [freshKeys, filter_cons_of_pos (by rw [hget]; rfl), length_cons,
        Nat.succ_mul] at hroom
      omega
    have hdelay : initialDelay + StoreWriteTiming.zero.accountingLatency = initialDelay :=
      add_zero _
    have htiming : (StoreWriteTiming.zero : StoreWriteTiming T).add .zero = .zero :=
      congrArg₂ StoreWriteTiming.mk (add_zero 0) (add_zero 0)
    show EStateM.bind (putOne cfg now (initialDelay + _) key) _ s = _
    rw [EStateM.bind, hdelay, putOne_eq hnone hone]
    dsimp only
    rw [htiming, putAll_eq hnone hnodup hbooks' hroom']
    rfl

/-- The condition for the bulk path. -/
def Bulk (cfg : MooncakeConfig T) (s : MooncakeStore κ T) (keys : List κ) (blocks : Nat) : Prop :=
  cfg.offload.isNone ∧ 64 < blocks ∧ evictionPolicyAllowsBatch cfg blocks = true ∧
    s.memoryUsedBytes + (s.freshKeys (distinct (keys.take blocks))).length * cfg.blockBytes ≤
      cfg.memoryCapacityBytes

instance (keys : List κ) (blocks : Nat) : Decidable (Bulk cfg s keys blocks) :=
  inferInstanceAs (Decidable (_ ∧ _ ∧ _ ∧ _))

theorem distinct_of_nodup {keys : List κ} (h : keys.Nodup) : distinct keys = keys := by
  have hkeys : Entries.keys (keys.map fun key => (key, ())) = keys := by
    simp [Entries.keys, Function.comp_def]
  unfold distinct OrderedDict.keys
  rw [OrderedDict.entries_update_of_disjoint (by rw [hkeys]; exact h) fun _ _ => not_mem_nil]
  exact hkeys

/-- A put of distinct keys that are admitted into a store without offload tier, from
every state that calls can lead to.  When the bulk path is taken, one put after the
other returns the same timing and ends with the same objects but for their times of
access, the same LRU order, bytes and statistics; otherwise the keys are put one
after the other. -/
theorem put_bulk_alike (cfg : MooncakeConfig T) (hnone : cfg.offload = none)
    (calls : List (Call κ T)) (keys : List κ) (hkeys : keys.Nodup) (hne : keys ≠ [])
    (blocks : Option Nat) (now initialDelay : T) (policy : Option AdmissionPolicy)
    (hpolicy : policy.getD cfg.admissionPolicy ≠ .never) :
    let s := calls.foldl (exec cfg) (init : MooncakeStore κ T)
    let counted := s.updateStats fun st => { st with putCount := st.putCount + 1 }
    let perKey := putAll cfg now initialDelay (keys.take (blocks.getD keys.length)) .zero counted
    (Bulk cfg s keys (blocks.getD keys.length) → ∃ timing b p,
      putWithTiming cfg keys blocks now initialDelay policy s = .ok timing b ∧
        perKey = .ok timing p ∧ Alike b p) ∧
    (¬ Bulk cfg s keys (blocks.getD keys.length) →
      putWithTiming cfg keys blocks now initialDelay policy s = perKey) := by
  intro s counted perKey
  have hbooks : Books cfg counted := Books.updateStats (run_books
    (fun _ h => by rw [hnone] at h; cases h) calls (init_books cfg)) _
  have htake : (keys.take (blocks.getD keys.length)).Nodup := hkeys.sublist (take_sublist ..)
  have hcall : putWithTiming cfg keys blocks now initialDelay policy s =
      (if Bulk cfg s keys (blocks.getD keys.length) then do
        modify (installBatch cfg (distinct (keys.take (blocks.getD keys.length))) now initialDelay)
        pure StoreWriteTiming.zero
      else putAll cfg now initialDelay (keys.take (blocks.getD keys.length)) .zero) counted := by
    rw [putWithTiming, if_neg (not_or.mpr ⟨hpolicy, hne⟩)]
    rfl
  constructor
  · intro hbulk
    have hroom := hbulk.2.2.2
    rw [distinct_of_nodup htake] at hroom
    rw [hcall, if_pos hbulk, distinct_of_nodup htake]
    exact ⟨_, _, _, rfl, putAll_eq hnone htake hbooks hroom,
      (installBatch_alike hbooks hnone htake hroom).1⟩
  · intro hbulk
    rw [hcall, if_neg hbulk]

/-- Sixty-five keys, some of them resident. -/
theorem put_bulk_alike_resident :
    let cfg : MooncakeConfig Nat := ⟨100, 1, .lru, .always, none⟩
    let s := [Call.put [3, 1] none 0 0].foldl (exec cfg) (init : MooncakeStore Nat Nat)
    Bulk cfg s (List.range 65) 65 ∧ ∃ timing b p,
      putWithTiming cfg (List.range 65) none 7 0 none s = .ok timing b ∧
        putAll cfg 7 0 ((List.range 65).take 65) .zero
          (s.updateStats fun st => { st with putCount := st.putCount + 1 }) = .ok timing p ∧
        Alike b p := by
  intro cfg s
  have hbulk : Bulk cfg s (List.range 65) 65 := by decide +kernel
  exact ⟨hbulk, (put_bulk_alike cfg rfl [.put [3, 1] none 0 0] (List.range 65) nodup_range
    (by decide) none 7 0 none (by decide)).1 hbulk⟩

end MooncakeStore

end TokenSim
