import TokenSim.Mooncake.Books

/-!
# Objects in transfer stay

An object is busy until its write has ended and until the last read of it has
ended.  Memory checks the object itself before it evicts; the offload tier only
sees the times that its entries were pinned to.  `Guarded` connects the two: the
object of an entry is busy for no longer than the entry is pinned, up to the
present.  Every call keeps it, whether it returns or raises, and with it no object
leaves the tier that serves it while it is busy.

The second part is about reads.  `Resident` are the objects that a hit reports.
Lookups and reads keep them, so that a read of a hit returns.
-/

set_option linter.unusedSectionVars false

namespace TokenSim

open List OrderedDict

namespace MooncakeStore

open EStateM

variable {κ T : Type} [DecidableEq κ] [LinearOrder T] [Add T] [Zero T]
  {cfg : MooncakeConfig T} {s s' : MooncakeStore κ T} {key : κ} {o : StoreObject T} {now : T}

/-! ## What left a tier, and when -/

/-- No busy object has left its tier, and entries of the offload tier are pinned
for as long as their object is busy, up to the present. -/
structure Guarded (now : T) (s : MooncakeStore κ T) : Prop where
  spared : ∀ r ∈ s.removals, ¬ r.object.Busy r.now
  held : ∀ k o, s.objects.get? k = some o → o.tier = .offload →
    max o.readyAt o.inUseUntil ≤ max (s.offload.protection k) now
  sized : ∀ k o, s.objects.get? k = some o → 0 < o.blocks
  positive : ∀ k n, s.offload.blocks.get? k = some n → 0 < n

theorem Guarded.later {now' : T} (h : Guarded now s) (hle : now ≤ now') : Guarded now' s :=
  ⟨h.spared, fun k o ho htier => (h.held k o ho htier).trans (max_le_max_left _ hle), h.sized,
    h.positive⟩

theorem Guarded.updateStats (h : Guarded now s) (f : MooncakeStats → MooncakeStats) :
    Guarded now (s.updateStats f) :=
  { h with }

variable {m : MooncakeStore κ T} {initialDelay : T} {keys : List κ}

theorem Guarded.replace (h : Guarded now s)
    (hobjects : m.objects = s.objects.set key o) (hremovals : m.removals = s.removals)
    (hblocks : m.offload.blocks = s.offload.blocks)
    (hother : ∀ k, k ≠ key → m.offload.protection k = s.offload.protection k)
    (hheld : o.tier = .offload → max o.readyAt o.inUseUntil ≤ max (m.offload.protection key) now)
    (hsized : 0 < o.blocks) : Guarded now m := by
  refine ⟨hremovals ▸ h.spared, fun k x hx htier => ?_, fun k x hx => ?_, hblocks ▸ h.positive⟩
  · rw [hobjects] at hx
    rcases get?_set_cases hx with ⟨rfl, rfl⟩ | ⟨hk, hx⟩
    · exact hheld htier
    · rw [hother k hk]
      exact h.held k x hx htier
  · rw [hobjects] at hx
    rcases get?_set_cases hx with ⟨-, rfl⟩ | ⟨-, hx⟩
    · exact hsized
    · exact h.sized k x hx

theorem Guarded.touch (h : Guarded now s) (ho : s.objects.get? key = some o) :
    Guarded now (s.touch key o) :=
  h.replace rfl rfl rfl (fun _ _ => rfl) (h.held key o ho) (h.sized key o ho)

theorem protection_pin (t : OffloadTier κ T) (k : κ) (until_ : T) :
    (t.pin key until_).protection k =
      if k = key then max (t.protection key) until_ else t.protection k := by
  unfold OffloadTier.pin
  rw [OffloadTier.protection, get?_set]
  split
  · rfl
  · rfl

/-- The objects that a record of a write takes out are those the tier served and
dropped. -/
theorem mem_removals_dropAll {r : Removal κ T} {evicted : List κ} : ∀ {s : MooncakeStore κ T},
    r ∈ (evicted.foldl (dropEvicted now) s).removals → r ∈ s.removals ∨
      r.now = now ∧ r.key ∈ evicted ∧ s.objects.get? r.key = some r.object ∧
        r.object.tier = .offload := by
  induction evicted with
  | nil => intro s h; exact .inl h
  | cons j rest ih =>
    intro s h
    have hfirst : r ∈ (dropEvicted now s j).removals → r ∈ s.removals ∨
        r.now = now ∧ r.key = j ∧ s.objects.get? r.key = some r.object ∧
          r.object.tier = .offload := by
      unfold dropEvicted
      cases ho : s.objects.get? j with
      | none => exact .inl
      | some o =>
        dsimp only
        split
        · rename_i htier
          intro hr
          rcases mem_append.mp hr with hr | hr
          · exact .inl hr
          · cases mem_singleton.mp hr
            exact .inr ⟨rfl, rfl, ho, htier⟩
        · exact .inl
    rcases ih h with hr | ⟨hnow, hrest, hget, htier⟩
    · rcases hfirst hr with hr | ⟨hnow, hkey, hget, htier⟩
      · exact .inl hr
      · exact .inr ⟨hnow, hkey ▸ mem_cons_self .., hget, htier⟩
    · rw [get?_dropEvicted] at hget
      split at hget
      · obtain ⟨x, -, hx⟩ := Option.bind_eq_some_iff.mp hget
        split at hx
        · cases hx
        · rename_i hmem
          have hsame := Option.some.inj hx
          rw [← hsame] at htier
          exact absurd htier hmem
      · exact .inr ⟨hnow, mem_cons_of_mem _ hrest, hget, htier⟩

theorem not_busy_iff : ¬ o.Busy now ↔ max o.readyAt o.inUseUntil ≤ now := not_lt

/-- A write to the offload tier and its record: what the tier dropped was not
pinned, so its objects were not busy. -/
theorem Guarded.record {capacity : Nat} {t' : OffloadTier κ T}
    {op : OffloadOperation κ T} (h : Guarded now s)
    (hwrites : OffloadTier.Writes capacity s.offload key now t' op)
    (hobjects : m.objects = s.objects) (hremovals : m.removals = s.removals)
    (hblocks : m.offload.blocks = t'.blocks)
    (hother : ∀ k, k ≠ key → m.offload.protection k = t'.protection k)
    (hidle : ∀ o, s.objects.get? key = some o → o.tier = .offload → ¬ o.Busy now) :
    Guarded now (recordOffloadWrite now op m) := by
  have hdropped := dropped_record now op m
  refine ⟨fun r hr => ?_, fun k x hx htier => ?_, fun k x hx => ?_, ?_⟩
  · rcases mem_removals_dropAll hr with hr | ⟨hnow, hev, hget, htier⟩
    · exact h.spared r (hremovals ▸ hr)
    · have hget : s.objects.get? r.key = some r.object := hobjects ▸ hget
      rw [hnow]
      rcases hwrites.evicted r.key hev with hkey | hprotection
      · exact hidle r.object (hkey ▸ hget) htier
      · rw [not_busy_iff]
        exact (h.held r.key r.object hget htier).trans (max_le hprotection le_rfl)
  · have hnot : k ∉ op.evictedKeys := fun hk => by
      rw [hdropped.served k hk x hx] at htier
      cases htier
    rw [hdropped.other k hnot, hobjects] at hx
    rw [hdropped.offload]
    by_cases hk : k = key
    · subst hk
      exact (not_busy_iff.mp (hidle x hx htier)).trans (le_max_right _ _)
    · rw [hother k hk, hwrites.protection k hk hnot]
      exact h.held k x hx htier
  · obtain ⟨y, hy, -, -, -, -, hsize⟩ := hdropped.kept k x hx
    rw [hsize]
    exact h.sized k y (hobjects ▸ hy)
  · rw [hdropped.offload, hblocks]
    exact hwrites.positive h.positive

/-! ## Puts -/

/-- A step of a put: objects that were not there do not appear. -/
structure Spares (now : T) (s s' : MooncakeStore κ T) : Prop where
  guarded : Guarded now s'
  absent : ∀ k, s.objects.get? k = none → s'.objects.get? k = none

theorem Spares.trans {s'' : MooncakeStore κ T} (h : Spares now s s') (h' : Spares now s' s'') :
    Spares now s s'' :=
  ⟨h'.guarded, fun k hk => h'.absent k (h.absent k hk)⟩

theorem Guarded.enter (h : Guarded now s) (ready : T) :
    Guarded now (s.setObject key (newObject cfg ready)) :=
  h.replace rfl rfl rfl (fun _ _ => rfl) nofun Nat.one_pos

theorem Guarded.settle (h : Guarded now s) (k : κ) : Guarded now (s.settle k) := by
  have hjoin : Guarded now
      (if k ∈ s.memoryLru.keys then s else { s with memoryLru := s.memoryLru.set k () }) := by
    split
    · exact h
    · exact { h with }
  unfold MooncakeStore.settle
  dsimp only
  split
  · exact hjoin
  · rename_i o ho
    exact hjoin.touch ho

theorem Guarded.installBatch (h : Guarded now s) (selected : List κ) :
    Guarded now (installBatch cfg selected now initialDelay s) := by
  unfold MooncakeStore.installBatch
  have hfresh : ∀ (keys : List κ) {s : MooncakeStore κ T}, Guarded now s → Guarded now (keys.foldl
      (fun s key => s.setObject key (newObject cfg (now + initialDelay))) s) := by
    intro keys
    induction keys with
    | nil => intro s h; exact h
    | cons k rest ih => intro s h; exact ih (h.enter _)
  have hsettle : ∀ (keys : List κ) {s : MooncakeStore κ T}, Guarded now s →
      Guarded now (keys.foldl MooncakeStore.settle s) := by
    intro keys
    induction keys with
    | nil => intro s h; exact h
    | cons k rest ih => intro s h; exact ih (h.settle k)
  have hinstalled := hfresh (s.freshKeys selected) h
  refine Guarded.updateStats (hsettle selected ?_) _
  exact { hinstalled with }

theorem Guarded.useUntil (h : Guarded now s) (until_ : T) (k : κ) :
    Guarded now (s.useUntil until_ k) := by
  unfold MooncakeStore.useUntil
  cases ho : s.objects.get? k with
  | none => exact h
  | some o =>
    dsimp only
    split
    · rename_i htier
      have hheld := h.held k o ho htier
      refine h.replace rfl rfl rfl (fun j hj => (protection_pin ..).trans (if_neg hj)) (fun _ => ?_)
        (h.sized k o ho)
      rw [protection_pin, if_pos rfl]
      -- the pin covers the new end of use, and the old protection what was busy before
      refine max_le (((le_max_left _ _).trans hheld).trans (max_le_max_right _ (le_max_left _ _))) ?_
      exact (le_max_right _ _).trans (le_max_left _ _)
    · rename_i htier
      exact h.replace rfl rfl rfl (fun _ _ => rfl) (fun ht => absurd ht htier) (h.sized k o ho)

/-- What lookups and reads leave as it is: which objects there are, where they are
served and when they are ready. -/
structure Stable (s s' : MooncakeStore κ T) : Prop where
  objects : ∀ k o, s.objects.get? k = some o → ∃ o', s'.objects.get? k = some o' ∧
    o'.tier = o.tier ∧ o'.readyAt = o.readyAt
  blocks : s'.offload.blocks = s.offload.blocks

theorem Stable.refl (s : MooncakeStore κ T) : Stable s s := ⟨fun _ o ho => ⟨o, ho, rfl, rfl⟩, rfl⟩

theorem Stable.stats (s : MooncakeStore κ T) (f : MooncakeStats → MooncakeStats) :
    Stable s (s.updateStats f) :=
  ⟨fun _ o ho => ⟨o, ho, rfl, rfl⟩, rfl⟩

theorem Stable.trans {s'' : MooncakeStore κ T} (h : Stable s s') (h' : Stable s' s'') :
    Stable s s'' := by
  refine ⟨fun k o ho => ?_, h'.blocks.trans h.blocks⟩
  obtain ⟨o', ho', htier', hready'⟩ := h.objects k o ho
  obtain ⟨o'', ho'', htier'', hready''⟩ := h'.objects k o' ho'
  exact ⟨o'', ho'', htier''.trans htier', hready''.trans hready'⟩

theorem Stable.replace {o' : StoreObject T}
    (ho : s.objects.get? key = some o) (hobjects : m.objects = s.objects.set key o')
    (htier : o'.tier = o.tier) (hready : o'.readyAt = o.readyAt)
    (hblocks : m.offload.blocks = s.offload.blocks) : Stable s m := by
  refine ⟨fun k x hx => ?_, hblocks⟩
  rw [hobjects, get?_set]
  split
  · rename_i hk
    subst hk
    cases ho.symm.trans hx
    exact ⟨o', rfl, htier, hready⟩
  · exact ⟨x, hx, rfl, rfl⟩

/-- A key that a read can be asked for. -/
def Resident (now : T) (s : MooncakeStore κ T) (k : κ) : Prop :=
  ∃ o, s.objects.get? k = some o ∧ o.readyAt ≤ now ∧ s.served k o = true

theorem Resident.stable {k : κ} (h : Resident now s k) (hs : Stable s s') : Resident now s' k := by
  obtain ⟨o, ho, hready, hserved⟩ := h
  obtain ⟨o', ho', htier', hready'⟩ := hs.objects k o ho
  refine ⟨o', ho', hready'.trans_le hready, ?_⟩
  unfold served OffloadTier.contains at *
  rw [htier', hs.blocks]
  exact hserved

end MooncakeStore

end TokenSim
