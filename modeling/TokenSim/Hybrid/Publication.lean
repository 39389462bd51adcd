import TokenSim.Hybrid.Retention

/-!
# Publication of window pages

`cacheComputed` runs after every step and must be cheap.  It skips the pass
when nothing has changed, skips the window groups before a recorded threshold,
and enumerates the retained pages by boundary.  The slow rule looks at every
held window page after every step.

`publication_eq_slowRule` says that the two publish the same pages in the same
order.  Its invariant, `CommitOk`, is what a commit record of the manager
promises: all pages that were complete and retained when the record was made
are published, or have no key yet.
-/

namespace TokenSim

open List OrderedDict
open World (put_mgr put_phase_self put_reqs_self)

open HybridKVBlockManager SlotPool
open Except

/-! ## The slow rule -/

section SlowRule

variable (cfg : HybridConfig) (r : Request)

/-- The slow rule on a window table: of the held pages, in order, those that
are complete, not published yet and retained are published if their key is
known. -/
def slowWindow (g : CacheGroup) (computed : Nat) (extra : List Nat) :
    HybridKVBlockManager → List (Nat × Nat) → Except Err HybridKVBlockManager
  | m, [] => pure m
  | m, (index, slot) :: rest =>
    if (index + 1) * g.blockTokens ≤ computed ∧ (m.pool.blocks slot).cached = false ∧
        retained cfg.layout.retentionInterval g index computed extra = true then do
      let (m, _) ← m.publish cfg r g index slot
      slowWindow g computed extra m rest
    else slowWindow g computed extra m rest

/-- The slow rule on one group.  Full groups are published as ever. -/
def slowGroup (tables : GroupTables) (computed : Nat) (g : CacheGroup)
    (m : HybridKVBlockManager) : Except Err HybridKVBlockManager :=
  if g.windowTokens = 0 then (publishGroup cfg r tables computed false g m).map Prod.fst
  else slowWindow cfg r g computed ((requestBoundaries cfg r).filter (· ≤ computed)) m
    (tableOf tables g).entries

def slowGroups (tables : GroupTables) (computed : Nat) :
    List CacheGroup → HybridKVBlockManager → Except Err HybridKVBlockManager
  | [], m => pure m
  | g :: groups, m => do
    let m ← slowGroup cfg r tables computed g m
    slowGroups tables computed groups m

end SlowRule

variable {cfg : HybridConfig} {leak : Nat → Nat} {m m' : HybridKVBlockManager} {r r' : Request}
  {g : CacheGroup} {tables tables' : GroupTables} {computed : Nat} {w w' : World}

/-! ## Enumeration by boundary -/

variable {table : GroupTable} {state : CommitState} {threshold : Threshold} {rid : Nat}

theorem publishWindow_filter : ∀ (indices : List Nat)
    (m : HybridKVBlockManager), publishWindow cfg r g table computed m indices =
      publishWindow cfg r g table computed m (indices.filter fun i =>
        decide (i ∈ table.keys) && decide ((i + 1) * g.blockTokens ≤ computed))
  | [], m => rfl
  | i :: rest, m => by
    rw [filter_cons]
    cases hget : table.get? i with
    | none =>
      have hno : i ∉ table.keys := get?_eq_none.mp hget
      rw [if_neg (by simp [hno]), publishWindow, hget]
      exact publishWindow_filter rest m
    | some slot =>
      have hmem : i ∈ table.keys := mem_keys_iff.mpr ⟨slot, hget⟩
      by_cases hc : (i + 1) * g.blockTokens ≤ computed
      · rw [if_pos (by simp [hmem, hc]), publishWindow, publishWindow, hget]
        refine if_congr Iff.rfl (publishWindow_filter rest m) ?_
        cases m.publish cfg r g i slot with
        | error e => rfl
        | ok x =>
          dsimp only [bind, Except.bind]
          rw [publishWindow_filter rest x.1]
      · rw [if_neg (by simp [hc]), publishWindow, hget]
        dsimp only
        rw [if_pos (.inr (Nat.lt_of_not_le hc))]
        exact publishWindow_filter rest m

/-- The slow rule is the code's loop over the held pages that are complete and
retained. -/
theorem slowWindow_eq (extra : List Nat) : ∀ (l : List (Nat × Nat))
    (m : HybridKVBlockManager), (∀ e ∈ l, table.get? e.1 = some e.2) →
    slowWindow cfg r g computed extra m l =
      (publishWindow cfg r g table computed m ((l.map Prod.fst).filter fun i =>
        decide ((i + 1) * g.blockTokens ≤ computed) &&
          retained cfg.layout.retentionInterval g i computed extra)).map Prod.fst
  | [], m, _ => rfl
  | (i, slot) :: rest, m, hl => by
    have hget : table.get? i = some slot := hl (i, slot) mem_cons_self
    have ih := fun m => slowWindow_eq extra rest m (forall_mem_cons.mp hl).2
    rw [map_cons, filter_cons]
    by_cases hp : (i + 1) * g.blockTokens ≤ computed ∧
        retained cfg.layout.retentionInterval g i computed extra = true
    · rw [if_pos (by simpa using hp), publishWindow, hget, slowWindow]
      dsimp only
      by_cases hc : (m.pool.blocks slot).cached = true
      · rw [if_neg (by simp [hc]), if_pos (.inl hc), ih]
      · rw [if_pos ⟨hp.1, by simpa using hc, hp.2⟩, if_neg (by simpa [hc] using hp.1)]
        cases hpub : m.publish cfg r g i slot with
        | error e => rfl
        | ok x =>
          obtain ⟨m₁, known⟩ := x
          refine (ih m₁).trans ?_
          dsimp only [bind, Except.bind]
          cases publishWindow cfg r g table computed m₁ _ with
          | error e => rfl
          | ok y => rfl
    · rw [if_neg (by simpa using hp), slowWindow, if_neg (fun h => hp ⟨h.1, h.2.2⟩), ih]

/-- The candidates of the code, among the held and complete pages of an
ascending table, are the retained ones. -/
theorem windowCandidates_filter {boundaries : List Nat}
    (hg : g ∈ cfg.layout.groups) (hsorted : table.keys.Pairwise (· < ·)) :
    (windowCandidates cfg.layout g table computed (boundaries.filter (· ≤ computed))).filter
        (fun i => decide (i ∈ table.keys) && decide ((i + 1) * g.blockTokens ≤ computed)) =
      table.keys.filter fun i => decide ((i + 1) * g.blockTokens ≤ computed) &&
        retained cfg.layout.retentionInterval g i computed (boundaries.filter (· ≤ computed)) := by
  unfold windowCandidates
  cases hkeys : table.keys with
  | nil => rfl
  | cons lowest rest =>
    rw [hkeys] at hsorted
    dsimp only
    split
    · rename_i hfit
      refine ((pairwise_retainedRuns ..).filter _).eq_of_mem_iff (hsorted.filter _) fun i => ?_
      have hlow : i ∈ lowest :: rest → lowest ≤ i := by
        intro hin
        rcases mem_cons.mp hin with rfl | hin
        · exact le_rfl
        · exact (rel_of_pairwise_cons hsorted hin).le
      simp only [mem_filter, Bool.and_eq_true, decide_eq_true_eq]
      constructor
      · rintro ⟨hmem, hin, hc⟩
        exact ⟨hin, hc, retained_iff.mpr ((mem_retainedRuns hg hfit (hlow hin)).mp hmem)⟩
      · rintro ⟨hin, hc, hret⟩
        exact ⟨(mem_retainedRuns hg hfit (hlow hin)).mpr (retained_iff.mp hret), hin, hc⟩
    · rw [filter_filter]
      refine filter_congr fun i hi => ?_
      simp [hi]

theorem publishGroup_window_eq (hg : g ∈ cfg.layout.groups) (hw : g.windowTokens ≠ 0)
    (hsorted : (tableOf tables g).keys.Pairwise (· < ·)) :
    (publishGroup cfg r tables computed true g m).map Prod.fst =
      slowGroup cfg r tables computed g m := by
  unfold publishGroup slowGroup
  rw [if_neg hw, if_neg hw, if_pos rfl, publishWindow_filter, windowCandidates_filter hg hsorted]
  refine (slowWindow_eq _ _ m fun e he => ?_).symm
  exact get?_eq_some_iff.mpr he

/-- Window tables hold ascending indices. -/
def Ascending (cfg : HybridConfig) (tables : GroupTables) : Prop :=
  ∀ g ∈ cfg.layout.groups, g.windowTokens ≠ 0 → (tableOf tables g).keys.Pairwise (· < ·)

/-! ## Passes that may skip the windows -/

/-- All pages that are complete and retained are published, or have no key. -/
def Settled (cfg : HybridConfig) (r : Request) (tables : GroupTables) (computed : Nat)
    (pool : SlotPool SlotKey) : Prop :=
  ∀ g ∈ cfg.layout.groups, g.windowTokens ≠ 0 → ∀ i s, (tableOf tables g).get? i = some s →
    (i + 1) * g.blockTokens ≤ computed →
    RetainedBy cfg.layout g i computed (requestBoundaries cfg r) →
    (pool.blocks s).cached = true ∨ cfg.slotKey r g i = .ok none

theorem slowWindow_of_settled {extra : List Nat} : ∀ {l : List (Nat × Nat)},
    (∀ e ∈ l, (e.1 + 1) * g.blockTokens ≤ computed →
      retained cfg.layout.retentionInterval g e.1 computed extra = true →
      (m.pool.blocks e.2).cached = true ∨ cfg.slotKey r g e.1 = .ok none) →
    slowWindow cfg r g computed extra m l = .ok m
  | [], _ => rfl
  | (i, slot) :: rest, hl => by
    have ih := slowWindow_of_settled (forall_mem_cons.mp hl).2
    rw [slowWindow]
    split
    · rename_i hp
      rcases hl (i, slot) mem_cons_self hp.1 hp.2.2 with hc | hkey
      · rw [hp.2.1] at hc
        cases hc
      · -- without a key nothing is published
        rw [HybridKVBlockManager.publish, hkey]
        exact ih
    · exact ih

theorem slowGroup_of_settled (hg : g ∈ cfg.layout.groups) (hw : g.windowTokens ≠ 0)
    (h : Settled cfg r tables computed m.pool) : slowGroup cfg r tables computed g m = .ok m := by
  unfold slowGroup
  rw [if_neg hw]
  refine slowWindow_of_settled fun e he hc hret => ?_
  exact h g hg hw e.1 e.2 (get?_eq_some_iff.mpr he) hc (retained_iff.mp hret)

theorem Settled.publishes {own : CacheGroup → Nat → Nat → Prop} (h : Settled cfg r tables computed m.pool)
    (hp : Publishes cfg r own m m') : Settled cfg r tables computed m'.pool :=
  fun g hg hw i s hi hc hret => (h g hg hw i s hi hc hret).imp_left fun hs => (hp.cached s hs).1

/-- A pass is the slow rule.  When it skips the windows they must be settled. -/
theorem publishGroups_eq {windows : Bool} : ∀ {groups : List CacheGroup},
    (∀ g ∈ groups, g ∈ cfg.layout.groups) → ∀ {m : HybridKVBlockManager},
    (windows = true ∧ Ascending cfg tables ∨
      windows = false ∧ Settled cfg r tables computed m.pool) →
    (publishGroups cfg r tables computed windows groups m).map Prod.fst =
      slowGroups cfg r tables computed groups m
  | [], _, m, _ => rfl
  | g :: groups, hsub, m, h => by
    have hg := hsub g mem_cons_self
    have hhead : (publishGroup cfg r tables computed windows g m).map Prod.fst =
        slowGroup cfg r tables computed g m := by
      by_cases hw : g.windowTokens = 0
      · unfold slowGroup publishGroup
        rw [if_pos hw, if_pos hw, if_pos hw]
      rcases h with ⟨rfl, hasc⟩ | ⟨rfl, hset⟩
      · exact publishGroup_window_eq hg hw (hasc g hg hw)
      · rw [slowGroup_of_settled hg hw hset, publishGroup, if_neg hw]
        rfl
    rw [slowGroups, publishGroups, ← hhead]
    cases hx : publishGroup cfg r tables computed windows g m with
    | error e => rfl
    | ok x =>
      refine Eq.trans ?_ (publishGroups_eq (forall_mem_cons.mp hsub).2
        (h.imp_right fun hskip => ⟨hskip.1, hskip.2.publishes (publishGroup_spec hg hx)⟩))
      dsimp only [bind, Except.bind]
      cases publishGroups cfg r tables computed windows groups x.1 with
      | error e => rfl
      | ok y => rfl

/-- Nothing is left to publish when the full pages are up to date as well. -/
theorem slowGroups_of_settled (hset : Settled cfg r tables computed m.pool)
    (hprog : m.cachedProgress.get? r.id =
      some (min (computed / cfg.blockSize) (cfg.inputKeys r).length)) :
    ∀ {groups : List CacheGroup}, (∀ g ∈ groups, g ∈ cfg.layout.groups) →
    slowGroups cfg r tables computed groups m = .ok m
  | [], _ => rfl
  | g :: groups, hsub => by
    have hg := hsub g mem_cons_self
    have ih := slowGroups_of_settled hset hprog
      (forall_mem_cons.mp hsub).2
    have hhead : slowGroup cfg r tables computed g m = .ok m := by
      by_cases hw : g.windowTokens = 0
      · have hbt : g.blockTokens = cfg.blockSize := HybridKVLayout.blockTokens_of_no_window hg hw
        unfold slowGroup publishGroup
        rw [if_pos hw, if_pos hw, hbt, hprog]
        dsimp only [Option.orRaise, bind, Except.bind, pure, Except.pure]
        rw [Nat.sub_self, range'_zero, set_of_get? hprog]
        rfl
      · exact slowGroup_of_settled hg hw hset
    rw [slowGroups, hhead]
    exact ih

/-! ## What a pass leaves behind -/

theorem publish_done {index slot : Nat} {known : Bool}
    (h : m.publish cfg r g index slot = .ok (m', known)) :
    (m'.pool.blocks slot).cached = true ∨ cfg.slotKey r g index = .ok none ∧ known = false := by
  obtain ⟨key, hkey, h⟩ := bind_eq_ok.mp h
  cases key with
  | none =>
    cases h
    exact .inr ⟨hkey, rfl⟩
  | some key =>
    cases h
    exact .inl (((publish_blocks m.pool slot key slot).2.2.1).trans (if_pos rfl))

/-- Every held and complete page that was visited is published, unless it has no
key and the flag says so. -/
theorem publishWindow_done (hg : g ∈ cfg.layout.groups) :
    ∀ {indices : List Nat} {m m' : HybridKVBlockManager} {deferred : Bool},
    publishWindow cfg r g table computed m indices = .ok (m', deferred) → ∀ i ∈ indices,
    ∀ s, table.get? i = some s → (i + 1) * g.blockTokens ≤ computed →
    (m'.pool.blocks s).cached = true ∨ cfg.slotKey r g i = .ok none ∧ deferred = true
  | [], m, m', deferred, h, i, hi => nomatch hi
  | j :: rest, m, m', deferred, h, i, hi => by
    intro s hs hc
    have hspec : ∀ {m₁ m₂ : HybridKVBlockManager} {d : Bool},
        publishWindow cfg r g table computed m₁ rest = .ok (m₂, d) →
        Publishes cfg r (fun _ _ _ => True) m₁ m₂ := fun hrest =>
      publishWindow_spec hg (fun _ _ _ => trivial) hrest
    rw [publishWindow] at h
    cases hj : table.get? j with
    | none =>
      rw [hj] at h
      rcases mem_cons.mp hi with rfl | hi
      · rw [hs] at hj
        cases hj
      · exact publishWindow_done hg h i hi s hs hc
    | some slot =>
      rw [hj] at h
      dsimp only at h
      split at h
      · rename_i hskip
        rcases mem_cons.mp hi with rfl | hi
        · rw [hs, Option.some.injEq] at hj
          subst hj
          exact .inl ((hspec h).cached s (hskip.resolve_right (by omega))).1
        · exact publishWindow_done hg h i hi s hs hc
      · obtain ⟨⟨m₁, known⟩, hpub, h⟩ := bind_eq_ok.mp h
        obtain ⟨⟨m₂, d⟩, hrest, h⟩ := bind_eq_ok.mp h
        cases h
        rcases mem_cons.mp hi with rfl | hi
        · rw [hs, Option.some.injEq] at hj
          subst hj
          rcases publish_done hpub with hcached | ⟨hkey, hknown⟩
          · exact .inl ((hspec hrest).cached s hcached).1
          · exact .inr ⟨hkey, by rw [hknown]; rfl⟩
        · refine (publishWindow_done hg hrest i hi s hs hc).imp_right fun ⟨hkey, hd⟩ => ?_
          exact ⟨hkey, by rw [hd, Bool.or_true]⟩

/-- After a due pass the windows are settled; when nothing was deferred, every
retained page is published. -/
theorem PassedGroups.done (hasc : Ascending cfg tables) {groups : List CacheGroup} {deferred : Bool}
    (h : PassedGroups cfg r tables computed true groups m m' deferred) :
    ∀ g ∈ groups, g.windowTokens ≠ 0 → ∀ i s, (tableOf tables g).get? i = some s →
      (i + 1) * g.blockTokens ≤ computed →
      RetainedBy cfg.layout g i computed (requestBoundaries cfg r) →
      (m'.pool.blocks s).cached = true ∨ cfg.slotKey r g i = .ok none ∧ deferred = true := by
  induction h with
  | nil => exact fun g hg => absurd hg not_mem_nil
  | cons hgl hhead hrest ih =>
    intro g hg hw i s hi hc hret
    rcases mem_cons.mp hg with rfl | hg
    · -- a retained page is among the candidates
      have hmem : i ∈ windowCandidates cfg.layout g (tableOf tables g) computed
          ((requestBoundaries cfg r).filter (· ≤ computed)) := by
        have hkeys : i ∈ (tableOf tables g).keys := mem_keys_iff.mpr ⟨s, hi⟩
        refine mem_of_mem_filter (p := fun i => decide (i ∈ (tableOf tables g).keys) &&
          decide ((i + 1) * g.blockTokens ≤ computed)) ?_
        rw [windowCandidates_filter hgl (hasc g hgl hw)]
        exact mem_filter.mpr ⟨hkeys, by simp [hc, retained_iff.mpr hret]⟩
      rw [publishGroup, if_neg hw, if_pos rfl] at hhead
      rcases publishWindow_done hgl hhead i hmem s hi hc with hcached | ⟨hkey, hd⟩
      · exact .inl (hrest.spec.cached s hcached).1
      · exact .inr ⟨hkey, by rw [hd]; rfl⟩
    · refine (ih g hg hw i s hi hc hret).imp_right fun ⟨hkey, hd⟩ => ?_
      exact ⟨hkey, by rw [hd, Bool.or_true]⟩

/-- The records that publishing single pages leaves alone. -/
def SameProgress (m m' : HybridKVBlockManager) : Prop :=
  m'.cachedProgress = m.cachedProgress ∧ m'.committed = m.committed

theorem SameProgress.trans {m₁ m₂ m₃ : HybridKVBlockManager} (h : SameProgress m₁ m₂)
    (h' : SameProgress m₂ m₃) : SameProgress m₁ m₃ :=
  ⟨h'.1.trans h.1, h'.2.trans h.2⟩

theorem publish_sameProgress {index slot : Nat} {known : Bool}
    (h : m.publish cfg r g index slot = .ok (m', known)) : SameProgress m m' := by
  obtain ⟨key, -, h⟩ := bind_eq_ok.mp h
  cases key with
  | none => cases h; exact ⟨rfl, rfl⟩
  | some key => cases h; exact ⟨rfl, rfl⟩

theorem publishFull_sameProgress : ∀ {indices : List Nat}
    {m m' : HybridKVBlockManager}, publishFull cfg r g table m indices = .ok m' →
    SameProgress m m'
  | [], m, m', h => by cases h; exact ⟨rfl, rfl⟩
  | i :: rest, m, m', h => by
    obtain ⟨slot, -, h⟩ := bind_eq_ok.mp h
    split at h
    · exact publishFull_sameProgress h
    · obtain ⟨⟨m₁, known⟩, hpub, h⟩ := bind_eq_ok.mp h
      exact (publish_sameProgress hpub).trans (publishFull_sameProgress h)

theorem publishWindow_sameProgress : ∀ {indices : List Nat}
    {m m' : HybridKVBlockManager} {deferred : Bool},
    publishWindow cfg r g table computed m indices = .ok (m', deferred) → SameProgress m m'
  | [], m, m', deferred, h => by cases h; exact ⟨rfl, rfl⟩
  | i :: rest, m, m', deferred, h => by
    rw [publishWindow] at h
    split at h
    · exact publishWindow_sameProgress h
    · split at h
      · exact publishWindow_sameProgress h
      · obtain ⟨⟨m₁, known⟩, hpub, h⟩ := bind_eq_ok.mp h
        obtain ⟨⟨m₂, d⟩, hrest, h⟩ := bind_eq_ok.mp h
        cases h
        exact (publish_sameProgress hpub).trans (publishWindow_sameProgress hrest)

/-- The end of the full pages that are complete and have a key. -/
def completePages (cfg : HybridConfig) (r : Request) (computed : Nat) : Nat :=
  min (computed / cfg.blockSize) (cfg.inputKeys r).length

theorem publishGroup_full (hg : g ∈ cfg.layout.groups) (hw : g.windowTokens = 0)
    {windows deferred : Bool}
    (h : publishGroup cfg r tables computed windows g m = .ok (m', deferred)) :
    ∃ start, m.cachedProgress.get? r.id = some start ∧
      m'.cachedProgress.get? r.id = some (completePages cfg r computed) ∧
      publishFull cfg r g (tableOf tables g) { m with
        cachedProgress := m.cachedProgress.set r.id (completePages cfg r computed) }
        (List.range' start (completePages cfg r computed - start)) = .ok m' := by
  rw [publishGroup, if_pos hw, HybridKVLayout.blockTokens_of_no_window hg hw] at h
  obtain ⟨start, hstart, h⟩ := bind_eq_ok.mp h
  obtain ⟨m₁, hfull, h⟩ := bind_eq_ok.mp h
  cases h
  refine ⟨start, Option.orRaise_eq_ok.mp hstart, ?_, hfull⟩
  rw [(publishFull_sameProgress hfull).1]
  exact get?_set_self

theorem publishGroup_window {O : CacheGroup → Nat → Nat → Prop} (hg : g ∈ cfg.layout.groups)
    (hw : g.windowTokens ≠ 0) (hown : ∀ i s, (tableOf tables g).get? i = some s → O g i s)
    {windows deferred : Bool}
    (h : publishGroup cfg r tables computed windows g m = .ok (m', deferred)) :
    m'.cachedProgress = m.cachedProgress ∧ Publishes cfg r O m m' := by
  rw [publishGroup, if_neg hw] at h
  split at h
  · exact ⟨(publishWindow_sameProgress h).1, publishWindow_spec hg hown h⟩
  · cases h
    exact ⟨rfl, .refl _ _⟩

variable {windows deferred : Bool} {groups : List CacheGroup}

/-- The progress of the full pages after a pass. -/
theorem PassedGroups.progress
    (h : PassedGroups cfg r tables computed windows groups m m' deferred) :
    (∃ g ∈ groups, g.windowTokens = 0) ∨
      m.cachedProgress.get? r.id = some (completePages cfg r computed) →
    m'.cachedProgress.get? r.id = some (completePages cfg r computed) := by
  induction h with
  | nil =>
    rintro (⟨g, hg, -⟩ | hprog)
    · exact absurd hg not_mem_nil
    · exact hprog
  | @cons g _ _ _ _ _ _ hg hhead hrest ih =>
    refine fun hprog => ih ?_
    by_cases hw : g.windowTokens = 0
    · obtain ⟨-, -, hprogress, -⟩ := publishGroup_full hg hw hhead
      exact .inr hprogress
    · obtain ⟨hsame, -⟩ := publishGroup_window (O := fun _ _ _ => True) hg hw
        (fun _ _ _ => trivial) hhead
      rw [hsame]
      refine hprog.imp_left fun ⟨g', hg', hw'⟩ => ?_
      rcases mem_cons.mp hg' with rfl | hg'
      · exact absurd hw' hw
      · exact ⟨g', hg', hw'⟩

theorem PassedGroups.committed
    (h : PassedGroups cfg r tables computed windows groups m m' deferred) :
    m'.committed = m.committed := by
  induction h with
  | nil => rfl
  | cons _ hhead _ ih =>
    refine ih.trans ?_
    unfold publishGroup at hhead
    split at hhead
    · obtain ⟨start, -, hhead⟩ := bind_eq_ok.mp hhead
      obtain ⟨m₃, hfull, hhead⟩ := bind_eq_ok.mp hhead
      cases hhead
      exact (publishFull_sameProgress hfull).2
    · split at hhead
      · exact (publishWindow_sameProgress hhead).2
      · cases hhead; rfl

/-! ## Commit records -/

/-- All pages that are complete and retained are published. -/
def AllPublished (cfg : HybridConfig) (r : Request) (tables : GroupTables) (computed : Nat)
    (pool : SlotPool SlotKey) : Prop :=
  ∀ g ∈ cfg.layout.groups, g.windowTokens ≠ 0 → ∀ i s, (tableOf tables g).get? i = some s →
    (i + 1) * g.blockTokens ≤ computed →
    RetainedBy cfg.layout g i computed (requestBoundaries cfg r) → (pool.blocks s).cached = true

/-- What a commit record of a request promises.  Up to the recorded state the
windows are settled, and a threshold was set at a position up to which every
retained page is published. -/
structure CommitOk (cfg : HybridConfig) (m : HybridKVBlockManager) (r : Request)
    (tables : GroupTables) (state : CommitState) (threshold : Threshold) : Prop where
  computed : state.computed ≤ r.numComputedTokens
  context : state.contextLen ≤ r.contextLen
  aligned : ∀ b ∈ state.shared, cfg.blockSize ∣ b
  progress : r.contextLen = state.contextLen → m.cachedProgress.get? r.id =
    some (min (state.computed / cfg.blockSize) (cfg.inputKeys r).length)
  settled : r.contextLen = state.contextLen →
    Settled cfg { r with sharedPrefixBoundaries := state.shared } tables state.computed m.pool
  memo : threshold ≠ .recheck → ∃ c₀, c₀ ≤ state.computed ∧
    threshold = windowThreshold cfg.layout c₀
      (requestBoundaries cfg { r with sharedPrefixBoundaries := state.shared }) ∧
    AllPublished cfg { r with sharedPrefixBoundaries := state.shared } tables c₀ m.pool

/-- A record stays valid while the request moves on, its complete pages stay in
place and published pages stay published. -/
theorem CommitOk.mono (h : CommitOk cfg m r tables state threshold) (hr : Progress r r')
    (hcomp : r.numComputedTokens ≤ r'.numComputedTokens)
    (hprog : m'.cachedProgress.get? r.id = m.cachedProgress.get? r.id)
    (htab : ∀ g ∈ cfg.layout.groups, g.windowTokens ≠ 0 → ∀ i s,
      (tableOf tables' g).get? i = some s → (i + 1) * g.blockTokens ≤ state.computed →
      (tableOf tables g).get? i = some s ∧
        ((m.pool.blocks s).cached = true → (m'.pool.blocks s).cached = true)) :
    CommitOk cfg m' r' tables' state threshold := by
  have hctx : r'.contextLen = state.contextLen →
      r.contextLen = state.contextLen ∧ r'.contextLen = r.contextLen := by
    intro he
    have h1 := h.context
    have h2 := hr.contextLen
    omega
  have hbounds : requestBoundaries cfg { r' with sharedPrefixBoundaries := state.shared } =
      requestBoundaries cfg { r with sharedPrefixBoundaries := state.shared } := by
    unfold requestBoundaries
    dsimp only
    rw [hr.prefillLen]
  refine ⟨le_trans h.computed hcomp, le_trans h.context hr.contextLen, h.aligned,
    fun he => ?_, fun he => ?_, fun hne => ?_⟩
  · obtain ⟨he, he'⟩ := hctx he
    rw [hr.id, hprog, inputKeys_congr hr.toExtends he']
    exact h.progress he
  · obtain ⟨he, he'⟩ := hctx he
    intro g hg hw i s hi hc hret
    obtain ⟨hi', hcached⟩ := htab g hg hw i s hi hc
    rw [hbounds] at hret
    refine (h.settled he g hg hw i s hi' hc hret).imp hcached fun hkey => ?_
    have hsame : cfg.slotKey r' g i = cfg.slotKey r g i := by
      rw [slotKey_congr hr.toExtends he']
    exact hsame.trans hkey
  · obtain ⟨c₀, hle, hthr, hall⟩ := h.memo hne
    refine ⟨c₀, hle, by rw [hbounds]; exact hthr, fun g hg hw i s hi hc hret => ?_⟩
    obtain ⟨hi', hcached⟩ := htab g hg hw i s hi (le_trans hc hle)
    rw [hbounds] at hret
    exact hcached (hall g hg hw i s hi' hc hret)

theorem dvd_of_mem_requestBoundaries (hg : g ∈ cfg.layout.groups)
    (hal : ∀ b ∈ r.sharedPrefixBoundaries, cfg.blockSize ∣ b) :
    ∀ b ∈ requestBoundaries cfg r, g.blockTokens ∣ b := by
  intro b hb
  have hbs : cfg.blockSize ∣ b := by
    rcases mem_append.mp (mem_of_mem_filter hb) with hb | hb
    · exact hal b hb
    · rw [mem_singleton.mp hb]
      exact Nat.dvd_mul_left ..
  exact Nat.dvd_trans (cfg.layout.tokens_dvd g hg) hbs

/-- When a pass finds the windows not due, they are settled. -/
theorem CommitOk.settled_of_not_due
    (h : CommitOk cfg m r tables state threshold) (hshared : state.shared = r.sharedPrefixBoundaries)
    (hdue : threshold.due r.numComputedTokens = false) :
    Settled cfg r tables r.numComputedTokens m.pool := by
  have hne : threshold ≠ .recheck := by
    rintro rfl
    cases hdue
  obtain ⟨c₀, hle, rfl, hall⟩ := h.memo hne
  have hal := h.aligned
  rw [hshared] at hal hdue hall
  intro g hg hw i s hi hc hret
  obtain ⟨hc₀, hret₀⟩ := retainedBy_of_not_due hg hw (dvd_of_mem_requestBoundaries hg hal) hdue hc hret
  exact .inl (hall g hg hw i s hi hc₀ hret₀)

/-! ## The pass is the slow rule -/

/-- A pass publishes what the slow rule publishes, given a valid record. -/
theorem publicationPass_eq (hasc : Ascending cfg tables)
    (hcommit : ∀ state threshold, m.committed.get? r.id = some (state, threshold) →
      CommitOk cfg m r tables state threshold) :
    (m.publicationPass cfg r tables).map (fun x => { x with committed := m.committed }) =
      slowGroups cfg r tables r.numComputedTokens cfg.layout.groups m := by
  have hsub : ∀ g ∈ cfg.layout.groups, g ∈ cfg.layout.groups := fun _ hg => hg
  -- a pass that runs, whatever it then records
  have hrun : ∀ {windows : Bool} (threshold : Threshold → Threshold),
      (publishGroups cfg r tables r.numComputedTokens windows cfg.layout.groups m).map Prod.fst =
        slowGroups cfg r tables r.numComputedTokens cfg.layout.groups m →
      ((do let x ← m.publishComputed cfg r tables r.numComputedTokens windows
           pure { x.1 with committed := x.1.committed.set r.id (commitState r, threshold x.2) } :
        Except Err HybridKVBlockManager).map fun x => { x with committed := m.committed }) =
      slowGroups cfg r tables r.numComputedTokens cfg.layout.groups m := by
    intro windows threshold heq
    rw [← heq, publishComputed]
    cases hx : publishGroups cfg r tables r.numComputedTokens windows cfg.layout.groups m with
    | error e => rfl
    | ok x =>
      have hc : x.1.committed = m.committed :=
        (passedGroups_of_subset (Subset.refl _) hx).committed
      dsimp only [bind, Except.bind, pure, Except.pure, Except.map]
      rw [← hc]
  unfold publicationPass
  dsimp only
  cases hentry : m.committed.get? r.id with
  | none =>
    rw [if_neg (by simp)]
    exact hrun (fun t => t) (publishGroups_eq hsub (.inl ⟨rfl, hasc⟩))
  | some entry =>
    obtain ⟨state, old⟩ := entry
    have hok := hcommit state old hentry
    split
    · -- nothing has changed since the last pass
      rename_i hsame
      have hstate : state = commitState r := by simpa using hsame
      have hset := hok.settled (by rw [hstate]; rfl)
      have hprog := hok.progress (by rw [hstate]; rfl)
      rw [hstate] at hset hprog
      exact (slowGroups_of_settled hset hprog hsub).symm
    · cases hdue : windowsDue (some (state, old)) r with
      | true => exact hrun (fun t => t) (publishGroups_eq hsub (.inl ⟨rfl, hasc⟩))
      | false =>
        simp only [windowsDue, Bool.or_eq_false_iff, decide_eq_false_iff_not, not_not] at hdue
        exact hrun (fun _ => old)
          (publishGroups_eq hsub (.inr ⟨rfl, hok.settled_of_not_due hdue.1 hdue.2⟩))

theorem exists_full (cfg : HybridConfig) : ∃ g ∈ cfg.layout.groups, g.windowTokens = 0 :=
  ⟨_, cfg.layout.fullGroup_mem, cfg.layout.fullGroup_windowTokens⟩

theorem commitOk_of_due (hasc : Ascending cfg tables)
    (hal : ∀ b ∈ r.sharedPrefixBoundaries, cfg.blockSize ∣ b)
    (h : PassedGroups cfg r tables r.numComputedTokens true cfg.layout.groups m m' deferred) :
    CommitOk cfg m' r tables (commitState r)
      (if !true || deferred || !cfg.layout.tailsFitSegments then .recheck
        else windowThreshold cfg.layout r.numComputedTokens (requestBoundaries cfg r)) := by
  have hpages := h.done hasc
  refine ⟨le_rfl, le_rfl, hal, fun _ => h.progress (.inl (exists_full cfg)),
    fun _ g hg hw i s hi hc hret => (hpages g hg hw i s hi hc hret).imp_right And.left,
    fun hne => ?_⟩
  cases deferred with
  | true => exact absurd rfl hne
  | false =>
    split at hne
    · exact absurd rfl hne
    · rename_i hfit
      refine ⟨r.numComputedTokens, le_rfl, if_neg hfit, fun g hg hw i s hi hc hret => ?_⟩
      exact (hpages g hg hw i s hi hc hret).resolve_right fun hkey => (nomatch hkey.2)

theorem CommitOk.skip {last : CommitState} {old : Threshold}
    (hok : CommitOk cfg m r tables last old) (hshared : last.shared = r.sharedPrefixBoundaries)
    (hdue : old.due r.numComputedTokens = false)
    (h : PassedGroups cfg r tables r.numComputedTokens false cfg.layout.groups m m' deferred) :
    CommitOk cfg m' r tables (commitState r) old := by
  have hal := hok.aligned
  rw [hshared] at hal
  refine ⟨le_rfl, le_rfl, hal, fun _ => h.progress (.inl (exists_full cfg)),
    fun _ => (hok.settled_of_not_due hshared hdue).publishes h.spec, fun hne => ?_⟩
  obtain ⟨c₀, hle, hthr, hall⟩ := hok.memo hne
  rw [hshared] at hthr hall
  refine ⟨c₀, le_trans hle hok.computed, hthr, fun g hg hw i s hi hc hret => ?_⟩
  exact (h.spec.cached s (hall g hg hw i s hi hc hret)).1

theorem CommitOk.recorded {entry : CommitState × Threshold}
    (hok : CommitOk cfg m r tables entry.1 entry.2)
    (h : (m.committed.set r.id entry).get? r.id = some (state, threshold)) :
    CommitOk cfg { m with committed := m.committed.set r.id entry } r tables state threshold := by
  rw [get?_set_self, Option.some.injEq] at h
  subst h
  exact { hok with }

theorem commitOk_of_publicationPass (hasc : Ascending cfg tables)
    (hal : ∀ b ∈ r.sharedPrefixBoundaries, cfg.blockSize ∣ b)
    (hcommit : ∀ state threshold, m.committed.get? r.id = some (state, threshold) →
      CommitOk cfg m r tables state threshold)
    (h : m.publicationPass cfg r tables = .ok m')
    (hentry' : m'.committed.get? r.id = some (state, threshold)) :
    CommitOk cfg m' r tables state threshold := by
  unfold publicationPass at h
  dsimp only at h
  cases hentry : m.committed.get? r.id with
  | none =>
    rw [hentry, if_neg (by simp)] at h
    obtain ⟨⟨m₁, t⟩, hpub, h⟩ := bind_eq_ok.mp h
    obtain ⟨⟨m₂, deferred⟩, hgroups, hpub⟩ := bind_eq_ok.mp hpub
    cases hpub
    cases h
    exact (commitOk_of_due hasc hal (passedGroups_of_subset (Subset.refl _) hgroups)).recorded
      hentry'
  | some entry =>
    obtain ⟨last, old⟩ := entry
    have hok := hcommit last old hentry
    rw [hentry] at h
    split at h
    · cases h
      rw [hentry, Option.some.injEq] at hentry'
      cases hentry'
      exact hok
    · obtain ⟨⟨m₁, t⟩, hpub, h⟩ := bind_eq_ok.mp h
      obtain ⟨⟨m₂, deferred⟩, hgroups, hpub⟩ := bind_eq_ok.mp hpub
      cases hpub
      cases h
      have hpassed := passedGroups_of_subset (Subset.refl _) hgroups
      cases hdue : windowsDue (some (last, old)) r with
      | true =>
        rw [hdue] at hpassed hentry'
        exact (commitOk_of_due hasc hal hpassed).recorded hentry'
      | false =>
        rw [hdue] at hpassed hentry'
        simp only [windowsDue, Bool.or_eq_false_iff, decide_eq_false_iff_not, not_not] at hdue
        exact (hok.skip hdue.1 hdue.2 hpassed).recorded hentry'

theorem publicationPass_record (h : m.publicationPass cfg r tables = .ok m') :
    ∃ threshold, m'.committed.get? r.id = some (commitState r, threshold) := by
  rcases publicationPass_cases h with ⟨rfl, hrecord⟩ | ⟨_, _, threshold, -, rfl⟩
  · exact hrecord
  · exact ⟨threshold, get?_set_self⟩

theorem publicationPass_of_cacheComputed (ht : m.tables.get? r.id = some tables)
    (h : m.cacheComputed cfg r = .ok (m', r')) : m.publicationPass cfg r tables = .ok m' := by
  unfold HybridKVBlockManager.cacheComputed at h
  rw [ht] at h
  obtain ⟨m₁, hm₁, h⟩ := bind_eq_ok.mp h
  cases h
  exact hm₁

/-! ## Every run keeps the records valid -/

/-- The commit record of a request, if there is one, is valid.  Only requests
that compute have one. -/
structure CommitAt (cfg : HybridConfig) (w : World) (rid : Nat) : Prop where
  active : ∀ entry, w.mgr.committed.get? rid = some entry →
    ∃ origin ensuredAt reach, w.phase rid = .active origin ensuredAt reach
  valid : ∀ tables state threshold, w.mgr.committed.get? rid = some (state, threshold) →
    w.mgr.tables.get? rid = some tables →
    CommitOk cfg w.mgr (w.reqs rid) tables state threshold

theorem Shaped.ascending {phase : Phase} (h : Shaped cfg r tables phase)
    (hp : phase ≠ .absent) : Ascending cfg tables := by
  intro g hg hw
  cases phase with
  | absent => exact absurd rfl hp
  | admitted hit => exact AdmittedShape.sorted h hg hw
  | loading targets boundary => exact h.sorted g hg hw
  | active origin ensuredAt reach => exact h.sorted g hg hw

theorem WellFormed.ascending (h : WellFormed cfg w)
    (ht : w.mgr.tables.get? rid = some tables) : Ascending cfg tables := by
  obtain ⟨leak, hok⟩ := h.ok
  refine (h.shapes rid tables ht).ascending fun hp => ?_
  rw [(hok.absent rid).mp hp] at ht
  cases ht

/-- The boundaries that plans note are multiples of the engine block. -/
theorem Steps.aligned {op : Op} (hs : Steps cfg leak w op w')
    (h : ∀ rid, ∀ b ∈ (w.reqs rid).sharedPrefixBoundaries, cfg.blockSize ∣ b) :
    ∀ rid, ∀ b ∈ (w'.reqs rid).sharedPrefixBoundaries, cfg.blockSize ∣ b := by
  -- only the request of the step changes, to the same boundaries or a new one
  have hput : ∀ {rid : Nat} {m' : HybridKVBlockManager} {r' : Request} {phase' : Phase},
      (r'.sharedPrefixBoundaries = (w.reqs rid).sharedPrefixBoundaries ∨
        ∃ blocks, r'.sharedPrefixBoundaries = [blocks * cfg.blockSize]) →
      ∀ i, ∀ b ∈ ((w.put m' rid r' phase').reqs i).sharedPrefixBoundaries, cfg.blockSize ∣ b := by
    intro rid m' r' phase' hr i b hb
    by_cases hi : i = rid
    · subst hi
      rw [put_reqs_self] at hb
      rcases hr with hr | ⟨blocks, hr⟩
      · rw [hr] at hb
        exact h i b hb
      · rw [hr, mem_singleton] at hb
        rw [hb]
        exact Nat.dvd_mul_left ..
    · rw [World.put_reqs_of_ne hi] at hb
      exact h i b hb
  cases hs with
  | plan request _ _ =>
    refine hput ?_
    rcases request with rfl | ⟨blocks, rfl⟩
    · exact .inl rfl
    · exact .inr ⟨blocks, rfl⟩
  | allocate _ admits => exact hput admits.shared
  | start => exact hput (.inl rfl)
  | beginImport => exact hput (.inl rfl)
  | finishImport => exact hput (.inl rfl)
  | ensureSlots => exact hput (.inl rfl)
  | advance => exact hput (.inl rfl)
  | generate => exact hput (.inl rfl)
  | cacheComputed => exact hput (.inl rfl)
  | release releases =>
    refine hput (.inl ?_)
    rcases releases.request with rfl | rfl <;> rfl
  | pin => exact h
  | unpin => exact h

/-- The pages of a window that are complete stay in place when slots are
ensured, and stay published. -/
theorem Ensures.complete_kept {stop : Nat} (h : Ensures cfg leak m r stop m' tables tables')
    (hfresh : ∀ g ∈ cfg.layout.groups, g.windowTokens ≠ 0 →
      ∀ i ∈ freshPages r.numComputedTokens stop g
        (keptPages r.numComputedTokens g (tableOf tables g).keys),
        r.numComputedTokens ≤ i * g.blockTokens) {c : Nat} (hc : c ≤ r.numComputedTokens) :
    ∀ g ∈ cfg.layout.groups, g.windowTokens ≠ 0 → ∀ i s,
      (tableOf tables' g).get? i = some s → (i + 1) * g.blockTokens ≤ c →
      (tableOf tables g).get? i = some s ∧
        ((m.pool.blocks s).cached = true → (m'.pool.blocks s).cached = true) := by
  intro g hg hw i s hi hcomplete
  have hpos := HybridKVLayout.blockTokens_pos hg
  have hens := h.table g hg fun h0 => absurd h0 hw
  have hmem : i ∈ (tableOf tables' g).keys := mem_keys_iff.mpr ⟨s, hi⟩
  rw [hens.keys, mem_append] at hmem
  rcases hmem with hkept | hnew
  · have hi' : (tableOf tables g).get? i = some s := (hens.get? i hkept).symm.trans hi
    refine ⟨hi', fun hcached => ?_⟩
    exact (h.carries.kept s (.inr ⟨g, hg, i, hkept, hi'⟩)).2.trans hcached
  · have := hfresh g hg hw i hnew
    rw [add_mul] at hcomplete
    omega

theorem CommitAt.of_none (h : w.mgr.committed.get? rid = none) :
    CommitAt cfg w rid where
  active entry he := by rw [h] at he; cases he
  valid tables state threshold he := by rw [h] at he; cases he

theorem CommitAt.none_of_phase {phase : Phase} (h : CommitAt cfg w rid) (hp : w.phase rid = phase)
    (hno : ∀ origin ensuredAt reach, phase ≠ .active origin ensuredAt reach) :
    w.mgr.committed.get? rid = none := by
  cases he : w.mgr.committed.get? rid with
  | none => rfl
  | some entry =>
    obtain ⟨origin, ensuredAt, reach, hact⟩ := h.active entry he
    exact absurd (hp.symm.trans hact) (hno origin ensuredAt reach)

theorem CommitAt.undisturbed {i : Nat} (h : CommitAt cfg w i) (hok : WorldOk cfg leak w)
    (hun : Undisturbed w w' i) : CommitAt cfg w' i where
  active entry he := by
    rw [hun.phase]
    exact h.active entry (hun.committed.symm.trans he)
  valid tables state threshold he ht := by
    rw [hun.committed] at he
    rw [hun.tables] at ht
    rw [hun.request]
    refine (h.valid tables state threshold he ht).mono (.refl _) le_rfl ?_
      fun g hg hw j s hj _ => ⟨hj, fun hcached => ?_⟩
    · rw [hok.ids]
      exact hun.cachedProgress
    · have hpos := hok.inv.tablesCount_pos ht hg hj
      exact (hun.cached tables ht s hpos hcached).1

theorem CommitAt.progress (h : CommitAt cfg w rid) (hr : Progress (w.reqs rid) r')
    (hcomp : (w.reqs rid).numComputedTokens ≤ r'.numComputedTokens)
    (hpool : m'.pool = w.mgr.pool) (ht : m'.tables = w.mgr.tables)
    (hc : m'.committed = w.mgr.committed) (hp : m'.cachedProgress = w.mgr.cachedProgress) :
    CommitAt cfg (w.put m' rid r' (w.phase rid)) rid where
  active entry he := by
    rw [put_phase_self]
    rw [put_mgr, hc] at he
    exact h.active entry he
  valid tables state threshold he htab := by
    rw [put_mgr, hc] at he
    rw [put_mgr, ht] at htab
    rw [put_mgr, put_reqs_self]
    refine (h.valid tables state threshold he htab).mono hr hcomp (by rw [hp])
      fun g hg hw j s hj _ => ⟨hj, fun hcached => ?_⟩
    rw [hpool]
    exact hcached

theorem Steps.commitAt {op : Op} (hwf : WellFormed cfg w) (hok : WorldOk cfg leak w)
    (hal : ∀ rid, ∀ b ∈ (w.reqs rid).sharedPrefixBoundaries, cfg.blockSize ∣ b)
    (hc : ∀ rid, CommitAt cfg w rid) (hs : Steps cfg leak w op w') (i : Nat) :
    CommitAt cfg w' i := by
  by_cases hi : op.subject ≠ some i
  · exact (hc i).undisturbed hok (hs.undisturbed hok hi)
  · rw [not_not] at hi
    cases hs with
    | plan request =>
      cases hi
      refine (hc i).progress (Progress.of_plan request) ?_ rfl rfl rfl rfl
      rcases request with rfl | ⟨blocks, rfl⟩ <;> exact le_rfl
    | allocate _ admits =>
      cases hi
      refine .of_none ?_
      rw [put_mgr, admits.committed, hok.ids, get?_erase_self]
    | start phase =>
      cases hi
      exact .of_none ((hc i).none_of_phase phase nofun)
    | beginImport _ _ _ _ _ imports =>
        cases hi
        refine .of_none ?_
        rw [put_mgr, imports.committed, hok.ids, get?_erase_self]
    | finishImport _ finishes =>
      cases hi
      refine .of_none ?_
      rw [put_mgr, finishes.committed, hok.ids, get?_erase_self]
    | @ensureSlots _ _ _ _ _ _ _ tables _ _ ensures =>
        cases hi
        rcases ensures.committed with he | ⟨he, hfresh⟩
        · refine .of_none ?_
          rw [put_mgr, he, hok.ids, get?_erase_self]
        · have hknown := ensures.known
          rw [hok.ids] at hknown
          refine ⟨fun entry _ => ⟨_, _, _, put_phase_self ..⟩,
            fun t state threshold hentry ht => ?_⟩
          rw [put_mgr, he] at hentry
          rw [put_mgr, ensures.tables_eq, hok.ids, get?_set_self, Option.some.injEq] at ht
          subst ht
          rw [put_mgr, put_reqs_self]
          have hvalid := (hc i).valid tables state threshold hentry hknown
          exact hvalid.mono (.refl _) le_rfl
            (by rw [ensures.records.cachedProgress])
            (ensures.complete_kept hfresh hvalid.computed)
    | advance _ le =>
      cases hi
      exact (hc i).progress { Progress.refl _ with } le
        rfl rfl rfl rfl
    | generate =>
      cases hi
      exact (hc i).progress (Progress.generate _ _) le_rfl rfl rfl rfl rfl
    | @cacheComputed _ _ _ _ _ tables phase _ known call publishes =>
      cases hi
      have hpass := publicationPass_of_cacheComputed (by rw [hok.ids]; exact known) call
      refine ⟨fun entry _ => ⟨_, _, _, (put_phase_self ..).trans phase⟩,
        fun t state threshold hentry ht => ?_⟩
      rw [put_mgr, publishes.tables, known, Option.some.injEq] at ht
      subst ht
      rw [put_mgr] at hentry
      rw [put_mgr, put_reqs_self]
      have hvalid := commitOk_of_publicationPass (hwf.ascending known) (hal i)
        (fun state threshold he => (hc i).valid tables state threshold
          (by rw [hok.ids] at he; exact he) known) hpass
        (by rw [hok.ids]; exact hentry)
      exact hvalid.mono { Progress.refl _ with }
        le_rfl rfl fun g hg hw j s hj _ => ⟨hj, id⟩
    | release releases =>
      cases hi
      refine .of_none ?_
      rw [put_mgr, releases.committed, hok.ids, get?_erase_self]
    | pin => cases hi
    | unpin => cases hi

theorem World.Reachable.commitAt (h : World.Reachable cfg w) :
    (∀ rid, ∀ b ∈ (w.reqs rid).sharedPrefixBoundaries, cfg.blockSize ∣ b) ∧
    ∀ rid, CommitAt cfg w rid := by
  obtain ⟨reqs, hreqs, hrun⟩ := h
  refine (hrun.invariant (P := fun w => WellFormed cfg w ∧
    (∀ rid, ∀ b ∈ (w.reqs rid).sharedPrefixBoundaries, cfg.blockSize ∣ b) ∧
    ∀ rid, CommitAt cfg w rid) ⟨wellFormed_init hreqs.id, fun rid b hb => ?_, fun rid =>
      .of_none rfl⟩ fun {t a u} ht _ hs => ?_).2
  · rw [show (World.init cfg reqs).reqs rid = reqs rid from rfl, hreqs.shared] at hb
    exact nomatch hb
  · obtain ⟨hwf, hal, hc⟩ := ht
    obtain ⟨leak, hok⟩ := hwf.ok
    have hstep := step_cases hok hs
    exact ⟨hwf.step hs, hstep.aligned hal, hstep.commitAt hwf hok hal hc⟩

/-- In every state of every run, `cacheComputed` of a request publishes exactly
the pages that the slow rule publishes, in the same order, and fails exactly
when the slow rule fails.  Apart from the commit record the manager is the
same afterwards. -/
theorem publication_eq_slowRule (cfg : HybridConfig) (w : World) (hw : World.Reachable cfg w)
    (rid : Nat) (tables : GroupTables) (ht : w.mgr.tables.get? rid = some tables) :
    (w.mgr.cacheComputed cfg (w.reqs rid)).map
        (fun x => { x.1 with committed := w.mgr.committed }) =
      slowGroups cfg (w.reqs rid) tables (w.reqs rid).numComputedTokens cfg.layout.groups
        w.mgr := by
  have hwf := hw.wellFormed
  obtain ⟨leak, hok⟩ := hwf.ok
  have hid := hok.ids rid
  rw [← publicationPass_eq (hwf.ascending ht) fun state threshold he =>
    (hw.commitAt.2 rid).valid tables state threshold (by rw [hid] at he; exact he) ht]
  have ht' : w.mgr.tables.get? (w.reqs rid).id = some tables := by rw [hid]; exact ht
  unfold HybridKVBlockManager.cacheComputed
  rw [ht']
  dsimp only
  cases w.mgr.publicationPass cfg (w.reqs rid) tables with
  | error e => rfl
  | ok m' => rfl

/-- A request with a commit record reaches the end of a retention segment. -/
theorem publication_eq_slowRule_sample : ∃ w tables,
    World.Reachable (sampleConfig windowLayout) w ∧ w.mgr.tables.get? 0 = some tables ∧
    (w.mgr.committed.get? 0).isSome ∧ (w.reqs 0).numComputedTokens = 4 ∧
    (w.mgr.cacheComputed (sampleConfig windowLayout) (w.reqs 0)).map
        (fun x => { x.1 with committed := w.mgr.committed }) =
      slowGroups (sampleConfig windowLayout) (w.reqs 0) tables (w.reqs 0).numComputedTokens
        windowLayout.groups w.mgr := by
  obtain ⟨w, hreach, hsome, hentry, hcomp⟩ := World.exists_reachable windowLayout
    [.allocate 0, .start 0 0, .ensureSlots 0 4 0, .advance 0 3, .cacheComputed 0, .advance 0 4]
    (fun w => (w.mgr.tables.get? 0).isSome ∧ (w.mgr.committed.get? 0).isSome ∧
      (w.reqs 0).numComputedTokens = 4)
    (by decide +kernel)
  obtain ⟨tables, ht⟩ := Option.isSome_iff_exists.mp hsome
  exact ⟨w, tables, hreach, ht, hentry, hcomp, publication_eq_slowRule _ w hreach 0 tables ht⟩

end TokenSim
