import TokenSim.Hybrid.Identity
import TokenSim.Hybrid.Publication

/-!
# Retention is sufficient for recovery

A request computes its context in chunks: slots are ensured before a chunk and
the computed pages are committed after it.  Every retention boundary that the
computation passes can then be recovered: the pages that a reuse plan demands
there were published before the window left them behind, and a later request
with the same keys reuses at least the prefix up to the boundary, as long as the
pages are still in the prefix map.

Three rules have to fit: `ensureSlots` drops a page only when its tail run has
been computed (`Demanded.windowStart_le`), a demanded page lies in the tail run of its
own retention segment (`retainedBy_of_demanded`), and a pass publishes every
complete retained page that is held.  The EAGLE page past a boundary is
demanded too; it can only be published once its key is known.
-/

namespace TokenSim

open List OrderedDict Option
open World (put_mgr put_phase_self put_reqs_self)
open HybridKVLayout (blockTokens_of_no_window blockTokens_pos)

open HybridKVBlockManager
open Except

variable {cfg : HybridConfig} {leak : Nat → Nat} {w w' : World} {m m' : HybridKVBlockManager}
  {r r' : Request} {tables : GroupTables} {g : CacheGroup} {rid index k : Nat}

/-! ## Demanded pages are retained -/

variable {boundary computed : Nat} {windows deferred : Bool} {groups : List CacheGroup}
  {done : Prop} {states : List World}

theorem mem_tailPages : index ∈ tailPages g boundary ↔ inTail g index boundary := by
  unfold tailPages inTail
  dsimp only
  rw [mem_range'_1]
  omega

/-- A page that is demanded at the end of a segment lies in the tail run of its
own segment, however long tail runs are.  The first page of a draft group
belongs to no segment. -/
theorem retainedBy_of_demanded {L : HybridKVLayout} (hg : g ∈ L.groups)
    (hI : 0 < L.retentionInterval) (hshift : g.eagle.toNat ≤ index)
    {boundaries : List Nat} (hle : k * L.retentionInterval ≤ computed)
    (h : inTail g index (k * L.retentionInterval)) :
    RetainedBy L g index computed boundaries := by
  have hpos := blockTokens_pos hg
  obtain ⟨q, hq⟩ := Nat.dvd_trans (L.tokens_dvd g hg) L.retention_dvd
  have hqpos : 0 < q := Nat.pos_of_ne_zero fun h0 => by rw [h0, mul_zero] at hq; omega
  have hstop : ∀ j, j * L.retentionInterval / g.blockTokens = j * q := by
    intro j
    rw [hq, show j * (g.blockTokens * q) = g.blockTokens * (j * q) by ring]
    exact Nat.mul_div_cancel_left _ hpos
  -- the segment of the page
  have hj : index - g.eagle.toNat < ((index - g.eagle.toNat) / q + 1) * q :=
    (Nat.div_lt_iff_lt_mul hqpos).mp (Nat.lt_succ_self _)
  obtain ⟨hlow, hhigh⟩ := h
  rw [hstop] at hlow hhigh
  have hjk : (index - g.eagle.toNat) / q + 1 ≤ k :=
    Nat.div_lt_of_lt_mul (by rw [mul_comm]; omega)
  have hmul := Nat.mul_le_mul_right q hjk
  refine ⟨((index - g.eagle.toNat) / q + 1) * L.retentionInterval,
    le_trans (Nat.mul_le_mul_right _ hjk) hle, ⟨?_, ?_⟩, .inr ⟨by omega, ?_, ?_⟩⟩
  · rw [hstop]
    omega
  · rw [hstop]
    omega
  · exact Nat.mul_pos (Nat.succ_pos _) hI
  · have hdiv : ((index : Int) - g.eagle.toNat) * g.blockTokens / (L.retentionInterval : Int) =
        ((index - g.eagle.toNat) / q : Nat) := by
      rw [hq]
      push_cast
      rw [mul_comm, Int.mul_ediv_mul_of_pos _ _ (by exact_mod_cast hpos)]
      rw [show (index : Int) - g.eagle.toNat = ((index - g.eagle.toNat : Nat) : Int) by omega]
    unfold segmentEnd
    rw [hdiv]
    push_cast
    ring

/-- The key of a page before a block boundary of the context is not missing. -/
theorem slotKey_ne_none {digest : List Int → String} (hg : g ∈ cfg.layout.groups)
    (haccept : cfg.TraceAccepted digest r) (hdvd : cfg.blockSize ∣ boundary)
    (hctx : boundary ≤ r.contextLen) (hbefore : (index + 1) * g.blockTokens ≤ boundary) :
    cfg.slotKey r g index ≠ .ok none := by
  have hpos := blockTokens_pos hg
  have hsize := HybridConfig.naming_pos haccept g
  have hsizeDvd := Nat.dvd_trans (HybridConfig.naming_dvd haccept g) hdvd
  have hblock : ((index + 1) * g.blockTokens - 1) / (cfg.naming r g).2 <
      boundary / (cfg.naming r g).2 := by
    rw [Nat.div_lt_iff_lt_mul hsize, Nat.div_mul_cancel hsizeDvd]
    have := Nat.mul_pos (Nat.succ_pos index) hpos
    rw [Nat.succ_eq_add_one] at this
    omega
  have hlt : ((index + 1) * g.blockTokens - 1) / (cfg.naming r g).2 <
      (cfg.blockKeys r g).length := by
    unfold HybridConfig.blockKeys
    rw [HybridConfig.length_extendContextKeys]
    exact lt_of_lt_of_le hblock
      (le_trans (Nat.div_le_div_right hctx) (le_max_right ..))
  rw [HybridConfig.slotKey_eq hg, if_neg (by omega)]
  unfold HybridConfig.fineSlotKey
  dsimp only
  rw [getElem?_eq_getElem hlt]
  dsimp only
  split <;> intro h <;> cases h

/-! ## Full pages are published in order -/

theorem publishFull_done (hg : g ∈ cfg.layout.groups) {table : GroupTable} :
    ∀ {indices : List Nat} {m m' : HybridKVBlockManager},
    publishFull cfg r g table m indices = .ok m' → ∀ i ∈ indices, ∃ s, table.get? i = some s ∧
      ((m'.pool.blocks s).cached = true ∨ cfg.slotKey r g i = .ok none)
  | [], m, m', h, i, hi => nomatch hi
  | j :: rest, m, m', h, i, hi => by
    have hspec : ∀ {m₁ m₂ : HybridKVBlockManager}, publishFull cfg r g table m₁ rest = .ok m₂ →
        Publishes cfg r (fun _ _ _ => True) m₁ m₂ := fun hrest =>
      publishFull_spec hg (fun _ _ _ _ => trivial) hrest
    obtain ⟨slot, hslot, hrest⟩ := bind_eq_ok.mp h
    have hget := orRaise_eq_ok.mp hslot
    split at hrest
    · rename_i hcached
      rcases mem_cons.mp hi with rfl | hi
      · exact ⟨slot, hget, .inl ((hspec hrest).cached slot hcached).1⟩
      · exact publishFull_done hg hrest i hi
    · obtain ⟨⟨m₁, known⟩, hpub, htail⟩ := bind_eq_ok.mp hrest
      rcases mem_cons.mp hi with rfl | hi
      · refine ⟨slot, hget, ?_⟩
        rcases publish_done hpub with hcached | ⟨hkey, -⟩
        · exact .inl ((hspec htail).cached slot hcached).1
        · exact .inr hkey
      · exact publishFull_done hg htail i hi

/-! ## One pass -/

theorem Publishes.mono {own own' : CacheGroup → Nat → Nat → Prop} (h : Publishes cfg r own m m')
    (hsub : ∀ g i s, own g i s → own' g i s) : Publishes cfg r own' m m' := by
  obtain ⟨log, hlog, hall, hnamed⟩ := h.published
  refine ⟨h.tables, h.spans, h.plans, h.committed, h.cachedProgress, h.transferReferences,
    fun n refs hok hown => h.ok n refs hok fun g i s hs => hown g i s (hsub g i s hs), h.versioned,
    h.cached, fun s hs => h.other s fun g i hown => hs g i (hsub g i s hown), log, hlog,
    fun e he => ?_, hnamed⟩
  obtain ⟨hid, hname, hcached, g, hg, hgid, hown, hkey⟩ := hall e he
  exact ⟨hid, hname, hcached, g, hg, hgid, hsub _ _ _ hown, hkey⟩

/-- The pages that a pass may publish: window pages, and those of the first full
group from the recorded progress on. -/
def Visited (cfg : HybridConfig) (tables : GroupTables) (first : Option CacheGroup)
    (progress : Nat) (g : CacheGroup) (i s : Nat) : Prop :=
  InTables cfg tables g i s ∧ (g.windowTokens = 0 → first = some g ∧ progress ≤ i)

section

variable (h : PassedGroups cfg r tables computed windows groups m m' deferred)
include h

/-- Once the record stands at the end, full groups publish nothing. -/
theorem PassedGroups.ended :
    m.cachedProgress.get? r.id = some (completePages cfg r computed) →
    Publishes cfg r (fun g i s => InTables cfg tables g i s ∧ g.windowTokens ≠ 0) m m' := by
  induction h with
  | nil => exact fun _ => .refl _ _
  | @cons a _ m _ _ _ _ ha hhead hrest ih =>
    intro hp
    by_cases hw : a.windowTokens = 0
    · obtain ⟨start, hstart, hp₁, hfull⟩ := publishGroup_full ha hw hhead
      rw [hp, some.injEq] at hstart
      subst hstart
      rw [Nat.sub_self] at hfull
      exact (Publishes.noteProgress _ m _).trans ((publishFull_spec ha
        nofun hfull).trans (ih hp₁))
    · have hown : ∀ i s, (tableOf tables a).get? i = some s →
          InTables cfg tables a i s ∧ a.windowTokens ≠ 0 := fun i s hs => ⟨⟨ha, hs⟩, hw⟩
      have hhead := publishGroup_window (O := fun g i s => InTables cfg tables g i s ∧
        g.windowTokens ≠ 0) ha hw hown hhead
      exact hhead.2.trans (ih (hhead.1 ▸ hp))

/-- Of the full groups only the first one publishes, from the recorded progress
up to the end. -/
theorem PassedGroups.first {p : Nat} :
    m.cachedProgress.get? r.id = some p →
    Publishes cfg r (Visited cfg tables (groups.find? (·.windowTokens = 0)) p) m m' ∧
    ∀ g, groups.find? (·.windowTokens = 0) = some g → ∀ i, p ≤ i →
      i < completePages cfg r computed → ∃ s, (tableOf tables g).get? i = some s ∧
        ((m'.pool.blocks s).cached = true ∨ cfg.slotKey r g i = .ok none) := by
  induction h with
  | nil => exact fun _ => ⟨.refl _ _, nofun⟩
  | @cons a groups m _ _ _ _ ha hhead hrest ih =>
    intro hp
    by_cases hw : a.windowTokens = 0
    · rw [find?_cons_of_pos (by simpa using hw)]
      obtain ⟨start, hstart, hp₁, hfull⟩ := publishGroup_full ha hw hhead
      rw [hp, some.injEq] at hstart
      subst hstart
      have hended := hrest.ended hp₁
      refine ⟨?_, fun g hg i hlow hi => ?_⟩
      · refine (Publishes.noteProgress _ m _).trans ((publishFull_spec ha (fun i hi s hs => ?_)
          hfull).trans (hended.mono fun g i s hs => ⟨hs.1, fun h0 => absurd h0 hs.2⟩))
        exact ⟨⟨ha, hs⟩, fun _ => ⟨rfl, (mem_range'_1.mp hi).1⟩⟩
      · cases hg
        obtain ⟨s, hs, hdone⟩ := publishFull_done ha hfull i
          (mem_range'_1.mpr ⟨hlow, by omega⟩)
        exact ⟨s, hs, hdone.imp_left fun hcached => (hended.cached s hcached).1⟩
    · rw [find?_cons_of_neg (by simpa using hw)]
      obtain ⟨hsame, hpub⟩ := publishGroup_window
        (O := Visited cfg tables (groups.find? (·.windowTokens = 0)) p) ha hw
        (fun i s hs => ⟨⟨ha, hs⟩, fun h0 => absurd h0 hw⟩) hhead
      obtain ⟨hpub', hdone⟩ := ih (hsame ▸ hp)
      exact ⟨hpub.trans hpub', hdone⟩

/-- A pass over a full group needs a record of progress. -/
theorem PassedGroups.exists_progress :
    (∃ g ∈ groups, g.windowTokens = 0) → ∃ p, m.cachedProgress.get? r.id = some p := by
  induction h with
  | nil => exact fun ⟨g, hg, _⟩ => absurd hg not_mem_nil
  | @cons a groups _ _ _ _ _ ha hhead hrest ih =>
    rintro ⟨g, hg, hw⟩
    by_cases hwa : a.windowTokens = 0
    · obtain ⟨start, hstart, -⟩ := publishGroup_full ha hwa hhead
      exact ⟨start, hstart⟩
    · have hg' : g ∈ groups := (mem_cons.mp hg).resolve_left fun he => hwa (he ▸ hw)
      obtain ⟨hsame, -⟩ := publishGroup_window (O := fun _ _ _ => True) ha hwa
        (fun _ _ _ => trivial) hhead
      rw [← hsame]
      exact ih ⟨g, hg', hw⟩

end

theorem find?_windowTokens (L : HybridKVLayout) :
    L.groups.find? (·.windowTokens = 0) = some L.fullGroup := by
  rw [← L.fullGroup_find, ← head?_filter, ← head?_filter]
  congr 1
  exact filter_congr fun g hg => (decide_eq_decide.mpr (L.full_iff g hg)).symm

/-- With one full group, every page that the recorded progress moves past is
held, and published unless it has no key. -/
theorem publicationPass_full_done (hone : ∀ g' ∈ cfg.layout.groups, g'.windowTokens = 0 → g' = g)
    (h : m.publicationPass cfg r tables = .ok m') {i p' : Nat}
    (hp : ∀ p, m.cachedProgress.get? r.id = some p → p ≤ i)
    (hp' : m'.cachedProgress.get? r.id = some p') (hlt : i < p') :
    ∃ s, (tableOf tables g).get? i = some s ∧
      ((m'.pool.blocks s).cached = true ∨ cfg.slotKey r g i = .ok none) := by
  have hfirst : cfg.layout.groups.find? (·.windowTokens = 0) = some g := by
    rw [find?_windowTokens, hone _ cfg.layout.fullGroup_mem cfg.layout.fullGroup_windowTokens]
  rcases publicationPass_cases h with ⟨rfl, -⟩ | ⟨m₁, deferred, threshold, hpassed, rfl⟩
  · have := hp p' hp'
    omega
  · obtain ⟨p, hprogress⟩ := hpassed.exists_progress (exists_full cfg)
    have hafter := hpassed.progress (.inl (exists_full cfg))
    have hstop : p' = completePages cfg r r.numComputedTokens :=
      some.inj (hp'.symm.trans hafter)
    exact (hpassed.first hprogress).2 g hfirst i (hp p hprogress) (hstop ▸ hlt)

/-! ## Chunked runs -/

/-- What is computed of a request has been committed. -/
def World.Committed (w : World) (rid : Nat) : Prop :=
  match w.mgr.committed.get? rid with
  | some (state, _) => state.computed = (w.reqs rid).numComputedTokens
  | none => False

/-- Nothing was computed since slots were last ensured. -/
def World.Ensured (w : World) (rid : Nat) : Prop :=
  match w.phase rid with
  | .active _ ensuredAt _ => ensuredAt = (w.reqs rid).numComputedTokens
  | _ => False

/-- The callers compute the context of `rid` in chunks: slots are ensured for a
chunk, its tokens are computed, and they are committed before slots for the next
chunk are ensured. -/
def Chunked (rid : Nat) (w : World) : Op → Prop
  | .ensureSlots i _ _ => i = rid → w.Committed rid ∨ w.Ensured rid
  | .advance i position => i = rid → position ≤ (w.reqs rid).contextLen
  | .release i => i ≠ rid
  | _ => True

instance (w : World) (rid : Nat) : Decidable (w.Committed rid) :=
  match h : w.mgr.committed.get? rid with
  | some (state, _) => decidable_of_iff (state.computed = (w.reqs rid).numComputedTokens)
      (by rw [World.Committed, h])
  | none => .isFalse (by rw [World.Committed, h]; exact id)

instance (w : World) (rid : Nat) : Decidable (w.Ensured rid) :=
  match h : w.phase rid with
  | .active _ ensuredAt _ => decidable_of_iff (ensuredAt = (w.reqs rid).numComputedTokens)
      (by rw [World.Ensured, h])
  | .absent => .isFalse (by rw [World.Ensured, h]; exact id)
  | .admitted _ => .isFalse (by rw [World.Ensured, h]; exact id)
  | .loading _ _ => .isFalse (by rw [World.Ensured, h]; exact id)

instance (rid : Nat) (w : World) : ∀ op, Decidable (Chunked rid w op)
  | .ensureSlots i _ _ => inferInstanceAs (Decidable (i = rid → w.Committed rid ∨ w.Ensured rid))
  | .advance i position =>
    inferInstanceAs (Decidable (i = rid → position ≤ (w.reqs rid).contextLen))
  | .release i => inferInstanceAs (Decidable (i ≠ rid))
  | .plan _ | .allocate _ | .start _ _ | .beginImport _ _ | .finishImport _ | .generate _ _
  | .cacheComputed _ | .pin _ | .unpin _ => inferInstanceAs (Decidable True)

/-- The computation of a request takes up, with a local or an imported prefix. -/
def TakesUp (cfg : HybridConfig) (rid : Nat) (w w' : World) : Prop :=
  (∃ position, World.step cfg w (.start rid position) = some w') ∨
    World.step cfg w (.finishImport rid) = some w'

/-- Page `index` of a request is held and published under its key. -/
def PublishedPage (cfg : HybridConfig) (w : World) (rid : Nat) (g : CacheGroup) (index : Nat)
    (key : SlotKey) : Prop :=
  cfg.slotKey (w.reqs rid) g index = .ok (some key) ∧
    ∃ tables s, w.mgr.tables.get? rid = some tables ∧ (tableOf tables g).get? index = some s ∧
      (w.mgr.pool.blocks s).cached = true ∧ (w.mgr.pool.blocks s).blockHash = some key

theorem World.Reachable.publishedPage (h : World.Reachable cfg w) (hg : g ∈ cfg.layout.groups)
    {s : Nat} (ht : w.mgr.tables.get? rid = some tables)
    (hs : (tableOf tables g).get? index = some s) (hname : (w.mgr.pool.blocks s).blockHash ≠ none) :
    ∃ key, PublishedPage cfg w rid g index key := by
  obtain ⟨leak, hok⟩ := h.wellFormed.ok
  obtain ⟨key, hkey⟩ := ne_none_iff_exists'.mp hname
  exact ⟨key, h.named.keys rid tables ht g hg index s key hs hkey, tables, s, ht, hs,
    (hok.inv.pool.map.cached_iff s).mpr hname, hkey⟩

/-- What is known when the computation of a request takes up. -/
theorem TakesUp.spec (h : TakesUp cfg rid w w') (hw : World.Reachable cfg w) :
    (w'.reqs rid).numComputedTokens ≤ (w'.reqs rid).contextLen ∧
    w'.mgr.committed.get? rid = none ∧
    ∃ origin reach tables,
      w'.phase rid = .active origin (w'.reqs rid).numComputedTokens reach ∧
      w'.mgr.tables.get? rid = some tables ∧
      w'.mgr.cachedProgress.get? rid = some (reach / cfg.blockSize) ∧
      ∀ g ∈ cfg.layout.groups, ∀ i s, (tableOf tables g).get? i = some s →
        (w'.mgr.pool.blocks s).blockHash ≠ none := by
  obtain ⟨leak, hok⟩ := hw.wellFormed.ok
  have hcontext : ∀ position, ((w.reqs rid).startContextBuild position).numComputedTokens ≤
      ((w.reqs rid).startContextBuild position).contextLen := fun position =>
    le_trans (min_le_right ..) (Nat.sub_le ..)
  rcases h with ⟨position, hs⟩ | hs
  · cases step_cases hok hs with
    | @start _ _ hit phase =>
      obtain ⟨tables, ht⟩ := hok.tables_of_phase (by rw [phase]; intro h; cases h)
      have htaken := hw.named.taken rid tables ht
      rw [phase] at htaken
      simp only [put_mgr, put_reqs_self, put_phase_self]
      exact ⟨hcontext position, (hw.commitAt.2 rid).none_of_phase phase
        (by rintro _ _ _ ⟨⟩), _, hit, tables, rfl, ht, htaken.1, htaken.2⟩
  · cases step_cases hok hs with
    | @finishImport _ boundary targets _ phase finishes =>
      obtain ⟨tables, ht⟩ := hok.tables_of_phase (by rw [phase]; intro h; cases h)
      have htaken := hw.named.taken rid tables ht
      rw [phase] at htaken
      simp only [put_mgr, put_reqs_self, put_phase_self]
      refine ⟨hcontext boundary, ?_, _, boundary, tables, rfl, ?_, ?_, fun g hg i s hi => ?_⟩
      · rw [finishes.committed, hok.ids, get?_erase_self]
      · rw [finishes.tables]
        exact ht
      · rw [finishes.cachedProgress, hok.ids, get?_set_self]
      · by_cases htarget : s ∈ targets.map Destination.slot
        · obtain ⟨t, ht, rfl⟩ := List.mem_map.mp htarget
          rw [(finishes.entered t ht).1]
          exact some_ne_none _
        · rw [finishes.other s htarget]
          exact (htaken g hg i s hi).resolve_right htarget

/-! ## Every chunk keeps what is recoverable -/

/-- A page of a group that the boundary after `k` segments demands. -/
structure Demanded (cfg : HybridConfig) (g : CacheGroup) (index k : Nat) : Prop where
  mem : g ∈ cfg.layout.groups
  interval : 0 < cfg.layout.retentionInterval
  window : g.windowTokens ≠ 0 →
    inTail g index (k * cfg.layout.retentionInterval) ∧ g.eagle.toNat ≤ index
  full : g.windowTokens = 0 →
    g.eagle = false ∧ ∀ g' ∈ cfg.layout.groups, g'.windowTokens = 0 → g' = g

/-- The computed position at which a demanded page is due. -/
def duePosition (cfg : HybridConfig) (g : CacheGroup) (index k : Nat) : Nat :=
  max (k * cfg.layout.retentionInterval) ((index + 1) * g.blockTokens)

/-- The window has not left a page behind at the boundary, nor before the page
is due. -/
theorem Demanded.windowStart_le (h : Demanded cfg g index k) (hw : g.windowTokens ≠ 0)
    (hlt : computed ≤ k * cfg.layout.retentionInterval ∨
      computed < duePosition cfg g index k) : g.windowStart computed ≤ index := by
  have hpos := blockTokens_pos h.mem
  have hdvd : g.blockTokens ∣ k * cfg.layout.retentionInterval :=
    Nat.dvd_mul_left_of_dvd
      (Nat.dvd_trans (cfg.layout.tokens_dvd g h.mem) cfg.layout.retention_dvd) k
  rcases Nat.lt_or_ge (k * cfg.layout.retentionInterval) computed with hpast | hle
  · have hlast : computed < (index + 1) * g.blockTokens := by
      unfold duePosition at hlt
      omega
    exact le_trans (g.windowStart_le computed)
      (Nat.le_of_lt_succ ((Nat.div_lt_iff_lt_mul hpos).mpr hlast))
  · refine le_trans (g.windowStart_mono hle) ?_
    obtain ⟨hlow, -⟩ := (h.window hw).1
    rw [CacheGroup.windowStart_eq, sub_div_of_dvd hpos hdvd]
    unfold CacheGroup.hitTailSlots at hlow
    rw [if_neg hw] at hlow
    omega

/-- The state of a page that has to be published: it is published (`done`), or
it is still ahead of everything that was dropped or committed. -/
structure Ahead (cfg : HybridConfig) (g : CacheGroup) (index k rid : Nat) (done : Prop)
    (w : World) : Prop where
  active : ∃ origin ensuredAt reach, w.phase rid = .active origin ensuredAt reach ∧
    (g.windowTokens ≠ 0 → g.windowStart ensuredAt ≤ index ∨ done)
  context : (w.reqs rid).numComputedTokens ≤ (w.reqs rid).contextLen
  recorded : ∀ state threshold, w.mgr.committed.get? rid = some (state, threshold) →
    duePosition cfg g index k ≤ state.computed → done
  progress : g.windowTokens = 0 → ∀ p, w.mgr.cachedProgress.get? rid = some p → index < p → done

theorem Ahead.mono {done' : Prop} (h : Ahead cfg g index k rid done w) (hd : done → done') :
    Ahead cfg g index k rid done' w := by
  obtain ⟨origin, ensuredAt, reach, hphase, hwin⟩ := h.active
  exact ⟨⟨origin, ensuredAt, reach, hphase, fun hw => (hwin hw).imp_right hd⟩, h.context,
    fun state threshold he hdue => hd (h.recorded state threshold he hdue),
    fun hw p hp hlt => hd (h.progress hw p hp hlt)⟩

theorem Ahead.congr (h : Ahead cfg g index k rid done w) (hphase : w'.phase rid = w.phase rid)
    (hctx : (w'.reqs rid).numComputedTokens ≤ (w'.reqs rid).contextLen)
    (hc : w'.mgr.committed.get? rid = w.mgr.committed.get? rid)
    (hp : w'.mgr.cachedProgress.get? rid = w.mgr.cachedProgress.get? rid) :
    Ahead cfg g index k rid done w' := by
  obtain ⟨active, -, recorded, progress⟩ := h
  exact ⟨by rw [hphase]; exact active, hctx, by rw [hc]; exact recorded, by rw [hp]; exact progress⟩

theorem Ahead.done_of_committed (h : Ahead cfg g index k rid done w) (hcommitted : w.Committed rid)
    (hdue : duePosition cfg g index k ≤ (w.reqs rid).numComputedTokens) : done := by
  unfold World.Committed at hcommitted
  cases he : w.mgr.committed.get? rid with
  | none =>
    rw [he] at hcommitted
    exact hcommitted.elim
  | some entry =>
    rw [he] at hcommitted
    exact h.recorded entry.1 entry.2 he (by rw [hcommitted]; exact hdue)

/-- By the time a page is due, it has its key. -/
def KeyInTime (cfg : HybridConfig) (g : CacheGroup) (index k : Nat) (r : Request) : Prop :=
  r.numComputedTokens ≤ r.contextLen → duePosition cfg g index k ≤ r.numComputedTokens →
    cfg.slotKey r g index ≠ .ok none

/-- A page that is due and not behind the window is held. -/
theorem ActiveShape.exists_page {origin : Origin} {ensuredAt reach : Nat}
    (h : ActiveShape cfg r origin ensuredAt reach tables) (hg : g ∈ cfg.layout.groups)
    (hw : g.windowTokens ≠ 0) (hlow : g.windowStart ensuredAt ≤ index)
    (hreach : (index + 1) * g.blockTokens ≤ reach) :
    ∃ s, (tableOf tables g).get? index = some s := by
  have hpos := blockTokens_pos hg
  have hlt : index + 1 ≤ cdiv reach g.blockTokens :=
    Nat.le_of_mul_le_mul_right (le_trans hreach (le_cdiv_mul hpos reach)) hpos
  have hmem : index ∈ g.windowRange ensuredAt reach := by
    unfold CacheGroup.windowRange
    rw [mem_range'_1]
    omega
  rw [← h.window g hg hw] at hmem
  exact mem_keys_iff.mp (mem_filter.mp hmem).1

/-- What a commit did: a publication pass over the tables of the request. -/
theorem WorldOk.commits (hok : WorldOk cfg leak w)
    (hs : World.step cfg w (.cacheComputed rid) = some w') :
    ∃ origin ensuredAt reach tables, w.phase rid = .active origin ensuredAt reach ∧
      w'.phase rid = w.phase rid ∧ (w.reqs rid).numComputedTokens ≤ reach ∧
      w.mgr.tables.get? rid = some tables ∧ w'.mgr.tables.get? rid = some tables ∧
      w.mgr.publicationPass cfg (w.reqs rid) tables = .ok w'.mgr ∧
      w'.reqs rid = { w.reqs rid with inputCacheCommitted := !(w.reqs rid).isPrefill } := by
  cases step_cases hok hs with
  | @cacheComputed _ ensuredAt reach origin _ tables phase covered known call publishes =>
    refine ⟨origin, ensuredAt, reach, tables, phase, put_phase_self .., covered, known, ?_,
      publicationPass_of_cacheComputed (by rw [hok.ids]; exact known) call,
      put_reqs_self ..⟩
    rw [put_mgr, publishes.tables]
    exact known

section

variable (h : Ahead cfg g index k rid done w) (hd : Demanded cfg g index k)
include h hd

/-- A commit publishes the page if it is due. -/
theorem Ahead.commit (hw : World.Reachable cfg w) (hw' : World.Reachable cfg w')
    (hs : World.step cfg w (.cacheComputed rid) = some w')
    (hkey : KeyInTime cfg g index k (w'.reqs rid)) :
    Ahead cfg g index k rid (done ∨ ∃ key, PublishedPage cfg w' rid g index key) w' := by
  obtain ⟨leak, hok⟩ := hw.wellFormed.ok
  obtain ⟨leak', hok'⟩ := hw'.wellFormed.ok
  obtain ⟨origin, ensuredAt, reach, tables, hphase, hphase', hcovered, ht, ht', hpass, hreq⟩ :=
    hok.commits hs
  have hid := hok.ids rid
  have hpublished : ∀ {s : Nat}, (tableOf tables g).get? index = some s →
      (w'.mgr.pool.blocks s).cached = true ∨ cfg.slotKey (w'.reqs rid) g index = .ok none →
      cfg.slotKey (w'.reqs rid) g index ≠ .ok none →
      ∃ key, PublishedPage cfg w' rid g index key := fun hi hdone hne =>
    hw'.publishedPage hd.mem ht' hi
      ((hok'.inv.pool.map.cached_iff _).mp (hdone.resolve_right hne))
  obtain ⟨threshold, hrecord⟩ := publicationPass_record hpass
  rw [hid] at hrecord
  have hcommit := (hw'.commitAt.2 rid).valid tables _ threshold hrecord ht'
  have hcomputed : (w'.reqs rid).numComputedTokens = (w.reqs rid).numComputedTokens := by rw [hreq]
  have hsettled := hcommit.settled (by rw [hreq]; rfl)
  have hprogress := hcommit.progress (by rw [hreq]; rfl)
  rw [hok'.ids] at hprogress
  -- a full page has a key exactly when it is in the list of keys
  have hlength : g.windowTokens = 0 → (cfg.slotKey (w'.reqs rid) g index ≠ .ok none ↔
      index < (cfg.inputKeys (w'.reqs rid)).length) := fun hw => by
    rw [slotKey_full (blockTokens_of_no_window hd.mem hw)]
    simp
  have hfull : g.windowTokens = 0 → ∀ p, w'.mgr.cachedProgress.get? rid = some p → index < p →
      done ∨ ∃ key, PublishedPage cfg w' rid g index key := by
    intro hw p hp hlt
    rw [hprogress, some.injEq] at hp
    by_cases hold : ∃ q, w.mgr.cachedProgress.get? rid = some q ∧ index < q
    · obtain ⟨q, hq, hlt⟩ := hold
      exact .inl (h.progress hw q hq hlt)
    · obtain ⟨s, hi, hdone⟩ := publicationPass_full_done (hd.full hw).2 hpass
        (i := index) (fun q hq => by
          rw [hid] at hq
          exact Nat.le_of_not_lt fun hlt => hold ⟨q, hq, hlt⟩)
        (by rw [hid]; exact hprogress) (by omega)
      refine .inr (hpublished hi (by rw [hreq]; exact hdone) ((hlength hw).mpr ?_))
      omega
  obtain ⟨_, _, _, hphase₀, hwin⟩ := h.active
  rw [hphase] at hphase₀
  obtain ⟨rfl, rfl, rfl⟩ := Phase.active.inj hphase₀
  refine ⟨⟨_, _, _, hphase'.trans hphase, fun hw => (hwin hw).imp_right Or.inl⟩,
    by rw [hreq]; exact h.context, fun state threshold' he hdue => ?_, hfull⟩
  rw [hrecord, some.injEq] at he
  obtain ⟨rfl, -⟩ := Prod.mk.inj he
  rw [show (commitState (w.reqs rid)).computed = (w.reqs rid).numComputedTokens from rfl] at hdue
  have hne := hkey (by rw [hreq]; exact h.context) (by rw [hcomputed]; exact hdue)
  have hpage : (index + 1) * g.blockTokens ≤ (w.reqs rid).numComputedTokens :=
    le_trans (le_max_right ..) hdue
  by_cases hwt : g.windowTokens = 0
  · refine hfull hwt _ hprogress (Nat.lt_min.mpr ⟨?_, (hlength hwt).mp hne⟩)
    rw [blockTokens_of_no_window hd.mem hwt] at hpage
    exact (Nat.le_div_iff_mul_le (block_pos cfg)).mpr hpage
  · rcases hwin hwt with hlow | hdone
    · have hshape := hw.wellFormed.shapes rid tables ht
      rw [hphase] at hshape
      obtain ⟨s, hi⟩ := ActiveShape.exists_page hshape hd.mem hwt hlow
        (le_trans hpage hcovered)
      obtain ⟨htail, hshift⟩ := hd.window hwt
      exact .inr (hpublished hi (hsettled g hd.mem hwt index s hi hpage
        (retainedBy_of_demanded hd.mem hd.interval hshift
          (le_trans (le_max_left ..) hdue) htail)) hne)
    · exact .inl hdone

/-- Ensuring slots for the next chunk drops the page only after it was due. -/
theorem Ahead.ensure {scheduled lookahead : Nat} (hok : WorldOk cfg leak w)
    (hchunk : w.Committed rid ∨ w.Ensured rid)
    (hs : World.step cfg w (.ensureSlots rid scheduled lookahead) = some w') :
    Ahead cfg g index k rid done w' := by
  obtain ⟨_, at₀, _, hphase, hwin⟩ := h.active
  cases step_cases hok hs with
  | @ensureSlots _ _ _ _ _ origin _ _ _ phase ensures =>
    rw [phase] at hphase
    obtain ⟨rfl, rfl, rfl⟩ := Phase.active.inj hphase
    refine ⟨⟨origin, _, _, put_phase_self .., fun hw => ?_⟩,
      by rw [put_reqs_self]; exact h.context, fun state threshold he => ?_, ?_⟩
    · rcases Nat.lt_or_ge (w.reqs rid).numComputedTokens (duePosition cfg g index k)
        with hlt | hdue
      · exact .inl (hd.windowStart_le hw (.inr hlt))
      · rcases hchunk with hcommitted | hensured
        · exact .inr (h.done_of_committed hcommitted hdue)
        · unfold World.Ensured at hensured
          rw [phase] at hensured
          rw [← hensured]
          exact hwin hw
    · rw [put_mgr] at he
      rcases ensures.committed with herased | ⟨hsame, -⟩
      · rw [herased, hok.ids, get?_erase_self] at he
        cases he
      · rw [hsame] at he
        exact h.recorded state threshold he
    · rw [put_mgr, ensures.records.cachedProgress]
      exact h.progress

theorem Ahead.step {op : Op} (hw : World.Reachable cfg w) (hw' : World.Reachable cfg w')
    (hchunk : Chunked rid w op) (hs : World.step cfg w op = some w')
    (hkey : KeyInTime cfg g index k (w'.reqs rid)) :
    Ahead cfg g index k rid (done ∨ ∃ key, PublishedPage cfg w' rid g index key) w' := by
  obtain ⟨leak, hok⟩ := hw.wellFormed.ok
  have hstep := step_cases hok hs
  by_cases hsub : op.subject ≠ some rid
  · have hun := hstep.undisturbed hok hsub
    exact (h.congr hun.phase (by rw [hun.request]; exact h.context) hun.committed hun.cachedProgress).mono Or.inl
  · rw [not_not] at hsub
    -- other phases than the active one do not occur
    obtain ⟨_, _, _, hphase, -⟩ := h.active
    cases op with
    | plan i =>
      cases hsub
      cases hstep with
      | plan request _ _ =>
        refine Ahead.mono ?_ (Or.inl : done → _)
        refine h.congr (put_phase_self ..) ?_ rfl rfl
        rw [put_reqs_self]
        rcases request with rfl | ⟨blocks, rfl⟩ <;> exact h.context
    | allocate i =>
      cases hsub
      cases hstep with
      | allocate phase _ => rw [phase] at hphase; cases hphase
    | start i position =>
      cases hsub
      cases hstep with
      | start phase _ => rw [phase] at hphase; cases hphase
    | beginImport i lookup =>
      cases hsub
      cases hstep with
      | beginImport phase _ _ _ _ _ => rw [phase] at hphase; cases hphase
    | finishImport i =>
      cases hsub
      cases hstep with
      | finishImport phase _ => rw [phase] at hphase; cases hphase
    | ensureSlots i scheduled lookahead =>
      cases hsub
      exact (h.ensure hd hok (hchunk rfl) hs).mono Or.inl
    | advance i position =>
      cases hsub
      cases hstep
      refine (h.congr (put_phase_self ..) ?_ rfl rfl).mono Or.inl
      rw [put_reqs_self]
      exact hchunk rfl
    | generate i tokens =>
      cases hsub
      have hgrow := (hstep.progress rid).contextLen
      cases hstep
      refine (h.congr (put_phase_self ..) (le_trans ?_ hgrow) rfl rfl).mono Or.inl
      rw [put_reqs_self]
      exact h.context
    | cacheComputed i =>
      cases hsub
      exact h.commit hd hw hw' hs hkey
    | release i =>
      cases hsub
      exact absurd rfl hchunk
    | pin slot => cases hsub
    | unpin slot => cases hsub

end

/-- When the computation takes up at or before the boundary. -/
theorem TakesUp.ahead (h : TakesUp cfg rid w w') (hw : World.Reachable cfg w)
    (hw' : World.Reachable cfg w') (hd : Demanded cfg g index k)
    (hbelow : (w'.reqs rid).numComputedTokens ≤ k * cfg.layout.retentionInterval) :
    Ahead cfg g index k rid (∃ key, PublishedPage cfg w' rid g index key) w' := by
  obtain ⟨hctx, hnone, origin, reach, tables, hphase, ht, hprogress, hnamed⟩ := h.spec hw
  refine ⟨⟨origin, _, reach, hphase, fun hwt => .inl (hd.windowStart_le hwt (.inl hbelow))⟩, hctx,
    fun state threshold he => ?_, fun hwt p hp hlt => ?_⟩
  · rw [hnone] at he
    cases he
  · rw [hprogress, some.injEq] at hp
    subst hp
    have hshape := hw'.wellFormed.shapes rid tables ht
    rw [hphase] at hshape
    have hmem : index ∈ (tableOf tables g).keys := by
      rw [hshape.full g hd.mem hwt (hd.full hwt).1, mem_range, blockTokens_of_no_window hd.mem hwt]
      refine lt_of_lt_of_le hlt (Nat.div_le_of_le_mul ?_)
      rw [mul_comm]
      exact le_cdiv_mul (block_pos cfg) reach
    obtain ⟨s, hi⟩ := mem_keys_iff.mp hmem
    exact hw'.publishedPage hd.mem ht hi (hnamed g hd.mem index s hi)

theorem Ahead.run {w₀ : World} (hw₀ : World.Reachable cfg w₀)
    (h₀ : Ahead cfg g index k rid (∃ key, PublishedPage cfg w₀ rid g index key) w₀)
    (hd : Demanded cfg g index k)
    (hrun : Visits (World.step cfg) (Chunked rid) w₀ states w)
    (hkey : ∀ u ∈ states, KeyInTime cfg g index k (u.reqs rid)) :
    World.Reachable cfg w ∧
      Ahead cfg g index k rid (∃ u ∈ states, ∃ key, PublishedPage cfg u rid g index key) w := by
  induction hrun with
  | refl => exact ⟨hw₀, h₀.mono fun hpub => ⟨_, mem_singleton_self _, hpub⟩⟩
  | @tail t u states op hrun hchunk hs ih =>
    obtain ⟨ht, hahead⟩ := ih (forall_mem_cons.mp hkey).2
    have hu : World.Reachable cfg u := ht.step hs
    refine ⟨hu, (hahead.step hd ht hu hchunk hs (hkey u mem_cons_self)).mono ?_⟩
    rintro (⟨v, hv, hpub⟩ | hpub)
    · exact ⟨v, mem_cons_of_mem _ hv, hpub⟩
    · exact ⟨u, mem_cons_self .., hpub⟩

/-! ## Recovery -/

/-- A chunked run of a request, from where its computation takes up to a state in
which what it computed is committed. -/
structure ChunkedRun (cfg : HybridConfig) (rid : Nat) (w₀ : World) (states : List World)
    (w : World) : Prop where
  start : ∃ v, World.Reachable cfg v ∧ TakesUp cfg rid v w₀
  visits : Visits (World.step cfg) (Chunked rid) w₀ states w
  committed : w.Committed rid

section Run

variable {w₀ : World} {digest : List Int → String}

section

variable (h : ChunkedRun cfg rid w₀ states w)
include h

theorem ChunkedRun.reachable : World.Reachable cfg w₀ := by
  obtain ⟨v, hv, ⟨_, hs⟩ | hs⟩ := h.start
  · exact hv.step hs
  · exact hv.step hs

theorem ChunkedRun.progress {u : World} (hu : u ∈ states)
    (i : Nat) : Progress (w₀.reqs i) (u.reqs i) ∧ Progress (u.reqs i) (w.reqs i) := by
  obtain ⟨hfrom, hto⟩ := h.visits.reaches u hu
  have hwf := h.reachable.wellFormed
  have hwfu : WellFormed cfg u := hfrom.invariant hwf fun h _ hs => h.step hs
  exact ⟨hwf.progress hfrom i, hwfu.progress hto i⟩

/-- A page before the boundary has its key by the time it is due. -/
theorem ChunkedRun.slotKey_ne_none
    (haccept : cfg.TraceAccepted digest (w₀.reqs rid)) (hd : Demanded cfg g index k)
    (hbefore : (index + 1) * g.blockTokens ≤ k * cfg.layout.retentionInterval) {u : World}
    (hu : u ∈ states) : KeyInTime cfg g index k (u.reqs rid) := by
  intro hctx hdue
  refine TokenSim.slotKey_ne_none hd.mem (haccept.extend (h.progress hu rid).1.toExtends)
    (Nat.dvd_mul_left_of_dvd cfg.layout.retention_dvd k) ?_ hbefore
  exact le_trans (le_trans (le_max_left ..) hdue) hctx

section

variable (hbelow : (w₀.reqs rid).numComputedTokens ≤ k * cfg.layout.retentionInterval)
include hbelow

/-- A demanded page whose key does not come late was published. -/
theorem ChunkedRun.published (hd : Demanded cfg g index k)
    (hdue : duePosition cfg g index k ≤ (w.reqs rid).numComputedTokens)
    (hkey : ∀ u ∈ states, KeyInTime cfg g index k (u.reqs rid)) :
    ∃ u ∈ states, ∃ key, PublishedPage cfg u rid g index key := by
  obtain ⟨v, hv, htake⟩ := h.start
  obtain ⟨-, hahead⟩ := Ahead.run h.reachable (htake.ahead hv h.reachable hd hbelow) hd h.visits hkey
  exact hahead.done_of_committed h.committed hdue

/-- The pages that a boundary demands of a window group were published, if the
key of the EAGLE page past it does not come late. -/
theorem ChunkedRun.published_window (haccept : cfg.TraceAccepted digest (w₀.reqs rid))
    (hI : 0 < cfg.layout.retentionInterval) (hg : g ∈ cfg.layout.groups) (hw : g.windowTokens ≠ 0)
    (hreached : k * cfg.layout.retentionInterval + g.eagle.toNat * g.blockTokens ≤
      (w.reqs rid).numComputedTokens) (heagle : g.eagle = true → ∀ u ∈ states,
      k * cfg.layout.retentionInterval + g.blockTokens ≤ (u.reqs rid).numComputedTokens →
      ∃ key, cfg.slotKey (u.reqs rid) g (k * cfg.layout.retentionInterval / g.blockTokens) =
        .ok (some key)) (hindex : index ∈ tailPages g (k * cfg.layout.retentionInterval))
    (hshift : g.eagle.toNat ≤ index) : ∃ u ∈ states, ∃ key, PublishedPage cfg u rid g index key := by
  rw [mem_tailPages] at hindex
  have hd : Demanded cfg g index k := ⟨hg, hI, fun _ => ⟨hindex, hshift⟩, fun h0 => absurd h0 hw⟩
  have hcancel : k * cfg.layout.retentionInterval / g.blockTokens * g.blockTokens =
      k * cfg.layout.retentionInterval := Nat.div_mul_cancel (Nat.dvd_mul_left_of_dvd
    (Nat.dvd_trans (cfg.layout.tokens_dvd g hg) cfg.layout.retention_dvd) k)
  have hpage : (index + 1) * g.blockTokens ≤
      k * cfg.layout.retentionInterval + g.eagle.toNat * g.blockTokens := by
    rw [← hcancel, ← add_mul]
    exact Nat.mul_le_mul_right _ hindex.2
  refine h.published hbelow hd (Nat.max_le.mpr
    ⟨le_trans (Nat.le_add_right ..) hreached, le_trans hpage hreached⟩)
    fun u hu hctx hdue => ?_
  by_cases hbefore : (index + 1) * g.blockTokens ≤ k * cfg.layout.retentionInterval
  · exact h.slotKey_ne_none haccept hd hbefore hu hctx hdue
  · -- only an EAGLE page lies past the boundary
    have hpast : k * cfg.layout.retentionInterval / g.blockTokens ≤ index := by
      refine Nat.le_of_lt_succ (Nat.div_lt_of_lt_mul ?_)
      rw [mul_comm g.blockTokens]
      exact Nat.lt_of_not_le hbefore
    obtain ⟨htrue, rfl⟩ : g.eagle = true ∧
        index = k * cfg.layout.retentionInterval / g.blockTokens := by
      have := hindex.2
      cases he : g.eagle with
      | false => rw [he, Bool.toNat_false] at this; omega
      | true => rw [he, Bool.toNat_true] at this; exact ⟨rfl, by omega⟩
    have hcomplete := le_trans (le_max_right ..) hdue
    rw [add_mul, hcancel, one_mul] at hcomplete
    obtain ⟨key, hkey⟩ := heagle htrue u hu hcomplete
    rw [hkey]
    intro hnone
    cases hnone

theorem ChunkedRun.published_full (haccept : cfg.TraceAccepted digest (w₀.reqs rid))
    (hd : Demanded cfg g index k) (hw : g.windowTokens = 0)
    (hreached : k * cfg.layout.retentionInterval ≤ (w.reqs rid).numComputedTokens)
    (hindex : index < k * cfg.layout.retentionInterval / cfg.blockSize) :
    ∃ u ∈ states, ∃ key, PublishedPage cfg u rid g index key := by
  have hbefore : (index + 1) * g.blockTokens ≤ k * cfg.layout.retentionInterval := by
    rw [blockTokens_of_no_window hd.mem hw]
    exact (Nat.le_div_iff_mul_le (block_pos cfg)).mp hindex
  exact h.published hbelow hd (Nat.max_le.mpr ⟨hreached, le_trans hbefore hreached⟩)
    fun u hu => h.slotKey_ne_none haccept hd hbefore hu

end

end

end Run

/-- A plan covers every boundary of the context whose pages are all found. -/
theorem PlanOk.le_hitTokens {cache : OrderedDict SlotKey Nat} {plan : HybridReusePlan}
    (h : PlanOk cfg r cache plan) (hdvd : cfg.blockSize ∣ boundary) (hctx : boundary < r.contextLen)
    (hfinds : ∀ g ∈ cfg.layout.groups, ∀ i ∈ demandedPages cfg g (boundary / cfg.blockSize),
      ∃ s, Finds cfg r cache.get? g i s) : boundary ≤ plan.hitTokens := by
  have hle := h.maximal (boundary / cfg.blockSize)
    (Nat.le_min.mpr ⟨?_, Nat.div_le_div_right (by omega)⟩) hfinds
  · rw [Nat.div_mul_cancel hdvd] at hle
    exact hle
  · -- the full pages have keys
    by_contra hlt
    obtain ⟨s, key, hkey, -⟩ := hfinds cfg.layout.fullGroup cfg.layout.fullGroup_mem
      (cfg.inputKeys r).length (by
        rw [demandedPages, if_pos cfg.layout.fullGroup_windowTokens, mem_range]
        omega)
    rw [slotKey_full cfg.layout.fullGroup_blockTokens] at hkey
    simp at hkey

/-- Retention is sufficient for recovery.  Let a request be computed in chunks,
from a position at or before the boundary `k * I` on, until the boundary and the
EAGLE pages after it are computed and committed, and let the keys of these EAGLE
pages be known when the pages are complete.  Then every page that a plan
demands of a window group at the boundary was published under its key, the first
page of an EAGLE group apart.  A later request with the same keys and a longer
context reuses at least the tokens up to the boundary, as long as the published
pages are in the prefix map; here the layout has one full group, without draft
layers, and the boundary demands no first page of an EAGLE group. -/
theorem retention_recovers (cfg : HybridConfig) (hI : 0 < cfg.layout.retentionInterval)
    (rid k : Nat) (w₀ : World) (states : List World) (w : World)
    (hrun : ChunkedRun cfg rid w₀ states w) (digest : List Int → String)
    (haccept : cfg.TraceAccepted digest (w₀.reqs rid))
    (hbelow : (w₀.reqs rid).numComputedTokens ≤ k * cfg.layout.retentionInterval)
    (hreached : ∀ g ∈ cfg.layout.groups, k * cfg.layout.retentionInterval +
      g.eagle.toNat * g.blockTokens ≤ (w.reqs rid).numComputedTokens)
    (heagle : ∀ u ∈ states, ∀ g ∈ cfg.layout.groups, g.windowTokens ≠ 0 → g.eagle = true →
      k * cfg.layout.retentionInterval + g.blockTokens ≤ (u.reqs rid).numComputedTokens →
      ∃ key, cfg.slotKey (u.reqs rid) g (k * cfg.layout.retentionInterval / g.blockTokens) =
        .ok (some key)) :
    (∀ g ∈ cfg.layout.groups, g.windowTokens ≠ 0 →
      ∀ index ∈ tailPages g (k * cfg.layout.retentionInterval), g.eagle.toNat ≤ index →
        ∃ u ∈ states, ∃ key, PublishedPage cfg u rid g index key) ∧
    ((∀ g ∈ cfg.layout.groups, g.windowTokens = 0 →
        g.eagle = false ∧ ∀ g' ∈ cfg.layout.groups, g'.windowTokens = 0 → g' = g) →
      (∀ g ∈ cfg.layout.groups, g.windowTokens ≠ 0 →
        ∀ index ∈ tailPages g (k * cfg.layout.retentionInterval), g.eagle.toNat ≤ index) →
      ∀ later, World.Reachable cfg later → ∀ b digest',
        cfg.TraceAccepted digest' (later.reqs b) → cfg.PagesFitTrace (later.reqs b) →
        k * cfg.layout.retentionInterval < (later.reqs b).contextLen →
        (∀ g ∈ cfg.layout.groups,
          ∀ index ∈ demandedPages cfg g (k * cfg.layout.retentionInterval / cfg.blockSize),
            cfg.slotKey (later.reqs b) g index = cfg.slotKey (w.reqs rid) g index) →
        (∀ u ∈ states, ∀ g ∈ cfg.layout.groups, ∀ index key, PublishedPage cfg u rid g index key →
          later.mgr.pool.cache.get? key ≠ none) →
        ∃ m' r' plan, later.mgr.planReuse cfg (later.reqs b) = .ok (m', r', plan) ∧
          k * cfg.layout.retentionInterval ≤ plan.hitTokens) := by
  have hwindow : ∀ g ∈ cfg.layout.groups, g.windowTokens ≠ 0 →
      ∀ index ∈ tailPages g (k * cfg.layout.retentionInterval), g.eagle.toNat ≤ index →
        ∃ u ∈ states, ∃ key, PublishedPage cfg u rid g index key :=
    fun g hg hw index hindex hshift => hrun.published_window hbelow haccept hI hg hw
      (hreached g hg) (fun he u hu => heagle u hu g hg hw he) hindex hshift
  refine ⟨hwindow, fun hfull hfirst later hlater b digest' haccept' hfit hctx hsame hkept => ?_⟩
  obtain ⟨leak, hok⟩ := hlater.wellFormed.ok
  obtain ⟨m', r', plan, hplan⟩ := planReuse_total (fun g hg index => HybridConfig.slotKey_total hg
    (HybridConfig.naming_pos haccept' g) (hfit.dvd hg) index) later.mgr
  have hdvd : cfg.blockSize ∣ k * cfg.layout.retentionInterval :=
    Nat.dvd_mul_left_of_dvd cfg.layout.retention_dvd k
  refine ⟨m', r', plan, hplan, (planReuse_spec (hok.memo b) hplan).1.le_hitTokens hdvd hctx
    fun g hg index hindex => ?_⟩
  have hpage : ∃ u ∈ states, ∃ key, PublishedPage cfg u rid g index key := by
    unfold demandedPages at hindex
    split at hindex
    · rename_i hw
      exact hrun.published_full hbelow haccept ⟨hg, hI, fun h => absurd hw h, hfull g hg⟩ hw
        (le_trans (Nat.le_add_right ..) (hreached g hg)) (mem_range.mp hindex)
    · rename_i hw
      rw [Nat.div_mul_cancel hdvd] at hindex
      exact hwindow g hg hw index hindex (hfirst g hg hw index hindex)
  obtain ⟨u, hu, key, hpub⟩ := hpage
  obtain ⟨s, hs⟩ := ne_none_iff_exists'.mp (hkept u hu g hg index key hpub)
  refine ⟨s, key, ?_, hs⟩
  rw [hsame g hg index hindex]
  exact HybridConfig.slotKey_extend hg (hrun.progress hu rid).2.toExtends hpub.1

/-! ## Samples -/

/-- The draft layers of the samples: a token and `span` tokens before it, in pages
of one token. -/
def draftGroup (span : Nat) : CacheGroup := ⟨1, .window, 1, span + 1, true⟩

/-- Full attention in pages of two tokens, and draft layers with a window. -/
def eagleLayout (span : Nat) : HybridKVLayout where
  groups := [⟨0, .full, 2, 0, false⟩, draftGroup span]
  logicalBlockTokens := 2
  retentionInterval := 4
  speculativeTokens := 1
  maxInFlightTokens := 8
  maxModelLen := 16
  ids_nodup := by simp [draftGroup]
  logical_pos := windowLayout.logical_pos
  retention_dvd := windowLayout.retention_dvd
  tokens_dvd := by simp [draftGroup]
  full_tokens := by simp [draftGroup]
  full_iff := by simp [draftGroup]
  has_full := by simp

/-- The sample requests, the first one with a prompt of `prefillLen` tokens. -/
def promptRequest (cfg : HybridConfig) (prefillLen rid : Nat) : Request :=
  if rid = 0 then { sampleRequest cfg rid with prefillLen := prefillLen } else sampleRequest cfg rid

theorem promptRequest_arriving (cfg : HybridConfig) (prefillLen : Nat) :
    World.Arriving (promptRequest cfg prefillLen) := by
  constructor
  · intro rid
    unfold promptRequest
    split <;> rfl
  · intro rid
    unfold promptRequest
    split <;> rfl

/-- Admit request 0, start it at its prefix and compute a chunk of `tokens`. -/
def sampleRun (cfg : HybridConfig) (reqs : Nat → Request) (tokens : Nat) :
    Option (World × World × List World × World) := do
  let v ← World.step cfg (.init cfg reqs) (.allocate 0)
  let w₀ ← World.step cfg v (.start 0 0)
  let (states, w) ← visitActions (World.step cfg) (Chunked 0) [w₀] w₀
    [.ensureSlots 0 tokens 0, .advance 0 tokens, .cacheComputed 0]
  some (v, w₀, states, w)

theorem chunkedRun_of_sampleRun {reqs : Nat → Request} (hreqs : World.Arriving reqs) {tokens : Nat}
    {v w₀ : World} (h : sampleRun cfg reqs tokens = some (v, w₀, states, w)) (hc : w.Committed 0) :
    ChunkedRun cfg 0 w₀ states w := by
  obtain ⟨v', hv, h⟩ := bind_eq_some_iff.mp h
  obtain ⟨w₀', hw₀, h⟩ := bind_eq_some_iff.mp h
  obtain ⟨⟨states', w'⟩, hvisits, h⟩ := bind_eq_some_iff.mp h
  cases h
  have hinit : World.Reachable cfg (.init cfg reqs) := ⟨reqs, hreqs, .refl _⟩
  exact ⟨⟨v, hinit.step hv, .inl ⟨0, hw₀⟩⟩, visits_of_visitActions (.refl _) hvisits, hc⟩

def eagleConfig (span : Nat) : HybridConfig := sampleConfig (eagleLayout span)

/-- Six tokens in one chunk: the pages of the boundary at four tokens, with the
EAGLE page past it, are published, and the next request reuses them. -/
theorem retention_recovers_sample : ∃ w₀ states w,
    ChunkedRun (eagleConfig 2) 0 w₀ states w ∧ (w.reqs 0).numComputedTokens = 6 ∧
    (∃ u ∈ states, ∃ key, PublishedPage (eagleConfig 2) u 0 (draftGroup 2) 4 key) ∧
    ∃ m' r' plan, w.mgr.planReuse (eagleConfig 2) (w.reqs 1) = .ok (m', r', plan) ∧
      4 ≤ plan.hitTokens := by
  have hrun : (sampleRun (eagleConfig 2) (sampleRequest (eagleConfig 2))
      6).any (fun ⟨_, w₀, states, w⟩ =>
        w.Committed 0 ∧ (w₀.reqs 0).numComputedTokens = 0 ∧ (w.reqs 0).numComputedTokens = 6 ∧
        (w₀.reqs 0).traceHashIds = none ∧ (w.reqs 1).traceHashIds = none ∧
        4 < (w.reqs 1).contextLen ∧
        ((eagleConfig 2).slotKey (w₀.reqs 0) (draftGroup 2) 4).toOption.join.isSome ∧
        (∀ g ∈ (eagleConfig 2).layout.groups, ∀ index ∈ demandedPages (eagleConfig 2) g 2,
            (eagleConfig 2).slotKey (w.reqs 1) g index =
              (eagleConfig 2).slotKey (w.reqs 0) g index) ∧
        ∀ u ∈ states, ∀ key ∈ u.mgr.pool.cache.keys, w.mgr.pool.cache.get? key ≠ none) = true := by
    decide +kernel
  obtain ⟨⟨v, w₀, states, w⟩, hsome, hP⟩ := (Option.any_eq_true ..).mp hrun
  obtain ⟨hc, hzero, hsix, htrace, htrace', hctx, hkey, hsame, hkept⟩ := of_decide_eq_true hP
  have hchunked := chunkedRun_of_sampleRun (sampleRequest_arriving _) hsome hc
  have hreach : ∀ u ∈ states, World.Reachable (eagleConfig 2) u := fun u hu =>
    (hchunked.visits.reaches u hu).1.invariant hchunked.reachable fun h _ hs => h.step hs
  obtain ⟨hpages, hreuse⟩ := retention_recovers (eagleConfig 2) (by decide) 0 1 w₀
    states w hchunked (fun _ => "") (fun hashes h => by rw [htrace] at h; cases h)
    (by rw [hzero]; decide) (by rw [hsix]; decide) (fun u hu g hg hw he _ => by
      obtain rfl : g = draftGroup 2 := by
        rcases mem_cons.mp hg with rfl | hg
        · exact absurd rfl hw
        · exact mem_singleton.mp hg
      obtain ⟨key, hkey⟩ := isSome_iff_exists.mp hkey
      exact ⟨key, HybridConfig.slotKey_extend hg (hchunked.progress hu 0).1.toExtends
        (toOption_eq_some (join_eq_some_iff.mp hkey))⟩)
  refine ⟨w₀, states, w, hchunked, hsix, hpages _ (by decide) (by decide) 4 (by decide)
    (by decide), hreuse (by decide) (by decide) w (hreach w hchunked.visits.last_mem) 1 (fun _ => "")
      (fun hashes h => by rw [htrace'] at h; cases h) (fun hashes h => by rw [htrace'] at h; cases h)
      hctx hsame fun u hu g hg index key hpub => ?_⟩
  obtain ⟨-, tables, s, -, -, -, hname⟩ := hpub
  obtain ⟨leak, hok⟩ := (hreach u hu).wellFormed.ok
  have hmapped : u.mgr.pool.cache.get? key ≠ none := by
    rcases SlotPool.mem_entries.mp ((hok.inv.pool.map.identity key s).mpr hname) with hprimary | hcopy
    · rw [hprimary]
      exact some_ne_none _
    · exact hok.inv.pool.map.copies_primary key (ne_nil_of_mem hcopy)
  exact hkept u hu key (mem_keys_iff.mpr (ne_none_iff_exists'.mp hmapped))

/-- A page is published in none of the states, because its key is unknown there
or the page is not cached. -/
def unpublished (cfg : HybridConfig) (g : CacheGroup) (index : Nat) (states : List World) : Bool :=
  states.all fun u => decide (cfg.slotKey (u.reqs 0) g index = .ok none) ||
    ((u.mgr.tables.get? 0).bind fun tables => (tableOf tables g).get? index).all fun s =>
      !(u.mgr.pool.blocks s).cached

theorem not_publishedPage_of_unpublished
    (h : unpublished cfg g index states = true) {u : World} (hu : u ∈ states) (key : SlotKey) :
    ¬ PublishedPage cfg u 0 g index key := by
  rintro ⟨hkey, tables, s, ht, hs, hcached, -⟩
  have := List.all_eq_true.mp h u hu
  rw [hkey, ht, bind_some, hs] at this
  simp [hcached] at this

/-- Two runs from the start of a prompt to past the boundary at four tokens.  With
a prompt of five tokens the EAGLE page past the boundary is complete while its
engine block is not, so it has no key; a longer request with the same known
prefix then reuses nothing.  With a tail that is longer than a segment the first
page is demanded and complete, and it is in no segment's tail run. -/
theorem demanded_page_unpublished :
    (∃ w₀ states w, ChunkedRun (eagleConfig 2) 0 w₀ states w ∧
      (w₀.reqs 0).numComputedTokens = 0 ∧ (w.reqs 0).numComputedTokens = 5 ∧
      4 ∈ tailPages (draftGroup 2) 4 ∧
      (∀ u ∈ states, ∀ key, ¬ PublishedPage (eagleConfig 2) u 0 (draftGroup 2) 4 key) ∧
      (w.reqs 1).hashIds = (w.reqs 0).hashIds ∧ 5 < (w.reqs 1).contextLen ∧
      (w.mgr.planReuse (eagleConfig 2) (w.reqs 1)).map (fun out => out.2.2.hitTokens) = .ok 0) ∧
    ∃ w₀ states w, ChunkedRun (eagleConfig 5) 0 w₀ states w ∧
      (w₀.reqs 0).numComputedTokens = 0 ∧ (w.reqs 0).numComputedTokens = 6 ∧
      0 ∈ tailPages (draftGroup 5) 4 ∧
      ((eagleConfig 5).slotKey (w₀.reqs 0) (draftGroup 5) 0).toOption.join.isSome = true ∧
      ∀ u ∈ states, ∀ key, ¬ PublishedPage (eagleConfig 5) u 0 (draftGroup 5) 0 key := by
  constructor
  · have hrun : (sampleRun (eagleConfig 2) (promptRequest (eagleConfig 2) 5) 5).any
        (fun ⟨_, w₀, states, w⟩ => w.Committed 0 ∧ (w₀.reqs 0).numComputedTokens = 0 ∧
          (w.reqs 0).numComputedTokens = 5 ∧
          unpublished (eagleConfig 2) (draftGroup 2) 4 states = true ∧
          (w.reqs 1).hashIds = (w.reqs 0).hashIds ∧ 5 < (w.reqs 1).contextLen ∧
          (w.mgr.planReuse (eagleConfig 2) (w.reqs 1)).map (fun out => out.2.2.hitTokens) =
            .ok 0) = true := by
      decide +kernel
    obtain ⟨⟨v, w₀, states, w⟩, hsome, hP⟩ := (Option.any_eq_true ..).mp hrun
    obtain ⟨hc, hzero, hfive, hun, hids, hctx, hplan⟩ := of_decide_eq_true hP
    exact ⟨w₀, states, w, chunkedRun_of_sampleRun (promptRequest_arriving _ _) hsome hc, hzero,
      hfive, by decide, fun u hu => not_publishedPage_of_unpublished hun hu, hids, hctx, hplan⟩
  · have hrun : (sampleRun (eagleConfig 5) (sampleRequest (eagleConfig 5)) 6).any
        (fun ⟨_, w₀, states, w⟩ => w.Committed 0 ∧ (w₀.reqs 0).numComputedTokens = 0 ∧
          (w.reqs 0).numComputedTokens = 6 ∧
          ((eagleConfig 5).slotKey (w₀.reqs 0) (draftGroup 5) 0).toOption.join.isSome = true ∧
          unpublished (eagleConfig 5) (draftGroup 5) 0 states = true) = true := by
      decide +kernel
    obtain ⟨⟨v, w₀, states, w⟩, hsome, hP⟩ := (Option.any_eq_true ..).mp hrun
    obtain ⟨hc, hzero, hsix, hkey, hun⟩ := of_decide_eq_true hP
    exact ⟨w₀, states, w, chunkedRun_of_sampleRun (sampleRequest_arriving _) hsome hc, hzero, hsix,
      by decide, hkey, fun u hu => not_publishedPage_of_unpublished hun hu⟩

end TokenSim
