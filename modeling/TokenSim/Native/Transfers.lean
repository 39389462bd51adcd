import TokenSim.Native.Connector

/-!
# Transfers of the offload connector

`Sound` is what holds in every state of the connector: the manager's world is one
that its callers reach, the references of the store and the pins of the manager
are those of the outstanding transfers, and the slots of a transfer keep what they
hold.  The step lemmas follow the events; the main theorem reads off what the
invariant says about a state and that no event raises.
-/

namespace TokenSim.AsyncOffload

open List OrderedDict Option
open Function (update update_of_ne update_self)
open World (put_mgr put_phase_of_ne put_phase_self)

open HybridKVBlockManager SlotPool NativePageStore
open Except

variable {hcfg : HybridConfig} {cfg : Config} {leak : Nat → Nat} {m m' : HybridKVBlockManager}
  {w w' : World} {op : Op} {slot x : Nat}

/-! ## Pins -/

/-- Only pins and reference counts changed. -/
structure Repinned (w w' : World) : Prop where
  reqs : w'.reqs = w.reqs
  phase : w'.phase = w.phase
  tables : w'.mgr.tables = w.mgr.tables
  sameMap : w.mgr.pool.SameMap w'.mgr.pool

theorem Repinned.refl (w : World) : Repinned w w := ⟨rfl, rfl, rfl, .refl _⟩

theorem Repinned.trans {w'' : World} (h : Repinned w w') (h' : Repinned w' w'') :
    Repinned w w'' :=
  ⟨h'.reqs.trans h.reqs, h'.phase.trans h.phase, h'.tables.trans h.tables,
    h.sameMap.trans h'.sameMap⟩

theorem Repinned.occurrences (h : Repinned w w') (x : Nat) :
    occurrences w'.mgr x = occurrences w.mgr x := by
  unfold TokenSim.occurrences
  rw [h.tables]

theorem pin_spec (h : World.Reachable hcfg w) (hs : slot < hcfg.numSlots) :
    ∃ w', pin w slot = .ok w' ∧ World.Reachable hcfg w' ∧ Repinned w w' ∧
      ∀ x, transfers w'.mgr x = transfers w.mgr x + [slot].count x := by
  obtain ⟨leak, hok⟩ := h.wellFormed.ok
  obtain ⟨pool, hpool, -⟩ := hok.inv.pool.acquire hs
  obtain ⟨m', hpin, hrefs⟩ : ∃ m', w.mgr.pinTransfer slot = .ok m' ∧
      m'.transferReferences = w.mgr.transferReferences.set slot
        ((w.mgr.transferReferences.get? slot).getD 0 + 1) :=
    ⟨_, bind_eq_ok.mpr ⟨pool, hpool, rfl⟩, rfl⟩
  have hstep : World.step hcfg w (.pin slot) = some { w with mgr := m' } := by
    simp only [World.step, if_pos hs, hpin]
    rfl
  have htr := pinTransfer_spec hok.inv hs hpin
  refine ⟨{ w with mgr := m' }, bind_eq_ok.mpr ⟨m', hpin, rfl⟩, h.step hstep,
    ⟨rfl, rfl, htr.tables, htr.sameMap⟩, fun x => ?_⟩
  · simp only [transfers, hrefs, get?_set, count_singleton, beq_iff_eq]
    by_cases hx : x = slot
    · subst hx
      simp
    · simp [hx, Ne.symm hx]

theorem unpin_spec (h : World.Reachable hcfg w) (h0 : slot ≠ 0)
    (hpos : transfers w.mgr slot ≠ 0) : ∃ w', unpin w slot = .ok w' ∧ World.Reachable hcfg w' ∧
      Repinned w w' ∧ ∀ x, transfers w'.mgr x + [slot].count x = transfers w.mgr x := by
  obtain ⟨leak, hok⟩ := h.wellFormed.ok
  obtain ⟨pool, hpool, -⟩ := hok.inv.pool.releaseMany [slot]
    (fun hmem => h0 (mem_singleton.mp hmem).symm)
    (fun x => by
      simp only [count_singleton, beq_iff_eq]
      split
      · rename_i hx
        subst hx
        simp only [references]
        omega
      · exact Nat.zero_le _)
  have hcount : ¬(w.mgr.transferReferences.get? slot).getD 0 = 0 := hpos
  obtain ⟨m', hunpin, hrefs⟩ : ∃ m', w.mgr.unpinTransfer slot = .ok m' ∧
      m'.transferReferences = if (w.mgr.transferReferences.get? slot).getD 0 = 1 then
          w.mgr.transferReferences.erase slot
        else w.mgr.transferReferences.set slot
          ((w.mgr.transferReferences.get? slot).getD 0 - 1) :=
    ⟨_, (if_neg hcount).trans (bind_eq_ok.mpr ⟨pool, hpool, rfl⟩), rfl⟩
  have hstep : World.step hcfg w (.unpin slot) = some { w with mgr := m' } := by
    simp only [World.step, hunpin]
    rfl
  have htr := unpinTransfer_spec hok.inv hunpin
  refine ⟨{ w with mgr := m' }, bind_eq_ok.mpr ⟨m', hunpin, rfl⟩, h.step hstep,
    ⟨rfl, rfl, htr.tables, htr.sameMap⟩, fun x => ?_⟩
  · simp only [transfers, hrefs, count_singleton, beq_iff_eq]
    by_cases hone : (w.mgr.transferReferences.get? slot).getD 0 = 1
    · rw [if_pos hone, get?_erase]
      by_cases hx : x = slot
      · subst hx
        simp [hone]
      · simp [hx, Ne.symm hx]
    · rw [if_neg hone, get?_set]
      by_cases hx : x = slot
      · subst hx
        simp only [if_pos, getD_some]
        omega
      · simp [hx, Ne.symm hx]

theorem pinAll_spec : ∀ {slots : List Nat} {w : World}, World.Reachable hcfg w →
    (∀ slot ∈ slots, slot < hcfg.numSlots) → ∃ w', pinAll w slots = .ok w' ∧
      World.Reachable hcfg w' ∧ Repinned w w' ∧
      ∀ x, transfers w'.mgr x = transfers w.mgr x + slots.count x := by
  intro slots
  induction slots with
  | nil => exact fun {w} h _ => ⟨w, rfl, h, .refl w, fun x => by simp⟩
  | cons slot rest ih =>
    intro w h hlt
    obtain ⟨w₁, hpin, hr₁, hsame₁, htr₁⟩ := pin_spec h (hlt slot mem_cons_self)
    obtain ⟨w₂, hall, hr₂, hsame₂, htr₂⟩ := ih hr₁ (forall_mem_cons.mp hlt).2
    refine ⟨w₂, bind_eq_ok.mpr ⟨w₁, hpin, hall⟩, hr₂, hsame₁.trans hsame₂, fun x => ?_⟩
    rw [htr₂, htr₁, add_assoc, ← count_append]
    rfl

/-- The pages of transfers. -/
def pageCount (pairs : List (Nat × Nat)) (page : Nat) : Nat := (pairs.map Prod.fst).count page

/-- The slots of transfers. -/
def pinCount (pairs : List (Nat × Nat)) (slot : Nat) : Nat := (pairs.map Prod.snd).count slot

theorem pageCount_cons (page slot : Nat) (pairs : List (Nat × Nat)) :
    update (pageCount ((page, slot) :: pairs)) page
      (pageCount ((page, slot) :: pairs) page - 1) = pageCount pairs := by
  funext x
  by_cases hx : x = page
  · subst hx
    simp [pageCount]
  · rw [update_of_ne hx]
    simp [pageCount, Ne.symm hx]

variable {scfg : PageStoreConfig} {rid i : Nat} {l : Load} {hits : GroupHits SlotKey}
  {store store' : NativePageStore SlotKey} {pairs pairs' : List (Nat × Nat)}

/-- The references of the store and the pins of the manager are those of some
transfers. -/
structure Books (cfg : Config) (w : World) (store : NativePageStore SlotKey)
    (pairs : List (Nat × Nat)) : Prop where
  store : store.Ok cfg.store (pageCount pairs)
  pins : ∀ x, transfers w.mgr x = pinCount pairs x
  nonzero : ∀ e ∈ pairs, e.2 ≠ 0

theorem Books.perm (h : Books cfg w store pairs) (hp : pairs'.Perm pairs) :
    Books cfg w store pairs' :=
  ⟨h.store.congr (hp.map Prod.fst).count_eq,
    fun x => (h.pins x).trans ((hp.map Prod.snd).count_eq x).symm,
    fun e he => h.nonzero e (hp.subset he)⟩

theorem endAll_spec {finish : NativePageStore SlotKey → Nat → Except Err (NativePageStore SlotKey)}
    (hfinish : ∀ (refs : Nat → Nat) (store : NativePageStore SlotKey) (page : Nat),
      store.Ok cfg.store refs → refs page ≠ 0 → ∃ store', finish store page = .ok store' ∧
        store'.Ok cfg.store (update refs page (refs page - 1)) ∧ SameKeys store store')
    (rest : List (Nat × Nat)) : ∀ {pairs : List (Nat × Nat)} {w : World}
    {store : NativePageStore SlotKey}, World.Reachable cfg.hybrid w →
    Books cfg w store (pairs ++ rest) →
    ∃ w' store', endAll finish w store pairs = .ok (w', store') ∧ World.Reachable cfg.hybrid w' ∧
      Repinned w w' ∧ SameKeys store store' ∧ Books cfg w' store' rest := by
  intro pairs
  induction pairs with
  | nil => exact fun {w store} h hbooks => ⟨w, store, rfl, h, .refl w, .refl store, hbooks⟩
  | cons e pairs ih =>
    obtain ⟨page, slot⟩ := e
    intro w store h hbooks
    obtain ⟨hst, htr, h0⟩ := hbooks
    obtain ⟨store₁, hfin, hst₁, hkeys₁⟩ := hfinish _ store page hst (by simp [pageCount])
    rw [cons_append, pageCount_cons] at hst₁
    obtain ⟨w₁, hunpin, hr₁, hsame₁, htr₁⟩ := unpin_spec h (h0 _ mem_cons_self) (by
      rw [htr]
      simp [pinCount])
    obtain ⟨w₂, store₂, hall, hr₂, hsame₂, hkeys₂, hbooks₂⟩ := ih hr₁ ⟨hst₁, fun x => by
      have h1 := htr₁ x
      have h2 := htr x
      simp only [pinCount, cons_append, map_cons, count_cons, count_nil] at h1 h2 ⊢
      omega, (forall_mem_cons.mp h0).2⟩
    exact ⟨w₂, store₂, bind_eq_ok.mpr ⟨store₁, hfin, bind_eq_ok.mpr
      ⟨w₁, hunpin, hall⟩⟩, hr₂, hsame₁.trans hsame₂, hkeys₁.trans hkeys₂, hbooks₂⟩

/-! ## Steps of the callers -/

/-- What a step of the callers means for the transfers. -/
structure Called (hcfg : HybridConfig) (w : World) (op : Op) (w' : World) : Prop where
  transfers : ∀ x, transfers w'.mgr x = transfers w.mgr x
  /-- A pinned slot keeps its identity. -/
  named : ∀ x key, 0 < TokenSim.transfers w.mgr x → (w.mgr.pool.blocks x).blockHash = some key →
    (w'.mgr.pool.blocks x).blockHash = some key
  /-- A pinned slot that nobody else knows stays so. -/
  unknown : ∀ x, 0 < TokenSim.transfers w.mgr x → (w.mgr.pool.blocks x).blockHash = none →
    occurrences w.mgr x = 0 →
    (w'.mgr.pool.blocks x).blockHash = none ∧ occurrences w'.mgr x = 0
  /-- A load that does not end goes on, or its request is released and nobody knows
  its targets any more. -/
  loading : ∀ rid targets boundary, w.phase rid = .loading targets boundary →
    op ≠ .finishImport rid → w'.phase rid = .loading targets boundary ∨ op = .release rid ∧ ∀ t ∈ targets,
      (w'.mgr.pool.blocks t.slot).blockHash = none ∧ occurrences w'.mgr t.slot = 0
  published : ∃ log, w'.mgr.published = w.mgr.published ++ log ∧ ∀ e ∈ log,
    (w'.mgr.pool.blocks e.slot).blockHash = some e.key ∧ 0 < e.slot ∧ e.slot < hcfg.numSlots

section Subject

variable (h : WorldOk hcfg leak w) (hs : Steps hcfg leak w op w') (hsub : op.subject = some rid)
include h hs hsub

theorem loading_of_steps {targets : List Destination} {boundary : Nat}
    (hload : w.phase rid = .loading targets boundary) (hne : op ≠ .finishImport rid) :
    w'.phase rid = .loading targets boundary ∨ op = .release rid ∧ ∀ t ∈ targets,
      (w'.mgr.pool.blocks t.slot).blockHash = none ∧ occurrences w'.mgr t.slot = 0 := by
  have hspares := (hs.spares h hsub).1
  cases hs with
  | finishImport => cases hsub; exact absurd rfl hne
  | pin | unpin => cases hsub
  | plan | advance | generate | cacheComputed =>
    cases hsub
    exact .inl ((put_phase_self ..).trans hload)
  | @release _ m' _ releases =>
    cases hsub
    have hprivate := h.loading rid targets boundary hload
    refine .inr ⟨rfl, fun t ht => ⟨?_, ?_⟩⟩
    · exact (releases.sameMap.blockHash t.slot).trans (hprivate.unnamed t ht)
    · -- the only occurrence is in the tables that are given up
      have hown := (hprivate.counts h.inv ht).1
      have hsole := hprivate.sole t ht
      have hcount := hspares.occurrences t.slot
      have hgone : ownCount m' rid t.slot = 0 := by
        rw [ownCount, releases.tables, h.ids, get?_erase_self]
        rfl
      rw [put_mgr] at hcount ⊢
      omega
  | allocate phase | start phase | beginImport phase | ensureSlots phase =>
    cases hsub
    rw [phase] at hload
    cases hload

theorem published_of_steps : ∃ log, w'.mgr.published = w.mgr.published ++ log ∧ ∀ e ∈ log,
    (w'.mgr.pool.blocks e.slot).blockHash = some e.key ∧ 0 < e.slot ∧ e.slot < hcfg.numSlots := by
  have hnone : ∀ {w' : World}, w'.mgr.published = w.mgr.published →
      ∃ log, w'.mgr.published = w.mgr.published ++ log ∧ ∀ e ∈ log,
        (w'.mgr.pool.blocks e.slot).blockHash = some e.key ∧ 0 < e.slot ∧ e.slot < hcfg.numSlots :=
    fun heq => ⟨[], by rw [heq, append_nil], fun e he => absurd he not_mem_nil⟩
  cases hs with
  | @cacheComputed rid _ _ _ _ tables _ _ known _ publishes =>
    obtain ⟨log, hlog, hall, -⟩ := publishes.published
    refine ⟨log, hlog, fun e he => ?_⟩
    obtain ⟨-, hkey, -, g, -, -, ⟨hg, hi⟩, -⟩ := hall e he
    have hpos := h.inv.tablesCount_pos known hg hi
    have hle := ownCount_le_occurrences w.mgr rid e.slot
    rw [ownCount_of_get? known] at hle
    refine ⟨hkey, Nat.pos_of_ne_zero fun h0 => ?_, h.inv.pool.owed e.slot ?_⟩
    · rw [h0] at hpos hle
      have hnull := h.inv.null
      omega
    · unfold references
      omega
  | allocate _ admits => exact hnone admits.published
  | beginImport _ _ _ _ _ imports => exact hnone imports.records.published
  | finishImport _ finishes => exact hnone finishes.published
  | ensureSlots _ ensures => exact hnone ensures.records.published
  | release releases => exact hnone releases.published
  | pin | unpin => cases hsub
  | _ => exact hnone rfl

theorem called_of_steps : Called hcfg w op w' := by
  obtain ⟨hspares, hothers⟩ := hs.spares h hsub
  have hpinned : ∀ {x}, 0 < transfers w.mgr x → ownCount w.mgr rid x < references w.mgr x := by
    intro x hpin
    have hle := ownCount_le_occurrences w.mgr rid x
    unfold references
    omega
  refine ⟨fun x => ?_, fun x key hpin hname => ?_, fun x hpin hname hx => ?_,
    fun i targets boundary hload hne => ?_, published_of_steps h hs hsub⟩
  · unfold transfers
    rw [hspares.transferReferences]
  · have hcached := (h.inv.pool.map.cached_iff x).mpr (by rw [hname]; simp)
    exact (hspares.cached x (hpinned hpin) hcached).2.trans hname
  · have hle := ownCount_le_occurrences w.mgr rid x
    obtain ⟨hown, hname'⟩ := hspares.unnamed x (by omega) (by unfold references; omega) hname
    have hcount := hspares.occurrences x
    exact ⟨hname', by omega⟩
  · by_cases hi : i = rid
    · subst hi
      exact loading_of_steps h hs hsub hload hne
    · exact .inl ((hothers i hi).2.trans hload)

end Subject

/-! ## The invariant -/

/-- The pages and slots of all transfers that were planned and have not ended. -/
def State.outstanding (s : State) : List (Nat × Nat) :=
  s.loads.flatMap Load.pairs ++ (s.pendingWrites ++ s.saves.flatten)

/-- A load has its targets to itself: its request is waiting for it, or has been
cancelled and released. -/
def UnderWay (s : State) (l : Load) : Prop :=
  s.world.phase l.requestId = .loading (l.targets.map Prod.fst) l.boundary ∨
    s.cancelRequested l.requestId = true ∧ ∀ t ∈ l.targets.map Prod.fst,
      (s.world.mgr.pool.blocks t.slot).blockHash = none ∧ occurrences s.world.mgr t.slot = 0

structure Sound (cfg : Config) (s : State) : Prop where
  reachable : World.Reachable cfg.hybrid s.world
  books : Books cfg s.world s.store s.outstanding
  /-- A slot that is being written out holds the page. -/
  writes : ∀ e ∈ s.pendingWrites ++ s.saves.flatten, ∃ page, s.store.heap e.1 = some page ∧
    (s.world.mgr.pool.blocks e.2).blockHash = some page.key
  loads : ∀ l ∈ s.loads, UnderWay s l
  /-- A request that is not cancelled has one load at most. -/
  distinct : s.loads.Pairwise fun l l' => l.requestId = l'.requestId →
    s.cancelRequested l.requestId = true

variable {s s' : State}

theorem mem_outstanding_of_load (hl : l ∈ s.loads) {e : Destination × Nat}
    (he : e ∈ l.targets) : (e.2, e.1.slot) ∈ s.outstanding := by
  refine mem_append_left _ (mem_flatMap.mpr ⟨l, hl, ?_⟩)
  exact List.mem_map.mpr ⟨e, he, rfl⟩

theorem Sound.pinned (h : Sound cfg s) {e : Nat × Nat} (he : e ∈ s.outstanding) :
    0 < transfers s.world.mgr e.2 := by
  rw [h.books.pins]
  exact count_pos_iff.mpr (List.mem_map.mpr ⟨e, he, rfl⟩)

/-- The targets of a load have no identity while it is under way. -/
theorem Sound.unnamed (h : Sound cfg s) (hl : l ∈ s.loads) {t : Destination}
    (ht : t ∈ l.targets.map Prod.fst) :
    (s.world.mgr.pool.blocks t.slot).blockHash = none ∧ occurrences s.world.mgr t.slot ≤ 1 := by
  rcases h.loads l hl with hphase | ⟨-, hnone⟩
  · obtain ⟨leak, hok⟩ := h.reachable.wellFormed.ok
    have hpriv := hok.loading l.requestId _ l.boundary hphase
    exact ⟨hpriv.unnamed t ht, (hpriv.sole t ht).le⟩
  · obtain ⟨hname, hocc⟩ := hnone t ht
    exact ⟨hname, by omega⟩

theorem UnderWay.repinned (h : UnderWay s l) (hsame : Repinned s.world s'.world)
    (hcancel : s'.cancelRequested = s.cancelRequested) : UnderWay s' l := by
  rcases h with hphase | ⟨hreq, hnone⟩
  · exact .inl (by rw [hsame.phase]; exact hphase)
  · refine .inr ⟨by rw [hcancel]; exact hreq, fun t ht => ?_⟩
    obtain ⟨hname, hocc⟩ := hnone t ht
    exact ⟨(hsame.sameMap.blockHash t.slot).trans hname, (hsame.occurrences t.slot).trans hocc⟩

/-- The invariant after a change of pins and of the store, given the transfers
that are outstanding then. -/
theorem Sound.of_repinned (h : Sound cfg s) (hreach : World.Reachable cfg.hybrid s'.world)
    (hsame : Repinned s.world s'.world) (hkeys : SameKeys s.store s'.store)
    (hcancel : s'.cancelRequested = s.cancelRequested)
    (hbooks : Books cfg s'.world s'.store s'.outstanding)
    (hwrites : ∀ e ∈ s'.pendingWrites ++ s'.saves.flatten,
      e ∈ s.pendingWrites ++ s.saves.flatten ∨ ∃ page, s'.store.heap e.1 = some page ∧
        (s'.world.mgr.pool.blocks e.2).blockHash = some page.key)
    (hloads : s'.loads.Sublist s.loads) : Sound cfg s' where
  reachable := hreach
  books := hbooks
  writes e he := by
    rcases hwrites e he with hold | hnew
    · obtain ⟨page, hpage, hname⟩ := h.writes e hold
      obtain ⟨page', hpage', hkey⟩ := hkeys.key e.1 page hpage
      exact ⟨page', hpage', (hsame.sameMap.blockHash e.2).trans (hname.trans (by rw [hkey]))⟩
    · exact hnew
  loads l hl := (h.loads l (hloads.subset hl)).repinned hsame hcancel
  distinct := by
    rw [hcancel]
    exact h.distinct.sublist hloads

/-! ## Publications -/

theorem pageCount_insert (page slot : Nat) (pairs : List (Nat × Nat)) :
    update (pageCount pairs) page (pageCount pairs page + 1) =
      pageCount ((page, slot) :: pairs) := by
  funext x
  by_cases hx : x = page
  · subst hx
    simp [pageCount]
  · rw [update_of_ne hx]
    simp [pageCount, Ne.symm hx]

theorem pinCount_cons (page slot : Nat) (pairs : List (Nat × Nat)) (x : Nat) :
    pinCount ((page, slot) :: pairs) x = pinCount pairs x + [slot].count x := by
  simp [pinCount, count_cons]

/-- The callback of a publication queues a write and raises nothing. -/
theorem Sound.queueWrite (h : Sound cfg s) {e : Publication}
    (hname : (s.world.mgr.pool.blocks e.slot).blockHash = some e.key) (hpos : 0 < e.slot)
    (hlt : e.slot < cfg.hybrid.numSlots) : ∃ s', s.queueWrite cfg e = .ok s' ∧ Sound cfg s' ∧
      Repinned s.world s'.world := by
  unfold State.queueWrite
  split
  · exact ⟨s, rfl, h, .refl _⟩
  · obtain ⟨store', result, hreserve, hkeys, hnone, hsome⟩ :=
      reserveWrite_spec h.books.store e.key (cfg.groupBytes_pos e.groupId)
    rw [hreserve]
    cases result with
    | none =>
      refine ⟨{ s with store := store' }, rfl, ?_, .refl _⟩
      exact h.of_repinned h.reachable (.refl _) hkeys rfl { h.books with store := hnone rfl }
        (fun _ he => .inl he) (.refl _)
    | some page =>
      obtain ⟨hok, obj, hobj, hkey⟩ := hsome page rfl
      obtain ⟨w', hpin, hreach, hsame, htr⟩ := pin_spec h.reachable hlt
      have hperm : (s.loads.flatMap Load.pairs ++
          ((s.pendingWrites ++ [(page, e.slot)]) ++ s.saves.flatten)).Perm
          ((page, e.slot) :: s.outstanding) := by
        rw [append_assoc, State.outstanding]
        refine (List.Perm.append_left _ perm_middle).trans perm_middle
      refine ⟨{ s with
        store := store', world := w', pendingWrites := s.pendingWrites ++ [(page, e.slot)] },
        ?_, ?_, hsame⟩
      · show Except.bind (pin s.world e.slot) _ = _
        rw [hpin]
        rfl
      · rw [pageCount_insert page e.slot] at hok
        have hbooks : Books cfg w' store' ((page, e.slot) :: s.outstanding) :=
          ⟨hok, fun x => by rw [htr, pinCount_cons, h.books.pins],
            forall_mem_cons.mpr ⟨ne_of_gt hpos, h.books.nonzero⟩⟩
        refine h.of_repinned hreach hsame hkeys rfl (hbooks.perm hperm) (fun d hd => ?_) (.refl _)
        · rcases mem_append.mp hd with hd | hd
          · rcases mem_append.mp hd with hd | hd
            · exact .inl (mem_append_left _ hd)
            · cases mem_singleton.mp hd
              refine .inr ⟨obj, hobj, ?_⟩
              rw [hkey]
              exact (hsame.sameMap.blockHash e.slot).trans hname
          · exact .inl (mem_append_right _ hd)

theorem Sound.queueWrites : ∀ {log : List Publication} {s : State}, Sound cfg s →
    (∀ e ∈ log, (s.world.mgr.pool.blocks e.slot).blockHash = some e.key ∧ 0 < e.slot ∧
      e.slot < cfg.hybrid.numSlots) → ∃ s', s.queueWrites cfg log = .ok s' ∧ Sound cfg s' := by
  intro log
  induction log with
  | nil => exact fun {s} h _ => ⟨s, rfl, h⟩
  | cons e rest ih =>
    intro s h hall
    obtain ⟨hname, hpos, hlt⟩ := hall e mem_cons_self
    obtain ⟨s₁, hs₁, hsound₁, hsame⟩ := h.queueWrite hname hpos hlt
    obtain ⟨s₂, hs₂, hsound₂⟩ := ih hsound₁ fun d hd => by
      obtain ⟨hname, hpos, hlt⟩ := hall d (mem_cons_of_mem _ hd)
      exact ⟨(hsame.sameMap.blockHash d.slot).trans hname, hpos, hlt⟩
    exact ⟨s₂, bind_eq_ok.mpr ⟨s₁, hs₁, hs₂⟩, hsound₂⟩

/-- A step of the world that ends no load keeps the invariant. -/
theorem Sound.called (h : Sound cfg s) (hreach : World.Reachable cfg.hybrid w')
    (hcalled : Called cfg.hybrid s.world op w') (hop : ∀ rid, op ≠ .finishImport rid)
    (hrelease : ∀ rid targets boundary, op = .release rid →
      s.world.phase rid = .loading targets boundary → s.cancelRequested rid = true) :
    Sound cfg { s with world := w' } where
  reachable := hreach
  books := { h.books with pins := fun x => (hcalled.transfers x).trans (h.books.pins x) }
  writes e he := by
    obtain ⟨page, hpage, hname⟩ := h.writes e he
    exact ⟨page, hpage, hcalled.named e.2 page.key (h.pinned (mem_append_right _ he)) hname⟩
  loads l hl := by
    rcases h.loads l hl with hphase | ⟨hreq, hnone⟩
    · rcases hcalled.loading _ _ _ hphase (hop _) with hstill | ⟨hrel, hnone⟩
      · exact .inl hstill
      · exact .inr ⟨hrelease _ _ _ hrel hphase, hnone⟩
    · refine .inr ⟨hreq, fun t ht => ?_⟩
      obtain ⟨hname, hocc⟩ := hnone t ht
      obtain ⟨e, he, rfl⟩ := List.mem_map.mp ht
      exact hcalled.unknown e.1.slot (h.pinned (mem_outstanding_of_load hl he)) hname hocc
  distinct := h.distinct

theorem Sound.call (h : Sound cfg s) (hpermit : s.permits op = true)
    (hw : World.step cfg.hybrid s.world op = some w') :
    ∃ s', State.queueWrites cfg { s with world := w' }
      (w'.mgr.published.drop s.world.mgr.published.length) = .ok s' ∧ Sound cfg s' := by
  obtain ⟨leak, hok⟩ := h.reachable.wellFormed.ok
  obtain ⟨rid, hsub⟩ : ∃ rid, op.subject = some rid := by
    cases op with
    | pin | unpin => cases hpermit
    | _ => exact ⟨_, rfl⟩
  have hcalled := called_of_steps hok (step_cases hok hw) hsub
  have hsound : Sound cfg { s with world := w' } := by
    refine h.called (h.reachable.step hw) hcalled (fun rid he => ?_) fun rid targets boundary he hp => ?_
    · rw [he] at hpermit
      cases hpermit
    · rw [he] at hpermit
      simp only [State.permits, hp] at hpermit
      exact hpermit
  obtain ⟨log, hlog, hall⟩ := hcalled.published
  have hdrop : w'.mgr.published.drop s.world.mgr.published.length = log := by
    rw [hlog, drop_left]
  rw [hdrop]
  exact hsound.queueWrites hall

/-! ## Loads -/

theorem acquireAll_spec : ∀ {pages : List Nat} {refs : Nat → Nat}
    {store : NativePageStore SlotKey}, store.Ok scfg refs →
    (∀ page ∈ pages, ∃ key, store.pages.get? key = some page ∧ store.readable key = true) →
    ∃ store', acquireAll store pages = .ok store' ∧
      store'.Ok scfg (fun page => refs page + pages.count page) ∧ SameKeys store store' := by
  intro pages
  induction pages with
  | nil => exact fun {refs store} h _ => ⟨store, rfl, h, .refl _⟩
  | cons page rest ih =>
    intro refs store h hall
    obtain ⟨key, hget, hready⟩ := hall page mem_cons_self
    obtain ⟨store₁, hacq, hok₁, hkeys₁, hpages₁, hready₁⟩ := acquire_spec h hget hready
    obtain ⟨store₂, hall₂, hok₂, hkeys₂⟩ := ih hok₁ fun p hp => by
      obtain ⟨k, hk, hr⟩ := hall p (mem_cons_of_mem _ hp)
      exact ⟨k, by rw [hpages₁]; exact hk, by rw [hready₁]; exact hr⟩
    refine ⟨store₂, bind_eq_ok.mpr ⟨store₁, hacq, hall₂⟩, hok₂.congr fun p => ?_,
      hkeys₁.trans hkeys₂⟩
    by_cases hp : p = page
    · subst hp
      simp only [update_self, count_cons_self]
      omega
    · rw [update_of_ne hp, count_cons_of_ne (Ne.symm hp)]

theorem releaseAll_spec {refs : Nat → Nat} : ∀ {pages : List Nat} {store : NativePageStore SlotKey},
    store.Ok scfg (fun page => refs page + pages.count page) →
    ∃ store', releaseAll store pages = .ok store' ∧ store'.Ok scfg refs ∧
      SameKeys store store' := by
  intro pages
  induction pages with
  | nil => exact fun {store} h => ⟨store, rfl, h, .refl _⟩
  | cons page rest ih =>
    intro store h
    obtain ⟨store₁, hrel, hok₁, hkeys₁⟩ := release_spec (a := page) h (by simp)
    obtain ⟨store₂, hall₂, hok₂, hkeys₂⟩ := ih (hok₁.congr fun p => by
      by_cases hp : p = page
      · subst hp
        simp only [update_self, count_cons_self]
        omega
      · rw [update_of_ne hp, count_cons_of_ne (Ne.symm hp)])
    exact ⟨store₂, bind_eq_ok.mpr ⟨store₁, hrel, hall₂⟩, hok₂, hkeys₁.trans hkeys₂⟩

theorem length_targets {r : Request} {lookup : SlotKey → Bool} {hit boundary : Nat}
    {targets : List Destination} (hinv : Inv hcfg leak m)
    (hplan : planExternalReuse hcfg r lookup hit = .ok (boundary, hits)) (hne : hits ≠ [])
    (h : m.allocateExternalDestinations hcfg r hits = .ok (m', targets)) (s : State) :
    targets.length = (s.pagesOf hits).length := by
  obtain ⟨blocks, -, -, -, hhits⟩ := planExternalReuse_spec hplan hne
  obtain ⟨pairs, rfl, hall⟩ := hhits.listed
  obtain ⟨_, _, himports⟩ := allocateExternalDestinations_spec hinv
    (fun g hg => (hall g hg).1 ▸ nodup_externalPages ..) h
  have hlength := congrArg List.length himports.listed
  simpa [State.pagesOf, importPages, length_flatMap, Function.comp_def] using hlength

theorem readable_of_probe {r : Request} {hit boundary : Nat}
    (hplan : planExternalReuse cfg.hybrid r s.store.readable hit = .ok (boundary, hits))
    (hne : hits ≠ []) : ∀ page ∈ s.pagesOf hits,
      ∃ key, s.store.pages.get? key = some page ∧ s.store.readable key = true := by
  obtain ⟨blocks, -, -, -, hhits⟩ := planExternalReuse_spec hplan hne
  obtain ⟨pairs, rfl, hall⟩ := hhits.listed
  intro page hpage
  obtain ⟨e, he, hpage⟩ := mem_flatMap.mp hpage
  obtain ⟨g, hg, rfl⟩ := List.mem_map.mp he
  obtain ⟨pair, hpair, rfl⟩ := List.mem_map.mp hpage
  obtain ⟨key, -, hfound⟩ := (hall g hg).2 pair hpair
  dsimp only at hfound
  split at hfound
  · rename_i hready
    cases hfound
    have hsome : ∃ a, s.store.pages.get? pair.2 = some a := by
      cases hget : s.store.pages.get? pair.2 with
      | none => simp [NativePageStore.readable, NativePageStore.page?, hget] at hready
      | some a => exact ⟨a, rfl⟩
    obtain ⟨a, ha⟩ := hsome
    exact ⟨pair.2, by rw [ha]; rfl, hready⟩
  · cases hfound

theorem Sound.beginLoad (h : Sound cfg s) {hit boundary : Nat}
    (hphase : s.world.phase rid = .admitted hit)
    (hplan : planExternalReuse cfg.hybrid (s.world.reqs rid) s.store.readable hit =
      .ok (boundary, hits)) (hne : hits ≠ []) :
    ∃ s', s.beginLoad cfg rid boundary hits = .ok s' ∧ Sound cfg s' := by
  obtain ⟨store₁, hacq, hok₁, hkeys₁⟩ :=
    acquireAll_spec h.books.store (readable_of_probe hplan hne)
  unfold State.beginLoad
  dsimp only
  cases hdest : s.world.mgr.allocateExternalDestinations cfg.hybrid (s.world.reqs rid) hits with
  | error err =>
    obtain ⟨store₂, hrel, hok₂, hkeys₂⟩ := releaseAll_spec hok₁
    refine ⟨{ s with store := store₂ }, bind_eq_ok.mpr ⟨store₁, hacq,
      bind_eq_ok.mpr ⟨store₂, hrel, rfl⟩⟩, ?_⟩
    exact h.of_repinned h.reachable (.refl _) (hkeys₁.trans hkeys₂) rfl
      { h.books with store := hok₂ } (fun _ he => .inl he) (.refl _)
  | ok result =>
    obtain ⟨m', targets⟩ := result
    -- the destinations are those of an import of the callers' world
    have hstep : World.step cfg.hybrid s.world (.beginImport rid s.store.readable) =
        some (s.world.put m' rid (s.world.reqs rid) (.loading targets boundary)) := by
      simp only [World.step, hphase, hplan]
      refine (if_neg hne).trans ?_
      rw [hdest]
      rfl
    have hreach := h.reachable.step hstep
    obtain ⟨leak, hok⟩ := h.reachable.wellFormed.ok
    have hsteps := step_cases hok hstep
    obtain ⟨leak', hok', -⟩ := hsteps.worldOk hok
    have hmid := h.called hreach (called_of_steps hok hsteps rfl) (by rintro _ ⟨⟩)
      (by rintro _ _ _ ⟨⟩)
    have hpriv := hok'.loading rid targets boundary (put_phase_self ..)
    have hslot : ∀ t ∈ targets, t.slot ≠ 0 ∧ t.slot < cfg.hybrid.numSlots := by
      intro t ht
      have hone := hpriv.sole t ht
      refine ⟨fun h0 => ?_, hok'.inv.pool.owed t.slot ?_⟩
      · rw [h0, hok'.inv.null] at hone
        cases hone
      · unfold references
        omega
    obtain ⟨w', hpin, hreach', hsame, htr⟩ := pinAll_spec hreach
      (fun x (hx : x ∈ targets.map Destination.slot) => by
        obtain ⟨t, ht, rfl⟩ := List.mem_map.mp hx
        exact (hslot t ht).2)
    have hlen := length_targets hok.inv hplan hne hdest s
    have hfst : (targets.zip (s.pagesOf hits)).map Prod.fst = targets :=
      map_fst_zip hlen.le
    let load : Load := ⟨rid, targets.zip (s.pagesOf hits), boundary⟩
    have hpages : load.pairs.map Prod.fst = s.pagesOf hits := by
      rw [Load.pairs, List.map_map]
      exact map_snd_zip hlen.ge
    have hslots : load.pairs.map Prod.snd = targets.map Destination.slot := by
      rw [Load.pairs, List.map_map, ← hfst, List.map_map]
      rfl
    refine ⟨{ s with store := store₁, world := w', loads := s.loads ++ [load] },
      bind_eq_ok.mpr ⟨store₁, hacq, bind_eq_ok.mpr ⟨w', hpin, rfl⟩⟩, ?_⟩
    have hperm : ((s.loads ++ [load]).flatMap Load.pairs ++
        (s.pendingWrites ++ s.saves.flatten)).Perm (load.pairs ++ s.outstanding) := by
      rw [flatMap_append, flatMap_singleton, append_assoc, State.outstanding]
      exact perm_append_comm_assoc _ _ _
    have hbooks : Books cfg w' store₁ (load.pairs ++ s.outstanding) := by
      refine ⟨hok₁.congr fun x => ?_, fun x => ?_, fun e he => ?_⟩
      · rw [pageCount, map_append, count_append, hpages, add_comm]
        rfl
      · rw [htr, hmid.books.pins, pinCount, pinCount, map_append, count_append, hslots, add_comm]
        rfl
      · rcases mem_append.mp he with he | he
        · have hmem : e.2 ∈ targets.map Destination.slot := by
            rw [← hslots]
            exact List.mem_map.mpr ⟨e, he, rfl⟩
          obtain ⟨t, ht, he⟩ := List.mem_map.mp hmem
          rw [← he]
          exact (hslot t ht).1
        · exact h.books.nonzero e he
    refine ⟨hreach', hbooks.perm hperm, ?_, ?_, ?_⟩
    · intro e he
      obtain ⟨page, hpage, hname⟩ := hmid.writes e he
      obtain ⟨page', hpage', hkey⟩ := hkeys₁.key e.1 page hpage
      exact ⟨page', hpage', (hsame.sameMap.blockHash e.2).trans (hname.trans (by rw [hkey]))⟩
    · intro l hl
      rcases mem_append.mp hl with hl | hl
      · exact (hmid.loads l hl).repinned hsame rfl
      · cases mem_singleton.mp hl
        left
        show w'.phase rid = .loading ((targets.zip (s.pagesOf hits)).map Prod.fst) boundary
        rw [hsame.phase, hfst]
        exact put_phase_self ..
    · refine pairwise_append.mpr ⟨h.distinct, pairwise_singleton _ _, fun l hl l' hl' => ?_⟩
      cases mem_singleton.mp hl'
      intro he
      rcases h.loads l hl with hp | ⟨hreq, -⟩
      · rw [he, hphase] at hp
        cases hp
      · exact hreq

theorem cons_eraseIdx_perm {α : Type} {xs : List α} {a : α} (h : xs[i]? = some a) :
    (a :: xs.eraseIdx i).Perm xs := by
  obtain ⟨hi, rfl⟩ := List.getElem?_eq_some_iff.mp h
  exact getElem_cons_eraseIdx_perm hi

/-- The end of a load publishes its targets or nothing; the other loads go on. -/
theorem Sound.finishLoad (h : Sound cfg s) (hl : s.loads[i]? = some l) :
    World.Reachable cfg.hybrid (s.finishLoad cfg l) ∧
      (∀ x, transfers (s.finishLoad cfg l).mgr x = transfers s.world.mgr x) ∧
      (∀ e ∈ s.outstanding, ∀ key, (s.world.mgr.pool.blocks e.2).blockHash = some key →
        ((s.finishLoad cfg l).mgr.pool.blocks e.2).blockHash = some key) ∧
      (∀ l' ∈ s.loads.eraseIdx i, UnderWay { s with world := s.finishLoad cfg l } l') ∧
      (s.cancelRequested l.requestId = true → s.finishLoad cfg l = s.world) := by
  have hperm := cons_eraseIdx_perm hl
  have hmem : l ∈ s.loads := hperm.subset mem_cons_self
  unfold State.finishLoad
  split
  · rename_i hcond
    obtain ⟨hreq, -⟩ := hcond
    have hphase : s.world.phase l.requestId = .loading (l.targets.map Prod.fst) l.boundary := by
      rcases h.loads l hmem with hp | ⟨hcancel, -⟩
      · exact hp
      · rw [hreq] at hcancel
        cases hcancel
    obtain ⟨w', hstep, hw'⟩ : ∃ w', World.step cfg.hybrid s.world (.finishImport l.requestId) =
        some w' ∧ w' = s.world.put (s.world.mgr.finishExternalImport cfg.hybrid
          (s.world.reqs l.requestId) (l.targets.map Prod.fst) l.boundary) l.requestId
          ((s.world.reqs l.requestId).startContextBuild l.boundary) (.active .imported
            ((s.world.reqs l.requestId).startContextBuild l.boundary).numComputedTokens
            l.boundary) := by
      refine ⟨_, ?_, rfl⟩
      simp only [World.step, hphase]
    dsimp only
    rw [← hw']
    obtain ⟨leak, hok⟩ := h.reachable.wellFormed.ok
    have hcalled := called_of_steps hok (step_cases hok hstep) rfl
    refine ⟨h.reachable.step hstep, hcalled.transfers,
      fun e he key hname => hcalled.named e.2 key (h.pinned he) hname, fun l' hl' => ?_,
      fun he => ?_⟩
    · have hmem' : l' ∈ s.loads := hperm.subset (mem_cons_of_mem _ hl')
      rcases h.loads l' hmem' with hp | ⟨hcancel, hnone⟩
      · -- another load of this request would belong to a cancelled one
        have hne : l.requestId ≠ l'.requestId := by
          intro he
          have hpair := hperm.symm.pairwise h.distinct fun {a b} hab hba =>
            hba ▸ hab hba.symm
          have := (pairwise_cons.mp hpair).1 l' hl' he
          rw [hreq] at this
          cases this
        refine (hcalled.loading _ _ _ hp fun he => ?_).imp id (by rintro ⟨⟨⟩, _⟩)
        exact hne (Op.finishImport.inj he)
      · refine .inr ⟨hcancel, fun t ht => ?_⟩
        obtain ⟨hname, hocc⟩ := hnone t ht
        obtain ⟨e, he, rfl⟩ := List.mem_map.mp ht
        exact hcalled.unknown e.1.slot (h.pinned (mem_outstanding_of_load hmem' he)) hname hocc
    · rw [hreq] at he
      cases he
  · exact ⟨h.reachable, fun _ => rfl, fun _ _ _ hname => hname,
      fun l' hl' => h.loads l' (hperm.subset (mem_cons_of_mem _ hl')), fun _ => rfl⟩

theorem Sound.loadDone (h : Sound cfg s) (hl : s.loads[i]? = some l) :
    ∃ s', s.loadDone cfg i l = .ok s' ∧ Sound cfg s' ∧
      (s.cancelRequested l.requestId = true → Repinned s.world s'.world) := by
  obtain ⟨hreach, htr, hnamed, hothers, hcancelled⟩ := h.finishLoad hl
  have hperm := cons_eraseIdx_perm hl
  have hout : (l.pairs ++ ((s.loads.eraseIdx i).flatMap Load.pairs ++
      (s.pendingWrites ++ s.saves.flatten))).Perm s.outstanding := by
    rw [← append_assoc]
    exact (hperm.flatMap_right Load.pairs).append_right _
  have hbooks : Books cfg (s.finishLoad cfg l) s.store s.outstanding :=
    { h.books with pins := fun x => (htr x).trans (h.books.pins x) }
  obtain ⟨w', store', hend, hreach', hsame, hkeys, hbooks'⟩ := endAll_spec
    (fun _ _ _ => release_spec) _ hreach (hbooks.perm hout)
  refine ⟨_, bind_eq_ok.mpr ⟨(w', store'), hend, rfl⟩, ?_, fun hc => ?_⟩
  · refine ⟨hreach', hbooks', ?_, ?_, ?_⟩
    · intro e he
      obtain ⟨page, hpage, hname⟩ := h.writes e he
      obtain ⟨page', hpage', hkey⟩ := hkeys.key e.1 page hpage
      have hname' := hnamed e (mem_append_right _ he) page.key hname
      exact ⟨page', hpage', (hsame.sameMap.blockHash e.2).trans (hname'.trans (by rw [hkey]))⟩
    · exact fun l' hl' => (hothers l' hl').repinned hsame rfl
    · exact h.distinct.sublist (eraseIdx_sublist ..)
  · rw [hcancelled hc] at hsame
    exact hsame

/-! ## Saves -/

theorem Sound.saveDone (h : Sound cfg s) {batch : List (Nat × Nat)}
    (hb : s.saves[i]? = some batch) : ∃ s', s.saveDone i batch = .ok s' ∧ Sound cfg s' := by
  have hperm := cons_eraseIdx_perm hb
  have hwrites : (batch ++ (s.pendingWrites ++ (s.saves.eraseIdx i).flatten)).Perm
      (s.pendingWrites ++ s.saves.flatten) :=
    perm_append_comm_assoc _ _ _ |>.trans (hperm.flatten.append_left _)
  have hout : (batch ++ (s.loads.flatMap Load.pairs ++
      (s.pendingWrites ++ (s.saves.eraseIdx i).flatten))).Perm s.outstanding :=
    (perm_append_comm_assoc _ _ _).trans (hwrites.append_left _)
  obtain ⟨w', store', hend, hreach', hsame, hkeys, hbooks⟩ := endAll_spec
    (fun _ _ _ => finishWrite_spec) _ h.reachable (h.books.perm hout)
  refine ⟨_, bind_eq_ok.mpr ⟨(w', store'), hend, rfl⟩, ?_⟩
  exact h.of_repinned hreach' hsame hkeys rfl hbooks
    (fun e he => .inl (hwrites.subset (mem_append_right _ he))) (.refl _)

theorem Sound.waitForSave (h : Sound cfg s) : Sound cfg s.waitForSave := by
  unfold State.waitForSave
  split
  · exact h
  · have hwrites : ([] ++ (s.saves ++ [s.pendingWrites]).flatten).Perm
        (s.pendingWrites ++ s.saves.flatten) := by
      simp only [nil_append, flatten_append, flatten_singleton]
      exact perm_append_comm
    exact h.of_repinned h.reachable (.refl _) (.refl _) rfl (h.books.perm (hwrites.append_left _))
      (fun e he => .inl (hwrites.subset he)) (.refl _)

theorem Sound.requestCancel (h : Sound cfg s) (rid : Nat) :
    Sound cfg { s with cancelRequested := update s.cancelRequested rid true } := by
  have hmono : ∀ i, s.cancelRequested i = true →
      update s.cancelRequested rid true i = true := by
    intro i hi
    by_cases he : i = rid
    · rw [he, update_self]
    · rwa [update_of_ne he]
  exact { h with
    loads := fun l hl => (h.loads l hl).imp id fun hc => ⟨hmono _ hc.1, hc.2⟩
    distinct := h.distinct.imp fun hd he => hmono _ (hd he) }

/-! ## Runs -/

/-- No event raises, and every event keeps the invariant. -/
theorem Sound.perform (h : Sound cfg s) (e : Event) {result : Except Err State}
    (hr : s.perform cfg e = some result) : ∃ s', result = .ok s' ∧ Sound cfg s' := by
  cases e with
  | call op =>
    simp only [State.perform] at hr
    split at hr
    · rename_i hpermit
      obtain ⟨w', hw, rfl⟩ := map_eq_some_iff.mp hr
      exact h.call hpermit hw
    · cases hr
  | lookup key =>
    cases hr
    refine ⟨_, rfl, ?_⟩
    have hheap : (s.store.lookup key).1.heap = s.store.heap := by
      unfold NativePageStore.lookup
      split <;> rfl
    exact h.of_repinned h.reachable (.refl _)
      ⟨fun a page hp => ⟨page, (congrFun hheap a).trans hp, rfl⟩⟩ rfl
      { h.books with store := h.books.store.lookup key } (fun _ he => .inl he) (.refl _)
  | beginLoad rid =>
    simp only [State.perform] at hr
    split at hr
    · rename_i hit hphase
      split at hr
      · cases hr
      · split at hr
        · cases hr
        · rename_i boundary hits hplan
          split at hr
          · cases hr
          · rename_i hne
            cases hr
            exact h.beginLoad hphase hplan hne
    · cases hr
  | loadDone i =>
    obtain ⟨l, hl, rfl⟩ := map_eq_some_iff.mp hr
    obtain ⟨s', hs', hsound, -⟩ := h.loadDone hl
    exact ⟨s', hs', hsound⟩
  | waitForSave =>
    cases hr
    exact ⟨_, rfl, h.waitForSave⟩
  | saveDone i =>
    obtain ⟨batch, hb, rfl⟩ := map_eq_some_iff.mp hr
    exact h.saveDone hb
  | requestCancel rid =>
    cases hr
    exact ⟨_, rfl, h.requestCancel rid⟩

end TokenSim.AsyncOffload
