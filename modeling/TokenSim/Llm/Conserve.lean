import TokenSim.Llm.StepRules

/-!
# A step conserves its requests

What one step of the scheduler does to its queues.  The loop over the running
requests keeps an order: scheduled requests arrived before those that are still
queued, and those before the preempted ones (`Ordered`).  The loop of admissions
moves requests from the waiting queues to the running one or to the loading
ones, each counted once (`census`).

Requests change while they are moved, but not their id and arrival; `tag` is the
two of them.
-/

namespace TokenSim

open List

namespace StepConfig

variable {β : Type} {cfg : StepConfig} {cache : Cache β}
  {s s' : PagedScheduler β} {step step' : StepState}

def tag (r : Request) : Nat × Rat := (r.id, r.arrivalAt)

/-- Ids of requests. -/
def ids (l : List Request) : List Nat := l.map Request.id

theorem ids_eq_of_tags {l l' : List Request} (h : (l.map tag).Perm (l'.map tag)) :
    (ids l).Perm (ids l') := by
  have hfst : ∀ l : List Request, ids l = (l.map tag).map Prod.fst := by
    intro l
    simp [ids, tag]
  rw [hfst, hfst]
  exact h.map Prod.fst

@[simp] theorem tag_toRecompute (r : Request) : tag (toRecompute r) = tag r := rfl

@[simp] theorem tag_assigned (r : Request) (tokens queryTokens : Nat) :
    tag (assigned r tokens queryTokens) = tag r := rfl

/-! ## Running requests -/

/-- The state of the loop over the running requests `all`, when `queue` is left. -/
structure Ordered (all : List Request) (s₀ : PagedScheduler β) (queue : List Request)
    (s : PagedScheduler β) (step : StepState) : Prop where
  perm : ((s.running ++ queue ++ step.preempted).map tag).Perm (all.map tag)
  waiting : s.waiting = step.preempted.reverse ++ s₀.waiting
  loading : s.loading = s₀.loading
  loadedWaiting : s.loadedWaiting = s₀.loadedWaiting
  sorted : ((queue ++ step.preempted.reverse).map tag).Pairwise fun a b => a.2 ≤ b.2
  older : ∀ a ∈ step.scheduled, ∀ b ∈ (queue ++ step.preempted.reverse).map tag, a.arrivalAt ≤ b.2
  scheduled : step.scheduled.Sublist s.running

variable {all : List Request} {s₀ : PagedScheduler β} {r : Request} {queue : List Request}

/-- The head of the queue runs on, scheduled or not. -/
theorem Ordered.run {r' : Request} {l : List Request} (h : Ordered all s₀ (r :: queue) s step)
    (htag : tag r' = tag r) (hl : l.Sublist [r']) (hscheduled : step'.scheduled = step.scheduled ++ l)
    (hpreempted : step'.preempted = step.preempted) (m : β) :
    Ordered all s₀ queue { s with running := s.running ++ [r'], manager := m } step' where
  perm := by
    have hperm := h.perm
    rw [hpreempted]
    simp only [map_append, map_cons, append_assoc, cons_append, nil_append, htag] at hperm ⊢
    exact hperm
  waiting := by
    rw [hpreempted]
    exact h.waiting
  loading := h.loading
  loadedWaiting := h.loadedWaiting
  sorted := by
    rw [hpreempted]
    exact (pairwise_cons.mp h.sorted).2
  older := by
    rw [hscheduled, hpreempted]
    intro a ha b hb
    rcases mem_append.mp ha with ha | ha
    · exact h.older a ha b (mem_cons_of_mem _ hb)
    · rw [mem_singleton.mp (hl.subset ha), show r'.arrivalAt = r.arrivalAt from congrArg Prod.snd htag]
      exact (pairwise_cons.mp h.sorted).1 b hb
  scheduled := by
    rw [hscheduled]
    exact h.scheduled.append hl

/-- The youngest requests of the queue are preempted: the order of what is not
scheduled stays the same. -/
theorem Ordered.preempt {victims : List Request}
    (h : Ordered all s₀ (queue ++ victims.reverse) s step) (hpre : Preempts victims s s') :
    Ordered all s₀ queue s'
      { step with preempted := step.preempted ++ victims.map toRecompute } := by
  have htags : (queue ++ (step.preempted ++ victims.map toRecompute).reverse).map tag =
      (queue ++ victims.reverse ++ step.preempted.reverse).map tag := by
    simp [map_reverse, Function.comp_def]
  refine ⟨?_, ?_, hpre.loading.trans h.loading, hpre.loadedWaiting.trans h.loadedWaiting,
    htags ▸ h.sorted, htags ▸ h.older, hpre.running ▸ h.scheduled⟩
  · rw [hpre.running]
    refine Perm.trans ?_ h.perm
    simp only [map_append, append_assoc, map_map, map_reverse]
    refine Perm.append_left _ (Perm.append_left _ ?_)
    exact perm_append_comm.trans ((reverse_perm _).symm.append_right _)
  · rw [hpre.waiting, h.waiting]
    simp

theorem Ordered.scheduleOne (h : Ordered all s₀ (r :: queue) s step) :
    Ordered all s₀ (cfg.scheduleOne cache r queue.reverse s step).2.2.reverse
      (cfg.scheduleOne cache r queue.reverse s step).1
      (cfg.scheduleOne cache r queue.reverse s step).2.1 := by
  refine scheduleOne_rule cfg cache (Q := fun x => Ordered all s₀ x.2.2.reverse x.1 x.2.1) ?_ ?_ ?_
  · rw [reverse_reverse]
    exact h.run rfl (nil_sublist _) (append_nil _).symm rfl s.manager
  · intro s' victims left m p hqueue hpre _
    have hsplit : r :: queue = (r :: left.reverse) ++ victims.reverse := by
      rw [cons_append, ← reverse_append, ← hqueue, reverse_reverse]
    have hleft := (hsplit ▸ h).preempt hpre
    exact hleft.run (by rfl) (.refl _) (by rfl) (by rfl) m
  · intro s' hpre
    have hall : r :: queue = [] ++ (queue.reverse ++ [r]).reverse := by simp
    exact (hall ▸ h).preempt hpre

/-! ## Admissions -/

/-- How often a request occurs: in the running and the waiting queue, and once
if its external KV is loading or loaded. -/
def census (s : PagedScheduler β) (id : Nat) : Nat :=
  (ids s.running).count id + (ids s.waiting).count id +
    if id ∈ ids s.loading ∨ id ∈ ids s.loadedWaiting then 1 else 0

/-- Every request has one place. -/
structure Distinct (s : PagedScheduler β) : Prop where
  queues : (ids s.running ++ ids s.waiting ++ ids s.loadedWaiting).Nodup
  loading : ∀ id ∈ ids s.waiting, id ∉ ids s.loading

/-- The state of the loop of admissions. -/
structure Admitting (s₀ s : PagedScheduler β) (step : StepState) : Prop where
  census : ∀ id, census s id = census s₀ id
  distinct : Distinct s
  scheduled : step.scheduled.Sublist s.running
  preempted : step.preempted = []
  waiting : ids s.waiting <:+ ids s₀.waiting

@[simp] theorem ids_cons (r : Request) (l : List Request) : ids (r :: l) = r.id :: ids l := rfl

@[simp] theorem ids_append (l l' : List Request) : ids (l ++ l') = ids l ++ ids l' := map_append ..

@[simp] theorem ids_nil : ids [] = [] := rfl

variable {rest : List Request} {r' : Request}

section

variable (h : Admitting s₀ s step) (hwaiting : s.waiting = r :: rest)
include h hwaiting

theorem Admitting.suffix_rest :
    ids rest <:+ ids s₀.waiting := by
  have hsuffix := h.waiting
  rw [hwaiting, ids_cons] at hsuffix
  exact (suffix_cons _ _).trans hsuffix

theorem Admitting.run (hid : r'.id = r.id) (m : β) (inflightPrefills : List Nat)
    (hscheduled : step'.scheduled = step.scheduled ++ [r'])
    (hpreempted : step'.preempted = step.preempted) :
    Admitting s₀ { s with
      manager := m, running := s.running ++ [r'], waiting := rest, inflightPrefills } step' where
  census := by
    intro id
    rw [← h.census id]
    unfold StepConfig.census
    rw [hwaiting]
    simp only [ids_append, ids_cons, ids_nil, count_append, count_cons, count_nil, hid]
    omega
  distinct := by
    have hqueues := h.distinct.queues
    have hdisjoint := h.distinct.loading
    rw [hwaiting] at hqueues hdisjoint
    constructor
    · simp only [ids_append, ids_cons, ids_nil, hid, append_assoc, cons_append,
        nil_append] at hqueues ⊢
      exact hqueues
    · exact (forall_mem_cons.mp hdisjoint).2
  scheduled := by
    rw [hscheduled]
    exact h.scheduled.append (.refl _)
  preempted := hpreempted.trans h.preempted
  waiting := h.suffix_rest hwaiting

theorem Admitting.load (hid : r'.id = r.id) (m : β) (inflightPrefills : List Nat) :
    Admitting s₀ { s with
      manager := m, waiting := rest, loading := s.loading ++ [r'], inflightPrefills } step := by
  have hqueues := h.distinct.queues
  have hdisjoint := h.distinct.loading
  rw [hwaiting] at hqueues hdisjoint
  simp only [ids_cons] at hqueues hdisjoint
  have hnot : r.id ∉ ids s.loading ∧ r.id ∉ ids s.loadedWaiting ∧ r.id ∉ ids rest := by
    refine ⟨hdisjoint r.id mem_cons_self, ?_, ?_⟩
    · intro hmem
      exact (nodup_append.mp hqueues).2.2 r.id (by simp) r.id hmem rfl
    · have hwait := (nodup_append.mp (nodup_append.mp hqueues).1).2.1
      exact (nodup_cons.mp hwait).1
  refine ⟨?_, ⟨?_, ?_⟩, h.scheduled, h.preempted, h.suffix_rest hwaiting⟩
  · intro id
    rw [← h.census id]
    unfold StepConfig.census
    rw [hwaiting]
    simp only [ids_append, ids_cons, ids_nil, count_cons, mem_append, mem_singleton, hid]
    by_cases hr : id = r.id
    · subst hr
      simp [hnot.1, hnot.2.1]
      omega
    · have hr' : r.id ≠ id := fun heq => hr heq.symm
      simp [hr, hr']
  · refine hqueues.sublist ?_
    exact ((List.Sublist.refl _).append (sublist_cons_self _ _)).append (.refl _)
  · intro id hmem hload
    simp only [ids_append, ids_cons, ids_nil, mem_append, mem_singleton, hid] at hload
    rcases hload with hload | rfl
    · exact hdisjoint id (mem_cons_of_mem _ hmem) hload
    · exact hnot.2.2 hmem

end

theorem Admitting.resume (h : Admitting s₀ s step) (hloaded : s.loadedWaiting = r :: rest)
    (hid : r'.id = r.id) (m : β) (hscheduled : step'.scheduled = step.scheduled ++ [r'])
    (hpreempted : step'.preempted = step.preempted) :
    Admitting s₀ { s with
      manager := m, running := s.running ++ [r'], loadedWaiting := rest
      loading := s.loading.filter fun q => decide (q.id ≠ r.id) } step' := by
  have hqueues := h.distinct.queues
  rw [hloaded, ids_cons] at hqueues
  have hnot : r.id ∉ ids rest := (nodup_cons.mp (nodup_append.mp hqueues).2.1).1
  have hfilter : ids (s.loading.filter fun q => decide (q.id ≠ r.id)) =
      (ids s.loading).filter fun id => decide (id ≠ r.id) :=
    (filter_map (f := Request.id) (p := fun id => decide (id ≠ r.id))).symm
  refine ⟨?_, ⟨?_, ?_⟩, ?_, hpreempted.trans h.preempted, h.waiting⟩
  · intro id
    rw [← h.census id]
    unfold StepConfig.census
    rw [hloaded]
    simp only [ids_append, ids_cons, ids_nil, count_append, count_cons, count_nil,
      mem_cons, hfilter, mem_filter, decide_eq_true_eq, hid]
    by_cases hr : id = r.id
    · subst hr
      simp [hnot]
      omega
    · have hr' : r.id ≠ id := fun heq => hr heq.symm
      simp [hr, hr']
  · refine (List.Perm.nodup_iff ?_).mp hqueues
    simp only [ids_append, ids_cons, ids_nil, hid, append_assoc]
    refine List.Perm.append_left _ ?_
    exact perm_middle
  · intro id hmem hload
    exact h.distinct.loading id hmem (mem_of_mem_filter (hfilter ▸ hload))
  · rw [hscheduled]
    exact h.scheduled.append (.refl _)

/-- The admissions keep the requests, whatever they raise. -/
theorem Admitting.scheduleWaiting (h : Admitting s₀ s step) (rounds : Nat) :
    (cfg.scheduleWaiting cache rounds s step).Post (fun x => Admitting s₀ x.1 x.2)
      (fun _ => True) := by
  refine scheduleWaiting_rule ?_ ?_ rounds h
  · intro r rest s step next h _ hloaded hnext
    obtain ⟨m, rfl⟩ := resumeLoaded_eq_some hnext
    exact h.resume hloaded (by rfl) m rfl rfl
  · intro r rest s step h _ hwaiting
    refine admitWaiting_rule hwaiting ?_ ?_ ?_ (fun _ => trivial) (fun _ _ _ _ _ => trivial)
    · exact fun m inflight =>
        ⟨h.census, ⟨h.distinct.queues, h.distinct.loading⟩, h.scheduled, h.preempted, h.waiting⟩
    · intro m r' inflight htakes
      exact h.load hwaiting (Request.id_of_restores htakes.restores) m inflight
    · intro m r' inflight htakes
      have hid := Request.id_of_restores htakes.restores
      exact h.run hwaiting (by exact hid) m inflight rfl rfl

/-! ## The step -/

instance : Std.Total arrivedBefore := ⟨fun _ _ => Rat.le_total⟩

instance : IsTrans Request arrivedBefore := ⟨fun _ _ _ hab hbc => Rat.le_trans hab hbc⟩

theorem pairwise_sorted (l : List Request) :
    ((l.insertionSort arrivedBefore).map tag).Pairwise fun a b => a.2 ≤ b.2 :=
  pairwise_map.mpr (pairwise_insertionSort arrivedBefore l)

theorem Ordered.start (s : PagedScheduler β) (budget : Option Int) :
    Ordered s.running s (s.running.insertionSort arrivedBefore) { s with running := [] }
      ⟨budget, [], [], false, []⟩ where
  perm := by
    simp only [nil_append, append_nil]
    exact (perm_insertionSort _ _).map tag
  waiting := rfl
  loading := rfl
  loadedWaiting := rfl
  sorted := by
    simp only [reverse_nil, append_nil]
    exact pairwise_sorted s.running
  older := fun _ ha => nomatch ha
  scheduled := nil_sublist _

/-- At the end of the loop every running request runs or is preempted. -/
theorem Ordered.ids_perm (h : Ordered all s₀ [] s step) :
    (ids s.running ++ ids step.preempted).Perm (ids all) := by
  have hperm := ids_eq_of_tags h.perm
  simpa using hperm

theorem Ordered.census (h : Ordered s₀.running s₀ [] s step) (id : Nat) :
    census s id = census s₀ id := by
  have hcount := h.ids_perm.count_eq id
  rw [count_append] at hcount
  have hreverse : (ids step.preempted.reverse).count id = (ids step.preempted).count id := by
    rw [ids, map_reverse, count_reverse, ids]
  unfold StepConfig.census
  rw [h.waiting, h.loading, h.loadedWaiting, ids_append, count_append, hreverse]
  omega

/-- With nothing preempted the admissions start. -/
theorem Ordered.admitting (h : Ordered s₀.running s₀ [] s step) (hdistinct : Distinct s₀)
    (hnone : step.preempted = []) :
    Admitting s₀ s { step with scheduledRunning := step.scheduled } where
  census := h.census
  distinct := by
    have hperm := h.ids_perm
    have hwaiting := h.waiting
    rw [hnone] at hperm hwaiting
    simp only [ids_nil, append_nil, reverse_nil, nil_append] at hperm hwaiting
    constructor
    · rw [hwaiting, h.loadedWaiting]
      exact (List.Perm.nodup_iff ((hperm.append_right _).append_right _)).mpr hdistinct.queues
    · rw [hwaiting, h.loading]
      exact hdistinct.loading
  scheduled := h.scheduled
  preempted := hnone
  waiting := by
    rw [h.waiting, hnone]
    exact suffix_rfl

/-- A step conserves the requests.  The scheduled requests are running ones, each
once, and none of them is preempted.  The preempted requests were running, arrived
no earlier than every request that was scheduled, and are put before the waiting
queue in the order of their arrival; then nothing is admitted. -/
theorem schedule_conserves (cfg : StepConfig) (cache : Cache β)
    (s : PagedScheduler β) (hdistinct : Distinct s) (budget : Option Int)
    (s' : PagedScheduler β) (step : StepState)
    (hs : cfg.schedule cache s budget = .ok (s', step)) :
    (∀ id, census s' id = census s id) ∧
    (ids step.scheduled).Nodup ∧ (∀ r ∈ step.scheduled, r ∈ s'.running) ∧
    (∀ r ∈ step.scheduled, r.id ∉ ids step.preempted) ∧
    (∀ p ∈ step.preempted, (∃ r ∈ s.running, r.id = p.id ∧ r.arrivalAt = p.arrivalAt) ∧
      ∀ r ∈ step.scheduled, r.arrivalAt ≤ p.arrivalAt) ∧
    (step.preempted ≠ [] → s'.waiting = step.preempted.reverse ++ s.waiting ∧
      (step.preempted.reverse.Pairwise fun a b => a.arrivalAt ≤ b.arrivalAt) ∧
      s'.loading = s.loading ∧ s'.loadedWaiting = s.loadedWaiting ∧
      ∀ r ∈ s'.running, r.id ∈ ids s.running) ∧
    (step.preempted = [] → ids s'.waiting <:+ ids s.waiting) := by
  have h : (cfg.schedule cache s budget).Post (fun x => Admitting s x.1 x.2 ∨
      Ordered s.running s [] x.1 x.2 ∧ x.2.preempted ≠ []) (fun _ => True) := by
    refine schedule_rule fun s₁ step₁ hloop => ?_
    have hord := scheduleRunning_rule cfg cache (I := Ordered s.running s)
      (fun _ _ _ _ h => h.scheduleOne) _ le_rfl (Ordered.start s budget)
    rw [hloop] at hord
    refine ⟨fun hnone => ?_, fun hsome => .inr ⟨{ hord with }, hsome⟩⟩
    exact ((hord.admitting hdistinct hnone).scheduleWaiting _).mono (fun _ => .inl) (fun _ h => h)
  rw [hs] at h
  rcases h with hadm | ⟨hord, hsome⟩
  · have hnodup : (ids s'.running).Nodup :=
      (nodup_append.mp (nodup_append.mp hadm.distinct.queues).1).1
    have hpre : step.preempted = [] := hadm.preempted
    refine ⟨hadm.census, hnodup.sublist (hadm.scheduled.map _), fun r hr => hadm.scheduled.subset hr,
      ?_, ?_, fun hne => absurd hpre hne, fun _ => hadm.waiting⟩
    · rw [hpre]
      exact fun r _ => not_mem_nil
    · rw [hpre]
      exact fun p hp => nomatch hp
  · have hnodup : (ids s.running).Nodup :=
      (nodup_append.mp (nodup_append.mp hdistinct.queues).1).1
    have hsplit := nodup_append.mp ((List.Perm.nodup_iff hord.ids_perm).mpr hnodup)
    refine ⟨hord.census, hsplit.1.sublist (hord.scheduled.map _),
      fun r hr => hord.scheduled.subset hr, ?_, ?_, fun _ => ⟨hord.waiting, ?_, hord.loading,
        hord.loadedWaiting, ?_⟩, fun hnone => absurd hnone hsome⟩
    · intro r hr hmem
      exact hsplit.2.2 r.id (mem_map_of_mem (hord.scheduled.subset hr)) r.id hmem rfl
    · intro p hp
      have htag : tag p ∈ s.running.map tag := by
        refine hord.perm.subset (mem_map_of_mem ?_)
        exact mem_append_right _ hp
      obtain ⟨r, hr, heq⟩ := mem_map.mp htag
      refine ⟨⟨r, hr, congrArg Prod.fst heq, congrArg Prod.snd heq⟩, fun q hq => ?_⟩
      refine hord.older q hq (tag p) (mem_map_of_mem ?_)
      simpa using hp
    · have hsorted := hord.sorted
      simp only [nil_append] at hsorted
      have hmapped := pairwise_map.mp hsorted
      exact hmapped
    · intro r hr
      exact hord.ids_perm.subset (mem_append_left _ (mem_map_of_mem hr))

/-- A uniform cache whose state is the number of free blocks. -/
def countingCache : Cache Nat where
  asyncOffload := false
  watermarkBlocks := 0
  getNumFreeBlocks m := m
  isOccupyBelowUsage _ := true
  planReuse _ _ := ⟨0, 0, []⟩
  probe _ _ := (0, false)
  canAllocate m _ _ := decide (0 < m)
  canAdmitExternal _ _ _ := false
  allocate m _ := m - 1
  beginLoad m _ _ := m
  getNumNewMatchedTokens m _ _ := (m, 0)
  updateStateAfterAlloc m _ _ := m
  canEnsureSlots _ _ _ _ := true
  ensureSlots m _ _ _ := m
  canAppendSlot m _ := decide (0 < m)
  appendSlot m _ := m - 1
  remainingAdmissionSlots _ _ := 0
  releaseRequestBlocks m _ := m + 1

def plainConfig : StepConfig where
  paged := PagedRun.uniformConfig
  accepted _ := 1
  threshold := 0
  deferPrefills := false
  maxNumSeqs := none

/-- A request that decodes. -/
def decodingRequest (id : Nat) : Request where
  id := id
  prefillLen := 4
  decodeLen := 4
  blockSize := 4
  cacheIdentity := id
  arrivalAt := id
  generationIdx := 1
  numComputedTokens := 4

/-- Two requests decode, no block is free and one request waits. -/
def fullScheduler : PagedScheduler Nat :=
  ⟨[decodingRequest 2, decodingRequest 1], [decodingRequest 3], [], [], [], 0⟩

theorem schedule_conserves_full : ∃ s' step,
    plainConfig.schedule countingCache fullScheduler (some 8) = .ok (s', step) ∧
    ids step.preempted = [2] ∧ s'.waiting = step.preempted.reverse ++ fullScheduler.waiting := by
  have hcheck : (match plainConfig.schedule countingCache fullScheduler (some 8) with
      | .ok result => decide (ids result.2.preempted = [2])
      | .error _ => false) = true := by decide +kernel
  cases hs : plainConfig.schedule countingCache fullScheduler (some 8) with
  | error e =>
    rw [hs] at hcheck
    cases hcheck
  | ok result =>
    rw [hs] at hcheck
    have hpreempted : ids result.2.preempted = [2] := of_decide_eq_true hcheck
    have hdistinct : Distinct fullScheduler := ⟨by decide, by decide⟩
    have hstep := schedule_conserves plainConfig countingCache fullScheduler hdistinct
      (some 8) result.1 result.2 hs
    have hne : result.2.preempted ≠ [] := by
      intro hnil
      rw [hnil] at hpreempted
      cases hpreempted
    exact ⟨result.1, result.2, rfl, hpreempted, (hstep.2.2.2.2.2.1 hne).1⟩

end StepConfig

end TokenSim
