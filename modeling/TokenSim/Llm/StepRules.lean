import TokenSim.Llm.Scheduling

/-!
# What a step can do

Rules for the two loops of `schedule`.  A property of the queues and the step is
shown of a whole loop by what one round does to it: a running request is kept,
gets its tokens or is preempted; a loaded one resumes; a waiting one stays, starts
to load, runs, or its admission raises.
-/

namespace TokenSim

open List

namespace StepConfig

variable {β : Type} {cfg : StepConfig} {cache : Cache β} {s s' : PagedScheduler β}
  {step : StepState} {r : Request}

/-! ## Running requests -/

/-- Only the manager and the waiting queue change, and these requests were put
at the head of the queue one after the other. -/
structure Preempts (victims : List Request) (s s' : PagedScheduler β) : Prop where
  running : s'.running = s.running
  waiting : s'.waiting = (victims.map toRecompute).reverse ++ s.waiting
  loading : s'.loading = s.loading
  loadedWaiting : s'.loadedWaiting = s.loadedWaiting

theorem Preempts.refl (s : PagedScheduler β) : Preempts [] s s := ⟨rfl, rfl, rfl, rfl⟩

theorem preempts_preempt (cache : Cache β) (s : PagedScheduler β) (r : Request) :
    Preempts [r] s (preempt cache s r) := ⟨rfl, rfl, rfl, rfl⟩

theorem Preempts.trans {s'' : PagedScheduler β} {l l' : List Request} (h : Preempts l s s')
    (h' : Preempts l' s' s'') : Preempts (l ++ l') s s'' where
  running := h'.running.trans h.running
  waiting := by
    rw [h'.waiting, h.waiting]
    simp
  loading := h'.loading.trans h.loading
  loadedWaiting := h'.loadedWaiting.trans h.loadedWaiting

/-- Room is made by preempting the youngest requests. -/
theorem makeRoom_spec (cache : Cache β) (room : β → Bool) : ∀ (youngest : List Request)
    (s : PagedScheduler β) (preempted : List Request), ∃ ok s' victims left,
    makeRoom cache room youngest s preempted =
      (ok, s', left, preempted ++ victims.map toRecompute) ∧
    youngest = victims ++ left ∧ Preempts victims s s' ∧ (ok = false → left = []) := by
  intro youngest
  induction youngest with
  | nil =>
    intro s preempted
    unfold makeRoom
    split
    · exact ⟨true, s, [], [], by simp, rfl, .refl s, fun h => nomatch h⟩
    · exact ⟨false, s, [], [], by simp, rfl, .refl s, fun _ => rfl⟩
  | cons victim rest ih =>
    intro s preempted
    unfold makeRoom
    split
    · exact ⟨true, s, [], victim :: rest, by simp, rfl, .refl s, fun h => nomatch h⟩
    · obtain ⟨ok, s', victims, left, heq, hrest, hpre, hleft⟩ :=
        ih (preempt cache s victim) (preempted ++ [toRecompute victim])
      refine ⟨ok, s', victim :: victims, left, ?_, by simp [hrest],
        (preempts_preempt cache s victim).trans hpre, hleft⟩
      dsimp only
      rw [heq]
      simp

/-- The request with the tokens that it gets of a budget. -/
def granted (cfg : StepConfig) (r : Request) (budget : Option Int) : Request :=
  assigned r (cfg.stepTokens r budget) (cfg.paged.queryTokens r (cfg.stepTokens r budget))

/-- A running request is kept without tokens, gets them after the youngest
requests made room, or is preempted with all of those. -/
theorem scheduleOne_rule (cfg : StepConfig) (cache : Cache β) {youngest : List Request}
    {Q : PagedScheduler β × StepState × List Request → Prop}
    (keeps : Q ({ s with running := s.running ++ [r] }, step, youngest))
    (runs : ∀ s' victims left m p, youngest = victims ++ left → Preempts victims s s' →
      cfg.stepTokens r step.budget ≠ 0 →
      Q ({ s' with running := s'.running ++ [granted cfg r step.budget], manager := m },
        { step with
          preempted := step.preempted ++ victims.map toRecompute
          prefillScheduled := p
          budget := spend step.budget (cfg.budgetCost r (cfg.stepTokens r step.budget))
          scheduled := step.scheduled ++ [granted cfg r step.budget] }, left))
    (yields : ∀ s', Preempts (youngest ++ [r]) s s' →
      Q (s', { step with
        preempted := step.preempted ++ (youngest ++ [r]).map toRecompute }, [])) :
    Q (cfg.scheduleOne cache r youngest s step) := by
  unfold scheduleOne
  split
  · exact keeps
  dsimp only
  split
  · exact keeps
  rename_i htokens
  obtain ⟨ok, s', victims, left, heq, hqueue, hpre, hleft⟩ := makeRoom_spec cache
    (cfg.slotTest cache r (cfg.stepTokens r step.budget)
      (cfg.paged.queryTokens r (cfg.stepTokens r step.budget))) youngest s step.preempted
  rw [heq]
  cases ok with
  | true => exact runs s' victims left _ _ hqueue hpre htokens
  | false =>
    have hall : youngest = victims := by rw [hqueue, hleft rfl, append_nil]
    have hyields := yields _ (hall ▸ hpre.trans (preempts_preempt cache s' r))
    rw [hall, map_append, ← append_assoc] at hyields
    rw [hleft rfl]
    exact hyields

theorem scheduleOne_length (cfg : StepConfig) (cache : Cache β) (r : Request)
    (youngest : List Request) (s : PagedScheduler β) (step : StepState) :
    (cfg.scheduleOne cache r youngest s step).2.2.length ≤ youngest.length := by
  refine scheduleOne_rule cfg cache (Q := fun x => x.2.2.length ≤ youngest.length) le_rfl ?_ ?_
  · intro s' victims left m p hqueue _ _
    rw [hqueue, length_append]
    exact Nat.le_add_left _ _
  · exact fun _ _ => Nat.zero_le _

/-- A property of the queue, the scheduler and the step that every round keeps
holds when the queue is empty. -/
theorem scheduleRunning_rule (cfg : StepConfig) (cache : Cache β)
    {I : List Request → PagedScheduler β → StepState → Prop}
    (hround : ∀ r queue s step, I (r :: queue) s step →
      I (cfg.scheduleOne cache r queue.reverse s step).2.2.reverse
        (cfg.scheduleOne cache r queue.reverse s step).1
        (cfg.scheduleOne cache r queue.reverse s step).2.1) :
    ∀ (rounds : Nat) {queue : List Request} {s : PagedScheduler β} {step : StepState},
      queue.length ≤ rounds → I queue s step →
      I [] (cfg.scheduleRunning cache rounds queue s step).1
        (cfg.scheduleRunning cache rounds queue s step).2
  | rounds, [], s, step, _, h => by
    cases rounds <;> exact h
  | 0, _ :: _, _, _, hlength, _ => nomatch hlength
  | rounds + 1, r :: queue, s, step, hlength, h => by
    refine scheduleRunning_rule cfg cache hround rounds ?_ (hround r queue s step h)
    have hshort := scheduleOne_length cfg cache r queue.reverse s step
    rw [length_reverse] at hshort ⊢
    exact hshort.trans (Nat.le_of_succ_le_succ hlength)

/-! ## Admissions -/

variable {rest : List Request} {Q : PagedScheduler β → StepState → Prop} {R : Err → Prop}

/-- A loaded request that resumes gets its tokens. -/
theorem resumeLoaded_eq_some {next : PagedScheduler β × StepState}
    (h : cfg.resumeLoaded cache r rest s step = some next) : ∃ m,
    next = assignWaiting { r with status := .running } (cfg.stepTokens r step.budget)
      (cfg.waitingQuery r (cfg.stepTokens r step.budget) step)
      { s with
        manager := m
        loadedWaiting := rest
        loading := s.loading.filter fun q => decide (q.id ≠ r.id) } step := by
  unfold resumeLoaded at h
  split at h
  · cases h
  generalize (if s.running = [] then 0 else cache.watermarkBlocks) = watermark at h
  dsimp only at h
  split at h
  · cases h
  split at h
  · cases h
  cases h
  exact ⟨_, rfl⟩

/-- The admission of the head of the waiting queue, as this cache answers. -/
abbrev Takes (cfg : StepConfig) (cache : Cache β) (s : PagedScheduler β) (r : Request)
    (loads : Bool) (r' : Request) : Prop :=
  (cache.planReuse s.manager r).Admitted cfg.paged.groupedCache r loads
    (cache.externalTokens s.manager r) r'

/-- The head of the waiting queue stays, starts to load or runs, or its admission
raises: there is no query left in its context, or none in the budget. -/
theorem admitWaiting_rule (hwaiting : s.waiting = r :: rest)
    (stays : ∀ m inflight, Q { s with manager := m, inflightPrefills := inflight } step)
    (loads : ∀ m r' inflight, Takes cfg cache s r true r' →
      Q { s with
        waiting := rest
        manager := m
        loading := s.loading ++ [r']
        inflightPrefills := inflight } step)
    (runs : ∀ m r' inflight, Takes cfg cache s r false r' →
      Q (assignWaiting r' (cfg.stepTokens r' step.budget)
          (cfg.waitingQuery r' (cfg.stepTokens r' step.budget) step)
          { s with waiting := rest, manager := m, inflightPrefills := inflight } step).1
        (assignWaiting r' (cfg.stepTokens r' step.budget)
          (cfg.waitingQuery r' (cfg.stepTokens r' step.budget) step)
          { s with waiting := rest, manager := m, inflightPrefills := inflight } step).2)
    (raises : (r.numComputedTokens < r.contextLen →
      cache.LeavesNoQuery cfg.paged.groupedCache) → R Request.noQuery)
    (changed : ∀ r', cfg.passesGates cache r s step = true →
      (cache.asyncOffload && (cache.probe s.manager r).2) = false →
      Takes cfg cache s r false r' →
      cfg.waitingQuery r' (cfg.stepTokens r' step.budget) step = 0 →
      R (.configuration "waiting query budget changed after admission")) :
    (cfg.admitWaiting cache r rest s step).Post (fun x => Q x.2.1 x.2.2) R := by
  unfold admitWaiting
  split
  case isFalse => exact stays s.manager s.inflightPrefills
  rename_i hgates
  refine Except.Post.bind (cache.admit_post cfg.paged.groupedCache s.manager r) ?_ ?_
  case refine_2 =>
    rintro e ⟨rfl, hleaves⟩
    exact raises hleaves
  rintro ⟨m, r'⟩ h
  dsimp only at h ⊢
  unfold placeAdmitted
  cases hloads : (cache.asyncOffload && (cache.probe s.manager r).2) with
  | true =>
    rw [hloads] at h
    have hstatus : r'.status = .waitingForKv := h.status
    rw [if_pos hstatus]
    exact loads m r' _ h
  | false =>
    rw [hloads] at h
    rw [if_neg (by rw [h.status]; decide)]
    dsimp only
    split
    · exact changed r' hgates hloads h ‹_›
    split
    · split
      · exact runs _ r' _ h
      · have hback : r'.restoreAdmissionState r :: rest = s.waiting := by
          rw [h.restores, hwaiting]
        rw [hback]
        exact stays _ _
    · exact runs m r' s.inflightPrefills h

/-- A property that every resumption and every admission keep holds after the
loop. -/
theorem scheduleWaiting_rule
    (hresume : ∀ r rest s step next, Q s step → budgetLeft step.budget = true →
      s.loadedWaiting = r :: rest → cfg.resumeLoaded cache r rest s step = some next →
      Q next.1 next.2)
    (hadmits : ∀ r rest s step, Q s step → budgetLeft step.budget = true →
      s.waiting = r :: rest →
      (cfg.admitWaiting cache r rest s step).Post (fun x => Q x.2.1 x.2.2) R) :
    ∀ (rounds : Nat) {s : PagedScheduler β} {step : StepState}, Q s step →
      (cfg.scheduleWaiting cache rounds s step).Post (fun x => Q x.1 x.2) R := by
  intro rounds
  induction rounds with
  | zero => exact fun h => h
  | succ rounds ih =>
    intro s step h
    rw [scheduleWaiting]
    split
    · exact h
    rename_i hleft
    have hleft : budgetLeft step.budget = true := by simpa using hleft
    split
    · rename_i r rest hloaded
      split
      · exact h
      split
      · exact h
      · rename_i next hnext
        exact ih (hresume r rest s step next h hleft hloaded hnext)
    · rename_i r rest _ hwaiting
      split
      · exact h
      refine Except.Post.bind (hadmits r rest s step h hleft hwaiting) ?_ (fun _ he => he)
      rintro ⟨more, s', step'⟩ h'
      cases more with
      | true => exact ih h'
      | false => exact h'
    · exact h

/-! ## The step -/

/-- The loop over the running requests, and then the admissions if nothing was
preempted. -/
theorem schedule_rule {s : PagedScheduler β} {budget : Option Int}
    {Q : PagedScheduler β × StepState → Prop}
    (h : ∀ s₁ step₁,
      cfg.scheduleRunning cache (s.running.insertionSort arrivedBefore).length
        (s.running.insertionSort arrivedBefore) { s with running := [] }
        ⟨budget, [], [], false, []⟩ = (s₁, step₁) →
      (step₁.preempted = [] → (cfg.scheduleWaiting cache
        (s₁.loadedWaiting.length + s₁.waiting.length) s₁
        { step₁ with scheduledRunning := step₁.scheduled }).Post Q R) ∧
      (step₁.preempted ≠ [] → Q (s₁, { step₁ with scheduledRunning := step₁.scheduled }))) :
    (cfg.schedule cache s budget).Post Q R := by
  obtain ⟨hadmits, hstops⟩ := h _ _ rfl
  unfold schedule
  dsimp only
  split
  · exact hadmits ‹_›
  · exact hstops ‹_›

end StepConfig

end TokenSim
