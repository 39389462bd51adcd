import Mathlib.Algebra.GroupWithZero.Nat
import TokenSim.Dp.Coordinator

/-!
# Lockstep runs

What the coordinator guarantees over whole runs.  The journal of a run shows
which calls were made; the invariant `Inv` ties it to the phase the coordinator
is in.  Its parts are first kept by the loops over the workers (`Orderly`), and
the invariant of a phase follows when a loop ends.

A cancellation is either applied at once, when no step is under way, or put off
to the end of the worker's step.  The dictionary of what was put off is emptied
before the save wait, so that a cancellation taken in during the save wait stays
in it; `Drained` needs that there is none.
-/

namespace TokenSim.Dp

open List
open Function (update_of_ne)

open State

variable {T : Type} {cfg : Config} {s s' : State} {w r k : Nat}
  {log ext : List Entry}

/-! ## Reading the journal -/

def isExecution (w k : Nat) : Entry → Bool
  | .executed v j _ => v = w && j = k
  | _ => false

/-- How often a worker executed a batch in a step. -/
def executions (w k : Nat) (log : List Entry) : Nat := log.countP (isExecution w k)

@[simp] theorem executions_append :
    executions w k (log ++ ext) = executions w k log + executions w k ext :=
  countP_append

theorem executions_executed {v j : Nat} {batch : Batch} :
    executions w k [.executed v j batch] = if v = w ∧ j = k then 1 else 0 := by
  simp [executions, isExecution]

/-- A step of the worker is under way. -/
def stepOpen (w : Nat) (log : List Entry) : Bool := since (.prepared w) (.completed w) log

/-- A cancellation was delivered and has not been applied since. -/
def owed (w r : Nat) (log : List Entry) : Bool := since (.delivered w r) (.cancelled w r) log

/-- The worker's cancellations are applied only while no step of it is under
way. -/
def CancelsOutside (w : Nat) (log : List Entry) : Prop :=
  ∀ r, Outside (.prepared w) (.completed w) (.cancelled w r) log

/-- What holds of the journal at any time. -/
structure Books (cfg : Config) (s : State) : Prop where
  owed : ∀ w r, owed w r s.log = true → r ∈ s.pendingCancels w
  past : ∀ w ∈ cfg.workers, ∀ k < s.steps, executions w k s.log = 1
  future : ∀ w k, s.steps < k → executions w k s.log = 0

/-- What holds of the journal as long as the coordinator runs, also within its
loops over the workers. -/
structure Orderly (cfg : Config) (s : State) : Prop extends Books cfg s where
  outside : ∀ w, CancelsOutside w s.log
  opened : ∀ w, stepOpen w s.log = true → w ∈ cfg.workers

structure Inv (cfg : Config) (s : State) : Prop extends Books cfg s where
  uninterrupted : ∀ w r, Uninterrupted (.prepared w) (.completed w) (.cancelled w r) s.log
  outside : s.phase ≠ .stopped → ∀ w, CancelsOutside w s.log
  opened : s.phase ≠ .stopped → ∀ w, stepOpen w s.log = true →
    w ∈ cfg.workers ∧ (s.phase = .loadWait ∨ s.phase = .computeWait)
  busy_iff : s.busy = true ↔ s.phase = .loadWait ∨ s.phase = .computeWait ∨ s.phase = .saveWait
  /-- The batches of the step are still to be executed. -/
  before : s.phase ≠ .stopped → ¬(s.phase = .computeWait ∨ s.phase = .saveWait) →
    ∀ w ∈ cfg.workers, executions w s.steps s.log = 0
  after : s.phase = .computeWait ∨ s.phase = .saveWait →
    ∀ w ∈ cfg.workers, executions w s.steps s.log = 1

/-- Nobody has work while the coordinator is parked. -/
def Idle (cfg : Config) (s : State) : Prop :=
  s.phase = .parked → s.waveRunning = false ∧ s.hasWork cfg = false

/-- Cancellations are put off only while a step is under way. -/
structure Drained (cfg : Config) (s : State) : Prop where
  owned : ∀ w, s.pendingCancels w ≠ [] → w ∈ cfg.workers
  phase : ∀ w, s.pendingCancels w ≠ [] →
    s.phase = .loadWait ∨ s.phase = .computeWait ∨ s.phase = .stopped

theorem Inv.orderly (h : Inv cfg s) (hp : s.phase ≠ .stopped) : Orderly cfg s :=
  ⟨h.toBooks, h.outside hp, fun w hw => (h.opened hp w hw).1⟩

/-! ## Longer journals -/

/-- The journal gets longer. -/
theorem Books.extend (h : Books cfg s) (hlog : s'.log = s.log ++ ext) (hsteps : s'.steps = s.steps)
    (howed : ∀ w r, Dp.owed w r (s.log ++ ext) = true → r ∈ s'.pendingCancels w)
    (hexec : ∀ w k, k ≠ s.steps → executions w k ext = 0) : Books cfg s' := by
  refine ⟨hlog ▸ howed, fun w hw k hk => ?_, fun w k hk => ?_⟩
  · rw [hsteps] at hk
    rw [hlog, executions_append, hexec w k hk.ne, h.past w hw k hk]
  · rw [hsteps] at hk
    rw [hlog, executions_append, hexec w k hk.ne', h.future w k hk]

namespace Orderly

theorem prepare (h : Orderly cfg s) (hw : w ∈ cfg.workers) (p : Prepared T) :
    Orderly cfg (s.prepare w p) := by
  have hlog : (s.prepare w p).log = s.log ++ [.prepared w] := rfl
  refine ⟨h.extend hlog rfl (fun v r hv => ?_) fun _ _ _ => rfl,
    fun v r => hlog ▸ (h.outside v r).append (by simp), fun v hv => ?_⟩
  · rw [Dp.owed, since_append_of_not_mem (by simp) (by simp)] at hv
    exact h.owed v r hv
  · rw [hlog, stepOpen, since_snoc, sinceStep] at hv
    split at hv
    · rename_i he
      cases he
      exact hw
    · rw [if_neg (by rintro ⟨⟩)] at hv
      exact h.opened v hv

theorem execute (h : Orderly cfg s) : Orderly cfg (s.execute w) := by
  obtain ⟨batch, hlog⟩ : ∃ batch, (s.execute w).log = s.log ++ [.executed w s.steps batch] :=
    ⟨_, rfl⟩
  refine ⟨h.extend hlog rfl (fun v r hv => ?_) fun v k hk => ?_,
    fun v r => hlog ▸ (h.outside v r).append (by simp), fun v hv => ?_⟩
  · rw [Dp.owed, since_append_of_not_mem (by simp) (by simp)] at hv
    exact h.owed v r hv
  · rw [executions_executed, if_neg fun he => hk he.2.symm]
  · rw [hlog, stepOpen, since_append_of_not_mem (by simp) (by simp)] at hv
    exact h.opened v hv

end Orderly

section Complete

/-- The state after the cancellations of a worker. -/
theorem cancelAll_spec : ∀ {rs : List Nat} {s : State},
    (cancelAll w s rs).log = s.log ++ rs.map (.cancelled w) ∧
    (cancelAll w s rs).pendingCancels = s.pendingCancels ∧
    (cancelAll w s rs).steps = s.steps ∧ (cancelAll w s rs).busy = s.busy := by
  intro rs
  induction rs with
  | nil => simp [cancelAll]
  | cons r rest ih =>
    intro s
    rw [cancelAll]
    obtain ⟨hlog, hpending, hsteps, hbusy⟩ := ih (s := s.cancelAtBoundary w r)
    refine ⟨?_, hpending, hsteps, hbusy⟩
    rw [hlog]
    simp [cancelAtBoundary, State.record, State.setScheduler]

variable {scheduler : Scheduler}

theorem complete_log : (s.complete w scheduler).log =
    s.log ++ .completed w :: (s.pendingCancels w).map (.cancelled w) := by
  rw [complete, drain, cancelAll_spec.1]
  simp [State.record, State.setScheduler]

theorem complete_pendingCancels : (s.complete w scheduler).pendingCancels =
    Function.update s.pendingCancels w [] := by
  rw [complete, drain, cancelAll_spec.2.1]
  rfl

theorem complete_steps : (s.complete w scheduler).steps = s.steps := by
  rw [complete, drain, cancelAll_spec.2.2.1]
  rfl

theorem complete_busy : (s.complete w scheduler).busy = s.busy := by
  rw [complete, drain, cancelAll_spec.2.2.2]
  rfl

theorem executions_completed (v k : Nat) (rs : List Nat) :
    executions v k (.completed w :: rs.map (.cancelled w)) = 0 := by
  simp [executions, isExecution, countP_eq_zero]

/-- A worker's step is closed before its cancellations are applied. -/
theorem stepOpen_complete (v : Nat) :
    stepOpen v (s.complete w scheduler).log = true → stepOpen v s.log = true ∧ v ≠ w := by
  intro hopen
  rw [complete_log, stepOpen] at hopen
  obtain ⟨hbefore, hstop⟩ := since_of_append (by simp) hopen
  exact ⟨hbefore, fun hv => hstop (by simp [hv])⟩

theorem Orderly.complete (h : Orderly cfg s) : Orderly cfg (s.complete w scheduler) := by
  refine ⟨h.extend complete_log complete_steps (fun v r hv => ?_)
    fun v k _ => executions_completed v k _, fun v r => ?_,
    fun v hv => h.opened v (stepOpen_complete v hv).1⟩
  · obtain ⟨hbefore, hstop⟩ := since_of_append (by simp) hv
    have hmem := h.owed v r hbefore
    rw [complete_pendingCancels]
    by_cases hvw : v = w
    · subst hvw
      exact absurd (by simp [hmem]) hstop
    · rwa [update_of_ne hvw]
  · rw [complete_log, append_cons]
    have hclosed : Outside (.prepared v) (.completed v) (.cancelled v r) (s.log ++ [.completed w]) :=
      (h.outside v r).append (by simp)
    by_cases hvw : v = w
    · subst hvw
      refine hclosed.append_of_closed ?_ (by simp)
      rw [since_snoc]
      simp [sinceStep]
    · refine hclosed.append ?_
      simp [Ne.symm hvw]

end Complete

/-! ## From the loops to the phases -/

theorem Books.stopped (h : Books cfg s)
    (hun : ∀ w r, Uninterrupted (.prepared w) (.completed w) (.cancelled w r) s.log)
    (hp : s.phase = .stopped) (hb : s.busy = false) : Inv cfg s :=
  ⟨h, hun, fun hne => absurd hp hne, fun hne => absurd hp hne, by simp [hp, hb],
    fun hne => absurd hp hne, by simp [hp]⟩

theorem Orderly.abort (h : Orderly cfg s) : Inv cfg s.abort :=
  Books.stopped { h.toBooks with } (fun w r => (h.outside w r).uninterrupted) rfl rfl

theorem Orderly.inv (h : Orderly cfg s)
    (hopened : ∀ w, stepOpen w s.log = true → s.phase = .loadWait ∨ s.phase = .computeWait)
    (hbusy : s.busy = true ↔ s.phase = .loadWait ∨ s.phase = .computeWait ∨ s.phase = .saveWait)
    (hbefore : ¬(s.phase = .computeWait ∨ s.phase = .saveWait) →
      ∀ w ∈ cfg.workers, executions w s.steps s.log = 0)
    (hafter : s.phase = .computeWait ∨ s.phase = .saveWait →
      ∀ w ∈ cfg.workers, executions w s.steps s.log = 1) : Inv cfg s :=
  ⟨h.toBooks, fun w r => (h.outside w r).uninterrupted, fun _ => h.outside,
    fun _ w hw => ⟨h.opened w hw, hopened w hw⟩, hbusy, fun _ => hbefore, hafter⟩

/-- The batches of the workers in `rest` are still to be executed. -/
structure Executing (cfg : Config) (rest : List Nat) (s : State) : Prop
    extends Orderly cfg s where
  count : ∀ w ∈ cfg.workers, executions w s.steps s.log = if w ∈ rest then 0 else 1
  nodup : rest.Nodup
  busy : s.busy = true

namespace Executing

theorem prepare (h : Executing cfg cfg.workers s) (hw : w ∈ cfg.workers)
    (p : Prepared T) : Executing cfg cfg.workers (s.prepare w p) := by
  refine ⟨h.toOrderly.prepare hw p, fun v hv => ?_, h.nodup, h.busy⟩
  have hlog : (s.prepare w p).log = s.log ++ [.prepared w] := rfl
  rw [hlog, executions_append]
  exact h.count v hv

theorem execute {rest : List Nat} (h : Executing cfg (w :: rest) s) :
    Executing cfg rest (s.execute w) := by
  obtain ⟨hw, hnodup⟩ := nodup_cons.mp h.nodup
  refine ⟨h.toOrderly.execute, fun v hv => ?_, hnodup, h.busy⟩
  have hlog : executions v s.steps (s.execute w).log =
      executions v s.steps s.log + if w = v ∧ s.steps = s.steps then 1 else 0 := by
    simp only [State.execute, State.record, executions_append, executions_executed]
  show executions v s.steps (s.execute w).log = _
  rw [hlog, h.count v hv]
  by_cases hvw : v = w
  · subst hvw
    simp [hw]
  · simp [hvw, Ne.symm hvw]

theorem loadWait (h : Executing cfg cfg.workers s) : Inv cfg { s with phase := .loadWait } :=
  Orderly.inv { h.toOrderly with } (fun _ _ => .inl rfl) (by simp [h.busy])
    (fun _ w hw => (h.count w hw).trans (if_pos hw)) (by simp)

theorem computeWait (h : Executing cfg [] s) : Inv cfg { s with phase := .computeWait } :=
  Orderly.inv { h.toOrderly with } (fun _ _ => .inr rfl) (by simp [h.busy]) (by simp)
    fun _ => h.count

end Executing

/-- The steps of the workers in `rest` are still under way. -/
structure Completing (cfg : Config) (rest : List Nat) (s : State) : Prop
    extends Orderly cfg s where
  count : ∀ w ∈ cfg.workers, executions w s.steps s.log = 1
  rest : ∀ w, stepOpen w s.log = true → w ∈ rest
  busy : s.busy = true

namespace Completing

theorem complete {rest : List Nat} (h : Completing cfg (w :: rest) s)
    (scheduler : Scheduler) : Completing cfg rest (s.complete w scheduler) := by
  refine ⟨h.toOrderly.complete, fun v hv => ?_, fun v hv => ?_, complete_busy.trans h.busy⟩
  · rw [complete_steps, complete_log, executions_append, executions_completed]
    exact h.count v hv
  · obtain ⟨hbefore, hne⟩ := stepOpen_complete v hv
    exact (mem_cons.mp (h.rest v hbefore)).resolve_left hne

theorem saveWait (h : Completing cfg [] s) : Inv cfg { s with phase := .saveWait } :=
  Orderly.inv { h.toOrderly with } (fun w hw => absurd (h.rest w hw) not_mem_nil)
    (by simp [h.busy]) (by simp) fun _ => h.count

theorem endStep (h : Completing cfg [] s) : Inv cfg s.endStep := by
  refine Orderly.inv ⟨⟨h.owed, fun w hw k hk => ?_, fun w k hk => ?_⟩, h.outside, h.opened⟩
    (fun w hw => absurd (h.rest w hw) not_mem_nil) (by simp [State.endStep])
    (fun _ w _ => h.future w _ (Nat.lt_succ_self _)) (by simp [State.endStep])
  · rcases Nat.lt_succ_iff_lt_or_eq.mp hk with hk | rfl
    · exact h.past w hw k hk
    · exact h.count w hw
  · exact h.future w k (Nat.lt_of_succ_lt hk)

end Completing

/-- The coordinator is between two steps. -/
def Phase.quiet : Phase → Bool
  | .boundary | .parked | .closing => true
  | _ => false

/-- The part of the state that the invariant speaks of, apart from the phase. -/
def State.view (s : State) : List Entry × (Nat → List Nat) × Nat × Bool :=
  (s.log, s.pendingCancels, s.steps, s.busy)

theorem Inv.congr (h : Inv cfg s) (hv : s'.view = s.view)
    (hp : s'.phase = s.phase ∨ s.phase.quiet = true ∧ s'.phase.quiet = true) : Inv cfg s' := by
  simp only [State.view, Prod.mk.injEq] at hv
  obtain ⟨hlog, hpending, hsteps, hbusy⟩ := hv
  obtain ⟨⟨howed, hpast, hfuture⟩, hun, hout, hopen, hb, hbefore, hafter⟩ := h
  rw [← hlog] at howed hpast hfuture hun hout hopen hbefore hafter
  rw [← hpending] at howed
  rw [← hsteps] at hpast hfuture hbefore hafter
  rw [← hbusy] at hb
  rcases hp with hp | ⟨hq, hq'⟩
  · rw [← hp] at hout hopen hb hbefore hafter
    exact ⟨⟨howed, hpast, hfuture⟩, hun, hout, hopen, hb, hbefore, hafter⟩
  · have hs : s.phase ≠ .stopped := by
      intro he
      simp [he, Phase.quiet] at hq
    have hsteps : ¬(s.phase = .computeWait ∨ s.phase = .saveWait) := by
      rintro (he | he) <;> simp [he, Phase.quiet] at hq
    refine ⟨⟨howed, hpast, hfuture⟩, hun, fun _ => hout hs, fun _ w hw => ?_, ?_,
      fun _ _ => hbefore hs hsteps, fun he => ?_⟩
    · rcases (hopen hs w hw).2 with he | he <;> simp [he, Phase.quiet] at hq
    · rw [hb]
      constructor
      · rintro (he | he | he) <;> simp [he, Phase.quiet] at hq
      · rintro (he | he | he) <;> simp [he, Phase.quiet] at hq'
    · rcases he with he | he <;> simp [he, Phase.quiet] at hq'

/-! ## Messages -/

/-- Two states that differ in messages and flags only. -/
structure Frame (s s' : State) : Prop where
  view : s'.view = s.view
  phase : s'.phase = s.phase
  scheduler : s'.scheduler = s.scheduler
  waveRunning : s'.waveRunning = s.waveRunning

theorem Frame.trans {t : State} (h : Frame s t) (h' : Frame t s') : Frame s s' where
  view := h'.view.trans h.view
  phase := h'.phase.trans h.phase
  scheduler := h'.scheduler.trans h.scheduler
  waveRunning := h'.waveRunning.trans h.waveRunning

theorem send_frame (s : State) (w : Nat) (msg : Message) : Frame s (s.send w msg) := by
  unfold State.send
  split <;> exact ⟨rfl, rfl, rfl, rfl⟩

theorem sendAll_frame (msg : Message) (ws : List Nat) : ∀ s : State,
    Frame s (s.sendAll msg ws) := by
  induction ws with
  | nil => exact fun s => ⟨rfl, rfl, rfl, rfl⟩
  | cons w rest ih => exact fun s => (send_frame s w msg).trans (ih (s.send w msg))

theorem getMessage_frame (s : State) (w : Nat) : Frame s (s.getMessage w) := by
  unfold State.getMessage
  cases nextMessage (s.queue w) <;> exact ⟨rfl, rfl, rfl, rfl⟩

theorem notify_phase (s : State) : s.notify.phase ≠ .parked := by
  unfold State.notify
  split
  · exact nofun
  · assumption

theorem Idle.congr (h : Idle cfg s) (same : Frame s s') : Idle cfg s' := by
  intro hparked
  obtain ⟨hwave, hwork⟩ := h (same.phase ▸ hparked)
  refine ⟨same.waveRunning.trans hwave, ?_⟩
  unfold State.hasWork at hwork ⊢
  rwa [same.scheduler]

theorem drained_of_nil (h : ∀ w, s.pendingCancels w = []) : Drained cfg s :=
  ⟨fun w hw => absurd (h w) hw, fun w hw => absurd (h w) hw⟩

/-- In any other phase nothing is put off. -/
theorem Drained.nil (h : Drained cfg s)
    (hp : s.phase.quiet = true ∨ s.phase = .saveWait) (w : Nat) : s.pendingCancels w = [] := by
  by_contra hw
  rcases h.phase w hw with he | he | he <;> simp [he, Phase.quiet] at hp

/-- The invariant and, in runs of some kind, the emptiness of what was put off. -/
structure Kept (cfg : Config) (drains : Prop) (s : State) : Prop extends Inv cfg s where
  drained : drains → Drained cfg s

variable {drains : Prop}

theorem Kept.congr (h : Kept cfg drains s) (hv : s'.view = s.view)
    (hp : s'.phase = s.phase ∨ s.phase.quiet = true ∧ s'.phase.quiet = true) :
    Kept cfg drains s' := by
  have hpending : s'.pendingCancels = s.pendingCancels := congrArg (fun v => v.2.1) hv
  refine ⟨h.toInv.congr hv hp, fun hd => ?_⟩
  rcases hp with hp | ⟨hq, -⟩
  · exact ⟨hpending ▸ (h.drained hd).owned, by rw [hpending, hp]; exact (h.drained hd).phase⟩
  · exact drained_of_nil fun w => hpending ▸ (h.drained hd).nil (.inl hq) w

theorem Kept.notify (h : Kept cfg drains s) : Kept cfg drains s.notify := by
  unfold State.notify
  split
  · rename_i hp
    exact h.congr rfl (.inr ⟨by rw [hp]; rfl, rfl⟩)
  · exact h

theorem Kept.getMessage (h : Kept cfg drains s) (w : Nat) : Kept cfg drains (s.getMessage w) :=
  h.congr (getMessage_frame s w).view (.inl (getMessage_frame s w).phase)

theorem Inv.append {pending : Nat → List Nat} {scheduler : Nat → Scheduler} (h : Inv cfg s)
    (hmsg : ∀ e ∈ ext, (∃ v r, e = .delivered v r) ∨ ∃ v r, e = .cancelled v r)
    (hcancel : s.busy = true → ∀ v r, Entry.cancelled v r ∉ ext)
    (howed : ∀ v r, owed v r (s.log ++ ext) = true → r ∈ pending v) :
    Inv cfg { s with log := s.log ++ ext, pendingCancels := pending, scheduler := scheduler } := by
  have hstart : ∀ v, Entry.prepared v ∉ ext := by
    intro v hv
    rcases hmsg _ hv with ⟨_, _, he⟩ | ⟨_, _, he⟩ <;> cases he
  have hstop : ∀ v, Entry.completed v ∉ ext := by
    intro v hv
    rcases hmsg _ hv with ⟨_, _, he⟩ | ⟨_, _, he⟩ <;> cases he
  have hzero : ∀ v k, executions v k ext = 0 := by
    intro v k
    rw [executions, countP_eq_zero]
    intro e he
    rcases hmsg e he with ⟨_, _, rfl⟩ | ⟨_, _, rfl⟩ <;> simp [isExecution]
  have hnone : ∀ v k, executions v k (s.log ++ ext) = executions v k s.log := by
    intro v k
    rw [executions_append, hzero, Nat.add_zero]
  have hopened : ∀ v, stepOpen v (s.log ++ ext) = stepOpen v s.log := fun v =>
    since_append_of_not_mem (hstart v) (hstop v)
  refine ⟨h.extend rfl rfl howed fun v k _ => hzero v k,
    fun v r => (h.uninterrupted v r).append (hstop v), fun hp v r => ?_,
    fun hp v hv => h.opened hp v (hopened v ▸ hv), h.busy_iff,
    fun hp hp' v hv => (hnone v _).trans (h.before hp hp' v hv),
    fun hp v hv => (hnone v _).trans (h.after hp v hv)⟩
  cases hb : s.busy with
  | true => exact (h.outside hp v r).append (hcancel hb v r)
  | false =>
    refine (h.outside hp v r).append_of_closed ?_ (hstart v)
    by_contra hopen
    rcases (h.opened hp v (Bool.not_eq_false _ ▸ hopen)).2 with he | he
    · rw [h.busy_iff.mpr (.inl he)] at hb
      cases hb
    · rw [h.busy_iff.mpr (.inr (.inl he))] at hb
      cases hb

theorem putOff_pendingCancels (s : State) (w r : Nat) : ∃ pending : Nat → List Nat,
    s.putOff w r = { s with pendingCancels := pending } ∧ r ∈ pending w ∧
      (∀ v x, x ∈ s.pendingCancels v → x ∈ pending v) ∧
      ∀ v, v ≠ w → pending v = s.pendingCancels v := by
  unfold State.putOff
  split
  · exact ⟨s.pendingCancels, rfl, by assumption, fun _ _ hx => hx, fun _ _ => rfl⟩
  · refine ⟨_, rfl, by simp, fun v x hx => ?_, fun v hv => update_of_ne hv ..⟩
    by_cases hv : v = w
    · subst hv
      simp [hx]
    · rwa [update_of_ne hv]

theorem owed_delivered {v x : Nat} (h : owed v x (log ++ [.delivered w r]) = true) :
    owed v x log = true ∨ v = w ∧ x = r := by
  rw [owed, since_snoc, sinceStep] at h
  split at h
  · rename_i he
    cases he
    exact .inr ⟨rfl, rfl⟩
  · rw [if_neg (by rintro ⟨⟩)] at h
    exact .inl h

theorem Kept.deliverCancel (h : Kept cfg drains s) (hw : w ∈ cfg.workers)
    (hsave : drains → s.phase ≠ .saveWait) (r : Nat) :
    Kept cfg drains (s.deliverCancel w r) ∧ (s.deliverCancel w r).phase = s.phase := by
  unfold State.deliverCancel
  dsimp only
  split
  · rename_i hb
    obtain ⟨pending, hput, hnew, hold, hothers⟩ :=
      putOff_pendingCancels (s.record (.delivered w r)) w r
    rw [hput]
    refine ⟨⟨h.append (by simp) (by simp) fun v x hv => ?_, fun hd => ⟨fun v hv => ?_,
      fun v _ => ?_⟩⟩, rfl⟩
    · rcases owed_delivered hv with hv | ⟨rfl, rfl⟩
      · exact hold v x (h.owed v x hv)
      · exact hnew
    · by_cases hvw : v = w
      · exact hvw ▸ hw
      · exact (h.drained hd).owned v (hothers v hvw ▸ hv)
    · rcases h.busy_iff.mp hb with he | he | he
      · exact .inl he
      · exact .inr (.inl he)
      · exact absurd he (hsave hd)
  · rename_i hb
    have hb : ¬s.busy = true := hb
    have hlog : (s.log ++ [.delivered w r]) ++ [.cancelled w r] =
        s.log ++ [.delivered w r, .cancelled w r] := by simp
    show Kept cfg drains { s with log := (s.log ++ [.delivered w r]) ++ [.cancelled w r]
                                  scheduler := _ } ∧ _
    rw [hlog]
    refine ⟨⟨h.append (by simp) (fun he => absurd he hb) fun v x hv => ?_,
      fun hd => { h.drained hd with }⟩, rfl⟩
    rw [← hlog, owed] at hv
    obtain ⟨hv, hstop⟩ := since_of_append (by simp) hv
    rcases owed_delivered hv with hv | ⟨rfl, rfl⟩
    · exact h.owed v x hv
    · simp at hstop

theorem Kept.deliverCancels (hw : w ∈ cfg.workers) : ∀ (rs : List Nat) {s : State},
    Kept cfg drains s → (drains → s.phase ≠ .saveWait) → Kept cfg drains (s.deliverCancels w rs) := by
  intro rs
  induction rs with
  | nil => exact fun h _ => h
  | cons r rest ih =>
    intro s h hsave
    obtain ⟨hnext, hphase⟩ := h.deliverCancel hw hsave r
    exact ih hnext (hphase ▸ hsave)

theorem Kept.consume (h : Kept cfg drains s) (hidle : Idle cfg s) (hw : w ∈ cfg.workers)
    (msg : Message) (hsave : drains → msg.task = .cancel → s.phase ≠ .saveWait) :
    Kept cfg drains (s.consume cfg w msg) ∧ Idle cfg (s.consume cfg w msg) := by
  have hawake : ∀ t : State, Idle cfg t.notify := fun t hp => absurd hp (notify_phase t)
  have hget : ∀ {t : State}, Kept cfg drains t → Kept cfg drains (t.notify.getMessage w) ∧
      Idle cfg (t.notify.getMessage w) :=
    fun {t} ht => ⟨ht.notify.getMessage w, (hawake t).congr (getMessage_frame _ w)⟩
  unfold State.consume
  cases htask : msg.task with
  | add =>
    dsimp only
    split
    · exact ⟨Kept.notify (h.congr rfl (.inl rfl)), hawake _⟩
    · exact hget (h.congr rfl (.inl rfl))
  | cancel => exact hget (.deliverCancels hw _ h fun hd => hsave hd htask)
  | step => exact ⟨h.getMessage w, hidle.congr (getMessage_frame s w)⟩
  | stop => exact ⟨Kept.notify (h.congr rfl (.inl rfl)), hawake _⟩

/-! ## Loops over the workers -/

/-- A loop over the workers with one turn for each of them, which may raise. -/
structure IsLoop (loop : State → List T → List Nat → Except State (State × List T))
    (turn : State → Nat → Option (State × List T)) : Prop where
  nil : ∀ s l, loop s l [] = .ok (s, l)
  cons : ∀ s l w rest, loop s l (w :: rest) = match turn s w with
    | none => .error s
    | some (t, found) => loop t (l ++ found) rest

/-- What every turn keeps, of the workers that are still to come, holds where the loop
ends or raises. -/
theorem IsLoop.keeps {loop : State → List T → List Nat → Except State (State × List T)}
    {turn : State → Nat → Option (State × List T)} (h : IsLoop loop turn)
    {P : List Nat → State → Prop}
    (hturn : ∀ {w rest s t l}, P (w :: rest) s → turn s w = some (t, l) → P rest t) :
    ∀ {ws : List Nat} {s : State} {l : List T}, P ws s →
      (∀ t l', loop s l ws = .ok (t, l') → P [] t) ∧
      ∀ t, loop s l ws = .error t → ∃ rest, P rest t := by
  intro ws
  induction ws with
  | nil =>
    intro s l hs
    rw [h.nil]
    exact ⟨fun t l' he => by cases he; exact hs, nofun⟩
  | cons w rest ih =>
    intro s l hs
    rw [h.cons]
    cases hw : turn s w with
    | none => exact ⟨nofun, fun t he => by cases he; exact ⟨w :: rest, hs⟩⟩
    | some result => exact ih (hturn hs hw)

theorem isLoop_prepareAll (prepared : Nat → Option (Prepared T)) : IsLoop (prepareAll prepared)
    fun s w => (prepared w).map fun p => (s.prepare w p, [p.loadLatency]) where
  nil _ _ := rfl
  cons s l w rest := by
    rw [prepareAll]
    cases prepared w <;> rfl

theorem isLoop_executeAll (estimates : Nat → Option T) : IsLoop (executeAll estimates)
    fun s w => (estimates w).map fun d => (s.execute w, [d]) where
  nil _ _ := rfl
  cons s l w rest := by
    rw [executeAll]
    cases estimates w <;> rfl

theorem isLoop_completeAll (completed : Nat → Option (Completed T)) : IsLoop (completeAll completed)
    fun s w => if s.batches w = [] then some (s.complete w (s.scheduler w), [])
      else (completed w).map fun c => (s.complete w c.scheduler, [c.saveLatency]) where
  nil _ _ := rfl
  cons s l w rest := by
    rw [completeAll]
    split
    · simp only [append_nil]
    · cases completed w <;> rfl

/-! ## Steps -/

section Steps

variable [LinearOrder T] [Zero T]

/-- A step is under way or has raised. -/
structure Begun (cfg : Config) (s s' : State) : Prop extends Inv cfg s' where
  pending : s'.pendingCancels = s.pendingCancels
  phase : s'.phase = .loadWait ∨ s'.phase = .computeWait ∨ s'.phase = .stopped

theorem Executing.startCompute (h : Executing cfg cfg.workers s) (estimates : Nat → Option T) :
    Begun cfg s (s.startCompute cfg estimates) := by
  obtain ⟨hok, herror⟩ := (isLoop_executeAll estimates).keeps (l := [])
    (P := fun rest t => Executing cfg rest t ∧ t.pendingCancels = s.pendingCancels)
    (fun {w rest t u l} ht hu => by
      obtain ⟨d, -, ⟨⟩⟩ := Option.map_eq_some_iff.mp hu
      exact ⟨ht.1.execute, ht.2⟩) ⟨h, rfl⟩
  unfold State.startCompute
  cases hres : executeAll estimates s [] cfg.workers with
  | error t =>
    obtain ⟨rest, ht, hpending⟩ := herror t hres
    exact ⟨ht.toOrderly.abort, hpending, .inr (.inr rfl)⟩
  | ok result =>
    obtain ⟨ht, hpending⟩ := hok result.1 result.2 hres
    dsimp only
    split
    · exact ⟨ht.toOrderly.abort, hpending, .inr (.inr rfl)⟩
    · exact ⟨ht.computeWait, hpending, .inr (.inl rfl)⟩

theorem Executing.beginStep (h : Executing cfg cfg.workers { s with busy := true })
    (prepared : Nat → Option (Prepared T)) (estimates : Nat → Option T) :
    Begun cfg s (s.beginStep cfg prepared estimates) := by
  obtain ⟨hok, herror⟩ := (isLoop_prepareAll prepared).keeps (l := [])
    (P := fun rest t => rest ⊆ cfg.workers ∧ Executing cfg cfg.workers t ∧
      t.pendingCancels = s.pendingCancels)
    (fun {w rest t u l} ht hu => by
      obtain ⟨p, -, ⟨⟩⟩ := Option.map_eq_some_iff.mp hu
      obtain ⟨hw, hrest⟩ := cons_subset.mp ht.1
      exact ⟨hrest, ht.2.1.prepare hw p, ht.2.2⟩) ⟨Subset.refl _, h, rfl⟩
  unfold State.beginStep
  cases hres : prepareAll prepared { s with busy := true } [] cfg.workers with
  | error t =>
    obtain ⟨rest, -, ht, hpending⟩ := herror t hres
    exact ⟨ht.toOrderly.abort, hpending, .inr (.inr rfl)⟩
  | ok result =>
    obtain ⟨-, ht, hpending⟩ := hok result.1 result.2 hres
    dsimp only
    split
    · have hbegun := ht.startCompute estimates
      exact { hbegun with pending := hbegun.pending.trans hpending }
    · exact ⟨ht.loadWait, hpending, .inl rfl⟩

/-- A step that began while nothing was put off. -/
theorem Begun.kept (h : Begun cfg s s') (hnil : drains → ∀ w, s.pendingCancels w = []) :
    Kept cfg drains s' ∧ Idle cfg s' := by
  refine ⟨⟨h.toInv, fun hd => drained_of_nil fun w => h.pending ▸ hnil hd w⟩, fun hp => ?_⟩
  rcases h.phase with he | he | he <;> cases he.symm.trans hp

section

variable (h : Kept cfg drains s)
include h

theorem Kept.stepBoundary (hp : s.phase = .boundary)
    (prepared : Nat → Option (Prepared T)) (estimates : Nat → Option T) :
    Kept cfg drains (s.stepBoundary cfg prepared estimates) ∧
      Idle cfg (s.stepBoundary cfg prepared estimates) := by
  have hquiet : s.phase.quiet = true := by rw [hp]; rfl
  have hlive : s.phase ≠ .stopped := by simp [hp]
  have hnil : drains → ∀ w, s.pendingCancels w = [] := fun hd => (h.drained hd).nil (.inl hquiet)
  have hexecuting : ∀ waveRunning stepCounter, Executing cfg cfg.workers { s with
      waveRunning := waveRunning, stepCounter := stepCounter, busy := true } :=
    fun _ _ => ⟨⟨⟨h.owed, h.past, h.future⟩, h.outside hlive, fun w hw => (h.opened hlive w hw).1⟩,
      fun w hw => (h.before hlive (by simp [hp]) w hw).trans (if_pos hw).symm, cfg.nodup, rfl⟩
  unfold State.stepBoundary
  split
  · have hb : s.busy = false := by
      have := h.busy_iff
      simpa [hp] using this
    exact ⟨⟨Books.stopped { h.toBooks with } h.uninterrupted rfl hb,
      fun hd => drained_of_nil (hnil hd)⟩, nofun⟩
  · split
    · exact ((hexecuting s.waveRunning s.stepCounter).beginStep prepared estimates).kept hnil
    · split
      · exact (Executing.beginStep (hexecuting true 0) prepared estimates).kept hnil
      · rename_i hwave hwork
        exact ⟨h.congr rfl (.inr ⟨hquiet, rfl⟩),
          fun _ => ⟨eq_false_of_ne_true hwave, eq_false_of_ne_true hwork⟩⟩

theorem Kept.loadTimeout (hp : s.phase = .loadWait) (estimates : Nat → Option T) :
    Kept cfg drains (s.startCompute cfg estimates) ∧ Idle cfg (s.startCompute cfg estimates) := by
  have hlive : s.phase ≠ .stopped := by simp [hp]
  have hbegun := Executing.startCompute ⟨h.orderly hlive,
    fun w hw => (h.before hlive (by simp [hp]) w hw).trans (if_pos hw).symm, cfg.nodup,
    h.busy_iff.mpr (.inl hp)⟩ estimates
  refine ⟨⟨hbegun.toInv, fun hd => ⟨?_, fun _ _ => hbegun.phase⟩⟩, fun hparked => ?_⟩
  · rw [hbegun.pending]
    exact (h.drained hd).owned
  · rcases hbegun.phase with he | he | he <;> cases he.symm.trans hparked

theorem Kept.finishCompute (hp : s.phase = .computeWait)
    (completed : Nat → Option (Completed T)) :
    Kept cfg drains (s.finishCompute cfg completed) ∧ Idle cfg (s.finishCompute cfg completed) := by
  have hlive : s.phase ≠ .stopped := by simp [hp]
  -- what is still put off belongs to workers that are still to come
  obtain ⟨hok, herror⟩ := (isLoop_completeAll completed).keeps (l := [])
    (P := fun rest t => Completing cfg rest t ∧ ∀ v, t.pendingCancels v ≠ [] →
      s.pendingCancels v ≠ [] ∧ (v ∈ cfg.workers → v ∈ rest))
    (fun {w rest t u l} ht hu => by
      obtain ⟨scheduler, rfl⟩ : ∃ scheduler, u = t.complete w scheduler := by
        split at hu
        · exact ⟨_, (Prod.mk.inj (Option.some.inj hu)).1.symm⟩
        · obtain ⟨c, -, ⟨⟩⟩ := Option.map_eq_some_iff.mp hu
          exact ⟨_, rfl⟩
      refine ⟨ht.1.complete scheduler, fun v hv => ?_⟩
      rw [complete_pendingCancels] at hv
      by_cases hvw : v = w
      · subst hvw
        simp at hv
      · rw [update_of_ne hvw] at hv
        exact (ht.2 v hv).imp_right fun hmem hv => (mem_cons.mp (hmem hv)).resolve_left hvw)
    ⟨⟨h.orderly hlive, h.after (.inl hp), fun w hw => (h.opened hlive w hw).1,
      h.busy_iff.mpr (.inr (.inl hp))⟩, fun v hv => ⟨hv, fun hw => hw⟩⟩
  unfold State.finishCompute
  cases hres : completeAll completed s [] cfg.workers with
  | error t =>
    obtain ⟨rest, ht, hpending⟩ := herror t hres
    exact ⟨⟨ht.toOrderly.abort, fun hd => ⟨fun v hv => (h.drained hd).owned v (hpending v hv).1,
      fun _ _ => .inr (.inr rfl)⟩⟩, nofun⟩
  | ok result =>
    obtain ⟨ht, hpending⟩ := hok result.1 result.2 hres
    have hdrained : drains → ∀ v, result.1.pendingCancels v = [] := fun hd v => by
      by_contra hv
      exact not_mem_nil ((hpending v hv).2 ((h.drained hd).owned v (hpending v hv).1))
    dsimp only
    split
    · exact ⟨⟨ht.endStep, fun hd => drained_of_nil (hdrained hd)⟩, nofun⟩
    · exact ⟨⟨ht.saveWait, fun hd => drained_of_nil (hdrained hd)⟩, nofun⟩

theorem Kept.endStep (hp : s.phase = .saveWait) : Kept cfg drains s.endStep := by
  have hlive : s.phase ≠ .stopped := by simp [hp]
  refine ⟨Completing.endStep ⟨h.orderly hlive, h.after (.inr hp), fun w hw => ?_,
    h.busy_iff.mpr (.inr (.inr hp))⟩, fun hd => drained_of_nil ((h.drained hd).nil (.inr hp))⟩
  have hphase := (h.opened hlive w hw).2
  simp [hp] at hphase

theorem Kept.closingBoundary (hp : s.phase = .closing) :
    Kept cfg drains (s.closingBoundary cfg) ∧ Idle cfg (s.closingBoundary cfg) := by
  have hquiet : s.phase.quiet = true := by rw [hp]; rfl
  unfold State.closingBoundary
  split
  · exact ⟨h.congr rfl (.inr ⟨hquiet, rfl⟩), nofun⟩
  · exact ⟨h.congr rfl (.inr ⟨hquiet, rfl⟩), nofun⟩

end

omit [LinearOrder T] [Zero T] in
theorem Idle.finishSending (h : Idle cfg s) (w : Nat) (sent : List Nat) :
    Idle cfg (s.setScheduler w ((s.scheduler w).finishSending sent)) := by
  intro hp
  obtain ⟨hwave, hwork⟩ := h hp
  refine ⟨hwave, ?_⟩
  simp only [State.hasWork, any_eq_false] at hwork ⊢
  intro v hv
  by_cases hvw : v = w
  · subst hvw
    simpa [State.setScheduler] using Scheduler.finishSending_hasWork sent (by simpa using hwork v hv)
  · simpa [State.setScheduler, update_of_ne hvw] using hwork v hv

/-- The event takes in a cancellation during the save wait of a step. -/
def cancelInSaveWait (s : State) : Event T → Bool
  | .consume w =>
    match s.consumer w with
    | .holding msg => s.phase = .saveWait && msg.task = .cancel
    | _ => false
  | _ => false

theorem Kept.step {e : Event T} (h : Kept cfg drains s) (hidle : Idle cfg s)
    (hok : drains → cancelInSaveWait s e = false) (hs : s.step cfg e = some s') :
    Kept cfg drains s' ∧ Idle cfg s' := by
  have hframe : ∀ {t : State}, Frame s t → Kept cfg drains t ∧ Idle cfg t := fun same =>
    ⟨h.congr same.view (.inl same.phase), hidle.congr same⟩
  cases e with
  | submit w requests =>
    cases hs
    exact hframe (.trans (by exact ⟨rfl, rfl, rfl, rfl⟩) (send_frame _ w ⟨.add, requests⟩))
  | sendStop w =>
    cases hs
    exact hframe (send_frame s w ⟨.stop, []⟩)
  | fail =>
    cases hs
    exact hframe ⟨rfl, rfl, rfl, rfl⟩
  | finishSending w sent =>
    cases hs
    exact ⟨h.congr rfl (.inl rfl), hidle.finishSending w sent⟩
  | cancelRequests r =>
    simp only [State.step] at hs
    split at hs <;> cases hs
    · exact hframe ⟨rfl, rfl, rfl, rfl⟩
    · exact hframe (.trans (by exact ⟨rfl, rfl, rfl, rfl⟩) (sendAll_frame ⟨.cancel, [r]⟩ _ _))
  | consume w =>
    simp only [State.step] at hs
    split at hs
    · rename_i msg hmsg
      obtain ⟨hw, ⟨⟩⟩ := Option.ite_none_right_eq_some.mp hs
      refine h.consume hidle hw msg fun hd htask hsave => ?_
      simpa [cancelInSaveWait, hmsg, htask, hsave] using hok hd
    · cases hs
  | loadDone w r =>
    simp only [State.step] at hs
    split at hs <;> cases hs
    · exact ⟨Kept.notify (h.congr rfl (.inl rfl)), fun hp => absurd hp (notify_phase _)⟩
    · exact ⟨h.notify, fun hp => absurd hp (notify_phase _)⟩
  | startConsumer w =>
    obtain ⟨-, ⟨⟩⟩ := Option.ite_none_right_eq_some.mp hs
    exact hframe (getMessage_frame s w)
  | stepBoundary =>
    obtain ⟨hp, ⟨⟩⟩ := Option.ite_none_right_eq_some.mp hs
    exact h.stepBoundary hp _ _
  | loadTimeout =>
    obtain ⟨hp, ⟨⟩⟩ := Option.ite_none_right_eq_some.mp hs
    exact h.loadTimeout hp _
  | computeTimeout =>
    obtain ⟨hp, ⟨⟩⟩ := Option.ite_none_right_eq_some.mp hs
    exact h.finishCompute hp _
  | saveTimeout =>
    obtain ⟨hp, ⟨⟩⟩ := Option.ite_none_right_eq_some.mp hs
    exact ⟨h.endStep hp, nofun⟩
  | closingBoundary =>
    obtain ⟨hp, ⟨⟩⟩ := Option.ite_none_right_eq_some.mp hs
    exact h.closingBoundary hp

/-! ## Runs -/

omit [LinearOrder T] [Zero T] in
theorem inv_init : Inv cfg .init where
  owed _ _ h := by simp [Dp.owed, State.init] at h
  past _ _ _ hk := absurd hk (Nat.not_lt_zero _)
  future _ _ _ := rfl
  uninterrupted _ _ := outside_nil.uninterrupted
  outside _ _ _ := outside_nil
  opened _ _ h := by simp [stepOpen, State.init] at h
  busy_iff := by simp [State.init]
  before _ _ _ _ := rfl
  after h := by simp [State.init] at h

/-- The invariant, the idleness of a parked coordinator and, as long as no
cancellation comes in during a save wait, the emptiness of what was put off. -/
theorem run_invariants {ok : State → Event T → Prop}
    (h : Reaches (State.step cfg) ok .init s) :
    Kept cfg (∀ s e, ok s e → cancelInSaveWait s e = false) s ∧ Idle cfg s :=
  h.invariant (P := fun s => Kept cfg (∀ s e, ok s e → cancelInSaveWait s e = false) s ∧ Idle cfg s)
    ⟨⟨inv_init, fun _ => drained_of_nil fun _ => rfl⟩, nofun⟩
    fun {t e _} ht hok hs => ht.1.step ht.2 (fun hcond => hcond t e hok) hs

/-- In every run in which no cancellation is taken in during a save wait, no
cancellation is applied within a step of its worker, every worker executes
exactly one batch in each step, and when the coordinator parks no worker has
work and every cancellation delivered has been applied. -/
theorem lockstep_protocol (cfg : Config) (s : State)
    (h : Reaches (State.step (T := T) cfg) (fun s e => cancelInSaveWait s e = false) .init s) :
    (∀ w r, Uninterrupted (.prepared w) (.completed w) (.cancelled w r) s.log) ∧
    (∀ w ∈ cfg.workers, ∀ k, k < s.steps ∨ k = s.steps ∧
      (s.phase = .computeWait ∨ s.phase = .saveWait) → executions w k s.log = 1) ∧
    (s.phase = .parked → s.waveRunning = false ∧
      (∀ w ∈ cfg.workers, (s.scheduler w).running = [] ∧ (s.scheduler w).waiting = [] ∧
        (s.scheduler w).loading = [] ∧ (s.scheduler w).loadedWaiting = []) ∧
      (∀ w, s.pendingCancels w = []) ∧
      ∀ w r pre post, s.log = pre ++ .delivered w r :: post → .cancelled w r ∈ post) := by
  obtain ⟨hinv, hidle⟩ := run_invariants h
  refine ⟨hinv.uninterrupted, ?_, fun hp => ?_⟩
  · rintro w hw k (hk | ⟨rfl, hp⟩)
    · exact hinv.past w hw k hk
    · exact hinv.after hp w hw
  · obtain ⟨hwave, hwork⟩ := hidle hp
    have hnil := (hinv.drained fun _ _ he => he).nil (.inl (by rw [hp]; rfl))
    refine ⟨hwave, fun w hw => ?_, hnil, fun w r pre post hlog => ?_⟩
    · have hnone := any_eq_false.mp hwork w hw
      exact Scheduler.hasWork_eq_false.mp (eq_false_of_ne_true hnone)
    · have hnot : owed w r s.log = false := by
        by_contra howed
        have hmem := hinv.owed w r (eq_true_of_ne_false howed)
        rw [hnil] at hmem
        cases hmem
      rw [hlog] at hnot
      exact stop_mem_of_not_since hnot

end Steps

/-- One worker, whose waves may end after the first step. -/
def soloConfig : Config where
  workers := [0]
  syncInterval := 16
  maxModelLen := fun _ => none
  prefillLen := fun _ => 1
  nodup := by decide
  sync_pos := by decide

/-- A request is admitted and scheduled. -/
def soloStart : List (Event Nat) :=
  [.submit 0 [1], .startConsumer 0, .consume 0,
    .stepBoundary (fun _ => some ⟨{ running := [1] }, [1], 0⟩) fun _ => some 1]

def soloEnd : List (Event Nat) := [.closingBoundary, .stepBoundary (fun _ => none) fun _ => none]

/-- A cancellation that comes in during the computation is applied at the end of
the step. -/
theorem lockstep_protocol_sample : ∃ s : State, s.phase = .parked ∧ s.steps = 1 ∧
    executions 0 0 s.log = 1 ∧ s.pendingCancels 0 = [] ∧ .cancelled 0 1 ∈ s.log := by
  obtain ⟨s, hrun, hp, hsteps, hlog⟩ := exists_reaches (State.step (T := Nat) soloConfig)
    (fun s e => cancelInSaveWait s e = false) .init
    (soloStart ++ [.cancelRequests 1, .consume 0,
      .computeTimeout fun _ => some ⟨{ running := [1] }, 0⟩] ++ soloEnd)
    (fun s => s.phase = .parked ∧ s.steps = 1 ∧ .cancelled 0 1 ∈ s.log) (by decide)
  obtain ⟨-, hbatches, hparked⟩ := lockstep_protocol soloConfig s hrun
  exact ⟨s, hp, hsteps, hbatches 0 (by decide) 0 (.inl (by omega)), (hparked hp).2.2.1 0, hlog⟩

/-- A request is sent and cancelled at once during the save wait of the first
step.  Its worker drops it, and the cancellation is put off to the end of a step
that does not come. -/
theorem parked_with_pending_cancel : ∃ s : State,
    Reaches (State.step (T := Nat) soloConfig) (fun _ _ => True) .init s ∧
      s.phase = .parked ∧ s.pendingCancels 0 = [2] ∧ .delivered 0 2 ∈ s.log ∧
      .cancelled 0 2 ∉ s.log :=
  exists_reaches (State.step (T := Nat) soloConfig) (fun _ _ => True) .init
    (soloStart ++ [.computeTimeout fun _ => some ⟨{}, 1⟩, .submit 0 [2], .cancelRequests 2,
      .consume 0, .consume 0, .saveTimeout] ++ soloEnd)
    (fun s => s.phase = .parked ∧ s.pendingCancels 0 = [2] ∧ .delivered 0 2 ∈ s.log ∧
      .cancelled 0 2 ∉ s.log) (by decide)

end TokenSim.Dp
