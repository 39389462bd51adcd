import TokenSim.Af.FfnBatcherBooks

/-!
# Runs of the batcher

`Sound` holds of the queue of every key in every run, whatever the members, the
resources and the estimates do.  The events of the task cannot go on for ever: each one
uses up an interrupt, a pending member or a stage of the task.  When none is possible
the task has ended, and every member has left or has its result.  There is one other
case: a batch of native peers waits for all of them, so a member whose peers do not come
stays in the list.
-/

namespace TokenSim

open List

namespace Af

namespace Batching

/-- The batch at work and the resources it was granted. -/
def Drain.lease? : Drain → Option (Nat × List Nat)
  | .created | .turn | .collect | .boundary => none
  | .submit batch => some (batch.number, [])
  | .request batch granted | .serve batch granted => some (batch.number, granted)

theorem Drain.lease?_eq_none {d : Drain} (h : d.batch? = none) : d.lease? = none := by
  cases d with
  | created | turn | collect | boundary => rfl
  | submit | request | serve => cases h

theorem Drain.number_of_lease? {d : Drain} {b : Nat} {g : List Nat} (h : d.lease? = some (b, g)) :
    ∃ batch, d.batch? = some batch ∧ batch.number = b := by
  cases d with
  | created | turn | collect | boundary => cases h
  | submit batch | request batch | serve batch =>
    cases h
    exact ⟨batch, rfl, rfl⟩

theorem Config.firstWait_batch? (config : Config) : config.firstWait.batch? = none := by
  unfold firstWait
  split
  · rfl
  · split <;> rfl

namespace Queue

def lease? (q : Queue) : Option (Nat × List Nat) := q.task.bind Drain.lease?

variable {q : Queue} {config : Config} {key : BatchKey}

theorem lease?_eq_none (h : q.batch? = none) : q.lease? = none := by
  unfold lease? batch? at *
  cases htask : q.task with
  | none => rfl
  | some d =>
    rw [htask] at h
    exact Drain.lease?_eq_none h

theorem group_eq_nil (h : q.batch? = none) : q.group = [] := by
  rw [group, h]
  rfl

theorem group_eq {batch : Batch} (h : q.batch? = some batch) :
    q.group = batch.members := by
  rw [group, h]
  rfl

/-- What holds of a queue in every run. -/
structure Sound (config : Config) (n : Nat) (q : Queue) : Prop where
  kept : q.Kept (q.pending ++ q.group)
  served : q.task = none → q.pending = []
  /-- An interrupt ends a batch that nobody waits for. -/
  silent : 0 < q.interrupts → ∀ m ∈ q.group, m.id ∈ q.cancelled
  fits : ∀ b ∈ q.executed, b.Fits config
  leases : LeaseBook n q.leases q.executed.length q.lease?

/-- A queue between two batches, whatever its task does. -/
structure Idle (config : Config) (n : Nat) (q : Queue) : Prop where
  kept : q.Kept q.pending
  fits : ∀ b ∈ q.executed, b.Fits config
  leases : LeaseBook n q.leases q.executed.length none

section Operations

variable {n : Nat}

theorem finish_batch? (q : Queue) : q.finish.batch? = none := by
  unfold finish batch?
  dsimp only
  split <;> rfl

theorem sound_finish (hkept : q.Kept q.remaining) (hfits : ∀ b ∈ q.executed, b.Fits config)
    (hleases : LeaseBook n q.leases q.executed.length none) : Sound config n q.finish where
  kept := by
    rw [group_eq_nil (finish_batch? q), append_nil]
    exact { hkept with }
  served := by
    intro hnone
    change q.remaining = []
    change (if q.remaining.isEmpty then none else some Drain.created) = none at hnone
    split at hnone
    · next hempty => exact List.isEmpty_iff.mp hempty
    · cases hnone
  silent := fun hpos => absurd hpos (lt_irrefl 0)
  fits := hfits
  leases := lease?_eq_none (finish_batch? q) ▸ hleases

theorem Idle.finish (h : Idle config n q) : Sound config n q.finish :=
  sound_finish h.kept.remaining h.fits h.leases

theorem Idle.loop (h : Idle config n q) : Sound config n (q.loop config) := by
  unfold Queue.loop
  split
  · exact h.finish
  · have hbatch : ({ q with task := some config.firstWait } : Queue).batch? = none :=
      config.firstWait_batch?
    refine ⟨?_, nofun, fun _ => ?_, h.fits, ?_⟩
    · rw [group_eq_nil hbatch, append_nil]
      exact { h.kept with }
    · rw [group_eq_nil hbatch]
      exact forall_mem_nil _
    · rw [lease?_eq_none hbatch]
      exact h.leases

theorem Sound.idle (h : Sound config n q) (hbatch : q.batch? = none) : Idle config n q where
  kept := by
    have hkept := h.kept
    rwa [group_eq_nil hbatch, append_nil] at hkept
  fits := h.fits
  leases := lease?_eq_none hbatch ▸ h.leases

theorem idle_release (hkept : q.Kept q.pending) (hfits : ∀ b ∈ q.executed, b.Fits config)
    (hleases : LeaseBook n q.leases q.executed.length q.lease?) :
    Idle config n (q.release n) := by
  unfold release
  unfold lease? at hleases
  cases htask : q.task with
  | none =>
    rw [htask] at hleases
    exact ⟨hkept, hfits, hleases⟩
  | some d =>
    rw [htask] at hleases
    cases d with
    | created | turn | collect | boundary => exact ⟨hkept, hfits, hleases⟩
    | submit batch => exact ⟨hkept, hfits, hleases.dismiss⟩
    | request batch granted | serve batch granted =>
      exact ⟨{ hkept with }, hfits, hleases.close⟩

variable {batch : Batch} (h : Sound config n q) (hbatch : q.batch? = some batch)

include h hbatch

theorem Sound.kept_members : q.Kept (q.pending ++ batch.members) := group_eq hbatch ▸ h.kept

theorem Sound.succeed (outcome : BatchMember → Outcome) :
    Idle config n ((q.succeed batch.members outcome).release n) :=
  idle_release ((h.kept_members hbatch).succeed outcome) h.fits h.leases

theorem Sound.fail (e : BatchError) : Idle config n ((q.fail batch.members e).release n) :=
  idle_release ((h.kept_members hbatch).fail e) h.fits h.leases

end Operations

section Steps

variable {n : Nat} (h : Sound config n q)

include h

theorem Sound.arrive {member : BatchMember} (hnew : member.id ∉ q.arrived) :
    Sound config n (q.arrive member) := by
  have hbatch : (q.arrive member).batch? = q.batch? := by
    unfold batch? Queue.arrive
    cases q.task <;> rfl
  have hlease : (q.arrive member).lease? = q.lease? := by
    unfold lease? Queue.arrive
    cases q.task <;> rfl
  have hgroup : (q.arrive member).group = q.group := by
    rw [group, hbatch, group]
  have hkept : Kept (q.arrive member) (member :: (q.pending ++ q.group)) := by
    refine ⟨?_, ?_, ?_, h.kept.once, fun id hid => mem_cons_of_mem _ (h.kept.settled_known id hid),
      ?_⟩
    · rw [map_cons, nodup_cons]
      refine ⟨fun hmem => hnew ?_, h.kept.nodup⟩
      obtain ⟨m, hm, heq⟩ := mem_map.mp hmem
      exact heq ▸ h.kept.known m hm
    · intro m hm
      rcases mem_cons.mp hm with rfl | hm
      · exact mem_cons_self ..
      · exact mem_cons_of_mem _ (h.kept.known m hm)
    · exact forall_mem_cons.mpr ⟨fun hmem => hnew (h.kept.settled_known _ hmem), h.kept.unsettled⟩
    · intro id hid
      rcases mem_cons.mp hid with rfl | hid
      · exact .inr (.inr mem_cons_self)
      · exact (h.kept.fate id hid).imp_right (Or.imp_right (mem_cons_of_mem _))
  refine ⟨?_, nofun, ?_, h.fits, ?_⟩
  · rw [hgroup, Queue.arrive, append_assoc]
    exact hkept.perm perm_middle.symm
  · rw [hgroup]
    exact h.silent
  · rw [hlease]
    exact h.leases

theorem Sound.leave (id : Nat) : Sound config n (q.leave id) := by
  have hkept := h.kept.cancel id
  unfold Queue.leave
  dsimp only
  split
  · next habandoned =>
    refine ⟨{ hkept with }, h.served, fun _ m hm => ?_, h.fits, h.leases⟩
    unfold abandoned at habandoned
    split at habandoned
    · next batch hbatch =>
      have hall := (Bool.and_eq_true_iff.mp habandoned).2
      have hm : m ∈ q.group := hm
      have hmember : m ∈ batch.members := by rwa [group_eq (q := q) hbatch] at hm
      have hleft := all_eq_true.mp hall m hmember
      simpa [isLive] using hleft
    · next hbatch =>
      have hm : m ∈ q.group := hm
      rw [group_eq_nil (q := q) hbatch] at hm
      cases hm
  · exact ⟨hkept, h.served, fun hpos m hm => mem_cons_of_mem _ (h.silent hpos m hm),
      h.fits, h.leases⟩

theorem Sound.form (hbatch : q.batch? = none) (hquiet : q.interrupts = 0) (submitUs : Nat) :
    Sound config n (q.form config submitUs) := by
  have hidle := h.idle hbatch
  have hlive : q.Kept q.live := hidle.kept.filter fun m _ hm => by simpa [isLive] using hm
  have hkept : Kept { q with pending := (q.select config).retained }
      ((q.select config).retained ++ (q.select config).selected) :=
    { hlive.perm ((select_perm config q).symm.trans perm_append_comm) with }
  unfold Queue.form
  dsimp only
  split
  · next hnil =>
    rw [hnil, append_nil] at hkept
    exact Idle.loop ⟨hkept, h.fits, hidle.leases⟩
  · next first rest hselected =>
    rw [hselected] at hkept
    split
    · exact Idle.loop ⟨hkept.fail _, h.fits, hidle.leases⟩
    · next query hquery =>
      refine ⟨?_, by rintro ⟨⟩, fun hpos => ?_, ?_, ?_⟩
      · split
        · exact { hkept with }
        · exact { hkept with }
      · exact absurd hpos (hquiet ▸ Nat.lt_irrefl 0)
      · intro b hb
        rcases mem_append.mp hb with hb | hb
        · exact h.fits b hb
        · rw [mem_singleton.mp hb]
          exact form_fits hselected hquery _
      · rw [length_append, length_singleton]
        have hnew := hidle.leases.newBatch
        split
        · exact hnew
        · exact hnew

theorem Sound.interrupted (hpos : 0 < q.interrupts) : Sound config n (q.interrupted config n) := by
  unfold Queue.interrupted
  dsimp only
  split
  · next hbatch =>
    have hidle := h.idle hbatch
    exact Idle.finish ⟨{ hidle.kept with }, hidle.fits, hidle.leases⟩
  · next batch hbatch =>
    have hbatch : q.batch? = some batch := hbatch
    have hleft : ∀ m ∈ batch.members, m.id ∈ q.cancelled := by
      have hsilent := h.silent hpos
      rwa [group_eq hbatch] at hsilent
    have hkept := (h.kept_members hbatch).drop hleft
    split
    · next hlive =>
      -- nobody waits for a batch whose task is interrupted
      obtain ⟨m, hm, hlive⟩ := hlive
      exact absurd (hleft m hm) (isLive_iff.mp hlive)
    · exact (idle_release (q := { q with interrupts := q.interrupts - 1 })
        { hkept with } h.fits h.leases).loop

theorem Sound.retask {d d' : Drain} (htask : q.task = some d) (hbatch : d'.batch? = d.batch?)
    (hlease : d'.lease? = d.lease?) : Sound config n { q with task := some d' } := by
  have hgroup : Queue.group { q with task := some d' } = q.group := by
    unfold group batch?
    rw [htask]
    exact congrArg (fun b => (b.map Batch.members).getD []) hbatch
  refine ⟨?_, nofun, ?_, h.fits, ?_⟩
  · rw [hgroup]
    exact { h.kept with }
  · rw [hgroup]
    exact h.silent
  · have hleases := h.leases
    rw [lease?, htask] at hleases
    exact (hlease ▸ hleases : LeaseBook n q.leases q.executed.length d'.lease?)

theorem Sound.granted {batch : Batch} {granted : List Nat} {i : Nat}
    (htask : q.task = some (.request batch granted)) (hi : i < n) (hnew : i ∉ granted) :
    Sound config n { q with
      task := some (.request batch (i :: granted))
      leases := q.leases ++ [.granted batch.number i] } := by
  have hgroup : q.group = batch.members := group_eq (by rw [batch?, htask]; rfl)
  have hleases := h.leases
  rw [lease?, htask] at hleases
  refine ⟨?_, nofun, ?_, h.fits, hleases.grant hi hnew⟩
  · have hkept := h.kept
    rw [hgroup] at hkept
    exact { hkept with }
  · have hsilent := h.silent
    rwa [hgroup] at hsilent

end Steps

theorem Sound.empty (config : Config) (n : Nat) : Sound config n .empty := by
  have hkept : Kept .empty [] := ⟨nodup_nil, forall_mem_nil _, forall_mem_nil _,
    nodup_nil, forall_mem_nil _, forall_mem_nil _⟩
  exact ⟨hkept, fun _ => rfl, fun hpos => absurd hpos (lt_irrefl 0), forall_mem_nil _,
    .empty⟩

/-- What the events of a queue do. -/
inductive Steps (config : Config) (key : BatchKey) (serial : Nat) (q : Queue) :
    QueueEvent → Queue → Prop where
  | arrive {member : BatchMember} (hnew : member.id ∉ q.arrived) :
      Steps config key serial q (.arrive member) (q.arrive member)
  | leave (id : Nat) : Steps config key serial q (.leave id) (q.leave id)
  | start (htask : q.task = some .created) : Steps config key serial q .start (q.loop config)
  | turn (htask : q.task = some .turn) :
      Steps config key serial q (.turn none) { q with task := some .collect }
  | turnFails {e : BatchError} (htask : q.task = some .turn) :
      Steps config key serial q (.turn (some e)) (q.fail q.pending e).finish
  | collected (htask : q.task = some .collect) :
      Steps config key serial q .collected { q with task := some .boundary }
  | selected (htask : q.task = some .boundary) (hquiet : q.interrupts = 0) :
      Steps config key serial q .selected (q.form config key.submitUs)
  | submitted {batch : Batch} (htask : q.task = some (.submit batch)) :
      Steps config key serial q (.submitted none) { q with task := some (.request batch []) }
  | granted {batch : Batch} {granted : List Nat} {i : Nat}
      (htask : q.task = some (.request batch granted))
      (hi : i < config.resources key.physicalWorkers) (hnew : i ∉ granted) :
      Steps config key serial q (.granted i) { q with
        task := some (.request batch (i :: granted))
        leases := q.leases ++ [.granted batch.number i] }
  | estimated {batch : Batch} {granted : List Nat}
      (htask : q.task = some (.request batch granted)) :
      Steps config key serial q (.estimated none) { q with task := some (.serve batch granted) }
  /-- An error of the host stage or of the estimate. -/
  | fails {d : Drain} {batch : Batch} {error : BatchError} {e : QueueEvent}
      (htask : q.task = some d) (hbatch : d.batch? = some batch) :
      Steps config key serial q e
        (((q.fail batch.members error).release (config.resources key.physicalWorkers)).loop config)
  | served {batch : Batch} {granted : List Nat} (htask : q.task = some (.serve batch granted)) :
      Steps config key serial q .served
        (((q.succeed batch.members (resultOf key.submitUs serial batch)).release
          (config.resources key.physicalWorkers)).loop config)
  | interrupted (hpos : 0 < q.interrupts) :
      Steps config key serial q .interrupted
        (q.interrupted config (config.resources key.physicalWorkers))

theorem steps_of_step {serial : Nat} {q' : Queue}
    {e : QueueEvent} (hs : q.step config key serial e = some q') :
    Steps config key serial q e q' := by
  cases e with
  | arrive member =>
    obtain ⟨hnew, ⟨⟩⟩ := Option.ite_none_left_eq_some.mp hs
    exact .arrive hnew
  | leave id =>
    obtain ⟨-, ⟨⟩⟩ := Option.ite_none_right_eq_some.mp hs
    exact .leave id
  | start =>
    simp only [Queue.step] at hs
    split at hs <;> cases hs
    exact .start ‹_›
  | turn error =>
    simp only [Queue.step] at hs
    split at hs <;> cases hs
    cases error with
    | none => exact .turn ‹_›
    | some e => exact .turnFails ‹_›
  | collected =>
    simp only [Queue.step] at hs
    split at hs
    · obtain ⟨-, ⟨⟩⟩ := Option.ite_none_right_eq_some.mp hs
      exact .collected ‹_›
    · cases hs
  | selected =>
    simp only [Queue.step] at hs
    split at hs <;> cases hs
    exact .selected ‹_› ‹_›
  | submitted error =>
    simp only [Queue.step] at hs
    split at hs <;> cases hs
    cases error with
    | none => exact .submitted ‹_›
    | some e => exact .fails ‹_› rfl
  | granted i =>
    simp only [Queue.step] at hs
    split at hs
    · obtain ⟨hi, ⟨⟩⟩ := Option.ite_none_right_eq_some.mp hs
      exact .granted ‹_› hi.1 hi.2
    · cases hs
  | estimated error =>
    simp only [Queue.step] at hs
    split at hs
    · obtain ⟨-, ⟨⟩⟩ := Option.ite_none_right_eq_some.mp hs
      cases error with
      | none => exact .estimated ‹_›
      | some e => exact .fails ‹_› rfl
    · cases hs
  | served =>
    simp only [Queue.step] at hs
    split at hs <;> cases hs
    exact .served ‹_›
  | interrupted =>
    simp only [Queue.step] at hs
    split at hs
    · cases hs
    · cases hs
    · obtain ⟨hpos, ⟨⟩⟩ := Option.ite_none_left_eq_some.mp hs
      exact .interrupted (Nat.pos_of_ne_zero hpos)

theorem Sound.step {serial : Nat} {q' : Queue}
    {e : QueueEvent} (h : Sound config (config.resources key.physicalWorkers) q)
    (hs : q.step config key serial e = some q') :
    Sound config (config.resources key.physicalWorkers) q' := by
  have hbatchOf : ∀ {d : Drain}, q.task = some d → q.batch? = d.batch? := fun ht => by
    rw [batch?, ht]
    rfl
  cases steps_of_step hs with
  | arrive hnew => exact h.arrive hnew
  | leave id => exact h.leave id
  | start htask => exact (h.idle (hbatchOf htask)).loop
  | turn htask | collected htask | submitted htask | estimated htask =>
    exact h.retask htask rfl rfl
  | turnFails htask =>
    have hidle := h.idle (hbatchOf htask)
    refine sound_finish ?_ h.fits hidle.leases
    rw [remaining_fail]
    exact (hidle.kept : q.Kept ([] ++ q.pending)).fail _
  | selected htask hquiet => exact h.form (hbatchOf htask) hquiet _
  | granted htask hi hnew => exact h.granted htask hi hnew
  | fails htask hbatch => exact (h.fail ((hbatchOf htask).trans hbatch) _).loop
  | served htask => exact (h.succeed (hbatchOf htask) _).loop
  | interrupted hpos => exact h.interrupted hpos

/-! ## Progress -/

/-- What is left of a round of the task. -/
def stage (n : Nat) (q : Queue) : Nat :=
  match q.task with
  | none => 0
  | some .boundary => 1
  | some .collect => 2
  | some .turn => 3
  | some .created => 4
  | some (.serve _ _) => 5
  | some (.request _ granted) => 6 + ((List.range n).filter (· ∉ granted)).length
  | some (.submit _) => 7 + n

/-- Interrupts, then pending members, then the stage of the task. -/
def work (n : Nat) (q : Queue) : Nat × Nat × Nat := (q.interrupts, q.pending.length, q.stage n)

def Lower (n : Nat) (q' q : Queue) : Prop :=
  Prod.Lex (· < ·) (Prod.Lex (· < ·) (· < ·)) (q'.work n) (q.work n)

theorem wellFounded_lower (n : Nat) : WellFounded (Lower n) :=
  InvImage.wf _ (Nat.lt_wfRel.wf.prod_lex (Nat.lt_wfRel.wf.prod_lex Nat.lt_wfRel.wf))

section Progress

variable {n : Nat} {q' : Queue}

theorem lower_of_interrupts (h : q'.interrupts < q.interrupts) : Lower n q' q := .left _ _ h

theorem lower_of_stage (hinterrupts : q'.interrupts ≤ q.interrupts)
    (hpending : q'.pending.length ≤ q.pending.length) (hstage : q'.stage n < q.stage n) :
    Lower n q' q := by
  rw [Lower, work, work, Prod.lex_def, Prod.lex_def]
  dsimp only
  omega

theorem lower_of_pending (hinterrupts : q'.interrupts ≤ q.interrupts)
    (hpending : q'.pending.length < q.pending.length) : Lower n q' q := by
  rw [Lower, work, work, Prod.lex_def, Prod.lex_def]
  dsimp only
  omega

theorem stage_firstWait (config : Config) (q : Queue) (n : Nat) :
    stage n { q with task := some config.firstWait } ≤ 3 := by
  unfold Config.firstWait
  split
  · exact Nat.le_refl 3
  · split
    · exact Nat.le_succ 2
    · exact Nat.le_add_left 1 2

theorem length_remaining_le (q : Queue) : q.remaining.length ≤ q.pending.length :=
  length_filter_le _ _

theorem stage_finish (h : q.remaining = []) : stage n q.finish = 0 := by
  unfold stage finish
  rw [h]
  rfl

theorem remaining_eq_nil (h : q.live = []) : q.remaining = [] := by
  have hsub : q.remaining ⊆ q.live := by
    intro m hm
    obtain ⟨hm, hp⟩ := mem_filter.mp hm
    exact mem_filter.mpr ⟨hm, (Bool.and_eq_true_iff.mp hp).1⟩
  rw [h] at hsub
  exact eq_nil_of_subset_nil hsub

theorem loop_le (config : Config) (q : Queue) (n : Nat) :
    (q.loop config).interrupts ≤ q.interrupts ∧
      (q.loop config).pending.length ≤ q.pending.length ∧ (q.loop config).stage n ≤ 3 := by
  unfold loop
  split
  · next hempty =>
    have hnil := remaining_eq_nil (List.isEmpty_iff.mp hempty)
    exact ⟨Nat.zero_le _, length_remaining_le q, stage_finish (n := n) hnil ▸ Nat.zero_le 3⟩
  · exact ⟨le_rfl, le_rfl, stage_firstWait config q n⟩

theorem release_interrupts (q : Queue) (n : Nat) : (q.release n).interrupts = q.interrupts := by
  unfold release
  split <;> rfl

theorem release_pending (q : Queue) (n : Nat) : (q.release n).pending = q.pending := by
  unfold release
  split <;> rfl

/-- The end of a batch. -/
theorem loop_release_lower {q₁ : Queue} (hinterrupts : q₁.interrupts = q.interrupts)
    (hpending : q₁.pending = q.pending) (hstage : 3 < q.stage n) (m : Nat) :
    Lower n ((q₁.release m).loop config) q := by
  obtain ⟨hi, hp, hs⟩ := loop_le config (q₁.release m) n
  rw [release_interrupts, hinterrupts] at hi
  rw [release_pending, hpending] at hp
  exact lower_of_stage hi hp (lt_of_le_of_lt hs hstage)

theorem form_lower (htask : q.task = some .boundary) (submitUs : Nat) :
    Lower n (q.form config submitUs) q := by
  have hlength : (q.select config).selected.length + (q.select config).retained.length ≤
      q.pending.length := by
    rw [← length_append, (select_perm config q).length_eq]
    exact length_filter_le _ _
  unfold form
  dsimp only
  split
  · next hnil =>
    have hlive : q.live = [] := by
      have hhead := select_head? config q
      rw [hnil] at hhead
      exact head?_eq_none_iff.mp hhead.symm
    have hretained : (q.select config).retained = [] := by
      have hperm := select_perm config q
      rw [hnil, hlive] at hperm
      exact hperm.eq_nil
    rw [loop, if_pos (by rw [live, hretained]; rfl)]
    refine lower_of_stage (Nat.zero_le _) ?_ ?_
    · exact (length_remaining_le _).trans (by rw [hretained]; exact Nat.zero_le _)
    · rw [stage_finish (by rw [remaining, hretained]; rfl), stage, htask]
      exact Nat.one_pos
  · next first rest hselected =>
    rw [hselected, length_cons] at hlength
    split
    · next e _ =>
      obtain ⟨hi, hp, -⟩ := loop_le config
        (Queue.fail { q with pending := (q.select config).retained } (first :: rest) e) n
      refine lower_of_pending hi (lt_of_le_of_lt hp ?_)
      change (q.select config).retained.length < _
      omega
    · refine lower_of_pending le_rfl ?_
      change (q.select config).retained.length < _
      omega

theorem length_missing_lt {n i : Nat} {granted : List Nat} (hi : i < n) (hnew : i ∉ granted) :
    ((List.range n).filter (· ∉ i :: granted)).length <
      ((List.range n).filter (· ∉ granted)).length := by
  have hsplit : (List.range n).filter (· ∉ i :: granted) =
      ((List.range n).filter (· ∉ granted)).filter (· ≠ i) := by
    rw [filter_filter]
    congr 1
    funext j
    simp [not_or]
  rw [hsplit]
  refine length_filter_lt_length_iff_exists.mpr ⟨i, ?_, by simp⟩
  exact mem_filter.mpr ⟨mem_range.mpr hi, by simpa using hnew⟩

theorem three_lt_stage {d : Drain} {batch : Batch} (htask : q.task = some d)
    (hbatch : d.batch? = some batch) : 3 < q.stage n := by
  rw [stage, htask]
  cases d with
  | created | turn | collect | boundary => cases hbatch
  | submit | request | serve =>
    dsimp only
    omega

theorem interrupted_interrupts_lt (hpos : 0 < q.interrupts) :
    (q.interrupted config n).interrupts < q.interrupts := by
  unfold interrupted
  dsimp only
  split
  · exact hpos
  · split
    · exact hpos
    · obtain ⟨hi, -, -⟩ := loop_le config
        (Queue.release { q with interrupts := q.interrupts - 1 } n) 0
      rw [release_interrupts] at hi
      exact lt_of_le_of_lt hi (Nat.sub_one_lt_of_lt hpos)

/-- Every event of the task or of its resources uses up some work. -/
theorem step_lower {key : BatchKey} {serial : Nat} {e : QueueEvent} (he : e.isInternal = true)
    (hs : q.step config key serial e = some q') :
    Lower (config.resources key.physicalWorkers) q' q := by
  cases steps_of_step hs with
  | arrive | leave => cases he
  | start htask =>
    obtain ⟨hi, hp, hstage⟩ := loop_le config q (config.resources key.physicalWorkers)
    refine lower_of_stage hi hp (lt_of_le_of_lt hstage ?_)
    rw [stage, htask]
    exact Nat.lt_succ_self 3
  | turn htask =>
    refine lower_of_stage le_rfl le_rfl ?_
    rw [stage, stage, htask]
    exact Nat.lt_succ_self 2
  | turnFails htask =>
    refine lower_of_stage (Nat.zero_le _) (length_remaining_le _) ?_
    rw [stage_finish (remaining_fail q _), stage, htask]
    exact Nat.zero_lt_succ 2
  | collected htask =>
    refine lower_of_stage le_rfl le_rfl ?_
    rw [stage, stage, htask]
    exact Nat.lt_succ_self 1
  | selected htask hquiet => exact form_lower htask _
  | submitted htask =>
    refine lower_of_stage le_rfl le_rfl ?_
    have hle := length_filter_le (fun i => decide (i ∉ ([] : List Nat)))
      (List.range (config.resources key.physicalWorkers))
    rw [length_range] at hle
    rw [stage, stage, htask]
    dsimp only
    omega
  | granted htask hi hnew =>
    refine lower_of_stage le_rfl le_rfl ?_
    rw [stage, stage, htask]
    exact Nat.add_lt_add_left (length_missing_lt hi hnew) 6
  | estimated htask =>
    refine lower_of_stage le_rfl le_rfl ?_
    rw [stage, stage, htask]
    dsimp only
    omega
  | fails htask hbatch =>
    exact loop_release_lower (by rfl) (by rfl) (three_lt_stage htask hbatch) _
  | served htask => exact loop_release_lower (by rfl) (by rfl) (three_lt_stage htask rfl) _
  | interrupted hpos => exact lower_of_interrupts (interrupted_interrupts_lt hpos)

end Progress

/-- Neither the task nor its resources can do anything. -/
def Quiet (config : Config) (key : BatchKey) (q : Queue) : Prop :=
  ∀ (serial : Nat) (e : QueueEvent), e.isInternal = true → q.step config key serial e = none

/-- The task has ended, or waits for the peers of a native batch. -/
theorem Quiet.task (h : q.Quiet config key) :
    q.task = none ∨ config.native = true ∧ q.task = some .collect ∧
      (q.live.map fun m => m.block.aDpRank).eraseDups.length < config.dataParallelSize := by
  have hinterrupted := h 0 .interrupted rfl
  simp only [Queue.step] at hinterrupted
  cases htask : q.task with
  | none => exact .inl rfl
  | some d =>
    have hquiet : d ≠ .created → q.interrupts = 0 := by
      intro hd
      rw [htask] at hinterrupted
      cases d with
      | created => exact absurd rfl hd
      | _ =>
        dsimp only at hinterrupted
        split at hinterrupted
        · assumption
        · cases hinterrupted
    cases d with
    | created => simpa [Queue.step, htask] using h 0 .start rfl
    | turn => simpa [Queue.step, htask, hquiet nofun] using h 0 (.turn none) rfl
    | collect =>
      have hcollected := h 0 .collected rfl
      simp only [Queue.step, htask, hquiet nofun] at hcollected
      split at hcollected
      · cases hcollected
      · next hwaits =>
        rw [collected, Classical.not_imp, not_le] at hwaits
        exact .inr ⟨hwaits.1, rfl, hwaits.2⟩
    | boundary => simpa [Queue.step, htask, hquiet nofun] using h 0 .selected rfl
    | submit => simpa [Queue.step, htask, hquiet nofun] using h 0 (.submitted none) rfl
    | request batch granted =>
      have hestimated := h 0 (.estimated none) rfl
      simp only [Queue.step, htask, hquiet nofun] at hestimated
      split at hestimated
      · cases hestimated
      · next hmissing =>
        -- a request that is not granted is granted some time
        push Not at hmissing
        obtain ⟨i, hi, hnew⟩ := hmissing
        have hgranted := h 0 (.granted i) rfl
        simp only [Queue.step, htask, hi, hnew, not_false_eq_true, and_self, if_true] at hgranted
        cases hgranted
    | serve => simpa [Queue.step, htask, hquiet nofun] using h 0 .served rfl

end Queue

/-! ## The batcher -/

/-- What the members of a key rely on. -/
structure Served (config : Config) (key : BatchKey) (q : Queue) : Prop where
  /-- No member has two results. -/
  once : (q.settled.map Prod.fst).Nodup
  batches : ∀ b ∈ q.executed, b.Fits config
  /-- A resource is granted and released at most once for a batch. -/
  leases : q.leases.Nodup
  /-- What is released was granted, and what was granted is released when the batch has
  ended. -/
  released : ∀ b i, (.released b i ∈ q.leases → .granted b i ∈ q.leases) ∧
    (.granted b i ∈ q.leases →
      .released b i ∈ q.leases ∨ ∃ batch, q.batch? = some batch ∧ batch.number = b)
  /-- When nothing can happen any more every member has left or has its result, or it is
  pending and waits for native peers. -/
  settled : q.Quiet config key → ∀ id ∈ q.arrived,
    id ∈ q.cancelled ∨ id ∈ q.settled.map Prod.fst ∨
      config.native = true ∧ id ∈ q.live.map BatchMember.id ∧ (q.live.map fun m => m.block.aDpRank).eraseDups.length <
        config.dataParallelSize

theorem Queue.Sound.isServed {config : Config} {key : BatchKey} {q : Queue}
    (h : q.Sound config (config.resources key.physicalWorkers)) : Served config key q where
  once := h.kept.once
  batches := h.fits
  leases := h.leases.nodup
  released b i := by
    refine ⟨h.leases.released b i, fun hgranted => (h.leases.settled b i hgranted).imp_right ?_⟩
    rintro ⟨g, hlease⟩
    obtain ⟨d, hd, hlease⟩ := Option.bind_eq_some_iff.mp hlease
    obtain ⟨batch, hbatch, hnumber⟩ := Drain.number_of_lease? hlease
    exact ⟨batch, Option.bind_eq_some_iff.mpr ⟨d, hd, hbatch⟩, hnumber⟩
  settled hquiet id hid := by
    by_cases hc : id ∈ q.cancelled
    · exact .inl hc
    refine .inr ((h.kept.fate id hid).resolve_left hc |>.imp_right fun hw => ?_)
    rcases hquiet.task with htask | ⟨hnative, htask, hpeers⟩ <;>
      rw [Queue.group_eq_nil (by rw [Queue.batch?, htask]; rfl), append_nil] at hw
    · rw [h.served htask] at hw
      cases hw
    · obtain ⟨m, hm, rfl⟩ := mem_map.mp hw
      exact ⟨hnative, mem_map_of_mem (mem_filter.mpr ⟨hm, Queue.isLive_iff.mpr hc⟩), hpeers⟩

namespace FFNBatcher

/-- All queues are sound. -/
def Sound (config : Config) (s : FFNBatcher) : Prop :=
  ∀ key, (s.queues key).Sound config (config.resources key.physicalWorkers)

theorem Sound.init (config : Config) : Sound config init := fun _ => Queue.Sound.empty config _

variable {config : Config}

theorem Sound.advance {s s' : FFNBatcher} {key : BatchKey} {event : QueueEvent}
    (h : Sound config s) (hs : s.advance config key event = some s') : Sound config s' := by
  obtain ⟨q, hq, rfl⟩ := Option.map_eq_some_iff.mp hs
  intro key'
  change Queue.Sound config _ (Function.update s.queues key q key')
  by_cases hkey : key' = key
  · subst hkey
    rw [Function.update_self]
    exact (h key').step hq
  · rw [Function.update_of_ne hkey]
    exact h key'

theorem Sound.step {s s' : FFNBatcher} {e : Event} (h : Sound config s)
    (hs : s.step config e = some s') : Sound config s' := by
  cases e with
  | run member submitUs => exact h.advance hs
  | on key event =>
    cases event with
    | arrive member => cases hs
    | _ => exact h.advance hs

/-- In every run of the batcher the members of every key are served, and on their own the
task of a key and its resources stop after finitely many events. -/
theorem batcher_serves (config : Config) (s : FFNBatcher)
    (h : Reaches (step config) (fun _ _ => True) init s) (key : BatchKey) :
    Served config key (s.queues key) ∧
      WellFounded fun q' q : Queue => ∃ (serial : Nat) (e : QueueEvent),
        e.isInternal = true ∧ q.step config key serial e = some q' := by
  have hsound : Sound config s :=
    h.invariant (Sound.init config) fun hsound _ hs => hsound.step hs
  refine ⟨(hsound key).isServed, ?_⟩
  refine Subrelation.wf ?_ (Queue.wellFounded_lower (config.resources key.physicalWorkers))
  rintro q' q ⟨serial, e, he, hs⟩
  exact Queue.step_lower he hs

/-! A member of two replicas, alone and with its peer. -/

def routerQuery : AFComputeQuery where
  phase := "decode"
  tokenCount := 1
  contextLengths := [8]
  queryLengths := [1]
  dtype := "bf16"
  weightDtype := none
  activationDtype := none
  localShape := .set .empty "tokens" 1
  localTokenCount := 1
  expertIds := []
  expertWorkload := []
  routingEdges := []
  tensorSlices := []
  originalTokenCount := none
  assignmentCount := none
  inputEdgeCount := none
  outputTokenCount := none

def routerWork : Planning.RankLocalWork where
  tokenCount := 1
  tensorShape := [("tokens", 1)]
  expertIds := []
  expertWorkload := []
  originalTokenCount := none
  assignmentCount := none
  outputTokenCount := none
  tensorSlices := []
  sourceLayout := none
  targetLayout := none
  routingEdges := []
  sourceDtype := none
  targetDtype := none

/-- The router of a block of a replica. -/
def routerMember (id rank : Nat) : BatchMember :=
  ⟨id, ⟨0, 0, "a", rank, 1⟩, 0,
    Planning.plainNode "router" "router" .compute (some .router) (some routerWork) [], routerQuery⟩

def twoReplicas (native : Bool) : Config := ⟨native, 2, 4, 0, false, fun _ => 1⟩

theorem quiet_of_missing_peers {key : BatchKey} {q : Queue}
    (htask : q.task = some .collect) (hquiet : q.interrupts = 0) (hpeers : ¬ q.collected config) :
    q.Quiet config key := by
  intro serial e he
  cases e with
  | arrive | leave => cases he
  | collected => simp only [Queue.step, htask, hquiet, if_neg hpeers]
  | interrupted => simp only [Queue.step, htask, hquiet, if_true]
  | _ => simp only [Queue.step, htask]

/-- The drain waits for its peers. -/
def Drain.isCollect : Drain → Bool
  | .collect => true
  | _ => false

/-- Native peers: a member whose peer does not come has no result and never gets one, and
two members of one owner are executed in one batch. -/
theorem native_waits_and_doubles :
    (∃ s, Reaches (step (twoReplicas true)) (fun _ _ => True) init s ∧
      ∃ key, (s.queues key).Quiet (twoReplicas true) key ∧ 0 ∈ (s.queues key).arrived ∧
        0 ∉ (s.queues key).cancelled ∧ 0 ∉ (s.queues key).settled.map Prod.fst) ∧
    ∃ s, Reaches (step (twoReplicas true)) (fun _ _ => True) init s ∧
      ∃ key, ∃ b ∈ (s.queues key).executed, ¬ (b.members.map BatchMember.owner).Nodup := by
  let key := keyOf (twoReplicas true) (routerMember 0 0) 0
  constructor
  · obtain ⟨s, hs, htask, hquiet, hpeers, hmember⟩ := exists_reaches (step (twoReplicas true))
      (fun _ _ => True) init [.run (routerMember 0 0) 0, .on key .start, .on key (.turn none)]
      (fun s => (s.queues key).task.any Drain.isCollect = true ∧
        (s.queues key).interrupts = 0 ∧ ¬ (s.queues key).collected (twoReplicas true) ∧
        0 ∈ (s.queues key).arrived ∧ 0 ∉ (s.queues key).cancelled ∧
        0 ∉ (s.queues key).settled.map Prod.fst) (by decide +kernel)
    refine ⟨s, hs, key, quiet_of_missing_peers ?_ hquiet hpeers, hmember⟩
    obtain ⟨drain, hdrain, hcollect⟩ := (Option.any_eq_true ..).mp htask
    cases drain with
    | collect => exact hdrain
    | _ => cases hcollect
  · obtain ⟨s, hs, hdouble⟩ := exists_reaches (step (twoReplicas true)) (fun _ _ => True) init
      [.run (routerMember 0 0) 0, .run (routerMember 1 0) 0, .run (routerMember 2 1) 0,
        .on key .start, .on key (.turn none), .on key .collected, .on key .selected]
      (fun s => ∃ b ∈ (s.queues key).executed, ¬ (b.members.map BatchMember.owner).Nodup)
      (by decide +kernel)
    exact ⟨s, hs, key, hdouble⟩

/-- Two replicas are served by one batch. -/
theorem batcher_serves_two : ∃ s, Reaches (step (twoReplicas false)) (fun _ _ => True) init s ∧
    ∃ key, (s.queues key).settled.map Prod.fst = [0, 1] ∧ (s.queues key).executed.length = 1 ∧
      Served (twoReplicas false) key (s.queues key) := by
  let key := keyOf (twoReplicas false) (routerMember 0 0) 0
  obtain ⟨s, hs, hsettled, hexecuted⟩ := exists_reaches (step (twoReplicas false))
    (fun _ _ => True) init
    [.run (routerMember 0 0) 0, .on key .start, .run (routerMember 1 1) 0, .on key .collected,
      .on key .selected, .on key (.granted 0), .on key (.estimated none), .on key .served]
    (fun s => (s.queues key).settled.map Prod.fst = [0, 1] ∧ (s.queues key).executed.length = 1)
    (by decide +kernel)
  exact ⟨s, hs, key, hsettled, hexecuted, (batcher_serves _ s hs key).1⟩

end FFNBatcher

end Batching

end Af

end TokenSim
