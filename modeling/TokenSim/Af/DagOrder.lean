import Mathlib.Logic.Relation
import TokenSim.Af.DagRun
import TokenSim.Lib.Runs

/-!
# A DAG runs in the order of its dependencies

A node that has ended without the failure event being triggered has finished, unless
the run was interrupted (`Inv.ended`).  This is why it suffices that a process looks
at the failure event after its wait.

For a bound collective the waiting is left to the phases of its plan, and only the
phases without predecessors wait.  `Covered` is what a plan must satisfy for that to
be enough: the participants of a phase take part in phases without predecessors that
it comes after.  The rings and hierarchies of the collectives do so.  The phase of an
all-to-all plan between two nodes does not: it comes after the local phase of the
source node only.
-/

namespace TokenSim

open List Option

namespace Af

/-! ## Conditions on plans -/

namespace DagNode

variable (node : DagNode)

/-- `q` is `p` or one of the phases `p` comes after. -/
inductive Before : CommPhase → CommPhase → Prop where
  | refl (p : CommPhase) : Before p p
  | step {q r p : CommPhase} : Before q r → r ∈ node.phases → r.phaseId ∈ p.predecessorIds →
      Before q p

/-- The phases that wait for producers do so for the participants of all phases, and
for all bindings. -/
structure Covered : Prop where
  participants : ∀ p ∈ node.phases, ∀ device ∈ p.participants, ∃ q ∈ node.phases,
    node.Before q p ∧ q.predecessorIds = [] ∧ device ∈ q.participants
  bindings : ∀ e ∈ node.inputProducerIds, ∃ q ∈ node.phases,
    q.predecessorIds = [] ∧ e.1 ∈ q.participants

end DagNode

/-- The plans of the bound collectives are covered. -/
def AFExecutionDAG.Covered (physical : Bool) (dag : AFExecutionDAG) : Prop :=
  ∀ node ∈ dag.nodes, node.subgroup physical = true → node.Covered

variable {dag : AFExecutionDAG} {node : DagNode}

theorem AFExecutionDAG.node?_eq_some {id : String}
    (h : dag.node? id = some node) : node ∈ dag.nodes ∧ node.nodeId = id :=
  ⟨mem_of_find?_eq_some h, by simpa using find?_some h⟩

theorem DagNode.phase?_eq_some {id : String} {phase : CommPhase}
    (h : node.phase? id = some phase) : phase ∈ node.phases ∧ phase.phaseId = id :=
  ⟨mem_of_find?_eq_some h, by simpa using find?_some h⟩

theorem AFExecutionDAG.mem_after {before after : List DagNode}
    {n m : DagNode} (h : dag.nodes = before ++ n :: after) (hm : m ∈ dag.nodes)
    (hp : n.nodeId ∈ m.predecessorIds) : m ∈ after := by
  have hnodup := dag.ids_nodup
  rw [h, map_append, map_cons] at hnodup
  have hnot : n.nodeId ∉ before.map DagNode.nodeId := fun hmem =>
    (nodup_append.mp hnodup).2.2 _ hmem _ mem_cons_self rfl
  rw [h, mem_append, mem_cons] at hm
  rcases hm with hm | rfl | hm
  · obtain ⟨first, second, rfl⟩ := append_of_mem hm
    have hmem := dag.ordered first m (second ++ n :: after) (by simp [h]) _ hp
    exact absurd (map_append ▸ mem_append_left _ hmem) hnot
  · exact absurd (dag.ordered before m after h _ hp) hnot
  · exact hm

theorem AFExecutionDAG.eq_of_nodeId {m n : DagNode} (hm : m ∈ dag.nodes)
    (hn : n ∈ dag.nodes) (h : m.nodeId = n.nodeId) : m = n :=
  inj_on_of_nodup_map dag.ids_nodup hm hn h

theorem DagNode.eq_of_phaseId {p q : CommPhase} (hp : p ∈ node.phases)
    (hq : q ∈ node.phases) (h : p.phaseId = q.phaseId) : p = q :=
  inj_on_of_nodup_map node.phases_nodup hp hq h

namespace DagRun

variable {physical : Bool} {dag : AFExecutionDAG} {s t : DagRun}

theorem status_setStatus (s : DagRun) (id id' : String) (status : NodeStatus) :
    (s.setStatus id status).status id' = if id' = id then status else s.status id' :=
  Function.update_apply ..

theorem phase_setPhase (s : DagRun) (id phaseId id' phaseId' : String) (status : PhaseStatus) :
    (s.setPhase id phaseId status).phase id' phaseId' =
      if id' = id ∧ phaseId' = phaseId then status else s.phase id' phaseId' := by
  by_cases hid : id' = id
  · subst hid
    simp only [setPhase, Function.update_self, true_and]
    exact Function.update_apply ..
  · simp only [setPhase, Function.update_of_ne hid, hid, false_and, if_false]

/-- What a phase has seen when it has started. -/
structure PhaseInv (physical : Bool) (s : DagRun) (node : DagNode) (phase : CommPhase) : Prop where
  predecessors : ∀ q ∈ phase.predecessorIds, s.phase node.nodeId q = .completed
  waited : ∀ p ∈ node.waitsFor physical, s.status p = .finished
  inputs : node.subgroup physical = true → phase.predecessorIds = [] →
    ∀ device ∈ phase.participants, ∃ e ∈ node.inputProducerIds, e.1 = device ∧
      s.status e.2 = .finished

structure Inv (physical : Bool) (dag : AFExecutionDAG) (s : DagRun) : Prop where
  failed : ∀ id, s.status id = .failed ∨ s.status id = .skipped → s.failure = true
  cancelled : ∀ id, s.status id = .cancelled → s.failure = true ∨ s.run.stopped = true
  failing : s.run = .failing ∨ s.run = .raised → s.failure = true
  nodes : ∀ node ∈ dag.nodes, s.status node.nodeId = .running ∨ s.status node.nodeId = .finished →
    ∀ p ∈ node.waitsFor physical, s.status p = .finished
  phases : ∀ node ∈ dag.nodes, ∀ phase ∈ node.phases,
    s.phase node.nodeId phase.phaseId = .running ∨ s.phase node.nodeId phase.phaseId = .completed →
      PhaseInv physical s node phase
  finished : ∀ node ∈ dag.nodes, s.status node.nodeId = .finished →
    ∀ phase ∈ node.phases, s.phase node.nodeId phase.phaseId = .completed
  returned : s.run = .returned → ∀ id ∈ dag.terminalNodeIds, s.status id = .finished

/-- Without a failure or an interrupt, what has ended has finished. -/
theorem Inv.ended (h : Inv physical dag s) (hf : s.failure = false)
    (hrun : s.run.stopped = false) {id : String} (he : (s.status id).ended = true) :
    s.status id = .finished := by
  cases hs : s.status id with
  | finished => rfl
  | pending | running =>
    rw [hs] at he
    cases he
  | failed => cases hf.symm.trans (h.failed id (.inl hs))
  | skipped => cases hf.symm.trans (h.failed id (.inr hs))
  | cancelled =>
    rcases h.cancelled id hs with hfail | hstopped
    · cases hf.symm.trans hfail
    · cases hrun.symm.trans hstopped

/-! ## Steps -/

variable {node : DagNode} {event : Event}

/-- What a step can do: a node, a phase or the run changes its status. -/
inductive Moves (physical : Bool) (dag : AFExecutionDAG) (s : DagRun) (event : Event) :
    DagRun → Prop where
  | node (id : String) (status : NodeStatus) (failure : Bool)
      (alive : (s.status id).ended = false)
      (kept : s.failure = true → failure = true)
      (failed : status = .failed ∨ status = .skipped → failure = true)
      (cancelled : status = .cancelled → s.run = .failing ∨ s.run.stopped = true)
      (started : status = .running → s.failure = false ∧ ∀ node ∈ dag.nodes, node.nodeId = id →
        (s.run.stopped = true → node.waitsFor physical = []) ∧
          ∀ p ∈ node.waitsFor physical, (s.status p).ended = true)
      (finished : status = .finished → s.status id = .running ∧ ∀ node ∈ dag.nodes,
        node.nodeId = id → ∀ phase ∈ node.phases, s.phase id phase.phaseId = .completed) :
      Moves physical dag s event { s.setStatus id status with failure := failure }
  | phase (id phaseId : String) (status : PhaseStatus)
      (alive : s.phase id phaseId ≠ .completed)
      (started : status = .running → ∀ node ∈ dag.nodes, node.nodeId = id →
        ∀ phase ∈ node.phases, phase.phaseId = phaseId →
          s.status id = .running ∧ s.run.stopped = false ∧ s.PhaseReady physical node phase)
      (completed : status = .completed → s.phase id phaseId = .running) :
      Moves physical dag s event (s.setPhase id phaseId status)
  | run (run : RunStatus)
      (kept : s.run.stopped = true → run.stopped = true)
      (failing : run = .failing ∨ run = .raised → s.run = .failing ∨ s.failure = true)
      (returned : run = .returned → s.failure = false ∧ s.run.stopped = false ∧
        ∀ id ∈ dag.terminalNodeIds, (s.status id).ended = true)
      (left : run = .raised ∨ run = .interrupted →
        s.AllEnded dag ∨ s.run = .cancelling ∧ event = .interrupt) :
      Moves physical dag s event { s with run := run }

theorem moves_of_step (hs : step physical dag s event = some t) :
    Moves physical dag s event t := by
  cases event with
  | resume id =>
    obtain ⟨node, hnode, hs⟩ := bind_eq_some_iff.mp hs
    obtain ⟨hmem, rfl⟩ := AFExecutionDAG.node?_eq_some hnode
    obtain ⟨⟨hpending, hrun⟩, hs⟩ := ite_none_right_eq_some.mp hs
    have halive : (s.status node.nodeId).ended = false := by rw [hpending]; rfl
    split at hs
    · next hfail =>
      cases hs
      exact .node node.nodeId .skipped s.failure halive id (fun _ => hfail) nofun nofun nofun
    · next hfail =>
      obtain ⟨hready, ⟨⟩⟩ := ite_none_right_eq_some.mp hs
      refine .node node.nodeId .running s.failure halive id (fun hon => hon.elim nofun nofun) nofun
        (fun _ => ⟨Bool.eq_false_iff.mpr hfail, fun node' hn heq => ?_⟩) nofun
      obtain rfl := AFExecutionDAG.eq_of_nodeId hn hmem heq
      exact ⟨hrun, hready⟩
  | finish id =>
    obtain ⟨node, hnode, hs⟩ := bind_eq_some_iff.mp hs
    obtain ⟨hmem, rfl⟩ := AFExecutionDAG.node?_eq_some hnode
    obtain ⟨⟨hrunning, hphases⟩, ⟨⟩⟩ := ite_none_right_eq_some.mp hs
    refine .node node.nodeId .finished s.failure (by rw [hrunning]; rfl) id
      (fun hon => hon.elim nofun nofun) nofun nofun fun _ => ⟨hrunning, fun node' hn heq => ?_⟩
    obtain rfl := AFExecutionDAG.eq_of_nodeId hn hmem heq
    exact hphases
  | fail id =>
    obtain ⟨node, -, hs⟩ := bind_eq_some_iff.mp hs
    obtain ⟨hrunning, ⟨⟩⟩ := ite_none_right_eq_some.mp hs
    exact .node id .failed true (by rw [hrunning]; rfl) (fun _ => rfl) (fun _ => rfl) nofun nofun
      nofun
  | startPhase id phaseId =>
    simp only [DagRun.step, bind_eq_bind, bind_eq_some_iff] at hs
    obtain ⟨node, hnode, phase, hphase, hs⟩ := hs
    obtain ⟨hmem, rfl⟩ := AFExecutionDAG.node?_eq_some hnode
    obtain ⟨hmine, rfl⟩ := DagNode.phase?_eq_some hphase
    obtain ⟨⟨hrunning, hpending, hrun, hready⟩, ⟨⟩⟩ := ite_none_right_eq_some.mp hs
    refine .phase node.nodeId phase.phaseId .running (by rw [hpending]; exact nofun)
      (fun _ node' hn heq phase' hp hsame => ?_) nofun
    obtain rfl := AFExecutionDAG.eq_of_nodeId hn hmem heq
    obtain rfl := DagNode.eq_of_phaseId hp hmine hsame
    exact ⟨hrunning, hrun, hready⟩
  | finishPhase id phaseId =>
    obtain ⟨hrunning, ⟨⟩⟩ := ite_none_right_eq_some.mp hs
    exact .phase id phaseId .completed (by rw [hrunning]; exact nofun) nofun fun _ => hrunning
  | endPhase id phaseId =>
    obtain ⟨hguard, ⟨⟩⟩ := ite_none_right_eq_some.mp hs
    refine .phase id phaseId .ended (fun hcompleted => ?_) nofun nofun
    rw [hcompleted] at hguard
    exact hguard.elim nofun nofun
  | cancel id =>
    obtain ⟨⟨hrun, halive⟩, ⟨⟩⟩ := ite_none_right_eq_some.mp hs
    exact .node id .cancelled s.failure halive (fun hf => hf) (fun hon => hon.elim nofun nofun)
      (fun _ => hrun) nofun nofun
  | observe =>
    obtain ⟨hrun, hs⟩ := ite_none_right_eq_some.mp hs
    have hstopped : s.run.stopped = false := by rw [hrun]; rfl
    split at hs
    · next hfail =>
      cases hs
      exact .run .failing (by simp [hstopped]) (fun _ => .inr hfail) nofun
        fun hon => hon.elim nofun nofun
    · next hfail =>
      obtain ⟨hall, ⟨⟩⟩ := ite_none_right_eq_some.mp hs
      exact .run .returned (by simp [hstopped]) (fun hon => hon.elim nofun nofun)
        (fun _ => ⟨Bool.eq_false_iff.mpr hfail, hstopped, hall⟩) fun hon => hon.elim nofun nofun
  | interrupt =>
    simp only [DagRun.step] at hs
    split at hs <;> cases hs
    case h_3 hrun =>
      exact .run .interrupted (fun _ => rfl) (fun hon => hon.elim nofun nofun) nofun
        fun _ => .inr ⟨hrun, rfl⟩
    all_goals
      exact .run .cancelling (fun _ => rfl) (fun hon => hon.elim nofun nofun) nofun
        fun hon => hon.elim nofun nofun
  | leave =>
    obtain ⟨hall, hs⟩ := ite_none_right_eq_some.mp hs
    split at hs
    · next hrun =>
      cases hs
      exact .run .raised (by simp [hrun, RunStatus.stopped]) (fun _ => .inl hrun) nofun
        fun _ => .inl hall
    · next hrun =>
      cases hs
      exact .run .interrupted (fun _ => rfl) (fun hon => hon.elim nofun nofun) nofun
        fun _ => .inl hall
    · cases hs

section

variable (hm : Moves physical dag s event t)
include hm

/-- A node that has ended stays as it is. -/
theorem Moves.ended {id : String} (he : (s.status id).ended = true) : t.status id = s.status id := by
  cases hm with
  | node id' status failure alive =>
    refine (status_setStatus ..).trans (if_neg ?_)
    rintro rfl
    exact Bool.false_ne_true (alive.symm.trans he)
  | phase | run => rfl

theorem Moves.stays_ended {id : String} (he : (s.status id).ended = true) :
    (t.status id).ended = true := by
  rw [hm.ended he]
  exact he

theorem Moves.finished {id : String} (hf : s.status id = .finished) : t.status id = .finished :=
  (hm.ended (by rw [hf]; rfl)).trans hf

/-- A phase that has completed stays so. -/
theorem Moves.completed {id q : String} (hq : s.phase id q = .completed) :
    t.phase id q = .completed := by
  cases hm with
  | phase id' phaseId status alive =>
    rw [phase_setPhase, if_neg]
    · exact hq
    · rintro ⟨rfl, rfl⟩
      exact alive hq
  | node | run => exact hq

theorem PhaseInv.mono {phase : CommPhase} (h : PhaseInv physical s node phase) :
    PhaseInv physical t node phase := by
  refine ⟨fun q hq => hm.completed (h.predecessors q hq), fun p hp => hm.finished (h.waited p hp),
    fun hsub hroot device hdevice => ?_⟩
  obtain ⟨e, he, hsame, hfinished⟩ := h.inputs hsub hroot device hdevice
  exact ⟨e, he, hsame, hm.finished hfinished⟩

end

section

variable (h : Inv physical dag s)
include h

theorem Inv.startPhase (hn : node ∈ dag.nodes)
    {phase : CommPhase} (hrunning : s.status node.nodeId = .running)
    (hrun : s.run.stopped = false) (hready : s.PhaseReady physical node phase) :
    PhaseInv physical s node phase := by
  refine ⟨hready.1, h.nodes node hn (.inl hrunning), fun hsub hroot device hdevice => ?_⟩
  obtain ⟨hinputs, hf⟩ := hready.2 hsub
  obtain ⟨e, he, hsame, hended⟩ := hinputs hroot device hdevice
  exact ⟨e, he, hsame, h.ended hf hrun hended⟩

/-- A node that runs or has finished did so before, or starts now; then the events it
waited for were those of finished nodes. -/
theorem Inv.waited (hm : Moves physical dag s event t) (hn : node ∈ dag.nodes)
    (hon : t.status node.nodeId = .running ∨ t.status node.nodeId = .finished)
    {p : String} (hp : p ∈ node.waitsFor physical) : s.status p = .finished := by
  cases hm with
  | node id status failure alive kept failed cancelled started finished =>
    rw [status_setStatus] at hon
    split at hon
    · next heq =>
      rcases hon with rfl | rfl
      · obtain ⟨hf, hready⟩ := started rfl
        obtain ⟨hrun, hended⟩ := hready node hn heq
        refine h.ended hf (Bool.eq_false_iff.mpr fun hstopped => ?_) (hended p hp)
        rw [hrun hstopped] at hp
        exact not_mem_nil hp
      · exact h.nodes node hn (.inl (heq ▸ (finished rfl).1)) p hp
    · exact h.nodes node hn hon p hp
  | phase | run => exact h.nodes node hn hon p hp

theorem Inv.phase (hm : Moves physical dag s event t) (hn : node ∈ dag.nodes)
    {phase : CommPhase} (hphase : phase ∈ node.phases)
    (hon : t.phase node.nodeId phase.phaseId = .running ∨
      t.phase node.nodeId phase.phaseId = .completed) : PhaseInv physical s node phase := by
  cases hm with
  | phase id phaseId status alive started completed =>
    rw [phase_setPhase] at hon
    split at hon
    · next heq =>
      obtain ⟨rfl, rfl⟩ := heq
      rcases hon with rfl | rfl
      · obtain ⟨hrunning, hrun, hready⟩ := started rfl node hn rfl phase hphase rfl
        exact h.startPhase hn hrunning hrun hready
      · exact h.phases node hn phase hphase (.inl (completed rfl))
    · exact h.phases node hn phase hphase hon
  | node | run => exact h.phases node hn phase hphase hon

theorem Inv.step (hs : step physical dag s event = some t) : Inv physical dag t := by
  have hm := moves_of_step hs
  have hnodes : ∀ node ∈ dag.nodes,
      t.status node.nodeId = .running ∨ t.status node.nodeId = .finished →
        ∀ p ∈ node.waitsFor physical, t.status p = .finished :=
    fun node hn hon p hp => hm.finished (h.waited hm hn hon hp)
  have hphases : ∀ node ∈ dag.nodes, ∀ phase ∈ node.phases,
      t.phase node.nodeId phase.phaseId = .running ∨
        t.phase node.nodeId phase.phaseId = .completed → PhaseInv physical t node phase :=
    fun node hn phase hphase hon => (h.phase hm hn hphase hon).mono hm
  cases hm with
  | node id status failure alive kept failed cancelled started finished =>
    refine ⟨fun id' hid' => ?_, fun id' hid' => ?_, fun hrun => kept (h.failing hrun), hnodes,
      hphases, fun node hn hon phase hphase => ?_, fun hrun id' hid' => ?_⟩
    · rw [status_setStatus] at hid'
      split at hid'
      · exact failed hid'
      · exact kept (h.failed id' hid')
    · rw [status_setStatus] at hid'
      split at hid'
      · exact (cancelled hid').imp_left fun hrun => kept (h.failing (.inl hrun))
      · exact (h.cancelled id' hid').imp_left kept
    · rw [status_setStatus] at hon
      split at hon
      · next heq => exact heq ▸ (finished hon).2 node hn heq phase hphase
      · exact h.finished node hn hon phase hphase
    · exact (moves_of_step hs).finished (h.returned hrun id' hid')
  | phase id phaseId status alive started completed =>
    exact ⟨h.failed, h.cancelled, h.failing, hnodes, hphases, fun node hn hon phase hphase =>
      (moves_of_step hs).completed (h.finished node hn hon phase hphase), h.returned⟩
  | run run kept failing returned left =>
    refine ⟨h.failed, fun id hid => (h.cancelled id hid).imp_right kept, fun hrun => ?_, hnodes,
      hphases, h.finished, fun hrun id hid => ?_⟩
    · exact (failing hrun).elim (fun hrun => h.failing (.inl hrun)) fun hf => hf
    · obtain ⟨hf, hstopped, hall⟩ := returned hrun
      exact h.ended hf hstopped (hall id hid)

end

theorem start_inv : Inv physical dag start :=
  ⟨fun _ hid => hid.elim nofun nofun, nofun, fun hrun => hrun.elim nofun nofun,
    fun _ _ hon => hon.elim nofun nofun, fun _ _ _ _ hon => hon.elim nofun nofun, nofun, nofun⟩

/-! ## What covered plans give -/

theorem Inv.completed_before (h : Inv physical dag s) (hn : node ∈ dag.nodes)
    {q p : CommPhase} (hbefore : node.Before q p) (hp : p ∈ node.phases)
    (hon : s.phase node.nodeId p.phaseId = .running ∨ s.phase node.nodeId p.phaseId = .completed) :
    s.phase node.nodeId q.phaseId = .running ∨ s.phase node.nodeId q.phaseId = .completed := by
  induction hbefore with
  | refl => exact hon
  | @step r p _ hr hpred ih =>
    exact ih hr (.inr ((h.phases node hn p hp hon).predecessors r.phaseId hpred))

theorem Inv.inputs_finished (h : Inv physical dag s) (hn : node ∈ dag.nodes)
    (hsub : node.subgroup physical = true) (hcovered : node.Covered) {p : CommPhase}
    (hp : p ∈ node.phases)
    (hon : s.phase node.nodeId p.phaseId = .running ∨ s.phase node.nodeId p.phaseId = .completed)
    {e : String × String} (he : e ∈ node.inputProducerIds) (hdevice : e.1 ∈ p.participants) :
    s.status e.2 = .finished := by
  obtain ⟨q, hq, hbefore, hroot, hmem⟩ := hcovered.participants p hp e.1 hdevice
  have hqon := h.completed_before hn hbefore hp hon
  obtain ⟨e', he', hsame, hfinished⟩ := (h.phases node hn q hq hqon).inputs hsub hroot e.1 hmem
  rwa [inj_on_of_nodup_map node.devices_nodup he' he hsame] at hfinished

theorem Inv.predecessors_finished (h : Inv physical dag s) (hcovered : dag.Covered physical)
    (hn : node ∈ dag.nodes) (hfinished : s.status node.nodeId = .finished)
    {p : String} (hp : p ∈ node.predecessorIds) : s.status p = .finished := by
  have hwaited := h.nodes node hn (.inr hfinished)
  cases hsub : node.subgroup physical with
  | false =>
    refine hwaited p ?_
    rw [DagNode.waitsFor, hsub]
    exact hp
  | true =>
    by_cases hdata : p ∈ node.inputProducerIds.map Prod.snd
    · obtain ⟨e, he, rfl⟩ := List.mem_map.mp hdata
      obtain ⟨q, hq, -, hdevice⟩ := (hcovered node hn hsub).bindings e he
      exact h.inputs_finished hn hsub (hcovered node hn hsub) hq
        (.inr (h.finished node hn hfinished q hq)) he hdevice
    · refine hwaited p ?_
      rw [DagNode.waitsFor, hsub]
      exact mem_filter.mpr ⟨hp, decide_eq_true hdata⟩

theorem Inv.all_finished (h : Inv physical dag s) (hcovered : dag.Covered physical)
    (hsinks : ∀ id ∈ dag.terminalNodeIds, s.status id = .finished) :
    ∀ node ∈ dag.nodes, s.status node.nodeId = .finished := by
  -- from the last node to the first: a node that is no sink precedes a later one
  have hall : ∀ after before, dag.nodes = before ++ after →
      ∀ node ∈ after, s.status node.nodeId = .finished := by
    intro after
    induction after with
    | nil => exact fun _ _ _ hnode => absurd hnode not_mem_nil
    | cons n after ih =>
      intro before heq
      have hafter := ih (before ++ [n]) (by rw [heq]; simp)
      refine forall_mem_cons.mpr ⟨?_, hafter⟩
      by_cases hsink : ∀ m ∈ dag.nodes, n.nodeId ∉ m.predecessorIds
      · refine hsinks _ (mem_filter.mpr ⟨List.mem_map_of_mem ?_, decide_eq_true hsink⟩)
        rw [heq]
        exact mem_append_right _ mem_cons_self
      · push Not at hsink
        obtain ⟨m, hm, hp⟩ := hsink
        have hlater := AFExecutionDAG.mem_after heq hm hp
        exact h.predecessors_finished hcovered hm (hafter m hlater) hp
  exact hall dag.nodes [] rfl

/-! ## Every run -/

/-- What a run of a DAG guarantees, in one of its states and for each step from it. -/
structure InOrder (physical : Bool) (dag : AFExecutionDAG) (s : DagRun) : Prop where
  /-- A node starts after its predecessors have finished; a bound collective, after
  those it has no binding to. -/
  nodes : ∀ node ∈ dag.nodes,
    s.status node.nodeId = .running ∨ s.status node.nodeId = .finished →
      ∀ p ∈ node.predecessorIds,
        (node.subgroup physical = true ∧ p ∈ node.inputProducerIds.map Prod.snd) ∨
          s.status p = .finished
  /-- A phase starts after its predecessor phases and the producers of all its
  participants. -/
  phases : ∀ node ∈ dag.nodes, ∀ phase ∈ node.phases,
    s.phase node.nodeId phase.phaseId = .running ∨
      s.phase node.nodeId phase.phaseId = .completed →
        (∀ q ∈ phase.predecessorIds, s.phase node.nodeId q = .completed) ∧
        ∀ e ∈ node.inputProducerIds, e.1 ∈ phase.participants → s.status e.2 = .finished
  returned : s.run = .returned → ∀ node ∈ dag.nodes, s.status node.nodeId = .finished
  /-- Nothing starts after the failure event. -/
  failed : s.failure = true → ∀ event t, step physical dag s event = some t →
    t.failure = true ∧ ∀ id, s.status id = .pending → t.status id ≠ .running
  /-- The processes have ended when an exception leaves the run. -/
  left : s.run = .raised ∨ s.run = .interrupted →
    ∀ node ∈ dag.nodes, (s.status node.nodeId).ended = true

theorem no_start_after_failure (hf : s.failure = true)
    (hs : step physical dag s event = some t) :
    t.failure = true ∧ ∀ id, s.status id = .pending → t.status id ≠ .running := by
  cases moves_of_step hs with
  | node id status failure alive kept failed cancelled started finished =>
    refine ⟨kept hf, fun id' hpending hrunning => ?_⟩
    rw [status_setStatus] at hrunning
    split at hrunning
    · cases (started hrunning).1.symm.trans hf
    · cases hpending.symm.trans hrunning
  | phase | run => exact ⟨hf, fun id hpending hrunning => by cases hpending.symm.trans hrunning⟩

/-- The run is not interrupted a second time while it drains its processes. -/
def InterruptedOnce (s : DagRun) (event : Event) : Prop :=
  s.run = .cancelling → event ≠ .interrupt

instance : DecidableRel InterruptedOnce :=
  fun s event => inferInstanceAs (Decidable (s.run = .cancelling → event ≠ .interrupt))

/-- An exception leaves a run after its processes, if it is interrupted once. -/
theorem left_step (h : s.run = .raised ∨ s.run = .interrupted → s.AllEnded dag)
    (honce : InterruptedOnce s event) (hs : step physical dag s event = some t) :
    t.run = .raised ∨ t.run = .interrupted → t.AllEnded dag := by
  have hm := moves_of_step hs
  have hkept : s.AllEnded dag → t.AllEnded dag := fun hall node hn =>
    hm.stays_ended (hall node hn)
  cases hm with
  | node | phase => exact fun hrun => hkept (h hrun)
  | run run kept failing returned left =>
    exact fun hrun => (left hrun).elim hkept fun ⟨hcancelling, hevent⟩ =>
      absurd hevent (honce hcancelling)

/-- In every run of a DAG whose bound collectives have covered plans, and which is
interrupted at most once, nodes and phases start after what they depend on. -/
theorem runs_in_order (physical : Bool) (dag : AFExecutionDAG) (hcovered : dag.Covered physical)
    (hs : Reaches (step physical dag) InterruptedOnce start s) : InOrder physical dag s := by
  obtain ⟨h, hleft⟩ := hs.invariant
    (P := fun s => Inv physical dag s ∧ (s.run = .raised ∨ s.run = .interrupted → s.AllEnded dag))
    ⟨start_inv, fun hrun => hrun.elim nofun nofun⟩
    fun ht honce hstep => ⟨ht.1.step hstep, left_step ht.2 honce hstep⟩
  refine ⟨fun node hn hon p hp => ?_, fun node hn phase hphase hon => ?_,
    fun hrun => h.all_finished hcovered (h.returned hrun),
    fun hf event t ht => no_start_after_failure hf ht, hleft⟩
  · have hwaited := h.nodes node hn hon
    rw [DagNode.waitsFor] at hwaited
    split at hwaited
    · next hsub =>
      by_cases hdata : p ∈ node.inputProducerIds.map Prod.snd
      · exact .inl ⟨hsub, hdata⟩
      · exact .inr (hwaited p (mem_filter.mpr ⟨hp, decide_eq_true hdata⟩))
    · exact .inr (hwaited p hp)
  · have hphase' := h.phases node hn phase hphase hon
    refine ⟨hphase'.predecessors, fun e he hdevice => ?_⟩
    cases hsub : node.subgroup physical with
    | true => exact h.inputs_finished hn hsub (hcovered node hn hsub) hphase hon he hdevice
    | false =>
      refine hphase'.waited e.2 ?_
      rw [DagNode.waitsFor, hsub]
      exact node.bound e he

/-! ## An all-to-all exchange -/

def producer (id : String) : DagNode where
  nodeId := id
  predecessorIds := []
  inputProducerIds := []
  phases := []
  phases_nodup := by decide
  bound := by decide
  devices_nodup := by decide

/-- A collective over the devices of two producers. -/
def collectiveOf (phases : List CommPhase)
    (phases_nodup : (phases.map CommPhase.phaseId).Nodup) : DagNode where
  nodeId := "x"
  predecessorIds := ["p0", "p1"]
  inputProducerIds := [("gpu0", "p0"), ("gpu1", "p1")]
  phases := phases
  phases_nodup := phases_nodup
  bound := by decide
  devices_nodup := by decide

def twoProducers (phases : List CommPhase)
    (phases_nodup : (phases.map CommPhase.phaseId).Nodup) : AFExecutionDAG where
  nodes := [producer "p0", producer "p1", collectiveOf phases phases_nodup]
  ids_nodup := by simp [producer, collectiveOf]
  ordered := by
    intro before node after h p hp
    match before, h with
    | [], h => cases h; exact absurd hp not_mem_nil
    | [_], h => cases h; exact absurd hp not_mem_nil
    | [_, _], h => cases h; simpa [collectiveOf, producer] using hp
    | _ :: _ :: _ :: rest, h => simp at h

/-- The devices are on two nodes. -/
def exchange : AFExecutionDAG :=
  twoProducers (allToAllPhases [(0, ["gpu0"]), (1, ["gpu1"])] false) (by decide)

/-- A ring over both devices. -/
def ring : AFExecutionDAG :=
  twoProducers [⟨"ring", ["gpu0", "gpu1"], []⟩] (by decide)

/-- In the exchange, the phase from node 0 to node 1 starts while the producer of `gpu1`
still runs.  A second interrupt leaves the ring while a producer runs. -/
theorem out_of_order_and_left_early :
    (∃ s, Reaches (step true exchange) InterruptedOnce start s ∧
      (s.phase "x" "inter:0:1" = .running ∧ s.status "p1" = .running) ∧
      ¬ InOrder true exchange s) ∧
    ∃ s, Reaches (step true ring) (fun _ _ => True) start s ∧
      (s.run = .interrupted ∧ s.status "p0" = .running) ∧ ¬ InOrder true ring s := by
  constructor
  · obtain ⟨s, hs, hstate⟩ := exists_reaches (step true exchange) InterruptedOnce start
      [.resume "p0", .resume "p1", .resume "x", .finish "p0", .startPhase "x" "source_local:0",
        .finishPhase "x" "source_local:0", .startPhase "x" "inter:0:1"]
      (fun s => s.phase "x" "inter:0:1" = .running ∧ s.status "p1" = .running) (by decide +kernel)
    refine ⟨s, hs, hstate, fun horder => ?_⟩
    have hfinished := (horder.phases
      (collectiveOf (allToAllPhases [(0, ["gpu0"]), (1, ["gpu1"])] false) (by decide))
      (by simp [exchange, twoProducers])
      ⟨"inter:0:1", ["gpu0", "gpu1"], ["source_local:0"]⟩ (by decide) (.inl hstate.1)).2
      ("gpu1", "p1") (by decide) (by decide)
    cases hstate.2.symm.trans hfinished
  · obtain ⟨s, hs, hrun, hrunning⟩ := exists_reaches (step true ring) (fun _ _ => True) start
      [.resume "p0", .interrupt, .interrupt]
      (fun s => s.run = .interrupted ∧ s.status "p0" = .running) (by decide +kernel)
    refine ⟨s, hs, ⟨hrun, hrunning⟩, fun horder => ?_⟩
    have hended := horder.left (.inr hrun) (producer "p0") (by simp [ring, twoProducers])
    rw [producer, hrunning] at hended
    cases hended

theorem runs_in_order_ring : ring.Covered true ∧
    ∃ s, Reaches (step true ring) InterruptedOnce start s ∧ s.run = .returned ∧
      InOrder true ring s := by
  have hcovered : ring.Covered true := by
    intro node hn hsub
    simp only [ring, twoProducers, mem_cons, not_mem_nil, or_false] at hn
    rcases hn with rfl | rfl | rfl
    · cases hsub
    · cases hsub
    · refine ⟨fun p hp device hdevice => ⟨p, hp, .refl p, ?_, hdevice⟩, by decide⟩
      rw [mem_singleton.mp hp]
  obtain ⟨s, hs, hreturned⟩ := exists_reaches (step true ring) InterruptedOnce start
    [.resume "x", .resume "p0", .resume "p1", .finish "p0", .finish "p1",
      .startPhase "x" "ring", .finishPhase "x" "ring", .finish "x", .observe]
    (fun s => s.run = .returned) (by decide +kernel)
  exact ⟨hcovered, s, hs, hreturned, runs_in_order true ring hcovered hs⟩

end DagRun

end Af

end TokenSim
