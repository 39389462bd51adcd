import TokenSim.Af.DagOrder

/-!
# The dependencies of a DAG never block its run

While a run waits and nothing has failed, it can be continued without a failure until
it returns.  The nodes of a DAG are dealt with in their order, since predecessors come
first, and the phases of a communication plan are dealt with in the order in which the
plan lists them.
-/

namespace TokenSim

open List Option

namespace Af

/-! ## Plans -/

/-- A plan lists its phases after those they wait for. -/
def CommPhase.Ordered (phases : List CommPhase) : Prop :=
  ∀ before phase after, phases = before ++ phase :: after →
    ∀ q ∈ phase.predecessorIds, q ∈ before.map CommPhase.phaseId

theorem CommPhase.Ordered.append {first second : List CommPhase} (h : Ordered first)
    (hsecond : ∀ phase ∈ second, ∀ q ∈ phase.predecessorIds, q ∈ first.map CommPhase.phaseId) :
    Ordered (first ++ second) := by
  intro before phase after heq q hq
  rcases append_eq_append_iff.mp heq with ⟨between, rfl, hrest⟩ | ⟨between, hfirst, hrest⟩
  · rw [map_append]
    exact mem_append_left _ (hsecond phase (by simp [hrest]) q hq)
  · cases between with
    | nil =>
      rw [append_nil] at hfirst
      rw [nil_append] at hrest
      exact hfirst ▸ hsecond phase (hrest ▸ mem_cons_self) q hq
    | cons phase' between =>
      obtain ⟨rfl, -⟩ := cons_eq_cons.mp hrest
      exact h before phase between hfirst q hq

/-- The phases within the source nodes wait for none, those between two nodes for the
former, and those within the target nodes for the phases between two nodes. -/
theorem allToAllPhases_ordered (groups : List (Nat × List String)) (redistribution : Bool) :
    CommPhase.Ordered (allToAllPhases groups redistribution) := by
  refine CommPhase.Ordered.append (CommPhase.Ordered.append ?_ ?_) ?_
  · intro before phase after heq q hq
    have hphase : phase ∈ groups.map _ := heq ▸ mem_append_right _ mem_cons_self
    obtain ⟨g, -, rfl⟩ := List.mem_map.mp hphase
    exact absurd hq not_mem_nil
  · intro phase hphase q hq
    obtain ⟨g, hg, hphase⟩ := mem_flatMap.mp hphase
    obtain ⟨g', -, rfl⟩ := List.mem_map.mp hphase
    rw [mem_singleton.mp hq]
    exact List.mem_map.mpr ⟨_, List.mem_map_of_mem hg, rfl⟩
  · intro phase hphase q hq
    split at hphase
    · obtain ⟨g, hg, rfl⟩ := List.mem_map.mp hphase
      obtain ⟨g', hg', rfl⟩ := List.mem_map.mp hq
      obtain ⟨hg', hne⟩ := mem_filter.mp hg'
      have hmem : g ∈ groups.filter fun h => h.1 ≠ g'.1 :=
        mem_filter.mpr ⟨hg, decide_eq_true (of_decide_eq_true hne).symm⟩
      rw [map_append]
      exact mem_append_right _ (List.mem_map.mpr
        ⟨_, mem_flatMap.mpr ⟨g', hg', List.mem_map.mpr ⟨g, hmem, rfl⟩⟩, rfl⟩)
    · exact absurd hphase not_mem_nil

/-- The plan of a node is ordered, and the participants of a bound collective have
producers. -/
structure DagNode.Feasible (physical : Bool) (node : DagNode) : Prop where
  ordered : CommPhase.Ordered node.phases
  bound : node.subgroup physical = true → ∀ phase ∈ node.phases, ∀ device ∈ phase.participants,
    device ∈ node.inputProducerIds.map Prod.fst

namespace DagRun

/-- The steps in which nothing fails or is interrupted. -/
def Event.regular : Event → Bool
  | .resume _ | .finish _ | .startPhase _ _ | .finishPhase _ _ | .observe => true
  | .fail _ | .endPhase _ _ | .cancel _ | .interrupt | .leave => false

/-- The run waits, and neither a node nor a phase of one has failed. -/
structure Healthy (s : DagRun) : Prop where
  waiting : s.run = .waiting
  unfailed : s.failure = false
  phases : ∀ id q, s.phase id q ≠ .ended

variable {physical : Bool} {dag : AFExecutionDAG} {node : DagNode} {s t : DagRun}

theorem Healthy.setPhase (h : s.Healthy) {id phaseId : String} {status : PhaseStatus}
    (hne : status ≠ .ended) : (s.setPhase id phaseId status).Healthy := by
  refine ⟨h.waiting, h.unfailed, fun id' q => ?_⟩
  rw [phase_setPhase]
  split
  · exact hne
  · exact h.phases id' q

/-- An entry of a list with distinct names is found by its name. -/
theorem find?_of_nodup {α : Type} {f : α → String} {before after l : List α} {a : α}
    (heq : l = before ++ a :: after) (h : (l.map f).Nodup) :
    l.find? (fun b => f b = f a) = some a := by
  rw [heq, map_append, map_cons] at h
  refine find?_eq_some_iff_append.mpr ⟨decide_eq_true rfl, before, after, heq, fun b hb => ?_⟩
  simpa using (nodup_append.mp h).2.2 (f b) (mem_map_of_mem hb) (f a) mem_cons_self

section

variable (hplan : node.Feasible physical) (hnode : dag.node? node.nodeId = some node)
  (hs : s.Healthy) (hended : ∀ p ∈ node.predecessorIds, (s.status p).ended = true)
include hplan hnode hs hended

/-- A phase whose predecessor phases have completed can be completed. -/
theorem exists_completed_phase (hrunning : s.status node.nodeId = .running)
    {before after : List CommPhase} {phase : CommPhase}
    (heq : node.phases = before ++ phase :: after)
    (hbefore : ∀ p ∈ before, s.phase node.nodeId p.phaseId = .completed) :
    ∃ t, Reaches (step physical dag) (fun _ event => event.regular = true) s t ∧
      (t.Healthy ∧ t.status = s.status) ∧ t.phase node.nodeId phase.phaseId = .completed := by
  have hset : ∀ u : DagRun, ∀ status,
      (u.setPhase node.nodeId phase.phaseId status).phase node.nodeId phase.phaseId = status :=
    fun u status => (phase_setPhase ..).trans (if_pos ⟨rfl, rfl⟩)
  cases hstatus : s.phase node.nodeId phase.phaseId with
  | completed => exact ⟨s, .refl s, ⟨hs, rfl⟩, hstatus⟩
  | ended => exact absurd hstatus (hs.phases _ _)
  | running =>
    have hfinish : step physical dag s (.finishPhase node.nodeId phase.phaseId) = some _ :=
      if_pos hstatus
    exact ⟨_, .tail (.refl s) rfl hfinish, ⟨hs.setPhase nofun, rfl⟩, hset s _⟩
  | pending =>
    have hready : s.PhaseReady physical node phase := by
      refine ⟨fun q hq => ?_, fun hsub => ⟨fun _ device hdevice => ?_, hs.unfailed⟩⟩
      · obtain ⟨p, hp, rfl⟩ := List.mem_map.mp (hplan.ordered before phase after heq q hq)
        exact hbefore p hp
      · have hmem : phase ∈ node.phases := heq ▸ mem_append_right _ mem_cons_self
        obtain ⟨e, he, hsame⟩ := List.mem_map.mp (hplan.bound hsub phase hmem device hdevice)
        exact ⟨e, he, hsame, hended e.2 (node.bound e he)⟩
    have hstart : step physical dag s (.startPhase node.nodeId phase.phaseId) =
        some (s.setPhase node.nodeId phase.phaseId .running) :=
      bind_eq_some_iff.mpr ⟨node, hnode, bind_eq_some_iff.mpr
        ⟨phase, find?_of_nodup heq node.phases_nodup,
          if_pos ⟨hrunning, hstatus, by rw [hs.waiting]; rfl, hready⟩⟩⟩
    have hfinish : step physical dag (s.setPhase node.nodeId phase.phaseId .running)
        (.finishPhase node.nodeId phase.phaseId) = some _ := if_pos (hset s _)
    have hstarted : (s.setPhase node.nodeId phase.phaseId .running).Healthy := hs.setPhase nofun
    exact ⟨_, .tail (.tail (.refl s) rfl hstart) rfl hfinish, ⟨hstarted.setPhase nofun, rfl⟩,
      hset _ _⟩

/-- A node that runs after its predecessors can finish. -/
theorem exists_finished (hrunning : s.status node.nodeId = .running) :
    ∃ t, Reaches (step physical dag) (fun _ event => event.regular = true) s t ∧ t.Healthy ∧
      t.status node.nodeId = .finished := by
  obtain ⟨t, hst, ⟨ht, hstatus⟩, hphases⟩ :=
    Reaches.exists_forall (I := fun t : DagRun => t.Healthy ∧ t.status = s.status)
      (P := fun (phase : CommPhase) t => t.phase node.nodeId phase.phaseId = .completed)
      (fun hq _ hstep => (moves_of_step hstep).completed hq)
      (fun {before phase after t} heq ht hbefore => by
        obtain ⟨u, htu, ⟨hu, hsame⟩, hphase⟩ := exists_completed_phase hplan hnode ht.1
          (ht.2 ▸ hended) (ht.2 ▸ hrunning) heq hbefore
        exact ⟨u, htu, ⟨hu, hsame.trans ht.2⟩, hphase⟩) ⟨hs, rfl⟩
  have hfinish : step physical dag t (.finish node.nodeId) =
      some (t.setStatus node.nodeId .finished) :=
    bind_eq_some_iff.mpr ⟨node, hnode, if_pos ⟨hstatus ▸ hrunning, hphases⟩⟩
  exact ⟨_, hst.tail rfl hfinish, ⟨ht.waiting, ht.unfailed, ht.phases⟩,
    (status_setStatus ..).trans (if_pos rfl)⟩

/-- A node can end once its predecessors have. -/
theorem exists_ended :
    ∃ t, Reaches (step physical dag) (fun _ event => event.regular = true) s t ∧ t.Healthy ∧
      (t.status node.nodeId).ended = true := by
  cases hstatus : s.status node.nodeId with
  | running =>
    obtain ⟨t, hst, ht, hfinished⟩ := exists_finished hplan hnode hs hended hstatus
    exact ⟨t, hst, ht, by rw [hfinished]; rfl⟩
  | pending =>
    have hstart : step physical dag s (.resume node.nodeId) =
        some (s.setStatus node.nodeId .running) := by
      refine bind_eq_some_iff.mpr ⟨node, hnode, (if_pos ⟨hstatus, ?_⟩).trans
        ((if_neg (by simp [hs.unfailed])).trans (if_pos fun p hp => hended p ?_))⟩
      · rw [DagNode.waitsFor] at hp
        split at hp
        · exact mem_of_mem_filter hp
        · exact hp
      · rw [hs.waiting]
        rintro ⟨⟩
    obtain ⟨t, hst, ht, hfinished⟩ := exists_finished hplan hnode
      (s := s.setStatus node.nodeId .running) ⟨hs.waiting, hs.unfailed, hs.phases⟩
      (fun p hp => (moves_of_step hstart).stays_ended (hended p hp))
      ((status_setStatus ..).trans (if_pos rfl))
    exact ⟨t, .trans (.tail (.refl s) rfl hstart) hst, ht, by rw [hfinished]; rfl⟩
  | finished | failed | skipped | cancelled => exact ⟨s, .refl s, hs, by rw [hstatus]; rfl⟩

end

/-- The dependencies of a DAG never block its run: while it waits and nothing has failed,
a continuation without a failure returns. -/
theorem dependencies_never_block (physical : Bool) (dag : AFExecutionDAG)
    (hplans : ∀ node ∈ dag.nodes, node.Feasible physical) (s : DagRun) (hs : s.Healthy) :
    ∃ t, Reaches (step physical dag) (fun _ event => event.regular = true) s t ∧
      t.run = .returned := by
  have hnext : ∀ {before node after t}, dag.nodes = before ++ node :: after → t.Healthy →
      (∀ m ∈ before, (t.status m.nodeId).ended = true) →
      ∃ u, Reaches (step physical dag) (fun _ event => event.regular = true) t u ∧ u.Healthy ∧
        (u.status node.nodeId).ended = true := by
    intro before node after t heq ht hbefore
    refine exists_ended (hplans node (heq ▸ mem_append_right _ mem_cons_self))
      (find?_of_nodup heq dag.ids_nodup) ht fun p hp => ?_
    obtain ⟨m, hm, rfl⟩ := List.mem_map.mp (dag.ordered before node after heq p hp)
    exact hbefore m hm
  obtain ⟨t, hst, ht, hall⟩ := Reaches.exists_forall
    (P := fun (node : DagNode) t => (t.status node.nodeId).ended = true)
    (fun he _ hstep => (moves_of_step hstep).stays_ended he) hnext hs
  have hobserve : step physical dag t .observe = some { t with run := .returned } := by
    refine (if_pos ht.waiting).trans ((if_neg (by simp [ht.unfailed])).trans (if_pos ?_))
    intro id hid
    obtain ⟨node, hn, rfl⟩ := List.mem_map.mp (mem_filter.mp hid).1
    exact hall node hn
  exact ⟨_, hst.tail rfl hobserve, rfl⟩

/-- The all-to-all exchange, although it is out of order, is not blocked. -/
theorem dependencies_never_block_exchange : ∃ t,
    Reaches (step true exchange) (fun _ event => event.regular = true) start t ∧
      t.run = .returned := by
  refine dependencies_never_block true exchange (fun node hn => ?_) start
    ⟨rfl, rfl, by rintro _ _ ⟨⟩⟩
  simp only [exchange, twoProducers, mem_cons, not_mem_nil, or_false] at hn
  rcases hn with rfl | rfl | rfl
  iterate 2 exact ⟨fun _ _ _ h => by simp [producer] at h, by rintro ⟨⟩⟩
  · exact ⟨allToAllPhases_ordered _ _, by decide⟩

end DagRun

end Af

end TokenSim
