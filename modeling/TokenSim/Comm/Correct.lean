import TokenSim.Comm.Collectives

/-!
# Collective plans are correct

The groups of a plan form a grid when the nodes have equally many participants.  Then
a plan is made whenever the volume of the operation is accepted, and in every order
that its dependencies allow it leaves every rank with the result of the operation.
-/

set_option linter.unusedSectionVars false

namespace TokenSim.Comm

open List

open Except

variable {ρ ν M : Type} [DecidableEq ρ] [LinearOrder ν] {nodeByRank : ρ → Option ν}
  {ranks : List ρ} {groups : List (List ρ)} {places size share : Nat} {dtype : Option DType}
  {operation : Operation} {phases : List (TrafficPhase ρ ν)} {phase : TrafficPhase ρ ν}
  {input : ρ → Nat → M} {junk : PhaseId → ρ → Nat → M}

/-! ## The grid of the nodes -/

/-- The nodes of the participants have equally many of them. -/
def EqualNodes (nodeByRank : ρ → Option ν) (ranks : List ρ) : Prop :=
  ∀ a ∈ ranks, ∀ b ∈ ranks, (ranks.filter fun rank => nodeByRank rank = nodeByRank a).length =
    (ranks.filter fun rank => nodeByRank rank = nodeByRank b).length

theorem mem_nodeGroups {group : List ρ} : group ∈ nodeGroups nodeByRank ranks ↔
    ∃ rank ∈ ranks, ∃ node, nodeByRank rank = some node ∧
      group = ranks.filter fun rank => nodeByRank rank = some node := by
  unfold nodeGroups
  rw [mem_map]
  constructor
  · rintro ⟨node, hnode, rfl⟩
    rw [mem_mergeSort, mem_dedup, mem_filterMap] at hnode
    obtain ⟨rank, hrank, hnode⟩ := hnode
    exact ⟨rank, hrank, node, hnode, rfl⟩
  · rintro ⟨rank, hrank, node, hnode, rfl⟩
    refine ⟨node, ?_, rfl⟩
    rw [mem_mergeSort, mem_dedup, mem_filterMap]
    exact ⟨rank, hrank, hnode⟩

theorem nodeGroups_flatten_nodup (hnodup : ranks.Nodup) :
    (nodeGroups nodeByRank ranks).flatten.Nodup := by
  rw [nodup_flatten]
  constructor
  · intro group hg
    obtain ⟨_, _, node, _, rfl⟩ := mem_nodeGroups.mp hg
    exact hnodup.filter _
  · unfold nodeGroups
    rw [pairwise_map]
    have hnodes : (((ranks.filterMap nodeByRank).dedup).mergeSort (· ≤ ·)).Nodup :=
      (mergeSort_perm _ _).nodup_iff.mpr (nodup_dedup _)
    refine hnodes.imp fun hne rank hrank hrank' => hne ?_
    have h := of_decide_eq_true (mem_filter.mp hrank).2
    have h' := of_decide_eq_true (mem_filter.mp hrank').2
    exact Option.some.inj (h.symm.trans h')

theorem nodeGroups_grid (hnodup : ranks.Nodup) (hmapped : ∀ rank ∈ ranks, nodeByRank rank ≠ none)
    (hequal : EqualNodes nodeByRank ranks) {first : ρ} (hfirst : first ∈ ranks) :
    Grid ranks (nodeGroups nodeByRank ranks)
      (ranks.filter fun rank => nodeByRank rank = nodeByRank first).length := by
  refine ⟨?_, hnodup, fun group hg => ?_⟩
  · refine (perm_ext_iff_of_nodup (nodeGroups_flatten_nodup hnodup) hnodup).mpr fun rank => ?_
    rw [mem_flatten]
    constructor
    · rintro ⟨group, hg, hrank⟩
      obtain ⟨_, _, node, _, rfl⟩ := mem_nodeGroups.mp hg
      exact (mem_filter.mp hrank).1
    · intro hrank
      obtain ⟨node, hnode⟩ := Option.ne_none_iff_exists'.mp (hmapped rank hrank)
      exact ⟨_, mem_nodeGroups.mpr ⟨rank, hrank, node, hnode, rfl⟩,
        mem_filter.mpr ⟨hrank, decide_eq_true hnode⟩⟩
  · obtain ⟨rank, hrank, node, hnode, rfl⟩ := mem_nodeGroups.mp hg
    rw [← hnode]
    exact hequal rank hrank first hfirst

theorem Grid.dedup_lengths (h : Grid ranks groups places) (hne : groups ≠ []) :
    (groups.map List.length).dedup.length = 1 := by
  have hlengths : groups.map List.length = List.replicate groups.length places := by
    rw [map_congr_left h.row, map_const']
  rw [hlengths, replicate_dedup (by simpa using hne)]
  rfl

theorem Grid.head_length (h : Grid ranks groups places) (hne : groups ≠ []) :
    groups.head?.map List.length = some places := by
  cases groups with
  | nil => exact absurd rfl hne
  | cons group rest => exact congrArg some (h.row group mem_cons_self)

/-! ## Plans are made -/

theorem exists_volume {count : Nat} (hcount : 0 < count) (haligned : size % elementBytes dtype = 0)
    (hsharded : operation ≠ .allGather → size % (count * elementBytes dtype) = 0)
    (hop : operation ≠ .dataReorder) : ∃ volume, VolumeOk operation count size dtype volume :=
  ⟨⟨ringOutputBytes operation count size, _⟩, hcount, haligned, fun h _ => hsharded h, hop, rfl, rfl⟩

theorem ring_total {phaseId : PhaseId} {predecessors : List PhaseId}
    (hcount : ranks ≠ []) (haligned : size % elementBytes dtype = 0)
    (hsharded : operation ≠ .allGather → size % (ranks.length * elementBytes dtype) = 0)
    (hop : operation ≠ .dataReorder) (hmapped : ∀ rank ∈ ranks, nodeByRank rank ≠ none) :
    ∃ phase, ringPhase nodeByRank phaseId operation ranks size predecessors dtype = .ok phase := by
  obtain ⟨volume, hvolume⟩ := exists_volume (length_pos_iff.mpr hcount) haligned hsharded hop
  exact ringPhase_total hvolume hmapped

section Total

variable (hgrid : Grid ranks groups places) (hplaces : 0 < places) (hgroups : 0 < groups.length)
  (hmapped : ∀ rank ∈ ranks, nodeByRank rank ≠ none)

include hgrid hplaces hmapped

theorem row_total {phaseId : PhaseId} {predecessors : List PhaseId} {group : List ρ}
    (hg : group ∈ groups) (haligned : size % elementBytes dtype = 0)
    (hsharded : operation ≠ .allGather → size % (places * elementBytes dtype) = 0)
    (hop : operation ≠ .dataReorder) :
    ∃ phase, ringPhase nodeByRank phaseId operation group size predecessors dtype = .ok phase := by
  have hlength := hgrid.row group hg
  refine ring_total ?_ haligned (hlength ▸ hsharded) hop fun rank hr => hmapped rank ?_
  · rintro rfl
    exact absurd hlength (Nat.ne_of_lt hplaces)
  · exact hgrid.perm.subset (mem_flatten.mpr ⟨group, hg, hr⟩)

include hgroups

theorem column_total {phaseId : PhaseId} {predecessors : List PhaseId} {slot : Nat}
    {column : List ρ} (hcol : slotGroup groups slot = .ok column)
    (haligned : size % elementBytes dtype = 0)
    (hsharded : operation ≠ .allGather → size % (groups.length * elementBytes dtype) = 0)
    (hop : operation ≠ .dataReorder) :
    ∃ phase, ringPhase nodeByRank phaseId operation column size predecessors dtype = .ok phase := by
  have hlength := (slotGroup_spec hcol).1
  refine ring_total ?_ haligned (hlength ▸ hsharded) hop fun rank hr => hmapped rank ?_
  · rintro rfl
    exact absurd hlength (Nat.ne_of_lt hgroups)
  · obtain ⟨i, group, hg, hk⟩ := (mem_column hcol).mp hr
    exact hgrid.mem_ranks hg (mem_of_getElem? hk)

theorem columns_total {f : Nat → List ρ → Except Err (TrafficPhase ρ ν)}
    (hf : ∀ slot column, slotGroup groups slot = .ok column → ∃ phase, f slot column = .ok phase) :
    ∃ out, ((List.range places).mapM fun slot => do f slot (← slotGroup groups slot)) = .ok out := by
  refine exists_mapM_eq_ok fun slot hs => ?_
  obtain ⟨column, hcol⟩ := slotGroup_total hgrid (mem_range.mp hs)
  obtain ⟨phase, hphase⟩ := hf slot column hcol
  exact ⟨phase, bind_eq_ok.mpr ⟨column, hcol, hphase⟩⟩

theorem allReducePhases_total
    (hsize : size = groups.length * (places * (elementBytes dtype * share))) :
    ∃ phases, allReducePhases nodeByRank groups places size dtype = .ok phases := by
  have hshard : size / places = elementBytes dtype * (groups.length * share) := by
    rw [hsize]
    exact Nat.div_eq_of_eq_mul_right hplaces (by ring)
  have haligned : size / places % elementBytes dtype = 0 := by
    rw [hshard, Nat.mul_mod_right]
  refine exists_bind_eq_ok (exists_mapM_eq_ok fun row hrow => ?_) fun _ =>
    exists_bind_eq_ok (columns_total hgrid hplaces hgroups hmapped fun slot column hcol => ?_)
      fun _ => exists_bind_eq_ok (exists_mapM_eq_ok fun row hrow => ?_)
        fun _ => ⟨_, rfl⟩
  · refine row_total hgrid hplaces hmapped (fst_mem_of_mem_zipIdx hrow) ?_ (fun _ => ?_) nofun
    · exact Nat.mod_eq_zero_of_dvd ⟨groups.length * places * share, by rw [hsize]; ring⟩
    · exact Nat.mod_eq_zero_of_dvd ⟨groups.length * share, by rw [hsize]; ring⟩
  · refine column_total hgrid hplaces hgroups hmapped hcol haligned (fun _ => ?_) nofun
    exact Nat.mod_eq_zero_of_dvd ⟨share, by rw [hshard]; ring⟩
  · exact row_total hgrid hplaces hmapped (fst_mem_of_mem_zipIdx hrow) haligned
      (fun h => absurd rfl h) nofun

theorem allGatherPhases_total {outputBytes : Nat} (haligned : size % elementBytes dtype = 0) :
    ∃ phases, allGatherPhases nodeByRank ranks groups places size outputBytes dtype =
      .ok phases := by
  refine exists_bind_eq_ok (columns_total hgrid hplaces hgroups hmapped
    fun slot column hcol => ?_) fun _ => exists_bind_eq_ok
      (exists_mapM_eq_ok fun row hrow => ?_) fun _ => exists_bind_eq_ok
        (gatheredOrder_total hgrid) fun _ => ⟨_, rfl⟩
  · exact column_total hgrid hplaces hgroups hmapped hcol haligned (fun h => absurd rfl h) nofun
  · refine row_total hgrid hplaces hmapped (fst_mem_of_mem_zipIdx hrow) ?_
      (fun h => absurd rfl h) nofun
    rw [Nat.mul_mod, haligned, zero_mul, Nat.zero_mod]

theorem reduceScatterPhases_total
    (hsize : size = groups.length * (places * (elementBytes dtype * share))) :
    ∃ phases, reduceScatterPhases nodeByRank ranks groups places size dtype = .ok phases := by
  have hpart : size / groups.length = places * (elementBytes dtype * share) := by
    rw [hsize, Nat.mul_div_cancel_left _ hgroups]
  have hshard : size / places = groups.length * (elementBytes dtype * share) := by
    rw [hsize]
    exact Nat.div_eq_of_eq_mul_right hplaces (by ring)
  refine exists_bind_eq_ok (exists_mapM_eq_ok fun row hrow =>
    exists_mapM_eq_ok fun d _ => ?_) fun _ => exists_bind_eq_ok
      (columns_total hgrid hplaces hgroups hmapped fun slot column hcol => ?_) fun _ => ⟨_, rfl⟩
  · refine row_total hgrid hplaces hmapped (fst_mem_of_mem_zipIdx hrow) ?_ (fun _ => ?_) nofun
    · exact Nat.mod_eq_zero_of_dvd ⟨places * share, by rw [hpart]; ring⟩
    · exact Nat.mod_eq_zero_of_dvd ⟨share, by rw [hpart]; ring⟩
  · refine column_total hgrid hplaces hgroups hmapped hcol ?_ (fun _ => ?_) nofun
    · exact Nat.mod_eq_zero_of_dvd ⟨groups.length * share, by rw [hshard]; ring⟩
    · exact Nat.mod_eq_zero_of_dvd ⟨share, by rw [hshard]; ring⟩

end Total

/-! ## What plans compute -/

/-- In every order of its phases that the dependencies allow, a plan leaves every
participant with these values. -/
def Computes [Add M] (plan : TrafficPlan ρ ν) (width : Nat) (input : ρ → Nat → M)
    (junk : PhaseId → ρ → Nat → M) (elements : Nat) (output : ρ → Nat → M) : Prop :=
  ∀ order : List (TrafficPhase ρ ν), order.Perm plan.phases → Ordered order →
    ∀ rank ∈ plan.participants, ∃ result,
      finalResult plan (execute width input junk (fun _ => none) order) rank = some result ∧
        result.size = elements ∧ ∀ pos < elements, result.value rank pos = output rank pos

/-- A plan computes an output if each of its phases means what it should, and what is
no other's input means the output. -/
theorem computes_of_sound [Add M] {plan : TrafficPlan ρ ν} {width elements : Nat}
    {output : ρ → Nat → M} (meaning : PhaseId → ρ → Nat → M)
    (hsound : Sound width input junk plan.phases meaning) (hnamed : Named plan.phases)
    (hranks : ∀ rank ∈ plan.participants, ∃ phase ∈ plan.phases, Last plan.phases phase ∧
      rank ∈ phase.participants)
    (hphases : ∀ phase ∈ plan.phases,
      (∃ other ∈ plan.phases, phase.phaseId ∈ other.predecessorIds) ∨
      phase.logicalOutputBytes / width = elements ∧ ∀ rank ∈ phase.participants,
        ∀ pos < elements, meaning phase.phaseId rank pos = output rank pos) :
    Computes plan width input junk elements output := by
  intro order hperm hordered rank hrank
  obtain ⟨phase, hphase, hlast, hmem, result, hresult, hmeans⟩ :=
    finalResult_means (execute_means hsound hnamed hperm hordered) (hranks rank hrank)
  rcases hphases phase hphase with ⟨other, hother, hpred⟩ | ⟨hsize, hvalue⟩
  · exact absurd hpred (hlast other hother)
  refine ⟨result, hresult, hmeans.size.trans hsize, fun pos hpos => ?_⟩
  rw [hmeans.value rank hmem pos (by rw [hsize]; exact hpos)]
  exact hvalue rank hmem pos hpos

variable [AddCommMonoid M]

theorem ring_computes (hnodup : ranks.Nodup) {outputBytes : Nat}
    (h : ringPhase nodeByRank .ring operation ranks size [] dtype = .ok phase) :
    Computes ⟨operation, ranks, size, outputBytes, [phase]⟩ (elementBytes dtype) input junk
      (collectiveSize operation ranks.length (size / elementBytes dtype))
      (collective operation ranks (size / elementBytes dtype) input) := by
  have hring := ringPhase_spec h
  have hread : ∀ results : Results ρ M, phaseInput (elementBytes dtype) input (junk phase.phaseId)
      results phase = input :=
    fun results => funext fun q => funext fun pos => hring.reads_input nofun q pos
  refine computes_of_sound (fun _ => collective operation ranks (size / elementBytes dtype) input)
    ?_ ?_ (fun rank hrank => ⟨phase, mem_singleton_self _, ?_, hring.participants_eq ▸ hrank⟩) ?_
  · intro results p hp _ rank hrank pos hpos
    rw [mem_singleton.mp hp] at hrank hpos ⊢
    rw [hring.value hnodup hrank hpos, hread]
  · intro p hp q hq _
    rw [mem_singleton.mp hp, mem_singleton.mp hq]
  · intro p hp
    rw [mem_singleton.mp hp, hring.predecessors_eq]
    exact not_mem_nil
  · intro p hp
    rw [mem_singleton.mp hp]
    exact .inr ⟨hring.output_elements, fun _ _ _ _ => rfl⟩

section Hierarchies

variable (hgrid : Grid ranks groups places) (hplaces : 0 < places) (hgroups : 0 < groups.length)

include hgrid hplaces hgroups

theorem allReduce_computes {outputBytes : Nat}
    (hsize : size = groups.length * (places * (elementBytes dtype * share)))
    (h : allReducePhases nodeByRank groups places size dtype = .ok phases) :
    Computes ⟨.allReduce, ranks, size, outputBytes, phases⟩ (elementBytes dtype) input junk
      (size / elementBytes dtype)
      (collective .allReduce ranks (size / elementBytes dtype) input) := by
  refine computes_of_sound _ (allReduce_sound hgrid hplaces hsize h) (allReduce_named h)
    (fun rank hrank => ?_) fun p hp => ?_
  · obtain ⟨i, group, k, hg, hk⟩ := hgrid.exists_place hrank
    obtain ⟨p, hmem, hring⟩ := exists_ringOk
      ((mem_allReducePhases h).mpr (.inr (.inr ⟨i, group, hg, rfl⟩)))
    refine ⟨p, hmem, fun q hq => ?_, hring.participants_eq ▸ mem_of_getElem? hk⟩
    rw [hring.id_eq]
    rcases (mem_allReducePhases h).mp (mem_map_of_mem hq) with ⟨i', group', -, hq⟩ |
      ⟨s, column, -, -, hq⟩ | ⟨i', group', -, hq⟩ <;>
    simp [(ringPhase_spec hq).predecessors_eq]
  · rcases (mem_allReducePhases h).mp (mem_map_of_mem hp) with ⟨i, group, hg, hp⟩ |
      ⟨slot, column, hslot, hcol, hp⟩ | ⟨i, group, hg, hp⟩ <;>
    have hring := ringPhase_spec hp <;> rw [hring.id_eq]
    · obtain ⟨column, hcol⟩ := slotGroup_total hgrid hplaces
      obtain ⟨q, hmem, hq⟩ := exists_ringOk
        ((mem_allReducePhases h).mpr (.inr (.inl ⟨0, column, hplaces, hcol, rfl⟩)))
      refine .inl ⟨q, hmem, hq.predecessors_eq ▸ ?_⟩
      exact mem_map_of_mem (mem_range.mpr (List.getElem?_eq_some_iff.mp hg).1)
    · have hg : groups[0]? = some groups[0] := getElem?_eq_getElem hgroups
      obtain ⟨q, hmem, hq⟩ := exists_ringOk
        ((mem_allReducePhases h).mpr (.inr (.inr ⟨0, _, hg, rfl⟩)))
      exact .inl ⟨q, hmem, hq.predecessors_eq ▸ mem_map_of_mem (mem_range.mpr hslot)⟩
    · refine .inr ⟨?_, fun _ _ _ _ => rfl⟩
      rw [hring.output_elements, hgrid.row_length hg, hsize]
      dsimp only [collectiveSize]
      rw [div_shard hplaces (elementBytes_pos dtype)]
      exact (Nat.div_eq_of_eq_mul_right (elementBytes_pos dtype) (by ring)).symm

/-- If the gathered blocks are in the order of the participants, nothing is moved. -/
theorem gathered_in_order {order : List ρ} {elements pos : Nat}
    (horder : gatheredOrder groups places = .ok order)
    (hplace : placesIn order ranks = List.range ranks.length) :
    gathered input order elements pos = gathered input ranks elements pos := by
  have hlength : order.length = ranks.length := by
    rw [gatheredOrder_length horder, hgrid.length_ranks, mul_comm]
  have hsame : order = ranks := by
    refine ext_getElem hlength fun k hk hk' => ?_
    have hmem := mem_gatheredOrder horder hgrid (getElem_mem hk')
    have hidx : order.idxOf ranks[k] = k := by
      have h := congrArg (fun l : List Nat => l[k]?) hplace
      simp only [placesIn, getElem?_map, getElem?_eq_getElem hk',
        getElem?_range hk', Option.map_some, Option.some.injEq] at h
      exact h
    have hget := getElem?_idxOf hmem
    rw [hidx, getElem?_eq_getElem hk] at hget
    exact Option.some.inj hget
  rw [hsame]

theorem allGather_computes (haligned : size % elementBytes dtype = 0) {outputBytes : Nat}
    (h : allGatherPhases nodeByRank ranks groups places size (size * ranks.length) dtype =
      .ok phases) :
    Computes ⟨.allGather, ranks, size, outputBytes, phases⟩ (elementBytes dtype) input junk
      (size / elementBytes dtype * ranks.length)
      (collective .allGather ranks (size / elementBytes dtype) input) := by
  obtain ⟨order, horder⟩ := gatheredOrder_total hgrid
  have hsize : size = elementBytes dtype * (size / elementBytes dtype) :=
    (Nat.mul_div_cancel' (Nat.dvd_of_mod_eq_zero haligned)).symm
  have hwide : ∀ n, size * n / elementBytes dtype = size / elementBytes dtype * n := fun n => by
    rw [mul_comm, Nat.mul_div_assoc _ (Nat.dvd_of_mod_eq_zero haligned), mul_comm]
  refine computes_of_sound _ (allGather_sound hgrid hsize horder h) (allGather_named hgrid h)
    (fun rank hrank => ?_) fun p hp => ?_
  · -- the layout phases are last, or the gathering ones where there is nothing to reorder
    obtain ⟨i, group, k, hg, hk⟩ := hgrid.exists_place hrank
    by_cases hlayout : size ≠ 0 ∧ placesIn order ranks ≠ List.range ranks.length
    · obtain ⟨p, hmem, ⟨⟩⟩ := mem_map.mp
        ((mem_allGatherPhases h horder).mpr (.inr (.inr ⟨hlayout, i, group, hg, rfl⟩)))
      refine ⟨_, hmem, fun q hq => ?_, mem_of_getElem? hk⟩
      show PhaseId.layout i ∉ _
      rcases (mem_allGatherPhases h horder).mp (mem_map_of_mem hq) with
        ⟨s, column, -, -, hq⟩ | ⟨i', group', -, hq⟩ | ⟨-, i', group', -, ⟨⟩⟩
      · simp [(ringPhase_spec hq).predecessors_eq]
      · simp [(ringPhase_spec hq).predecessors_eq]
      · simp [reorderPhase]
    · obtain ⟨p, hmem, hring⟩ := exists_ringOk
        ((mem_allGatherPhases h horder).mpr (.inr (.inl ⟨i, group, hg, rfl⟩)))
      refine ⟨p, hmem, fun q hq => ?_, hring.participants_eq ▸ mem_of_getElem? hk⟩
      rw [hring.id_eq]
      rcases (mem_allGatherPhases h horder).mp (mem_map_of_mem hq) with
        ⟨s, column, -, -, hq⟩ | ⟨i', group', -, hq⟩ | ⟨hreorder, -⟩
      · simp [(ringPhase_spec hq).predecessors_eq]
      · simp [(ringPhase_spec hq).predecessors_eq]
      · exact absurd hreorder hlayout
  · rcases (mem_allGatherPhases h horder).mp (mem_map_of_mem hp) with
      ⟨slot, column, hslot, hcol, hp⟩ | ⟨i, group, hg, hp⟩ | ⟨-, i, group, hg, ⟨⟩⟩
    · have hg : groups[0]? = some groups[0] := getElem?_eq_getElem hgroups
      obtain ⟨q, hmem, hq⟩ := exists_ringOk
        ((mem_allGatherPhases h horder).mpr (.inr (.inl ⟨0, _, hg, rfl⟩)))
      refine .inl ⟨q, hmem, ?_⟩
      rw [(ringPhase_spec hp).id_eq, hq.predecessors_eq]
      exact mem_map_of_mem (mem_range.mpr hslot)
    · have hring := ringPhase_spec hp
      rw [hring.id_eq]
      by_cases hlayout : size ≠ 0 ∧ placesIn order ranks ≠ List.range ranks.length
      · obtain ⟨q, hmem, ⟨⟩⟩ := mem_map.mp
          ((mem_allGatherPhases h horder).mpr (.inr (.inr ⟨hlayout, i, group, hg, rfl⟩)))
        exact .inl ⟨_, hmem, mem_singleton_self _⟩
      · refine .inr ⟨?_, fun rank _ pos hpos => ?_⟩
        · rw [hring.output_elements, hwide, hgrid.row_length hg, hgrid.length_ranks, ← mul_assoc]
          rfl
        · have hpositive : size ≠ 0 := by
            rintro rfl
            rw [Nat.zero_div, zero_mul] at hpos
            omega
          have hplace := by_contra fun hne => hlayout ⟨hpositive, hne⟩
          exact gathered_in_order hgrid hplaces hgroups horder hplace
    · exact .inr ⟨hwide _, fun _ _ _ _ => rfl⟩

theorem reduceScatter_computes {outputBytes : Nat}
    (hsize : size = groups.length * (places * (elementBytes dtype * share)))
    (h : reduceScatterPhases nodeByRank ranks groups places size dtype = .ok phases) :
    Computes ⟨.reduceScatter, ranks, size, outputBytes, phases⟩ (elementBytes dtype) input junk
      (size / elementBytes dtype / ranks.length)
      (collective .reduceScatter ranks (size / elementBytes dtype) input) := by
  have hshare : size / elementBytes dtype / ranks.length = share := by
    rw [reduceScatter_elements hsize, hgrid.length_ranks,
      Nat.mul_div_cancel _ (Nat.mul_pos hgroups hplaces)]
  refine computes_of_sound _ (reduceScatter_sound hgrid hplaces hsize h) (reduceScatter_named h)
    (fun rank hrank => ?_) fun p hp => ?_
  · obtain ⟨i, group, k, hg, hk⟩ := hgrid.exists_place hrank
    have hslot : k < places := hgrid.row_length hg ▸ (List.getElem?_eq_some_iff.mp hk).1
    obtain ⟨column, hcol⟩ := slotGroup_total hgrid hslot
    obtain ⟨p, hmem, hring⟩ := exists_ringOk
      ((mem_reduceScatterPhases h).mpr (.inr (.inr ⟨k, column, hslot, hcol, rfl⟩)))
    refine ⟨p, hmem, fun q hq => ?_,
      hring.participants_eq ▸ (mem_column hcol).mpr ⟨i, group, hg, hk⟩⟩
    rw [hring.id_eq]
    rcases (mem_reduceScatterPhases h).mp (mem_map_of_mem hq) with ⟨-, i', group', -, ⟨⟩⟩ |
      ⟨i', group', d, -, -, hq⟩ | ⟨s, column', -, -, hq⟩
    · exact not_mem_nil
    · rw [(ringPhase_spec hq).predecessors_eq]
      split <;> simp
    · simp [(ringPhase_spec hq).predecessors_eq]
  · rcases (mem_reduceScatterPhases h).mp (mem_map_of_mem hp) with ⟨hreorder, i, group, hg, ⟨⟩⟩ |
      ⟨i, group, d, hg, hd, hp⟩ | ⟨slot, column, hslot, hcol, hp⟩
    · obtain ⟨q, hmem, hq⟩ := exists_ringOk
        ((mem_reduceScatterPhases h).mpr (.inr (.inl ⟨i, group, 0, hg, hgroups, rfl⟩)))
      refine .inl ⟨q, hmem, ?_⟩
      rw [hq.predecessors_eq, if_pos hreorder]
      exact mem_singleton_self _
    · obtain ⟨column, hcol⟩ := slotGroup_total hgrid hplaces
      obtain ⟨q, hmem, hq⟩ := exists_ringOk
        ((mem_reduceScatterPhases h).mpr (.inr (.inr ⟨0, column, hplaces, hcol, rfl⟩)))
      refine .inl ⟨q, hmem, ?_⟩
      rw [(ringPhase_spec hp).id_eq, hq.predecessors_eq]
      exact mem_flatMap.mpr ⟨i, mem_range.mpr (List.getElem?_eq_some_iff.mp hg).1,
        mem_map_of_mem (mem_range.mpr hd)⟩
    · have hring := ringPhase_spec hp
      refine .inr ⟨?_, fun rank _ pos _ => ?_⟩
      · rw [hring.output_elements, (slotGroup_spec hcol).1, hshare, hsize]
        dsimp only [collectiveSize]
        rw [div_shard hplaces (elementBytes_pos dtype), Nat.mul_div_cancel_left _ hgroups]
      · rw [hring.id_eq]
        dsimp only [reduceScatterMeaning, collective]
        rw [hshare]

end Hierarchies

theorem nonneg_of_ringVolume {count : Nat} {messageBytes : Int} {volume : CollectiveVolume}
    (h : ringVolume operation count messageBytes dtype = .ok volume) : 0 ≤ messageBytes := by
  unfold ringVolume at h
  rw [Except.ite_throw_eq_ok, bind_eq_ok] at h
  obtain ⟨-, bytes, hbytes, -⟩ := h
  exact (validatedBytes_eq_ok.mp hbytes).1

theorem collectivePlan_eq_ok {volume : CollectiveVolume} (hnodup : ranks.Nodup)
    (hmapped : ∀ rank ∈ ranks, nodeByRank rank ≠ none)
    (hgrid : Grid ranks (nodeGroups nodeByRank ranks) places)
    (hne : nodeGroups nodeByRank ranks ≠ [])
    (hvolume : VolumeOk operation ranks.length size dtype volume)
    (hphases : planPhases nodeByRank operation ranks (nodeGroups nodeByRank ranks) places size
      volume.outputBytes dtype = .ok phases) :
    collectivePlan nodeByRank operation ranks size dtype =
      .ok ⟨operation, ranks, size, volume.outputBytes, phases⟩ := by
  unfold collectivePlan
  rw [if_neg]
  · refine bind_eq_ok.mpr ⟨size, validatedBytes_eq_ok.mpr
      ⟨Int.natCast_nonneg _, hvolume.aligned, rfl⟩, bind_eq_ok.mpr
      ⟨volume, ringVolume_eq_ok.mpr hvolume, ?_⟩⟩
    dsimp only
    rw [if_neg (by rw [hgrid.dedup_lengths hne]; simp)]
    exact bind_eq_ok.mpr ⟨places, Option.orRaise_eq_ok.mpr (hgrid.head_length hne),
      bind_eq_ok.mpr ⟨phases, hphases, rfl⟩⟩
  · rintro (rfl | hbad | ⟨rank, hrank, hnone⟩)
    · exact absurd hvolume.pos (lt_irrefl 0)
    · exact hbad hnodup
    · exact hmapped rank hrank hnone

/-- A collective plan is made for every operation, all distinct ranks, all nodes with
equally many of them and every size that the volume check accepts.  Executed in any
order that its dependencies allow, on any inputs, it leaves every rank with the
result of the operation. -/
theorem collective_plan_correct (nodeByRank : ρ → Option ν) (operation : Operation) (ranks : List ρ)
    (messageBytes : Int) (dtype : Option DType) (hnodup : ranks.Nodup)
    (hmapped : ∀ rank ∈ ranks, nodeByRank rank ≠ none) (hequal : EqualNodes nodeByRank ranks)
    (hvolume : ∃ volume, ringVolume operation ranks.length messageBytes dtype = .ok volume) :
    ∃ plan, collectivePlan nodeByRank operation ranks messageBytes dtype = .ok plan ∧
      plan.participants = ranks ∧
      ∀ (input : ρ → Nat → M) (junk : PhaseId → ρ → Nat → M),
        Computes plan (elementBytes dtype) input junk
          (collectiveSize operation ranks.length (messageBytes.toNat / elementBytes dtype))
          (collective operation ranks (messageBytes.toNat / elementBytes dtype) input) := by
  obtain ⟨volume, hvolume⟩ := hvolume
  obtain ⟨size, rfl⟩ := Int.eq_ofNat_of_zero_le (nonneg_of_ringVolume hvolume)
  have hvolume := ringVolume_eq_ok.mp hvolume
  rw [Int.toNat_natCast]
  obtain ⟨first, hfirst⟩ := exists_mem_of_length_pos hvolume.pos
  have hgrid := nodeGroups_grid hnodup hmapped hequal hfirst
  have hplaces : 0 < (ranks.filter fun rank => nodeByRank rank = nodeByRank first).length :=
    length_pos_of_mem (mem_filter.mpr ⟨hfirst, decide_eq_true rfl⟩)
  generalize (ranks.filter fun rank => nodeByRank rank = nodeByRank first).length = places
    at hgrid hplaces
  have hgroups : 0 < (nodeGroups nodeByRank ranks).length := by
    obtain ⟨i, group, -, hg, -⟩ := hgrid.exists_place hfirst
    exact Nat.zero_lt_of_lt (List.getElem?_eq_some_iff.mp hg).1
  have hne : nodeGroups nodeByRank ranks ≠ [] := length_pos_iff.mp hgroups
  by_cases hflat : (nodeGroups nodeByRank ranks).length = 1 ∨ places = 1
  · obtain ⟨phase, hphase⟩ : ∃ phase,
        ringPhase nodeByRank .ring operation ranks size [] dtype = .ok phase :=
      ringPhase_total hvolume hmapped
    refine ⟨_, collectivePlan_eq_ok hnodup hmapped hgrid hne hvolume ?_, rfl, fun input junk =>
      ring_computes hnodup hphase⟩
    unfold planPhases
    rw [if_pos hflat]
    exact bind_eq_ok.mpr ⟨phase, hphase, rfl⟩
  · -- with several nodes and places the shards of a reduction are whole elements
    have hmany : 1 < ranks.length := by
      rw [not_or] at hflat
      rw [hgrid.length_ranks]
      calc 1 < 2 * 2 := by decide
        _ ≤ _ := Nat.mul_le_mul (by omega) (by omega)
    have hshare : operation ≠ .allGather → ∃ share,
        size = (nodeGroups nodeByRank ranks).length * (places * (elementBytes dtype * share)) := by
      intro hop
      obtain ⟨share, hshare⟩ := Nat.dvd_of_mod_eq_zero (hvolume.sharded hop hmany)
      refine ⟨share, hshare.trans ?_⟩
      rw [hgrid.length_ranks]
      ring
    have hoperation := hvolume.supported
    cases operation with
    | dataReorder => exact absurd rfl hoperation
    | allReduce =>
      obtain ⟨share, hsize⟩ := hshare nofun
      obtain ⟨phases, hphases⟩ := allReducePhases_total hgrid hplaces hgroups hmapped hsize
      refine ⟨_, collectivePlan_eq_ok hnodup hmapped hgrid hne hvolume
        ((if_neg hflat).trans hphases), rfl, fun input junk => ?_⟩
      exact allReduce_computes hgrid hplaces hgroups hsize hphases
    | allGather =>
      obtain ⟨phases, hphases⟩ := allGatherPhases_total hgrid hplaces hgroups hmapped
        hvolume.aligned
      refine ⟨_, collectivePlan_eq_ok hnodup hmapped hgrid hne hvolume
        ((if_neg hflat).trans hphases), rfl, fun input junk => ?_⟩
      rw [hvolume.output_eq] at hphases
      exact allGather_computes hgrid hplaces hgroups hvolume.aligned hphases
    | reduceScatter =>
      obtain ⟨share, hsize⟩ := hshare nofun
      obtain ⟨phases, hphases⟩ := reduceScatterPhases_total hgrid hplaces hgroups hmapped hsize
      refine ⟨_, collectivePlan_eq_ok hnodup hmapped hgrid hne hvolume
        ((if_neg hflat).trans hphases), rfl, fun input junk => ?_⟩
      exact reduceScatter_computes hgrid hplaces hgroups hsize hphases

/-- Four ranks that alternate between two nodes, and four elements of four bytes. -/
theorem collective_plan_correct_sample :
    let nodeByRank : Nat → Option Nat := fun rank => if rank < 4 then some (rank % 2) else none
    ∃ plan, collectivePlan nodeByRank .reduceScatter [0, 1, 2, 3] 16 (some .fp32) = .ok plan ∧
      ∀ (input : Nat → Nat → Int) (junk : PhaseId → Nat → Nat → Int),
        Computes plan 4 input junk 1 (collective .reduceScatter [0, 1, 2, 3] 4 input) := by
  intro nodeByRank
  obtain ⟨plan, hplan, -, hcomputes⟩ := collective_plan_correct (M := Int) nodeByRank
    .reduceScatter [0, 1, 2, 3] 16 (some .fp32) (by decide) (by decide) (by unfold EqualNodes; decide)
    ⟨⟨4, 3⟩, rfl⟩
  exact ⟨plan, hplan, hcomputes⟩

end TokenSim.Comm
