import TokenSim.Comm.Hierarchy

/-!
# The three collectives over a hierarchy

For each operation: what its phases mean, that each phase yields it, and that the
last phases mean the result of the operation.  `places` is the number of ranks of a
node, and `share` the number of elements that one rank owns of a reduced tensor.
-/

set_option linter.unusedSectionVars false

namespace TokenSim.Comm

open List

open Except

variable {ρ ν M : Type} [DecidableEq ρ] [LinearOrder ν] {nodeByRank : ρ → Option ν}
  {ranks : List ρ} {groups : List (List ρ)} {places size share : Nat} {dtype : Option DType}
  {phases : List (TrafficPhase ρ ν)} {phase : TrafficPhase ρ ν}
  {made : Except Err (TrafficPhase ρ ν)} {input : ρ → Nat → M}
  {junk : PhaseId → ρ → Nat → M}

/-- The elements that one of the shards of a node has. -/
theorem div_shard {nodes width : Nat} (hplaces : 0 < places) (hwidth : 0 < width) :
    nodes * (places * (width * share)) / places / width = nodes * share := by
  rw [Nat.div_div_eq_div_mul]
  exact Nat.div_eq_of_eq_mul_right (Nat.mul_pos hplaces hwidth) (by ring)

/-! ## All-reduce -/

section

variable (h : allReducePhases nodeByRank groups places size dtype = .ok phases)
include h

theorem mem_allReducePhases :
    made ∈ phases.map .ok ↔
      (∃ (i : Nat) (group : List ρ), groups[i]? = some group ∧
        ringPhase nodeByRank (.localRs i) .reduceScatter group size [] dtype = made) ∨
      (∃ slot column, slot < places ∧ slotGroup groups slot = .ok column ∧
        ringPhase nodeByRank (.interAr slot) .allReduce column (size / places)
          ((List.range groups.length).map .localRs) dtype = made) ∨
      (∃ (i : Nat) (group : List ρ), groups[i]? = some group ∧
        ringPhase nodeByRank (.localAg i) .allGather group (size / places)
          ((List.range places).map .interAr) dtype = made) := by
  obtain ⟨scatter, hscatter, h⟩ := bind_eq_ok.mp h
  obtain ⟨reduce, hreduce, h⟩ := bind_eq_ok.mp h
  obtain ⟨gather, hgather, h⟩ := bind_eq_ok.mp h
  cases h
  rw [map_append, map_append, mem_append, mem_append, or_assoc]
  exact or_congr (mem_rowPhases hscatter) (or_congr (mem_columnPhases hreduce)
    (mem_rowPhases hgather))

theorem allReduce_named :
    Named phases := by
  intro p hp q hq hid
  rcases (mem_allReducePhases h).mp (mem_map_of_mem hp) with ⟨i, group, hg, hp⟩ | ⟨s, column, -, hcol, hp⟩ |
    ⟨i, group, hg, hp⟩ <;>
  rcases (mem_allReducePhases h).mp (mem_map_of_mem hq) with ⟨i', group', hg', hq⟩ |
    ⟨s', column', -, hcol', hq⟩ | ⟨i', group', hg', hq⟩ <;>
  rw [(ringPhase_spec hp).id_eq, (ringPhase_spec hq).id_eq] at hid <;> cases hid
  · cases hg.symm.trans hg'
    exact ok.inj (hp.symm.trans hq)
  · cases hcol.symm.trans hcol'
    exact ok.inj (hp.symm.trans hq)
  · cases hg.symm.trans hg'
    exact ok.inj (hp.symm.trans hq)

end

section AllReduce

variable [AddCommMonoid M]

/-- What the phases of an all-reduce leave at a rank. -/
def allReduceMeaning (ranks : List ρ) (groups : List (List ρ)) (share : Nat) (input : ρ → Nat → M) :
    PhaseId → ρ → Nat → M
  | .localRs i, rank, pos =>
    let group := groups[i]?.getD []
    (group.map fun q => input q (group.idxOf rank * (groups.length * share) + pos)).sum
  | .interAr slot, _, pos =>
    (ranks.map fun q => input q (slot * (groups.length * share) + pos)).sum
  | _, _, pos => (ranks.map fun q => input q pos).sum

section

variable (hgrid : Grid ranks groups places) (hplaces : 0 < places)
  (hsize : size = groups.length * (places * (elementBytes dtype * share)))
  (h : allReducePhases nodeByRank groups places size dtype = .ok phases) {results : Results ρ M}
  (hready : Ready (elementBytes dtype) (allReduceMeaning ranks groups share input) phases results
    phase)
include hgrid hplaces hsize

/-- The ranks of a node share out the sum over the node. -/
theorem allReduce_scatter {i : Nat} {group : List ρ} (hg : groups[i]? = some group)
    (hring : RingOk nodeByRank (.localRs i) .reduceScatter group size [] dtype phase) :
    Yields (elementBytes dtype) input junk (allReduceMeaning ranks groups share input) results
      phase := by
  intro rank hrank pos hpos
  have hshare : size / elementBytes dtype / group.length = groups.length * share := by
    rw [hgrid.row_length hg, Nat.div_right_comm, hsize]
    exact div_shard hplaces (elementBytes_pos dtype)
  rw [hring.id_eq, hring.value (hgrid.row_nodup hg) hrank hpos]
  dsimp only [collective, allReduceMeaning]
  simp only [hring.reads_input nofun, hshare, hg, Option.getD_some]

include h hready

/-- The ranks with one place add up the shares of their nodes. -/
theorem allReduce_across {slot : Nat} {column : List ρ} (hcol : slotGroup groups slot = .ok column)
    (hring : RingOk nodeByRank (.interAr slot) .allReduce column (size / places)
      ((List.range groups.length).map .localRs) dtype phase) :
    Yields (elementBytes dtype) input junk (allReduceMeaning ranks groups share input) results
      phase := by
  intro rank hrank pos hpos
  rw [hring.id_eq, hring.value (column_nodup hcol hgrid) hrank hpos]
  rw [hring.output_elements] at hpos
  dsimp only [collective, allReduceMeaning]
  rw [← hgrid.sum_rows]
  refine sum_column hcol fun i group q hg hq => ?_
  rw [hring.reads_family nofun (List.getElem?_eq_some_iff.mp hg).1 hready (fun k hk => ?_) hpos]
  · dsimp only [allReduceMeaning]
    obtain ⟨hlt, rfl⟩ := List.getElem?_eq_some_iff.mp hq
    rw [hg, Option.getD_some, (hgrid.row_nodup hg).idxOf_getElem slot hlt]
  · have hg' : groups[k]? = some groups[k] := getElem?_eq_getElem hk
    obtain ⟨before, hmem, hspec⟩ := exists_ringOk ((mem_allReducePhases h).mpr (.inl ⟨k, _, hg', rfl⟩))
    refine ⟨before, hmem, hspec.id_eq, ?_, ?_⟩
    · rw [hspec.participants_eq]
      exact hgrid.mem_row_iff hg' hg hq
    · rw [hspec.output_elements, hgrid.row_length hg']
      exact Nat.div_right_comm ..

/-- The ranks of a node gather the shares. -/
theorem allReduce_gather {i : Nat} {group : List ρ} (hg : groups[i]? = some group)
    (hring : RingOk nodeByRank (.localAg i) .allGather group (size / places)
      ((List.range places).map .interAr) dtype phase) :
    Yields (elementBytes dtype) input junk (allReduceMeaning ranks groups share input) results
      phase := by
  intro rank hrank pos hpos
  have helements : size / places / elementBytes dtype = groups.length * share := by
    rw [hsize]
    exact div_shard hplaces (elementBytes_pos dtype)
  rw [hring.id_eq, hring.value (hgrid.row_nodup hg) hrank hpos, helements]
  rw [hring.output_elements, helements] at hpos
  have hmod : pos % (groups.length * share) < groups.length * share :=
    Nat.mod_lt _ (Nat.pos_of_lt_mul_right hpos)
  have hq : group[pos / (groups.length * share)]? = some _ :=
    getElem?_eq_getElem (Nat.div_lt_of_lt_mul hpos)
  dsimp only [collective]
  rw [gathered_of_get hq, hring.reads_family nofun
    (hgrid.row_length hg ▸ (List.getElem?_eq_some_iff.mp hq).1) hready (fun slot hslot => ?_) hmod]
  · dsimp only [allReduceMeaning]
    rw [Nat.div_add_mod']
  · obtain ⟨column, hcol⟩ := slotGroup_total hgrid hslot
    obtain ⟨before, hmem, hspec⟩ := exists_ringOk
      ((mem_allReducePhases h).mpr (.inr (.inl ⟨slot, column, hslot, hcol, rfl⟩)))
    refine ⟨before, hmem, hspec.id_eq, ?_, hspec.output_elements.trans helements⟩
    rw [hspec.participants_eq]
    exact hgrid.mem_column_iff hcol hg hq

omit hready in
theorem allReduce_sound :
    Sound (elementBytes dtype) input junk phases (allReduceMeaning ranks groups share input) := by
  intro results phase hphase hready
  rcases (mem_allReducePhases h).mp (mem_map_of_mem hphase) with ⟨i, group, hg, hp⟩ |
    ⟨slot, column, -, hcol, hp⟩ | ⟨i, group, hg, hp⟩
  · exact allReduce_scatter hgrid hplaces hsize hg (ringPhase_spec hp)
  · exact allReduce_across hgrid hplaces hsize h hready hcol (ringPhase_spec hp)
  · exact allReduce_gather hgrid hplaces hsize h hready hg (ringPhase_spec hp)

end

end AllReduce

/-! ## All-gather -/

variable {order : List ρ} {rank : ρ} {outputBytes elements : Nat}

theorem getElem?_placesIn (order : List ρ) {l : List ρ} {k : Nat} (h : l[k]? = some rank) :
    (placesIn order l)[k]? = some (order.idxOf rank) := by
  rw [placesIn, getElem?_map, h]
  rfl

section

variable (h : gatheredOrder groups places = .ok order)
include h

theorem gatheredOrder_columns :
    ∃ columns, (List.range places).mapM (slotGroup groups) = .ok columns ∧
      columns.flatten = order ∧ ∀ column ∈ columns, column.length = groups.length := by
  obtain ⟨columns, hcolumns, h⟩ := bind_eq_ok.mp h
  refine ⟨columns, hcolumns, ok.inj h, fun column hcol => ?_⟩
  obtain ⟨s, -, hs⟩ := (mem_of_mapM hcolumns).mp hcol
  exact (slotGroup_spec hs).1

/-- The order of gathered blocks: column by column. -/
theorem gatheredOrder_spec {slot i : Nat} {group : List ρ} (hslot : slot < places)
    (hg : groups[i]? = some group) (hk : group[slot]? = some rank) :
    order[slot * groups.length + i]? = some rank := by
  obtain ⟨columns, hcolumns, rfl, hlength⟩ := gatheredOrder_columns h
  rw [getElem?_flatten_rows hlength (List.getElem?_eq_some_iff.mp hg).1]
  have hall := mapM_eq_ok.mp hcolumns
  have hlt : slot < columns.length := by
    rw [← hall.length_eq, length_range]
    exact hslot
  have hcol := hall.get (i := slot) (by rw [length_range]; exact hslot) hlt
  simp only [get_eq_getElem, getElem_range] at hcol
  rw [getElem?_eq_getElem hlt, Option.bind_some, (slotGroup_spec hcol).2, hg]
  exact hk

theorem gatheredOrder_length :
    order.length = places * groups.length := by
  obtain ⟨columns, hcolumns, rfl, hlength⟩ := gatheredOrder_columns h
  rw [length_flatten, map_congr_left hlength, map_const', sum_replicate,
    ← (mapM_eq_ok.mp hcolumns).length_eq, length_range, smul_eq_mul]

theorem mem_gatheredOrder (hgrid : Grid ranks groups places) (hrank : rank ∈ ranks) :
    rank ∈ order := by
  obtain ⟨i, group, k, hg, hk⟩ := hgrid.exists_place hrank
  have hlt : k < places := hgrid.row_length hg ▸ (List.getElem?_eq_some_iff.mp hk).1
  exact mem_of_getElem? (gatheredOrder_spec h hlt hg hk)

end

theorem gatheredOrder_total (hgrid : Grid ranks groups places) :
    ∃ order, gatheredOrder groups places = .ok order :=
  exists_bind_eq_ok
    (exists_mapM_eq_ok fun _ hs => slotGroup_total hgrid (mem_range.mp hs))
    fun _ => ⟨_, rfl⟩

/-- The phases that only change an order, where there are any. -/
theorem mem_layouts {P : Prop} [Decidable P] {f : List ρ × Nat → TrafficPhase ρ ν} :
    made ∈ (if P then groups.zipIdx.map f else []).map .ok ↔
      P ∧ ∃ (i : Nat) (group : List ρ), groups[i]? = some group ∧ .ok (f (group, i)) = made := by
  by_cases hP : P
  · rw [if_pos hP, map_map, mem_map]
    constructor
    · rintro ⟨⟨group, i⟩, hmem, heq⟩
      exact ⟨hP, i, group, mem_zipIdx_iff_getElem?.mp hmem, heq⟩
    · rintro ⟨-, i, group, hg, heq⟩
      exact ⟨(group, i), mem_zipIdx_iff_getElem?.mpr hg, heq⟩
  · rw [if_neg hP]
    exact ⟨nofun, fun hmem => absurd hmem.1 hP⟩

theorem mem_allGatherPhases
    (h : allGatherPhases nodeByRank ranks groups places size outputBytes dtype = .ok phases)
    (horder : gatheredOrder groups places = .ok order) :
    made ∈ phases.map .ok ↔
      (∃ slot column, slot < places ∧ slotGroup groups slot = .ok column ∧
        ringPhase nodeByRank (.interAg slot) .allGather column size [] dtype = made) ∨
      (∃ (i : Nat) (group : List ρ), groups[i]? = some group ∧
        ringPhase nodeByRank (.localAg i) .allGather group (size * groups.length)
          ((List.range places).map .interAg) dtype = made) ∨
      (size ≠ 0 ∧ placesIn order ranks ≠ List.range ranks.length) ∧
        ∃ (i : Nat) (group : List ρ), groups[i]? = some group ∧
          .ok (reorderPhase (.layout i) group outputBytes [.localAg i] dtype
            (placesIn order ranks)) = made := by
  obtain ⟨across, hacross, h⟩ := bind_eq_ok.mp h
  obtain ⟨gather, hgather, h⟩ := bind_eq_ok.mp h
  obtain ⟨order', horder', h⟩ := bind_eq_ok.mp h
  cases horder.symm.trans horder'
  cases h
  rw [map_append, map_append, mem_append, mem_append, or_assoc]
  exact or_congr (mem_columnPhases hacross) (or_congr (mem_rowPhases hgather) mem_layouts)

theorem allGather_named (hgrid : Grid ranks groups places)
    (h : allGatherPhases nodeByRank ranks groups places size outputBytes dtype = .ok phases) :
    Named phases := by
  obtain ⟨order, horder⟩ := gatheredOrder_total hgrid
  intro p hp q hq hid
  -- phases of different families have different ids
  rcases (mem_allGatherPhases h horder).mp (mem_map_of_mem hp) with ⟨s, column, -, hcol, hp⟩ |
    ⟨i, group, hg, hp⟩ | ⟨-, i, group, hg, ⟨⟩⟩ <;>
  rcases (mem_allGatherPhases h horder).mp (mem_map_of_mem hq) with ⟨s', column', -, hcol', hq⟩ |
    ⟨i', group', hg', hq⟩ | ⟨-, i', group', hg', ⟨⟩⟩ <;>
  try rw [(ringPhase_spec hp).id_eq] at hid
  all_goals try rw [(ringPhase_spec hq).id_eq] at hid
  all_goals cases hid
  · cases hcol.symm.trans hcol'
    exact ok.inj (hp.symm.trans hq)
  · cases hg.symm.trans hg'
    exact ok.inj (hp.symm.trans hq)
  · cases hg.symm.trans hg'
    rfl

/-- What the phases of an all-gather leave at a rank. -/
def allGatherMeaning [Zero M] (ranks : List ρ) (groups : List (List ρ)) (order : List ρ)
    (elements : Nat) (input : ρ → Nat → M) : PhaseId → ρ → Nat → M
  | .interAg slot, _, pos =>
    match slotGroup groups slot with
    | .ok column => gathered input column elements pos
    | .error _ => 0
  | .localAg _, _, pos => gathered input order elements pos
  | _, _, pos => gathered input ranks elements pos

theorem allGatherMeaning_column [Zero M] {column : List ρ} {slot : Nat}
    (hcol : slotGroup groups slot = .ok column) (rank : ρ) (pos : Nat) :
    allGatherMeaning ranks groups order elements input (.interAg slot) rank pos =
      gathered input column elements pos := by
  show (match slotGroup groups slot with
    | .ok column => gathered input column elements pos
    | .error _ => 0) = _
  rw [hcol]

section

variable [AddCommMonoid M] (hgrid : Grid ranks groups places)
  (hsize : size = elementBytes dtype * elements) (horder : gatheredOrder groups places = .ok order)
  (h : allGatherPhases nodeByRank ranks groups places size (size * ranks.length) dtype = .ok phases)
  {results : Results ρ M}
include hgrid hsize

/-- A column gathers the inputs of its ranks. -/
theorem allGather_across {slot : Nat} {column : List ρ} (hcol : slotGroup groups slot = .ok column)
    (hring : RingOk nodeByRank (.interAg slot) .allGather column size [] dtype phase) :
    Yields (elementBytes dtype) input junk (allGatherMeaning ranks groups order elements input)
      results phase := by
  intro rank hrank pos hpos
  have helements : size / elementBytes dtype = elements := by
    rw [hsize, Nat.mul_div_cancel_left _ (elementBytes_pos dtype)]
  rw [hring.id_eq, hring.value (column_nodup hcol hgrid) hrank hpos, helements,
    allGatherMeaning_column hcol]
  dsimp only [collective, gathered]
  simp only [hring.reads_input nofun]

include horder h

/-- A row gathers the columns. -/
theorem allGather_gather (hready : Ready (elementBytes dtype)
      (allGatherMeaning ranks groups order elements input) phases results phase)
    {i : Nat} {group : List ρ} (hg : groups[i]? = some group)
    (hring : RingOk nodeByRank (.localAg i) .allGather group (size * groups.length)
      ((List.range places).map .interAg) dtype phase) :
    Yields (elementBytes dtype) input junk (allGatherMeaning ranks groups order elements input)
      results phase := by
  intro rank hrank pos hpos
  have hwide : size * groups.length / elementBytes dtype = elements * groups.length := by
    rw [hsize, mul_assoc, Nat.mul_div_cancel_left _ (elementBytes_pos dtype)]
  rw [hring.id_eq, hring.value (hgrid.row_nodup hg) hrank hpos, hwide]
  rw [hring.output_elements, hwide] at hpos
  have hgroups : 0 < groups.length := Nat.zero_lt_of_lt (List.getElem?_eq_some_iff.mp hg).1
  have hmod : pos % (elements * groups.length) < elements * groups.length :=
    Nat.mod_lt _ (Nat.pos_of_lt_mul_right hpos)
  have hq : group[pos / (elements * groups.length)]? = some _ :=
    getElem?_eq_getElem (Nat.div_lt_of_lt_mul hpos)
  have hslot : pos / (elements * groups.length) < places :=
    hgrid.row_length hg ▸ (List.getElem?_eq_some_iff.mp hq).1
  obtain ⟨column, hcol⟩ := slotGroup_total hgrid hslot
  dsimp only [collective]
  rw [gathered_of_get hq, hring.reads_family nofun hslot hready (fun slot hslot => ?_) hmod,
    allGatherMeaning_column hcol]
  · -- the block's column is the slot, and its place there the node
    have hnode : pos / elements % groups.length < groups.length := Nat.mod_lt _ hgroups
    have hg' : groups[pos / elements % groups.length]? = some _ := getElem?_eq_getElem hnode
    obtain ⟨cell, hcell⟩ : ∃ cell,
        (groups[pos / elements % groups.length])[pos / (elements * groups.length)]? = some cell :=
      ⟨_, getElem?_eq_getElem (by rw [hgrid.row_length hg']; exact hslot)⟩
    have hentry := gatheredOrder_spec horder hslot hg' hcell
    rw [← Nat.div_div_eq_div_mul, Nat.div_add_mod'] at hentry
    have hhere : column[pos % (elements * groups.length) / elements]? = some cell := by
      rw [Nat.mod_mul_right_div_self, (slotGroup_spec hcol).2, hg']
      exact hcell
    rw [gathered_of_get hhere, Nat.mod_mul_right_mod]
    exact (gathered_of_get hentry).symm
  · obtain ⟨column, hcol⟩ := slotGroup_total hgrid hslot
    obtain ⟨before, hmem, hspec⟩ := exists_ringOk
      ((mem_allGatherPhases h horder).mpr (.inl ⟨slot, column, hslot, hcol, rfl⟩))
    refine ⟨before, hmem, hspec.id_eq, ?_, ?_⟩
    · rw [hspec.participants_eq]
      exact hgrid.mem_column_iff hcol hg hq
    · rw [hspec.output_elements, (slotGroup_spec hcol).1, hsize,
        Nat.mul_div_cancel_left _ (elementBytes_pos dtype)]
      rfl

/-- The blocks are put into the order of the participants. -/
theorem allGather_layout {i : Nat} {group : List ρ} (hg : groups[i]? = some group)
    (hready : Ready (elementBytes dtype) (allGatherMeaning ranks groups order elements input) phases
      results (reorderPhase (.layout i) group (size * ranks.length) [.localAg i] dtype
        (placesIn order ranks))) :
    Yields (elementBytes dtype) input junk (allGatherMeaning ranks groups order elements input)
      results (reorderPhase (.layout i) group (size * ranks.length) [.localAg i] dtype
        (placesIn order ranks) : TrafficPhase ρ ν) := by
  intro rank hrank pos hpos
  have hwide : ∀ n, size * n / elementBytes dtype = elements * n := fun n => by
    rw [hsize, mul_assoc, Nat.mul_div_cancel_left _ (elementBytes_pos dtype)]
  have hpos : pos < elements * ranks.length := (hwide _).symm ▸ hpos
  have hpositive : 0 < elements := Nat.pos_of_lt_mul_right hpos
  have hcount : 0 < ranks.length := Nat.pos_of_lt_mul_left hpos
  have hb : pos / elements < ranks.length := Nat.div_lt_of_lt_mul hpos
  have hq : ranks[pos / elements]? = some ranks[pos / elements] := getElem?_eq_getElem hb
  have hmem : ranks[pos / elements] ∈ order := mem_gatheredOrder horder hgrid (getElem_mem hb)
  have hblock : size * ranks.length / elementBytes dtype / (placesIn order ranks).length =
      elements := by
    rw [hwide, placesIn, length_map, Nat.mul_div_cancel _ hcount]
  obtain ⟨before, hbmem, hspec⟩ := exists_ringOk
    ((mem_allGatherPhases h horder).mpr (.inr (.inl ⟨i, group, hg, rfl⟩)))
  have hinside : order.idxOf ranks[pos / elements] * elements + pos % elements <
      before.logicalOutputBytes / elementBytes dtype := by
    rw [hspec.output_elements, hwide, hgrid.row_length hg]
    dsimp only [collectiveSize]
    rw [mul_assoc, mul_comm groups.length, ← gatheredOrder_length horder]
    have hmod := Nat.mod_lt pos hpositive
    calc order.idxOf ranks[pos / elements] * elements + pos % elements
        < order.idxOf ranks[pos / elements] * elements + elements := by omega
      _ = elements * (order.idxOf ranks[pos / elements] + 1) := by ring
      _ ≤ elements * order.length := Nat.mul_le_mul_left _ (idxOf_lt_length_of_mem hmem)
  rw [runPhase_reorder hblock (getElem?_placesIn order hq)]
  have hoffset : inputOffset (elementBytes dtype) (reorderPhase (.layout i) group
      (size * ranks.length) [.localAg i] dtype (placesIn order ranks) : TrafficPhase ρ ν) = 0 := rfl
  rw [phaseInput_sole hready hbmem (by rw [hspec.id_eq]; rfl)
    (by rw [hspec.participants_eq]; exact hrank)
    (by rw [hoffset, zero_add]; exact hinside), hoffset, zero_add, hspec.id_eq]
  show gathered input order elements _ = gathered input ranks elements pos
  have hdiv : (order.idxOf ranks[pos / elements] * elements + pos % elements) / elements =
      order.idxOf ranks[pos / elements] := by
    rw [mul_comm, Nat.mul_add_div hpositive, Nat.div_eq_of_lt (Nat.mod_lt _ hpositive),
      add_zero]
  have hhere : order[(order.idxOf ranks[pos / elements] * elements + pos % elements) /
      elements]? = some ranks[pos / elements] := by
    rw [hdiv]
    exact getElem?_idxOf hmem
  rw [gathered_of_get hhere, gathered_of_get hq, mul_comm, Nat.mul_add_mod, Nat.mod_mod]

theorem allGather_sound : Sound (elementBytes dtype) input junk phases
    (allGatherMeaning ranks groups order elements input) := by
  intro results phase hphase hready
  rcases (mem_allGatherPhases h horder).mp (mem_map_of_mem hphase) with
    ⟨slot, column, -, hcol, hp⟩ | ⟨i, group, hg, hp⟩ | ⟨-, i, group, hg, ⟨⟩⟩
  · exact allGather_across hgrid hsize hcol (ringPhase_spec hp)
  · exact allGather_gather hgrid hsize horder h hready hg (ringPhase_spec hp)
  · exact allGather_layout hgrid hsize horder h hg hready

end

/-! ## Reduce-scatter -/

section

variable (h : reduceScatterPhases nodeByRank ranks groups places size dtype = .ok phases)
include h

theorem mem_reduceScatterPhases :
    made ∈ phases.map .ok ↔
      ((groups.flatten ≠ ranks ∧ 0 < size) ∧ ∃ (i : Nat) (group : List ρ), groups[i]? = some group ∧
        .ok (reorderPhase (.inputLayout i) group size [] dtype (placesIn ranks groups.flatten)) =
          made) ∨
      (∃ (i : Nat) (group : List ρ) (d : Nat), groups[i]? = some group ∧ d < groups.length ∧
        ringPhase nodeByRank (.localRsFor i d) .reduceScatter group (size / groups.length)
          (if groups.flatten ≠ ranks ∧ 0 < size then [.inputLayout i] else []) dtype = made) ∨
      (∃ slot column, slot < places ∧ slotGroup groups slot = .ok column ∧
        ringPhase nodeByRank (.interRs slot) .reduceScatter column (size / places)
          ((List.range groups.length).flatMap fun i =>
            (List.range groups.length).map fun j => .localRsFor i j) dtype = made) := by
  obtain ⟨scatter, hscatter, h⟩ := bind_eq_ok.mp h
  obtain ⟨across, hacross, h⟩ := bind_eq_ok.mp h
  cases h
  rw [map_append, map_append, mem_append, mem_append, or_assoc]
  refine or_congr ?_ (or_congr ?_ (mem_columnPhases hacross))
  · simp only [decide_eq_true_eq]
    exact mem_layouts
  · simp only [decide_eq_true_eq] at hscatter
    constructor
    · intro hmade
      obtain ⟨phase, hphase, rfl⟩ := mem_map.mp hmade
      obtain ⟨row, hrow, hphase⟩ := mem_flatten.mp hphase
      obtain ⟨⟨group, i⟩, hmem, hrow⟩ := (mem_of_mapM hscatter).mp hrow
      obtain ⟨d, hd, hphase⟩ := (mem_of_mapM hrow).mp hphase
      exact ⟨i, group, d, mem_zipIdx_iff_getElem?.mp hmem, mem_range.mp hd, hphase⟩
    · rintro ⟨i, group, d, hg, hd, rfl⟩
      have hmem : (group, i) ∈ groups.zipIdx := mem_zipIdx_iff_getElem?.mpr hg
      obtain ⟨row, hrow⟩ := exists_of_mapM hscatter hmem
      rw [map_flatten]
      refine mem_flatten.mpr ⟨_, mem_map_of_mem ((mem_of_mapM hscatter).mpr ⟨_, hmem, hrow⟩), ?_⟩
      rw [← map_of_mapM hrow]
      exact mem_map_of_mem (mem_range.mpr hd)

theorem reduceScatter_named :
    Named phases := by
  intro p hp q hq hid
  rcases (mem_reduceScatterPhases h).mp (mem_map_of_mem hp) with ⟨-, i, group, hg, ⟨⟩⟩ |
    ⟨i, group, d, hg, -, hp⟩ | ⟨s, column, -, hcol, hp⟩ <;>
  rcases (mem_reduceScatterPhases h).mp (mem_map_of_mem hq) with ⟨-, i', group', hg', ⟨⟩⟩ |
    ⟨i', group', d', hg', -, hq⟩ | ⟨s', column', -, hcol', hq⟩ <;>
  try rw [(ringPhase_spec hp).id_eq] at hid
  all_goals try rw [(ringPhase_spec hq).id_eq] at hid
  all_goals cases hid
  · cases hg.symm.trans hg'
    rfl
  · cases hg.symm.trans hg'
    exact ok.inj (hp.symm.trans hq)
  · cases hcol.symm.trans hcol'
    exact ok.inj (hp.symm.trans hq)

end

section ReduceScatter

variable [AddCommMonoid M]

/-- What the phases of a reduce-scatter leave at a rank. -/
def reduceScatterMeaning (ranks : List ρ) (groups : List (List ρ)) (share : Nat)
    (input : ρ → Nat → M) : PhaseId → ρ → Nat → M
  | .inputLayout _, rank, pos =>
    match groups.flatten[pos / share]? with
    | some target => input rank (ranks.idxOf target * share + pos % share)
    | none => 0
  | .localRsFor i d, rank, pos =>
    let group := groups[i]?.getD []
    match groups[d]?.bind fun row => row[group.idxOf rank]? with
    | some target => (group.map fun q => input q (ranks.idxOf target * share + pos)).sum
    | none => 0
  | _, rank, pos => (ranks.map fun q => input q (ranks.idxOf rank * share + pos)).sum

variable {i : Nat}

theorem reduceScatterMeaning_inputLayout {pos : Nat} {target : ρ}
    (h : groups.flatten[pos / share]? = some target) :
    reduceScatterMeaning ranks groups share input (.inputLayout i) rank pos =
      input rank (ranks.idxOf target * share + pos % share) := by
  show (match groups.flatten[pos / share]? with
    | some target => input rank (ranks.idxOf target * share + pos % share)
    | none => 0) = _
  rw [h]

theorem reduceScatterMeaning_localRsFor (hgrid : Grid ranks groups places) {d k : Nat}
    {group row : List ρ} {target : ρ} (hg : groups[i]? = some group)
    (hk : group[k]? = some rank) (hd : groups[d]? = some row) (ht : row[k]? = some target)
    (pos : Nat) :
    reduceScatterMeaning ranks groups share input (.localRsFor i d) rank pos =
      (group.map fun q => input q (ranks.idxOf target * share + pos)).sum := by
  show (match groups[d]?.bind fun row => row[(groups[i]?.getD []).idxOf rank]? with
    | some target =>
      ((groups[i]?.getD []).map fun q => input q (ranks.idxOf target * share + pos)).sum
    | none => 0) = _
  obtain ⟨hlt, rfl⟩ := List.getElem?_eq_some_iff.mp hk
  rw [hg, Option.getD_some, (hgrid.row_nodup hg).idxOf_getElem k hlt, hd, Option.bind_some, ht]

section

variable (hgrid : Grid ranks groups places) (hplaces : 0 < places)
  (hsize : size = groups.length * (places * (elementBytes dtype * share)))
  (h : reduceScatterPhases nodeByRank ranks groups places size dtype = .ok phases)
  {results : Results ρ M} (hready : Ready (elementBytes dtype)
    (reduceScatterMeaning ranks groups share input) phases results phase)
include hgrid hplaces hsize

omit hgrid hplaces in
theorem reduceScatter_elements : size / elementBytes dtype = share * (groups.length * places) := by
  rw [hsize]
  exact Nat.div_eq_of_eq_mul_right (elementBytes_pos dtype) (by ring)

/-- Blocks are put into the order of the grid. -/
theorem reduceScatter_layout {i : Nat} {group : List ρ} (hgroups : 0 < groups.length) :
    Yields (elementBytes dtype) input junk (reduceScatterMeaning ranks groups share input) results
      (reorderPhase (.inputLayout i) group size [] dtype (placesIn ranks groups.flatten) :
        TrafficPhase ρ ν) := by
  intro rank hrank pos hpos
  have hcount : groups.flatten.length = groups.length * places := by
    rw [hgrid.perm.length_eq, hgrid.length_ranks]
  have hblock : size / elementBytes dtype / (placesIn ranks groups.flatten).length = share := by
    rw [reduceScatter_elements hsize, placesIn, length_map, hcount,
      Nat.mul_div_cancel _ (Nat.mul_pos hgroups hplaces)]
  replace hpos : pos < size / elementBytes dtype := hpos
  rw [reduceScatter_elements hsize, ← hcount] at hpos
  have hq : groups.flatten[pos / share]? = some _ := getElem?_eq_getElem (Nat.div_lt_of_lt_mul hpos)
  rw [runPhase_reorder hblock (getElem?_placesIn ranks hq), phaseInput_start rfl]
  show input rank (0 + _) = reduceScatterMeaning ranks groups share input (.inputLayout i) rank pos
  rw [zero_add, reduceScatterMeaning_inputLayout hq]

include h hready

/-- What a node reads of the part for another: the block of the place there. -/
theorem reduceScatter_reads {i d k pos : Nat} {group row : List ρ} {target : ρ}
    (hg : groups[i]? = some group)
    (hd : groups[d]? = some row) (ht : row[k]? = some target)
    (hring : RingOk nodeByRank (.localRsFor i d) .reduceScatter group (size / groups.length)
      (if groups.flatten ≠ ranks ∧ 0 < size then [.inputLayout i] else []) dtype phase)
    (hrank : rank ∈ group) (hpos : pos < share) :
    phaseInput (elementBytes dtype) input (junk phase.phaseId) results phase rank
      (k * share + pos) = input rank (ranks.idxOf target * share + pos) := by
  have hdlt := (List.getElem?_eq_some_iff.mp hd).1
  have hklt : k < places := hgrid.row_length hd ▸ (List.getElem?_eq_some_iff.mp ht).1
  have hshare : 0 < share := Nat.zero_lt_of_lt hpos
  have htarget : groups.flatten[d * places + k]? = some target := by
    rw [getElem?_flatten_rows hgrid.row hklt, hd]
    exact ht
  have hplace : inputOffset (elementBytes dtype) phase + (k * share + pos) =
      share * (d * places + k) + pos := by
    have hwide : size / groups.length / elementBytes dtype = places * share := by
      rw [Nat.div_right_comm, reduceScatter_elements hsize]
      exact Nat.div_eq_of_eq_mul_right (Nat.zero_lt_of_lt hdlt) (by ring)
    unfold inputOffset
    rw [hring.id_eq, hring.input_eq]
    show d * (size / groups.length / elementBytes dtype) + _ = _
    rw [hwide]
    ring
  by_cases hreorder : groups.flatten ≠ ranks ∧ 0 < size
  · rw [if_pos hreorder] at hring
    obtain ⟨before, hmem, ⟨⟩⟩ := mem_map.mp
      ((mem_reduceScatterPhases h).mpr (.inl ⟨hreorder, i, group, hg, rfl⟩))
    rw [phaseInput_sole hready hmem (by exact hring.predecessors_eq) hrank ?_, hplace]
    · have hdiv : (share * (d * places + k) + pos) / share = d * places + k := by
        rw [Nat.mul_add_div hshare, Nat.div_eq_of_lt hpos, add_zero]
      show reduceScatterMeaning ranks groups share input (.inputLayout i) rank _ = _
      rw [reduceScatterMeaning_inputLayout (hdiv ▸ htarget), Nat.mul_add_mod, Nat.mod_eq_of_lt hpos]
    · show _ < size / elementBytes dtype
      rw [hplace, reduceScatter_elements hsize]
      calc share * (d * places + k) + pos < share * (d * places + k) + share := by omega
        _ = share * (d * places + (k + 1)) := by ring
        _ ≤ share * (d * places + places) := Nat.mul_le_mul_left _ (by omega)
        _ = share * ((d + 1) * places) := by ring
        _ ≤ _ := Nat.mul_le_mul_left _ (Nat.mul_le_mul_right _ hdlt)
  · rw [if_neg hreorder] at hring
    have hpositive : 0 < size := by
      have hgroups : 0 < groups.length := Nat.zero_lt_of_lt hdlt
      have hwidth := elementBytes_pos dtype
      rw [hsize]
      positivity
    have hsame : groups.flatten = ranks := by_contra fun hne => hreorder ⟨hne, hpositive⟩
    rw [hsame] at htarget
    obtain ⟨hlt, rfl⟩ := List.getElem?_eq_some_iff.mp htarget
    rw [phaseInput_start hring.predecessors_eq, hplace, hgrid.nodup.idxOf_getElem _ hlt,
      mul_comm share]

/-- A node reduces the part for one destination node. -/
theorem reduceScatter_scatter {i d : Nat} {group : List ρ} (hg : groups[i]? = some group)
    (hd : d < groups.length)
    (hring : RingOk nodeByRank (.localRsFor i d) .reduceScatter group (size / groups.length)
      (if groups.flatten ≠ ranks ∧ 0 < size then [.inputLayout i] else []) dtype phase) :
    Yields (elementBytes dtype) input junk (reduceScatterMeaning ranks groups share input) results
      phase := by
  intro rank hrank pos hpos
  have helements : size / groups.length / elementBytes dtype / group.length = share := by
    rw [hgrid.row_length hg, Nat.div_right_comm size, reduceScatter_elements hsize,
      Nat.div_div_eq_div_mul, Nat.mul_div_cancel _ (Nat.mul_pos (Nat.zero_lt_of_lt hd) hplaces)]
  rw [hring.id_eq, hring.value (hgrid.row_nodup hg) hrank hpos]
  rw [hring.output_elements] at hpos
  rw [hring.participants_eq] at hrank
  dsimp only [collective, collectiveSize] at hpos ⊢
  rw [helements] at hpos ⊢
  have hk := getElem?_idxOf hrank
  have hd' : groups[d]? = some groups[d] := getElem?_eq_getElem hd
  have hlt : group.idxOf rank < groups[d].length := by
    rw [hgrid.row_length hd', ← hgrid.row_length hg]
    exact idxOf_lt_length_of_mem hrank
  have ht : (groups[d])[group.idxOf rank]? = some _ := getElem?_eq_getElem hlt
  rw [reduceScatterMeaning_localRsFor hgrid hg hk hd' ht]
  congr 1
  exact map_congr_left fun q hq =>
    reduceScatter_reads hgrid hplaces hsize h hready hg hd' ht hring hq hpos

/-- A column adds up what the nodes reduced for each of them. -/
theorem reduceScatter_across {slot : Nat} {column : List ρ}
    (hcol : slotGroup groups slot = .ok column)
    (hring : RingOk nodeByRank (.interRs slot) .reduceScatter column (size / places)
      ((List.range groups.length).flatMap fun i =>
        (List.range groups.length).map fun j => .localRsFor i j) dtype phase) :
    Yields (elementBytes dtype) input junk (reduceScatterMeaning ranks groups share input) results
      phase := by
  intro rank hrank pos hpos
  have hlength := (slotGroup_spec hcol).1
  rw [hring.id_eq, hring.value (column_nodup hcol hgrid) hrank hpos]
  rw [hring.output_elements] at hpos
  rw [hring.participants_eq] at hrank
  have hg := getElem?_idxOf hrank
  have hglt : column.idxOf rank < groups.length := hlength ▸ idxOf_lt_length_of_mem hrank
  have hgroups : 0 < groups.length := Nat.zero_lt_of_lt hglt
  have helements : size / places / elementBytes dtype / column.length = share := by
    rw [hlength, hsize, div_shard hplaces (elementBytes_pos dtype), Nat.mul_div_cancel_left _ hgroups]
  obtain ⟨row, hrow, hplace⟩ := Option.bind_eq_some_iff.mp
    (((slotGroup_spec hcol).2 _).symm.trans hg)
  dsimp only [collective, collectiveSize, reduceScatterMeaning] at hpos ⊢
  rw [helements] at hpos ⊢
  rw [← hgrid.sum_rows]
  refine sum_column hcol fun i group q hg hq => ?_
  have hd : ((List.range groups.length).map (PhaseId.localRsFor i))[column.idxOf rank]? =
      some (.localRsFor i (column.idxOf rank)) := by
    rw [getElem?_map, getElem?_range hglt]
    rfl
  refine Eq.trans (phaseInput_block hready _ hring.predecessors_eq (fun k hk id hid => ?_)
    (List.getElem?_eq_some_iff.mp hg).1 hd
    (by rw [inputOffset_eq_zero (by rw [hring.id_eq]; nofun), zero_add]) hpos)
    (reduceScatterMeaning_localRsFor hgrid hg hq hrow hplace pos)
  obtain ⟨j, hj, rfl⟩ := mem_map.mp hid
  have hk : groups[k]? = some groups[k] := getElem?_eq_getElem hk
  obtain ⟨before, hmem, hspec⟩ := exists_ringOk
    ((mem_reduceScatterPhases h).mpr (.inr (.inl ⟨k, _, j, hk, mem_range.mp hj, rfl⟩)))
  refine ⟨before, hmem, hspec.id_eq, hspec.participants_eq ▸ hgrid.mem_row_iff hk hg hq, ?_⟩
  rw [hspec.output_elements, hgrid.row_length hk]
  dsimp only [collectiveSize]
  rw [Nat.div_right_comm size, reduceScatter_elements hsize, Nat.div_div_eq_div_mul,
    Nat.mul_div_cancel _ (Nat.mul_pos hgroups hplaces)]

omit hready in
theorem reduceScatter_sound :
    Sound (elementBytes dtype) input junk phases
      (reduceScatterMeaning ranks groups share input) := by
  intro results phase hphase hready
  rcases (mem_reduceScatterPhases h).mp (mem_map_of_mem hphase) with ⟨-, i, group, hg, ⟨⟩⟩ |
    ⟨i, group, d, hg, hd, hp⟩ | ⟨slot, column, -, hcol, hp⟩
  · exact reduceScatter_layout hgrid hplaces hsize
      (Nat.zero_lt_of_lt (List.getElem?_eq_some_iff.mp hg).1)
  · exact reduceScatter_scatter hgrid hplaces hsize h hready hg hd (ringPhase_spec hp)
  · exact reduceScatter_across hgrid hplaces hsize h hready hcol (ringPhase_spec hp)

end

end ReduceScatter

end TokenSim.Comm
