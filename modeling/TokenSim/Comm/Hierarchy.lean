import TokenSim.Comm.Orders

/-!
# Hierarchies of rings

The participants form a grid: one row for each node, and the same number of places
in each row.  The rings of a hierarchy run along the rows and along the columns.
For each of the three operations `meaning` says what every phase leaves at a rank,
and each phase yields it from what its predecessors mean.
-/

set_option linter.unusedSectionVars false

namespace TokenSim.Comm

open List Option

variable {ρ ν M : Type} [DecidableEq ρ] [LinearOrder ν] {nodeByRank : ρ → Option ν}

/-! ## Grids -/

/-- The participants in rows of one length. -/
structure Grid (ranks : List ρ) (groups : List (List ρ)) (places : Nat) : Prop where
  perm : groups.flatten.Perm ranks
  nodup : ranks.Nodup
  row : ∀ group ∈ groups, group.length = places

theorem getElem?_flatten_rows {α : Type} {places : Nat} : ∀ {rows : List (List α)} {i k : Nat},
    (∀ row ∈ rows, row.length = places) → k < places →
    rows.flatten[i * places + k]? = rows[i]?.bind (·[k]?)
  | [], i, k, _, _ => by simp
  | row :: rows, 0, k, hrow, hk => by
    have hlength := hrow row mem_cons_self
    rw [flatten_cons, zero_mul, zero_add, getElem?_append_left (by omega)]
    rfl
  | row :: rows, i + 1, k, hrow, hk => by
    have hlength := hrow row mem_cons_self
    rw [flatten_cons, getElem?_append_right (by rw [add_mul]; omega),
      show (i + 1) * places + k - row.length = i * places + k by rw [add_mul]; omega,
      getElem?_flatten_rows (forall_mem_cons.mp hrow).2 hk]
    rfl

section Grid

variable {ranks : List ρ} {groups : List (List ρ)} {places : Nat} {i j k : Nat} {rank : ρ}
  {group : List ρ}

section

variable (h : Grid ranks groups places)
include h

theorem Grid.flatten_nodup : groups.flatten.Nodup :=
  h.perm.nodup_iff.mpr h.nodup

theorem Grid.row_nodup (hg : groups[i]? = some group) :
    group.Nodup :=
  (nodup_flatten.mp h.flatten_nodup).1 group (mem_of_getElem? hg)

theorem Grid.row_length (hg : groups[i]? = some group) :
    group.length = places :=
  h.row group (mem_of_getElem? hg)

theorem Grid.mem_ranks (hg : groups[i]? = some group)
    (hr : rank ∈ group) : rank ∈ ranks :=
  h.perm.subset (mem_flatten.mpr ⟨group, mem_of_getElem? hg, hr⟩)

theorem Grid.place_unique {group' : List ρ} {k' : Nat}
    (hg : groups[i]? = some group) (hk : group[k]? = some rank) (hg' : groups[j]? = some group')
    (hk' : group'[k']? = some rank) : i = j ∧ k = k' := by
  have hlt : k < places := h.row_length hg ▸ (List.getElem?_eq_some_iff.mp hk).1
  have hlt' : k' < places := h.row_length hg' ▸ (List.getElem?_eq_some_iff.mp hk').1
  have hflat : groups.flatten[i * places + k]? = some rank := by
    rw [getElem?_flatten_rows h.row hlt, hg]
    exact hk
  have hflat' : groups.flatten[j * places + k']? = some rank := by
    rw [getElem?_flatten_rows h.row hlt', hg']
    exact hk'
  have heq : i * places + k = j * places + k' := by
    obtain ⟨hi, hi'⟩ := List.getElem?_eq_some_iff.mp hflat
    obtain ⟨hj, hj'⟩ := List.getElem?_eq_some_iff.mp hflat'
    exact (List.Nodup.getElem_inj_iff h.flatten_nodup).mp (hi'.trans hj'.symm)
  have hrow : i = j := by
    have hdiv : (i * places + k) / places = (j * places + k') / places := by rw [heq]
    rwa [mul_comm i, mul_comm j, Nat.mul_add_div (by omega), Nat.mul_add_div (by omega),
      Nat.div_eq_of_lt hlt, Nat.div_eq_of_lt hlt'] at hdiv
  exact ⟨hrow, by rw [hrow] at heq; omega⟩

theorem Grid.exists_place (hr : rank ∈ ranks) :
    ∃ (i : Nat) (group : List ρ) (k : Nat), groups[i]? = some group ∧ group[k]? = some rank := by
  obtain ⟨group, hg, hr⟩ := mem_flatten.mp (h.perm.mem_iff.mpr hr)
  obtain ⟨i, hi⟩ := mem_iff_getElem?.mp hg
  obtain ⟨k, hk⟩ := mem_iff_getElem?.mp hr
  exact ⟨i, group, k, hi, hk⟩

theorem Grid.row_unique {group' : List ρ}
    (hg : groups[i]? = some group) (hr : rank ∈ group) (hg' : groups[j]? = some group')
    (hr' : rank ∈ group') : i = j := by
  obtain ⟨k, hk⟩ := mem_iff_getElem?.mp hr
  obtain ⟨k', hk'⟩ := mem_iff_getElem?.mp hr'
  exact (h.place_unique hg hk hg' hk').1

theorem Grid.mem_row_iff {group' : List ρ} (hg' : groups[j]? = some group')
    (hg : groups[i]? = some group) (hk : group[k]? = some rank) : rank ∈ group' ↔ j = i := by
  constructor
  · exact fun hmem => h.row_unique hg' hmem hg (mem_of_getElem? hk)
  · rintro rfl
    cases hg.symm.trans hg'
    exact mem_of_getElem? hk

theorem Grid.length_ranks :
    ranks.length = groups.length * places := by
  rw [← h.perm.length_eq, length_flatten, map_congr_left h.row, map_const',
    sum_replicate, smul_eq_mul]

end

theorem Grid.sum_rows [AddCommMonoid M] (h : Grid ranks groups places) (f : ρ → M) :
    (groups.map fun group => (group.map f).sum).sum = (ranks.map f).sum := by
  rw [← (h.perm.map f).sum_eq, map_flatten, sum_flatten, List.map_map]
  rfl

variable {column : List ρ} {slot : Nat}

theorem slotGroup_spec (h : slotGroup groups slot = .ok column) :
    column.length = groups.length ∧
    ∀ i : Nat, column[i]? = groups[i]?.bind fun group => group[slot]? := by
  have hall := Except.mapM_eq_ok.mp h
  refine ⟨hall.length_eq.symm, fun i => ?_⟩
  clear h
  induction hall generalizing i with
  | nil => rfl
  | cons ha _ ih =>
    cases i with
    | zero => exact (orRaise_eq_ok.mp ha).symm
    | succ i => exact ih i

theorem slotGroup_total (h : Grid ranks groups places) (hs : slot < places) :
    ∃ column, slotGroup groups slot = .ok column := by
  refine Except.exists_mapM_eq_ok fun group hg => ?_
  have hlt : slot < group.length := by
    rw [h.row group hg]
    exact hs
  exact ⟨group[slot], orRaise_eq_ok.mpr (getElem?_eq_getElem hlt)⟩

section

variable (hcol : slotGroup groups slot = .ok column)
include hcol

theorem mem_column :
    rank ∈ column ↔ ∃ (i : Nat) (group : List ρ), groups[i]? = some group ∧ group[slot]? = some rank := by
  rw [mem_iff_getElem?]
  refine exists_congr fun i => ?_
  rw [(slotGroup_spec hcol).2, bind_eq_some_iff]

theorem Grid.mem_column_iff (h : Grid ranks groups places) (hg : groups[i]? = some group)
    (hk : group[k]? = some rank) : rank ∈ column ↔ slot = k := by
  rw [mem_column hcol]
  constructor
  · rintro ⟨i', group', hg', hk'⟩
    exact (h.place_unique hg' hk' hg hk).2
  · rintro rfl
    exact ⟨i, group, hg, hk⟩

theorem column_nodup (h : Grid ranks groups places) : column.Nodup := by
  rw [nodup_iff_injective_getElem]
  intro a b hab
  obtain ⟨group, hg, hk⟩ := bind_eq_some_iff.mp
    (((slotGroup_spec hcol).2 a).symm.trans (getElem?_eq_getElem a.isLt))
  obtain ⟨group', hg', hk'⟩ := bind_eq_some_iff.mp
    (((slotGroup_spec hcol).2 b).symm.trans (getElem?_eq_getElem b.isLt))
  rw [← show column[a.val] = column[b.val] from hab] at hk'
  exact Fin.ext (h.place_unique hg hk hg' hk').1

/-- A sum over a column of what belongs to its rows. -/
theorem sum_column [AddCommMonoid M] {f : ρ → M} {g : List ρ → M}
    (hfg : ∀ (i : Nat) (group : List ρ) (rank : ρ),
      groups[i]? = some group → group[slot]? = some rank → f rank = g group) :
    (column.map f).sum = (groups.map g).sum := by
  congr 1
  refine ext_getElem? fun i => ?_
  rw [getElem?_map, getElem?_map, (slotGroup_spec hcol).2]
  cases hg : groups[i]? with
  | none => rfl
  | some group =>
    have hlt : i < column.length := by
      rw [(slotGroup_spec hcol).1]
      exact (List.getElem?_eq_some_iff.mp hg).1
    obtain ⟨group', hg', hk⟩ := bind_eq_some_iff.mp
      (((slotGroup_spec hcol).2 i).symm.trans (getElem?_eq_getElem hlt))
    cases hg.symm.trans hg'
    show Option.map f (group[slot]?) = some (g group)
    rw [hk]
    exact congrArg some (hfg i group _ hg hk)

end

end Grid

/-! ## Phases of rows and columns -/

section Phases

variable {groups : List (List ρ)} {places : Nat} {out : List (TrafficPhase ρ ν)}
  {phase : TrafficPhase ρ ν} {made : Except Err (TrafficPhase ρ ν)}

theorem mem_rowPhases {f : List ρ × Nat → Except Err (TrafficPhase ρ ν)}
    (h : groups.zipIdx.mapM f = .ok out) :
    made ∈ out.map .ok ↔
      ∃ (i : Nat) (group : List ρ), groups[i]? = some group ∧ f (group, i) = made := by
  rw [← Except.map_of_mapM h, List.mem_map]
  constructor
  · rintro ⟨⟨group, i⟩, hmem, hf⟩
    exact ⟨i, group, mem_zipIdx_iff_getElem?.mp hmem, hf⟩
  · rintro ⟨i, group, hg, hf⟩
    exact ⟨(group, i), mem_zipIdx_iff_getElem?.mpr hg, hf⟩

theorem mem_columnPhases {f : Nat → List ρ → Except Err (TrafficPhase ρ ν)}
    (h : ((List.range places).mapM fun slot => do f slot (← slotGroup groups slot)) = .ok out) :
    made ∈ out.map .ok ↔ ∃ slot column, slot < places ∧ slotGroup groups slot = .ok column ∧
      f slot column = made := by
  constructor
  · intro hmade
    obtain ⟨phase, hphase, rfl⟩ := List.mem_map.mp hmade
    obtain ⟨slot, hslot, hf⟩ := (Except.mem_of_mapM h).mp hphase
    obtain ⟨column, hcol, hf⟩ := Except.bind_eq_ok.mp hf
    exact ⟨slot, column, mem_range.mp hslot, hcol, hf⟩
  · rintro ⟨slot, column, hslot, hcol, rfl⟩
    rw [← Except.map_of_mapM h]
    exact List.mem_map.mpr ⟨slot, mem_range.mpr hslot, by rw [hcol]; rfl⟩

variable [Add M] {width : Nat} {input spare : ρ → Nat → M} {junk : PhaseId → ρ → Nat → M}
  {meaning : PhaseId → ρ → Nat → M} {results : Results ρ M}

variable {phaseId : PhaseId} {operation : Operation} {ranks : List ρ} {size : Nat}
  {predecessors : List PhaseId} {dtype : Option DType}

theorem runPhase_ring (h : RingOk nodeByRank phaseId operation ranks size predecessors dtype phase)
    (hop : operation ≠ .dataReorder) (rank : ρ) (pos : Nat) :
    (runPhase width input junk results phase).value rank pos =
      runRing width phase (phaseInput width input (junk phase.phaseId) results phase)
        (junk phase.phaseId) rank pos := by
  unfold runPhase
  dsimp only
  rw [if_neg (h.operation_eq ▸ hop)]

theorem runPhase_reorder {group : List ρ} {permutation : List Nat} {block b pos : Nat} {rank : ρ}
    (hblock : size / width / permutation.length = block)
    (hb : permutation[pos / block]? = some b) :
    (runPhase width input junk results
      (reorderPhase phaseId group size predecessors dtype permutation : TrafficPhase ρ ν)).value
        rank pos = phaseInput width input (junk phaseId) results
          (reorderPhase phaseId group size predecessors dtype permutation : TrafficPhase ρ ν) rank
            (b * block + pos % block) := by
  show phaseInput width input (junk phaseId) results _ rank
    ((permutation[pos / (size / width / permutation.length)]?).getD 0 *
      (size / width / permutation.length) + pos % (size / width / permutation.length)) = _
  rw [hblock, hb]
  rfl

theorem inputOffset_eq_zero (h : ∀ i d, phase.phaseId ≠ .localRsFor i d) :
    inputOffset width phase = 0 := by
  unfold inputOffset
  split
  · rename_i i d hid
    exact absurd hid (h i d)
  · rfl

theorem RingOk.reads_input (h : RingOk nodeByRank phaseId operation ranks size [] dtype phase)
    (hid : ∀ i d, phaseId ≠ .localRsFor i d) (rank : ρ) (pos : Nat) :
    phaseInput width input spare results phase rank pos = input rank pos := by
  rw [phaseInput_start h.predecessors_eq, inputOffset_eq_zero (h.id_eq ▸ hid), zero_add]

/-- A phase after a family of phases, one of which a rank took part in. -/
theorem RingOk.reads_family {phases : List (TrafficPhase ρ ν)} {name : Nat → PhaseId}
    {count i elements : Nat} {rank : ρ}
    (h : RingOk nodeByRank phaseId operation ranks size ((List.range count).map name) dtype phase)
    (hid : ∀ i d, phaseId ≠ .localRsFor i d) (hi : i < count)
    (hready : Ready width meaning phases results phase)
    (hfamily : ∀ k < count, ∃ before ∈ phases, before.phaseId = name k ∧
      (rank ∈ before.participants ↔ k = i) ∧ before.logicalOutputBytes / width = elements)
    {pos : Nat} (hpos : pos < elements) :
    phaseInput width input spare results phase rank pos = meaning (name i) rank pos := by
  refine phaseInput_block hready (fun k => [name k]) (d := 0) ?_ (fun k hk id hmem => ?_) hi rfl
    (by rw [inputOffset_eq_zero (h.id_eq ▸ hid), zero_mul]) hpos
  · rw [h.predecessors_eq]
    exact map_eq_flatMap
  · rw [mem_singleton.mp hmem]
    exact hfamily k hk

end Phases

/-! ## What a ring phase computes -/

section Values

variable {ranks : List ρ} {size : Nat} {dtype : Option DType} {phaseId : PhaseId}
  {operation : Operation} {predecessors : List PhaseId} {phases : List (TrafficPhase ρ ν)}
  {phase : TrafficPhase ρ ν} {order : List ρ} {rank : ρ} {elements pos : Nat}
  {input : ρ → Nat → M} {junk : PhaseId → ρ → Nat → M} {results : Results ρ M}

/-- Inputs of some ranks, one after the other. -/
def gathered [Zero M] (input : ρ → Nat → M) (order : List ρ) (elements pos : Nat) : M :=
  match order[pos / elements]? with
  | some rank => input rank (pos % elements)
  | none => 0

theorem gathered_of_get [Zero M] (h : order[pos / elements]? = some rank) :
    gathered input order elements pos = input rank (pos % elements) := by
  unfold gathered
  rw [h]

/-- The number of elements of a result. -/
def collectiveSize (operation : Operation) (count elements : Nat) : Nat :=
  match operation with
  | .allGather => elements * count
  | .reduceScatter => elements / count
  | _ => elements

/-- The result of an operation: the sum of all inputs, all inputs one after the other
in the order of the participants, or the block of the sum at the rank's own place. -/
def collective [AddCommMonoid M] (operation : Operation) (ranks : List ρ) (elements : Nat)
    (input : ρ → Nat → M) : ρ → Nat → M :=
  match operation with
  | .allGather => fun _ pos => gathered input ranks elements pos
  | .reduceScatter => fun rank pos =>
    (ranks.map fun q => input q (ranks.idxOf rank * (elements / ranks.length) + pos)).sum
  | _ => fun _ pos => (ranks.map fun q => input q pos).sum

theorem exists_ringOk (h : ringPhase nodeByRank phaseId operation ranks size predecessors dtype ∈
    phases.map .ok) : ∃ phase ∈ phases,
      RingOk nodeByRank phaseId operation ranks size predecessors dtype phase := by
  obtain ⟨phase, hmem, hphase⟩ := List.mem_map.mp h
  exact ⟨phase, hmem, ringPhase_spec hphase.symm⟩

variable (h : RingOk nodeByRank phaseId operation ranks size predecessors dtype phase)
include h

theorem RingOk.output_elements : phase.logicalOutputBytes / elementBytes dtype =
    collectiveSize operation ranks.length (size / elementBytes dtype) := by
  obtain ⟨volume, hvolume, houtput, -⟩ := h.volume_ok
  rw [houtput, hvolume.output_eq]
  cases operation with
  | allReduce => rfl
  | allGather =>
    show size * ranks.length / elementBytes dtype = size / elementBytes dtype * ranks.length
    rw [mul_comm, Nat.mul_div_assoc _ (Nat.dvd_of_mod_eq_zero hvolume.aligned), mul_comm]
  | reduceScatter => exact Nat.div_right_comm ..
  | dataReorder => exact absurd rfl hvolume.supported

/-- A ring phase computes the operation on what it reads. -/
theorem RingOk.value [AddCommMonoid M] (hnodup : ranks.Nodup) (hrank : rank ∈ phase.participants)
    (hpos : pos < phase.logicalOutputBytes / elementBytes dtype) :
    (runPhase (elementBytes dtype) input junk results phase).value rank pos =
      collective operation ranks (size / elementBytes dtype)
        (phaseInput (elementBytes dtype) input (junk phase.phaseId) results phase) rank pos := by
  obtain ⟨volume, hvolume, -⟩ := h.volume_ok
  rw [h.participants_eq] at hrank
  rw [h.output_elements] at hpos
  rw [runPhase_ring h hvolume.supported]
  cases operation with
  | allReduce => exact runRing_allReduce h hnodup hrank hpos
  | allGather =>
    obtain ⟨q, hq, hvalue⟩ := runRing_gathered h hnodup hrank _ (junk phase.phaseId) hpos
    exact hvalue.trans (gathered_of_get hq).symm
  | reduceScatter => exact runRing_reduceScatter h hnodup (getElem?_idxOf hrank) hpos
  | dataReorder => exact absurd rfl hvolume.supported

end Values

end TokenSim.Comm
