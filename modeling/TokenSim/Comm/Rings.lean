import TokenSim.Comm.Execute

/-!
# What a ring phase computes

A ring phase over distinct ranks is an instance of the rings of `Lib.Ring`: the
rank at place `j` of the list is party `j`, and its values at the positions
`b * c + o` for a fixed offset `o` are its blocks, where `c` is the number of
elements of a shard.  A round of messages is a round there (`blocks_reduce`,
`blocks_gather`), and so the phase computes a sum or a concatenation.
-/

set_option linter.unusedSectionVars false

namespace TokenSim.Comm

open List Option

open RingRounds
open Except

variable {ρ ν M : Type} [DecidableEq ρ] [LinearOrder ν] {nodeByRank : ρ → Option ν}
  {operation : Operation} {ranks : List ρ} {chunk step width : Nat}

/-! ## The ranks of a ring -/

section Ranks

variable (ranks) [NeZero ranks.length]

/-- The rank at a place of the ring. -/
def rankAt (j : ZMod ranks.length) : ρ := ranks.get ⟨j.val, ZMod.val_lt j⟩

variable {ranks}

theorem getElem?_rankAt (j : ZMod ranks.length) : ranks[j.val]? = some (rankAt ranks j) :=
  getElem?_eq_getElem (ZMod.val_lt j)

theorem idxOf_rankAt (hnodup : ranks.Nodup) (j : ZMod ranks.length) :
    ranks.idxOf (rankAt ranks j) = j.val :=
  hnodup.idxOf_getElem j.val (ZMod.val_lt j)

theorem exists_rankAt {rank : ρ} (h : rank ∈ ranks) : ∃ j, rankAt ranks j = rank := by
  obtain ⟨i, hi, hget⟩ := mem_iff_getElem.mp h
  refine ⟨(i : ZMod ranks.length), some.inj ?_⟩
  rw [← getElem?_rankAt, val_of_lt hi, getElem?_eq_getElem hi, hget]

theorem sum_rankAt [AddCommMonoid M] (f : ρ → M) :
    ∑ j, f (rankAt ranks j) = (ranks.map f).sum := by
  rw [← Fin.sum_univ_fun_getElem]
  refine Finset.sum_bij (fun j _ => ⟨j.val, ZMod.val_lt j⟩) (fun _ _ => Finset.mem_univ _) ?_ ?_
    fun _ _ => rfl
  · intro a _ b _ hab
    exact ZMod.val_injective _ (Fin.mk.inj hab)
  · intro i _
    exact ⟨(i.val : ZMod ranks.length), Finset.mem_univ _, Fin.ext (val_of_lt i.isLt)⟩

end Ranks

/-! ## One round -/

theorem ringMessage_spec {index : Nat} {m : Transmission ρ ν}
    (h : ringMessage nodeByRank operation ranks chunk step index = .ok m) :
    ranks[index]? = some m.source ∧ ranks[(index + 1) % ranks.length]? = some m.target ∧
      m.shard = (shardIndex operation ranks.length index step * chunk,
        (shardIndex operation ranks.length index step + 1) * chunk) := by
  obtain ⟨source, hsource, h⟩ := bind_eq_ok.mp h
  obtain ⟨target, htarget, h⟩ := bind_eq_ok.mp h
  obtain ⟨_, _, h⟩ := bind_eq_ok.mp h
  obtain ⟨_, _, h⟩ := bind_eq_ok.mp h
  cases h
  exact ⟨orRaise_eq_ok.mp hsource, orRaise_eq_ok.mp htarget, rfl⟩

/-- The messages of a round. -/
def RoundOk (nodeByRank : ρ → Option ν) (operation : Operation) (ranks : List ρ) (chunk step : Nat)
    (messages : List (Transmission ρ ν)) : Prop :=
  List.Forall₂ (fun index m => ringMessage nodeByRank operation ranks chunk step index = .ok m)
    (List.range ranks.length) messages

theorem foldl_one {α β : Type} {f : β → α → β} {l : List α} {i : Nat} {a : α} (hget : l[i]? = some a)
    (hother : ∀ k x, l[k]? = some x → k ≠ i → ∀ acc, f acc x = acc) (init : β) :
    l.foldl f init = f init a := by
  have hnoop : ∀ (l : List α) (init : β), (∀ x ∈ l, ∀ acc, f acc x = acc) →
      l.foldl f init = init := by
    intro l
    induction l with
    | nil => intro init _; rfl
    | cons x l ih =>
      intro init h
      rw [foldl_cons, h x mem_cons_self]
      exact ih init (forall_mem_cons.mp h).2
  induction l generalizing i init with
  | nil => cases hget
  | cons x l ih =>
    cases i with
    | zero =>
      cases hget
      rw [foldl_cons]
      refine hnoop l _ fun y hy acc => ?_
      obtain ⟨k, hk⟩ := mem_iff_getElem?.mp hy
      exact hother (k + 1) y hk (Nat.succ_ne_zero k) acc
    | succ i =>
      rw [foldl_cons, hother 0 x rfl (Nat.succ_ne_zero i).symm]
      exact ih hget (fun k y hk hne => hother (k + 1) y hk (by omega)) init

section Round

variable [NeZero ranks.length] [Add M]

/-- The rank at a place gets one message, from the place before it. -/
theorem applyRound_ring {messages : List (Transmission ρ ν)} {reduce : Bool} (hnodup : ranks.Nodup)
    (hround : RoundOk nodeByRank operation ranks chunk step messages) (values : ρ → Nat → M)
    (j : ZMod ranks.length) (pos : Nat) :
    applyRound width reduce messages values (rankAt ranks j) pos =
      if shardIndex operation ranks.length (j - 1).val step * chunk / width ≤ pos ∧
          pos < (shardIndex operation ranks.length (j - 1).val step + 1) * chunk / width then
        if reduce then values (rankAt ranks j) pos + values (rankAt ranks (j - 1)) pos
        else values (rankAt ranks (j - 1)) pos
      else values (rankAt ranks j) pos := by
  have hlength := hround.length_eq
  rw [length_range] at hlength
  have hmessage : ∀ i m, messages[i]? = some m →
      i < ranks.length ∧ ringMessage nodeByRank operation ranks chunk step i = .ok m := by
    intro i m hm
    obtain ⟨hi, rfl⟩ := List.getElem?_eq_some_iff.mp hm
    have hi' : i < ranks.length := by omega
    have h := hround.get (i := i) (by rw [length_range]; exact hi') hi
    simp only [get_eq_getElem, getElem_range] at h
    exact ⟨hi', h⟩
  have hlt : (j - 1).val < messages.length := by
    rw [← hlength]
    exact ZMod.val_lt _
  have hget : messages[(j - 1).val]? = some messages[(j - 1).val] := getElem?_eq_getElem hlt
  obtain ⟨hsource, htarget, hshard⟩ := ringMessage_spec (hmessage _ _ hget).2
  -- the place after the one before `j` is `j`
  have hnext : ((j - 1).val + 1) % ranks.length = j.val := by
    rw [← ZMod.val_natCast]
    push_cast
    rw [ZMod.natCast_zmod_val, sub_add_cancel]
  rw [hnext, getElem?_rankAt] at htarget
  rw [getElem?_rankAt] at hsource
  have htarget := some.inj htarget
  have hsource := some.inj hsource
  unfold applyRound
  rw [foldl_one hget]
  · simp only [← htarget, ← hsource, true_and, Transmission.Covers, hshard]
  · intro i m hm hne acc
    obtain ⟨hi, hm⟩ := hmessage i m hm
    obtain ⟨-, htarget', -⟩ := ringMessage_spec hm
    refine if_neg fun h => hne ?_
    -- another message to the same rank would come from the same place
    have hplace : (i + 1) % ranks.length = j.val := by
      obtain ⟨hlt', hval⟩ := List.getElem?_eq_some_iff.mp htarget'
      have hidx := hnodup.idxOf_getElem _ hlt'
      rw [hval, h.1, idxOf_rankAt hnodup] at hidx
      exact hidx.symm
    have hcast : ((i + 1 : ℕ) : ZMod ranks.length) = j := by
      have h := congrArg (fun k : ℕ => (k : ZMod ranks.length)) hplace
      simpa using h
    rw [← hcast]
    push_cast
    rw [add_sub_cancel_right, val_of_lt hi]

end Round

/-! ## All rounds -/

theorem covers_iff {b s c o : Nat} (hwidth : 0 < width) (ho : o < c) :
    s * (c * width) / width ≤ b * c + o ∧ b * c + o < (s + 1) * (c * width) / width ↔ b = s := by
  have hdiv : ∀ k, k * (c * width) / width = k * c := fun k => by
    rw [← mul_assoc, Nat.mul_div_cancel _ hwidth]
  rw [hdiv, hdiv]
  constructor
  · rintro ⟨hle, hlt⟩
    have h₁ : s < b + 1 := by
      refine lt_of_mul_lt_mul_right (a := c) ?_ (Nat.zero_le c)
      rw [add_mul]
      omega
    have h₂ : b < s + 1 := lt_of_mul_lt_mul_right (a := c) (by omega) (Nat.zero_le c)
    omega
  · rintro rfl
    rw [add_mul]
    omega

section Blocks

variable [NeZero ranks.length]

/-- The values at one offset in the shards of all ranks. -/
def blocks (ranks : List ρ) [NeZero ranks.length] (c o : Nat) (values : ρ → Nat → M) :
    ZMod ranks.length → ZMod ranks.length → M :=
  fun j b => values (rankAt ranks j) (b.val * c + o)

theorem toNat_emod_eq (x : Int) (b : ZMod ranks.length) :
    b.val = (x % (ranks.length : Int)).toNat ↔ b = (x : ZMod ranks.length) := by
  have hpos : (0 : Int) < ranks.length := by
    have := NeZero.pos ranks.length
    omega
  have hcast : (((x % (ranks.length : Int)).toNat : ℕ) : ZMod ranks.length) = x := by
    have h : (((x % (ranks.length : Int)).toNat : Int) : ZMod ranks.length) = x := by
      rw [Int.toNat_of_nonneg (Int.emod_nonneg x (by omega)), ZMod.intCast_mod]
    rwa [Int.cast_natCast] at h
  constructor
  · intro h
    rw [← hcast, ← h, ZMod.natCast_zmod_val]
  · rintro rfl
    have hlt : (x % (ranks.length : Int)).toNat < ranks.length := by
      have := Int.emod_lt_of_pos x hpos
      omega
    rw [← hcast, val_of_lt hlt]

variable {messages : List (Transmission ρ ν)} {c o : Nat}

section

variable (hnodup : ranks.Nodup) (hwidth : 0 < width) (ho : o < c)
  (hround : RoundOk nodeByRank operation ranks (c * width) step messages) (values : ρ → Nat → M)
include hnodup hwidth ho hround

theorem blocks_reduce [AddCommMonoid M] (hreduces : reduces operation ranks.length step) :
    blocks ranks c o (applyRound width (reduces operation ranks.length step) messages values) =
      reduceRound step (blocks ranks c o values) := by
  funext j b
  unfold blocks
  rw [applyRound_ring hnodup hround, reduceRound]
  have hshard : b.val = shardIndex operation ranks.length (j - 1).val step ↔ b = j - 2 - step := by
    unfold shardIndex
    rw [if_pos hreduces, toNat_emod_eq]
    push_cast
    rw [ZMod.natCast_zmod_val, show j - 1 - (step : ZMod ranks.length) - 1 = j - 2 - step by ring]
  simp only [covers_iff hwidth ho, hshard, decide_eq_true hreduces, if_true]

theorem blocks_gather [Add M] {t : Nat} (hgathers : ¬ reduces operation ranks.length step)
    (hstep : step = t + if operation = .allReduce then ranks.length - 1 else 0) :
    blocks ranks c o (applyRound width (reduces operation ranks.length step) messages values) =
      gatherRound t (blocks ranks c o values) := by
  have hpos := NeZero.pos ranks.length
  funext j b
  unfold blocks
  rw [applyRound_ring hnodup hround, gatherRound]
  have hshard : b.val = shardIndex operation ranks.length (j - 1).val step ↔ b = j - 1 - t := by
    unfold shardIndex
    rw [if_neg hgathers]
    by_cases hop : operation = .allReduce
    · rw [if_pos hop] at hstep ⊢
      have hint : ((j - 1).val : Int) - ((step : Int) - ((ranks.length : Int) - 1)) =
          (j - 1).val - t := by omega
      rw [hint, toNat_emod_eq]
      push_cast
      rw [ZMod.natCast_zmod_val]
    · rw [if_neg hop] at hstep ⊢
      rw [hstep, toNat_emod_eq]
      push_cast
      rw [ZMod.natCast_zmod_val, add_zero]
  simp only [covers_iff hwidth ho, hshard, decide_eq_false hgathers, Bool.false_eq_true, if_false]

end

/-- Rounds of messages that are rounds of a ring, from round `t` on. -/
theorem blocks_runRounds [Add M] {f : ℕ → (ZMod ranks.length → ZMod ranks.length → M) →
      ZMod ranks.length → ZMod ranks.length → M} {base last : Nat}
    (hround : ∀ t messages values, t < last →
      RoundOk nodeByRank operation ranks (c * width) (base + t) messages →
      blocks ranks c o (applyRound width (reduces operation ranks.length (base + t)) messages
        values) = f t (blocks ranks c o values)) :
    ∀ {k t : Nat} {out : List (List (Transmission ρ ν))} {values : ρ → Nat → M}
      {v : ZMod ranks.length → ZMod ranks.length → M}, t + k ≤ last →
      List.Forall₂ (RoundOk nodeByRank operation ranks (c * width)) (List.range' (base + t) k) out →
      blocks ranks c o values = rounds f t v →
      blocks ranks c o (runRounds width operation ranks.length out (base + t) values) =
        rounds f (t + k) v := by
  intro k
  induction k with
  | zero =>
    intro t out values v _ hout hv
    cases hout
    exact hv
  | succ k ih =>
    intro t out values v hle hout hv
    rw [range'_succ] at hout
    cases hout with
    | cons hfirst hrest =>
      rw [show t + (k + 1) = t + 1 + k by omega]
      refine ih (t := t + 1) (by omega) hrest ?_
      rw [hround t _ values (by omega) hfirst, hv]
      rfl

theorem runRounds_append [Add M] {count : Nat} : ∀ {out out' : List (List (Transmission ρ ν))}
    {s : Nat} {values : ρ → Nat → M},
    runRounds width operation count (out ++ out') s values =
      runRounds width operation count out' (s + out.length)
        (runRounds width operation count out s values)
  | [], _, _, _ => rfl
  | messages :: out, out', s, values => by
    show runRounds width operation count (out ++ out') (s + 1) _ = _
    rw [runRounds_append, length_cons, show s + 1 + out.length = s + (out.length + 1) by omega]
    rfl

end Blocks

/-! ## Phases -/

theorem elementBytes_pos (dtype : Option DType) : 0 < elementBytes dtype := by
  cases dtype with
  | none => decide
  | some d => cases d <;> decide

variable {phaseId : PhaseId} {size : Nat} {predecessors : List PhaseId} {dtype : Option DType}
  {phase : TrafficPhase ρ ν} {volume : CollectiveVolume}

theorem validatedBytes_eq_ok {value : Int} {bytes : Nat} :
    validatedBytes value dtype = .ok bytes ↔
      0 ≤ value ∧ value.toNat % elementBytes dtype = 0 ∧ value.toNat = bytes := by
  unfold validatedBytes
  rw [ite_throw_eq_ok, ite_throw_eq_ok, pure_eq_ok]
  omega

/-- The bytes that a ring leaves at every rank. -/
def ringOutputBytes (operation : Operation) (count size : Nat) : Nat :=
  match operation with
  | .allGather => size * count
  | .reduceScatter => size / count
  | _ => size

/-- The checks of a ring and its volume. -/
structure VolumeOk (operation : Operation) (count size : Nat) (dtype : Option DType)
    (volume : CollectiveVolume) : Prop where
  pos : 0 < count
  aligned : size % elementBytes dtype = 0
  sharded : operation ≠ .allGather → 1 < count → size % (count * elementBytes dtype) = 0
  supported : operation ≠ .dataReorder
  rounds_eq : volume.rounds = if operation = .allReduce then (count - 1) * 2 else count - 1
  output_eq : volume.outputBytes = ringOutputBytes operation count size

theorem ringVolume_eq_ok {count : Nat} :
    ringVolume operation count size dtype = .ok volume ↔
      VolumeOk operation count size dtype volume := by
  unfold ringVolume
  rw [ite_throw_eq_ok, bind_eq_ok]
  constructor
  · rintro ⟨hcount, bytes, hbytes, h⟩
    obtain ⟨-, haligned, rfl⟩ := validatedBytes_eq_ok.mp hbytes
    have hcount : 0 < count := by omega
    cases operation with
    | dataReorder => cases h
    | allGather =>
      cases h
      exact ⟨hcount, haligned, fun h => absurd rfl h, nofun, rfl, rfl⟩
    | allReduce | reduceScatter =>
      obtain ⟨hsharded, h⟩ := ite_throw_eq_ok.mp h
      cases h
      exact ⟨hcount, haligned, fun _ hone => by_contra fun hne => hsharded ⟨hone, hne⟩, nofun,
        rfl, rfl⟩
  · intro h
    have hcount := h.pos
    refine ⟨by omega, size, validatedBytes_eq_ok.mpr ⟨Int.natCast_nonneg _, h.aligned, rfl⟩, ?_⟩
    obtain ⟨output, rounds⟩ := volume
    have hrounds := h.rounds_eq
    have houtput := h.output_eq
    cases operation with
    | dataReorder => exact absurd rfl h.supported
    | allGather =>
      cases hrounds
      cases houtput
      rfl
    | allReduce | reduceScatter =>
      cases hrounds
      cases houtput
      exact ite_throw_eq_ok.mpr
        ⟨fun hbad => hbad.2 (h.sharded nofun hbad.1), rfl⟩

/-- What a ring phase that was planned consists of. -/
structure RingOk (nodeByRank : ρ → Option ν) (phaseId : PhaseId) (operation : Operation)
    (ranks : List ρ) (size : Nat) (predecessors : List PhaseId) (dtype : Option DType)
    (phase : TrafficPhase ρ ν) : Prop where
  id_eq : phase.phaseId = phaseId
  operation_eq : phase.operation = operation
  participants_eq : phase.participants = ranks
  input_eq : phase.logicalInputBytes = size
  predecessors_eq : phase.predecessorIds = predecessors
  volume_ok : ∃ volume, VolumeOk operation ranks.length size dtype volume ∧
    phase.logicalOutputBytes = volume.outputBytes ∧
    (size ≠ 0 → List.Forall₂ (RoundOk nodeByRank operation ranks
      (if operation = .allGather then size else size / ranks.length)) (List.range volume.rounds)
      phase.rounds)

theorem ringPhase_spec
    (h : ringPhase nodeByRank phaseId operation ranks size predecessors dtype = .ok phase) :
    RingOk nodeByRank phaseId operation ranks size predecessors dtype phase := by
  obtain ⟨volume, hvolume, h⟩ := bind_eq_ok.mp h
  obtain ⟨rounds, hrounds, h⟩ := bind_eq_ok.mp h
  cases h
  have hvolume := ringVolume_eq_ok.mp hvolume
  refine ⟨rfl, rfl, rfl, rfl, rfl, volume, hvolume, rfl, fun hsize => ?_⟩
  unfold ringRounds at hrounds
  split at hrounds
  · refine (mapM_eq_ok.mp hrounds).imp fun step messages hmessages => ?_
    exact mapM_eq_ok.mp hmessages
  · rename_i hone
    cases hrounds
    -- a ring of one rank has no rounds
    have hcount := hvolume.pos
    have hzero : volume.rounds = 0 := by
      rw [hvolume.rounds_eq]
      split <;> omega
    rw [hzero]
    exact .nil

/-- A ring phase is planned when its volume is accepted and its ranks are mapped. -/
theorem ringPhase_total (hvolume : VolumeOk operation ranks.length size dtype volume)
    (hmapped : ∀ rank ∈ ranks, nodeByRank rank ≠ none) :
    ∃ phase, ringPhase nodeByRank phaseId operation ranks size predecessors dtype = .ok phase := by
  refine exists_bind_eq_ok ⟨volume, ringVolume_eq_ok.mpr hvolume⟩ fun volume => ?_
  refine exists_bind_eq_ok ?_ fun _ => ⟨_, rfl⟩
  unfold ringRounds
  split
  · refine exists_mapM_eq_ok fun step _ => exists_mapM_eq_ok fun index hindex => ?_
    have hnode : ∀ {i : Nat}, i < ranks.length → ∃ rank node, ranks[i]? = some rank ∧
        nodeByRank rank = some node := by
      intro i hi
      obtain ⟨node, hnode⟩ := ne_none_iff_exists'.mp (hmapped _ (getElem_mem hi))
      exact ⟨_, node, getElem?_eq_getElem hi, hnode⟩
    obtain ⟨source, node, hsource, hnode₁⟩ := hnode (mem_range.mp hindex)
    obtain ⟨target, node', htarget, hnode₂⟩ :=
      hnode (Nat.mod_lt (index + 1) (Nat.zero_lt_of_lt (mem_range.mp hindex)))
    refine ⟨_, bind_eq_ok.mpr ⟨source, orRaise_eq_ok.mpr hsource,
      bind_eq_ok.mpr ⟨target, orRaise_eq_ok.mpr htarget,
      bind_eq_ok.mpr ⟨node, orRaise_eq_ok.mpr hnode₁,
      bind_eq_ok.mpr ⟨node', orRaise_eq_ok.mpr hnode₂, rfl⟩⟩⟩⟩⟩
  · exact ⟨[], rfl⟩

section Values

variable [AddCommMonoid M] {input junk : ρ → Nat → M} {rank : ρ} {o : Nat}

section

variable (h : RingOk nodeByRank phaseId .allGather ranks size predecessors dtype phase)
  (hnodup : ranks.Nodup) (hrank : rank ∈ ranks)
include h hnodup hrank

theorem runRing_allGather {k : Nat} {q : ρ} (hq : ranks[k]? = some q)
    (ho : o < size / elementBytes dtype) :
    runRing (elementBytes dtype) phase input junk rank (k * (size / elementBytes dtype) + o) =
      input q o := by
  obtain ⟨volume, hvolume, -, hrounds⟩ := h.volume_ok
  have hwidth := elementBytes_pos dtype
  have hsize : size ≠ 0 := by
    rintro rfl
    rw [Nat.zero_div] at ho
    omega
  have : NeZero ranks.length := ⟨ne_of_gt hvolume.pos⟩
  have hchunk : size = size / elementBytes dtype * elementBytes dtype :=
    (Nat.div_mul_cancel (Nat.dvd_of_mod_eq_zero hvolume.aligned)).symm
  have hrounds := hrounds hsize
  rw [if_pos rfl, hvolume.rounds_eq, if_neg nofun, range_eq_range'] at hrounds
  unfold runRing
  rw [h.operation_eq, h.participants_eq, h.input_eq]
  generalize size / elementBytes dtype = c at ho hchunk ⊢
  rw [hchunk] at hrounds
  obtain ⟨hk, rfl⟩ := List.getElem?_eq_some_iff.mp hq
  obtain ⟨j, rfl⟩ := exists_rankAt hrank
  have hgather : blocks ranks c o (runRounds (elementBytes dtype) .allGather ranks.length
      phase.rounds (0 + 0) (ringStart .allGather ranks c input junk)) =
        rounds gatherRound (0 + (ranks.length - 1))
          (blocks ranks c o (ringStart .allGather ranks c input junk)) := by
    refine blocks_runRounds (fun t messages values _ hround => ?_) (zero_add _).le hrounds rfl
    exact blocks_gather hnodup hwidth ho hround values (by rintro (h | h); cases h; cases h.1)
      (by simp)
  have hvalue := congrFun (congrFun hgather j) (k : ZMod ranks.length)
  rw [zero_add (ranks.length - 1), gather_ring] at hvalue
  unfold blocks at hvalue
  rw [val_of_lt hk] at hvalue
  refine hvalue.trans ?_
  -- every rank starts with its input at its own place
  show (if ranks.idxOf _ * c ≤ k * c + o ∧ k * c + o < (ranks.idxOf _ + 1) * c then _ else _) = _
  rw [idxOf_rankAt hnodup, val_of_lt hk, if_pos ⟨by omega, by rw [add_mul]; omega⟩,
    Nat.add_sub_cancel_left]
  congr 1
  refine some.inj ?_
  rw [← getElem?_rankAt, val_of_lt hk, getElem?_eq_getElem hk]

/-- A gathering leaves every rank with all inputs, one after the other. -/
theorem runRing_gathered (input junk : ρ → Nat → M) {pos : Nat}
    (hpos : pos < size / elementBytes dtype * ranks.length) :
    ∃ q, ranks[pos / (size / elementBytes dtype)]? = some q ∧
      runRing (elementBytes dtype) phase input junk rank pos =
        input q (pos % (size / elementBytes dtype)) := by
  have hpositive : 0 < size / elementBytes dtype := Nat.pos_of_lt_mul_right hpos
  have hk : pos / (size / elementBytes dtype) < ranks.length := Nat.div_lt_of_lt_mul hpos
  refine ⟨_, getElem?_eq_getElem hk, ?_⟩
  have hvalue : runRing (elementBytes dtype) phase input junk rank _ = _ :=
    runRing_allGather h hnodup hrank (getElem?_eq_getElem hk) (Nat.mod_lt pos hpositive)
  rwa [Nat.div_add_mod'] at hvalue

end

theorem VolumeOk.dvd (hvolume : VolumeOk operation ranks.length size dtype volume)
    (hop : operation ≠ .allGather) : ranks.length * elementBytes dtype ∣ size := by
  refine Nat.dvd_of_mod_eq_zero ?_
  rcases Nat.lt_or_ge 1 ranks.length with hone | hone
  · exact hvolume.sharded hop hone
  · rw [le_antisymm hone hvolume.pos, one_mul]
    exact hvolume.aligned

/-- The shard of a reduction, in bytes and in elements. -/
theorem shard_eq (hvolume : VolumeOk operation ranks.length size dtype volume)
    (hop : operation ≠ .allGather) : size / ranks.length =
      size / elementBytes dtype / ranks.length * elementBytes dtype := by
  rw [Nat.div_div_eq_div_mul, mul_comm (elementBytes dtype), ← Nat.div_div_eq_div_mul,
    Nat.div_mul_cancel (Nat.dvd_div_of_mul_dvd (hvolume.dvd hop))]

theorem runRing_reduceScatter
    (h : RingOk nodeByRank phaseId .reduceScatter ranks size predecessors dtype phase)
    (hnodup : ranks.Nodup) {k : Nat} (hk : ranks[k]? = some rank)
    (ho : o < size / elementBytes dtype / ranks.length) :
    runRing (elementBytes dtype) phase input junk rank o =
      (ranks.map fun q => input q (k * (size / elementBytes dtype / ranks.length) + o)).sum := by
  obtain ⟨volume, hvolume, -, hrounds⟩ := h.volume_ok
  have hwidth := elementBytes_pos dtype
  have hsize : size ≠ 0 := by
    rintro rfl
    rw [Nat.zero_div, Nat.zero_div] at ho
    omega
  have : NeZero ranks.length := ⟨ne_of_gt hvolume.pos⟩
  have hrounds := hrounds hsize
  rw [if_neg nofun, hvolume.rounds_eq, if_neg nofun, range_eq_range',
    shard_eq hvolume nofun] at hrounds
  unfold runRing
  rw [h.operation_eq, h.participants_eq, h.input_eq]
  dsimp only [ringOutput, ringStart]
  generalize size / elementBytes dtype / ranks.length = c at ho hrounds ⊢
  obtain ⟨hlt, rfl⟩ := List.getElem?_eq_some_iff.mp hk
  have hreduce : blocks ranks c o (runRounds (elementBytes dtype) .reduceScatter ranks.length
      phase.rounds (0 + 0) input) = rounds reduceRound (0 + (ranks.length - 1))
        (blocks ranks c o input) := by
    refine blocks_runRounds (fun t messages values _ hround => ?_) (zero_add _).le hrounds rfl
    rw [zero_add] at hround ⊢
    exact blocks_reduce hnodup hwidth ho hround values (.inl rfl)
  have hvalue := congrFun (congrFun hreduce (k : ZMod ranks.length)) (k : ZMod ranks.length)
  have hrank : rankAt ranks (k : ZMod ranks.length) = ranks[k] := by
    refine some.inj ?_
    rw [← getElem?_rankAt, val_of_lt hlt, getElem?_eq_getElem hlt]
  rw [zero_add (ranks.length - 1), reduce_ring] at hvalue
  unfold blocks at hvalue
  rw [val_of_lt hlt, hrank, sum_rankAt fun q => input q (k * c + o)] at hvalue
  rw [hnodup.idxOf_getElem k hlt]
  exact hvalue

theorem runRing_allReduce
    (h : RingOk nodeByRank phaseId .allReduce ranks size predecessors dtype phase)
    (hnodup : ranks.Nodup) (hrank : rank ∈ ranks) {pos : Nat}
    (hpos : pos < size / elementBytes dtype) :
    runRing (elementBytes dtype) phase input junk rank pos =
      (ranks.map fun q => input q pos).sum := by
  obtain ⟨volume, hvolume, -, hrounds⟩ := h.volume_ok
  have hwidth := elementBytes_pos dtype
  have hsize : size ≠ 0 := by
    rintro rfl
    rw [Nat.zero_div] at hpos
    omega
  have : NeZero ranks.length := ⟨ne_of_gt hvolume.pos⟩
  have hshard := shard_eq hvolume nofun
  have helements : size / elementBytes dtype =
      ranks.length * (size / elementBytes dtype / ranks.length) :=
    (Nat.mul_div_cancel' (Nat.dvd_div_of_mul_dvd (mul_comm _ ranks.length ▸ hvolume.dvd nofun))).symm
  have hrounds := hrounds hsize
  rw [if_neg nofun, hvolume.rounds_eq, if_pos rfl, range_eq_range', hshard, Nat.mul_two,
    ← range'_append_1, zero_add] at hrounds
  unfold runRing
  rw [h.operation_eq, h.participants_eq, h.input_eq]
  dsimp only [ringOutput, ringStart]
  rw [helements] at hpos
  generalize size / elementBytes dtype / ranks.length = c at hpos hrounds ⊢
  -- the first half reduces, the second gathers
  have hfirst := forall₂_take (ranks.length - 1) hrounds
  have hsecond := forall₂_drop (ranks.length - 1) hrounds
  rw [take_left' length_range'] at hfirst
  rw [drop_left' length_range'] at hsecond
  have hlength : (phase.rounds.take (ranks.length - 1)).length = ranks.length - 1 := by
    rw [← hfirst.length_eq, length_range']
  rw [← take_append_drop (ranks.length - 1) phase.rounds, runRounds_append, hlength]
  generalize phase.rounds.take (ranks.length - 1) = reducing at hfirst ⊢
  generalize phase.rounds.drop (ranks.length - 1) = gathering at hsecond ⊢
  have hc : 0 < c := Nat.pos_of_lt_mul_left hpos
  have ho : pos % c < c := Nat.mod_lt _ hc
  have hb : pos / c < ranks.length := Nat.div_lt_of_lt_mul (by rwa [mul_comm] at hpos)
  obtain ⟨j, rfl⟩ := exists_rankAt hrank
  have hreduce : blocks ranks c (pos % c) (runRounds (elementBytes dtype) .allReduce ranks.length
      reducing (0 + 0) input) = rounds reduceRound (0 + (ranks.length - 1))
        (blocks ranks c (pos % c) input) := by
    refine blocks_runRounds (fun t messages values ht hround => ?_) (zero_add _).le hfirst rfl
    rw [zero_add] at hround ⊢
    exact blocks_reduce hnodup hwidth ho hround values (.inr ⟨rfl, ht⟩)
  have hgather : blocks ranks c (pos % c) (runRounds (elementBytes dtype) .allReduce ranks.length
      gathering (ranks.length - 1 + 0) (runRounds (elementBytes dtype) .allReduce ranks.length
        reducing (0 + 0) input)) = rounds gatherRound (0 + (ranks.length - 1))
          (blocks ranks c (pos % c) (runRounds (elementBytes dtype) .allReduce ranks.length
            reducing (0 + 0) input)) := by
    refine blocks_runRounds (fun t messages values ht hround => ?_) (zero_add _).le hsecond rfl
    refine blocks_gather hnodup hwidth ho hround values ?_ (by rw [if_pos rfl]; omega)
    rintro (h | ⟨-, h⟩)
    · cases h
    · omega
  have hvalue := congrFun (congrFun hgather j) ((pos / c : ℕ) : ZMod ranks.length)
  rw [zero_add (ranks.length - 1), gather_ring, hreduce, zero_add (ranks.length - 1),
    reduce_ring] at hvalue
  unfold blocks at hvalue
  rw [val_of_lt hb, Nat.div_add_mod', sum_rankAt fun q => input q pos] at hvalue
  rw [zero_add]
  exact hvalue

end Values

end TokenSim.Comm
