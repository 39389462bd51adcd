import TokenSim.Comm.Rings

/-!
# Plans in any allowed order

The result of a phase depends only on the results of the phases that it names as
its predecessors.  So what the phases mean can be stated once, without an order: if
every phase yields what it means whenever its predecessors have, then so does the
plan in every order that its dependencies allow (`execute_means`).
-/

set_option linter.unusedSectionVars false

namespace TokenSim.Comm

open List Option

variable {ρ ν M : Type} [DecidableEq ρ] [Add M] {width : Nat} {input : ρ → Nat → M}
  {junk : PhaseId → ρ → Nat → M} {phases order : List (TrafficPhase ρ ν)}
  {meaning : PhaseId → ρ → Nat → M}

/-- The result of a phase has the phase's participants and size, and the values that
the phase means. -/
structure Means (width : Nat) (meaning : PhaseId → ρ → Nat → M) (phase : TrafficPhase ρ ν)
    (result : Result ρ M) : Prop where
  participants : result.participants = phase.participants
  size : result.size = phase.logicalOutputBytes / width
  value : ∀ rank ∈ phase.participants, ∀ pos < phase.logicalOutputBytes / width,
    result.value rank pos = meaning phase.phaseId rank pos

/-- The phases that a phase waits for have yielded what they mean. -/
def Ready (width : Nat) (meaning : PhaseId → ρ → Nat → M) (phases : List (TrafficPhase ρ ν))
    (results : Results ρ M) (phase : TrafficPhase ρ ν) : Prop :=
  ∀ before ∈ phases, before.phaseId ∈ phase.predecessorIds →
    ∃ result, results before.phaseId = some result ∧ Means width meaning before result

/-- A phase leaves its participants with what it means. -/
def Yields (width : Nat) (input : ρ → Nat → M) (junk : PhaseId → ρ → Nat → M)
    (meaning : PhaseId → ρ → Nat → M) (results : Results ρ M) (phase : TrafficPhase ρ ν) : Prop :=
  ∀ rank ∈ phase.participants, ∀ pos < phase.logicalOutputBytes / width,
    (runPhase width input junk results phase).value rank pos = meaning phase.phaseId rank pos

/-- Every phase yields what it means when its predecessors have. -/
def Sound (width : Nat) (input : ρ → Nat → M) (junk : PhaseId → ρ → Nat → M)
    (phases : List (TrafficPhase ρ ν)) (meaning : PhaseId → ρ → Nat → M) : Prop :=
  ∀ results, ∀ phase ∈ phases, Ready width meaning phases results phase →
    Yields width input junk meaning results phase

/-- Phases with one name are the same. -/
def Named (phases : List (TrafficPhase ρ ν)) : Prop :=
  ∀ p ∈ phases, ∀ q ∈ phases, p.phaseId = q.phaseId → p = q

theorem execute_means (hsound : Sound width input junk phases meaning) (hnamed : Named phases)
    (hperm : order.Perm phases) (hordered : Ordered order) :
    ∀ phase ∈ phases, ∃ result,
      execute width input junk (fun _ => none) order phase.phaseId = some result ∧
        Means width meaning phase result := by
  -- the phases that have run mean what they should, along the order
  have hrun : ∀ (rest before : List (TrafficPhase ρ ν)) (results : Results ρ M),
      order = before ++ rest →
      (∀ p ∈ before, ∃ result, results p.phaseId = some result ∧ Means width meaning p result) →
      ∀ p ∈ order, ∃ result, execute width input junk results rest p.phaseId = some result ∧
        Means width meaning p result := by
    intro rest
    induction rest with
    | nil =>
      intro before results horder hbefore p hp
      rw [horder, append_nil] at hp
      exact hbefore p hp
    | cons phase rest ih =>
      intro before results horder hbefore
      have hmem : phase ∈ phases := hperm.subset (by rw [horder]; simp)
      refine ih (before ++ [phase]) _ (by rw [horder]; simp) fun p hp => ?_
      by_cases hid : p.phaseId = phase.phaseId
      · have hp' : p ∈ phases := hperm.subset (by
          rw [horder]
          rcases mem_append.mp hp with hp | hp
          · exact mem_append_left _ hp
          · rw [mem_singleton.mp hp]
            simp)
        cases hnamed p hp' phase hmem hid
        refine ⟨_, if_pos rfl, rfl, rfl, hsound results _ hmem fun q hq hqid => ?_⟩
        obtain ⟨earlier, hearlier, hid'⟩ := hordered before _ rest horder _ hqid
        have hsame : earlier = q :=
          hnamed earlier (hperm.subset (by rw [horder]; exact mem_append_left _ hearlier)) q
            hq hid'
        exact hsame ▸ hbefore earlier hearlier
      · rcases mem_append.mp hp with hp | hp
        · obtain ⟨result, hresult, hmeans⟩ := hbefore p hp
          exact ⟨result, (if_neg hid).trans hresult, hmeans⟩
        · exact absurd (by rw [mem_singleton.mp hp]) hid
  intro phase hphase
  exact hrun order [] _ rfl nofun phase (hperm.mem_iff.mpr hphase)

/-- No phase depends on it. -/
def Last (phases : List (TrafficPhase ρ ν)) (phase : TrafficPhase ρ ν) : Prop :=
  ∀ other ∈ phases, phase.phaseId ∉ other.predecessorIds

variable {rank : ρ} {results : Results ρ M} {i : Nat} {α : Type} {spare : ρ → Nat → M}

/-- What a rank has in the end is the result of some last phase of it. -/
theorem finalResult_means {plan : TrafficPlan ρ ν}
    (hmeans : ∀ phase ∈ plan.phases, ∃ result, results phase.phaseId = some result ∧
      Means width meaning phase result)
    (hlast : ∃ phase ∈ plan.phases, Last plan.phases phase ∧ rank ∈ phase.participants) :
    ∃ phase ∈ plan.phases, Last plan.phases phase ∧ rank ∈ phase.participants ∧
      ∃ result, finalResult plan results rank = some result ∧ Means width meaning phase result := by
  have hreferenced : ∀ phase : TrafficPhase ρ ν,
      (plan.phases.any fun other => decide (phase.phaseId ∈ other.predecessorIds)) = true ↔
        ¬ Last plan.phases phase := by
    intro phase
    simp [Last]
  cases hfinal : finalResult plan results rank with
  | none =>
    obtain ⟨phase, hphase, hlast, hrank⟩ := hlast
    obtain ⟨result, hresult, hmean⟩ := hmeans phase hphase
    have hnone := findSome?_eq_none_iff.mp hfinal phase hphase
    rw [if_neg (fun h => (hreferenced phase).mp h hlast), hresult, filter_some,
      if_pos (by simpa [hmean.participants] using hrank)] at hnone
    cases hnone
  | some result =>
    obtain ⟨phase, hphase, hsome⟩ := exists_of_findSome?_eq_some hfinal
    split at hsome
    · cases hsome
    · rename_i hnot
      obtain ⟨result', hresult, hmean⟩ := hmeans phase hphase
      rw [hresult, filter_some] at hsome
      split at hsome
      · rename_i hrank
        cases hsome
        refine ⟨phase, hphase, by_contra fun h => hnot ((hreferenced phase).mpr h), ?_, _, rfl, hmean⟩
        rw [← hmean.participants]
        exact of_decide_eq_true hrank
      · cases hsome

/-! ## What a phase reads -/

theorem flatMap_one {β : Type} {g : α → List β} {l : List α} {a : α}
    (hget : l[i]? = some a) (hother : ∀ k x, l[k]? = some x → k ≠ i → g x = []) :
    l.flatMap g = g a := by
  induction l generalizing i with
  | nil => cases hget
  | cons x l ih =>
    cases i with
    | zero =>
      cases hget
      have hnil : l.flatMap g = [] := flatMap_eq_nil_iff.mpr fun y hy => by
        obtain ⟨k, hk⟩ := mem_iff_getElem?.mp hy
        exact hother (k + 1) y hk (Nat.succ_ne_zero k)
      rw [flatMap_cons, hnil, append_nil]
    | succ i =>
      rw [flatMap_cons, hother 0 x rfl (Nat.succ_ne_zero i).symm]
      exact ih hget fun k y hk hne => hother (k + 1) y hk (by omega)

theorem phaseInput_start {phase : TrafficPhase ρ ν}
    (h : phase.predecessorIds = []) (rank : ρ) (pos : Nat) :
    phaseInput width input spare results phase rank pos =
      input rank (inputOffset width phase + pos) :=
  if_pos h

theorem concatenated_rows {f : α → Option (Result ρ M)}
    {c o : Nat} (ho : o < c) : ∀ {l : List α} {d : Nat} {a : α} {result : Result ρ M},
    (∀ x ∈ l, ∃ r, f x = some r ∧ r.size = c) → l[d]? = some a → f a = some result →
    concatenated spare (l.filterMap f) rank (d * c + o) = result.value rank o
  | [], _, _, _, _, hget, _ => by cases hget
  | x :: l, d, a, result, hall, hget, hf => by
    obtain ⟨r, hr, hsize⟩ := hall x mem_cons_self
    rw [filterMap_cons, hr]
    show (if d * c + o < r.size then _ else _) = _
    cases d with
    | zero =>
      cases hget
      cases hr.symm.trans hf
      rw [if_pos (by rw [hsize]; omega), zero_mul, zero_add]
    | succ d =>
      rw [if_neg (by rw [hsize, add_mul]; omega),
        show (d + 1) * c + o - r.size = d * c + o by rw [hsize, add_mul]; omega]
      exact concatenated_rows ho (forall_mem_cons.mp hall).2 hget hf

section

variable {phase : TrafficPhase ρ ν} (hready : Ready width meaning phases results phase)
include hready

/-- A phase comes after blocks of phases, and a rank took part in those of block `i`.  It
reads their results one after the other. -/
theorem phaseInput_block (block : Nat → List PhaseId) {id : PhaseId} {n d c o pos : Nat}
    (hbefore : phase.predecessorIds = (List.range n).flatMap block)
    (hfamily : ∀ k < n, ∀ id ∈ block k, ∃ before ∈ phases, before.phaseId = id ∧
      (rank ∈ before.participants ↔ k = i) ∧ before.logicalOutputBytes / width = c)
    (hi : i < n) (hid : (block i)[d]? = some id)
    (hpos : inputOffset width phase + pos = d * c + o) (ho : o < c) :
    phaseInput width input spare results phase rank pos = meaning id rank o := by
  have hmem : ∀ k < n, ∀ id ∈ block k, id ∈ phase.predecessorIds := fun k hk id hid => by
    rw [hbefore]
    exact mem_flatMap.mpr ⟨k, mem_range.mpr hk, hid⟩
  have hdone : ∀ k < n, ∀ id ∈ block k, ∃ result, results id = some result ∧
      (rank ∈ result.participants ↔ k = i) ∧ result.size = c ∧
      (k = i → result.value rank o = meaning id rank o) := by
    intro k hk id hid
    obtain ⟨before, hphase, rfl, hrank, hbytes⟩ := hfamily k hk id hid
    obtain ⟨result, hresult, hmeans⟩ := hready before hphase (hmem k hk _ hid)
    exact ⟨result, hresult, by rw [hmeans.participants, hrank], hmeans.size.trans hbytes,
      fun hki => hmeans.value rank (hrank.mpr hki) o (hbytes ▸ ho)⟩
  have hmine : ∀ id ∈ block i, ∃ result, ((results id).filter fun result =>
      rank ∈ result.participants) = some result ∧ result.size = c ∧
      result.value rank o = meaning id rank o := by
    intro id hid
    obtain ⟨result, hresult, hrank, hsize, hvalue⟩ := hdone i hi id hid
    refine ⟨result, ?_, hsize, hvalue rfl⟩
    rw [hresult, filter_some, if_pos (decide_eq_true (hrank.mpr rfl))]
  obtain ⟨result, hresult, -, hvalue⟩ := hmine id (mem_of_getElem? hid)
  unfold phaseInput
  dsimp only
  rw [if_neg (ne_nil_of_mem (hmem i hi id (mem_of_getElem? hid))), hpos, hbefore,
    filterMap_flatMap, flatMap_one (getElem?_range hi), concatenated_rows ho (fun id hid => ?_) hid
      hresult, hvalue]
  · obtain ⟨result, hresult, hsize, -⟩ := hmine id hid
    exact ⟨result, hresult, hsize⟩
  · intro k x hx hne
    obtain ⟨hlt, hval⟩ := List.getElem?_eq_some_iff.mp hx
    rw [getElem_range] at hval
    rw [length_range] at hlt
    subst hval
    refine filterMap_eq_nil_iff.mpr fun id hid => ?_
    obtain ⟨result, hresult, hrank, -⟩ := hdone k hlt id hid
    rw [hresult, filter_some, if_neg fun h => hne (hrank.mp (of_decide_eq_true h))]

theorem phaseInput_sole {before : TrafficPhase ρ ν} (hmem : before ∈ phases)
    (hbefore : phase.predecessorIds = [before.phaseId]) (hrank : rank ∈ before.participants)
    {pos : Nat} (hpos : inputOffset width phase + pos < before.logicalOutputBytes / width) :
    phaseInput width input spare results phase rank pos =
      meaning before.phaseId rank (inputOffset width phase + pos) := by
  refine phaseInput_block hready (fun _ => [before.phaseId]) (n := 1) (i := 0) (d := 0) hbefore
    (fun k hk id hid => ⟨before, hmem, (mem_singleton.mp hid).symm, ?_, rfl⟩) one_pos rfl
    (by rw [zero_mul, zero_add]) hpos
  exact iff_of_true hrank (by omega)

end

end TokenSim.Comm
