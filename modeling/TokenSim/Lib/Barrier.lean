import Mathlib.Data.Finset.Card

/-!
# Barriers

The peers `0, …, n - 1` go through the same sequence of stages, and a peer that has
finished a stage waits until all have.  `Barrier n p stage ahead` says how they stand
when peer `o` has finished `p o` stages: the peers in `ahead` have finished `stage`, the
others are at it, and there is at least one of those.
-/

structure Barrier (n : Nat) (p : Nat → Nat) (stage : Nat) (ahead : Finset Nat) : Prop where
  position : ∀ o < n, p o = if o ∈ ahead then stage + 1 else stage
  peers : ahead ⊆ Finset.range n
  unfinished : ahead.card < n

namespace Barrier

variable {n stage o : Nat} {p p' : Nat → Nat} {ahead : Finset Nat}

/-- No peer is ahead of a stage that has just begun. -/
theorem begin (hn : 0 < n) (h : ∀ o < n, p o = stage) : Barrier n p stage ∅ :=
  ⟨fun o ho => (h o ho).trans (if_neg (Finset.notMem_empty o)).symm, Finset.empty_subset _, hn⟩

section

variable (h : Barrier n p stage ahead)
include h

theorem congr (hp : ∀ o < n, p' o = p o) : Barrier n p' stage ahead :=
  ⟨fun o ho => (hp o ho).trans (h.position o ho), h.peers, h.unfinished⟩

theorem le_position (ho : o < n) : stage ≤ p o := by
  rw [h.position o ho]
  split <;> omega

theorem notMem_iff (ho : o < n) : o ∉ ahead ↔ p o = stage := by
  rw [h.position o ho]
  split <;> simp [*]

/-- Some peer is still at the stage. -/
theorem exists_behind : ∃ o < n, p o = stage := by
  obtain ⟨o, ho, hnot⟩ := Finset.exists_mem_notMem_of_card_lt_card
    (h.unfinished.trans_eq (Finset.card_range n).symm)
  rw [Finset.mem_range] at ho
  exact ⟨o, ho, (h.notMem_iff ho).mp hnot⟩

variable (ho : o < n) (hp : p' o = stage + 1) (hothers : ∀ o', o' ≠ o → p' o' = p o')
include ho hp hothers

/-- One more peer finishes the stage. -/
theorem arrive (hcard : (insert o ahead).card ≠ n) : Barrier n p' stage (insert o ahead) := by
  have hpeers : insert o ahead ⊆ Finset.range n :=
    Finset.insert_subset (Finset.mem_range.mpr ho) h.peers
  refine ⟨fun o' ho' => ?_, hpeers, lt_of_le_of_ne ?_ hcard⟩
  · by_cases heq : o' = o
    · rw [heq, hp, if_pos (Finset.mem_insert_self ..)]
    · simp only [hothers o' heq, h.position o' ho', Finset.mem_insert, heq, false_or]
  · simpa using Finset.card_le_card hpeers

/-- The last peer finishes the stage. -/
theorem arrive_last (hcard : (insert o ahead).card = n) : ∀ o' < n, p' o' = stage + 1 := by
  have hall : insert o ahead = Finset.range n := by
    refine Finset.eq_of_subset_of_card_le ?_ (by rw [Finset.card_range, hcard])
    exact Finset.insert_subset (Finset.mem_range.mpr ho) h.peers
  intro o' ho'
  by_cases heq : o' = o
  · rw [heq, hp]
  · have hmem : o' ∈ insert o ahead := hall ▸ Finset.mem_range.mpr ho'
    rw [hothers o' heq, h.position o' ho', if_pos ((Finset.mem_insert.mp hmem).resolve_left heq)]

end

end Barrier
