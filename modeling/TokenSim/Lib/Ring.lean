import Mathlib.Data.ZMod.Basic
import Mathlib.Algebra.BigOperators.Fin
import Mathlib.Tactic.Ring
import Mathlib.Tactic.LinearCombination

/-!
# Reducing and gathering around a ring

`n` parties stand in a ring.  Each holds one value for each of `n` blocks, and in
every round each party sends one block to its successor.  Parties and blocks are
numbered modulo `n`.

* In round `t` of a reduction party `i` sends block `i - t - 1`, and the receiver
  adds it to its own.  After `t` rounds the party `j` has in block `b` the sum of as
  many values as `hops` says, those of `j, j - 1, j - 2, …`.  After `n - 1` rounds
  party `j` has the whole sum in block `j` (`reduce_ring`).
* In round `t` of a gathering party `i` sends block `i - t`, and the receiver
  replaces its own.  After `n - 1` rounds everyone has in block `b` what party `b`
  had there (`gather_ring`).
-/

namespace RingRounds

/-- The first rounds, numbered from zero. -/
def rounds {σ : Type*} (f : ℕ → σ → σ) : ℕ → σ → σ
  | 0, s => s
  | t + 1, s => f t (rounds f t s)

variable {n : ℕ} [NeZero n] {M : Type*}

omit [NeZero n] in
theorem val_of_lt {t : ℕ} (h : t < n) : ((t : ℕ) : ZMod n).val = t := by
  rw [ZMod.val_natCast, Nat.mod_eq_of_lt h]

section Reduce

variable [AddCommMonoid M]

/-- A round of a reduction, seen by the receivers. -/
def reduceRound (t : ℕ) (v : ZMod n → ZMod n → M) : ZMod n → ZMod n → M := fun j b =>
  if b = j - 2 - t then v j b + v (j - 1) b else v j b

/-- The number of values summed in a block after `t` rounds. -/
def hops (t : ℕ) (j b : ZMod n) : ℕ := if (j - 2 - b).val < t then (j - 2 - b).val + 2 else 1

theorem reduce_rounds (v : ZMod n → ZMod n → M) : ∀ (t : ℕ), t < n → ∀ j b,
    rounds reduceRound t v j b = ∑ k ∈ Finset.range (hops t j b), v (j - k) b := by
  intro t
  induction t with
  | zero =>
    intro _ j b
    simp [rounds, hops]
  | succ t ih =>
    intro ht j b
    have hlt : t < n := Nat.lt_of_succ_lt ht
    show reduceRound t (rounds reduceRound t v) j b = _
    rw [reduceRound]
    by_cases hb : b = j - 2 - t
    · -- the block arrives in this round, with the values the sender has summed
      have hown : (j - 2 - b).val = t := by
        rw [show j - 2 - b = (t : ZMod n) by rw [hb]; ring, val_of_lt hlt]
      have hsender : hops t (j - 1) b = t + 1 := by
        unfold hops
        cases t with
        | zero => simp
        | succ t =>
          have hval : (j - 1 - 2 - b).val = t := by
            rw [show j - 1 - 2 - b = (t : ZMod n) by rw [hb]; push_cast; ring,
              val_of_lt (Nat.lt_of_succ_lt hlt)]
          rw [hval, if_pos (Nat.lt_succ_self t)]
      have hbefore : hops t j b = 1 := by
        unfold hops
        rw [hown, if_neg (lt_irrefl t)]
      have hafter : hops (t + 1) j b = t + 1 + 1 := by
        unfold hops
        rw [hown, if_pos (Nat.lt_succ_self t)]
      rw [if_pos hb, ih hlt, ih hlt, hsender, hbefore, hafter, Finset.sum_range_succ' _ (t + 1),
        add_comm]
      congr 1
      · refine Finset.sum_congr rfl fun k _ => ?_
        congr 1
        push_cast
        ring
      · simp
    · have hne : (j - 2 - b).val ≠ t := by
        intro hval
        apply hb
        have hcast : ((j - 2 - b).val : ZMod n) = j - 2 - b := ZMod.natCast_zmod_val _
        rw [hval] at hcast
        rw [hcast]
        ring
      have hsame : hops (t + 1) j b = hops t j b := by
        unfold hops
        by_cases hlt : (j - 2 - b).val < t
        · rw [if_pos hlt, if_pos (Nat.lt_succ_of_lt hlt)]
        · rw [if_neg hlt, if_neg (by omega)]
      rw [if_neg hb, ih hlt, hsame]

theorem sum_around (f : ZMod n → M) (j : ZMod n) :
    ∑ k ∈ Finset.range n, f (j - k) = ∑ i, f i := by
  refine Finset.sum_bij (fun k _ => j - k) (fun _ _ => Finset.mem_univ _) ?_ ?_ fun _ _ => rfl
  · intro a ha b hb hab
    have hcast : (a : ZMod n) = b := by
      have h := congrArg (fun x => j - x) hab
      simpa using h
    have hval := congrArg ZMod.val hcast
    rwa [val_of_lt (Finset.mem_range.mp ha), val_of_lt (Finset.mem_range.mp hb)] at hval
  · intro i _
    exact ⟨(j - i).val, Finset.mem_range.mpr (ZMod.val_lt _), by simp⟩

/-- After a reduction every party has the sum over all parties in its own block. -/
theorem reduce_ring (v : ZMod n → ZMod n → M) (j : ZMod n) :
    rounds reduceRound (n - 1) v j j = ∑ i, v i j := by
  have hpos : 0 < n := Nat.pos_of_ne_zero (NeZero.ne n)
  rw [reduce_rounds v (n - 1) (by omega)]
  have hall : hops (n - 1) j j = n := by
    unfold hops
    by_cases hone : n = 1
    · rw [if_neg (by omega), hone]
    · have hval : (j - 2 - j : ZMod n).val = n - 2 := by
        have hcast : j - 2 - j = ((n - 2 : ℕ) : ZMod n) := by
          rw [Nat.cast_sub (by omega)]
          simp
        rw [hcast, val_of_lt (by omega)]
      rw [hval, if_pos (by omega)]
      omega
  rw [hall, sum_around fun i => v i j]

end Reduce

/-- A round of a gathering, seen by the receivers. -/
def gatherRound (t : ℕ) (v : ZMod n → ZMod n → M) : ZMod n → ZMod n → M := fun j b =>
  if b = j - 1 - t then v (j - 1) b else v j b

theorem gather_rounds (v : ZMod n → ZMod n → M) : ∀ (t : ℕ), t < n → ∀ j b, (j - b).val ≤ t →
    rounds gatherRound t v j b = v b b := by
  intro t
  induction t with
  | zero =>
    intro _ j b h
    have hzero : j - b = 0 := (ZMod.val_eq_zero _).mp (Nat.le_zero.mp h)
    rw [sub_eq_zero.mp hzero]
    rfl
  | succ t ih =>
    intro ht j b h
    have hlt : t < n := Nat.lt_of_succ_lt ht
    show gatherRound t (rounds gatherRound t v) j b = _
    rw [gatherRound]
    by_cases hb : b = j - 1 - t
    · rw [if_pos hb]
      refine ih hlt (j - 1) b ?_
      rw [show j - 1 - b = (t : ZMod n) by rw [hb]; ring, val_of_lt hlt]
    · rw [if_neg hb]
      refine ih hlt j b ?_
      have hne : (j - b).val ≠ t + 1 := by
        intro hval
        apply hb
        have hcast : ((j - b).val : ZMod n) = j - b := ZMod.natCast_zmod_val _
        rw [hval] at hcast
        push_cast at hcast
        linear_combination hcast
      omega

/-- After a gathering every party has the own block of every other. -/
theorem gather_ring (v : ZMod n → ZMod n → M) (j b : ZMod n) :
    rounds gatherRound (n - 1) v j b = v b b := by
  have hpos : 0 < n := Nat.pos_of_ne_zero (NeZero.ne n)
  have hval := ZMod.val_lt (j - b)
  exact gather_rounds v (n - 1) (by omega) j b (by omega)

end RingRounds
