import Mathlib.Data.Int.CardIntervalMod
import Mathlib.Algebra.BigOperators.Group.Finset.Piecewise

/-!
# Counting around a cycle

A cursor walks around a cycle of `n` positions.  `visits n a len p` counts how
often it stands at position `p` in `len` steps from `a`.  Walks compose, only the
position of the start matters, and no position is visited twice more than
another.  Seen through every `m`-th position, a cycle of `n * m` positions is `m`
cycles laid over each other (`sum_visits_stride`).
-/

namespace TokenSim

/-- How often a cursor that takes `len` steps from `a` around `n` positions stands
at position `p`. -/
def visits (n a len p : Nat) : Nat := Nat.count (fun k => (a + k) % n = p) len

variable {n a len p q : Nat}

@[simp] theorem visits_zero (n a p : Nat) : visits n a 0 p = 0 := rfl

theorem visits_succ (n a len p : Nat) :
    visits n a (len + 1) p = visits n a len p + if (a + len) % n = p then 1 else 0 :=
  Nat.count_succ ..

theorem visits_add (n a len len' p : Nat) :
    visits n a (len + len') p = visits n a len p + visits n (a + len) len' p := by
  simp only [visits, Nat.count_add, add_assoc]

theorem visits_mod (n a len p : Nat) : visits n (a % n) len p = visits n a len p := by
  simp only [visits, Nat.mod_add_mod]

/-- Full rounds visit every position, and the rest of the way some once more. -/
theorem visits_eq (hp : p < n) :
    visits n a len p = len / n + if ∃ k < len % n, (a + k) % n = p then 1 else 0 := by
  have hn : 0 < n := Nat.zero_lt_of_lt hp
  -- the first step at which the cursor stands at `p`
  obtain ⟨v, hvn, hv⟩ : ∃ v < n, ∀ k, (a + k) % n = p ↔ k ≡ v [MOD n] := by
    refine ⟨(p + (n - a % n)) % n, Nat.mod_lt _ hn, fun k => ?_⟩
    have hstart : a + (p + (n - a % n)) % n ≡ p [MOD n] := by
      have hle : a % n ≤ n := (Nat.mod_lt _ hn).le
      have hsum : a + (p + (n - a % n)) = p + n * (1 + a / n) := by
        have := Nat.div_add_mod a n
        rw [mul_add]
        omega
      calc a + (p + (n - a % n)) % n ≡ a + (p + (n - a % n)) [MOD n] :=
            Nat.ModEq.add_left _ (Nat.mod_modEq ..)
        _ ≡ p [MOD n] := by
            rw [hsum, Nat.ModEq, Nat.add_mul_mod_self_left]
    constructor
    · intro hk
      have hk' : a + k ≡ p [MOD n] := by rw [Nat.ModEq, hk, Nat.mod_eq_of_lt hp]
      exact Nat.ModEq.add_left_cancel' a (hk'.trans hstart.symm)
    · intro hk
      have hk' : a + k ≡ p [MOD n] := (hk.add_left a).trans hstart
      rw [Nat.ModEq, Nat.mod_eq_of_lt hp] at hk'
      exact hk'
  have hcount : visits n a len p = len.count (· ≡ v [MOD n]) := by
    simp only [visits, hv]
  rw [hcount, Nat.count_modEq_card _ hn, Nat.mod_eq_of_lt hvn]
  congr 1
  refine if_congr ⟨fun hlt => ⟨v, hlt, (hv v).mpr rfl⟩, ?_⟩ rfl rfl
  rintro ⟨k, hk, hkp⟩
  have hkv : k % n = v % n := (hv k).mp hkp
  rw [Nat.mod_eq_of_lt hvn, Nat.mod_eq_of_lt (hk.trans (Nat.mod_lt _ hn))] at hkv
  omega

theorem visits_le_succ (hp : p < n) (hq : q < n) : visits n a len p ≤ visits n a len q + 1 := by
  rw [visits_eq hp, visits_eq hq]
  split <;> split <;> omega

/-- Every `m`-th position of a cycle of `n * m`, from `j` on, is visited as often in
all as position `j` of a cycle of `m`. -/
theorem sum_visits_stride {n m j : Nat} (hn : 0 < n) (hj : j < m) (a : Nat) : ∀ len,
    ∑ i ∈ Finset.range n, visits (n * m) a len (i * m + j) = visits m a len j
  | 0 => by simp
  | len + 1 => by
    have hm : 0 < m := Nat.zero_lt_of_lt hj
    simp only [visits_succ, Finset.sum_add_distrib]
    rw [sum_visits_stride hn hj a len]
    congr 1
    -- the position lies in one row, and in column `j` or not
    generalize a + len = x
    have hrow : x % (n * m) / m < n :=
      Nat.div_lt_of_lt_mul (by rw [mul_comm m n]; exact Nat.mod_lt _ (Nat.mul_pos hn hm))
    have hcol : x % (n * m) % m = x % m := Nat.mod_mul_left_mod ..
    have hiff : ∀ i, x % (n * m) = i * m + j ↔ i = x % (n * m) / m ∧ x % m = j := by
      intro i
      have hdiv := Nat.div_add_mod (x % (n * m)) m
      rw [hcol] at hdiv
      constructor
      · intro hx
        rw [hx, add_comm, Nat.add_mul_div_right _ _ hm, Nat.div_eq_of_lt hj, zero_add,
          ← hcol, hx, add_comm, Nat.add_mul_mod_self_right, Nat.mod_eq_of_lt hj]
        exact ⟨rfl, rfl⟩
      · rintro ⟨rfl, hx⟩
        rw [hx, mul_comm m] at hdiv
        exact hdiv.symm
    simp only [hiff, ite_and]
    rw [Finset.sum_ite_eq' (Finset.range n) _ fun _ => if x % m = j then 1 else 0,
      if_pos (Finset.mem_range.mpr hrow)]

theorem sum_visits (hn : 0 < n) (a len : Nat) : ∑ p ∈ Finset.range n, visits n a len p = len := by
  have hone : visits 1 a len 0 = len := by
    rw [visits_eq Nat.one_pos, Nat.div_one, Nat.mod_one]
    simp
  have := sum_visits_stride hn Nat.one_pos a len
  simpa only [mul_one, add_zero, hone] using this

end TokenSim
