import Mathlib.Data.List.Range

/-!
# Index ranges

Cutting consecutive indices at a bound and filling them up: the list facts
behind tables that hold a contiguous range.
-/

namespace List

theorem filter_le_range' (low : Nat) : ∀ (a n : Nat),
    (range' a n).filter (low ≤ ·) = range' (max a low) (a + n - max a low)
  | a, 0 => by
    rw [show a + 0 - max a low = 0 by omega]
    rfl
  | a, n + 1 => by
    rw [range'_succ, filter_cons, filter_le_range' low (a + 1) n]
    by_cases h : low ≤ a
    · rw [if_pos (by simpa using h), show max a low = a by omega,
        show max (a + 1) low = a + 1 by omega, show a + 1 + n - (a + 1) = n by omega,
        show a + (n + 1) - a = n + 1 by omega, range'_succ]
    · rw [if_neg (by simpa using h), show max (a + 1) low = max a low by omega,
        show a + 1 + n - max a low = a + (n + 1) - max a low by omega]

/-- Leaving out a range that starts at or before another one, or is empty, cuts
it from below. -/
theorem filter_not_mem_range' {a n b m : Nat} (h : m = 0 ∨ b ≤ a) :
    (range' a n).filter (· ∉ range' b m) =
      range' (max a (if m = 0 then a else b + m)) (a + n - max a (if m = 0 then a else b + m)) := by
  rw [← filter_le_range']
  refine filter_congr fun i hi => ?_
  have hai := (mem_range'_1.mp hi).1
  simp only [mem_range'_1, decide_not, Bool.not_eq_eq_eq_not]
  by_cases hm : m = 0
  · have hno : ¬ (b ≤ i ∧ i < b + m) := by omega
    simp only [hm, if_pos, Nat.add_zero] at hno ⊢
    simp [hai, hno]
  · simp only [if_neg hm]
    by_cases hib : b + m ≤ i
    · simp [hib]
    · have hbi : b ≤ i ∧ i < b + m := by omega
      simp [hib, hbi]

theorem range'_append_of_le {a b c : Nat} (hab : a ≤ b) (hbc : b ≤ c) :
    range' a (b - a) ++ range' b (c - b) = range' a (c - a) := by
  have h := range'_append_1 (s := a) (m := b - a) (n := c - b)
  rw [show a + (b - a) = b by omega, show b - a + (c - b) = c - a by omega] at h
  exact h

end List
