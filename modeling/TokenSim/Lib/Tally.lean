import TokenSim.Lib.OrderedDict

/-!
# Tallies

A tally is a dictionary of integers that are added to.  The `amount` of a key
that was never written is zero.  `addAll` books a list of postings, and
`amount_addAll` says what it does to every key at once: it adds the postings of
that key, wherever they stand in the list.
-/

universe u

abbrev Tally (α : Type u) := OrderedDict α Int

/-- The sum of the postings of a key. -/
def postings {α : Type u} [DecidableEq α] (l : List (α × Int)) (k : α) : Int :=
  ((l.filter fun e => e.1 = k).map Prod.snd).sum

section Postings

variable {α : Type u} [DecidableEq α]

@[simp] theorem postings_nil (k : α) : postings [] k = 0 := rfl

theorem postings_cons (e : α × Int) (l : List (α × Int)) (k : α) :
    postings (e :: l) k = (if e.1 = k then e.2 else 0) + postings l k := by
  unfold postings
  by_cases h : e.1 = k
  · simp [h]
  · simp [h]

theorem postings_append (l l' : List (α × Int)) (k : α) :
    postings (l ++ l') k = postings l k + postings l' k := by
  simp [postings]

theorem postings_flatMap {β : Type} (g : β → List (α × Int)) (k : α) (l : List β) :
    postings (l.flatMap g) k = (l.map fun b => postings (g b) k).sum := by
  induction l with
  | nil => rfl
  | cons b l ih => rw [List.flatMap_cons, postings_append, ih, List.map_cons, List.sum_cons]

theorem postings_perm {l l' : List (α × Int)} (h : l.Perm l') (k : α) :
    postings l k = postings l' k :=
  ((h.filter _).map _).sum_eq

theorem postings_neg (l : List (α × Int)) (k : α) :
    postings (l.map fun e => (e.1, -e.2)) k = -postings l k := by
  induction l with
  | nil => rfl
  | cons e l ih =>
    rw [List.map_cons, postings_cons, postings_cons, ih]
    split <;> omega

theorem postings_eq_zero {l : List (α × Int)} {k : α} (h : ∀ e ∈ l, e.1 ≠ k) : postings l k = 0 := by
  unfold postings
  rw [List.filter_eq_nil_iff.mpr fun e he => by simpa using h e he]
  rfl

end Postings

namespace Tally

variable {α : Type u} [DecidableEq α]

def amount (t : Tally α) (k : α) : Int := (t.get? k).getD 0

/-- Add to a key, which is written if it was not there. -/
def add (t : Tally α) (k : α) (n : Int) : Tally α := t.set k (amount t k + n)

def addAll (t : Tally α) (l : List (α × Int)) : Tally α := l.foldl (fun t e => add t e.1 e.2) t

@[simp] theorem amount_empty (k : α) : amount (.empty : Tally α) k = 0 := rfl

theorem amount_add (t : Tally α) (k j : α) (n : Int) :
    amount (add t k n) j = amount t j + if k = j then n else 0 := by
  unfold add amount
  rw [OrderedDict.get?_set]
  by_cases h : j = k
  · simp [h]
  · simp [h, Ne.symm h]

theorem amount_addAll (l : List (α × Int)) : ∀ (t : Tally α) (k : α),
    amount (addAll t l) k = amount t k + postings l k := by
  induction l with
  | nil => intro t k; simp [addAll]
  | cons e l ih =>
    intro t k
    show amount (addAll (add t e.1 e.2) l) k = _
    rw [ih, amount_add, postings_cons]
    omega

theorem mem_keys_add {t : Tally α} {k j : α} {n : Int} : j ∈ (add t k n).keys ↔ j = k ∨ j ∈ t.keys :=
  OrderedDict.mem_keys_set

theorem mem_keys_addAll (l : List (α × Int)) : ∀ {t : Tally α} {j : α},
    j ∈ (addAll t l).keys ↔ j ∈ t.keys ∨ j ∈ l.map Prod.fst := by
  induction l with
  | nil => intro t j; simp [addAll]
  | cons e l ih =>
    intro t j
    show j ∈ (addAll (add t e.1 e.2) l).keys ↔ _
    rw [ih, mem_keys_add, List.map_cons, List.mem_cons]
    constructor
    · rintro ((h | h) | h)
      · exact .inr (.inl h)
      · exact .inl h
      · exact .inr (.inr h)
    · rintro (h | h | h)
      · exact .inl (.inr h)
      · exact .inl (.inl h)
      · exact .inr h

theorem postings_entries (t : Tally α) (k : α) : postings t.entries k = amount t k := by
  obtain ⟨l, hl⟩ := t
  show postings l k = (Entries.get? l k).getD 0
  induction l with
  | nil => rfl
  | cons e l ih =>
    rw [Entries.keys_cons, List.nodup_cons] at hl
    rw [postings_cons, Entries.get?]
    by_cases h : e.1 = k
    · subst h
      have hrest : postings l e.1 = 0 := by
        refine postings_eq_zero fun e' he' heq => hl.1 ?_
        rw [← heq]
        exact List.mem_map_of_mem he'
      simp [hrest]
    · rw [if_neg h, if_neg h, ih hl.2]
      omega

/-- Entries of distinct keys, in any order, make the same tally. -/
theorem amount_update_of_perm {t : Tally α} {l : List (α × Int)} (h : l.Perm t.entries) (k : α) :
    amount (.update .empty l) k = amount t k := by
  have hl : (Entries.keys l).Nodup := (h.map Prod.fst).nodup_iff.mpr t.nodup
  have hentries : (OrderedDict.update .empty l).entries = l :=
    OrderedDict.entries_update_of_disjoint hl fun k _ => by simp
  rw [← postings_entries, hentries, postings_perm h, postings_entries]

theorem postings_of_get? {β : Type} {f : β → Int} {l : List (α × β)} (hl : (Entries.keys l).Nodup)
    {k : α} {b : β} (h : Entries.get? l k = some b) :
    postings (l.map fun e => (e.1, f e.2)) k = f b := by
  induction l with
  | nil => cases h
  | cons e l ih =>
    rw [Entries.keys_cons, List.nodup_cons] at hl
    rw [List.map_cons, postings_cons]
    by_cases he : e.1 = k
    · subst he
      rw [Entries.get?, if_pos rfl, Option.some.injEq] at h
      have hrest : postings (l.map fun e => (e.1, f e.2)) e.1 = 0 := by
        refine postings_eq_zero fun e' he' heq => hl.1 ?_
        obtain ⟨x, hx, rfl⟩ := List.mem_map.mp he'
        exact heq ▸ List.mem_map_of_mem hx
      rw [hrest, if_pos rfl, h, Int.add_zero]
    · rw [Entries.get?, if_neg he] at h
      rw [if_neg he, ih hl.2 h, Int.zero_add]

end Tally
