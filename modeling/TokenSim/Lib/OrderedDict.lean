import Mathlib.Data.List.Nodup
import Mathlib.Algebra.BigOperators.Group.List.Basic
import Mathlib.Tactic.Linarith

/-!
# Insertion-ordered dictionaries

A dictionary is a list of entries with distinct keys.  Writing a key that is
present replaces its value in place; writing a new key appends an entry.
Iteration follows the list, so the order of the entries is the order in which
the keys were first written.

The operations are first defined on entry lists.  The structure `OrderedDict`
carries the proof that the keys are distinct, so that a lookup, a replacement
and a removal each concern at most one entry.  `OrderedDict.sum` adds up a
weight over the entries; its three equations say how one write or one removal
changes the total.
-/

universe u v w

/-! ## Entry lists -/

namespace Entries

variable {α : Type u} {β : Type v} [DecidableEq α]

/-- The value of the first entry of a key. -/
def get? : List (α × β) → α → Option β
  | [], _ => none
  | e :: l, k => if e.1 = k then some e.2 else get? l k

/-- Replace the value of a key in place, or append the entry. -/
def set : List (α × β) → α → β → List (α × β)
  | [], k, v => [(k, v)]
  | e :: l, k, v => if e.1 = k then (k, v) :: l else e :: set l k v

/-- Drop the entry of a key. -/
def erase (l : List (α × β)) (k : α) : List (α × β) := l.filter fun e => e.1 ≠ k

/-- The keys, in order. -/
def keys (l : List (α × β)) : List α := l.map Prod.fst

omit [DecidableEq α] in
@[simp] theorem keys_nil : keys ([] : List (α × β)) = [] := rfl

omit [DecidableEq α] in
@[simp] theorem keys_cons (e : α × β) (l : List (α × β)) : keys (e :: l) = e.1 :: keys l := rfl

omit [DecidableEq α] in
theorem keys_append (l l' : List (α × β)) : keys (l ++ l') = keys l ++ keys l' := by
  simp [keys]

variable {k : α} {l : List (α × β)} {v : β}

theorem get?_eq_none : get? l k = none ↔ k ∉ keys l := by
  induction l with
  | nil => simp [get?]
  | cons e l ih =>
    by_cases h : e.1 = k
    · simp [get?, h]
    · simp [get?, h, ih, Ne.symm h]

theorem get?_mem (h : get? l k = some v) : (k, v) ∈ l := by
  induction l with
  | nil => cases h
  | cons e l ih =>
    by_cases he : e.1 = k
    · rw [get?, if_pos he, Option.some.injEq] at h
      subst he
      subst h
      exact List.mem_cons_self ..
    · rw [get?, if_neg he] at h
      exact List.mem_cons_of_mem _ (ih h)

theorem get?_of_mem (hl : (keys l).Nodup) (h : (k, v) ∈ l) : get? l k = some v := by
  induction l with
  | nil => cases h
  | cons e l ih =>
    rw [keys_cons, List.nodup_cons] at hl
    cases List.mem_cons.mp h with
    | inl he => subst he; simp [get?]
    | inr h' =>
      have hk : k ∈ keys l := List.mem_map_of_mem (f := Prod.fst) h'
      have hne : e.1 ≠ k := fun he => hl.1 (he ▸ hk)
      rw [get?, if_neg hne]
      exact ih hl.2 h'

theorem get?_set (l : List (α × β)) (k j : α) (v : β) :
    get? (set l k v) j = if j = k then some v else get? l j := by
  induction l with
  | nil =>
    by_cases h : j = k
    · simp [set, get?, h]
    · simp [set, get?, h, Ne.symm h]
  | cons e l ih =>
    by_cases he : e.1 = k
    · by_cases h : j = k
      · simp [set, get?, he, h]
      · simp [set, get?, he, h, Ne.symm h]
    · by_cases h : j = k
      · subst h
        simp [set, get?, he, ih]
      · simp [set, get?, he, ih, h]

theorem keys_set (l : List (α × β)) (k : α) (v : β) :
    keys (set l k v) = if k ∈ keys l then keys l else keys l ++ [k] := by
  induction l with
  | nil => simp [set]
  | cons e l ih =>
    by_cases he : e.1 = k
    · simp [set, he]
    · by_cases hk : k ∈ keys l
      · simp [set, he, ih, hk]
      · simp [set, he, ih, hk, Ne.symm he]

theorem nodup_set (hl : (keys l).Nodup) (k : α) (v : β) :
    (keys (set l k v)).Nodup := by
  rw [keys_set]
  by_cases hk : k ∈ keys l
  · rw [if_pos hk]; exact hl
  · rw [if_neg hk]
    exact List.nodup_append.mpr ⟨hl, List.nodup_singleton k, fun a ha b hb hab => by
      rw [List.mem_singleton] at hb
      exact hk (hb ▸ hab ▸ ha)⟩

theorem set_of_not_mem (h : k ∉ keys l) (v : β) :
    set l k v = l ++ [(k, v)] := by
  induction l with
  | nil => rfl
  | cons e l ih =>
    rw [keys_cons, List.mem_cons, not_or] at h
    rw [set, if_neg (Ne.symm h.1), ih h.2, List.cons_append]

theorem set_of_get? (h : get? l k = some v) :
    set l k v = l := by
  induction l with
  | nil => cases h
  | cons e l ih =>
    by_cases he : e.1 = k
    · rw [get?, if_pos he, Option.some.injEq] at h
      rw [set, if_pos he, ← he, ← h]
    · rw [get?, if_neg he] at h
      rw [set, if_neg he, ih h]

theorem keys_erase (l : List (α × β)) (k : α) :
    keys (erase l k) = (keys l).filter (· ≠ k) := by
  induction l with
  | nil => rfl
  | cons e l ih =>
    by_cases he : e.1 = k
    · simpa [erase, he] using ih
    · simpa [erase, he] using ih

theorem get?_erase (l : List (α × β)) (k j : α) :
    get? (erase l k) j = if j = k then none else get? l j := by
  induction l with
  | nil => simp [erase, get?]
  | cons e l ih =>
    by_cases he : e.1 = k
    · have heq : erase (e :: l) k = erase l k := by simp [erase, he]
      rw [heq, ih]
      by_cases h : j = k
      · simp [h]
      · simp [h, get?, he, Ne.symm h]
    · have heq : erase (e :: l) k = e :: erase l k := by simp [erase, he]
      rw [heq]
      by_cases h : j = k
      · subst h
        simp [get?, he, ih]
      · simp [get?, ih, h]

/-- The total weight of the entries. -/
def sum (f : α → β → Nat) (l : List (α × β)) : Nat := (l.map fun e => f e.1 e.2).sum

omit [DecidableEq α] in
@[simp] theorem sum_nil (f : α → β → Nat) : sum f [] = 0 := rfl

omit [DecidableEq α] in
@[simp] theorem sum_cons (f : α → β → Nat) (e : α × β) (l : List (α × β)) :
    sum f (e :: l) = f e.1 e.2 + sum f l := by simp [sum]

theorem erase_of_not_mem (h : k ∉ keys l) : erase l k = l := by
  apply List.filter_eq_self.mpr
  intro e he
  have : e.1 ∈ keys l := List.mem_map_of_mem (f := Prod.fst) he
  have hne : e.1 ≠ k := fun hek => h (hek ▸ this)
  simpa using hne

theorem erase_set_self (l : List (α × β)) (k : α) (v : β) : erase (set l k v) k = erase l k := by
  induction l with
  | nil => simp [set, erase]
  | cons e l ih =>
    rw [set]
    split
    · rename_i hk
      simp [erase, hk]
    · rename_i hk
      have htail : ∀ l' : List (α × β), erase (e :: l') k = e :: erase l' k := fun l' => by
        simp [erase, hk]
      rw [htail, htail, ih]

theorem sum_erase_of_get? (hl : (keys l).Nodup) {v₀ : β}
    (h : get? l k = some v₀) (f : α → β → Nat) : sum f (erase l k) + f k v₀ = sum f l := by
  induction l with
  | nil => cases h
  | cons e l ih =>
    rw [keys_cons, List.nodup_cons] at hl
    by_cases he : e.1 = k
    · rw [get?, if_pos he, Option.some.injEq] at h
      subst he
      subst h
      have heq : erase (e :: l) e.1 = l := by
        have : erase (e :: l) e.1 = erase l e.1 := by simp [erase]
        rw [this]
        exact erase_of_not_mem hl.1
      rw [heq, sum_cons]
      omega
    · rw [get?, if_neg he] at h
      have heq : erase (e :: l) k = e :: erase l k := by simp [erase, he]
      have := ih hl.2 h
      rw [heq, sum_cons, sum_cons]
      omega

end Entries

/-! ## Dictionaries -/

/-- A dictionary with distinct keys, in insertion order. -/
structure OrderedDict (α : Type u) (β : Type v) where
  /-- The entries, oldest key first. -/
  entries : List (α × β)
  /-- The keys are distinct. -/
  nodup : (Entries.keys entries).Nodup

namespace OrderedDict

variable {α : Type u} {β : Type v}

variable {d : OrderedDict α β} {j k : α} {v : β} {l : List (α × β)}

@[ext] theorem ext {d' : OrderedDict α β} (h : d.entries = d'.entries) : d = d' := by
  cases d
  cases d'
  cases h
  rfl

instance [DecidableEq α] [DecidableEq β] : DecidableEq (OrderedDict α β) := fun d d' =>
  decidable_of_iff (d.entries = d'.entries) ⟨ext, fun h => h ▸ rfl⟩

/-- The dictionary without entries. -/
def empty : OrderedDict α β := ⟨[], List.nodup_nil⟩

instance : Inhabited (OrderedDict α β) := ⟨empty⟩

variable (d)

/-- The keys, oldest first. -/
def keys : List α := Entries.keys d.entries

/-- The values, in the order of their keys. -/
def values : List β := d.entries.map Prod.snd

/-- The number of entries. -/
def size : Nat := d.entries.length

/-- The total weight of the entries. -/
def sum (f : α → β → Nat) (d : OrderedDict α β) : Nat := Entries.sum f d.entries

variable [DecidableEq α]

/-- The value of a key, if it is present. -/
def get? (k : α) : Option β := Entries.get? d.entries k

/-- Write a key. -/
def set (k : α) (v : β) : OrderedDict α β :=
  ⟨Entries.set d.entries k v, Entries.nodup_set d.nodup k v⟩

/-- Remove a key.  Nothing happens when it is absent. -/
def erase (k : α) : OrderedDict α β :=
  ⟨Entries.erase d.entries k, by rw [Entries.keys_erase]; exact d.nodup.filter _⟩

/-- Write a list of entries, one after the other. -/
def update (l : List (α × β)) : OrderedDict α β :=
  l.foldl (fun d e => d.set e.1 e.2) d

/-- Move a key to the end.  Nothing happens when it is absent. -/
def moveToEnd (k : α) : OrderedDict α β :=
  match d.get? k with
  | some v => (d.erase k).set k v
  | none => d

omit [DecidableEq α] in
theorem keys_nodup : d.keys.Nodup := d.nodup

omit [DecidableEq α] in
@[simp] theorem keys_empty : (empty : OrderedDict α β).keys = [] := rfl

omit [DecidableEq α] in
@[simp] theorem sum_empty (f : α → β → Nat) : (empty : OrderedDict α β).sum f = 0 := rfl

omit [DecidableEq α] in
theorem length_keys : d.keys.length = d.size := List.length_map ..

@[simp] theorem get?_empty (k : α) : (empty : OrderedDict α β).get? k = none := rfl

@[simp] theorem get?_set (k j : α) (v : β) :
    (d.set k v).get? j = if j = k then some v else d.get? j := Entries.get?_set ..

@[simp] theorem get?_erase (k j : α) :
    (d.erase k).get? j = if j = k then none else d.get? j := Entries.get?_erase ..

variable {d}

theorem get?_set_self : (d.set k v).get? k = some v := by rw [get?_set, if_pos rfl]

theorem get?_erase_self : (d.erase k).get? k = none := by rw [get?_erase, if_pos rfl]

theorem get?_set_of_ne (h : j ≠ k) :
    (d.set k v).get? j = d.get? j := by rw [get?_set, if_neg h]

theorem get?_erase_of_ne (h : j ≠ k) :
    (d.erase k).get? j = d.get? j := by rw [get?_erase, if_neg h]

theorem get?_set_cases {x : β} (h : (d.set k v).get? j = some x) :
    j = k ∧ x = v ∨ j ≠ k ∧ d.get? j = some x := by
  rw [get?_set] at h
  split at h
  · next hj => exact .inl ⟨hj, (Option.some.inj h).symm⟩
  · next hj => exact .inr ⟨hj, h⟩

theorem get?_of_erase (h : (d.erase k).get? j = some v) : j ≠ k ∧ d.get? j = some v := by
  rw [get?_erase] at h
  split at h
  · cases h
  · next hj => exact ⟨hj, h⟩

theorem get?_set_eq_none {x : β} (hk : d.get? k = some x) (hj : d.get? j = none) :
    (d.set k v).get? j = none := by
  rw [get?_set_of_ne, hj]
  rintro rfl
  cases hk.symm.trans hj

theorem set_of_get? (h : d.get? k = some v) :
    d.set k v = d := ext (Entries.set_of_get? h)

theorem get?_eq_none : d.get? k = none ↔ k ∉ d.keys :=
  Entries.get?_eq_none

theorem get?_eq_some_iff :
    d.get? k = some v ↔ (k, v) ∈ d.entries :=
  ⟨Entries.get?_mem, Entries.get?_of_mem d.nodup⟩

theorem mem_keys_iff : k ∈ d.keys ↔ ∃ v, d.get? k = some v := by
  constructor
  · intro h
    cases hg : d.get? k with
    | none => exact absurd h (get?_eq_none.mp hg)
    | some v => exact ⟨v, rfl⟩
  · rintro ⟨v, hv⟩
    by_contra h
    rw [get?_eq_none.mpr h] at hv
    cases hv

theorem mem_values_of_get? (h : d.get? k = some v) :
    v ∈ d.values :=
  List.mem_map.mpr ⟨(k, v), get?_eq_some_iff.mp h, rfl⟩

theorem keys_set (d : OrderedDict α β) (k : α) (v : β) :
    (d.set k v).keys = if k ∈ d.keys then d.keys else d.keys ++ [k] := Entries.keys_set ..

theorem keys_erase (d : OrderedDict α β) (k : α) :
    (d.erase k).keys = d.keys.filter (· ≠ k) := Entries.keys_erase ..

theorem entries_set_of_not_mem (h : k ∉ d.keys) (v : β) :
    (d.set k v).entries = d.entries ++ [(k, v)] := Entries.set_of_not_mem h v

theorem erase_of_not_mem (h : k ∉ d.keys) : d.erase k = d :=
  ext (Entries.erase_of_not_mem h)

theorem sum_erase_of_get? {v₀ : β} (h : d.get? k = some v₀)
    (f : α → β → Nat) : (d.erase k).sum f + f k v₀ = d.sum f :=
  Entries.sum_erase_of_get? d.nodup h f

variable (d)

theorem erase_set_self (k : α) (v : β) : (d.set k v).erase k = d.erase k :=
  ext (Entries.erase_set_self ..)

theorem erase_erase_self (k : α) : (d.erase k).erase k = d.erase k :=
  erase_of_not_mem (by simp [keys_erase])

theorem sum_eq_erase (k : α) (f : α → β → Nat) :
    d.sum f = (d.erase k).sum f + (d.get? k).elim 0 (f k) := by
  cases h : d.get? k with
  | none =>
    rw [erase_of_not_mem (get?_eq_none.mp h)]
    rfl
  | some v => exact (sum_erase_of_get? h f).symm

theorem sum_set (k : α) (v : β) (f : α → β → Nat) :
    (d.set k v).sum f = (d.erase k).sum f + f k v := by
  rw [sum_eq_erase, erase_set_self, get?_set_self]
  rfl

variable {d}

theorem sum_set_of_get? {v₀ : β} (h : d.get? k = some v₀)
    (f : α → β → Nat) (v : β) : (d.set k v).sum f + f k v₀ = d.sum f + f k v := by
  rw [sum_set, ← sum_erase_of_get? h f]
  omega

theorem sum_set_of_get?_none (h : d.get? k = none)
    (f : α → β → Nat) (v : β) : (d.set k v).sum f = d.sum f + f k v := by
  rw [sum_set, erase_of_not_mem (get?_eq_none.mp h)]

@[simp] theorem get?_moveToEnd (d : OrderedDict α β) (k j : α) :
    (d.moveToEnd k).get? j = d.get? j := by
  unfold moveToEnd
  cases hk : d.get? k with
  | none => rfl
  | some v =>
    dsimp only
    rw [get?_set, get?_erase]
    by_cases hj : j = k
    · rw [if_pos hj, hj, hk]
    · rw [if_neg hj, if_neg hj]

theorem mem_keys_moveToEnd :
    j ∈ (d.moveToEnd k).keys ↔ j ∈ d.keys := by
  rw [mem_keys_iff, mem_keys_iff, get?_moveToEnd]

theorem mem_keys_set :
    j ∈ (d.set k v).keys ↔ j = k ∨ j ∈ d.keys := by
  rw [mem_keys_iff, mem_keys_iff, get?_set]
  by_cases hj : j = k
  · simp [hj]
  · simp [hj]

theorem mem_keys_erase :
    j ∈ (d.erase k).keys ↔ j ≠ k ∧ j ∈ d.keys := by
  rw [mem_keys_iff, mem_keys_iff, get?_erase]
  by_cases hj : j = k
  · simp [hj]
  · simp [hj]

@[simp] theorem update_nil (d : OrderedDict α β) : d.update [] = d := rfl

theorem update_cons (d : OrderedDict α β) (e : α × β) (l : List (α × β)) :
    d.update (e :: l) = (d.set e.1 e.2).update l := rfl

/-- A value comes from the entries, or from before where they do not have the key. -/
theorem get?_update : ∀ {d : OrderedDict α β},
    (d.update l).get? k = some v → (k, v) ∈ l ∨ k ∉ Entries.keys l ∧ d.get? k = some v := by
  induction l with
  | nil => exact fun h => .inr ⟨List.not_mem_nil, h⟩
  | cons e l ih =>
    intro d h
    rw [update_cons] at h
    rcases ih h with hmem | ⟨hnot, hget⟩
    · exact .inl (List.mem_cons_of_mem _ hmem)
    · rcases get?_set_cases hget with ⟨rfl, rfl⟩ | ⟨hk, hget⟩
      · exact .inl (List.mem_cons_self ..)
      · exact .inr ⟨by simp [hnot, hk], hget⟩

theorem mem_keys_update : ∀ {d : OrderedDict α β},
    k ∈ (d.update l).keys ↔ k ∈ Entries.keys l ∨ k ∈ d.keys := by
  induction l with
  | nil => simp
  | cons e l ih =>
    intro d
    rw [update_cons, ih, mem_keys_set, Entries.keys_cons, List.mem_cons]
    tauto

/-- Entries that say the same about a key. -/
theorem get?_update_of_mem
    (h : (k, v) ∈ l) (hsame : ∀ v', (k, v') ∈ l → v' = v) : (d.update l).get? k = some v := by
  have hk : k ∈ Entries.keys l := List.mem_map_of_mem (f := Prod.fst) h
  obtain ⟨v', hv'⟩ := mem_keys_iff.mp (mem_keys_update.mpr (.inl hk) : k ∈ (d.update l).keys)
  rw [hv', hsame v' ((get?_update hv').resolve_right fun hold => hold.1 hk)]

/-- Writing new distinct keys appends their entries. -/
theorem entries_update_of_disjoint (hl : (Entries.keys l).Nodup) :
    ∀ {d : OrderedDict α β}, (∀ k ∈ Entries.keys l, k ∉ d.keys) →
      (d.update l).entries = d.entries ++ l := by
  induction l with
  | nil => intro d _; simp
  | cons e l ih =>
    intro d hd
    rw [Entries.keys_cons, List.nodup_cons] at hl
    have he : e.1 ∉ d.keys := hd e.1 (by simp)
    have hd' : ∀ k ∈ Entries.keys l, k ∉ (d.set e.1 e.2).keys := by
      intro k hk
      rw [keys_set, if_neg he, List.mem_append, List.mem_singleton, not_or]
      exact ⟨hd k (by simp [hk]), fun hke => hl.1 (hke ▸ hk)⟩
    rw [update_cons, ih hl.2 hd', entries_set_of_not_mem he]
    simp

theorem get?_update_of_not_mem (h : k ∉ Entries.keys l) : ∀ {d : OrderedDict α β},
    (d.update l).get? k = d.get? k := by
  induction l with
  | nil => exact rfl
  | cons e l ih =>
    intro d
    rw [Entries.keys_cons, List.mem_cons, not_or] at h
    rw [update_cons, ih h.2, get?_set_of_ne h.1]

theorem moveToEnd_set (h : k ∉ d.keys) (v : β) : (d.set k v).moveToEnd k = d.set k v := by
  have herase : (d.set k v).erase k = d := by
    refine ext ?_
    show Entries.erase (d.set k v).entries k = d.entries
    rw [entries_set_of_not_mem h, Entries.erase, List.filter_append]
    simpa [Entries.erase] using Entries.erase_of_not_mem h
  rw [moveToEnd, get?_set_self]
  exact congrArg (·.set k v) herase

/-! ### Changing all values -/

variable {γ : Type w}

omit [DecidableEq α] in
theorem keys_mapped (f : β → γ) (l : List (α × β)) :
    Entries.keys (l.map fun e => (e.1, f e.2)) = Entries.keys l := by simp [Entries.keys]

def map (f : β → γ) (d : OrderedDict α β) : OrderedDict α γ :=
  ⟨d.entries.map fun e => (e.1, f e.2), by rw [keys_mapped]; exact d.nodup⟩

omit [DecidableEq α] in
theorem keys_map (f : β → γ) (d : OrderedDict α β) : (d.map f).keys = d.keys := keys_mapped ..

theorem get?_map (f : β → γ) (d : OrderedDict α β) (k : α) :
    (d.map f).get? k = (d.get? k).map f := by
  show Entries.get? (d.entries.map fun e => (e.1, f e.2)) k = (Entries.get? d.entries k).map f
  induction d.entries with
  | nil => rfl
  | cons e l ih =>
    by_cases he : e.1 = k
    · simp [Entries.get?, he]
    · simp [Entries.get?, he, ih]

theorem map_set (f : β → γ) (d : OrderedDict α β) (k : α) (v : β) :
    (d.set k v).map f = (d.map f).set k (f v) := by
  refine ext ?_
  show (Entries.set d.entries k v).map _ = Entries.set (d.entries.map fun e => (e.1, f e.2)) k (f v)
  induction d.entries with
  | nil => rfl
  | cons e l ih =>
    by_cases he : e.1 = k
    · simp [Entries.set, he]
    · simp [Entries.set, he, ih]

/-- The entries whose values pass. -/
def filter (p : β → Bool) (d : OrderedDict α β) : OrderedDict α β :=
  ⟨d.entries.filter fun e => p e.2, (List.filter_sublist.map Prod.fst).nodup d.nodup⟩

theorem get?_filter (p : β → Bool) (d : OrderedDict α β) (k : α) :
    (d.filter p).get? k = (d.get? k).filter p := by
  refine Option.ext fun v => ?_
  rw [get?_eq_some_iff, Option.filter_eq_some_iff, get?_eq_some_iff]
  exact List.mem_filter

omit [DecidableEq α] in
theorem sum_map (f : β → γ) (d : OrderedDict α β) (w : α → γ → Nat) :
    (d.map f).sum w = d.sum fun k v => w k (f v) := by
  simp [sum, Entries.sum, map, Function.comp_def]

end OrderedDict
