import Mathlib.Data.List.Basic

/-!
# Journals

A journal is the list of what a system did, the oldest entry first.  `since`
says that one entry was made and another one not since; `Outside` and
`Uninterrupted` say that some entry is never made in between.
-/

universe u

variable {ε : Type u} [DecidableEq ε]

/-- One more entry, seen from whether `start` was made and `stop` not since. -/
def sinceStep (start stop : ε) (open_ : Bool) (e : ε) : Bool :=
  if e = start then true else if e = stop then false else open_

/-- `start` was made, and `stop` was not made since. -/
def since (start stop : ε) (log : List ε) : Bool := log.foldl (sinceStep start stop) false

section Since

variable {start stop bad e : ε} {log ext pre mid post : List ε}

@[simp] theorem since_nil : since start stop [] = false := rfl

theorem since_snoc : since start stop (log ++ [e]) = sinceStep start stop (since start stop log) e := by
  simp [since]

theorem foldl_sinceStep_of_not_mem {open_ : Bool} (h : start ∉ ext) (h' : stop ∉ ext) :
    ext.foldl (sinceStep start stop) open_ = open_ := by
  induction ext generalizing open_ with
  | nil => rfl
  | cons e rest ih =>
    simp only [List.mem_cons, not_or] at h h'
    simp only [List.foldl_cons, sinceStep, if_neg (Ne.symm h.1), if_neg (Ne.symm h'.1)]
    exact ih h.2 h'.2

theorem since_append_of_not_mem (h : start ∉ ext) (h' : stop ∉ ext) :
    since start stop (log ++ ext) = since start stop log := by
  simp only [since, List.foldl_append]
  exact foldl_sinceStep_of_not_mem h h'

/-- What is open after entries that open nothing was open before, and they do
not close it. -/
theorem since_of_append (h : start ∉ ext) (hopen : since start stop (log ++ ext) = true) :
    since start stop log = true ∧ stop ∉ ext := by
  induction ext generalizing log with
  | nil => exact ⟨by rwa [List.append_nil] at hopen, List.not_mem_nil⟩
  | cons e rest ih =>
    simp only [List.mem_cons, not_or] at h
    rw [List.append_cons] at hopen
    obtain ⟨hfirst, hrest⟩ := ih h.2 hopen
    rw [since_snoc, sinceStep, if_neg (Ne.symm h.1)] at hfirst
    split at hfirst
    · cases hfirst
    · rename_i hne
      exact ⟨hfirst, by simp [Ne.symm hne, hrest]⟩

/-- Once open, only `stop` closes. -/
theorem foldl_sinceStep_open (h : stop ∉ ext) : ext.foldl (sinceStep start stop) true = true := by
  induction ext with
  | nil => rfl
  | cons e rest ih =>
    simp only [List.mem_cons, not_or] at h
    have he : sinceStep start stop true e = true := by
      simp only [sinceStep, if_neg (Ne.symm h.1), ite_self]
    rw [List.foldl_cons, he]
    exact ih h.2

theorem since_start (h : stop ∉ mid) : since start stop (pre ++ start :: mid) = true := by
  simp only [since, List.foldl_append, List.foldl_cons, sinceStep, if_true]
  exact foldl_sinceStep_open h

/-- If nothing is open any more, every `start` has been followed by a `stop`. -/
theorem stop_mem_of_not_since (h : since start stop (pre ++ start :: post) = false) :
    stop ∈ post := by
  by_contra hstop
  rw [since_start hstop] at h
  cases h

end Since

/-- `bad` is made only while nothing is open. -/
def Outside (start stop bad : ε) (log : List ε) : Prop :=
  ∀ pre post, log = pre ++ bad :: post → since start stop pre = false

/-- `bad` is not made between a `start` and the next `stop`. -/
def Uninterrupted (start stop bad : ε) (log : List ε) : Prop :=
  ∀ pre mid post, log = pre ++ start :: mid ++ stop :: post → stop ∉ mid → bad ∉ mid

section Rules

variable {start stop bad e : ε} {log ext : List ε}

theorem outside_nil : Outside start stop bad [] := by
  intro pre post h
  simp at h

section

variable (h : Outside start stop bad log)
include h

theorem Outside.snoc
    (he : e = bad → since start stop log = false) : Outside start stop bad (log ++ [e]) := by
  intro pre post hsplit
  rcases List.eq_nil_or_concat post with rfl | ⟨post, x, rfl⟩
  · obtain ⟨hlog, hlast⟩ := List.append_inj' hsplit rfl
    cases hlast
    rw [← hlog]
    exact he rfl
  · rw [List.concat_eq_append, ← List.cons_append, ← List.append_assoc] at hsplit
    exact h pre post (List.append_inj' hsplit rfl).1

theorem Outside.append (hbad : bad ∉ ext) :
    Outside start stop bad (log ++ ext) := by
  induction ext generalizing log with
  | nil => rwa [List.append_nil]
  | cons e rest ih =>
    simp only [List.mem_cons, not_or] at hbad
    rw [List.append_cons]
    exact ih (h.snoc fun he => absurd he.symm hbad.1) hbad.2

/-- The same for entries made while nothing is open, if they open nothing. -/
theorem Outside.append_of_closed
    (hclosed : since start stop log = false) (hstart : start ∉ ext) :
    Outside start stop bad (log ++ ext) := by
  induction ext generalizing log with
  | nil => rwa [List.append_nil]
  | cons e rest ih =>
    simp only [List.mem_cons, not_or] at hstart
    rw [List.append_cons]
    have hstill : since start stop (log ++ [e]) = false := by
      rw [since_snoc, sinceStep, if_neg (Ne.symm hstart.1), hclosed, ite_self]
    exact ih (h.snoc fun _ => hclosed) hstill hstart.2

theorem Outside.uninterrupted :
    Uninterrupted start stop bad log := by
  intro pre mid post hsplit hstop hbad
  obtain ⟨before, after, rfl⟩ := List.append_of_mem hbad
  simp only [List.mem_append, List.mem_cons, not_or] at hstop
  have hclosed := h (pre ++ start :: before) (after ++ stop :: post) (by rw [hsplit]; simp)
  rw [since_start hstop.1] at hclosed
  cases hclosed

end

omit [DecidableEq ε] in
/-- Entries that close nothing interrupt nothing. -/
theorem Uninterrupted.append (h : Uninterrupted start stop bad log) (hstop : stop ∉ ext) :
    Uninterrupted start stop bad (log ++ ext) := by
  induction ext generalizing log with
  | nil => rwa [List.append_nil]
  | cons e rest ih =>
    simp only [List.mem_cons, not_or] at hstop
    rw [List.append_cons]
    refine ih ?_ hstop.2
    intro pre mid post hsplit
    rcases List.eq_nil_or_concat post with rfl | ⟨post, x, rfl⟩
    · exact absurd (List.append_inj' hsplit rfl).2 (by simpa using Ne.symm hstop.1)
    · rw [List.concat_eq_append, ← List.cons_append, ← List.append_assoc] at hsplit
      exact h pre mid post (List.append_inj' hsplit rfl).1

end Rules
