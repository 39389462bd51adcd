import Mathlib.Logic.Basic

/-!
# Runs of a step function

A system is a partial step function `step : σ → α → Option σ`: in state `s` the
action `a` leads to `step s a`, or is not possible.  `Reaches step ok` relates
two states when a finite sequence of actions leads from one to the other and
every action is admissible (`ok`) in the state it is taken in.  With `ok` true
everywhere these are all runs.

`Reaches.invariant` is the rule by which properties of runs are proved: what
holds at the start and is kept by every admissible step holds at the end.
-/

universe u v

variable {σ : Type u} {α : Type v}

/-- `t` is reached from `s` by admissible steps. -/
inductive Reaches (step : σ → α → Option σ) (ok : σ → α → Prop) : σ → σ → Prop where
  | refl (s : σ) : Reaches step ok s s
  | tail {s t u : σ} {a : α} :
      Reaches step ok s t → ok t a → step t a = some u → Reaches step ok s u

namespace Reaches

variable {step : σ → α → Option σ} {ok ok' : σ → α → Prop} {s t u : σ}

/-- What every admissible step keeps holds at the end of a run. -/
theorem invariant {P : σ → Prop} (h : Reaches step ok s t) (h₀ : P s)
    (hstep : ∀ {t a u}, P t → ok t a → step t a = some u → P u) : P t := by
  induction h with
  | refl => exact h₀
  | tail _ hok hs ih => exact hstep ih hok hs

theorem trans (h : Reaches step ok s t) (h' : Reaches step ok t u) : Reaches step ok s u := by
  induction h' with
  | refl => exact h
  | tail _ hok hs ih => exact .tail ih hok hs

/-- A run under a stronger condition is a run under a weaker one, where the
weaker one may also be derived from an invariant. -/
theorem mono_of_invariant {P : σ → Prop} (h : Reaches step ok s t) (h₀ : P s)
    (hstep : ∀ {t a u}, P t → ok t a → step t a = some u → P u)
    (hok : ∀ {t a u}, P t → ok t a → step t a = some u → ok' t a) :
    Reaches step ok' s t ∧ P t := by
  induction h with
  | refl => exact ⟨.refl _, h₀⟩
  | tail _ hok' hs ih => exact ⟨.tail ih.1 (hok ih.2 hok' hs) hs, hstep ih.2 hok' hs⟩

/-- Where the entries of a list can be dealt with one after the other, a run deals with
all of them. -/
theorem exists_forall {ι : Type*} {P : ι → σ → Prop} {I : σ → Prop} {l : List ι}
    (hkept : ∀ {a t e u}, P a t → ok t e → step t e = some u → P a u)
    (hnext : ∀ {before a after t}, l = before ++ a :: after → I t → (∀ b ∈ before, P b t) →
      ∃ u, Reaches step ok t u ∧ I u ∧ P a u)
    (h : I s) : ∃ t, Reaches step ok s t ∧ I t ∧ ∀ a ∈ l, P a t := by
  have hrest : ∀ after before s, l = before ++ after → I s → (∀ b ∈ before, P b s) →
      ∃ t, Reaches step ok s t ∧ I t ∧ ∀ a ∈ l, P a t := by
    intro after
    induction after with
    | nil =>
      intro before s heq hs hbefore
      exact ⟨s, .refl s, hs, by simpa [heq] using hbefore⟩
    | cons a after ih =>
      intro before s heq hs hbefore
      obtain ⟨t, hst, ht, ha⟩ := hnext heq hs hbefore
      obtain ⟨u, htu, hu⟩ := ih (before ++ [a]) t (by simp [heq]) ht (List.forall_mem_append.mpr
        ⟨fun b hb => hst.invariant (hbefore b hb) hkept, List.forall_mem_singleton.mpr ha⟩)
      exact ⟨u, hst.trans htu, hu⟩
  exact hrest l [] s rfl h nofun

end Reaches

/-- Take actions one after the other, as long as they are possible and
admissible. -/
def runActions (step : σ → α → Option σ) (ok : σ → α → Prop) [∀ s a, Decidable (ok s a)] :
    σ → List α → Option σ
  | s, [] => some s
  | s, a :: rest =>
    if ok s a then (step s a).bind fun t => runActions step ok t rest else none

theorem reaches_of_runActions {step : σ → α → Option σ} {ok : σ → α → Prop}
    [∀ s a, Decidable (ok s a)] : ∀ {actions : List α} {s t : σ},
    runActions step ok s actions = some t → Reaches step ok s t
  | [], s, t, h => by
    cases h
    exact .refl s
  | a :: rest, s, t, h => by
    rw [runActions] at h
    split at h
    · rename_i hok
      obtain ⟨u, hu, hrest⟩ := Option.bind_eq_some_iff.mp h
      exact (Reaches.tail (.refl s) hok hu).trans (reaches_of_runActions hrest)
    · cases h

/-- The end of a run that a computation found, with a property that it
checked. -/
theorem exists_reaches (step : σ → α → Option σ) (ok : σ → α → Prop)
    [∀ s a, Decidable (ok s a)] (s : σ) (actions : List α) (P : σ → Prop) [DecidablePred P]
    (h : (runActions step ok s actions).any (P ·) = true) : ∃ t, Reaches step ok s t ∧ P t := by
  obtain ⟨t, ht, hP⟩ := (Option.any_eq_true ..).mp h
  exact ⟨t, reaches_of_runActions ht, by simpa using hP⟩

/-! ## The states of a run -/

/-- A run from `s` to `t` that visits `states`, the last one first. -/
inductive Visits (step : σ → α → Option σ) (ok : σ → α → Prop) : σ → List σ → σ → Prop where
  | refl (s : σ) : Visits step ok s [s] s
  | tail {s t u : σ} {states : List σ} {a : α} :
      Visits step ok s states t → ok t a → step t a = some u → Visits step ok s (u :: states) u

namespace Visits

variable {step : σ → α → Option σ} {ok : σ → α → Prop} {s t : σ} {states : List σ}

theorem last_mem (h : Visits step ok s states t) : t ∈ states := by
  cases h with
  | refl => exact List.mem_cons_self ..
  | tail _ _ _ => exact List.mem_cons_self ..

theorem reaches (h : Visits step ok s states t) :
    ∀ u ∈ states, Reaches step ok s u ∧ Reaches step ok u t := by
  induction h with
  | refl =>
    intro u hu
    cases List.mem_singleton.mp hu
    exact ⟨.refl _, .refl _⟩
  | tail hrun hok hs ih =>
    intro u hu
    rcases List.mem_cons.mp hu with rfl | hu
    · exact ⟨.tail (ih _ hrun.last_mem).1 hok hs, .refl _⟩
    · exact ⟨(ih u hu).1, .tail (ih u hu).2 hok hs⟩

end Visits

/-- The states that actions lead through, the last one first. -/
def visitActions (step : σ → α → Option σ) (ok : σ → α → Prop) [∀ s a, Decidable (ok s a)] :
    List σ → σ → List α → Option (List σ × σ)
  | states, s, [] => some (states, s)
  | states, s, a :: rest =>
    if ok s a then (step s a).bind fun t => visitActions step ok (t :: states) t rest else none

theorem visits_of_visitActions {step : σ → α → Option σ} {ok : σ → α → Prop}
    [∀ s a, Decidable (ok s a)] {s₀ : σ} : ∀ {actions : List α} {states states' : List σ} {s t : σ},
    Visits step ok s₀ states s → visitActions step ok states s actions = some (states', t) →
    Visits step ok s₀ states' t
  | [], states, states', s, t, hrun, h => by
    cases h
    exact hrun
  | a :: rest, states, states', s, t, hrun, h => by
    rw [visitActions] at h
    split at h
    · rename_i hok
      obtain ⟨u, hu, hrest⟩ := Option.bind_eq_some_iff.mp h
      exact visits_of_visitActions (.tail hrun hok hu) hrest
    · cases h
