import Mathlib.Data.List.Forall2

/-!
# Computations that may raise

Inversion lemmas for `Except`.  A computation that returned did so through
every one of its steps; the lemmas peel the steps off one at a time, so that
no proof unfolds the monad.
-/

universe u v

namespace Except

variable {ε α β : Type u}

variable {f : α → Except ε β} {x : Except ε α} {b : α} {l : List α} {out : List β}

theorem bind_eq_ok {b : β} :
    (x >>= f) = .ok b ↔ ∃ a, x = .ok a ∧ f a = .ok b := by
  cases x with
  | error e =>
    constructor
    · intro h; cases h
    · rintro ⟨a, h, -⟩; cases h
  | ok a =>
    constructor
    · intro h; exact ⟨a, rfl, h⟩
    · rintro ⟨a', h, h'⟩; cases h; exact h'

/-- A sequence returns when both of its parts do. -/
theorem exists_bind_eq_ok (hx : ∃ a, x = .ok a)
    (hf : ∀ a, ∃ b, f a = .ok b) : ∃ b, (x >>= f) = .ok b := by
  obtain ⟨a, ha⟩ := hx
  obtain ⟨b, hb⟩ := hf a
  exact ⟨b, bind_eq_ok.mpr ⟨a, ha, hb⟩⟩

/-- What holds after a computation: `Q` of its result when it returned, `R` of
the exception when it raised. -/
protected def Post (x : Except ε α) (Q : α → Prop) (R : ε → Prop) : Prop :=
  match x with
  | .ok a => Q a
  | .error e => R e

section Post

variable {Q : α → Prop} {R R' : ε → Prop}

theorem Post.bind {Q' : β → Prop} (h : x.Post Q R) (hf : ∀ a, Q a → (f a).Post Q' R')
    (hR : ∀ e, R e → R' e) : (x >>= f).Post Q' R' := by
  cases x with
  | ok a => exact hf a h
  | error e => exact hR e h

theorem Post.mono {Q' : α → Prop} (h : x.Post Q R) (hQ : ∀ a, Q a → Q' a)
    (hR : ∀ e, R e → R' e) : x.Post Q' R' := by
  cases x with
  | ok a => exact hQ a h
  | error e => exact hR e h

end Post

@[simp] theorem pure_eq_ok {a : α} : (pure a : Except ε α) = .ok b ↔ a = b := by
  constructor
  · intro h; cases h; rfl
  · rintro rfl; rfl

@[simp] theorem throw_ne_ok {e : ε} : (throw e : Except ε α) = .ok b ↔ False := by
  constructor
  · intro h; cases h
  · exact False.elim

theorem ite_throw_eq_ok {p : Prop} [Decidable p] {e : ε} :
    (if p then throw e else x) = .ok b ↔ ¬ p ∧ x = .ok b := by
  by_cases hp : p
  · simp [hp]
  · simp [hp]

theorem mapM_eq_ok : ∀ {out : List β},
    l.mapM f = .ok out ↔ List.Forall₂ (fun a b => f a = .ok b) l out := by
  induction l with
  | nil =>
    intro out
    rw [List.mapM_nil, pure_eq_ok, List.forall₂_nil_left_iff, eq_comm]
  | cons a l ih =>
    intro out
    rw [List.mapM_cons, bind_eq_ok]
    constructor
    · rintro ⟨b, hb, h⟩
      obtain ⟨rest, hrest, h⟩ := bind_eq_ok.mp h
      cases h
      exact .cons hb (ih.mp hrest)
    · intro h
      cases h with
      | cons hb hrest => exact ⟨_, hb, bind_eq_ok.mpr ⟨_, ih.mpr hrest, rfl⟩⟩

/-- The steps of a loop that returned gave its results. -/
theorem map_of_mapM (h : l.mapM f = .ok out) : l.map f = out.map .ok := by
  rw [← List.forall₂_eq_eq_eq, List.forall₂_map_left_iff, List.forall₂_map_right_iff]
  exact mapM_eq_ok.mp h

theorem mem_of_mapM (h : l.mapM f = .ok out) {b : β} : b ∈ out ↔ ∃ a ∈ l, f a = .ok b := by
  rw [← List.mem_map, map_of_mapM h, List.mem_map_of_injective fun _ _ => ok.inj]

theorem exists_of_mapM (h : l.mapM f = .ok out) {a : α} (ha : a ∈ l) : ∃ b, f a = .ok b := by
  obtain ⟨b, -, hb⟩ := List.mem_map.mp (map_of_mapM h ▸ List.mem_map_of_mem ha)
  exact ⟨b, hb.symm⟩

theorem mapM_eq_map {g : α → β} (h : ∀ a ∈ l, f a = .ok (g a)) :
    l.mapM f = .ok (l.map g) := by
  rw [mapM_eq_ok, List.forall₂_map_right_iff]
  exact List.forall₂_same.mpr h

/-- Two loops over one list, the second following the first step by step. -/
theorem mapM_rel {γ : Type u} {g : α → Except ε γ} {R : β → γ → Prop} (h : l.mapM f = .ok out)
    (hR : ∀ a ∈ l, ∀ b, f a = .ok b → ∃ c, g a = .ok c ∧ R b c) :
    ∃ out', l.mapM g = .ok out' ∧ List.Forall₂ R out out' := by
  have hall := mapM_eq_ok.mp h
  clear h
  induction hall with
  | nil => exact ⟨[], rfl, .nil⟩
  | cons ha _ ih =>
    obtain ⟨c, hc, hbc⟩ := hR _ List.mem_cons_self _ ha
    obtain ⟨out', hout', hrest⟩ := ih (List.forall_mem_cons.mp hR).2
    refine ⟨c :: out', ?_, .cons hbc hrest⟩
    exact mapM_eq_ok.mpr (.cons hc (mapM_eq_ok.mp hout'))

theorem exists_mapM_eq_ok (h : ∀ a ∈ l, ∃ b, f a = .ok b) :
    ∃ out, l.mapM f = .ok out := by
  induction l with
  | nil => exact ⟨[], rfl⟩
  | cons a l ih =>
    rw [List.mapM_cons]
    exact exists_bind_eq_ok (h a List.mem_cons_self) fun _ =>
      exists_bind_eq_ok (ih (List.forall_mem_cons.mp h).2) fun _ => ⟨_, rfl⟩

end Except

namespace Option

variable {ε α : Type u}

/-- The value of an option, or a raise. -/
def orRaise (x : Option α) (e : ε) : Except ε α :=
  match x with
  | some a => .ok a
  | none => .error e

@[simp] theorem orRaise_eq_ok {x : Option α} {e : ε} {a : α} :
    x.orRaise e = .ok a ↔ x = some a := by
  cases x with
  | none => simp [orRaise]
  | some b => simp [orRaise]

end Option
