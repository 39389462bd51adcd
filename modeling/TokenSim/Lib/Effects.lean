import Mathlib.Logic.Basic

/-!
# Computations with state that may raise

`EStateM ε σ` is state with exceptions, where a computation that raises leaves
behind the state it had reached.  `Post x s Q R` says what holds after running
`x` from `s`: `Q` of the result and the state when it returned, `R` of the
exception and the state when it raised.  The equations reduce `Post` of a
program to `Post` of its parts; callers chain them with `Post.mono` and
`Post.bind` and never unfold the monad.

`Keeps P x` is the case of an invariant, kept whether `x` returns or raises.
-/

universe u

namespace EStateM

variable {ε σ α β : Type u} {x : EStateM ε σ α} {f : α → EStateM ε σ β} {s : σ}
  {Q Q' : α → σ → Prop} {R R' : ε → σ → Prop}

/-- What holds after a computation, when it returned and when it raised. -/
def Post (x : EStateM ε σ α) (s : σ) (Q : α → σ → Prop) (R : ε → σ → Prop) : Prop :=
  match x s with
  | .ok a s' => Q a s'
  | .error e s' => R e s'

/-- Run an `Except` computation, which has no access to the state. -/
def ofExcept (x : Except ε α) : EStateM ε σ α := fun s =>
  match x with
  | .ok a => .ok a s
  | .error e => .error e s

/-- The state that a computation ends in, whether it returned or raised. -/
def finalState (x : EStateM ε σ α) (s : σ) : σ :=
  match x s with
  | .ok _ s' => s'
  | .error _ s' => s'

@[simp] theorem post_pure {a : α} : Post (pure a : EStateM ε σ α) s Q R ↔ Q a s := Iff.rfl

@[simp] theorem post_throw {e : ε} : Post (throw e : EStateM ε σ α) s Q R ↔ R e s := Iff.rfl

@[simp] theorem post_get {Q : σ → σ → Prop} : Post (get : EStateM ε σ σ) s Q R ↔ Q s s := Iff.rfl

@[simp] theorem post_set {t : σ} {Q : PUnit → σ → Prop} :
    Post (set t : EStateM ε σ PUnit) s Q R ↔ Q ⟨⟩ t := Iff.rfl

@[simp] theorem post_modify {g : σ → σ} {Q : PUnit → σ → Prop} :
    Post (modify g : EStateM ε σ PUnit) s Q R ↔ Q ⟨⟩ (g s) := Iff.rfl

theorem post_bind {Q : β → σ → Prop} :
    Post (x >>= f) s Q R ↔ Post x s (fun a s' => Post (f a) s' Q R) R := by
  unfold Post
  show (match EStateM.bind x f s with | .ok a s' => Q a s' | .error e s' => R e s') ↔ _
  unfold EStateM.bind
  cases x s with
  | ok a s' => exact .rfl
  | error e s' => exact .rfl

theorem Post.mono (h : Post x s Q R) (hQ : ∀ a s', Q a s' → Q' a s')
    (hR : ∀ e s', R e s' → R' e s') : Post x s Q' R' := by
  unfold Post at *
  cases hx : x s with
  | ok a s' => rw [hx] at h; exact hQ a s' h
  | error e s' => rw [hx] at h; exact hR e s' h

theorem Post.bind {Q' : β → σ → Prop} (h : Post x s Q R)
    (hf : ∀ a s', Q a s' → Post (f a) s' Q' R') (hR : ∀ e s', R e s' → R' e s') :
    Post (x >>= f) s Q' R' :=
  post_bind.mpr (h.mono hf hR)

theorem post_of_eq {a : α} {s' : σ} (h : x s = .ok a s') (hQ : Q a s') : Post x s Q R := by
  unfold Post
  rw [h]
  exact hQ

/-- A computation that cannot raise returns. -/
theorem Post.returns (h : Post x s Q fun _ _ => False) : ∃ a s', x s = .ok a s' ∧ Q a s' := by
  unfold Post at h
  cases hx : x s with
  | ok a s' => rw [hx] at h; exact ⟨a, s', rfl, h⟩
  | error e s' => rw [hx] at h; exact h.elim

theorem post_ofExcept {y : Except ε α} : Post (ofExcept y : EStateM ε σ α) s Q R ↔
    (∀ a, y = .ok a → Q a s) ∧ ∀ e, y = .error e → R e s := by
  cases y with
  | ok a =>
    constructor
    · intro h
      exact ⟨fun a' ha => by cases ha; exact h, nofun⟩
    · intro h
      exact h.1 a rfl
  | error e =>
    constructor
    · intro h
      exact ⟨nofun, fun e' he => by cases he; exact h⟩
    · intro h
      exact h.2 e rfl

theorem post_finalState {P : σ → Prop} :
    Post x s (fun _ => P) (fun _ => P) ↔ P (finalState x s) := by
  unfold Post finalState
  cases x s with
  | ok a s' => exact .rfl
  | error e s' => exact .rfl

/-- An invariant, kept whether the computation returns or raises. -/
def Keeps (P : σ → Prop) (x : EStateM ε σ α) : Prop :=
  ∀ s, P s → Post x s (fun _ => P) (fun _ => P)

section Keeps

variable {P : σ → Prop}

theorem Keeps.pure (a : α) : Keeps P (Pure.pure a : EStateM ε σ α) := fun _ hs => hs

theorem Keeps.modify {g : σ → σ} (hg : ∀ s, P s → P (g s)) :
    Keeps P (modifyGet fun s => (⟨⟩, g s) : EStateM ε σ PUnit) := hg

theorem Keeps.bind (hx : Keeps P x) (hf : ∀ a, Keeps P (f a)) : Keeps P (x >>= f) :=
  fun s hs => (hx s hs).bind (fun a s' hs' => hf a s' hs') fun _ _ h => h

theorem Keeps.get_bind {f : σ → EStateM ε σ β} (hf : ∀ s, P s → Post (f s) s (fun _ => P) fun _ => P) :
    Keeps P (get >>= f) :=
  fun s hs => post_bind.mpr (hf s hs)

theorem Keeps.ite {c : Prop} [Decidable c] {y : EStateM ε σ α} (hx : c → Keeps P x)
    (hy : ¬ c → Keeps P y) : Keeps P (if c then x else y) := by
  by_cases hc : c
  · rw [if_pos hc]; exact hx hc
  · rw [if_neg hc]; exact hy hc

end Keeps

end EStateM
