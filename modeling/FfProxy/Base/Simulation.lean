import Mathlib.Logic.Basic

/-!
# Fallible computations and lockstep simulation

A sequence of fallible steps goes as far as they succeed. Two computations that take the same
steps fail with the same error or succeed with related results, and runs of related machines
are related.
-/

namespace FfProxy.Base

variable {ε α β γ : Type} {R : α → β → Prop}

/-- A step that succeeds hands its result to the next one. -/
theorem bind_of_ok {x : Except ε α} {a : α} (h : x = .ok a) (f : α → Except ε β) :
    (x >>= f) = f a := by
  rw [h]
  rfl

/-- A step that fails is the last one. -/
theorem bind_of_error {x : Except ε α} {e : ε} (h : x = .error e) (f : α → Except ε β) :
    (x >>= f) = .error e := by
  rw [h]
  rfl

/-- A step fails or succeeds. -/
theorem error_or_ok (x : Except ε α) : (∃ e, x = .error e) ∨ ∃ a, x = .ok a := by
  cases x with
  | error e => exact Or.inl ⟨e, rfl⟩
  | ok a => exact Or.inr ⟨a, rfl⟩

/-- A step whose result is there has succeeded. -/
theorem exists_ok_of_isSome {x : Except ε α} (h : x.toOption.isSome = true) : ∃ a, x = .ok a := by
  cases x with
  | error e => cases h
  | ok a => exact ⟨a, rfl⟩

/-- What is seen of the result of a step that succeeds. -/
theorem eq_of_map_toOption {x : Except ε α} {a : α} {f : α → β} {b : β}
    (h : x.toOption.map f = some b) (hx : x = .ok a) : f a = b := by
  rw [hx] at h
  exact Option.some.inj h

/-- A step whose result can be looked at has succeeded. -/
theorem exists_ok_of_map {x : Except ε α} {f : α → β} {b : β} (h : x.toOption.map f = some b) :
    ∃ a, x = .ok a ∧ f a = b := by
  cases x with
  | error e => cases h
  | ok a => exact ⟨a, rfl, eq_of_map_toOption h rfl⟩

/-- A sequence of two steps succeeds when both do. -/
theorem bind_eq_ok {x : Except ε α} {f : α → Except ε β} {b : β} (h : (x >>= f) = .ok b) :
    ∃ a, x = .ok a ∧ f a = .ok b := by
  cases x with
  | error e => cases h
  | ok a => exact ⟨a, rfl, h⟩

/-- Only what follows a success has to be compared. -/
theorem bind_congr_ok {x : Except ε α} {f g : α → Except ε β} (h : ∀ a, x = .ok a → f a = g a) :
    (x >>= f) = x >>= g := by
  cases x with
  | error e => rfl
  | ok a => exact h a rfl

/-- The last step of a run. -/
theorem foldlM_concat_eq_ok {f : α → γ → Except ε α} {a b : α} {cs : List γ} {c : γ} :
    (cs ++ [c]).foldlM f a = .ok b ↔ ∃ a', cs.foldlM f a = .ok a' ∧ f a' c = .ok b := by
  rw [List.foldlM_append]
  constructor
  · intro h
    obtain ⟨a', hfront, h⟩ := bind_eq_ok h
    obtain ⟨b', hlast, h⟩ := bind_eq_ok h
    cases h
    exact ⟨a', hfront, hlast⟩
  · rintro ⟨a', hfront, hlast⟩
    rw [bind_of_ok hfront]
    exact bind_of_ok hlast _

/-- What every step keeps, a run keeps. -/
theorem foldlM_keeps {P : α → Prop} {f : α → γ → Except ε α}
    (hstep : ∀ {a a' : α} {c : γ}, P a → f a c = .ok a' → P a') {a b : α} {cs : List γ} (h : P a)
    (hrun : cs.foldlM f a = .ok b) : P b := by
  induction cs generalizing a with
  | nil =>
    cases hrun
    exact h
  | cons c cs ih =>
    obtain ⟨a', hfirst, hrest⟩ := bind_eq_ok hrun
    exact ih (hstep h hfirst) hrest

/-- Both fail alike, or both succeed with related results. -/
inductive ExceptRel (R : α → β → Prop) : Except ε α → Except ε β → Prop
  | ok {a : α} {b : β} (h : R a b) : ExceptRel R (.ok a) (.ok b)
  | error (e : ε) : ExceptRel R (.error e) (.error e)

namespace ExceptRel

variable {x : Except ε α} {y : Except ε β}

/-- The two outcomes. -/
theorem outcome (h : ExceptRel R x y) :
    (∃ a b, x = .ok a ∧ y = .ok b ∧ R a b) ∨ ∃ e, x = .error e ∧ y = .error e := by
  cases h with
  | ok h => exact Or.inl ⟨_, _, rfl, rfl, h⟩
  | error e => exact Or.inr ⟨e, rfl, rfl⟩

/-- A result on the left has a related one on the right. -/
theorem of_ok_left {a : α} (h : ExceptRel R x y) (hx : x = .ok a) : ∃ b, y = .ok b ∧ R a b := by
  subst hx
  cases h with
  | ok h => exact ⟨_, rfl, h⟩

/-- A result on the right has a related one on the left. -/
theorem of_ok_right {b : β} (h : ExceptRel R x y) (hy : y = .ok b) : ∃ a, x = .ok a ∧ R a b := by
  subst hy
  cases h with
  | ok h => exact ⟨_, rfl, h⟩

/-- The two sides can be exchanged. -/
theorem symm (h : ExceptRel R x y) : ExceptRel (fun b a ↦ R a b) y x := by
  cases h with
  | ok h => exact .ok h
  | error e => exact .error e

/-- Machines whose steps are related have related runs. -/
theorem foldlM {f : α → γ → Except ε α} {g : β → γ → Except ε β}
    (hstep : ∀ a b c, R a b → ExceptRel R (f a c) (g b c)) {a : α} {b : β} (h : R a b)
    (cs : List γ) : ExceptRel R (cs.foldlM f a) (cs.foldlM g b) := by
  induction cs generalizing a b with
  | nil => exact .ok h
  | cons c cs ih =>
    rw [List.foldlM_cons, List.foldlM_cons]
    obtain ⟨a', b', hf, hg, h'⟩ | ⟨e, hf, hg⟩ := (hstep a b c h).outcome
    · rw [hf, hg]
      exact ih h'
    · rw [hf, hg]
      exact .error e

end ExceptRel

end FfProxy.Base
