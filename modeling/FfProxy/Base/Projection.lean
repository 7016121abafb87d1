import FfProxy.Base.Simulation

/-!
# Runs seen from one part of the state

A machine whose state has a part that moves by rules of its own: every step of the machine
is a move of the part. A run of the machine is then a sequence of moves of the part.
-/

namespace FfProxy.Base

variable {σ ε ι φ : Type} {move : φ → ι → φ → Prop} {l : φ} {es : List ι}

/-- A sequence of moves, one for each event. -/
inductive Moves (move : φ → ι → φ → Prop) : φ → List ι → φ → Prop
  | nil (l : φ) : Moves move l [] l
  | cons {l l₁ l₂ : φ} {e : ι} {es : List ι} : move l e l₁ → Moves move l₁ es l₂ →
      Moves move l (e :: es) l₂

namespace Moves

/-- If the steps of a run are moves of a part of the state, the run is a sequence of moves. -/
theorem of_foldlM {step : σ → ι → Except ε σ} {Inv : σ → Prop} {part : σ → φ → Prop}
    (hstep : ∀ e ∈ es, ∀ s s' l, Inv s → part s l → step s e = .ok s' →
      Inv s' ∧ ∃ l', move l e l' ∧ part s' l')
    {s s' : σ} (hinv : Inv s) (hpart : part s l) (hrun : es.foldlM step s = .ok s') :
    Inv s' ∧ ∃ l', Moves move l es l' ∧ part s' l' := by
  induction es generalizing s l with
  | nil =>
    cases hrun
    exact ⟨hinv, l, .nil l, hpart⟩
  | cons e es ih =>
    obtain ⟨s₁, hfirst, hrest⟩ := bind_eq_ok hrun
    obtain ⟨hinv₁, l₁, hmove, hpart₁⟩ := hstep e List.mem_cons_self s s₁ l hinv hpart hfirst
    obtain ⟨hinv', l', hmoves, hpart'⟩ :=
      ih (fun e he ↦ hstep e (List.mem_cons_of_mem _ he)) hinv₁ hpart₁ hrest
    exact ⟨hinv', l', .cons hmove hmoves, hpart'⟩

end Moves

end FfProxy.Base
