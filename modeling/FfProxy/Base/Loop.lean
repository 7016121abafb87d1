import Mathlib.Logic.Basic

/-!
# Loops that call out

A loop that makes one call to the outside in each round. A round sees the number of its call and
the state of the loop; it goes on with a new state, ends with a result or fails. What a round
preserves holds at every round, and what follows from it at the last round holds of the result.
-/

namespace FfProxy.Base

/-- How a round ends: the loop goes on with a state, or is over with a result. -/
inductive Turn (σ τ : Type)
  | again (s : σ)
  | done (t : τ)

variable {ε σ τ : Type} {round : Nat → σ → Except ε (Turn σ τ)}

/-- Run a loop for at most `fuel` rounds from round `call` on; it is `stuck` if it takes more. -/
def runLoop (round : Nat → σ → Except ε (Turn σ τ)) (stuck : ε) : Nat → Nat → σ → Except ε τ
  | 0, _, _ => .error stuck
  | fuel + 1, call, s =>
    match round call s with
    | .error e => .error e
    | .ok (.done t) => .ok t
    | .ok (.again s) => runLoop round stuck fuel (call + 1) s

/-- The loop comes to round `call` and is in state `s` there. -/
inductive RoundAt (round : Nat → σ → Except ε (Turn σ τ)) (start : σ) : Nat → σ → Prop
  | first : RoundAt round start 0 start
  | next {call : Nat} {s s' : σ} (h : RoundAt round start call s)
      (hround : round call s = .ok (.again s')) : RoundAt round start (call + 1) s'

/-- The runs of a loop go through its rounds. -/
theorem RoundAt.runLoop_eq {start s : σ} {call : Nat} (h : RoundAt round start call s)
    (stuck : ε) (fuel : Nat) :
    runLoop round stuck (fuel + call) 0 start = runLoop round stuck fuel call s := by
  induction h generalizing fuel with
  | first => rfl
  | @next call s s' _ hround ih =>
    rw [← Nat.add_assoc, Nat.add_right_comm, ih, runLoop, hround]

/-- An invariant holds at every round. -/
theorem RoundAt.invariant {I : Nat → σ → Prop} {start s : σ} {call : Nat}
    (h : RoundAt round start call s) (hstart : I 0 start)
    (hround : ∀ call s s', I call s → round call s = .ok (.again s') → I (call + 1) s') :
    I call s := by
  induction h with
  | first => exact hstart
  | next _ heq ih => exact hround _ _ _ ih heq

/-- A result has what follows from the invariant at the last round. -/
theorem runLoop_post {I : Nat → σ → Prop} {Q : τ → Prop} {stuck : ε} {fuel call : Nat} {s : σ}
    {t : τ} (h : runLoop round stuck fuel call s = .ok t) (hs : I call s)
    (hround : ∀ call s s', I call s → round call s = .ok (.again s') → I (call + 1) s')
    (hdone : ∀ call s t, I call s → round call s = .ok (.done t) → Q t) : Q t := by
  induction fuel generalizing call s with
  | zero => cases h
  | succ fuel ih =>
    rw [runLoop] at h
    split at h
    · cases h
    · next heq =>
      cases h
      exact hdone _ _ _ hs heq
    · next heq => exact ih h (hround _ _ _ hs heq)

/-- What a round leaves: a state with which the loop may go on, or a result. -/
def Turn.Leaves (I : σ → Prop) (Q : τ → Prop) : Turn σ τ → Prop
  | again s => I s
  | done t => Q t

end FfProxy.Base
