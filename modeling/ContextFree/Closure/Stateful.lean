import ContextFree.Closure

/-!
# ContextFree — closure under a step that keeps a state

A step may keep a state from call to call and let it decide what it answers, so the same set can be
answered differently at another time. The closure hands the state on from one call to the next, also
from a call that it breaks off at, and the state that is left tells how often the step was called.

Main statements: `step_answer` (the calls go on from each other), `afterCalls_counted` (counting the
calls changes nothing about them), and the four ways a call can go,
`statefulRoundsFrom_of_lost`, `statefulRoundsFrom_of_unchanged`, `statefulRoundsFrom_of_grown` and
`statefulRoundsFrom_of_stalled`.
-/

namespace ContextFree

open Std

variable {α : Type} [Ord α]

namespace Closure

variable {σ : Type}

/-- The last answer and the state left after so many calls of the step, each given the answer of the
call before it. -/
def afterCalls (step : SortedSet α → σ → SortedSet α × σ) (start : SortedSet α) (state : σ) :
    Nat → SortedSet α × σ
  | 0 => (start, state)
  | n + 1 =>
    let last := afterCalls step start state n
    step last.1 last.2

/-- What call number `n` answers, and the start for `n = 0`. -/
def answer (step : SortedSet α → σ → SortedSet α × σ) (start : SortedSet α) (state : σ)
    (n : Nat) : SortedSet α :=
  (afterCalls step start state n).1

/-- The state left by call number `n`. -/
def stateAfter (step : SortedSet α → σ → SortedSet α × σ) (start : SortedSet α) (state : σ)
    (n : Nat) : σ :=
  (afterCalls step start state n).2

/-- Each call is given the answer and the state of the call before it. This holds by computation,
and it is all that the rounds need to know about the calls. -/
theorem step_answer (step : SortedSet α → σ → SortedSet α × σ) (start : SortedSet α) (state : σ)
    (n : Nat) : step (answer step start state n) (stateAfter step start state n) =
      (answer step start state (n + 1), stateAfter step start state (n + 1)) :=
  rfl

/-- The step with a count of its calls beside the state. -/
def counted (step : SortedSet α → σ → SortedSet α × σ) (current : SortedSet α) (state : σ × Nat) :
    SortedSet α × σ × Nat :=
  let called := step current state.1
  (called.1, called.2, state.2 + 1)

/-- Counting the calls changes neither answers nor states. Induction on the number of calls. -/
theorem afterCalls_counted (step : SortedSet α → σ → SortedSet α × σ) (start : SortedSet α)
    (state : σ) (n : Nat) : afterCalls (counted step) start (state, 0) n =
      (answer step start state n, stateAfter step start state n, n) := by
  induction n with
  | zero => rfl
  | succ n ih =>
    rw [afterCalls, ih]
    rfl

/-- A step without a state that gives these sets in turn, whatever it is given. -/
def inTurn (sets : Nat → SortedSet α) (k : Nat) (_ : SortedSet α) : SortedSet α :=
  sets k

variable [TransOrd α] [LawfulEqOrd α]

/-- The sets after `current`, the next round being number `k`, and the state that is left. -/
def statefulRoundsFrom (bound : Int) (step : SortedSet α → σ → SortedSet α × σ) (k : Nat)
    (current : SortedSet α) (state : σ) : Logged (Fault α) (List (SortedSet α)) × σ :=
  let new := (step current state).1
  let state := (step current state).2
  if current ⊆ new then
    if new = current then
      (pure [], state)
    else if 0 ≤ measure bound new ∧ measure bound new < measure bound current then
      -- The state goes on also when a later round breaks off.
      let later := statefulRoundsFrom bound step (k + 1) new state
      (do
        Logged.report (.round k new.size (measure bound new))
        let rest ← later.1
        return new :: rest, later.2)
    else
      (Logged.fail (.stalled k (measure bound current) (measure bound new)), state)
  else
    (Logged.fail (.dropped k (current \ new)), state)
termination_by (measure bound current).toNat
decreasing_by
  show (measure bound new).toNat < (measure bound current).toNat
  omega

/-- Applies `step` in rounds numbered from 1 until a round changes nothing, and hands the state on
from round to round. -/
def iterateStateful (start : SortedSet α) (step : SortedSet α → σ → SortedSet α × σ) (bound : Int)
    (state : σ) : Logged (Fault α) (Rounds α) × σ :=
  let later := statefulRoundsFrom bound step 1 start state
  (do
    let later ← later.1
    return ⟨start, later⟩, later.2)

/-- How often a closure calls its step. -/
def callCount (start : SortedSet α) (step : SortedSet α → σ → SortedSet α × σ) (bound : Int)
    (state : σ) : Nat :=
  (iterateStateful start (counted step) bound (state, 0)).2.2

/-! ## The four ways a call can go

These are the four ways of a round without a state (`roundsFrom_of_lost` and so on), each with the
state that is left behind. Also a call that breaks the closure off has been made, so its state
counts. -/

section Call

variable {bound : Int} {step : SortedSet α → σ → SortedSet α × σ} {k : Nat}
variable {current new : SortedSet α} {state left : σ}

/-- A call that lost elements breaks the closure off, and its state is left. -/
theorem statefulRoundsFrom_of_lost (hcall : step current state = (new, left))
    (h : ¬ current ⊆ new) :
    statefulRoundsFrom bound step k current state =
      (.fail (.dropped k (current \ new)), left) := by
  rw [statefulRoundsFrom]
  simp only [hcall, if_neg h]

/-- A call that changed nothing ends the closure, and its state is left. -/
theorem statefulRoundsFrom_of_unchanged (hcall : step current state = (current, left)) :
    statefulRoundsFrom bound step k current state = (pure [], left) := by
  have hsub : current ⊆ current := fun _ ha => ha
  rw [statefulRoundsFrom]
  simp only [hcall, if_pos hsub, if_true]

/-- A call that added something and left room is reported, and its state is handed on. -/
theorem statefulRoundsFrom_of_grown (hcall : step current state = (new, left))
    (hsub : current ⊆ new) (hne : new ≠ current) (hroom : 0 ≤ measure bound new)
    (hless : measure bound new < measure bound current) :
    statefulRoundsFrom bound step k current state =
      (do
        Logged.report (.round k new.size (measure bound new))
        let rest ← (statefulRoundsFrom bound step (k + 1) new left).1
        return new :: rest, (statefulRoundsFrom bound step (k + 1) new left).2) := by
  rw [statefulRoundsFrom]
  simp only [hcall, if_pos hsub, if_neg hne, if_pos (And.intro hroom hless)]

/-- A call that leads out of the universe breaks the closure off, and its state is left. -/
theorem statefulRoundsFrom_of_stalled (hcall : step current state = (new, left))
    (hsub : current ⊆ new) (hne : new ≠ current)
    (h : ¬ (0 ≤ measure bound new ∧ measure bound new < measure bound current)) :
    statefulRoundsFrom bound step k current state =
      (.fail (.stalled k (measure bound current) (measure bound new)), left) := by
  rw [statefulRoundsFrom]
  simp only [hcall, if_pos hsub, if_neg hne, if_neg h]

end Call

end Closure

end ContextFree
