import ContextFree.Log
import ContextFree.SortedSet.Basic

/-!
# ContextFree — closure by rounds

A set is closed under a step by applying the step in rounds until a round changes nothing. The set
lives in a universe of a known size, and the room left in it is the measure: each round that
changes the set must keep every element and use up some of the room, so the rounds come to an end
whatever the step does. A round that breaks this is a `Fault`.

The step may depend on the number of the round, so a step that answers differently from call to
call is covered as well.

Main statements: the four ways a round can go, `roundsFrom_of_lost`, `roundsFrom_of_unchanged`,
`roundsFrom_of_grown` and `roundsFrom_of_stalled`. Which one applies is settled by the set before
the round and the set after it.
-/

namespace ContextFree

open Std

variable {α : Type} [Ord α] [TransOrd α] [LawfulEqOrd α]

/-- Why a closure broke off. -/
inductive Fault (α : Type) [Ord α] [TransOrd α] [LawfulEqOrd α]
  /-- The round lost elements it was given. -/
  | dropped (round : Nat) (lost : SortedSet α)
  /-- The round left the universe: the measure went from `before` to `after`. -/
  | stalled (round : Nat) (before after : Int)
deriving DecidableEq

/-- The complaint, with each element written by `quoted`. In which order lost elements come is up to
`listing`, since a set has no order of its own to be written in. -/
def Fault.message (quoted : α → String) (listing : SortedSet α → List α) : Fault α → String
  | .dropped round lost =>
    "Round " ++ toString round ++ " dropped \x7b" ++
      ", ".intercalate ((listing lost).map quoted) ++ "\x7d"
  | .stalled round before after =>
    "Round " ++ toString round ++ " did not decrease the measure: " ++ toString before ++
      " -> " ++ toString after

/-- The sets a closure went through. -/
structure Rounds (α : Type) [Ord α] where
  start : SortedSet α
  /-- The set after each round that changed it. -/
  later : List (SortedSet α)

namespace Rounds

def toList (rounds : Rounds α) : List (SortedSet α) :=
  rounds.start :: rounds.later

def last (rounds : Rounds α) : SortedSet α :=
  rounds.later.getLastD rounds.start

/-- The number of rounds that changed the set. -/
def count (rounds : Rounds α) : Nat :=
  rounds.later.length

/-- The round after which an element is there, 0 for the start. -/
def firstRound? (rounds : Rounds α) (a : α) : Option Nat :=
  rounds.toList.findIdx? fun s => a ∈ s

end Rounds

namespace Closure

/-- The room left in a universe of `bound` elements. -/
def measure (bound : Int) (s : SortedSet α) : Int :=
  bound - s.size

/-- The sets after `current`, the next round being number `k`. -/
def roundsFrom (bound : Int) (step : Nat → SortedSet α → SortedSet α) (k : Nat)
    (current : SortedSet α) : Logged (Fault α) (List (SortedSet α)) :=
  let new := step k current
  -- Lost elements are looked for first, whatever the size of the new set is.
  if current ⊆ new then
    if new = current then
      pure []
    else if 0 ≤ measure bound new ∧ measure bound new < measure bound current then do
      Logged.report (.round k new.size (measure bound new))
      let rest ← roundsFrom bound step (k + 1) new
      return new :: rest
    else
      Logged.fail (.stalled k (measure bound current) (measure bound new))
  else
    Logged.fail (.dropped k (current \ new))
termination_by (measure bound current).toNat
decreasing_by
  show (measure bound new).toNat < (measure bound current).toNat
  omega

/-! ## The four ways a round can go

Which way a round goes depends on the set before it and the set after it, and on nothing else the
step may have done. The hypotheses of the four lemmas exclude each other and leave no case out, so
an induction over the rounds splits along them instead of unfolding `roundsFrom`. -/

section Round

variable {bound : Int} {step : Nat → SortedSet α → SortedSet α} {k : Nat} {current : SortedSet α}

/-- A round that lost elements breaks the closure off, whatever else it added. -/
theorem roundsFrom_of_lost (h : ¬ current ⊆ step k current) :
    roundsFrom bound step k current = .fail (.dropped k (current \ step k current)) := by
  rw [roundsFrom]
  simp only [if_neg h]

/-- A round that changed nothing ends the closure, and is not reported. -/
theorem roundsFrom_of_unchanged (h : step k current = current) :
    roundsFrom bound step k current = pure [] := by
  have hsub : current ⊆ step k current := SortedSet.subset_of_eq h.symm
  rw [roundsFrom]
  simp only [if_pos hsub, if_pos h]

/-- A round that added something and left room is reported, and its set stands in front of those
that come after. -/
theorem roundsFrom_of_grown (hsub : current ⊆ step k current) (hne : step k current ≠ current)
    (hroom : 0 ≤ measure bound (step k current))
    (hless : measure bound (step k current) < measure bound current) :
    roundsFrom bound step k current = (do
      Logged.report (.round k (step k current).size (measure bound (step k current)))
      let rest ← roundsFrom bound step (k + 1) (step k current)
      return step k current :: rest) := by
  rw [roundsFrom]
  simp only [if_pos hsub, if_neg hne, if_pos (And.intro hroom hless)]

/-- A round that kept everything, changed the set and left no room breaks the closure off. -/
theorem roundsFrom_of_stalled (hsub : current ⊆ step k current) (hne : step k current ≠ current)
    (h : ¬ (0 ≤ measure bound (step k current) ∧
      measure bound (step k current) < measure bound current)) :
    roundsFrom bound step k current =
      .fail (.stalled k (measure bound current) (measure bound (step k current))) := by
  rw [roundsFrom]
  simp only [if_pos hsub, if_neg hne, if_neg h]

end Round

/-- Applies `step` in rounds numbered from 1 until a round changes nothing. -/
def iterate (start : SortedSet α) (step : Nat → SortedSet α → SortedSet α) (bound : Int) :
    Logged (Fault α) (Rounds α) := do
  let later ← roundsFrom bound step 1 start
  return ⟨start, later⟩

end Closure

end ContextFree
