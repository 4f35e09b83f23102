import ContextFree.Rewriting.Step
import ContextFree.SortedSet.Basic

/-!
# ContextFree — the search for a derivation

Whether a form derives another is searched level by level: the forms not seen before that one more
step reaches. Terminals are never rewritten, so a form with more terminals than the target cannot
lead to it and is left out; the source is looked at in any case.

A search that may go down any number of levels need not end, so it takes the number of levels as an
argument and tells an exhausted search from one that was cut off.

Main statement: `mem_nextFrontier` — a level holds what one step reaches from the level above it,
less what is left out.
-/

namespace ContextFree

namespace Rewriting

/-- How a search ended. -/
inductive Verdict
  /-- The target was reached. -/
  | found
  /-- Every form that could lead to the target was looked at. -/
  | exhausted
  /-- There were forms left when the levels were used up. -/
  | cut
deriving DecidableEq

/-- The forms that one step from the frontier reaches, without those that hold too many terminals
and those seen before. -/
def nextFrontier (rules : List Rule) (limit : Nat) (seen frontier : SortedSet Form) :
    SortedSet Form :=
  .ofList ((frontier.toList.flatMap (rewrite rules)).filter fun form =>
    Form.terminalCount form ≤ limit) \ seen

/-- The next level by members, which is how the search is reasoned about: in what order a level is
gone through does not show in the next one. -/
theorem mem_nextFrontier {rules : List Rule} {limit : Nat} {seen frontier : SortedSet Form}
    {form : Form} :
    form ∈ nextFrontier rules limit seen frontier ↔
      (∃ a ∈ frontier, Step rules a form) ∧ Form.terminalCount form ≤ limit ∧ form ∉ seen := by
  simp [nextFrontier, SortedSet.mem_toList, mem_rewrite, and_assoc]

/-- Searches the frontier and so many levels below it. -/
def searchFrom (rules : List Rule) (target : Form) :
    Nat → (seen frontier : SortedSet Form) → Verdict
  | levels, seen, frontier =>
    if target ∈ frontier then .found
    else if frontier.isEmpty then .exhausted
    else
      match levels with
      | 0 => .cut
      | levels + 1 =>
        let next := nextFrontier rules (Form.terminalCount target) seen frontier
        searchFrom rules target levels (seen ∪ next) next

/-- Searches for the target from the source and so many levels below it. -/
def search (rules : List Rule) (source target : Form) (levels : Nat) : Verdict :=
  searchFrom rules target levels {source} {source}

/-- Whether the source derives the target in at most so many steps. -/
def derivesWithin (rules : List Rule) (source target : Form) (steps : Nat) : Bool :=
  search rules source target steps = .found

/-- Whether the source derives the target in any number of steps, if so many levels settle it. -/
def derivesEver? (rules : List Rule) (source target : Form) (levels : Nat) : Option Bool :=
  match search rules source target levels with
  | .found => some true
  | .exhausted => some false
  | .cut => none

/-- Whether the source derives the target in at most so many steps. A negative limit stands for any
number of steps, which so many levels may leave open. -/
def derives? (rules : List Rule) (source target : Form) (limit : Int) (levels : Nat) :
    Option Bool :=
  match limit with
  | .ofNat steps => some (derivesWithin rules source target steps)
  | .negSucc _ => derivesEver? rules source target levels

end Rewriting

end ContextFree
