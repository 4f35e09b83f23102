import ContextFree.Grammar.Basic

/-!
# ContextFree — the text of a grammar

One line for each rule: the goal's own rules first, and lines in the order of their text otherwise.
Rules that come at the same place in this order keep the order they are listed in.
-/

namespace ContextFree

open Std

namespace Rule

/-- The order of the lines: rules headed by the goal before all others, and then by their text. -/
def lineOrder (goal : Name) : Rule → Rule → Ordering :=
  compareLex (compareOn fun r => decide (r.head ≠ goal)) (compareOn Rule.render)

instance (goal : Name) : TransCmp (lineOrder goal) :=
  inferInstanceAs (TransCmp (compareLex _ _))

/-- The rules in the order of their lines. -/
def inLineOrder (goal : Name) (rules : List Rule) : List Rule :=
  rules.mergeSort fun r s => (lineOrder goal r s).isLE

/-- The text of rules listed in any order, a line for each of them. -/
def renderAll (goal : Name) (rules : List Rule) : String :=
  "\n".intercalate ((inLineOrder goal rules).map Rule.render)

end Rule

def Grammar.render (g : Grammar) : String :=
  Rule.renderAll g.goal g.rules.toList

end ContextFree
