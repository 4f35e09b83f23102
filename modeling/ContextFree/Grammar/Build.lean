import ContextFree.Grammar.Basic
import ContextFree.Text.Quoted

/-!
# ContextFree — grammars from plain names

A grammar can be written with bare names and a list of those that are terminals. Each name in a
body then takes its role from the list, and a rule headed by a terminal is refused.
-/

namespace ContextFree

/-- A rule whose names have no roles yet. -/
structure PlainRule where
  head : Name
  body : List Name
deriving DecidableEq

/-- Why plain rules make no grammar. -/
inductive BuildError
  /-- A rule is headed by a name listed as a terminal. -/
  | terminalHead (head : Name)
deriving DecidableEq

def BuildError.message : BuildError → String
  | .terminalHead head => "Terminal " ++ head.quoted ++ " cannot be the left side of a rule"

/-- The symbol of a name, given the terminals. -/
def Symbol.classify (terminals : SortedSet Name) (v : Name) : Symbol :=
  if v ∈ terminals then .terminal v else .nonterminal v

/-- The rule with the role of each name, given the terminals. -/
def PlainRule.classify (terminals : SortedSet Name) (r : PlainRule) : Except BuildError Rule :=
  if r.head ∈ terminals then
    .error (.terminalHead r.head)
  else
    .ok ⟨r.head, r.body.map (Symbol.classify terminals)⟩

/-- The rule with the roles of its names forgotten. -/
def Rule.plain (r : Rule) : PlainRule :=
  ⟨r.head, r.body.map Symbol.name⟩

/-- The grammar of plain rules, whose universe is the goal and what the rules mention. The first
rule headed by a terminal is the one complained about. -/
def Grammar.build (goal : Name) (terminals : SortedSet Name) (rules : List PlainRule) :
    Except BuildError Grammar := do
  let rules ← rules.mapM (PlainRule.classify terminals)
  return ⟨insert goal (Rule.mentioned rules), goal, .ofList rules⟩

end ContextFree
