import ContextFree.Grammar.Build

/-!
# ContextFree — sample grammars

Six small grammars under the names they are asked for by: nested brackets and arithmetic, which
need no pass; an empty rule, a grammar whose every nonterminal is nullable, a chain cycle, and
balanced brackets that combine an empty rule with a chain back into the goal.
-/

namespace ContextFree

/-- A grammar kept at hand. -/
inductive Sample
  | brackets
  | math
  | empty
  | optional
  | cycle
  | dyck
deriving DecidableEq

namespace Sample

def ofName? : String → Option Sample
  | "brackets" => some .brackets
  | "math" => some .math
  | "empty" => some .empty
  | "optional" => some .optional
  | "cycle" => some .cycle
  | "dyck" => some .dyck
  | _ => none

def goal : Sample → String
  | .brackets | .math | .empty => "goal"
  | .optional | .dyck => "S"
  | .cycle => "A"

def terminals : Sample → List String
  | .brackets => ["(", ")"]
  | .math => ["+", "-", "*", "/", "(", ")", "n"]
  | .empty | .cycle => ["a"]
  | .optional => ["a", "b"]
  | .dyck => ["[", "]"]

def rules : Sample → List (String × List String)
  | .brackets =>
    [("goal", ["list"]),
     ("list", ["list", "pair"]),
     ("list", ["pair"]),
     ("pair", ["(", "list", ")"]),
     ("pair", ["(", ")"])]
  | .math =>
    [("goal", ["expr"]),
     ("expr", ["expr", "+", "term"]),
     ("expr", ["expr", "-", "term"]),
     ("expr", ["term"]),
     ("term", ["term", "*", "factor"]),
     ("term", ["term", "/", "factor"]),
     ("term", ["factor"]),
     ("factor", ["(", "expr", ")"]),
     ("factor", ["n"])]
  | .empty =>
    [("goal", ["A"]),
     ("A", ["A", "a"]),
     ("A", ["a"]),
     ("A", [])]
  | .optional =>
    [("S", ["A", "B"]),
     ("A", ["a"]),
     ("A", []),
     ("B", ["b"]),
     ("B", [])]
  | .cycle =>
    [("A", ["B"]),
     ("B", ["A"]),
     ("A", ["a"])]
  | .dyck =>
    [("S", ["S", "S"]),
     ("S", ["[", "S", "]"]),
     ("S", ["T"]),
     ("T", ["S"]),
     ("T", [])]

/-- The sample as a grammar. No sample has a rule headed by a terminal, so none is refused. -/
def build (sample : Sample) : Except BuildError Grammar :=
  Grammar.build (.text sample.goal) (.ofList (sample.terminals.map .text))
    (sample.rules.map fun (head, body) => ⟨.text head, body.map .text⟩)

end Sample

end ContextFree
