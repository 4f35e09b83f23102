import ContextFree.Chain.Arc
import ContextFree.Closure.Visits
import ContextFree.SortedSet.ByKey

/-!
# ContextFree — unit pairs

A unit pair leads from a name to one that it can be renamed into by chain rules, itself included.
The unit pairs between generators are the closure of the diagonal under `Grammar.extendPairs`: a
chain rule extends, at the front, the pairs that leave its target. Each pair is found in a round,
which a table shows. `Grammar.extendPairsInTurn` makes a round rule by rule, with a set that grows,
and `PairTable.fill` writes a table cell by cell.

Main statement: `Arc.mem_extendPairs` — a round adds the join of the chain arcs with the pairs
there were before it, and nothing else.
-/

namespace ContextFree

open Std

/-- The pairs of every name in the set with itself. -/
def Arc.diagonal (names : SortedSet Name) : SortedSet Arc :=
  names.map fun v => ⟨v, v⟩

/-- One round: the pairs, and what the chain arcs make of them. A pair added in this round extends
nothing before the next one. -/
def Arc.extendPairs (chains : List Arc) (pairs : SortedSet Arc) : SortedSet Arc :=
  let targets := Arc.targetsBySource pairs.toList
  pairs ∪ .ofList (chains.flatMap fun chain =>
    (targets.getD chain.target []).map fun target => ⟨chain.source, target⟩)

/-- The diagonal pairs each name with itself and with no other. -/
theorem Arc.mem_diagonal {names : SortedSet Name} {u w : Name} :
    ⟨u, w⟩ ∈ Arc.diagonal names ↔ u ∈ names ∧ u = w := by
  simp only [diagonal, SortedSet.mem_map, Arc.mk.injEq]
  constructor
  · rintro ⟨v, hv, rfl, rfl⟩
    exact ⟨hv, rfl⟩
  · rintro ⟨hu, rfl⟩
    exact ⟨u, hu, rfl, rfl⟩

/-- A pair is there after a round if it was there before, or if a chain arc from its source leads to
a name that was paired with its target before. -/
theorem Arc.mem_extendPairs {chains : List Arc} {pairs : SortedSet Arc} {p : Arc} :
    p ∈ Arc.extendPairs chains pairs ↔
      p ∈ pairs ∨ ∃ c ∈ chains, c.source = p.source ∧ ⟨c.target, p.target⟩ ∈ pairs := by
  simp only [extendPairs, SortedSet.mem_union, SortedSet.mem_ofList, List.mem_flatMap,
    List.mem_map, mem_targetsBySource, SortedSet.mem_toList]
  refine or_congr_right (exists_congr fun c => and_congr_right fun _ => ?_)
  constructor
  · rintro ⟨v, hv, rfl⟩
    exact ⟨rfl, hv⟩
  · rintro ⟨hs, hv⟩
    exact ⟨_, hv, by rw [hs]⟩

/-- Why rules given as chain rules cannot extend pairs. -/
inductive ChainError
  /-- A rule is empty, so it leads nowhere. -/
  | emptyRule (head : Name)
deriving DecidableEq

def ChainError.message : ChainError → String
  | .emptyRule _ => "tuple index out of range"

/-- The arc that a rule given as a chain rule stands for. -/
def Rule.leadingArc (r : Rule) : Except ChainError Arc :=
  match r.leadingArc? with
  | some arc => .ok arc
  | none => .error (.emptyRule r.head)

/-- A round with any rules in the place of chain rules. One empty rule among them is an error,
whatever the pairs. -/
def Rule.extendPairs (chains : List Rule) (pairs : SortedSet Arc) :
    Except ChainError (SortedSet Arc) := do
  let arcs ← chains.mapM Rule.leadingArc
  return Arc.extendPairs arcs pairs

/-- Adds to the pairs what a rule makes of the listed targets: its head with each target of what its
body begins with. -/
def Rule.addTargets (targets : TreeMap Name (List Name)) (pairs : SortedSet Arc) (r : Rule) :
    Except ChainError (SortedSet Arc) := do
  let arc ← r.leadingArc
  return (targets.getD arc.target []).foldl (fun pairs v => insert ⟨arc.source, v⟩ pairs) pairs

/-- The rounds in which unit pairs were found, between the names of an index. -/
structure PairTable where
  index : List Name
  rounds : Rounds Arc

namespace PairTable

/-- The round in which the pair was found, if there is such a pair. -/
def cell (table : PairTable) (source target : Name) : Option Nat :=
  table.rounds.firstRound? ⟨source, target⟩

def rows (table : PairTable) : List (List (Option Nat)) :=
  table.index.map fun source => table.index.map (table.cell source)

/-- What stands in a cell without a pair. -/
def absentMark : String :=
  "∅"

/-- A cell for each two names of the index, with nothing in it. -/
def blank (index : List Name) : TreeMap Arc (Option Nat) :=
  (index.flatMap fun source => index.map (Arc.mk source)).foldl
    (fun cells p => cells.insert p none) ∅

/-- Writes the number of a round in the cell of a pair, unless something is written there. There
must be such a cell. -/
def write (cells : TreeMap Arc (Option Nat)) (visit : Arc × Nat) :
    Option (TreeMap Arc (Option Nat)) := do
  match ← cells[visit.1]? with
  | none => return cells.insert visit.1 (some visit.2)
  | some _ => return cells

/-- The cells written one after the other, in a walk through the rounds. -/
def fill (listing : SortedSet Arc → List Arc) (table : PairTable) :
    Option (TreeMap Arc (Option Nat)) :=
  (table.rounds.visits listing).foldlM write (blank table.index)

end PairTable

namespace Grammar

def extendPairs (g : Grammar) (pairs : SortedSet Arc) : SortedSet Arc :=
  Arc.extendPairs g.chainArcs pairs

/-- A round with the rules in turn, by default the chain rules. The pairs grow from rule to rule,
and the targets stay listed as they were before the round. -/
def extendPairsInTurn (g : Grammar) (pairs : List Arc) (chains : Option (List Rule)) :
    Except ChainError (SortedSet Arc) :=
  (chains.getD g.chainRules.toList).foldlM (Rule.addTargets (Arc.targetsBySource pairs))
    (.ofList pairs)

/-- The rounds from the diagonal to all unit pairs, which join generators. -/
def pairRounds (g : Grammar) : Logged (Fault Arc) (Rounds Arc) :=
  Closure.iterate (Arc.diagonal g.generators) (fun _ => g.extendPairs)
    (g.generators.size * g.generators.size : Nat)

def computeUnitPairs (g : Grammar) : Logged (Fault Arc) (SortedSet Arc) := do
  let rounds ← g.pairRounds
  Logged.report (.pairsSolved rounds.last.size rounds.count)
  return rounds.last

/-- The round of each unit pair, the generators in the order of their texts. -/
def unitPairTable (g : Grammar) : Logged (Fault Arc) PairTable := do
  let rounds ← g.pairRounds
  return ⟨g.generators.listBy Name.render, rounds⟩

end Grammar

end ContextFree
