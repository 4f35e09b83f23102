import ContextFree.Grammar.Basic
import Std.Data.TreeMap

/-!
# ContextFree — arcs between names

An arc leads from one name to another. A chain rule is an arc from its head to what it renames the
head into, and a unit pair is an arc as well: from a name to one that chain rules lead to.

Main statements: arcs have a lawful linear order, by source and then by target, and a list of arcs
can be looked up by source (`mem_targetsBySource`).
-/

namespace ContextFree

open Std

structure Arc where
  source : Name
  target : Name
deriving DecidableEq

namespace Arc

instance : Ord Arc := ⟨compareLex (compareOn Arc.source) (compareOn Arc.target)⟩

instance : TransOrd Arc :=
  inferInstanceAs (TransCmp (compareLex (compareOn Arc.source) (compareOn Arc.target)))

/-- `compare` on arcs, opened for the instance below. -/
theorem compare_def (a b : Arc) :
    compare a b = (compare a.source b.source).then (compare a.target b.target) :=
  rfl

instance : LawfulEqOrd Arc where
  eq_of_compare {a b} h := by
    rw [compare_def, Ordering.then_eq_eq] at h
    cases a
    cases b
    congr
    · exact LawfulEqCmp.eq_of_compare h.1
    · exact LawfulEqCmp.eq_of_compare h.2

/-- The targets of the arcs, listed by their source. -/
def targetsBySource (arcs : List Arc) : TreeMap Name (List Name) :=
  arcs.foldr (fun a table => table.insert a.source (a.target :: table.getD a.source [])) ∅

/-- The targets listed under a source are those of its arcs. By induction on the arcs: a new arc
puts its target in front of those listed under its own source and leaves the others alone. -/
theorem mem_targetsBySource {arcs : List Arc} {source v : Name} :
    v ∈ (targetsBySource arcs).getD source [] ↔ ⟨source, v⟩ ∈ arcs := by
  induction arcs with
  | nil => simp [targetsBySource]
  | cons a arcs ih =>
    rw [targetsBySource, List.foldr_cons, TreeMap.getD_insert, ← targetsBySource, List.mem_cons]
    simp only [LawfulEqCmp.compare_eq_iff_eq]
    split
    · next h =>
      subst h
      cases a
      simp [ih]
    · next h =>
      -- The new arc starts elsewhere, so what is listed here comes of the other arcs.
      have hne : ⟨source, v⟩ ≠ a := by
        rintro rfl
        exact h rfl
      rw [ih, or_iff_right hne]

end Arc

/-- The arc of a chain rule; other rules have none. -/
def Rule.chainArc? (r : Rule) : Option Arc :=
  r.chainTarget?.map fun target => ⟨r.head, target⟩

/-- The arc from the head of a rule to the first symbol of its body, whatever the symbol's role
and whatever follows it. An empty rule has none. -/
def Rule.leadingArc? (r : Rule) : Option Arc :=
  r.body.head?.map fun s => ⟨r.head, s.name⟩

def Grammar.chainArcs (g : Grammar) : List Arc :=
  g.rules.toList.filterMap Rule.chainArc?

/-- The chain arcs are the chain rules, read as arcs. -/
theorem Grammar.mem_chainArcs {g : Grammar} {a : Arc} :
    a ∈ g.chainArcs ↔ ⟨a.source, [.nonterminal a.target]⟩ ∈ g.rules := by
  simp only [chainArcs, List.mem_filterMap, SortedSet.mem_toList, Rule.chainArc?,
    Option.map_eq_some_iff, Rule.chainTarget?_eq_some]
  constructor
  · rintro ⟨⟨head, _⟩, hr, v, rfl, rfl⟩
    exact hr
  · exact fun h => ⟨_, h, _, rfl, rfl⟩

end ContextFree
