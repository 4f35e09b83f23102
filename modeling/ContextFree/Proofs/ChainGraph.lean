import ContextFree.Chain.Drawing
import ContextFree.Proofs.ChainPath
import Mathlib.Logic.Relation

/-!
# ContextFree — unit pairs in the chain graph

The edges of the chain graph are the chain rules, so a chain path is a walk in the graph, and a name
reaches another by edges just if a chain path of some length leads there. A walk may end in a node
that heads no rule, but it cannot go on from there. So it makes no difference whether such nodes are
left out of the graph or only of the pairs: walks between generators run through generators.

Main statements: `Grammar.exists_chainPath_iff_reachable` (paths of counted rules and walks along
edges), `Grammar.ChainPath.reachable_within_generators` (nodes that head no rule are dead ends) and
`Grammar.computeUnitPairs_is_reachability`.
-/

namespace ContextFree

/-- The graph has an edge from one node to the other. -/
def ChainGraph.Edge (graph : ChainGraph) (u v : Name) : Prop :=
  ⟨u, v⟩ ∈ graph.edges

/-- The same in the part of the graph that has only the given nodes. -/
def ChainGraph.EdgeWithin (graph : ChainGraph) (names : SortedSet Name) (u v : Name) : Prop :=
  graph.Edge u v ∧ u ∈ names ∧ v ∈ names

namespace Grammar

variable {g : Grammar}

/-- An edge of the graph is a chain rule. -/
theorem chainGraph_edge_iff {u v : Name} :
    g.chainGraph.Edge u v ↔ ⟨u, [.nonterminal v]⟩ ∈ g.rules := by
  unfold ChainGraph.Edge chainGraph
  rw [SortedSet.mem_ofList, mem_chainArcs]

/-- One name reaches another by edges just if a chain path of some length leads there. -/
theorem exists_chainPath_iff_reachable {u w : Name} :
    (∃ n, ChainPath g n u w) ↔ Relation.ReflTransGen g.chainGraph.Edge u w := by
  constructor
  · rintro ⟨n, hpath⟩
    induction hpath with
    | nil => exact .refl
    | cons first _ ih => exact .head (chainGraph_edge_iff.2 first) ih
  · intro h
    induction h using Relation.ReflTransGen.head_induction_on with
    | refl => exact ⟨0, .nil w⟩
    | head hedge _ ih =>
      obtain ⟨n, hpath⟩ := ih
      exact ⟨n + 1, .cons (chainGraph_edge_iff.1 hedge) hpath⟩

/-- A chain path to a generator runs through generators. -/
theorem ChainPath.reachable_within_generators {n : Nat} {u w : Name} (h : ChainPath g n u w)
    (hw : w ∈ g.generators) :
    Relation.ReflTransGen (g.chainGraph.EdgeWithin g.generators) u w := by
  induction h with
  | nil => exact .refl
  | cons first rest ih =>
    have hedge := chainGraph_edge_iff.2 first
    exact .head ⟨hedge, mem_generators.2 ⟨_, first, rfl⟩, rest.source_mem_generators hw⟩ (ih hw)

/-- A walk within some names does not leave them, and it is a chain path. -/
theorem exists_chainPath_of_reachable_within {names : SortedSet Name} {u w : Name}
    (h : Relation.ReflTransGen (g.chainGraph.EdgeWithin names) u w) (hu : u ∈ names) :
    w ∈ names ∧ ∃ n, ChainPath g n u w := by
  have hedges : g.chainGraph.EdgeWithin names ≤ g.chainGraph.Edge := fun _ _ hedge => hedge.1
  refine ⟨?_, exists_chainPath_iff_reachable.2 (Relation.ReflTransGen.mono hedges u w h)⟩
  cases h with
  | refl => exact hu
  | tail _ hedge => exact hedge.2.2

/-- **Unit pairs are reachability between generators.** The closure answers with the pairs of
generators that a chain path leads between; so they are the reflexive and transitive closure of the
edges of the chain graph, whether the closure or the graph is cut down to generators. -/
theorem computeUnitPairs_is_reachability (g : Grammar) :
    ∃ pairs, g.computeUnitPairs.outcome = .ok pairs ∧ ∀ u w,
      (⟨u, w⟩ ∈ pairs ↔ u ∈ g.generators ∧ w ∈ g.generators ∧ ∃ n, ChainPath g n u w) ∧
      (⟨u, w⟩ ∈ pairs ↔ u ∈ g.generators ∧ w ∈ g.generators ∧
        Relation.ReflTransGen g.chainGraph.Edge u w) ∧
      (⟨u, w⟩ ∈ pairs ↔ u ∈ g.generators ∧
        Relation.ReflTransGen (g.chainGraph.EdgeWithin g.generators) u w) := by
  obtain ⟨pairs, houtcome, hpairs⟩ := g.exists_computeUnitPairs
  refine ⟨pairs, houtcome, fun u w => ?_⟩
  have hpath : ⟨u, w⟩ ∈ pairs ↔ u ∈ g.generators ∧ w ∈ g.generators ∧ ∃ n, ChainPath g n u w := by
    rw [hpairs u w]
    exact ⟨fun ⟨hw, n, h⟩ => ⟨h.source_mem_generators hw, hw, n, h⟩, And.right⟩
  refine ⟨hpath, ?_, ?_⟩
  · rw [hpath, exists_chainPath_iff_reachable]
  · rw [hpath]
    -- A walk between generators stays among them, so it makes no difference to forbid the others.
    refine and_congr_right fun hu => ⟨?_, fun h => exists_chainPath_of_reachable_within h hu⟩
    rintro ⟨hw, n, h⟩
    exact h.reachable_within_generators hw

end Grammar

end ContextFree
