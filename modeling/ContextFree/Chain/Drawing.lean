import ContextFree.Chain.Arc

/-!
# ContextFree — the chain graph and its drawing

The graph of the chain rules: the generators, and the targets of chain rules that head none, with
an edge for every chain rule. A drawing is a list of calls; pairs drawn on top of the graph leave
out loops and what is an edge already. Where the nodes are put is not decided here: a layout says
which nodes have a position, and all that is drawn is drawn there.
-/

namespace ContextFree

structure ChainGraph where
  nodes : SortedSet Name
  edges : SortedSet Arc
deriving DecidableEq

def Grammar.chainGraph (g : Grammar) : ChainGraph where
  nodes := g.generators ∪ .ofList (g.chainArcs.map Arc.target)
  edges := .ofList g.chainArcs

/-- One call of a drawing. -/
inductive DrawingCall
  /-- Draws nodes and edges, given the nodes that have a position. -/
  | graph (nodes : SortedSet Name) (edges : SortedSet Arc) (positioned : SortedSet Name)
  | labels (texts : List (Name × String))
  | dashed (edges : SortedSet Arc)
  | display
deriving DecidableEq

namespace ChainGraph

/-- The pairs worth drawing on top of the graph: no loops, and no edges of the graph. -/
def closureEdges (graph : ChainGraph) (pairs : SortedSet Arc) : SortedSet Arc :=
  pairs.filter fun p => p.source ≠ p.target ∧ p ∉ graph.edges

/-- The drawing of the graph, with pairs on top if there are any to draw. The layout gives the nodes
that have a position. -/
def drawing (layout : ChainGraph → SortedSet Name) (graph : ChainGraph)
    (pairs : Option (SortedSet Arc)) : List DrawingCall :=
  [.graph graph.nodes graph.edges (layout graph),
    .labels (graph.nodes.toList.map fun v => (v, v.render))] ++
  (pairs.map fun pairs => .dashed (graph.closureEdges pairs)).toList ++
  [.display]

/-- What is drawn on top of the graph: the given pairs of different nodes without an edge. -/
theorem mem_closureEdges {graph : ChainGraph} {pairs : SortedSet Arc} {p : Arc} :
    p ∈ graph.closureEdges pairs ↔ p ∈ pairs ∧ p.source ≠ p.target ∧ p ∉ graph.edges := by
  simp [closureEdges]

end ChainGraph

end ContextFree
