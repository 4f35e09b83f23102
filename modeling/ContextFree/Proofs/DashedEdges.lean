import ContextFree.Proofs.ChainDistance

/-!
# ContextFree — the unit pairs drawn on the chain graph

On top of the chain graph are drawn the unit pairs that are no loops and no edges already. A loop
joins a name at no distance, an edge between different names one at distance one, and what is left
is further away. So the edges drawn on top are the pairs at distance two and more, which is how the
table shows them, and with the edges of the graph between generators they are all the pairs of
different names. An edge to a name that heads no rule is in the graph only, since no pair ends
there.

Main statements: `Grammar.isLeast_chainLengths_one_iff` (what is at distance one),
`Grammar.IsUnitPairSet.mem_closureEdges_iff` (what is drawn on top) and
`Grammar.drawing_shows_distant_pairs`.
-/

namespace ContextFree

namespace Grammar

variable {g : Grammar}

/-! ## Short distances

A pair at distance 0 is a loop and one at distance 1 is an edge between different names. These are
the two kinds of pairs that are left out when pairs are drawn on top of the graph, so what is left
is at distance 2 or more. -/

/-- At distance one are different names with an edge between them. -/
theorem isLeast_chainLengths_one_iff {u w : Name} :
    IsLeast (g.chainLengths u w) 1 ↔ u ≠ w ∧ g.chainGraph.Edge u w := by
  rw [chainGraph_edge_iff]
  constructor
  · intro h
    obtain ⟨v, hfirst, hrest⟩ := chainPath_succ_iff.1 h.1
    obtain rfl : v = w := chainPath_zero_iff.1 hrest
    refine ⟨fun hsame => ?_, hfirst⟩
    have hzero : 1 ≤ 0 := h.2 (chainPath_zero_iff.2 hsame)
    omega
  · rintro ⟨hne, hedge⟩
    refine ⟨.cons hedge (.nil w), fun n hn => ?_⟩
    -- Only a path without rules is shorter, and it leads nowhere.
    rw [Nat.one_le_iff_ne_zero]
    rintro rfl
    exact hne (chainPath_zero_iff.1 hn)

/-- Further away are the ends of the other paths. -/
theorem exists_two_le_isLeast_iff {u w : Name} :
    (∃ n ≥ 2, IsLeast (g.chainLengths u w) n) ↔
      (∃ n, ChainPath g n u w) ∧ u ≠ w ∧ ¬ g.chainGraph.Edge u w := by
  constructor
  · rintro ⟨n, hn, hleast⟩
    have hne : u ≠ w := by
      intro hsame
      have hzero : n = 0 := hleast.unique (isLeast_chainLengths_zero_iff.2 hsame)
      omega
    refine ⟨⟨n, hleast.1⟩, hne, fun hedge => ?_⟩
    have hone : n = 1 := hleast.unique (isLeast_chainLengths_one_iff.2 ⟨hne, hedge⟩)
    omega
  · rintro ⟨⟨n, hpath⟩, hne, hedge⟩
    obtain ⟨m, hm⟩ := hpath.exists_isLeast
    refine ⟨m, ?_, hm⟩
    by_contra hshort
    -- A distance of 0 or 1 goes against one of the assumptions.
    match m, hm with
    | 0, hm => exact hne (isLeast_chainLengths_zero_iff.1 hm)
    | 1, hm => exact hedge (isLeast_chainLengths_one_iff.1 hm).2
    | m + 2, _ => omega

/-! ## What is drawn

The pairs are given as the unit pairs of the grammar (`IsUnitPairSet`), and the nodes as those of
its chain graph. A unit pair joins generators, and those are nodes, so both of its ends have a
position. -/

/-- Every generator is a node, also one without a chain rule. -/
theorem generators_subset_nodes (g : Grammar) : g.generators ⊆ g.chainGraph.nodes :=
  SortedSet.subset_union_left _ _

variable {pairs : SortedSet Arc}

/-- The unit pairs drawn on top of the graph are those at distance two and more. -/
theorem IsUnitPairSet.mem_closureEdges_iff (h : g.IsUnitPairSet pairs) {u w : Name} :
    ⟨u, w⟩ ∈ g.chainGraph.closureEdges pairs ↔
      w ∈ g.generators ∧ ∃ n ≥ 2, IsLeast (g.chainLengths u w) n := by
  rw [ChainGraph.mem_closureEdges, h u w, exists_two_le_isLeast_iff, and_assoc]
  rfl

theorem IsUnitPairSet.mem_generators_of_mem_closureEdges (h : g.IsUnitPairSet pairs) {e : Arc}
    (he : e ∈ g.chainGraph.closureEdges pairs) :
    e.source ∈ g.generators ∧ e.target ∈ g.generators := by
  obtain ⟨hw, n, -, hleast⟩ := h.mem_closureEdges_iff.1 he
  exact ⟨hleast.1.source_mem_generators hw, hw⟩

/-- A pair of different names is drawn on top or is an edge, and no other edge leads to a generator.
-/
theorem IsUnitPairSet.mem_iff_drawn (h : g.IsUnitPairSet pairs) {e : Arc} :
    e ∈ pairs ∧ e.source ≠ e.target ↔ e ∈ g.chainGraph.closureEdges pairs ∨
      e ∈ g.chainGraph.edges ∧ e.source ≠ e.target ∧ e.target ∈ g.generators := by
  constructor
  · rintro ⟨hpair, hne⟩
    by_cases hedge : e ∈ g.chainGraph.edges
    · exact .inr ⟨hedge, hne, ((h e.source e.target).1 hpair).1⟩
    · exact .inl (ChainGraph.mem_closureEdges.2 ⟨hpair, hne, hedge⟩)
  · rintro (hdrawn | ⟨hedge, hne, htarget⟩)
    · obtain ⟨hpair, hne, -⟩ := ChainGraph.mem_closureEdges.1 hdrawn
      exact ⟨hpair, hne⟩
    · have hrule : ⟨e.source, [.nonterminal e.target]⟩ ∈ g.rules := chainGraph_edge_iff.1 hedge
      exact ⟨(h _ _).2 ⟨htarget, 1, .cons hrule (.nil _)⟩, hne⟩

/-- **The drawing shows the distant pairs.** With the unit pairs of the grammar the chain graph is
drawn with its edges, and on top of it just the pairs with a number from 2 on in their cell of the
table. If the layout gives a position to each node of a graph and to nothing else, these have both
ends among the nodes with a position. None of them is an edge of the graph, and together with the
edges between different names that lead to generators they are all the unit pairs of different
names. -/
theorem drawing_shows_distant_pairs (g : Grammar) (layout : ChainGraph → SortedSet Name)
    (hlayout : ∀ graph v, v ∈ layout graph ↔ v ∈ graph.nodes) :
    ∃ pairs table nodes solid positioned labels dashed,
      g.computeUnitPairs.outcome = .ok pairs ∧ g.unitPairTable.outcome = .ok table ∧
      g.chainGraph.drawing layout (some pairs) =
        [.graph nodes solid positioned, .labels labels, .dashed dashed, .display] ∧
      (∀ u w, ⟨u, w⟩ ∈ dashed ↔
        u ∈ table.index ∧ w ∈ table.index ∧ ∃ n ≥ 2, table.cell u w = some n) ∧
      (∀ e ∈ dashed, e.source ∈ positioned ∧ e.target ∈ positioned) ∧
      (∀ e ∈ dashed, e ∉ solid) ∧
      ∀ e : Arc, e ∈ pairs ∧ e.source ≠ e.target ↔
        e ∈ dashed ∨ e ∈ solid ∧ e.source ≠ e.target ∧ e.target ∈ g.generators := by
  obtain ⟨pairs, hpairs, hunit⟩ := g.exists_computeUnitPairs
  obtain ⟨table, htable, -, hindex, -, hcell⟩ := g.exists_unitPairTable
  -- What is drawn can be read off the definition.
  refine ⟨pairs, table, _, _, _, _, _, hpairs, htable, rfl, fun u w => ?_, fun e he => ?_,
    fun e he => (ChainGraph.mem_closureEdges.1 he).2.2, fun e => hunit.mem_iff_drawn⟩
  · simp only [hindex, hcell]
    constructor
    · intro he
      obtain ⟨hu, hw⟩ := hunit.mem_generators_of_mem_closureEdges he
      obtain ⟨-, n, hn, hleast⟩ := hunit.mem_closureEdges_iff.1 he
      exact ⟨hu, hw, n, hn, hw, hleast⟩
    · rintro ⟨-, -, n, hn, hw, hleast⟩
      exact hunit.mem_closureEdges_iff.2 ⟨hw, n, hn, hleast⟩
  · obtain ⟨hsource, htarget⟩ := hunit.mem_generators_of_mem_closureEdges he
    exact ⟨(hlayout _ _).2 (g.generators_subset_nodes _ hsource),
      (hlayout _ _).2 (g.generators_subset_nodes _ htarget)⟩

/-- A name that is renamed into itself and along two rules, beside a name that heads no rule. -/
def deadEnd : Grammar where
  nonterminals := ∅
  goal := .text "S"
  rules := .ofList [⟨.text "S", [.nonterminal (.text "S")]⟩,
    ⟨.text "S", [.nonterminal (.text "A")]⟩, ⟨.text "A", [.nonterminal (.text "B")]⟩,
    ⟨.text "A", [.nonterminal (.text "Z")]⟩, ⟨.text "B", [.terminal (.text "b")]⟩]

/-- The two ends of the two rules are joined on top of the graph, and have their positions. -/
theorem deadEnd_drawn :
    ∃ pairs nodes solid positioned labels dashed, deadEnd.computeUnitPairs.outcome = .ok pairs ∧
      deadEnd.chainGraph.drawing ChainGraph.nodes (some pairs) =
        [.graph nodes solid positioned, .labels labels, .dashed dashed, .display] ∧
      ⟨.text "S", .text "B"⟩ ∈ dashed ∧ ⟨.text "S", .text "B"⟩ ∉ solid ∧
      .text "S" ∈ positioned ∧ .text "B" ∈ positioned := by
  obtain ⟨pairs, table, nodes, solid, positioned, labels, dashed, hpairs, -, hdrawing, -, hends,
    hfresh, hall⟩ := drawing_shows_distant_pairs deadEnd ChainGraph.nodes fun _ _ => .rfl
  have hpath : ChainPath deadEnd 2 (.text "S") (.text "B") :=
    .cons (v := .text "A") (by decide +kernel) (.cons (by decide +kernel) (.nil _))
  have hpair : ⟨.text "S", .text "B"⟩ ∈ pairs :=
    (outcome_computeUnitPairs_iff.1 hpairs _ _).2 ⟨by decide +kernel, 2, hpath⟩
  have hsolid : ⟨.text "S", .text "B"⟩ ∉ solid := by
    obtain ⟨⟨-, rfl, -⟩, -⟩ : (_ ∧ deadEnd.chainGraph.edges = solid ∧ _) ∧ _ := by
      simpa [ChainGraph.drawing] using hdrawing
    decide +kernel
  have hdashed : ⟨.text "S", .text "B"⟩ ∈ dashed := by
    rcases (hall ⟨.text "S", .text "B"⟩).1 ⟨hpair, by decide⟩ with hdashed | hedge
    · exact hdashed
    · exact absurd hedge.1 hsolid
  exact ⟨pairs, nodes, solid, positioned, labels, dashed, hpairs, hdrawing, hdashed,
    hfresh _ hdashed, hends _ hdashed⟩

end Grammar

end ContextFree
