import ContextFree.Proofs.ChainRuleElimination
import ContextFree.Proofs.EmptyRuleElimination
import ContextFree.Proofs.NullableRounds

/-!
# ContextFree — no closure of a grammar breaks off

A closure breaks off when a round loses an element or leaves the universe, and a round of pairs when
a rule given as a chain rule is empty. Neither happens to the closures of a grammar, and nothing has
to be checked beforehand: whatever a round adds heads a rule, since rules are all it is made from,
and a chain rule has a symbol that it leads to.

Main statements: `Rule.extendPairs_of_nonempty` and `Grammar.extendPairs_chainRules` (rounds with
the chain rules given one by one), and `Grammar.closures_and_passes_never_break_off`.
-/

namespace ContextFree

open Closure

/-! ## Rules given as chain rules

A round looks at the first symbol of each rule that it is given as a chain rule, so an empty rule
among them is an error. The grammar's own chain rules have a symbol, and in whatever order they are
given they make the round of the grammar. -/

/-- Rules with bodies all have an arc along which they lead. Induction on the rules. -/
theorem Rule.mapM_leadingArc {chains : List Rule} (h : ∀ r ∈ chains, r.body ≠ []) :
    chains.mapM Rule.leadingArc = .ok (chains.filterMap Rule.leadingArc?) := by
  induction chains with
  | nil => rfl
  | cons r chains ih =>
    have hrest := ih fun s hs => h s (List.mem_cons_of_mem r hs)
    obtain ⟨s, body, hbody⟩ := List.exists_cons_of_ne_nil (h r List.mem_cons_self)
    have hsome : r.leadingArc? = some ⟨r.head, s.name⟩ := by
      rw [Rule.leadingArc?, hbody]
      rfl
    have hfirst : r.leadingArc = .ok ⟨r.head, s.name⟩ := by
      rw [Rule.leadingArc, hsome]
    rw [List.mapM_cons, hfirst, hrest, List.filterMap_cons_some hsome]
    rfl

/-- A round with rules none of which is empty is a round with the arcs that they lead along. -/
theorem Rule.extendPairs_of_nonempty {chains : List Rule} (h : ∀ r ∈ chains, r.body ≠ [])
    (pairs : SortedSet Arc) :
    Rule.extendPairs chains pairs =
      .ok (Arc.extendPairs (chains.filterMap Rule.leadingArc?) pairs) := by
  rw [Rule.extendPairs, Rule.mapM_leadingArc h]
  rfl

namespace Grammar

variable {g : Grammar}

theorem mem_filterMap_leadingArc {chains : List Rule} (hchains : ∀ r, r ∈ chains ↔ r ∈ g.chainRules)
    {a : Arc} : a ∈ chains.filterMap Rule.leadingArc? ↔ a ∈ g.chainArcs := by
  rw [mem_chainArcs, List.mem_filterMap]
  constructor
  · rintro ⟨⟨head, body⟩, hr, hleads⟩
    obtain ⟨hrule, v, rfl⟩ := mem_chainRules.1 ((hchains _).1 hr)
    obtain rfl := Option.some.inj hleads
    exact hrule
  · intro hrule
    exact ⟨_, (hchains _).2 (mem_chainRules.2 ⟨hrule, a.target, rfl⟩), rfl⟩

/-- Given one by one, in any order, the chain rules make the round of the grammar. -/
theorem extendPairs_chainRules {chains : List Rule} (hchains : ∀ r, r ∈ chains ↔ r ∈ g.chainRules)
    (pairs : SortedSet Arc) : Rule.extendPairs chains pairs = .ok (g.extendPairs pairs) := by
  have hnonempty : ∀ r ∈ chains, r.body ≠ [] := by
    intro r hr
    obtain ⟨-, v, hbody⟩ := mem_chainRules.1 ((hchains r).1 hr)
    rw [hbody]
    exact List.cons_ne_nil _ _
  have hsame : Arc.extendPairs (chains.filterMap Rule.leadingArc?) pairs = g.extendPairs pairs := by
    unfold extendPairs
    apply SortedSet.ext_mem
    intro p
    simp only [Arc.mem_extendPairs, mem_filterMap_leadingArc hchains]
  rw [Rule.extendPairs_of_nonempty hnonempty, hsame]

/-! ## The closures and the passes

Each closure starts within its universe, its step grows there, and its bound is no less than the
size of the universe. This is all that `exists_iterate_ascends` asks for, and the passes only take
over what the closures answer. -/

/-- The rounds of the nullable names ascend among the generators, which are as many as the measure
starts with. -/
theorem exists_nullableRounds_ascends (g : Grammar) :
    ∃ rounds, g.nullableRounds.outcome = .ok rounds ∧
      Ascends rounds g.addNullables ∅ g.generators :=
  exists_iterate_ascends g.growsWithin_addNullables (SortedSet.empty_subset _) (Int.le_refl _)

/-- The rounds of the unit pairs ascend among the pairs of generators. There are no more of these
than the square that the measure starts with. -/
theorem exists_pairRounds_ascends (g : Grammar) :
    ∃ rounds, g.pairRounds.outcome = .ok rounds ∧
      Ascends rounds g.extendPairs (Arc.diagonal g.generators) (pairsWithin g.generators) :=
  exists_iterate_ascends g.growsWithin_extendPairs (diagonal_subset_pairsWithin _)
    (Int.ofNat_le.2 (size_pairsWithin_le _))

/-- The table is made, and it has a cell for every pair of every round. -/
theorem exists_unitPairTable_covers (g : Grammar) :
    ∃ table, g.unitPairTable.outcome = .ok table ∧ ∀ pairs ∈ table.rounds.toList, ∀ p ∈ pairs,
      p.source ∈ table.index ∧ p.target ∈ table.index := by
  obtain ⟨table, houtcome, hrounds, hindex, -, -⟩ := g.exists_unitPairTable
  obtain ⟨rounds, hrounds', hascends⟩ := g.exists_pairRounds_ascends
  obtain rfl : table.rounds = rounds := Except.ok.inj (hrounds.symm.trans hrounds')
  refine ⟨table, houtcome, fun pairs hpairs p hp => ?_⟩
  -- A round has only pairs of generators, and each generator is in the index.
  obtain ⟨hsource, htarget⟩ := mem_pairsWithin.1 (hascends.within pairs hpairs p hp)
  exact ⟨(hindex _).2 hsource, (hindex _).2 htarget⟩

/-- **No closure of a grammar breaks off.** Whatever its rules are: the rounds of the nullable names
rise among the generators and the rounds of the unit pairs among the pairs of generators, each with
more than the one before, until the next would add nothing. The chain rules make such a round
without an error when they are given one by one. So the names, the trace, the pairs, the table and
both passes come out, and the table has a cell for every pair that a round finds. -/
theorem closures_and_passes_never_break_off (g : Grammar) :
    (∃ rounds, g.nullableRounds.outcome = .ok rounds ∧
      Ascends rounds g.addNullables ∅ g.generators) ∧
    (∃ rounds, g.pairRounds.outcome = .ok rounds ∧
      Ascends rounds g.extendPairs (Arc.diagonal g.generators) (pairsWithin g.generators)) ∧
    (∀ chains : List Rule, (∀ r, r ∈ chains ↔ r ∈ g.chainRules) → ∀ pairs,
      Rule.extendPairs chains pairs = .ok (g.extendPairs pairs)) ∧
    (∃ names, g.computeNullable.outcome = .ok names) ∧
    (∃ rows, g.nullableTrace.outcome = .ok rows) ∧
    (∃ h, g.eliminateNullableRules.outcome = .ok h) ∧
    (∃ pairs, g.computeUnitPairs.outcome = .ok pairs) ∧
    (∃ table, g.unitPairTable.outcome = .ok table ∧ ∀ pairs ∈ table.rounds.toList, ∀ p ∈ pairs,
      p.source ∈ table.index ∧ p.target ∈ table.index) ∧
    ∃ h, g.eliminateUnitRules.outcome = .ok h := by
  obtain ⟨names, hnullable, hnames⟩ := g.exists_computeNullable
  obtain ⟨rows, htrace, -⟩ := g.exists_nullableTrace
  obtain ⟨pairs, hunit, hpairs⟩ := g.exists_computeUnitPairs
  exact ⟨g.exists_nullableRounds_ascends, g.exists_pairRounds_ascends,
    fun _ hchains => extendPairs_chainRules hchains, ⟨names, hnullable⟩, ⟨rows, htrace⟩,
    ⟨_, outcome_eliminateNullableRules hnames⟩, ⟨pairs, hunit⟩, g.exists_unitPairTable_covers,
    ⟨_, outcome_eliminateUnitRules hpairs⟩⟩

/-- Nothing is declared; a name is renamed into itself, one into a name that heads no rule, and two
into each other, one of which has an empty rule. -/
def tangle : Grammar where
  nonterminals := ∅
  goal := .text "S"
  rules := .ofList [⟨.text "A", [.nonterminal (.text "A")]⟩,
    ⟨.text "A", [.nonterminal (.text "B")]⟩, ⟨.text "A", [.nonterminal (.text "Z")]⟩,
    ⟨.text "B", [.nonterminal (.text "A")]⟩, ⟨.text "B", []⟩]

/-- The chain rules of the tangle, from the last to the first. -/
def tangleChains : List Rule :=
  tangle.chainRules.toList.reverse

/-- The chain rules from the last to the first make a round, and both passes come out. -/
theorem tangle_never_breaks_off :
    (∀ pairs, Rule.extendPairs tangleChains pairs = .ok (tangle.extendPairs pairs)) ∧
      (∃ h, tangle.eliminateNullableRules.outcome = .ok h) ∧
      ∃ h, tangle.eliminateUnitRules.outcome = .ok h := by
  obtain ⟨-, -, hround, -, -, hnullable, -, -, hunit⟩ := closures_and_passes_never_break_off tangle
  refine ⟨hround tangleChains fun r => ?_, hnullable, hunit⟩
  rw [tangleChains, List.mem_reverse, SortedSet.mem_toList]

end Grammar

end ContextFree
