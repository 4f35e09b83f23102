import ContextFree.Proofs.ChainRuleElimination
import ContextFree.Proofs.EmptyRuleElimination

/-!
# ContextFree — what the passes leave as it is

Each pass does away with one shape of rules. After the one no rule is empty, whatever names it was
given; after the other none is a chain rule. Where a grammar has no rule of that shape the closure
behind the pass finds nothing, since no name is nullable or since chain paths lead nowhere, and the
pass makes every rule out of itself. So the grammars without such rules are those that the pass
answers with, and they are those that it leaves as they are.

Main statements: `Grammar.replaceEmptyRules_eq_self_iff` and `Grammar.replaceChainRules_eq_self_iff`
(when a pass changes nothing), `Grammar.isUnitPairSet_diagonal` (the unit pairs where nothing is
renamed), `Grammar.eliminateNullable_leaves_no_empty_rule` and
`Grammar.eliminateUnitRules_leaves_rules_of_reachable_names`.
-/

namespace ContextFree

namespace Grammar

variable {g : Grammar} {names : SortedSet Name} {pairs : SortedSet Arc}

/-! ## Grammars without empty rules

What a pass answers with has no empty rule, whatever the names were. With names that are not its own
it may still change a grammar without empty rules, as it drops what is not nullable. So the converse
goes by the grammar's own names. -/

/-- The pass changes nothing just where there is no empty rule. The one direction is clear from what
the pass answers with, which has none. -/
theorem replaceEmptyRules_eq_self_iff (hnames : g.IsNullableSet names) :
    g.replaceEmptyRules names = g ↔ ∀ r ∈ g.rules, r.body ≠ [] := by
  constructor
  · intro h r hr
    rw [← h] at hr
    exact body_ne_nil_of_mem_replaceEmptyRules hr
  · exact fun hnonempty => replaceEmptyRules_eq_self hnonempty hnames

/-- **The grammars without empty rules are those that the first pass leaves as they are.** Whatever
names the pass is given, it answers with a grammar that has no empty rule and no nullable name. With
the grammar's own nullable names the answer is the grammar itself just if it had no empty rule; so a
second pass changes nothing. -/
theorem eliminateNullable_leaves_no_empty_rule {ε : Type} (g : Grammar) (names : SortedSet Name) :
    (∃ h : Grammar, (g.eliminateNullable names : Logged ε Grammar).outcome = .ok h ∧
      (∀ r ∈ h.rules, r.body ≠ []) ∧ h.computeNullable.outcome = .ok ∅) ∧
    ∃ h, g.eliminateNullableRules.outcome = .ok h ∧ (h = g ↔ ∀ r ∈ g.rules, r.body ≠ []) ∧
      h.eliminateNullableRules.outcome = .ok h := by
  have hnonempty (names : SortedSet Name) : ∀ r ∈ (g.replaceEmptyRules names).rules, r.body ≠ [] :=
    fun r => body_ne_nil_of_mem_replaceEmptyRules
  have hnone (names : SortedSet Name) : (g.replaceEmptyRules names).IsNullableSet ∅ :=
    isNullableSet_empty (hnonempty names)
  obtain ⟨own, -, hown⟩ := g.exists_computeNullable
  refine ⟨⟨_, outcome_eliminateNullable g names, hnonempty names,
    outcome_computeNullable_iff.2 (hnone names)⟩, ?_⟩
  refine ⟨_, outcome_eliminateNullableRules hown, replaceEmptyRules_eq_self_iff hown, ?_⟩
  rw [outcome_eliminateNullableRules (hnone own),
    replaceEmptyRules_eq_self (hnonempty own) (hnone own)]

/-! ## Grammars without chain rules

Where nothing is renamed the unit pairs are the diagonal, and along the diagonal each name takes
over its own rules. -/

theorem chainRules_eq_empty_iff : g.chainRules = ∅ ↔ ∀ r ∈ g.rules, r.isChain = false := by
  simp [chainRules, SortedSet.eq_empty_iff]

/-- Where nothing is renamed each generator is paired with itself only. -/
theorem isUnitPairSet_diagonal (hshape : ∀ r ∈ g.rules, r.isChain = false) :
    g.IsUnitPairSet (Arc.diagonal g.generators) := by
  intro u w
  rw [Arc.mem_diagonal]
  constructor
  · rintro ⟨hu, rfl⟩
    exact ⟨hu, 0, .nil u⟩
  · rintro ⟨hw, n, hpath⟩
    obtain rfl := hpath.eq_of_no_chain hshape
    exact ⟨hw, rfl⟩

/-- The pass changes nothing just where there is no chain rule. -/
theorem replaceChainRules_eq_self_iff (hpairs : g.IsUnitPairSet pairs) :
    g.replaceChainRules pairs = g ↔ ∀ r ∈ g.rules, r.isChain = false := by
  constructor
  · intro h r hr
    rw [← h] at hr
    exact (mem_replaceChainRules.1 hr).1
  · exact fun hshape => replaceChainRules_eq_self hshape hpairs

/-- **The grammars without chain rules are those that the second pass leaves as they are.** It
answers with the rules whose body is a body, but not a single nonterminal, of some name that chain
rules lead to from their head. So no chain rule is left and every other rule is still there; the
unit pairs of the answer pair each of its own generators, which may be fewer than before, with
itself; and the answer is the grammar itself just if it had no chain rule, which makes a second pass
change nothing. -/
theorem eliminateUnitRules_leaves_rules_of_reachable_names (g : Grammar) :
    ∃ h, g.eliminateUnitRules.outcome = .ok h ∧
      (∀ r, r ∈ h.rules ↔ (∀ x, r.body ≠ [.nonterminal x]) ∧
        ∃ v n, ChainPath g n r.head v ∧ ⟨v, r.body⟩ ∈ g.rules) ∧
      h.chainRules = ∅ ∧ g.rules \ g.chainRules ⊆ h.rules ∧
      h.computeUnitPairs.outcome = .ok (Arc.diagonal h.generators) ∧
      (h = g ↔ g.chainRules = ∅) ∧ h.eliminateUnitRules.outcome = .ok h := by
  obtain ⟨pairs, -, hpairs⟩ := g.exists_computeUnitPairs
  have hshape : ∀ r ∈ (g.replaceChainRules pairs).rules, r.isChain = false :=
    fun r hr => (mem_replaceChainRules.1 hr).1
  -- Nothing is renamed any more, so the closure finds only the diagonal afterwards.
  have hdiagonal := isUnitPairSet_diagonal hshape
  refine ⟨_, outcome_eliminateUnitRules hpairs, fun r => ?_, chainRules_eq_empty_iff.2 hshape,
    fun r hr => ?_, outcome_computeUnitPairs_iff.2 hdiagonal, ?_, ?_⟩
  · rw [mem_replaceChainRules_iff hpairs, Rule.isChain_eq_false_iff]
  · obtain ⟨hr, hother⟩ := SortedSet.mem_diff.1 hr
    refine mem_replaceChainRules_of_not_chain hpairs hr (Rule.isChain_eq_false_iff.2 ?_)
    exact fun v hbody => hother (mem_chainRules.2 ⟨hr, v, hbody⟩)
  · rw [replaceChainRules_eq_self_iff hpairs, chainRules_eq_empty_iff]
  · rw [outcome_eliminateUnitRules hdiagonal, replaceChainRules_eq_self hshape hdiagonal]

end Grammar

end ContextFree
