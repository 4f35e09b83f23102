import ContextFree.Chain.UnitPairs

/-!
# ContextFree — the elimination of chain rules

A chain rule only passes its head on to what its target does. Giving each name the other rules of
every name it is paired with makes the chain rules superfluous, and with the grammar's own unit
pairs no word is lost.

Main statement: `Grammar.mem_replaceChainRules` — the rules of the result are those that some pair
takes over.
-/

namespace ContextFree

/-- The rules that the source of a pair takes over from its target: all but the chain rules. -/
def Arc.inheritedRules (rules : List Rule) (pair : Arc) : List Rule :=
  (rules.filter fun r => r.head = pair.target && !r.isChain).map fun r => ⟨pair.source, r.body⟩

/-- A rule is taken over along a pair if the target of the pair has it, with the source as its new
head. -/
theorem Arc.mem_inheritedRules {rules : List Rule} {pair : Arc} {r : Rule} :
    r ∈ Arc.inheritedRules rules pair ↔
      r.head = pair.source ∧ r.isChain = false ∧ ⟨pair.target, r.body⟩ ∈ rules := by
  simp only [inheritedRules, List.mem_map, List.mem_filter, Bool.and_eq_true, decide_eq_true_eq,
    Bool.not_eq_true']
  constructor
  · rintro ⟨⟨_, body⟩, ⟨hs, rfl, hchain⟩, rfl⟩
    exact ⟨rfl, hchain, hs⟩
  · rintro ⟨hhead, hchain, hs⟩
    exact ⟨_, ⟨hs, rfl, hchain⟩, by rw [← hhead]⟩

namespace Grammar

/-- The rules taken over along the pairs, and no others. -/
def replaceChainRules (g : Grammar) (pairs : SortedSet Arc) : Grammar :=
  g.withRules (pairs.flatMap (Arc.inheritedRules g.rules.toList))

/-- Replaces the rules by those taken over along the pairs, and reports how many rules there were
and are. -/
def eliminateChains {ε : Type} (g : Grammar) (pairs : SortedSet Arc) : Logged ε Grammar := do
  let result := g.replaceChainRules pairs
  Logged.report (.chainRulesReplaced g.rules.size result.rules.size)
  return result

/-- The same with the grammar's own unit pairs. -/
def eliminateUnitRules (g : Grammar) : Logged (Fault Arc) Grammar := do
  let pairs ← g.computeUnitPairs
  g.eliminateChains pairs

@[simp] theorem nonterminals_replaceChainRules (g : Grammar) (pairs : SortedSet Arc) :
    (g.replaceChainRules pairs).nonterminals = g.nonterminals :=
  rfl

@[simp] theorem goal_replaceChainRules (g : Grammar) (pairs : SortedSet Arc) :
    (g.replaceChainRules pairs).goal = g.goal :=
  rfl

/-- A rule of the result comes from a name that its head is paired with. Nothing is asked of the
pairs, so this holds for any that are given. -/
theorem mem_replaceChainRules {g : Grammar} {pairs : SortedSet Arc} {r : Rule} :
    r ∈ (g.replaceChainRules pairs).rules ↔
      r.isChain = false ∧ ∃ v, ⟨r.head, v⟩ ∈ pairs ∧ ⟨v, r.body⟩ ∈ g.rules := by
  simp only [replaceChainRules, rules_withRules, SortedSet.mem_flatMap, Arc.mem_inheritedRules,
    SortedSet.mem_toList]
  constructor
  · rintro ⟨⟨_, v⟩, hp, rfl, hchain, hs⟩
    exact ⟨hchain, v, hp, hs⟩
  · rintro ⟨hchain, v, hp, hs⟩
    exact ⟨_, hp, rfl, hchain, hs⟩

/-- With the pairs given, nothing can fail. -/
theorem outcome_eliminateChains {ε : Type} (g : Grammar) (pairs : SortedSet Arc) :
    (g.eliminateChains pairs : Logged ε Grammar).outcome = .ok (g.replaceChainRules pairs) :=
  rfl

end Grammar

end ContextFree
