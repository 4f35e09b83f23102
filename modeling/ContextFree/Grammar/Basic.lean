import ContextFree.Rule
import ContextFree.SortedSet.Basic

/-!
# ContextFree — grammars

A grammar is a declared universe of nonterminals, a goal and a finite set of rules. Nothing ties
the three together: rules may use names outside the universe, and the goal may head no rule. A pass
over a grammar makes a new one with other rules, and keeps the universe and the goal.

Main statements: one membership lemma for each part that can be read off the rules, such as
`Grammar.mem_generators` and `Grammar.mem_chainRules`.
-/

namespace ContextFree

structure Grammar where
  /-- The declared names, which may be more or fewer than the rules use. -/
  nonterminals : SortedSet Name
  /-- The name that words are derived from. -/
  goal : Name
  rules : SortedSet Rule
deriving DecidableEq

/-- The nonterminals that rules mention, as heads or in bodies. -/
def Rule.mentioned (rules : List Rule) : SortedSet Name :=
  .ofList (rules.flatMap fun r => r.head :: r.body.filterMap Symbol.nonterminal?)

namespace Grammar

def empty (goal : Name) : Grammar :=
  ⟨∅, goal, ∅⟩

/-- The names that head at least one rule. -/
def generators (g : Grammar) : SortedSet Name :=
  g.rules.map Rule.head

/-- The names that occur as terminals. -/
def terminals (g : Grammar) : SortedSet Name :=
  g.rules.flatMap fun r => r.body.filterMap Symbol.terminal?

def rulesFor (g : Grammar) (head : Name) : SortedSet Rule :=
  g.rules.filter fun r => r.head = head

def chainRules (g : Grammar) : SortedSet Rule :=
  g.rules.filter Rule.isChain

/-- The same universe and goal with other rules. -/
def withRules (g : Grammar) (rules : SortedSet Rule) : Grammar :=
  { g with rules }

/-! ## What the parts hold

Each part that is read off the rules is a set, so all there is to know about it is which elements it
has. Later modules argue through these lemmas and never look at how a part is computed. -/

/-- A name is a generator if some rule has it as its head, declared or not. -/
theorem mem_generators {g : Grammar} {v : Name} :
    v ∈ g.generators ↔ ∃ r ∈ g.rules, r.head = v := by
  simp [generators]

/-- A name is a terminal of the grammar if some body uses it as one. -/
theorem mem_terminals {g : Grammar} {v : Name} :
    v ∈ g.terminals ↔ ∃ r ∈ g.rules, .terminal v ∈ r.body := by
  simp [terminals]

theorem mem_rulesFor {g : Grammar} {head : Name} {r : Rule} :
    r ∈ g.rulesFor head ↔ r ∈ g.rules ∧ r.head = head := by
  simp [rulesFor]

/-- The chain rules are the rules that rename their head. -/
theorem mem_chainRules {g : Grammar} {r : Rule} :
    r ∈ g.chainRules ↔ r ∈ g.rules ∧ ∃ v, r.body = [.nonterminal v] := by
  simp [chainRules, Rule.isChain_iff]

/-- Other rules leave the universe as it is, also if they use names that it does not have. -/
@[simp] theorem nonterminals_withRules (g : Grammar) (rules : SortedSet Rule) :
    (g.withRules rules).nonterminals = g.nonterminals :=
  rfl

/-- Other rules leave the goal as it is, also if none of them is headed by it. -/
@[simp] theorem goal_withRules (g : Grammar) (rules : SortedSet Rule) :
    (g.withRules rules).goal = g.goal :=
  rfl

/-- The rules are the given ones, and none of the old rules is left. -/
@[simp] theorem rules_withRules (g : Grammar) (rules : SortedSet Rule) :
    (g.withRules rules).rules = rules :=
  rfl

theorem eq_of_mem_rules {g h : Grammar} (hnonterminals : g.nonterminals = h.nonterminals)
    (hgoal : g.goal = h.goal) (hrules : ∀ r, r ∈ g.rules ↔ r ∈ h.rules) : g = h := by
  have hrules : g.rules = h.rules := SortedSet.ext_mem hrules
  cases g
  cases h
  congr

end Grammar

/-- A name is mentioned as a head or as a nonterminal of a body. Terminals are not mentioned. -/
theorem Rule.mem_mentioned {rules : List Rule} {v : Name} :
    v ∈ Rule.mentioned rules ↔ ∃ r ∈ rules, r.head = v ∨ .nonterminal v ∈ r.body := by
  simp only [mentioned, SortedSet.mem_ofList, List.mem_flatMap, List.mem_cons, List.mem_filterMap,
    Symbol.nonterminal?_eq_some]
  simp only [eq_comm, exists_eq_right]

end ContextFree
