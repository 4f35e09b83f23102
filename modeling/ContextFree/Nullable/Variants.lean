import ContextFree.Nullable.Names

/-!
# ContextFree — variants and the elimination of empty rules

A variant of a form leaves out some occurrences of nullable nonterminals and keeps the rest in
order. A grammar whose rules are replaced by all their variants that are not empty has no empty
rule, and with the right nullable names it loses no word but the empty one.

Main statements: `Form.mem_variants_cons` builds variants from the front, and
`Grammar.mem_replaceEmptyRules` says that the rules of the result are the variants that are not
empty.
-/

namespace ContextFree

/-- Every form that comes of dropping any occurrences of nonterminals named in the set. -/
def Form.variants (names : SortedSet Name) : Form → SortedSet Form
  | [] => {[]}
  | s :: rest =>
    let tails := variants names rest
    let kept := tails.map (s :: ·)
    if s.isDroppable names then kept ∪ tails else kept

/-- The rules with the variants of the body that are not empty. -/
def Rule.variants (names : SortedSet Name) (r : Rule) : List Rule :=
  (Form.variants names r.body).toList.filterMap fun body =>
    if body.isEmpty then none else some ⟨r.head, body⟩

/-- A variant keeps the first symbol in front of a variant of the rest, or drops it where that is
allowed. -/
theorem Form.mem_variants_cons {names : SortedSet Name} {s : Symbol} {rest form : Form} :
    form ∈ variants names (s :: rest) ↔
      (∃ tail ∈ variants names rest, s :: tail = form) ∨
        s.isDroppable names = true ∧ form ∈ variants names rest := by
  simp only [variants]
  split <;> simp_all

theorem Form.cons_mem_variants {names : SortedSet Name} {s : Symbol} {rest tail : Form}
    (h : tail ∈ variants names rest) : s :: tail ∈ variants names (s :: rest) :=
  mem_variants_cons.2 (.inl ⟨tail, h, rfl⟩)

theorem Form.mem_variants_of_droppable {names : SortedSet Name} {s : Symbol} {rest form : Form}
    (hdrop : s.isDroppable names = true) (h : form ∈ variants names rest) :
    form ∈ variants names (s :: rest) :=
  mem_variants_cons.2 (.inr ⟨hdrop, h⟩)

theorem Rule.mem_variants {names : SortedSet Name} {r s : Rule} :
    s ∈ r.variants names ↔ s.head = r.head ∧ s.body ∈ Form.variants names r.body ∧ s.body ≠ [] := by
  simp only [Rule.variants, List.mem_filterMap, SortedSet.mem_toList, Option.ite_none_left_eq_some,
    Option.some.injEq, List.isEmpty_iff]
  constructor
  · rintro ⟨body, hbody, hne, rfl⟩
    exact ⟨rfl, hbody, hne⟩
  · rintro ⟨hhead, hbody, hne⟩
    exact ⟨s.body, hbody, hne, by rw [← hhead]⟩

namespace Grammar

/-- Every rule replaced by its variants. -/
def replaceEmptyRules (g : Grammar) (names : SortedSet Name) : Grammar :=
  g.withRules (g.rules.flatMap (Rule.variants names))

/-- Replaces every rule by its variants, and reports how many rules there were and are. -/
def eliminateNullable {ε : Type} (g : Grammar) (names : SortedSet Name) : Logged ε Grammar := do
  let result := g.replaceEmptyRules names
  Logged.report (.emptyRulesReplaced g.rules.size result.rules.size)
  return result

/-- The same with the grammar's own nullable names. -/
def eliminateNullableRules (g : Grammar) : Logged (Fault Name) Grammar := do
  let names ← g.computeNullable
  g.eliminateNullable names

@[simp] theorem nonterminals_replaceEmptyRules (g : Grammar) (names : SortedSet Name) :
    (g.replaceEmptyRules names).nonterminals = g.nonterminals :=
  rfl

@[simp] theorem goal_replaceEmptyRules (g : Grammar) (names : SortedSet Name) :
    (g.replaceEmptyRules names).goal = g.goal :=
  rfl

/-- A rule of the result has a body that is not empty and is a variant of a body that its head had.
-/
theorem mem_replaceEmptyRules {g : Grammar} {names : SortedSet Name} {r : Rule} :
    r ∈ (g.replaceEmptyRules names).rules ↔
      r.body ≠ [] ∧ ∃ s ∈ g.rules, s.head = r.head ∧ r.body ∈ Form.variants names s.body := by
  simp only [replaceEmptyRules, rules_withRules, SortedSet.mem_flatMap, Rule.mem_variants]
  constructor
  · rintro ⟨s, hs, hhead, hbody, hne⟩
    exact ⟨hne, s, hs, hhead.symm, hbody⟩
  · rintro ⟨hne, s, hs, hhead, hbody⟩
    exact ⟨s, hs, hhead.symm, hbody, hne⟩

/-- With the names given, nothing can fail. -/
theorem outcome_eliminateNullable {ε : Type} (g : Grammar) (names : SortedSet Name) :
    (g.eliminateNullable names : Logged ε Grammar).outcome = .ok (g.replaceEmptyRules names) :=
  rfl

end Grammar

end ContextFree
