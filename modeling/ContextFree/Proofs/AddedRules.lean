import ContextFree.Proofs.MoreRules

/-!
# ContextFree — closed names and pairs stand for added rules

What if the names or the pairs that a pass is given are too many? As long as a round adds nothing to
them, they are what the closure finds in a larger grammar. Names are found there if each has an
empty rule. Pairs are found there if each has a chain rule, provided that they join every generator
with itself and are joined end to end already, so that a path through old and added rules is one of
the pairs. The added rules show nowhere else: an empty rule has no variant that is kept, and a chain
rule is taken over by no name. So the pass answers as the one that goes by the larger grammar's own
names or pairs.

Main statements: `Grammar.isNullableSet_withEmptyRules` (closed names are nullable and no others
are) and `Grammar.closed_names_stand_for_empty_rules`; `Grammar.IsClosedPairSet.mem_of_chainPath`
(paths folded into a pair, by induction on the path) and
`Grammar.closed_pairs_stand_for_chain_rules`.
-/

namespace ContextFree

namespace Grammar

variable {g : Grammar} {names : SortedSet Name} {pairs : SortedSet Arc}

/-! ## Names and empty rules

Say that the pass drops a name that is not nullable. Nothing of the grammar itself accounts for
that, but an empty rule for the name would. Given names behave as if they had such rules as soon as
they are closed under a round; names that are not would make further names nullable once the rules
are there. -/

/-- The grammar with an empty rule more for each of the names. -/
def withEmptyRules (g : Grammar) (names : SortedSet Name) : Grammar :=
  g.withRules (g.rules ∪ names.map fun v => ⟨v, []⟩)

theorem mem_withEmptyRules {v : Name} {body : Form} :
    ⟨v, body⟩ ∈ (g.withEmptyRules names).rules ↔ ⟨v, body⟩ ∈ g.rules ∨ v ∈ names ∧ body = [] := by
  simp only [withEmptyRules, rules_withRules, SortedSet.mem_union, SortedSet.mem_map, Rule.mk.injEq]
  refine or_congr_right ⟨?_, ?_⟩
  · rintro ⟨u, hu, rfl, rfl⟩
    exact ⟨hu, rfl⟩
  · rintro ⟨hv, rfl⟩
    exact ⟨v, hv, rfl, rfl⟩

/-- The empty rules give a round their heads, and nothing else. -/
theorem addNullables_withEmptyRules (g : Grammar) (names found : SortedSet Name) :
    (g.withEmptyRules names).addNullables found = g.addNullables found ∪ names := by
  apply SortedSet.ext_mem
  intro v
  rw [SortedSet.mem_union, mem_addNullables, mem_addNullables]
  constructor
  · rintro (hv | ⟨⟨u, body⟩, hr, hbody, rfl⟩)
    · exact .inl (.inl hv)
    · rcases mem_withEmptyRules.1 hr with hr | ⟨hu, -⟩
      · exact .inl (.inr ⟨_, hr, hbody, rfl⟩)
      · exact .inr hu
  · rintro ((hv | ⟨r, hr, hbody, rfl⟩) | hv)
    · exact .inl hv
    · exact .inr ⟨r, mem_withEmptyRules.2 (.inl hr), hbody, rfl⟩
    · exact .inr ⟨⟨v, []⟩, mem_withEmptyRules.2 (.inr ⟨hv, rfl⟩), rfl, rfl⟩

/-- No name is nullable but those that a set has to have if a round adds nothing to it. -/
theorem IsNullableSet.subset_of_closed (hnames : g.IsNullableSet names) {closed : SortedSet Name}
    (hclosed : g.addNullables closed = closed) : names ⊆ closed := by
  intro v hv
  obtain ⟨n, hyield⟩ := hnames.mem_iff.1 hv
  have hround : g.addNullables^[n] ∅ ⊆ closed :=
    ((IsPartOf.refl g).addNullables_le closed).iterate_subset_of_closed (fun _ hu => hu)
      (SortedSet.empty_subset _) (SortedSet.subset_of_eq hclosed) n
  exact hround v (mem_iterate_of_yields_nil hyield)

/-- Names that a round adds nothing to are the nullable ones once each of them has an empty rule. -/
theorem isNullableSet_withEmptyRules (hclosed : g.addNullables names = names) :
    (g.withEmptyRules names).IsNullableSet names := by
  obtain ⟨own, -, hown⟩ := (g.withEmptyRules names).exists_computeNullable
  -- The names are closed in the larger grammar as well, so no others are nullable there.
  have hsame : (g.withEmptyRules names).addNullables names = names := by
    rw [addNullables_withEmptyRules, hclosed, SortedSet.union_self]
  have hall : names ⊆ own := fun v hv =>
    hown.mem_of_isNullable (mem_withEmptyRules.2 (.inr ⟨hv, rfl⟩)) rfl
  rwa [SortedSet.subset_antisymm (hown.subset_of_closed hsame) hall] at hown

/-- An empty rule has no variant that is kept. -/
theorem replaceEmptyRules_withEmptyRules (g : Grammar) (names dropped : SortedSet Name) :
    (g.withEmptyRules names).replaceEmptyRules dropped = g.replaceEmptyRules dropped := by
  refine eq_of_mem_rules rfl rfl fun ⟨v, body⟩ => ?_
  rw [mem_replaceEmptyRules_iff, mem_replaceEmptyRules_iff]
  refine and_congr_right fun hne => exists_congr fun source => and_congr_left fun hvariant => ?_
  rw [mem_withEmptyRules, or_iff_left]
  rintro ⟨-, rfl⟩
  exact hne (Form.mem_variants_nil.1 hvariant)

/-- **Too many names stand for empty rules.** Let names be given that a round adds nothing to. If
each of them had an empty rule, they would be the nullable names. And the pass that is given the
names answers as the pass does, going by its own nullable names, on the grammar with these rules
added. -/
theorem closed_names_stand_for_empty_rules {ε : Type} (hclosed : g.addNullables names = names) :
    (g.withEmptyRules names).computeNullable.outcome = .ok names ∧
      ∃ e : Grammar, (g.eliminateNullable names : Logged ε Grammar).outcome = .ok e ∧
        (g.withEmptyRules names).eliminateNullableRules.outcome = .ok e := by
  have hnames := isNullableSet_withEmptyRules hclosed
  refine ⟨outcome_computeNullable_iff.2 hnames, _, outcome_eliminateNullable g names, ?_⟩
  rw [outcome_eliminateNullableRules hnames, replaceEmptyRules_withEmptyRules]

/-- A letter between two names. The first can be left out, the second stands for a letter. -/
def optionalStart : Grammar where
  nonterminals := ∅
  goal := .text "S"
  rules := .ofList
    [⟨.text "S", [.nonterminal (.text "A"), .terminal (.text "b"), .nonterminal (.text "C")]⟩,
      ⟨.text "A", []⟩, ⟨.text "C", [.terminal (.text "c")]⟩]

/-- The second name, and one that heads no rule, are dropped as if they had empty rules. -/
theorem optionalStart_all_dropped :
    optionalStart.addNullables (.ofList [.text "A", .text "C", .text "D"]) =
        .ofList [.text "A", .text "C", .text "D"] ∧
      ∃ e : Grammar, (optionalStart.eliminateNullable (.ofList [.text "A", .text "C", .text "D"]) :
          Logged Refusal Grammar).outcome = .ok e ∧
        (optionalStart.withEmptyRules (.ofList [.text "A", .text "C", .text "D"])
          ).eliminateNullableRules.outcome = .ok e ∧
        ⟨.text "S", [.terminal (.text "b")]⟩ ∈ e.rules := by
  have hclosed : optionalStart.addNullables (.ofList [.text "A", .text "C", .text "D"]) =
      .ofList [.text "A", .text "C", .text "D"] := by
    decide +kernel
  obtain ⟨-, e, he, hadded⟩ := @closed_names_stand_for_empty_rules _ _ Refusal hclosed
  refine ⟨hclosed, e, he, hadded, ?_⟩
  obtain rfl : optionalStart.replaceEmptyRules (.ofList [.text "A", .text "C", .text "D"]) = e :=
    Except.ok.inj he
  rw [← SortedSet.mem_toList]
  decide +kernel

/-! ## Pairs and chain rules

With pairs there is more to ask for. A round puts chain rules of the grammar in front of a pair, but
never a pair in front of a pair, as a chain rule made of it would allow. So the pairs have to be
joined end to end already, and a generator has to be paired with itself, since the path with no
rules leads there. -/

/-- The grammar with a chain rule more for each of the pairs. -/
def withChainRules (g : Grammar) (pairs : SortedSet Arc) : Grammar :=
  g.withRules (g.rules ∪ pairs.map fun p => ⟨p.source, [.nonterminal p.target]⟩)

theorem mem_withChainRules {u : Name} {body : Form} :
    ⟨u, body⟩ ∈ (g.withChainRules pairs).rules ↔
      ⟨u, body⟩ ∈ g.rules ∨ ∃ v, ⟨u, v⟩ ∈ pairs ∧ body = [.nonterminal v] := by
  simp only [withChainRules, rules_withRules, SortedSet.mem_union, SortedSet.mem_map, Rule.mk.injEq]
  refine or_congr_right ⟨?_, ?_⟩
  · rintro ⟨⟨_, v⟩, hp, rfl, rfl⟩
    exact ⟨v, hp, rfl⟩
  · rintro ⟨v, hp, rfl⟩
    exact ⟨⟨u, v⟩, hp, rfl, rfl⟩

/-- The pairs join each generator with itself and are joined end to end already, and a round adds
nothing to them. -/
structure IsClosedPairSet (g : Grammar) (pairs : SortedSet Arc) : Prop where
  reflexive : ∀ v ∈ g.generators, ⟨v, v⟩ ∈ pairs
  transitive : ∀ u v w, ⟨u, v⟩ ∈ pairs → ⟨v, w⟩ ∈ pairs → ⟨u, w⟩ ∈ pairs
  closed : g.extendPairs pairs = pairs

/-- A path through chain rules and pairs to a generator is one of the pairs. -/
theorem IsClosedPairSet.mem_of_chainPath (hpairs : g.IsClosedPairSet pairs) {n : Nat} {u v : Name}
    (hpath : ChainPath (g.withChainRules pairs) n u v) (hv : v ∈ g.generators) :
    ⟨u, v⟩ ∈ pairs := by
  induction hpath with
  | nil v => exact hpairs.reflexive v hv
  | @cons n u x v first _ ih =>
    have hrest : ⟨x, v⟩ ∈ pairs := ih hv
    rcases mem_withChainRules.1 first with hrule | ⟨y, hpair, hbody⟩
    · -- A round would put the chain rule in front of the pair.
      rw [← hpairs.closed]
      exact mem_extendPairs.2 (.inr ⟨x, hrule, hrest⟩)
    · cases hbody
      exact hpairs.transitive u x v hpair hrest

/-- A name takes over the same rules along the pairs and along all paths through chain rules and
pairs. -/
theorem replaceChainRules_withChainRules (hpairs : g.IsClosedPairSet pairs) {own : SortedSet Arc}
    (hown : (g.withChainRules pairs).IsUnitPairSet own) :
    (g.withChainRules pairs).replaceChainRules own = g.replaceChainRules pairs := by
  refine eq_of_mem_rules rfl rfl fun r => ?_
  rw [mem_replaceChainRules_iff hown, mem_replaceChainRules]
  refine and_congr_right fun hshape => exists_congr fun v => ?_
  -- No rule of another shape was added.
  have hother : ⟨v, r.body⟩ ∈ (g.withChainRules pairs).rules ↔ ⟨v, r.body⟩ ∈ g.rules := by
    rw [mem_withChainRules, or_iff_left]
    rintro ⟨x, -, hbody⟩
    exact Rule.isChain_eq_false_iff.1 hshape x hbody
  rw [hother]
  constructor
  · rintro ⟨n, hpath, hr⟩
    exact ⟨hpairs.mem_of_chainPath hpath (mem_generators.2 ⟨_, hr, rfl⟩), hr⟩
  · rintro ⟨hpair, hr⟩
    -- The pair is a chain rule itself now.
    exact ⟨1, .cons (mem_withChainRules.2 (.inr ⟨v, hpair, rfl⟩)) (.nil v), hr⟩

/-- **Too many pairs stand for chain rules.** Let pairs be given that join each generator with
itself, are joined end to end already and that a round adds nothing to, whatever other names they
join. The pass that is given the pairs answers as the pass does, going by its own unit pairs, on the
grammar with a chain rule added for each pair. -/
theorem closed_pairs_stand_for_chain_rules {ε : Type} (hpairs : g.IsClosedPairSet pairs) :
    ∃ e : Grammar, (g.eliminateChains pairs : Logged ε Grammar).outcome = .ok e ∧
      (g.withChainRules pairs).eliminateUnitRules.outcome = .ok e := by
  obtain ⟨own, -, hown⟩ := (g.withChainRules pairs).exists_computeUnitPairs
  refine ⟨_, outcome_eliminateChains g pairs, ?_⟩
  rw [outcome_eliminateUnitRules hown, replaceChainRules_withChainRules hpairs hown]

/-- A name that is renamed once, and another name, each standing for a letter in the end. -/
def renamedOnce : Grammar where
  nonterminals := ∅
  goal := .text "S"
  rules := .ofList
    [⟨.text "S", [.nonterminal (.text "A")]⟩, ⟨.text "A", [.terminal (.text "a")]⟩,
      ⟨.text "B", [.terminal (.text "b")]⟩]

/-- Pairs by which the renamed name stands for the other letter as well, and so does a name that
heads no rule. They also lead to such a name. -/
def shortcuts : SortedSet Arc :=
  .ofList
    [⟨.text "S", .text "S"⟩, ⟨.text "A", .text "A"⟩, ⟨.text "B", .text "B"⟩,
      ⟨.text "S", .text "A"⟩, ⟨.text "A", .text "B"⟩, ⟨.text "S", .text "B"⟩,
      ⟨.text "X", .text "A"⟩, ⟨.text "X", .text "B"⟩,
      ⟨.text "A", .text "Y"⟩, ⟨.text "S", .text "Y"⟩, ⟨.text "X", .text "Y"⟩]

/-- There are a few pairs only, so that they are closed is checked one by one. -/
theorem isClosedPairSet_shortcuts : renamedOnce.IsClosedPairSet shortcuts where
  reflexive v hv := by
    have hall : ∀ v ∈ renamedOnce.generators.toList, ⟨v, v⟩ ∈ shortcuts := by decide +kernel
    exact hall v (SortedSet.mem_toList.2 hv)
  transitive u v w huv hvw := by
    have hall : ∀ p ∈ shortcuts.toList, ∀ q ∈ shortcuts.toList, p.target = q.source →
        ⟨p.source, q.target⟩ ∈ shortcuts := by
      decide +kernel
    exact hall _ (SortedSet.mem_toList.2 huv) _ (SortedSet.mem_toList.2 hvw) rfl
  closed := by decide +kernel

/-- The name that heads no rule takes over a letter, as it does where the pairs are chain rules. -/
theorem shortcuts_taken_over :
    renamedOnce.IsClosedPairSet shortcuts ∧
      ∃ e : Grammar, (renamedOnce.eliminateChains shortcuts : Logged Refusal Grammar).outcome =
          .ok e ∧
        (renamedOnce.withChainRules shortcuts).eliminateUnitRules.outcome = .ok e ∧
        ⟨.text "X", [.terminal (.text "b")]⟩ ∈ e.rules := by
  obtain ⟨e, he, hadded⟩ :=
    @closed_pairs_stand_for_chain_rules _ _ Refusal isClosedPairSet_shortcuts
  refine ⟨isClosedPairSet_shortcuts, e, he, hadded, ?_⟩
  obtain rfl : renamedOnce.replaceChainRules shortcuts = e := Except.ok.inj he
  rw [← SortedSet.mem_toList]
  decide +kernel

end Grammar

end ContextFree
