import ContextFree.Proofs.LeastFixedPoint
import ContextFree.Proofs.ListedNames
import ContextFree.Proofs.NullableRounds
import ContextFree.Proofs.PassOrder

/-!
# ContextFree — more rules give no less

A grammar with more rules has closures of its own: they run for other numbers of rounds, within
other rooms, and its words are found in other passes. Still nothing is lost, and nothing is found
later. Round by round more is nullable, since a body that is nullable given fewer names is so given
more; a chain path stays one, so distances do not grow; and a yield stays one, so a table lists the
same names and words and more.

Main statements: `Grammar.IsPartOf.iterate_addNullables_subset` (the rounds compared), one statement
for each answer, such as `Grammar.IsPartOf.unitPairTable_le`, and
`Grammar.more_rules_give_no_less`.
-/

namespace ContextFree

open Closure Rewriting

theorem Saturation.Makes.mono {rules rules' : List Rule} (hsub : ∀ r ∈ rules, r ∈ rules')
    {limit : Int} {v : Name} {w : Word} (h : Makes limit rules v w) : Makes limit rules' v w := by
  obtain ⟨n, body, hr, hbody, hlimit⟩ := h
  exact ⟨n, body, hsub _ hr, hbody.mono hsub, hlimit⟩

theorem Saturation.Listed.mono {declared : SortedSet Name} {rules rules' : List Rule}
    (hsub : ∀ r ∈ rules, r ∈ rules') {limit : Int} {v : Name}
    (h : Listed declared rules limit v) : Listed declared rules' limit v := by
  cases h with
  | declared hv => exact .declared hv
  | head hr => exact .head (hsub _ hr)
  | lookedUp hr hbefore =>
    refine .lookedUp (hsub _ hr) (hbefore.imp_right ?_)
    rintro ⟨n, w, hyield, hlimit⟩
    exact ⟨n, w, hyield.mono hsub, hlimit⟩

/-- A table made of more rules lists the same names and more, each with the same words and more. -/
theorem Saturation.exists_words_of_subset (declared : SortedSet Name) {rules rules' : List Rule}
    (hsub : ∀ r ∈ rules, r ∈ rules') {limit : Int} {v : Name} {words : SortedSet Word}
    (hwords : (ofRules declared rules limit).table[v]? = some words) :
    ∃ words', (ofRules declared rules' limit).table[v]? = some words' ∧ words ⊆ words' := by
  have hlisted : v ∈ (ofRules declared rules limit).table := by
    rw [Std.TreeMap.mem_iff_isSome_getElem?, hwords]
    rfl
  have hlisted' := mem_table_ofRules.2 ((mem_table_ofRules.1 hlisted).mono hsub)
  refine ⟨_, WordTable.getElem?_of_mem hlisted', fun w hw => ?_⟩
  have hmade : w ∈ (ofRules declared rules limit).table.wordsFor v := by
    rwa [WordTable.wordsFor_eq, hwords]
  exact mem_wordsFor_ofRules.2 ((mem_wordsFor_ofRules.1 hmade).mono hsub)

namespace Grammar

/-- The universe and the goal are the same, and the rules are some of the other's rules. -/
structure IsPartOf (g h : Grammar) : Prop where
  nonterminals : g.nonterminals = h.nonterminals
  goal : g.goal = h.goal
  rules : g.rules ⊆ h.rules

namespace IsPartOf

variable {g h : Grammar}

/-- A grammar is part of itself. So whatever is shown here about a larger grammar applies to larger
names and pairs in the same grammar. -/
theorem refl (g : Grammar) : g.IsPartOf g :=
  ⟨rfl, rfl, fun _ hr => hr⟩

theorem mem_generators_of_mem (hpart : g.IsPartOf h) {v : Name} (hv : v ∈ g.generators) :
    v ∈ h.generators := by
  obtain ⟨r, hr, rfl⟩ := mem_generators.1 hv
  exact mem_generators.2 ⟨r, hpart.rules r hr, rfl⟩

/-! ## Nullable names

The sets are compared round by round and in the end. The rounds of the trace follow from the first
comparison, as a name that some round has found with fewer rules has been found by then with
more. -/

/-- One round with more rules, and with more names to start from, finds no less. -/
theorem addNullables_le (hpart : g.IsPartOf h) (whole : SortedSet Name) :
    LeWithin whole g.addNullables h.addNullables := by
  intro names names' hsub _ v hv
  rcases mem_addNullables.1 hv with hv | ⟨r, hr, hbody, rfl⟩
  · exact mem_addNullables.2 (.inl (hsub v hv))
  · exact mem_addNullables.2
      (.inr ⟨r, hpart.rules r hr, Form.isNullable_mono hsub hbody, rfl⟩)

/-- After as many rounds there are at least as many nullable names. -/
theorem iterate_addNullables_subset (hpart : g.IsPartOf h) (k : Nat) :
    g.addNullables^[k] ∅ ⊆ h.addNullables^[k] ∅ :=
  (hpart.addNullables_le h.generators).iterate_subset_iterate
    (h.growsWithin_addNullables.iterate_subset (SortedSet.empty_subset _))
    (SortedSet.empty_subset _) k

/-- In the end there are no fewer nullable names. -/
theorem nullable_subset (hpart : g.IsPartOf h) {names names' : SortedSet Name}
    (hnames : g.IsNullableSet names) (hnames' : h.IsNullableSet names') : names ⊆ names' := by
  intro v hv
  obtain ⟨n, hyield⟩ := hnames.mem_iff.1 hv
  refine hnames'.mem_iff.2 ⟨n, hyield.mono fun r hr => ?_⟩
  exact SortedSet.mem_toList.2 (hpart.rules r (SortedSet.mem_toList.1 hr))

/-- A name with a row in the trace has one row in the other trace, and there its round is no later.
-/
theorem nullableTrace_le (hpart : g.IsPartOf h) :
    ∃ rows rows', g.nullableTrace.outcome = .ok rows ∧ h.nullableTrace.outcome = .ok rows' ∧
      ∀ v r, ⟨v, r⟩ ∈ rows → ∃ r' ≤ r, ∀ k, ⟨v, k⟩ ∈ rows' ↔ k = r' := by
  obtain ⟨rows, houtcome, hrows⟩ := g.exists_nullableTrace
  obtain ⟨rows', houtcome', hrows'⟩ := h.exists_nullableTrace
  refine ⟨rows, rows', houtcome, houtcome', fun v r hr => ?_⟩
  have hfound : v ∈ h.addNullables^[r] ∅ :=
    hpart.iterate_addNullables_subset r v ((hrows v r).1 hr).1
  classical
  have hleast : IsLeast {k | v ∈ h.addNullables^[k] ∅} _ := Nat.isLeast_find ⟨r, hfound⟩
  refine ⟨_, hleast.2 hfound, fun k => (hrows' v k).trans ⟨fun hk => hk.unique hleast, ?_⟩⟩
  rintro rfl
  exact hleast

/-! ## Unit pairs

A chain path of the part is a chain path of the whole. The shortest one there is no longer, so a
cell of the larger table has no larger number. -/

/-- A unit pair is still one, as its path is still there. -/
theorem unitPairs_subset (hpart : g.IsPartOf h) {pairs pairs' : SortedSet Arc}
    (hpairs : g.IsUnitPairSet pairs) (hpairs' : h.IsUnitPairSet pairs') : pairs ⊆ pairs' := by
  rintro ⟨u, w⟩ hp
  obtain ⟨hw, n, hpath⟩ := (hpairs u w).1 hp
  exact (hpairs' u w).2 ⟨hpart.mem_generators_of_mem hw, n, hpath.mono hpart.rules⟩

/-- A name with a row in the table has one in the other table, and where a cell has a round the
other one has a round that is no later. -/
theorem unitPairTable_le (hpart : g.IsPartOf h) :
    ∃ table table', g.unitPairTable.outcome = .ok table ∧ h.unitPairTable.outcome = .ok table' ∧
      table.index ⊆ table'.index ∧
      ∀ u w n, table.cell u w = some n → ∃ n' ≤ n, table'.cell u w = some n' := by
  obtain ⟨table, houtcome, -, hindex, -, hcells⟩ := g.exists_unitPairTable
  obtain ⟨table', houtcome', -, hindex', -, hcells'⟩ := h.exists_unitPairTable
  refine ⟨table, table', houtcome, houtcome', fun v hv => ?_, fun u w n hn => ?_⟩
  · exact (hindex' v).2 (hpart.mem_generators_of_mem ((hindex v).1 hv))
  · obtain ⟨hw, hleast⟩ := (hcells u w n).1 hn
    have hpath : ChainPath h n u w := ChainPath.mono hpart.rules hleast.1
    obtain ⟨n', hleast'⟩ := hpath.exists_isLeast
    exact ⟨n', hleast'.2 hpath, (hcells' u w n').2 ⟨hpart.mem_generators_of_mem hw, hleast'⟩⟩

/-! ## The passes

Names, pairs and rules may all become more. The passes only put them together. -/

/-- More names and more rules make more variants. -/
theorem replaceEmptyRules_subset (hpart : g.IsPartOf h) {names names' : SortedSet Name}
    (hsub : names ⊆ names') :
    (g.replaceEmptyRules names).rules ⊆ (h.replaceEmptyRules names').rules := by
  rintro ⟨v, body⟩ hr
  obtain ⟨hne, source, hs, hvariant⟩ := mem_replaceEmptyRules_iff.1 hr
  exact mem_replaceEmptyRules_iff.2
    ⟨hne, source, hpart.rules _ hs, Form.variants_mono hsub source body hvariant⟩

/-- Along more pairs more rules are taken over, and if there are more rules as well, more still. -/
theorem replaceChainRules_subset (hpart : g.IsPartOf h) {pairs pairs' : SortedSet Arc}
    (hsub : pairs ⊆ pairs') :
    (g.replaceChainRules pairs).rules ⊆ (h.replaceChainRules pairs').rules := by
  intro r hr
  obtain ⟨hshape, v, hpair, hs⟩ := mem_replaceChainRules.1 hr
  exact mem_replaceChainRules.2 ⟨hshape, v, hsub _ hpair, hpart.rules _ hs⟩

end IsPartOf

/-- **More rules give no less.** Add rules to a grammar, and the nullable names and the unit pairs
are still there, none of them found in a later round; so are the rules that each of the passes
answers with; and whatever the limit and the order of the rules, each name that the word table lists
is still listed, with its words. -/
theorem more_rules_give_no_less {g h : Grammar} (hpart : g.IsPartOf h) :
    (∃ names names' : SortedSet Name, g.computeNullable.outcome = .ok names ∧
      h.computeNullable.outcome = .ok names' ∧ names ⊆ names') ∧
    (∃ rows rows', g.nullableTrace.outcome = .ok rows ∧ h.nullableTrace.outcome = .ok rows' ∧
      ∀ v r, ⟨v, r⟩ ∈ rows → ∃ r' ≤ r, ∀ k, ⟨v, k⟩ ∈ rows' ↔ k = r') ∧
    (∃ pairs pairs' : SortedSet Arc, g.computeUnitPairs.outcome = .ok pairs ∧
      h.computeUnitPairs.outcome = .ok pairs' ∧ pairs ⊆ pairs') ∧
    (∃ table table', g.unitPairTable.outcome = .ok table ∧ h.unitPairTable.outcome = .ok table' ∧
      table.index ⊆ table'.index ∧
      ∀ u w n, table.cell u w = some n → ∃ n' ≤ n, table'.cell u w = some n') ∧
    (∃ e e' : Grammar, g.eliminateNullableRules.outcome = .ok e ∧
      h.eliminateNullableRules.outcome = .ok e' ∧ e.rules ⊆ e'.rules) ∧
    (∃ e e' : Grammar, g.eliminateUnitRules.outcome = .ok e ∧
      h.eliminateUnitRules.outcome = .ok e' ∧ e.rules ⊆ e'.rules) ∧
    ∀ (limit : Int) (rules rules' : List Rule), (∀ r, r ∈ rules ↔ r ∈ g.rules) →
      (∀ r, r ∈ rules' ↔ r ∈ h.rules) →
      ∀ (v : Name) (words : SortedSet Word),
        (Saturation.ofRules g.nonterminals rules limit).table[v]? = some words →
        ∃ words', (Saturation.ofRules h.nonterminals rules' limit).table[v]? = some words' ∧
          words ⊆ words' := by
  obtain ⟨names, houtcome, hnames⟩ := g.exists_computeNullable
  obtain ⟨names', houtcome', hnames'⟩ := h.exists_computeNullable
  obtain ⟨pairs, hunit, hpairs⟩ := g.exists_computeUnitPairs
  obtain ⟨pairs', hunit', hpairs'⟩ := h.exists_computeUnitPairs
  have hnullable := hpart.nullable_subset hnames hnames'
  have hchains := hpart.unitPairs_subset hpairs hpairs'
  refine ⟨⟨names, names', houtcome, houtcome', hnullable⟩, hpart.nullableTrace_le,
    ⟨pairs, pairs', hunit, hunit', hchains⟩, hpart.unitPairTable_le,
    ⟨_, _, outcome_eliminateNullableRules hnames, outcome_eliminateNullableRules hnames',
      hpart.replaceEmptyRules_subset hnullable⟩,
    ⟨_, _, outcome_eliminateUnitRules hpairs, outcome_eliminateUnitRules hpairs',
      hpart.replaceChainRules_subset hchains⟩, ?_⟩
  intro limit rules rules' hrules hrules' v words hwords
  -- Both tables are given the same declared names.
  rw [← hpart.nonterminals]
  exact Saturation.exists_words_of_subset g.nonterminals
    (fun r hr => (hrules' r).2 (hpart.rules r ((hrules r).1 hr))) hwords

/-- A name that is nullable only by way of another. -/
def indirect : Grammar where
  nonterminals := ∅
  goal := .text "S"
  rules := .ofList [⟨.text "A", []⟩, ⟨.text "S", [.nonterminal (.text "A")]⟩]

/-- The same with a rule by which it is nullable at once. -/
def direct : Grammar :=
  indirect.withRules (insert ⟨.text "S", []⟩ indirect.rules)

/-- The second round finds the goal, and with the rule added it has one round, which is no later. -/
theorem indirect_part_of_direct : indirect.IsPartOf direct ∧
    ∃ rows rows', indirect.nullableTrace.outcome = .ok rows ∧
      direct.nullableTrace.outcome = .ok rows' ∧ ⟨.text "S", 2⟩ ∈ rows ∧
      ∃ r ≤ 2, ∀ k, ⟨.text "S", k⟩ ∈ rows' ↔ k = r := by
  have hpart : indirect.IsPartOf direct := ⟨rfl, rfl, by decide +kernel⟩
  obtain ⟨-, ⟨rows, rows', houtcome, houtcome', hrows⟩, -⟩ := more_rules_give_no_less hpart
  have hS : ⟨.text "S", 2⟩ ∈ rows := by
    obtain ⟨rows'', houtcome'', hleast⟩ := indirect.exists_nullableTrace
    obtain rfl : rows'' = rows := Except.ok.inj (houtcome''.symm.trans houtcome)
    exact (hleast _ 2).2 (isLeast_round_succ (by decide +kernel) (by decide +kernel))
  exact ⟨hpart, rows, rows', houtcome, houtcome', hS, hrows _ 2 hS⟩

end Grammar

end ContextFree
