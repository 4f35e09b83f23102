import ContextFree.Proofs.Build
import ContextFree.Proofs.PassOrder

/-!
# ContextFree — what the passes keep of a grammar

A grammar made from plain rules declares every nonterminal that its rules use, and none of them is a
terminal. The passes check neither of the two. They are kept all the same, along with the universe
and the goal, whatever names or pairs a pass is given: a variant of a rule has its head and some of
its symbols, and a rule that is taken over gets the source of a pair for its head. No terminal is
lost either, except along pairs that were given: a rule with a terminal is its own variant, and it
is no chain rule, so its head takes it over from itself.

Main statements: `Replacement.exists_run_keeps` (what one pass keeps) and
`Replacement.exists_runAll_keeps` (what passes keep, by induction on them), and
`Grammar.passes_keep_declarations`.
-/

namespace ContextFree

/-- A pass over the rules: with the nullable names or unit pairs of the grammar itself, or with any
that are given. -/
inductive Replacement
  | own (pass : Elimination)
  | emptyRules (names : SortedSet Name)
  | chainRules (pairs : SortedSet Arc)

namespace Replacement

/-- Runs one pass. Given names and pairs are taken as they are, without a closure. -/
def run (g : Grammar) : Replacement → Logged Refusal Grammar
  | .own pass => pass.run g
  | .emptyRules names => g.eliminateNullable names
  | .chainRules pairs => g.eliminateChains pairs

/-- Runs the passes one after another, each on the answer of the one before. -/
def runAll (passes : List Replacement) (g : Grammar) : Logged Refusal Grammar :=
  passes.foldlM run g

/-- The pairs that are given, if any are, join the names. Nullable names that are given may be any.
-/
def Within (names : SortedSet Name) : Replacement → Prop
  | .chainRules pairs => pairs ⊆ Grammar.pairsWithin names
  | _ => True

/-- The pass goes along pairs that are given. These alone can cost terminals. -/
def GivesPairs : Replacement → Prop
  | .chainRules _ => True
  | _ => False

end Replacement

namespace Grammar

variable {g : Grammar} {names : SortedSet Name} {pairs : SortedSet Arc}

/-- The universe has every nonterminal that the rules use. -/
structure IsDeclared (g : Grammar) : Prop where
  heads : ∀ r ∈ g.rules, r.head ∈ g.nonterminals
  bodies : ∀ r ∈ g.rules, ∀ v, .nonterminal v ∈ r.body → v ∈ g.nonterminals

/-! ## Grammars made from plain rules

The universe of such a grammar has the goal and the names that the rules use as nonterminals.
Terminals were told apart from these when the grammar was made, except that the goal may be called
like one of them. -/

/-- A grammar starts out with everything declared, since its universe is collected from the rules.
-/
theorem isDeclared_of_build {goal : Name} {terminals : SortedSet Name} {rules : List PlainRule}
    (hbuild : build goal terminals rules = .ok g) : g.IsDeclared where
  heads r hr := (mem_nonterminals_of_build hbuild).2 (.inr ⟨r, hr, .inl rfl⟩)
  bodies r hr _ hv := (mem_nonterminals_of_build hbuild).2 (.inr ⟨r, hr, .inr hv⟩)

/-- Names have one role in a grammar that was made, if the goal is no terminal. -/
theorem not_mem_terminals_of_build {goal : Name} {terminals : SortedSet Name}
    {rules : List PlainRule} (hbuild : build goal terminals rules = .ok g)
    (hgoal : goal ∉ terminals) : ∀ v ∈ g.nonterminals, v ∉ g.terminals := by
  intro v hv hterminal
  rcases (mem_nonterminals_of_build hbuild).1 hv with rfl | hused
  · exact hgoal ((mem_terminals_of_build_iff hbuild).1 hterminal).1
  · exact not_both_roles_of_build hbuild (mem_terminals.1 hterminal) hused

/-! ## What one pass does to declarations and terminals

The two passes are looked at with any names and any pairs. Only for the terminals it makes a
difference whether the pairs are those of the grammar. -/

/-- A variant has no symbols but those of the rule it is a variant of. -/
theorem IsDeclared.replaceEmptyRules (h : g.IsDeclared) :
    (g.replaceEmptyRules names).IsDeclared where
  heads r hr := by
    obtain ⟨-, s, hs, hhead, -⟩ := mem_replaceEmptyRules.1 hr
    rw [← hhead]
    exact h.heads s hs
  bodies r hr v hv := by
    obtain ⟨-, s, hs, -, hvariant⟩ := mem_replaceEmptyRules.1 hr
    exact h.bodies s hs v ((Form.sublist_of_mem_variants hvariant).subset hv)

/-- A rule that is taken over has its body from an old rule and its head from a pair, so the sources
of the pairs have to be declared. -/
theorem IsDeclared.replaceChainRules (h : g.IsDeclared)
    (hsources : ∀ u v, ⟨u, v⟩ ∈ pairs → u ∈ g.nonterminals) :
    (g.replaceChainRules pairs).IsDeclared where
  heads r hr := by
    obtain ⟨-, v, hpair, -⟩ := mem_replaceChainRules.1 hr
    exact hsources r.head v hpair
  bodies r hr := by
    obtain ⟨-, v, -, hs⟩ := mem_replaceChainRules.1 hr
    exact h.bodies ⟨v, r.body⟩ hs

/-- A rule with a terminal has itself for a variant, and that one is not empty. -/
theorem terminals_replaceEmptyRules (g : Grammar) (names : SortedSet Name) :
    (g.replaceEmptyRules names).terminals = g.terminals := by
  refine SortedSet.ext_mem fun a => ?_
  rw [mem_terminals, mem_terminals]
  constructor
  · rintro ⟨r, hr, ha⟩
    obtain ⟨-, s, hs, -, hvariant⟩ := mem_replaceEmptyRules.1 hr
    exact ⟨s, hs, (Form.sublist_of_mem_variants hvariant).subset ha⟩
  · rintro ⟨r, hr, ha⟩
    exact ⟨r, mem_replaceEmptyRules.2
      ⟨List.ne_nil_of_mem ha, r, hr, rfl, Form.self_mem_variants r.body⟩, ha⟩

/-- Bodies are taken over as they are, so no terminal is new. -/
theorem terminals_replaceChainRules_subset (g : Grammar) (pairs : SortedSet Arc) :
    (g.replaceChainRules pairs).terminals ⊆ g.terminals := by
  intro a ha
  obtain ⟨r, hr, ha⟩ := mem_terminals.1 ha
  obtain ⟨-, v, -, hs⟩ := mem_replaceChainRules.1 hr
  exact mem_terminals.2 ⟨_, hs, ha⟩

/-- A rule with a terminal is no chain rule, so with the unit pairs of the grammar it is kept. -/
theorem terminals_replaceChainRules (hpairs : g.IsUnitPairSet pairs) :
    (g.replaceChainRules pairs).terminals = g.terminals := by
  refine SortedSet.subset_antisymm (g.terminals_replaceChainRules_subset pairs) fun a ha => ?_
  obtain ⟨r, hr, ha⟩ := mem_terminals.1 ha
  have hshape : r.isChain = false := by
    rw [Rule.isChain_eq_false_iff]
    intro v hbody
    rw [hbody, List.mem_singleton] at ha
    cases ha
  exact mem_terminals.2 ⟨r, mem_replaceChainRules_of_not_chain hpairs hr hshape, ha⟩

end Grammar

namespace Replacement

open Grammar

variable {g : Grammar}

/-! ## One pass and many

What is kept by a pass is put into one relation between the grammar before it and the grammar after
it. It is transitive, so that it holds for any number of passes. -/

/-- What passes keep of the grammar before them: everything but the rules, and what those use. -/
structure Keeps (before after : Grammar) : Prop where
  nonterminals : after.nonterminals = before.nonterminals
  goal : after.goal = before.goal
  declared : after.IsDeclared
  terminals : after.terminals ⊆ before.terminals

theorem Keeps.refl (h : g.IsDeclared) : Keeps g g :=
  ⟨rfl, rfl, h, fun _ ha => ha⟩

/-- What two passes keep one after the other, they keep together. -/
theorem Keeps.trans {a b c : Grammar} (hab : Keeps a b) (hbc : Keeps b c) : Keeps a c where
  nonterminals := hbc.nonterminals.trans hab.nonterminals
  goal := hbc.goal.trans hab.goal
  declared := hbc.declared
  terminals v hv := hab.terminals v (hbc.terminals v hv)

/-- With any names at all the first pass keeps what there is, even all of the terminals. -/
theorem keeps_replaceEmptyRules (hdeclared : g.IsDeclared) (names : SortedSet Name) :
    Keeps g (g.replaceEmptyRules names) where
  nonterminals := rfl
  goal := rfl
  declared := hdeclared.replaceEmptyRules
  terminals := SortedSet.subset_of_eq (g.terminals_replaceEmptyRules names)

/-- The second pass needs declared sources, and may lose a terminal. -/
theorem keeps_replaceChainRules (hdeclared : g.IsDeclared) {pairs : SortedSet Arc}
    (hsources : ∀ u v, ⟨u, v⟩ ∈ pairs → u ∈ g.nonterminals) :
    Keeps g (g.replaceChainRules pairs) where
  nonterminals := rfl
  goal := rfl
  declared := hdeclared.replaceChainRules hsources
  terminals := g.terminals_replaceChainRules_subset pairs

/-- A pass comes out whatever it is given, and only pairs that are given can cost terminals. -/
theorem exists_run_keeps (hdeclared : g.IsDeclared) {pass : Replacement}
    (hwithin : pass.Within g.nonterminals) :
    ∃ h, (pass.run g).outcome = .ok h ∧ Keeps g h ∧
      (¬ pass.GivesPairs → h.terminals = g.terminals) := by
  match pass with
  | .own .emptyRules =>
    obtain ⟨names, -, hnames⟩ := g.exists_computeNullable
    exact ⟨_, Elimination.outcome_run_emptyRules hnames, keeps_replaceEmptyRules hdeclared names,
      fun _ => g.terminals_replaceEmptyRules names⟩
  | .own .chainRules =>
    obtain ⟨pairs, -, hpairs⟩ := g.exists_computeUnitPairs
    -- The source of a unit pair heads a rule, and heads are declared.
    have hsources : ∀ u v, ⟨u, v⟩ ∈ pairs → u ∈ g.nonterminals := by
      intro u v hpair
      obtain ⟨hv, n, hpath⟩ := (hpairs u v).1 hpair
      obtain ⟨r, hr, rfl⟩ := mem_generators.1 (hpath.source_mem_generators hv)
      exact hdeclared.heads r hr
    exact ⟨_, Elimination.outcome_run_chainRules hpairs,
      keeps_replaceChainRules hdeclared hsources, fun _ => terminals_replaceChainRules hpairs⟩
  | .emptyRules names =>
    exact ⟨_, g.outcome_eliminateNullable names, keeps_replaceEmptyRules hdeclared names,
      fun _ => g.terminals_replaceEmptyRules names⟩
  | .chainRules pairs =>
    -- Here it is assumed of the pairs that their names are declared.
    have hsources : ∀ u v, ⟨u, v⟩ ∈ pairs → u ∈ g.nonterminals :=
      fun u v hpair => (mem_pairsWithin.1 (hwithin _ hpair)).1
    exact ⟨_, g.outcome_eliminateChains pairs, keeps_replaceChainRules hdeclared hsources,
      fun hgives => absurd trivial hgives⟩

/-- One pass more goes on from the answer of the passes before it. -/
theorem outcome_runAll_concat {passes : List Replacement} {middle : Grammar}
    (h : (runAll passes g).outcome = .ok middle) (pass : Replacement) :
    (runAll (passes ++ [pass]) g).outcome = (pass.run middle).outcome := by
  unfold runAll at h ⊢
  rw [List.foldlM_append, Logged.outcome_bind_ok h, List.foldlM_cons]
  simp only [List.foldlM_nil, bind_pure]

/-- Passes one after another come out and keep what each of them keeps. -/
theorem exists_runAll_keeps (hdeclared : g.IsDeclared) {passes : List Replacement}
    (hwithin : ∀ pass ∈ passes, pass.Within g.nonterminals) :
    ∃ h, (runAll passes g).outcome = .ok h ∧ Keeps g h := by
  induction passes generalizing g with
  | nil => exact ⟨g, rfl, .refl hdeclared⟩
  | cons pass passes ih =>
    rw [List.forall_mem_cons] at hwithin
    obtain ⟨next, hrun, hkeeps, -⟩ := exists_run_keeps hdeclared hwithin.1
    -- The universe is still the same, so the pairs that are given further on still lie in it.
    rw [← hkeeps.nonterminals] at hwithin
    obtain ⟨h, hlater, hkeeps'⟩ := ih hkeeps.declared hwithin.2
    refine ⟨h, ?_, hkeeps.trans hkeeps'⟩
    unfold runAll at hlater ⊢
    rw [List.foldlM_cons, Logged.outcome_bind_ok hrun, hlater]

end Replacement

namespace Grammar

/-- **Declarations survive the passes.** Start from a grammar made of plain rules and let passes
follow each other, with any nullable names and any pairs of declared names. All of them come out. At
every stage the universe and the goal are those of the start, the rules use no other nonterminals,
and the next pass adds no terminal, and takes none away unless it goes along pairs that were given.
If the goal is no terminal, names have one role throughout. -/
theorem passes_keep_declarations {goal : Name} {terminals : SortedSet Name} {rules : List PlainRule}
    {g : Grammar} (hbuild : build goal terminals rules = .ok g) {passes : List Replacement}
    (hwithin : ∀ pass ∈ passes, pass.Within g.nonterminals) (k : Nat) :
    ∃ h, (Replacement.runAll (passes.take k) g).outcome = .ok h ∧
      h.nonterminals = g.nonterminals ∧ h.goal = g.goal ∧
      (∀ r ∈ h.rules, r.head ∈ g.nonterminals ∧
        ∀ v, .nonterminal v ∈ r.body → v ∈ g.nonterminals) ∧
      (goal ∉ terminals → ∀ v ∈ g.nonterminals, v ∉ h.terminals) ∧
      ∀ pass, passes[k]? = some pass →
        ∃ next, (Replacement.runAll (passes.take (k + 1)) g).outcome = .ok next ∧
          next.terminals ⊆ h.terminals ∧
          (¬ pass.GivesPairs → next.terminals = h.terminals) := by
  have hearlier : ∀ pass ∈ passes.take k, pass.Within g.nonterminals :=
    fun pass hpass => hwithin pass (List.mem_of_mem_take hpass)
  obtain ⟨h, hrun, hkeeps⟩ :=
    Replacement.exists_runAll_keeps (isDeclared_of_build hbuild) hearlier
  refine ⟨h, hrun, hkeeps.nonterminals, hkeeps.goal, ?_, ?_, ?_⟩
  · rw [← hkeeps.nonterminals]
    exact fun r hr => ⟨hkeeps.declared.heads r hr, hkeeps.declared.bodies r hr⟩
  · intro hgoal v hv hterminal
    exact not_mem_terminals_of_build hbuild hgoal v hv (hkeeps.terminals v hterminal)
  · intro pass hpass
    -- The universe is still that of the start, so the pairs of the next pass lie in it.
    have hpairs := hwithin pass (List.mem_of_getElem? hpass)
    rw [← hkeeps.nonterminals] at hpairs
    obtain ⟨next, hnext, hkeeps', hterminals⟩ :=
      Replacement.exists_run_keeps hkeeps.declared hpairs
    refine ⟨next, ?_, hkeeps'.terminals, hterminals⟩
    rw [List.take_add_one, hpass, Option.toList_some, Replacement.outcome_runAll_concat hrun, hnext]

/-- Something that may be left out, alone and before a letter of its own. -/
def optionalHead : List PlainRule :=
  [⟨.text "S", [.text "A", .text "b"]⟩, ⟨.text "S", [.text "A"]⟩, ⟨.text "A", [.text "a"]⟩,
    ⟨.text "A", []⟩]

/-- Between the two passes that find their own names and pairs, one goes along a single pair. -/
def optionalHeadPasses : List Replacement :=
  [.own .emptyRules, .chainRules {⟨.text "S", .text "A"⟩}, .own .chainRules]

/-- All three passes come out, and the two names and the two letters are still apart. -/
theorem optionalHead_keeps_declarations :
    ∃ g, build (.text "S") (.ofList [.text "a", .text "b"]) optionalHead = .ok g ∧
      ∃ h, (Replacement.runAll optionalHeadPasses g).outcome = .ok h ∧
        h.nonterminals = .ofList [.text "A", .text "S"] ∧ h.goal = .text "S" ∧
        ∀ v ∈ h.nonterminals, v ∉ h.terminals := by
  obtain ⟨g, hbuild⟩ : ∃ g, build (.text "S") (.ofList [.text "a", .text "b"]) optionalHead =
      .ok g := ⟨_, build_eq_ok.2 ⟨by decide +kernel, rfl⟩⟩
  have hnames : g.nonterminals = .ofList [.text "A", .text "S"] := by
    obtain ⟨-, rfl⟩ := build_eq_ok.1 hbuild
    decide +kernel
  have hwithin : ∀ pass ∈ optionalHeadPasses, pass.Within g.nonterminals := by
    have hpair : ({⟨.text "S", .text "A"⟩} : SortedSet Arc) ⊆ pairsWithin g.nonterminals := by
      rw [hnames]
      decide +kernel
    simp [optionalHeadPasses, Replacement.Within, hpair]
  obtain ⟨h, hrun, hnonterminals, hgoal, -, hroles, -⟩ :=
    passes_keep_declarations hbuild hwithin 3
  refine ⟨g, hbuild, h, hrun, hnonterminals.trans hnames, ?_, ?_⟩
  · rw [hgoal, goal_of_build hbuild]
  · rw [hnonterminals]
    exact hroles (by decide +kernel)

end Grammar

end ContextFree
