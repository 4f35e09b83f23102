import ContextFree.Proofs.MoreRules

/-!
# ContextFree — rounds and eliminations with given names

Neither a round of nullable names nor the elimination of empty rules asks where its names come from.
From any names, also of such as head no rule, the rounds go on to what derives a form made of the
given names, each round by one more level of bodies, and as many rounds as there are generators find
all of it. It does not matter in how many passes names are dropped: a variant of a variant has left
out some occurrences and then others, and leaves out all of them at once when it may drop the names
of both passes. Nor does it do harm to drop too few. As long as all names that are dropped are
nullable, each occurrence that was left out can be put back with its own empty yield, so nothing new
is generated, and with more names there are more variants to generate words with.

Main statements: `Grammar.mem_iterate_addNullables_size` (so many rounds find all names) and
`Grammar.rounds_find_what_derives_given_names`; `Form.mem_variants_union` (variants of variants, by
induction on the form) and `Grammar.eliminateNullable_composes`;
`Grammar.iterate_addNullables_subset_nullable` (the rounds of the closure have nullable names only)
and `Grammar.fewer_nullable_names_generate_less`.
-/

namespace ContextFree

open Rewriting

/-! ## Rounds from given names

Given names need not head a rule, so the rounds start with more than the generators. They add heads
only, so that there are still no more rounds than generators before they settle. -/

namespace Grammar

/-- After as many rounds as there are generators one more round finds nothing. -/
theorem addNullables_iterate_size (g : Grammar) (names : SortedSet Name) :
    g.addNullables (g.addNullables^[g.generators.size] names) =
      g.addNullables^[g.generators.size] names := by
  obtain ⟨n, hn, hsettles⟩ := g.exists_settlesAt_addNullables names
  rw [hsettles.iterate_eq hn]
  exact hsettles.settled

/-- No round finds more than so many do. -/
theorem iterate_addNullables_subset_size (g : Grammar) (names : SortedSet Name) (k : Nat) :
    g.addNullables^[k] names ⊆ g.addNullables^[g.generators.size] names := by
  obtain ⟨n, hn, hsettles⟩ := g.exists_settlesAt_addNullables names
  rw [hsettles.iterate_eq hn]
  exact (g.growsWithin_addNullables_union names).iterate_subset_settled
    (SortedSet.subset_union_left _ _) hsettles k

/-- So many rounds find all names that derive a form over the given ones. -/
theorem mem_iterate_addNullables_size {g : Grammar} {names : SortedSet Name} {v : Name} :
    v ∈ g.addNullables^[g.generators.size] names ↔
      ∃ form, Form.isNullable names form = true ∧ Derives g.rules.toList [.nonterminal v] form := by
  constructor
  · intro hv
    obtain ⟨n, -, form, hform, hsteps⟩ := g.exists_stepsIn_of_mem_iterate names _ v hv
    exact ⟨form, hform, n, hsteps⟩
  · intro hderives
    obtain ⟨form, hform, n, hsteps⟩ := hderives
    have hround : v ∈ g.addNullables^[n] names :=
      Form.isNullable_singleton.1 (isNullable_iterate_of_stepsIn hsteps hform)
    exact g.iterate_addNullables_subset_size names n v hround

/-- **The rounds find all names that derive the given ones.** From any names, as many rounds as
there are generators find exactly the names from which some derivation leads to a form made of
nonterminals with the given names, the empty form included. One more round changes nothing. -/
theorem rounds_find_what_derives_given_names (g : Grammar) (names : SortedSet Name) :
    (∀ v, v ∈ g.addNullables^[g.generators.size] names ↔
      ∃ form : Form, (∀ s ∈ form, ∃ u ∈ names, s = .nonterminal u) ∧
        Derives g.rules.toList [.nonterminal v] form) ∧
    g.addNullables (g.addNullables^[g.generators.size] names) =
      g.addNullables^[g.generators.size] names := by
  refine ⟨fun v => ?_, g.addNullables_iterate_size names⟩
  simp only [← Form.isNullable_iff]
  exact mem_iterate_addNullables_size

end Grammar

/-! ## One pass after another

A pass after another sees forms that were shortened already. It is enough to look at one form: its
variants by both sets of names are the variants of its variants. Over the rules there is one more
thing to see to, as the first pass keeps no empty rule for the second. -/

/-- Dropping some names and then others leaves what dropping all of them at once leaves. -/
theorem Form.mem_variants_union {names names' : SortedSet Name} {form variant : Form} :
    variant ∈ variants (names ∪ names') form ↔
      ∃ middle ∈ variants names form, variant ∈ variants names' middle := by
  induction form generalizing variant with
  | nil => simp [mem_variants_nil]
  | cons s rest ih =>
    constructor
    · intro h
      rcases mem_variants_cons.1 h with ⟨tail, htail, rfl⟩ | ⟨hdrop, htail⟩
      · obtain ⟨middle, hmiddle, hvariant⟩ := ih.1 htail
        exact ⟨s :: middle, cons_mem_variants hmiddle, cons_mem_variants hvariant⟩
      · obtain ⟨middle, hmiddle, hvariant⟩ := ih.1 htail
        -- The symbol is dropped by the first pass that has its name.
        rcases Symbol.isDroppable_union.1 hdrop with hfirst | hsecond
        · exact ⟨middle, mem_variants_of_droppable hfirst hmiddle, hvariant⟩
        · exact ⟨s :: middle, cons_mem_variants hmiddle,
            mem_variants_of_droppable hsecond hvariant⟩
    · rintro ⟨middle, hmiddle, h⟩
      rcases mem_variants_cons.1 hmiddle with ⟨tail, htail, rfl⟩ | ⟨hfirst, hmiddle⟩
      · rcases mem_variants_cons.1 h with ⟨tail', htail', rfl⟩ | ⟨hsecond, hvariant⟩
        · exact cons_mem_variants (ih.2 ⟨tail, htail, htail'⟩)
        · exact mem_variants_of_droppable (Symbol.isDroppable_union.2 (.inr hsecond))
            (ih.2 ⟨tail, htail, hvariant⟩)
      · exact mem_variants_of_droppable (Symbol.isDroppable_union.2 (.inl hfirst))
          (ih.2 ⟨middle, hmiddle, h⟩)

namespace Grammar

variable {g : Grammar} {names names' : SortedSet Name}

/-- The first pass leaves out the variant with no symbols, of which the second would make nothing.
-/
theorem replaceEmptyRules_replaceEmptyRules (g : Grammar) (names names' : SortedSet Name) :
    (g.replaceEmptyRules names).replaceEmptyRules names' =
      g.replaceEmptyRules (names ∪ names') := by
  refine eq_of_mem_rules (by simp) (by simp) fun ⟨v, body⟩ => ?_
  simp only [mem_replaceEmptyRules_iff, Form.mem_variants_union]
  refine and_congr_right fun hne => ?_
  constructor
  · rintro ⟨middle, ⟨-, source, hs, hmiddle⟩, hvariant⟩
    exact ⟨source, hs, middle, hmiddle, hvariant⟩
  · rintro ⟨source, hs, middle, hmiddle, hvariant⟩
    -- An empty form has no other variant, so the form in between was not empty and was kept.
    have hmiddle_ne : middle ≠ [] := by
      rintro rfl
      exact hne (Form.mem_variants_nil.1 hvariant)
    exact ⟨middle, ⟨hmiddle_ne, source, hs, hmiddle⟩, hvariant⟩

/-- **Passes with given names compose.** Whatever the names are, the pass with some of them followed
by the pass with others answers as the pass with all of them does. So the order of the two does not
matter, and a pass that is repeated with the same names changes nothing. -/
theorem eliminateNullable_composes {ε : Type} (g : Grammar) (names names' : SortedSet Name) :
    ∃ e e' h : Grammar, (g.eliminateNullable names : Logged ε Grammar).outcome = .ok e ∧
      (g.eliminateNullable names' : Logged ε Grammar).outcome = .ok e' ∧
      (g.eliminateNullable (names ∪ names') : Logged ε Grammar).outcome = .ok h ∧
      (e.eliminateNullable names' : Logged ε Grammar).outcome = .ok h ∧
      (e'.eliminateNullable names : Logged ε Grammar).outcome = .ok h ∧
      (e.eliminateNullable names : Logged ε Grammar).outcome = .ok e := by
  refine ⟨_, _, _, outcome_eliminateNullable g names, outcome_eliminateNullable g names',
    outcome_eliminateNullable g _, ?_, ?_, ?_⟩
  · rw [outcome_eliminateNullable, replaceEmptyRules_replaceEmptyRules]
  · rw [outcome_eliminateNullable, replaceEmptyRules_replaceEmptyRules, SortedSet.union_comm]
  · rw [outcome_eliminateNullable, replaceEmptyRules_replaceEmptyRules, SortedSet.union_self]

/-! ## Names that are nullable

Here the names are some of the nullable ones, for instance those that the closure has found when it
is stopped early. -/

/-- What the rounds of the closure have found so far is nullable. -/
theorem iterate_addNullables_subset_nullable (hnames : g.IsNullableSet names) (k : Nat) :
    g.addNullables^[k] ∅ ⊆ names := by
  intro v hv
  exact hnames.mem_iff_exists_round.2 ⟨k, hv⟩

/-- Of a form that was shortened by nullable names only, the word was generated before. -/
theorem generates_of_subset_nullable (hnames : g.IsNullableSet names) (hsub : names' ⊆ names)
    {v : Name} {w : Word} (h : (g.replaceEmptyRules names').Generates v w) :
    w ≠ [] ∧ g.Generates v w :=
  generates_of_replaceEmptyRules (fun u hu => hnames.mem_iff.1 (hsub u hu)) h

/-- **Too few names add no word.** If all the names that a pass is given are nullable, the words
that a name is left with are also left to it by a pass with more nullable names, and they are words
that it generated before, the empty one excepted. What is found within any number of rounds is
nullable, so the closure may be stopped after any of them. -/
theorem fewer_nullable_names_generate_less {ε : Type} (g : Grammar) :
    ∃ names, g.computeNullable.outcome = .ok names ∧
      (∀ fewer more : SortedSet Name, fewer ⊆ more → more ⊆ names →
        ∃ e f : Grammar, (g.eliminateNullable fewer : Logged ε Grammar).outcome = .ok e ∧
          (g.eliminateNullable more : Logged ε Grammar).outcome = .ok f ∧
          ∀ v w, (e.Generates v w → f.Generates v w) ∧
            (f.Generates v w → w ≠ [] ∧ g.Generates v w)) ∧
      ∀ k, ∃ e : Grammar,
        (g.eliminateNullable (g.addNullables^[k] ∅) : Logged ε Grammar).outcome = .ok e ∧
          ∀ v w, e.Generates v w → w ≠ [] ∧ g.Generates v w := by
  obtain ⟨names, houtcome, hnames⟩ := g.exists_computeNullable
  refine ⟨names, houtcome, fun fewer more hfewer hmore => ?_, fun k => ?_⟩
  · refine ⟨_, _, outcome_eliminateNullable g fewer, outcome_eliminateNullable g more, ?_⟩
    intro v w
    exact ⟨Generates.mono ((IsPartOf.refl g).replaceEmptyRules_subset hfewer),
      generates_of_subset_nullable hnames hmore⟩
  · -- What is found within some rounds is a part of the nullable names like any other.
    refine ⟨_, outcome_eliminateNullable g _, fun v w => ?_⟩
    exact generates_of_subset_nullable hnames (iterate_addNullables_subset_nullable hnames k)

/-- A letter between two names that can be left out. The second of them stands for a letter as
well. -/
def optionalEnds : Grammar where
  nonterminals := ∅
  goal := .text "S"
  rules := .ofList
    [⟨.text "S", [.nonterminal (.text "A"), .terminal (.text "b"), .nonterminal (.text "C")]⟩,
      ⟨.text "A", []⟩, ⟨.text "C", [.terminal (.text "c")]⟩, ⟨.text "C", []⟩]

/-- Where only the first name is dropped the two letters are generated, and so they are where both
are dropped, and where none is. -/
theorem optionalEnds_first_dropped :
    ∃ names, ∃ e f : Grammar, optionalEnds.computeNullable.outcome = .ok names ∧
      ({.text "A"} : SortedSet Name) ⊆ .ofList [.text "A", .text "C"] ∧
      .ofList [.text "A", .text "C"] ⊆ names ∧
      (optionalEnds.eliminateNullable {.text "A"} : Logged Refusal Grammar).outcome = .ok e ∧
      (optionalEnds.eliminateNullable (.ofList [.text "A", .text "C"]) :
        Logged Refusal Grammar).outcome = .ok f ∧
      e.Generates (.text "S") [.text "b", .text "c"] ∧
      f.Generates (.text "S") [.text "b", .text "c"] ∧
      optionalEnds.Generates (.text "S") [.text "b", .text "c"] := by
  have hfewer : ({.text "A"} : SortedSet Name) ⊆ .ofList [.text "A", .text "C"] := by
    decide +kernel
  obtain ⟨names, houtcome, hsound, -⟩ :=
    @fewer_nullable_names_generate_less Refusal optionalEnds
  have hmore : (.ofList [.text "A", .text "C"] : SortedSet Name) ⊆ names := by
    have hnames := outcome_computeNullable_iff.1 houtcome
    have hempty : ∀ v ∈ (.ofList [.text "A", .text "C"] : SortedSet Name),
        ⟨v, []⟩ ∈ optionalEnds.rules := by
      simp [optionalEnds]
    exact fun v hv => hnames.mem_of_isNullable (hempty v hv) rfl
  obtain ⟨e, f, he, hf, hwords⟩ := hsound _ _ hfewer hmore
  have hword : e.Generates (.text "S") [.text "b", .text "c"] := by
    obtain rfl : optionalEnds.replaceEmptyRules {.text "A"} = e := Except.ok.inj he
    -- The variant without the first name, and the letter that the second one stands for.
    have hS : ⟨.text "S", [.terminal (.text "b"), .nonterminal (.text "C")]⟩ ∈
        (optionalEnds.replaceEmptyRules {.text "A"}).rules.toList := by
      decide +kernel
    have hC : ⟨.text "C", [.terminal (.text "c")]⟩ ∈
        (optionalEnds.replaceEmptyRules {.text "A"}).rules.toList := by
      decide +kernel
    rw [generates_iff_yields]
    exact ⟨_, .nonterminal hS (.terminal _ (.nonterminal hC (.terminal _ .nil) .nil)) .nil⟩
  have hmost := (hwords _ _).1 hword
  exact ⟨names, e, f, houtcome, hfewer, hmore, he, hf, hword, hmost, ((hwords _ _).2 hmost).2⟩

end Grammar

end ContextFree
