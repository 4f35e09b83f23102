import ContextFree.Proofs.MoreRules

/-!
# ContextFree — rounds and eliminations with given pairs

Neither a round of unit pairs nor the elimination of chain rules asks where its pairs come from.
From any pairs, also of names that head no rule, the rounds go on to what longer and longer chain
paths lead to. A path that comes through a name twice has a shorter one beside it, so as many rounds
as there are generators cover all paths, and no round after them finds anything. An elimination with
some of the unit pairs only is sound: each rule that is taken over has a chain path of its own
behind it, whatever other pairs are missing. And with more pairs there are more rules to generate
words with.

Main statements: `Grammar.mem_iterate_extendPairs_size` (so many rounds cover all paths) and
`Grammar.rounds_cover_longer_paths`; `Grammar.generates_of_subset_unitPairs` (each rule taken over
is justified by itself) and `Grammar.fewer_unit_pairs_generate_less`.
-/

namespace ContextFree

open Rewriting

namespace Grammar

variable {g : Grammar} {pairs fewer : SortedSet Arc}

/-! ## Rounds from given pairs

Given pairs may end at a name that heads no rule, so a path to the source of a pair need not run
between generators. It can still be made so short that it comes through no name twice, and all its
names but the last head a rule. -/

/-- As many rounds as there are generators cover the paths of any length. -/
theorem mem_iterate_extendPairs_size {u w : Name} :
    ⟨u, w⟩ ∈ g.extendPairs^[g.generators.size] pairs ↔
      ∃ v n, ChainPath g n u v ∧ ⟨v, w⟩ ∈ pairs := by
  rw [mem_iterate_extendPairs]
  refine exists_congr fun v => ⟨?_, ?_⟩
  · rintro ⟨n, -, hpath, hp⟩
    exact ⟨n, hpath, hp⟩
  · rintro ⟨n, hlong, hp⟩
    -- The end of the path may head no rule, so all the generators may be needed to get there.
    obtain ⟨m, hm, hpath⟩ := hlong.exists_le_size_generators
    exact ⟨m, hm, hpath, hp⟩

theorem extendPairs_iterate_size (g : Grammar) (pairs : SortedSet Arc) :
    g.extendPairs (g.extendPairs^[g.generators.size] pairs) =
      g.extendPairs^[g.generators.size] pairs := by
  apply SortedSet.ext_mem
  intro ⟨u, w⟩
  refine ⟨fun h => ?_, fun h => mem_extendPairs.2 (.inl h)⟩
  rw [← Function.iterate_succ_apply' g.extendPairs] at h
  obtain ⟨v, n, -, hpath, hp⟩ := (mem_iterate_extendPairs pairs _).1 h
  exact mem_iterate_extendPairs_size.2 ⟨v, n, hpath, hp⟩

/-- **Each round covers paths of one rule more.** From any pairs, so many rounds pair a name with
what is paired, at the start, with a name that a path of at most so many chain rules leads to. As
many rounds as there are generators cover the paths of any length, and one more round changes
nothing. -/
theorem rounds_cover_longer_paths (g : Grammar) (pairs : SortedSet Arc) :
    (∀ k u w, ⟨u, w⟩ ∈ g.extendPairs^[k] pairs ↔
      ∃ v n, n ≤ k ∧ ChainPath g n u v ∧ ⟨v, w⟩ ∈ pairs) ∧
    (∀ u w, ⟨u, w⟩ ∈ g.extendPairs^[g.generators.size] pairs ↔
      ∃ v n, ChainPath g n u v ∧ ⟨v, w⟩ ∈ pairs) ∧
    g.extendPairs (g.extendPairs^[g.generators.size] pairs) =
      g.extendPairs^[g.generators.size] pairs :=
  ⟨fun k _ _ => mem_iterate_extendPairs pairs k, fun _ _ => mem_iterate_extendPairs_size,
    g.extendPairs_iterate_size pairs⟩

/-! ## Eliminations with given pairs

Each rule of the result is justified by one pair, and each pair by a chain path. So any selection of
unit pairs is as good as all of them, as far as soundness goes. -/

/-- With some of the unit pairs nothing new is generated. -/
theorem generates_of_subset_unitPairs (hpairs : g.IsUnitPairSet pairs) (hsub : fewer ⊆ pairs)
    {v : Name} {w : Word} (h : (g.replaceChainRules fewer).Generates v w) : g.Generates v w := by
  rw [generates_iff_yields] at h ⊢
  obtain ⟨n, hyield⟩ := h
  have hpaths : ∀ u v, ⟨u, v⟩ ∈ fewer → ∃ n, ChainPath g n u v :=
    fun _ _ hp => hpairs.exists_chainPath (hsub _ hp)
  obtain ⟨m, -, hyield⟩ := yields_of_replaceChainRules hpaths hyield
  exact ⟨m, hyield⟩

/-- **Too few pairs add no word.** If all the pairs that a pass is given are unit pairs, the words
that a name is left with are also left to it by a pass with more unit pairs, and they are words that
it generated before. The pairs need not be those of a round: a name may lack the pair with itself,
or one that others amount to. -/
theorem fewer_unit_pairs_generate_less {ε : Type} (g : Grammar) :
    ∃ pairs, g.computeUnitPairs.outcome = .ok pairs ∧
      ∀ fewer more : SortedSet Arc, fewer ⊆ more → more ⊆ pairs →
        ∃ e f : Grammar, (g.eliminateChains fewer : Logged ε Grammar).outcome = .ok e ∧
          (g.eliminateChains more : Logged ε Grammar).outcome = .ok f ∧
          ∀ v w, (e.Generates v w → f.Generates v w) ∧ (f.Generates v w → g.Generates v w) := by
  obtain ⟨pairs, houtcome, hpairs⟩ := g.exists_computeUnitPairs
  refine ⟨pairs, houtcome, fun fewer more hfewer hmore => ?_⟩
  refine ⟨_, _, outcome_eliminateChains g fewer, outcome_eliminateChains g more, ?_⟩
  intro v w
  exact ⟨Generates.mono ((IsPartOf.refl g).replaceChainRules_subset hfewer),
    generates_of_subset_unitPairs hpairs hmore⟩

/-- A name that is renamed twice. The second and the third name stand for a letter as well. -/
def renamedTwice : Grammar where
  nonterminals := ∅
  goal := .text "S"
  rules := .ofList
    [⟨.text "S", [.nonterminal (.text "A")]⟩, ⟨.text "A", [.nonterminal (.text "B")]⟩,
      ⟨.text "A", [.terminal (.text "a")]⟩, ⟨.text "B", [.terminal (.text "b")]⟩]

/-- With the pair of the first name and the third alone the letter of the third is generated, and so
it is with the pair of the first and the second as well, and by the chain rules. -/
theorem renamedTwice_ends_paired :
    ∃ pairs, ∃ e f : Grammar, renamedTwice.computeUnitPairs.outcome = .ok pairs ∧
      ({⟨.text "S", .text "B"⟩} : SortedSet Arc) ⊆
        .ofList [⟨.text "S", .text "A"⟩, ⟨.text "S", .text "B"⟩] ∧
      .ofList [⟨.text "S", .text "A"⟩, ⟨.text "S", .text "B"⟩] ⊆ pairs ∧
      (renamedTwice.eliminateChains {⟨.text "S", .text "B"⟩} : Logged Refusal Grammar).outcome =
        .ok e ∧
      (renamedTwice.eliminateChains (.ofList [⟨.text "S", .text "A"⟩, ⟨.text "S", .text "B"⟩]) :
        Logged Refusal Grammar).outcome = .ok f ∧
      e.Generates (.text "S") [.text "b"] ∧ f.Generates (.text "S") [.text "b"] ∧
      renamedTwice.Generates (.text "S") [.text "b"] := by
  have hfewer : ({⟨.text "S", .text "B"⟩} : SortedSet Arc) ⊆
      .ofList [⟨.text "S", .text "A"⟩, ⟨.text "S", .text "B"⟩] := by
    decide +kernel
  obtain ⟨pairs, houtcome, hsound⟩ := @fewer_unit_pairs_generate_less Refusal renamedTwice
  have hmore : (.ofList [⟨.text "S", .text "A"⟩, ⟨.text "S", .text "B"⟩] : SortedSet Arc) ⊆
      pairs := by
    have hpairs := outcome_computeUnitPairs_iff.1 houtcome
    have hSA : ChainPath renamedTwice 1 (.text "S") (.text "A") :=
      .cons (by simp [renamedTwice]) (.nil _)
    have hAB : ChainPath renamedTwice 1 (.text "A") (.text "B") :=
      .cons (by simp [renamedTwice]) (.nil _)
    have hA : .text "A" ∈ renamedTwice.generators := by decide +kernel
    have hB : .text "B" ∈ renamedTwice.generators := by decide +kernel
    intro p hp
    simp only [SortedSet.mem_ofList, List.mem_cons, List.not_mem_nil, or_false] at hp
    rcases hp with rfl | rfl
    · exact (hpairs _ _).2 ⟨hA, 1, hSA⟩
    · exact (hpairs _ _).2 ⟨hB, 1 + 1, hSA.trans hAB⟩
  obtain ⟨e, f, he, hf, hwords⟩ := hsound _ _ hfewer hmore
  have hword : e.Generates (.text "S") [.text "b"] := by
    obtain rfl : renamedTwice.replaceChainRules {⟨.text "S", .text "B"⟩} = e := Except.ok.inj he
    have hS : ⟨.text "S", [.terminal (.text "b")]⟩ ∈
        (renamedTwice.replaceChainRules {⟨.text "S", .text "B"⟩}).rules.toList := by
      decide +kernel
    rw [generates_iff_yields]
    exact ⟨_, .nonterminal hS (.terminal _ .nil) .nil⟩
  have hmost := (hwords _ _).1 hword
  exact ⟨pairs, e, f, houtcome, hfewer, hmore, he, hf, hword, hmost, (hwords _ _).2 hmost⟩

end Grammar

end ContextFree
