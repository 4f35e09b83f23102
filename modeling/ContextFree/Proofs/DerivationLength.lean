import ContextFree.Proofs.Membership

/-!
# ContextFree — how long derivations are after an elimination

The eliminations keep the words, and they change the lengths of derivations within bounds. A
derivation is sorted by the occurrences it works on, and then the chain rules are left out, or the
occurrences that yield nothing are dropped; both only make it shorter. The other way round, each
rule that was taken over stands for a chain and the rule behind it, and a shortest chain has fewer
rules than there are generators.

Main statements: `derivesByQueue_replaceChainRules`, `derivesByQueue_replaceEmptyRules` and
`derivesByQueue_of_replaceChainRules` carry a search within a number of steps from one grammar to
the other, and `eliminations_bound_derivations` puts them together for the passes.
-/

namespace ContextFree

open Rewriting

namespace Grammar

variable {g : Grammar} {names : SortedSet Name} {pairs : SortedSet Arc} {rules after : List Rule}
variable {v : Name} {w : Word} {k : Nat}

/-- Without chain rules a word is found in as many steps, or sooner. -/
theorem derivesByQueue_replaceChainRules (hpairs : g.IsUnitPairSet pairs)
    (hrules : ∀ r, r ∈ rules ↔ r ∈ g.rules)
    (hafter : ∀ r, r ∈ after ↔ r ∈ (g.replaceChainRules pairs).rules)
    (h : derivesByQueue rules [.nonterminal v] w.toForm k = true) :
    derivesByQueue after [.nonterminal v] w.toForm k = true := by
  obtain ⟨n, hn, hyield⟩ := (derivesByQueue_toForm_iff hrules).1 h
  obtain ⟨m, hm, hyield'⟩ := exists_yields_replaceChainRules hpairs hyield
  exact (derivesByQueue_toForm_iff hafter).2 ⟨m, by omega, hyield'⟩

/-- What is found without chain rules is found with them in so many times as many steps as there are
generators. -/
theorem derivesByQueue_of_replaceChainRules (hpairs : g.IsUnitPairSet pairs)
    (hrules : ∀ r, r ∈ rules ↔ r ∈ g.rules)
    (hafter : ∀ r, r ∈ after ↔ r ∈ (g.replaceChainRules pairs).rules)
    (h : derivesByQueue after [.nonterminal v] w.toForm k = true) :
    derivesByQueue rules [.nonterminal v] w.toForm (k * g.generators.size) = true := by
  obtain ⟨n, hn, hyield⟩ := (derivesByQueue_toForm_iff hafter).1 h
  obtain ⟨m, hm, hyield'⟩ := yields_of_replaceChainRules (fun _ _ => hpairs.exists_chainPath) hyield
  have hmost : n * g.generators.size ≤ k * g.generators.size := Nat.mul_le_mul_right _ hn
  exact (derivesByQueue_toForm_iff hrules).2 ⟨m, Nat.le_trans hm hmost, hyield'⟩

/-- Without empty rules a word that is not empty is found in as many steps, or sooner. -/
theorem derivesByQueue_replaceEmptyRules (hnames : g.IsNullableSet names)
    (hrules : ∀ r, r ∈ rules ↔ r ∈ g.rules)
    (hafter : ∀ r, r ∈ after ↔ r ∈ (g.replaceEmptyRules names).rules) (hne : w ≠ [])
    (h : derivesByQueue rules [.nonterminal v] w.toForm k = true) :
    derivesByQueue after [.nonterminal v] w.toForm k = true := by
  obtain ⟨n, hn, hyield⟩ := (derivesByQueue_toForm_iff hrules).1 h
  obtain ⟨m, hm, hyield'⟩ := exists_yields_replaceEmptyRules hnames hne hyield
  exact (derivesByQueue_toForm_iff hafter).2 ⟨m, by omega, hyield'⟩

/-- **Eliminations make no derivation longer, and none much shorter.** With the rules of each
grammar in any order: a word that is found within a number of steps is found within that number
after the elimination of chain rules, and if it is not empty also after the elimination of empty
rules. And what takes a number of steps without chain rules takes no more than so many times that
number with them as there are generators. -/
theorem eliminations_bound_derivations (g : Grammar) :
    ∃ e h, g.eliminateNullableRules.outcome = .ok e ∧ g.eliminateUnitRules.outcome = .ok h ∧
      ∀ rules rulesE rulesH : List Rule, (∀ r, r ∈ rules ↔ r ∈ g.rules) →
        (∀ r, r ∈ rulesE ↔ r ∈ e.rules) → (∀ r, r ∈ rulesH ↔ r ∈ h.rules) →
        ∀ (v : Name) (w : Word) (k : Nat),
          (derivesByQueue rules [.nonterminal v] w.toForm k = true →
            derivesByQueue rulesH [.nonterminal v] w.toForm k = true) ∧
          (w ≠ [] → derivesByQueue rules [.nonterminal v] w.toForm k = true →
            derivesByQueue rulesE [.nonterminal v] w.toForm k = true) ∧
          (derivesByQueue rulesH [.nonterminal v] w.toForm k = true →
            derivesByQueue rules [.nonterminal v] w.toForm (k * g.generators.size) = true) := by
  obtain ⟨names, -, hnames⟩ := g.exists_computeNullable
  obtain ⟨pairs, -, hpairs⟩ := g.exists_computeUnitPairs
  refine ⟨_, _, outcome_eliminateNullableRules hnames, outcome_eliminateUnitRules hpairs, ?_⟩
  intro rules rulesE rulesH hrules hrulesE hrulesH v w k
  refine ⟨fun h => ?_, fun hne h => ?_, fun h => ?_⟩
  · exact derivesByQueue_replaceChainRules hpairs hrules hrulesH h
  · exact derivesByQueue_replaceEmptyRules hnames hrules hrulesE hne h
  · exact derivesByQueue_of_replaceChainRules hpairs hrules hrulesH h

/-- The second name of the loop derives a word of three letters in eight steps, and so it does after
either pass. Five steps are enough when it has taken over what the first name stands for, and there
are three generators. -/
theorem chainLoop_derivation_lengths :
    ∃ e h, chainLoop.eliminateNullableRules.outcome = .ok e ∧
      chainLoop.eliminateUnitRules.outcome = .ok h ∧
      derivesByQueue chainLoop.rules.toList [.nonterminal (.text "B")]
        (Word.toForm [.text "a", .text "a", .text "b"]) 8 = true ∧
      derivesByQueue e.rules.toList [.nonterminal (.text "B")]
        (Word.toForm [.text "a", .text "a", .text "b"]) 8 = true ∧
      derivesByQueue h.rules.toList [.nonterminal (.text "B")]
        (Word.toForm [.text "a", .text "a", .text "b"]) 8 = true ∧
      derivesByQueue h.rules.toList [.nonterminal (.text "B")]
        (Word.toForm [.text "a", .text "a", .text "b"]) 5 = true ∧
      derivesByQueue chainLoop.rules.toList [.nonterminal (.text "B")]
        (Word.toForm [.text "a", .text "a", .text "b"]) (5 * chainLoop.generators.size) = true := by
  obtain ⟨e, h, he, hh, hbounds⟩ := eliminations_bound_derivations chainLoop
  have hbounds := hbounds _ _ _ (fun r => SortedSet.mem_toList) (fun r => SortedSet.mem_toList)
    (fun r => SortedSet.mem_toList) (.text "B") [.text "a", .text "a", .text "b"]
  have hword : [Name.text "a", .text "a", .text "b"] ≠ [] := List.cons_ne_nil _ _
  have hlong : derivesByQueue chainLoop.rules.toList [.nonterminal (.text "B")]
      (Word.toForm [.text "a", .text "a", .text "b"]) 8 = true :=
    derivesByQueue_iff.2 ⟨8, Nat.le_refl 8, (chainLoop_yields 2).stepsIn⟩
  have hshort : derivesByQueue h.rules.toList [.nonterminal (.text "B")]
      (Word.toForm [.text "a", .text "a", .text "b"]) 5 = true := by
    obtain ⟨pairs, -, hpairs⟩ := chainLoop.exists_computeUnitPairs
    obtain rfl : h = chainLoop.replaceChainRules pairs := by
      rw [outcome_eliminateUnitRules hpairs] at hh
      exact (Except.ok.inj hh).symm
    -- What the first name stands for, the second has taken over, and nothing is in between.
    have htaken (body : Form) (hr : ⟨.text "A", body⟩ ∈ chainLoop.rules)
        (hshape : (⟨.text "A", body⟩ : Rule).isChain = false) :
        ⟨.text "B", body⟩ ∈ (chainLoop.replaceChainRules pairs).rules.toList :=
      SortedSet.mem_toList.2 (mem_replaceChainRules_of_chain hpairs (by simp [chainLoop])
        (mem_replaceChainRules_of_not_chain hpairs hr hshape))
    have hletter := htaken
      [.terminal (.text "a"), .nonterminal (.text "C"), .nonterminal (.text "B")]
      (by simp [chainLoop]) rfl
    have hlast := htaken [.terminal (.text "b")] (by simp [chainLoop]) rfl
    have hnothing : ⟨.text "C", []⟩ ∈ (chainLoop.replaceChainRules pairs).rules.toList :=
      SortedSet.mem_toList.2
        (mem_replaceChainRules_of_not_chain hpairs (by simp [chainLoop]) rfl)
    have hyield := yields_singleton_iff.2 ⟨0, _, hlast, .terminal _ .nil, rfl⟩
    have hyields := yields_letter_cons hletter hnothing (yields_letter_cons hletter hnothing hyield)
    exact derivesByQueue_iff.2 ⟨5, Nat.le_refl 5, hyields.stepsIn⟩
  exact ⟨e, h, he, hh, hlong, (hbounds 8).2.1 hword hlong, (hbounds 8).1 hlong, hshort,
    (hbounds 5).2.2 hshort⟩

end Grammar

end ContextFree
