import ContextFree.Chain.Elimination
import ContextFree.Proofs.ChainDistance
import ContextFree.Proofs.WordTable

/-!
# ContextFree — no word is lost with the chain rules

A yield that starts with chain rules goes on with a rule of another shape, which the first name of
the chain has taken over; so the chain can be left out. The other way round, a rule taken over
stands for a chain that leads to where it came from, and a short one will do.

Main statements: `mem_replaceChainRules_iff` (the rules of the result, by chain paths),
`exists_yields_replaceChainRules` (leaving chains out, with no more rules used than before),
`yields_of_replaceChainRules` (putting them back, which multiplies the rules used by no more than
the number of generators) and `eliminateUnitRules_preserves_words`.
-/

namespace ContextFree

open Rewriting

namespace Grammar

variable {g : Grammar} {pairs : SortedSet Arc}

/-! ## Rules taken over along chain paths

A pair says from which name a rule is taken over. With the unit pairs at hand that can be told
without pairs, by chain paths. All that follows about the rules of the result goes by the paths. -/

/-- With exactly the unit pairs a name takes over the rules of every name a chain path leads to. -/
theorem mem_replaceChainRules_iff (hpairs : g.IsUnitPairSet pairs) {r : Rule} :
    r ∈ (g.replaceChainRules pairs).rules ↔
      r.isChain = false ∧ ∃ v n, ChainPath g n r.head v ∧ ⟨v, r.body⟩ ∈ g.rules := by
  rw [mem_replaceChainRules]
  refine and_congr_right fun _ => exists_congr fun v => ?_
  rw [hpairs]
  constructor
  · rintro ⟨⟨-, n, hpath⟩, hr⟩
    exact ⟨n, hpath, hr⟩
  · rintro ⟨n, hpath, hr⟩
    -- The end of the path heads the rule, so it is a generator and the pairs have the path.
    exact ⟨⟨mem_generators.2 ⟨_, hr, rfl⟩, n, hpath⟩, hr⟩

/-- What a name has taken over, any name that a chain rule renames into it has taken over as well.
-/
theorem mem_replaceChainRules_of_chain (hpairs : g.IsUnitPairSet pairs) {u v : Name} {body : Form}
    (hchain : ⟨u, [.nonterminal v]⟩ ∈ g.rules)
    (hr : ⟨v, body⟩ ∈ (g.replaceChainRules pairs).rules) :
    ⟨u, body⟩ ∈ (g.replaceChainRules pairs).rules := by
  rw [mem_replaceChainRules_iff hpairs] at hr ⊢
  obtain ⟨hshape, x, n, hpath, hr⟩ := hr
  exact ⟨hshape, x, n + 1, .cons hchain hpath, hr⟩

/-- A rule of another shape is kept, as its head takes it over from itself. -/
theorem mem_replaceChainRules_of_not_chain (hpairs : g.IsUnitPairSet pairs) {r : Rule}
    (hr : r ∈ g.rules) (hshape : r.isChain = false) : r ∈ (g.replaceChainRules pairs).rules :=
  (mem_replaceChainRules_iff hpairs).2 ⟨hshape, r.head, 0, .nil _, hr⟩

/-- Bodies are taken over as they are, so where there was no empty rule there is none afterwards. -/
theorem body_ne_nil_of_mem_replaceChainRules (hnonempty : ∀ r ∈ g.rules, r.body ≠ []) :
    ∀ r ∈ (g.replaceChainRules pairs).rules, r.body ≠ [] := by
  intro r hr
  obtain ⟨-, v, -, hs⟩ := mem_replaceChainRules.1 hr
  exact hnonempty ⟨v, r.body⟩ hs

/-! ## Yields without chains and with them

Both directions count the rules used. Leaving chains out costs nothing, as a chain and the rule
behind it become one rule. Putting a chain back costs what the chain is long, and one that is
shorter than the number of generators can be chosen. -/

/-- What a name yields is yielded along every chain path to it, at the cost of the rules on the
path. -/
theorem ChainPath.yields {n m : Nat} {u v : Name} (hpath : ChainPath g n u v) {w : Word}
    (h : Yields g.rules.toList m [.nonterminal v] w) :
    Yields g.rules.toList (m + n) [.nonterminal u] w := by
  induction hpath with
  | nil => exact h
  | @cons n u x v first _ ih =>
    exact yields_singleton_iff.2 ⟨m + n, [.nonterminal x], SortedSet.mem_toList.2 first, ih h, rfl⟩

/-- Rules taken over along chain paths yield nothing new, and each of them stands for no more rules
than there are generators. -/
theorem yields_of_replaceChainRules (hpairs : ∀ u v, ⟨u, v⟩ ∈ pairs → ∃ n, ChainPath g n u v)
    {n : Nat} {form : Form} {w : Word}
    (h : Yields (g.replaceChainRules pairs).rules.toList n form w) :
    ∃ m ≤ n * g.generators.size, Yields g.rules.toList m form w := by
  induction h with
  | nil => exact ⟨0, Nat.zero_le _, .nil⟩
  | terminal a _ ih =>
    obtain ⟨m, hm, hyield⟩ := ih
    exact ⟨m, hm, .terminal a hyield⟩
  | @nonterminal a b u body _ _ _ hr _ _ ihbody ihrest =>
    obtain ⟨-, v, hpair, hs⟩ := mem_replaceChainRules.1 (SortedSet.mem_toList.1 hr)
    obtain ⟨_, hlong⟩ := hpairs u v hpair
    -- The end of the path heads the rule, so it is a generator and a short path leads there.
    obtain ⟨k, hk, hpath⟩ := hlong.exists_lt_size_generators (mem_generators.2 ⟨_, hs, rfl⟩)
    obtain ⟨i, hi, hbody⟩ := ihbody
    obtain ⟨j, hj, hrest⟩ := ihrest
    have hend : Yields g.rules.toList (i + 1) [.nonterminal v] _ :=
      yields_singleton_iff.2 ⟨i, body, SortedSet.mem_toList.2 hs, hbody, rfl⟩
    have hmost : (a + b + 1) * g.generators.size =
        a * g.generators.size + b * g.generators.size + g.generators.size := by
      rw [Nat.add_mul, Nat.add_mul, Nat.one_mul]
    exact ⟨i + 1 + k + j, by omega, (hpath.yields hend).append hrest⟩

/-- What a form yields it yields without chain rules, and with no more rules in all. -/
theorem exists_yields_replaceChainRules (hpairs : g.IsUnitPairSet pairs) {n : Nat} {form : Form}
    {w : Word} (h : Yields g.rules.toList n form w) :
    ∃ m ≤ n, Yields (g.replaceChainRules pairs).rules.toList m form w := by
  induction h with
  | nil => exact ⟨0, Nat.le_refl 0, .nil⟩
  | terminal a _ ih =>
    obtain ⟨m, hm, hyield⟩ := ih
    exact ⟨m, hm, .terminal a hyield⟩
  | @nonterminal _ _ v body _ _ _ hr _ _ ihbody ihrest =>
    obtain ⟨i, hi, hbody⟩ := ihbody
    obtain ⟨j, hj, hrest⟩ := ihrest
    have hr := SortedSet.mem_toList.1 hr
    cases hshape : (⟨v, body⟩ : Rule).isChain with
    | false =>
      have hkept := mem_replaceChainRules_of_not_chain hpairs hr hshape
      exact ⟨i + j + 1, by omega, .nonterminal (SortedSet.mem_toList.2 hkept) hbody hrest⟩
    | true =>
      obtain ⟨x, hx⟩ := Rule.isChain_iff.1 hshape
      obtain rfl : body = [.nonterminal x] := hx
      -- The chain rule is left out: its head has taken over the first rule after it.
      obtain ⟨k, body', hr', hbody', rfl⟩ := yields_singleton_iff.1 hbody
      have htaken := mem_replaceChainRules_of_chain hpairs hr (SortedSet.mem_toList.1 hr')
      exact ⟨k + j + 1, by omega, .nonterminal (SortedSet.mem_toList.2 htaken) hbody' hrest⟩

/-- With the counts left out, both grammars yield the same from every form. -/
theorem exists_yields_replaceChainRules_iff (hpairs : g.IsUnitPairSet pairs) {form : Form}
    {w : Word} : (∃ n, Yields (g.replaceChainRules pairs).rules.toList n form w) ↔
      ∃ n, Yields g.rules.toList n form w := by
  constructor
  · rintro ⟨n, h⟩
    obtain ⟨m, -, hyield⟩ := yields_of_replaceChainRules (fun _ _ => hpairs.exists_chainPath) h
    exact ⟨m, hyield⟩
  · rintro ⟨n, h⟩
    obtain ⟨m, -, hyield⟩ := exists_yields_replaceChainRules hpairs h
    exact ⟨m, hyield⟩

theorem generates_replaceChainRules (hpairs : g.IsUnitPairSet pairs) {v : Name} {w : Word} :
    (g.replaceChainRules pairs).Generates v w ↔ g.Generates v w := by
  rw [generates_iff_yields, generates_iff_yields]
  exact exists_yields_replaceChainRules_iff hpairs

/-- The goal is the same as before, so its words up to any length are. -/
theorem language_replaceChainRules (hpairs : g.IsUnitPairSet pairs) (n : Nat) :
    (g.replaceChainRules pairs).language n = g.language n := by
  apply SortedSet.ext_mem
  intro w
  rw [mem_language, mem_language, goal_replaceChainRules, generates_replaceChainRules hpairs]

/-! ## The pass

Last, the pass itself: what it answers with, that it has nothing to do where there are no chain
rules, and that it keeps all words. -/

/-- The pass replaces the chain rules by way of the unit pairs, which it finds itself. -/
theorem outcome_eliminateUnitRules (hpairs : g.IsUnitPairSet pairs) :
    g.eliminateUnitRules.outcome = .ok (g.replaceChainRules pairs) := by
  unfold eliminateUnitRules
  rw [Logged.outcome_bind_ok (outcome_computeUnitPairs_iff.2 hpairs), outcome_eliminateChains]

/-- Without chain rules paths lead nowhere. -/
theorem ChainPath.eq_of_no_chain (hshape : ∀ r ∈ g.rules, r.isChain = false) {n : Nat} {u v : Name}
    (h : ChainPath g n u v) : v = u := by
  cases h with
  | nil => rfl
  | @cons _ _ x _ first _ => exact absurd rfl (Rule.isChain_eq_false_iff.1 (hshape _ first) x)

/-- So a name takes over its own rules only. -/
theorem replaceChainRules_eq_self (hshape : ∀ r ∈ g.rules, r.isChain = false)
    (hpairs : g.IsUnitPairSet pairs) : g.replaceChainRules pairs = g := by
  refine eq_of_mem_rules rfl rfl fun r => ?_
  rw [mem_replaceChainRules_iff hpairs]
  constructor
  · rintro ⟨-, v, n, hpath, hr⟩
    rwa [hpath.eq_of_no_chain hshape] at hr
  · exact fun hr => ⟨hshape r hr, r.head, 0, .nil _, hr⟩

/-- **Chain rules are eliminated at no cost.** The pass answers with a grammar in which every name
generates the words that it generated before, the empty word included; so the language up to any
length is the same. -/
theorem eliminateUnitRules_preserves_words (g : Grammar) :
    ∃ h, g.eliminateUnitRules.outcome = .ok h ∧
      (∀ v w, h.Generates v w ↔ g.Generates v w) ∧
      ∀ n : Nat, h.language n = g.language n := by
  obtain ⟨pairs, -, hpairs⟩ := g.exists_computeUnitPairs
  exact ⟨_, outcome_eliminateUnitRules hpairs, fun v w => generates_replaceChainRules hpairs,
    language_replaceChainRules hpairs⟩

end Grammar

end ContextFree
