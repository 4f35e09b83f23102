import ContextFree.Proofs.NullableNames
import ContextFree.Proofs.QueueSearch

/-!
# ContextFree — the rounds of nullable names and derivations of nothing

A name is found in the round that is the least height of a tree by which it yields nothing. The
search for a derivation counts steps, which are the nodes of such a tree. A tree has at least as
many nodes as levels, so the round is a lower bound for the steps; and it has no more than fit on
its levels, where each node has at most as many children as the longest body has symbols.

Main statements: `Grammar.exists_nullableTrace` (the trace lists the first rounds) and
`Grammar.nullableTrace_bounds_empty_derivations`.
-/

namespace ContextFree

open Closure Rewriting

namespace Grammar

/-! ## The trace

The trace lists for each name in the last round the first round that has it. As no round loses a
name, these are the least rounds over all rounds, shown or not, which is what derivations are
compared with. -/

/-- The trace is made, and it lists each name that some round finds with the first such round. -/
theorem exists_nullableTrace (g : Grammar) :
    ∃ rows, g.nullableTrace.outcome = .ok rows ∧
      ∀ v r, ⟨v, r⟩ ∈ rows ↔ IsLeast {k | v ∈ g.addNullables^[k] ∅} r := by
  obtain ⟨last, hlast, hrounds⟩ := g.exists_nullableRounds_eq
  refine ⟨_, by rw [nullableTrace, hrounds]; rfl, fun v r => ?_⟩
  simp only [SortedSet.mem_flatMap, List.mem_map, Option.mem_toList, hlast.firstRound?_eq_some,
    last_settledRounds]
  constructor
  · rintro ⟨v, -, r, hleast, ⟨⟩⟩
    exact hleast
  · intro hleast
    have hsettled : v ∈ g.addNullables^[last] ∅ :=
      g.growsWithin_addNullables.iterate_subset_settled (SortedSet.empty_subset _) hlast r v
        hleast.1
    exact ⟨v, hsettled, r, hleast, rfl⟩

/-- What a round finds that the one before it did not have is found there first. -/
theorem isLeast_round_succ {g : Grammar} {v : Name} {k : Nat}
    (hfound : v ∈ g.addNullables^[k + 1] ∅) (hbefore : v ∉ g.addNullables^[k] ∅) :
    IsLeast {i | v ∈ g.addNullables^[i] ∅} (k + 1) := by
  refine ⟨hfound, fun i hi => ?_⟩
  by_contra hlt
  -- The round before would have whatever an earlier one had.
  exact hbefore (g.iterate_addNullables_subset (by omega) _ hi)

/-- **The rounds bound the search for a derivation of nothing.** A name has no row in the trace just
if the search never derives the empty form from it. If it has one, the search fails within fewer
steps than its round, and succeeds within as many steps as a tree has nodes that has so many levels
and branches as often as the longest body has symbols. -/
theorem nullableTrace_bounds_empty_derivations (g : Grammar) :
    ∃ rows, g.nullableTrace.outcome = .ok rows ∧
      ∀ rules : List Rule, (∀ r, r ∈ rules ↔ r ∈ g.rules) → ∀ v : Name,
        ((∀ r, ⟨v, r⟩ ∉ rows) ↔ ∀ k, derivesByQueue rules [.nonterminal v] [] k = false) ∧
        ∀ r, ⟨v, r⟩ ∈ rows → 0 < r ∧
          (∀ k < r, derivesByQueue rules [.nonterminal v] [] k = false) ∧
          ∀ k ≥ ∑ i ∈ Finset.range r, g.longestBody ^ i,
            derivesByQueue rules [.nonterminal v] [] k = true := by
  obtain ⟨rows, houtcome, hrows⟩ := g.exists_nullableTrace
  refine ⟨rows, houtcome, fun rules hrules v => ?_⟩
  have hsearch : ∀ k, derivesByQueue rules [.nonterminal v] [] k = true ↔
      ∃ n ≤ k, Yields g.rules.toList n [.nonterminal v] [] := fun k =>
    derivesByQueue_toForm_iff (w := []) hrules
  refine ⟨⟨fun hnone k => ?_, fun hnever r hr => ?_⟩,
    fun r hr => ⟨?_, fun k hk => ?_, fun k hk => ?_⟩⟩
  · -- What derives the empty form is found by some round, so it would have a row.
    rw [Bool.eq_false_iff, ne_eq, hsearch]
    rintro ⟨n, -, hyield⟩
    classical
    exact hnone _ ((hrows v _).2 (Nat.isLeast_find ⟨n, mem_iterate_of_yields_nil hyield⟩))
  · obtain ⟨n, -, hyield⟩ := g.exists_yields_nil_of_mem_iterate r v ((hrows v r).1 hr).1
    have hfound := (hsearch n).2 ⟨n, Nat.le_refl n, hyield⟩
    rw [hnever n] at hfound
    cases hfound
  · have hmem : v ∈ g.addNullables^[r] ∅ := ((hrows v r).1 hr).1
    rw [Nat.pos_iff_ne_zero]
    rintro rfl
    exact SortedSet.not_mem_empty v hmem
  · rw [Bool.eq_false_iff, ne_eq, hsearch]
    rintro ⟨n, hn, hyield⟩
    -- A shorter derivation would have the name found earlier.
    have hround : r ≤ n := ((hrows v r).1 hr).2 (mem_iterate_of_yields_nil hyield)
    omega
  · obtain ⟨n, hn, hyield⟩ := g.exists_yields_nil_of_mem_iterate r v ((hrows v r).1 hr).1
    exact (hsearch k).2 ⟨n, Nat.le_trans hn hk, hyield⟩

/-- A name for nothing, one for twice nothing, and one for both. -/
def nothingTwice : Grammar where
  nonterminals := ∅
  goal := .text "S"
  rules := .ofList [⟨.text "A", []⟩,
    ⟨.text "B", [.nonterminal (.text "A"), .nonterminal (.text "A")]⟩,
    ⟨.text "S", [.nonterminal (.text "A"), .nonterminal (.text "B")]⟩]

/-- The goal is found in the third round. Two steps do not derive the empty form from it, and the
seven nodes of a full tree of three levels are enough. -/
theorem nothingTwice_bounds :
    ∃ rows, nothingTwice.nullableTrace.outcome = .ok rows ∧ ⟨.text "S", 3⟩ ∈ rows ∧
      derivesByQueue nothingTwice.rules.toList [.nonterminal (.text "S")] [] 2 = false ∧
      derivesByQueue nothingTwice.rules.toList [.nonterminal (.text "S")] [] 7 = true := by
  obtain ⟨rows, houtcome, hbounds⟩ := nullableTrace_bounds_empty_derivations nothingTwice
  obtain ⟨-, hrow⟩ := hbounds _ (fun r => SortedSet.mem_toList) (.text "S")
  have hS : ⟨.text "S", 3⟩ ∈ rows := by
    obtain ⟨rows', houtcome', hrows⟩ := nothingTwice.exists_nullableTrace
    obtain rfl : rows' = rows := Except.ok.inj (houtcome'.symm.trans houtcome)
    exact (hrows _ 3).2 (isLeast_round_succ (by decide +kernel) (by decide +kernel))
  obtain ⟨-, hbelow, habove⟩ := hrow 3 hS
  exact ⟨rows, houtcome, hS, hbelow 2 (by decide), habove 7 (by decide +kernel)⟩

end Grammar

end ContextFree
