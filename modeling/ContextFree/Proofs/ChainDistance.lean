import ContextFree.Proofs.ChainGraph
import ContextFree.Proofs.QueueSearch
import ContextFree.Proofs.Yield
import Mathlib.Data.List.Nodup
import Mathlib.Order.Bounds.Basic

/-!
# ContextFree — distances in the chain graph

How far a name is from another is the length of a shortest chain path. The names on such a path are
at different distances from its end, so it comes through no name twice; it has no more rules than
there are generators, and fewer if it ends in one. Two searches find these distances independently.
The rounds of the unit pairs cover paths of one rule more each time, so a pair is found in the round
that is its distance. And a derivation by chain rules alone never has more than one symbol, so the
search for a derivation walks the same paths.

Main statements: `Grammar.lt_size_generators_of_isLeast` (shortest paths are short, by the names on
them), `Grammar.exists_unitPairTable` (the cells of the table are distances),
`Grammar.stepsIn_chainRules_iff` (derivations by chain rules are paths) and
`Grammar.unitPairTable_shows_distances`.
-/

namespace ContextFree

open Closure Rewriting

namespace Grammar

variable {g : Grammar}

/-- The lengths of the chain paths from one name to another. -/
def chainLengths (g : Grammar) (u w : Name) : Set Nat :=
  {n | ChainPath g n u w}

/-- A path without a rule leads nowhere else. -/
theorem chainPath_zero_iff {u w : Name} : ChainPath g 0 u w ↔ u = w := by
  constructor
  · rintro ⟨⟩
    rfl
  · rintro rfl
    exact .nil u

/-- A longer path has a first rule, and the rest of it leads on from the target of that rule. -/
theorem chainPath_succ_iff {n : Nat} {u w : Name} :
    ChainPath g (n + 1) u w ↔ ∃ v, ⟨u, [.nonterminal v]⟩ ∈ g.rules ∧ ChainPath g n v w := by
  constructor
  · rintro (_ | ⟨first, rest⟩)
    exact ⟨_, first, rest⟩
  · rintro ⟨v, first, rest⟩
    exact .cons first rest

/-! ## Shortest paths

The rest of a shortest path is a shortest path. So the names that such a path leaves are at
distances from its end that go down one by one, and no two of them are the same. Counting them gives
the bound: as many different generators as the path has rules, and the end besides if it is a
generator. -/

/-- Where there is a path, there is a shortest one. -/
theorem ChainPath.exists_isLeast {n : Nat} {u w : Name} (h : ChainPath g n u w) :
    ∃ m, IsLeast (g.chainLengths u w) m := by
  classical
  exact ⟨_, Nat.isLeast_find ⟨n, h⟩⟩

/-- A name is at distance 0 from itself and from no other. -/
theorem isLeast_chainLengths_zero_iff {u w : Name} :
    IsLeast (g.chainLengths u w) 0 ↔ u = w := by
  constructor
  · exact fun h => chainPath_zero_iff.1 h.1
  · exact fun h => ⟨chainPath_zero_iff.2 h, fun _ _ => Nat.zero_le _⟩

/-- The names that a shortest path leaves are different generators. Each is at some distance from
the end of the path, which does not exceed the length of the path. -/
theorem exists_nodup_of_isLeast {n : Nat} {u w : Name} (h : IsLeast (g.chainLengths u w) n) :
    ∃ names : List Name, names.length = n ∧ names.Nodup ∧
      ∀ v ∈ names, v ∈ g.generators ∧ ∃ m, 0 < m ∧ m ≤ n ∧ IsLeast (g.chainLengths v w) m := by
  induction n generalizing u with
  | zero => exact ⟨[], rfl, List.nodup_nil, fun v hv => absurd hv List.not_mem_nil⟩
  | succ n ih =>
    obtain ⟨x, first, rest⟩ := chainPath_succ_iff.1 h.1
    have hrest : IsLeast (g.chainLengths x w) n := by
      refine ⟨rest, fun k hk => ?_⟩
      have hle : n + 1 ≤ k + 1 := h.2 (ChainPath.cons first hk)
      omega
    obtain ⟨names, hlength, hnodup, hmem⟩ := ih hrest
    -- The source is further from the end than every name behind it.
    have hfresh : u ∉ names := by
      intro hu
      obtain ⟨-, m, -, hm, hleast⟩ := hmem u hu
      have hsame : m = n + 1 := hleast.unique h
      omega
    refine ⟨u :: names, congrArg (· + 1) hlength, List.nodup_cons.2 ⟨hfresh, hnodup⟩, ?_⟩
    intro v hv
    rcases List.mem_cons.1 hv with rfl | hv
    · exact ⟨mem_generators.2 ⟨_, first, rfl⟩, n + 1, by omega, Nat.le_refl _, h⟩
    · obtain ⟨hgenerator, m, hpos, hm, hleast⟩ := hmem v hv
      exact ⟨hgenerator, m, hpos, by omega, hleast⟩

/-- A shortest path has no more rules than there are generators, wherever it ends. -/
theorem le_size_generators_of_isLeast {n : Nat} {u w : Name}
    (h : IsLeast (g.chainLengths u w) n) : n ≤ g.generators.size := by
  obtain ⟨names, hlength, hnodup, hmem⟩ := exists_nodup_of_isLeast h
  rw [← hlength]
  exact SortedSet.length_le_size_of_nodup hnodup fun v hv => (hmem v hv).1

/-- A shortest path to a generator has fewer rules than there are generators. -/
theorem lt_size_generators_of_isLeast {n : Nat} {u w : Name} (hw : w ∈ g.generators)
    (h : IsLeast (g.chainLengths u w) n) : n < g.generators.size := by
  obtain ⟨names, hlength, hnodup, hmem⟩ := exists_nodup_of_isLeast h
  -- The end is one generator more, being at no distance from itself.
  have hend : w ∉ names := by
    intro hw
    obtain ⟨-, m, hpos, -, hleast⟩ := hmem w hw
    have hzero : m = 0 := hleast.unique (isLeast_chainLengths_zero_iff.2 rfl)
    omega
  have hall : ∀ v ∈ w :: names, v ∈ g.generators :=
    List.forall_mem_cons.2 ⟨hw, fun v hv => (hmem v hv).1⟩
  have hle := SortedSet.length_le_size_of_nodup (List.nodup_cons.2 ⟨hend, hnodup⟩) hall
  rw [List.length_cons, hlength] at hle
  exact hle

/-- Whatever a chain path leads to a path with no more rules than there are generators leads to. -/
theorem ChainPath.exists_le_size_generators {n : Nat} {u w : Name} (h : ChainPath g n u w) :
    ∃ m ≤ g.generators.size, ChainPath g m u w := by
  obtain ⟨m, hm⟩ := h.exists_isLeast
  exact ⟨m, le_size_generators_of_isLeast hm, hm.1⟩

/-- If it is a generator, fewer rules will do. -/
theorem ChainPath.exists_lt_size_generators {n : Nat} {u w : Name} (h : ChainPath g n u w)
    (hw : w ∈ g.generators) : ∃ m < g.generators.size, ChainPath g m u w := by
  obtain ⟨m, hm⟩ := h.exists_isLeast
  exact ⟨m, lt_size_generators_of_isLeast hw hm, hm.1⟩

/-- A path within a bound may be taken to be a shortest one. -/
theorem exists_le_chainPath_iff {k : Nat} {u w : Name} :
    (∃ n ≤ k, ChainPath g n u w) ↔ ∃ n ≤ k, IsLeast (g.chainLengths u w) n := by
  constructor
  · rintro ⟨n, hn, hpath⟩
    obtain ⟨m, hm⟩ := hpath.exists_isLeast
    have hle : m ≤ n := hm.2 hpath
    exact ⟨m, by omega, hm⟩
  · rintro ⟨n, hn, hleast⟩
    exact ⟨n, hn, hleast.1⟩

/-! ## The rounds of the unit pairs

After `k` rounds from the diagonal the pairs are those that a path of at most `k` rules joins
(`mem_iterate_diagonal`), so a pair appears in the round that is the length of a shortest path. The
cells of the table say which round that is. -/

/-- The first round that has a pair is the distance of its names. -/
theorem isLeast_round_iff {n : Nat} {u w : Name} :
    IsLeast {k | ⟨u, w⟩ ∈ g.extendPairs^[k] (Arc.diagonal g.generators)} n ↔
      w ∈ g.generators ∧ IsLeast (g.chainLengths u w) n := by
  constructor
  · rintro ⟨hround, hleast⟩
    -- The path has no more rules than the round says, and no fewer, or an earlier round would have
    -- it.
    obtain ⟨hw, m, hm, hpath⟩ := mem_iterate_diagonal.1 hround
    have hlower : ∀ k, ChainPath g k u w → n ≤ k := fun k hk =>
      hleast (mem_iterate_diagonal.2 ⟨hw, k, Nat.le_refl k, hk⟩)
    obtain rfl : m = n := Nat.le_antisymm hm (hlower m hpath)
    exact ⟨hw, hpath, hlower⟩
  · rintro ⟨hw, hpath, hlower⟩
    refine ⟨mem_iterate_diagonal.2 ⟨hw, n, Nat.le_refl n, hpath⟩, fun k hk => ?_⟩
    obtain ⟨-, m, hm, hpath'⟩ := mem_iterate_diagonal.1 hk
    exact Nat.le_trans (hlower hpath') hm

/-- The table is made of the rounds, it has a row and a column for each generator, and a cell holds
the distance of its names. -/
theorem exists_unitPairTable (g : Grammar) :
    ∃ table, g.unitPairTable.outcome = .ok table ∧ g.pairRounds.outcome = .ok table.rounds ∧
      (∀ v, v ∈ table.index ↔ v ∈ g.generators) ∧ table.index.Nodup ∧
      ∀ u w n, table.cell u w = some n ↔ w ∈ g.generators ∧ IsLeast (g.chainLengths u w) n := by
  obtain ⟨last, hlast, hrounds⟩ := g.exists_pairRounds_eq
  have hok : g.pairRounds.outcome =
      .ok (settledRounds g.extendPairs (Arc.diagonal g.generators) last) := by
    rw [hrounds]
  refine ⟨⟨g.generators.listBy Name.render,
    settledRounds g.extendPairs (Arc.diagonal g.generators) last⟩, ?_, hok, ?_, ?_,
    fun u w n => ?_⟩
  · rw [unitPairTable, Logged.outcome_bind_ok hok]
    rfl
  · exact fun v => SortedSet.mem_listBy
  · exact SortedSet.nodup_listBy _ _
  · -- A cell asks for the first round with the pair, which is the least length of a path.
    rw [PairTable.cell, hlast.firstRound?_eq_some, isLeast_round_iff]

/-! ## The search among the chain rules

With chain rules alone every form on the way from a nonterminal is a single nonterminal, so a
derivation is a path. What the search finds within a limit is what a path of so many rules leads to,
and that is a question about distances again. -/

/-- Derivations by chain rules alone are chain paths, of as many rules as they have steps. -/
theorem stepsIn_chainRules_iff {n : Nat} {u w : Name} :
    StepsIn (g.withRules g.chainRules).rules.toList n [.nonterminal u] [.nonterminal w] ↔
      ChainPath g n u w := by
  constructor
  · intro h
    induction n generalizing u with
    | zero =>
      cases h
      exact .nil w
    | succ n ih =>
      cases h with
      | @succ _ _ form _ first rest =>
        -- A chain rule leaves a single nonterminal again, so the hypothesis applies to the rest.
        have hr := SortedSet.mem_toList.1 (step_singleton_iff.1 first)
        obtain ⟨hrule, v, hbody⟩ := mem_chainRules.1 hr
        have hbody : form = [.nonterminal v] := hbody
        subst hbody
        exact .cons hrule (ih rest)
  · intro h
    induction h with
    | nil => exact .zero _
    | @cons _ _ v _ first _ ih =>
      have hr := mem_chainRules.2 ⟨first, v, rfl⟩
      exact .succ (step_singleton_iff.2 (SortedSet.mem_toList.2 hr)) ih

/-- The search among the chain rules finds what a short enough path leads to. -/
theorem derivesByQueue_chainRules_iff {chains : List Rule}
    (hchains : ∀ r, r ∈ chains ↔ r ∈ (g.withRules g.chainRules).rules) {k : Nat} {u w : Name} :
    derivesByQueue chains [.nonterminal u] [.nonterminal w] k = true ↔
      ∃ n ≤ k, ChainPath g n u w := by
  rw [derivesByQueue_iff]
  simp only [stepsIn_toList_iff hchains, stepsIn_chainRules_iff]

/-- **The table of the unit pairs shows distances.** It has a row and a column for each generator. A
cell holds the length of a shortest chain path, 0 just on the diagonal, and is empty just if no
path leads from the one generator to the other; no distance reaches the number of generators. And
the search among the chain rules, in any order, derives one generator from the other within a number
of steps just if the distance in the cell does not exceed it. -/
theorem unitPairTable_shows_distances (g : Grammar) :
    ∃ table, g.unitPairTable.outcome = .ok table ∧
      (table.index.Nodup ∧ ∀ v, v ∈ table.index ↔ v ∈ g.generators) ∧
      ∀ u ∈ g.generators, ∀ w ∈ g.generators,
        (∀ chains : List Rule, (∀ r, r ∈ chains ↔ r ∈ (g.withRules g.chainRules).rules) → ∀ k,
          (derivesByQueue chains [.nonterminal u] [.nonterminal w] k = true ↔
            ∃ n ≤ k, table.cell u w = some n)) ∧
        (∀ n, table.cell u w = some n ↔ IsLeast {m | ChainPath g m u w} n) ∧
        (table.cell u w = some 0 ↔ u = w) ∧
        (table.cell u w = none ↔ ∀ n, ¬ ChainPath g n u w) ∧
        ∀ n, table.cell u w = some n → n ≤ g.generators.size - 1 := by
  obtain ⟨table, houtcome, -, hindex, hnodup, hcell⟩ := g.exists_unitPairTable
  refine ⟨table, houtcome, ⟨hnodup, hindex⟩, fun u _ w hw => ?_⟩
  have hdistance : ∀ n, table.cell u w = some n ↔ IsLeast (g.chainLengths u w) n := fun n =>
    (hcell u w n).trans (and_iff_right hw)
  -- What is left are statements about distances.
  refine ⟨fun chains hchains k => ?_, hdistance, ?_, ?_, fun n hn => ?_⟩
  · rw [derivesByQueue_chainRules_iff hchains, exists_le_chainPath_iff]
    simp only [hdistance]
  · rw [hdistance, isLeast_chainLengths_zero_iff]
  · rw [Option.eq_none_iff_forall_ne_some]
    simp only [ne_eq, hdistance]
    constructor
    · intro hnone n hpath
      obtain ⟨m, hm⟩ := hpath.exists_isLeast
      exact hnone m hm
    · exact fun hnone n hleast => hnone n hleast.1
  · have hlt := lt_size_generators_of_isLeast hw ((hdistance n).1 hn)
    omega

/-- Three names that are renamed into each other round and round. -/
def renamingRing : Grammar where
  nonterminals := ∅
  goal := .text "A"
  rules := .ofList [⟨.text "A", [.nonterminal (.text "B")]⟩,
    ⟨.text "B", [.nonterminal (.text "C")]⟩, ⟨.text "C", [.nonterminal (.text "A")]⟩]

theorem mem_renamingRing {r : Rule} :
    r ∈ renamingRing.rules ↔ r = ⟨.text "A", [.nonterminal (.text "B")]⟩ ∨
      r = ⟨.text "B", [.nonterminal (.text "C")]⟩ ∨
      r = ⟨.text "C", [.nonterminal (.text "A")]⟩ := by
  simp [renamingRing]

/-- Two renamings lead from the first name to the last, and the search needs both. -/
theorem renamingRing_distances :
    (.text "A" ∈ renamingRing.generators ∧ .text "C" ∈ renamingRing.generators) ∧
      ∃ table, renamingRing.unitPairTable.outcome = .ok table ∧
        table.cell (.text "A") (.text "C") = some 2 ∧
        derivesByQueue (renamingRing.withRules renamingRing.chainRules).rules.toList
          [.nonterminal (.text "A")] [.nonterminal (.text "C")] 2 = true ∧
        derivesByQueue (renamingRing.withRules renamingRing.chainRules).rules.toList
          [.nonterminal (.text "A")] [.nonterminal (.text "C")] 1 = false := by
  have hAB : ⟨.text "A", [.nonterminal (.text "B")]⟩ ∈ renamingRing.rules :=
    mem_renamingRing.2 (.inl rfl)
  have hBC : ⟨.text "B", [.nonterminal (.text "C")]⟩ ∈ renamingRing.rules :=
    mem_renamingRing.2 (.inr (.inl rfl))
  have hCA : ⟨.text "C", [.nonterminal (.text "A")]⟩ ∈ renamingRing.rules :=
    mem_renamingRing.2 (.inr (.inr rfl))
  have hA : .text "A" ∈ renamingRing.generators := mem_generators.2 ⟨_, hAB, rfl⟩
  have hC : .text "C" ∈ renamingRing.generators := mem_generators.2 ⟨_, hCA, rfl⟩
  obtain ⟨table, houtcome, -, hcells⟩ := unitPairTable_shows_distances renamingRing
  obtain ⟨hsearch, hdistance, -, -, -⟩ := hcells (.text "A") hA (.text "C") hC
  have hsearch := hsearch _ fun r => SortedSet.mem_toList
  -- No path is shorter: the first name is not the last, and is not renamed into it at once.
  have hleast : IsLeast {m | ChainPath renamingRing m (.text "A") (.text "C")} 2 := by
    refine ⟨.cons hAB (.cons hBC (.nil _)), fun k hk => ?_⟩
    match k, hk with
    | 0, hk => exact absurd (chainPath_zero_iff.1 hk) (by decide)
    | 1, hk =>
      obtain ⟨v, hfirst, hrest⟩ := chainPath_succ_iff.1 hk
      obtain rfl := chainPath_zero_iff.1 hrest
      simp [mem_renamingRing] at hfirst
    | k + 2, _ => omega
  have hcell := (hdistance 2).2 hleast
  refine ⟨⟨hA, hC⟩, table, houtcome, hcell, (hsearch 2).2 ⟨2, Nat.le_refl 2, hcell⟩, ?_⟩
  rw [Bool.eq_false_iff, ne_eq, hsearch]
  rintro ⟨n, hn, hn'⟩
  rw [hcell] at hn'
  cases hn'
  omega

end Grammar

end ContextFree
