import ContextFree.Chain.UnitPairs
import ContextFree.Proofs.Rounds

/-!
# ContextFree — chain paths and unit pairs

A chain path leads from a name along chain rules. The rounds of `Grammar.extendPairs` lengthen the
paths they cover by one chain rule at the front, so round `k` from any pairs has what paths of at
most `k` rules lead to. Started from the diagonal the pairs stay between generators, the closure
settles, and the pairs it answers with are the chain paths between generators.

Main statements: `Grammar.mem_iterate_extendPairs` (a round covers one rule more, by induction on
the rounds), `Grammar.exists_pairRounds_eq` (the rounds and what is reported of them) and
`Grammar.exists_computeUnitPairs` (the answer is exact).
-/

namespace ContextFree

open Closure

namespace Grammar

/-- A path of `n` chain rules from one name to another. -/
inductive ChainPath (g : Grammar) : Nat → Name → Name → Prop
  | nil (v : Name) : ChainPath g 0 v v
  | cons {n : Nat} {u v w : Name} (first : ⟨u, [.nonterminal v]⟩ ∈ g.rules)
    (rest : ChainPath g n v w) : ChainPath g (n + 1) u w

variable {g : Grammar}

/-- Two paths that meet are one path. The first is put in front of the second rule by rule. -/
theorem ChainPath.trans {m n : Nat} {u v w : Name} (huv : ChainPath g m u v)
    (hvw : ChainPath g n v w) : ChainPath g (m + n) u w := by
  induction huv with
  | nil => rwa [Nat.zero_add]
  | @cons m u v' v first _ ih =>
    rw [show m + 1 + n = m + n + 1 from by omega]
    exact .cons first (ih hvw)

theorem ChainPath.mono {h : Grammar} (hrules : g.rules ⊆ h.rules) {n : Nat} {u w : Name}
    (hpath : ChainPath g n u w) : ChainPath h n u w := by
  induction hpath with
  | nil => exact .nil _
  | cons first _ ih => exact .cons (hrules _ first) ih

/-- A chain path starts at a generator, unless it has no rules and stays where it is. -/
theorem ChainPath.source_mem_generators {n : Nat} {u w : Name} (h : ChainPath g n u w)
    (hw : w ∈ g.generators) : u ∈ g.generators := by
  cases h with
  | nil => exact hw
  | cons first _ => exact mem_generators.2 ⟨_, first, rfl⟩

/-! ## The rounds

A round is seen from the front: it prolongs each pair there is by a chain rule that leads to its
source. So a path of several rules is covered from its far end on, and the induction over the rounds
takes the first rule of a path off. -/

/-- One round puts a chain rule in front of a pair. -/
theorem mem_extendPairs {pairs : SortedSet Arc} {u w : Name} :
    ⟨u, w⟩ ∈ g.extendPairs pairs ↔
      ⟨u, w⟩ ∈ pairs ∨ ∃ v, ⟨u, [.nonterminal v]⟩ ∈ g.rules ∧ ⟨v, w⟩ ∈ pairs := by
  unfold extendPairs
  rw [Arc.mem_extendPairs]
  refine or_congr_right ⟨?_, ?_⟩
  · rintro ⟨c, hc, rfl, hp⟩
    exact ⟨c.target, mem_chainArcs.1 hc, hp⟩
  · rintro ⟨v, hr, hp⟩
    exact ⟨⟨u, v⟩, mem_chainArcs.2 hr, rfl, hp⟩

/-- After `k` rounds a name is paired with what a path of at most `k` chain rules from it is paired
with at the start. -/
theorem mem_iterate_extendPairs (pairs : SortedSet Arc) (k : Nat) {u w : Name} :
    ⟨u, w⟩ ∈ g.extendPairs^[k] pairs ↔
      ∃ v n, n ≤ k ∧ ChainPath g n u v ∧ ⟨v, w⟩ ∈ pairs := by
  -- Each round puts one chain rule in front of the paths there are.
  induction k generalizing u with
  | zero =>
    constructor
    · exact fun h => ⟨u, 0, Nat.le_refl 0, .nil u, h⟩
    · rintro ⟨v, n, hn, hpath, h⟩
      obtain rfl : n = 0 := by omega
      cases hpath
      exact h
  | succ k ih =>
    rw [Function.iterate_succ_apply', mem_extendPairs]
    simp only [ih]
    constructor
    · rintro (⟨v, n, hn, hpath, h⟩ | ⟨x, hr, v, n, hn, hpath, h⟩)
      · exact ⟨v, n, by omega, hpath, h⟩
      · exact ⟨v, n + 1, by omega, .cons hr hpath, h⟩
    · rintro ⟨v, n, hn, hpath, h⟩
      cases hpath with
      | nil => exact .inl ⟨u, 0, Nat.zero_le k, .nil u, h⟩
      | @cons n _ x _ first rest => exact .inr ⟨x, first, v, n, by omega, rest, h⟩

/-- All pairs of the names, which is the room that the rounds have. -/
def pairsWithin (names : SortedSet Name) : SortedSet Arc :=
  names.flatMap fun u => names.toList.map fun v => ⟨u, v⟩

theorem mem_pairsWithin {names : SortedSet Name} {u w : Name} :
    ⟨u, w⟩ ∈ pairsWithin names ↔ u ∈ names ∧ w ∈ names := by
  simp [pairsWithin, SortedSet.mem_toList]

/-- There are no more pairs than the square, which the closure is given for the size of its
universe. -/
theorem size_pairsWithin_le (names : SortedSet Name) :
    (pairsWithin names).size ≤ names.size * names.size := by
  -- The pairs are listed source by source. A set is no larger than its listing is long.
  have hlength : ∀ l : List Name,
      (l.flatMap fun u => names.toList.map fun v => (⟨u, v⟩ : Arc)).length =
        l.length * names.size := by
    intro l
    induction l with
    | nil => simp
    | cons u l ih =>
      rw [List.flatMap_cons, List.length_append, ih, List.length_map, SortedSet.length_toList,
        List.length_cons, Nat.succ_mul, Nat.add_comm]
  have hle := SortedSet.size_ofList_le
    (names.toList.flatMap fun u => names.toList.map fun v => (⟨u, v⟩ : Arc))
  rw [hlength, SortedSet.length_toList] at hle
  exact hle

/-- The rounds start within that room. -/
theorem diagonal_subset_pairsWithin (names : SortedSet Name) :
    Arc.diagonal names ⊆ pairsWithin names := by
  rintro ⟨u, w⟩ h
  obtain ⟨hu, rfl⟩ := Arc.mem_diagonal.1 h
  exact mem_pairsWithin.2 ⟨hu, hu⟩

/-- They stay within it, too: what a round puts in front of a pair heads a rule. -/
theorem growsWithin_extendPairs (g : Grammar) :
    GrowsWithin (pairsWithin g.generators) g.extendPairs where
  grows pairs _ p hp := mem_extendPairs.2 (.inl hp)
  stays pairs hpairs p hp := by
    obtain ⟨u, w⟩ := p
    rcases mem_extendPairs.1 hp with hp | ⟨v, hr, hp⟩
    · exact hpairs _ hp
    · -- The source that is added heads a chain rule.
      exact mem_pairsWithin.2 ⟨mem_generators.2 ⟨_, hr, rfl⟩, (mem_pairsWithin.1 (hpairs _ hp)).2⟩

/-- So the closure settles, and each of its rounds reports the pairs found so far and the room that
is left. -/
theorem exists_pairRounds_eq (g : Grammar) :
    ∃ n, SettlesAt g.extendPairs (Arc.diagonal g.generators) n ∧ g.pairRounds =
      ⟨(List.range' 1 n).map fun i => roundEvent (g.generators.size * g.generators.size : Nat) i
          (g.extendPairs^[i] (Arc.diagonal g.generators)),
        .ok (settledRounds g.extendPairs (Arc.diagonal g.generators) n)⟩ :=
  exists_iterate_eq g.growsWithin_extendPairs (diagonal_subset_pairsWithin _)
    (Int.ofNat_le.2 (size_pairsWithin_le _))

/-! ## The answer

The diagonal has the paths with no rules. From there on the rounds cover longer and longer paths,
but only between generators, and since there are finitely many such pairs, one round covers all that
is left. -/

/-- Within `k` rounds from the diagonal a generator is paired with the generators that a path of at
most `k` chain rules leads to. -/
theorem mem_iterate_diagonal {k : Nat} {u w : Name} :
    ⟨u, w⟩ ∈ g.extendPairs^[k] (Arc.diagonal g.generators) ↔
      w ∈ g.generators ∧ ∃ n ≤ k, ChainPath g n u w := by
  rw [mem_iterate_extendPairs]
  constructor
  · rintro ⟨v, n, hn, hpath, hp⟩
    obtain ⟨hv, rfl⟩ := Arc.mem_diagonal.1 hp
    exact ⟨hv, n, hn, hpath⟩
  · rintro ⟨hw, n, hn, hpath⟩
    exact ⟨w, n, hn, hpath, Arc.mem_diagonal.2 ⟨hw, rfl⟩⟩

/-- The pairs are the chain paths, of any length, that end in a generator. -/
def IsUnitPairSet (g : Grammar) (pairs : SortedSet Arc) : Prop :=
  ∀ u w, ⟨u, w⟩ ∈ pairs ↔ w ∈ g.generators ∧ ∃ n, ChainPath g n u w

theorem IsUnitPairSet.exists_chainPath {pairs : SortedSet Arc} (h : g.IsUnitPairSet pairs)
    {u w : Name} (hp : ⟨u, w⟩ ∈ pairs) : ∃ n, ChainPath g n u w :=
  ((h u w).1 hp).2

/-- Chain paths leave no choice which pairs there are. -/
theorem IsUnitPairSet.unique {pairs pairs' : SortedSet Arc} (h : g.IsUnitPairSet pairs)
    (h' : g.IsUnitPairSet pairs') : pairs = pairs' :=
  SortedSet.ext_mem fun ⟨u, w⟩ => (h u w).trans (h' u w).symm

/-- The unit pairs are found, and they are all the chain paths between generators. -/
theorem exists_computeUnitPairs (g : Grammar) :
    ∃ pairs, g.computeUnitPairs.outcome = .ok pairs ∧ g.IsUnitPairSet pairs := by
  obtain ⟨n, hn, hrounds⟩ := g.exists_pairRounds_eq
  refine ⟨g.extendPairs^[n] (Arc.diagonal g.generators), ?_, fun u w => ?_⟩
  · rw [computeUnitPairs, hrounds, ← last_settledRounds]
    rfl
  constructor
  · intro h
    obtain ⟨hw, m, _, hpath⟩ := mem_iterate_diagonal.1 h
    exact ⟨hw, m, hpath⟩
  · rintro ⟨hw, m, hpath⟩
    -- A longer path is covered by a later round, which has nothing that the settled one has not.
    have hround : ⟨u, w⟩ ∈ g.extendPairs^[m] (Arc.diagonal g.generators) :=
      mem_iterate_diagonal.2 ⟨hw, m, Nat.le_refl m, hpath⟩
    exact g.growsWithin_extendPairs.iterate_subset_settled (diagonal_subset_pairsWithin _) hn m _
      hround

/-- What the closure answers with can be told without it. Later proofs go by this and never look at
the rounds again. -/
theorem outcome_computeUnitPairs_iff {pairs : SortedSet Arc} :
    g.computeUnitPairs.outcome = .ok pairs ↔ g.IsUnitPairSet pairs := by
  obtain ⟨computed, houtcome, hcomputed⟩ := g.exists_computeUnitPairs
  rw [houtcome, Except.ok.injEq]
  constructor
  · rintro rfl
    exact hcomputed
  · exact hcomputed.unique

end Grammar

end ContextFree
