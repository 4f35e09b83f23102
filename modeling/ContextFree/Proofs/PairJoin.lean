import ContextFree.Proofs.FirstFailing
import ContextFree.Proofs.Faultless

/-!
# ContextFree — a round of pairs is one join

A round goes through the rules in turn and adds pairs as it finds them, while it looks up the
targets of the pairs there were before. So what it adds is the join of the rules with those pairs:
neither the order of the rules makes a difference nor a pair that the round itself has added. Any
rules will do in the place of chain rules, as long as their bodies begin with a symbol.

Main statements: `Rule.extendPairs_eq_error` (an empty rule ends the round, and the complaint names
the first one), `Rule.mem_extendPairs_leadingArcs` (the join), `Rule.addTargets_eq_ok` (what one
rule adds) and from it, by induction on the rules, `Rule.foldlM_addTargets` (what they all add), and
`Grammar.extendPairs_is_one_join`.
-/

namespace ContextFree

variable {pairs : SortedSet Arc} {chains : List Rule} {targets : Std.TreeMap Name (List Name)}

/-! ## Empty rules

The first symbol of each rule is looked at before anything is added. So an empty rule ends the round
whatever pairs there are, also if it stands behind rules that lead somewhere. -/

/-- A rule without a first symbol leads along no arc. -/
theorem Rule.leadingArc_eq_error (r : Rule) (e : ChainError) :
    r.leadingArc = .error e ↔ r.body = [] ∧ e = .emptyRule r.head := by
  unfold leadingArc leadingArc?
  cases r.body with
  | nil => simp [eq_comm]
  | cons s rest => simp

/-- The complaint names the first empty rule, whatever the pairs. -/
theorem Rule.extendPairs_eq_error {e : ChainError} : Rule.extendPairs chains pairs = .error e ↔
    ∃ r, IsFirst (fun s => s.body = []) chains r ∧ e = .emptyRule r.head := by
  unfold extendPairs
  rw [bind_pure_eq_error]
  exact mapM_eq_error leadingArc_eq_error

/-- A round is refused just if one of the rules is empty, whatever the pairs. -/
theorem Rule.exists_extendPairs_eq_error :
    (∃ e, Rule.extendPairs chains pairs = .error e) ↔ ∃ r ∈ chains, r.body = [] := by
  rw [← exists_isFirst_iff]
  simp only [extendPairs_eq_error]
  constructor
  · rintro ⟨_, r, hr, _⟩
    exact ⟨r, hr⟩
  · rintro ⟨r, hr⟩
    exact ⟨_, r, hr, rfl⟩

/-! ## The join

What comes of a round is told by the rules and the pairs alone, without an order. -/

/-- A round adds the head of each rule with the targets of what its body begins with. -/
theorem Rule.mem_extendPairs_leadingArcs {p : Arc} :
    p ∈ Arc.extendPairs (chains.filterMap Rule.leadingArc?) pairs ↔ p ∈ pairs ∨
      ∃ r ∈ chains, ∃ s, r.head = p.source ∧ r.body.head? = some s ∧
        ⟨s.name, p.target⟩ ∈ pairs := by
  rw [Arc.mem_extendPairs]
  refine or_congr_right ?_
  simp only [List.mem_filterMap, leadingArc?, Option.map_eq_some_iff]
  constructor
  · rintro ⟨_, ⟨r, hr, s, hs, rfl⟩, hsource, htarget⟩
    exact ⟨r, hr, s, hsource, hs, htarget⟩
  · rintro ⟨r, hr, s, hsource, hs, htarget⟩
    exact ⟨_, ⟨r, hr, s, hs, rfl⟩, hsource, htarget⟩

/-! ## Rules in turn

The rules take turns and the pairs become more with each. But the targets are looked up in an index
made before the first turn, so a turn does not depend on those before it, and all turns together
make the join. -/

/-- The pairs that an arc makes of the listed targets. -/
def Arc.throughTargets (targets : Std.TreeMap Name (List Name)) (arc : Arc) : List Arc :=
  (targets.getD arc.target []).map fun v => ⟨arc.source, v⟩

/-- The targets listed for the end of the arc are those of the pairs that start there. -/
theorem Arc.mem_throughTargets {listed : List Arc} {arc p : Arc} :
    p ∈ arc.throughTargets (Arc.targetsBySource listed) ↔
      arc.source = p.source ∧ ⟨arc.target, p.target⟩ ∈ listed := by
  simp only [throughTargets, List.mem_map, mem_targetsBySource]
  constructor
  · rintro ⟨v, hv, rfl⟩
    exact ⟨rfl, hv⟩
  · rintro ⟨hsource, hv⟩
    exact ⟨p.target, hv, by rw [hsource]⟩

/-- A rule adds the pairs of the arc that it leads along. -/
theorem Rule.addTargets_eq_ok {r : Rule} {arc : Arc} (h : r.leadingArc = .ok arc) :
    Rule.addTargets targets pairs r = .ok (pairs ∪ .ofList (arc.throughTargets targets)) := by
  rw [addTargets, h]
  exact congrArg Except.ok (SortedSet.foldl_insert _ _ _)

theorem Rule.addTargets_eq_error {r : Rule} {e : ChainError} (h : r.leadingArc = .error e) :
    Rule.addTargets targets pairs r = .error e := by
  rw [addTargets, h]
  rfl

/-- Rules in turn add the pairs of the arcs that they lead along, and are refused as those arcs are.
The pairs that a rule adds do not show in the targets, so the later rules find nothing new there. -/
theorem Rule.foldlM_addTargets (targets : Std.TreeMap Name (List Name)) (chains : List Rule)
    (pairs : SortedSet Arc) : chains.foldlM (Rule.addTargets targets) pairs = (do
      let arcs ← chains.mapM Rule.leadingArc
      return pairs ∪ .ofList (arcs.flatMap (Arc.throughTargets targets))) := by
  induction chains generalizing pairs with
  | nil =>
    refine congrArg Except.ok (SortedSet.ext_mem fun p => ?_)
    simp
  | cons r chains ih =>
    rw [List.foldlM_cons, List.mapM_cons]
    cases hfirst : r.leadingArc with
    | error e =>
      rw [addTargets_eq_error hfirst]
      rfl
    | ok arc =>
      rw [addTargets_eq_ok hfirst]
      -- The targets are the same for all rules, so what this rule added shows only in the union.
      refine (ih _).trans ?_
      cases chains.mapM Rule.leadingArc with
      | error e => rfl
      | ok arcs =>
        refine congrArg Except.ok (SortedSet.ext_mem fun p => ?_)
        simp only [SortedSet.mem_union, SortedSet.mem_ofList, List.flatMap_cons, List.mem_append,
          or_assoc]

namespace Grammar

variable {g : Grammar} {listed : List Arc}

/-- Rules in turn make the round of the arcs that they lead along, whatever order the pairs come in.
-/
theorem extendPairsInTurn_some (hlisted : ∀ p, p ∈ listed ↔ p ∈ pairs) (chains : List Rule) :
    g.extendPairsInTurn listed (some chains) = Rule.extendPairs chains pairs := by
  rw [extendPairsInTurn, Option.getD_some, Rule.foldlM_addTargets, Rule.extendPairs]
  refine congrArg _ (funext fun arcs => congrArg Except.ok (SortedSet.ext_mem fun p => ?_))
  simp only [SortedSet.mem_union, SortedSet.mem_ofList, List.mem_flatMap, Arc.mem_throughTargets,
    hlisted, Arc.mem_extendPairs]

/-- Without rules that are given, the round is that of the grammar. -/
theorem extendPairsInTurn_none (hlisted : ∀ p, p ∈ listed ↔ p ∈ pairs) :
    g.extendPairsInTurn listed none = .ok (g.extendPairs pairs) := by
  have hchains : ∀ r, r ∈ g.chainRules.toList ↔ r ∈ g.chainRules := fun _ => SortedSet.mem_toList
  rw [← extendPairs_chainRules hchains pairs, ← extendPairsInTurn_some (g := g) hlisted]
  rfl

/-- **A round of pairs is one join.** Whatever rules stand in the place of chain rules, and in
whatever order they and the pairs come: the round is refused just if one of the rules is empty, and
the complaint names the first such rule. Otherwise there are afterwards the pairs there were before,
and the head of each rule with the target of each of those pairs whose source the body begins with.
A pair that the round has added leads to no other. Without rules that are given, the chain rules of
the grammar make its round. -/
theorem extendPairs_is_one_join (g : Grammar) (hlisted : ∀ p, p ∈ listed ↔ p ∈ pairs)
    (chains : List Rule) :
    g.extendPairsInTurn listed (some chains) = Rule.extendPairs chains pairs ∧
    g.extendPairsInTurn listed none = .ok (g.extendPairs pairs) ∧
    ((∃ e, g.extendPairsInTurn listed (some chains) = .error e) ↔ ∃ r ∈ chains, r.body = []) ∧
    (∀ e, g.extendPairsInTurn listed (some chains) = .error e ↔
      ∃ r, IsFirst (fun s => s.body = []) chains r ∧ e = .emptyRule r.head) ∧
    ((∀ r ∈ chains, r.body ≠ []) → ∃ joined,
      g.extendPairsInTurn listed (some chains) = .ok joined ∧
      ∀ u w, ⟨u, w⟩ ∈ joined ↔ ⟨u, w⟩ ∈ pairs ∨
        ∃ r ∈ chains, ∃ s, r.head = u ∧ r.body.head? = some s ∧ ⟨s.name, w⟩ ∈ pairs) := by
  rw [extendPairsInTurn_some hlisted]
  refine ⟨rfl, extendPairsInTurn_none hlisted, Rule.exists_extendPairs_eq_error,
    fun e => Rule.extendPairs_eq_error, fun hnonempty => ?_⟩
  exact ⟨_, Rule.extendPairs_of_nonempty hnonempty pairs,
    fun u w => Rule.mem_extendPairs_leadingArcs⟩

/-- The second rule leads to the head of the first, and the third begins with a terminal. -/
def stackedRules : List Rule :=
  [⟨.text "B", [.nonterminal (.text "C")]⟩, ⟨.text "A", [.nonterminal (.text "B")]⟩,
    ⟨.text "D", [.terminal (.text "C"), .nonterminal (.text "A")]⟩]

/-- A name with itself, which the first rule and the third lead to. -/
def stackedPairs : List Arc :=
  [⟨.text "C", .text "C"⟩]

/-- The pair that the first rule adds is not extended by the second. With an empty rule behind them
nothing comes out, though there are no pairs that it could extend. -/
theorem stackedRules_joined :
    (∀ p, p ∈ stackedPairs ↔ p ∈ SortedSet.ofList stackedPairs) ∧
    (∀ r ∈ stackedRules, r.body ≠ []) ∧
    (∃ joined, (empty (.text "A")).extendPairsInTurn stackedPairs (some stackedRules) = .ok joined ∧
      ⟨.text "B", .text "C"⟩ ∈ joined ∧ ⟨.text "D", .text "C"⟩ ∈ joined ∧
      ⟨.text "A", .text "C"⟩ ∉ joined) ∧
    (empty (.text "A")).extendPairsInTurn [] (some (stackedRules ++ [⟨.text "E", []⟩])) =
      .error (.emptyRule (.text "E")) := by
  have hlisted : ∀ p, p ∈ stackedPairs ↔ p ∈ SortedSet.ofList stackedPairs :=
    fun p => SortedSet.mem_ofList.symm
  have hnone : ∀ p, p ∈ [] ↔ p ∈ SortedSet.ofList ([] : List Arc) :=
    fun p => SortedSet.mem_ofList.symm
  have hnonempty : ∀ r ∈ stackedRules, r.body ≠ [] := by decide
  obtain ⟨-, -, -, -, hround⟩ := extendPairs_is_one_join (empty (.text "A")) hlisted stackedRules
  obtain ⟨joined, hround, hmem⟩ := hround hnonempty
  obtain ⟨-, -, -, hrefused, -⟩ :=
    extendPairs_is_one_join (empty (.text "A")) hnone (stackedRules ++ [⟨.text "E", []⟩])
  refine ⟨hlisted, hnonempty, ⟨joined, hround, ?_, ?_, ?_⟩, ?_⟩
  · rw [hmem]
    simp [stackedRules, stackedPairs, Symbol.name]
  · rw [hmem]
    simp [stackedRules, stackedPairs, Symbol.name]
  · rw [hmem]
    simp [stackedRules, stackedPairs, Symbol.name]
  · exact (hrefused _).2 ⟨_, ⟨stackedRules, [], rfl, hnonempty, rfl⟩, rfl⟩

end Grammar

end ContextFree
