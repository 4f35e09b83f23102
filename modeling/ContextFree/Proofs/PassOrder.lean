import ContextFree.Proofs.ChainRuleElimination
import ContextFree.Proofs.EmptyRuleElimination
import ContextFree.Session.Request

/-!
# ContextFree — the order of the passes

Eliminating empty rules makes chain rules of longer ones, so chain rules have to be eliminated
afterwards. Doing it before as well changes nothing: a chain path of the variants runs through chain
rules there were already, which can be taken over, and through variants of rules that are kept. Once
both passes have run in this order there are neither empty rules nor chain rules, and no further
pass finds anything to do.

Main statements: `exists_chainPath_of_replaceChainRules` (the two kinds of chain paths rearranged,
by induction on the path), `replaceChainRules_absorbed` (an earlier elimination of chain rules
leaves no trace) and `Elimination.outcome_runAll_eq` (all sequences with the passes in this order
agree).
-/

namespace ContextFree

open Rewriting

namespace Grammar

variable {g : Grammar} {names : SortedSet Name} {pairs : SortedSet Arc}

/-- A rule of another shape, if it is not empty, is no variant of a chain rule. -/
theorem not_isChain_of_mem_variants {r : Rule} {v : Name} {body : Form}
    (hne : r.body ≠ []) (hshape : r.isChain = false)
    (hvariant : r.body ∈ Form.variants names body) : (⟨v, body⟩ : Rule).isChain = false := by
  rw [Rule.isChain_eq_false_iff] at hshape ⊢
  intro x hx
  obtain rfl : body = [.nonterminal x] := hx
  -- A variant of a chain rule is the rule itself or empty.
  rcases Form.mem_variants_singleton.1 hvariant with hsame | ⟨-, hempty⟩
  · exact hshape x hsame
  · exact hne hempty

/-! ## Chain paths among the variants

Let chain rules be eliminated, and then empty rules. The chain rules there are now come of rules
that have other symbols besides, which are dropped. A path through them is compared to one through
the variants of the grammar as it was before, where old chain rules stand between the new ones. -/

/-- A chain rule is one of its own variants, so chain paths are kept. -/
theorem ChainPath.replaceEmptyRules {n : Nat} {u v : Name} (h : ChainPath g n u v) :
    ChainPath (g.replaceEmptyRules names) n u v := by
  induction h with
  | nil => exact .nil _
  | cons first _ ih =>
    exact .cons (mem_replaceEmptyRules_iff.2
      ⟨List.cons_ne_nil _ _, _, first, Form.self_mem_variants _⟩) ih

/-- A chain path after both passes is one after the elimination of empty rules alone. -/
theorem ChainPath.of_replaceChainRules (hpairs : g.IsUnitPairSet pairs) {n : Nat} {u v : Name}
    (h : ChainPath ((g.replaceChainRules pairs).replaceEmptyRules names) n u v) :
    ∃ m, ChainPath (g.replaceEmptyRules names) m u v := by
  induction h with
  | nil => exact ⟨0, .nil _⟩
  | @cons n u x v first _ ih =>
    obtain ⟨m, hrest⟩ := ih
    -- The rule behind the first step was taken over along a path, which is put in its place.
    obtain ⟨hne, source, hs, hvariant⟩ := mem_replaceEmptyRules_iff.1 first
    obtain ⟨-, y, k, hpath, hr⟩ := (mem_replaceChainRules_iff hpairs).1 hs
    have hlast : ⟨y, [.nonterminal x]⟩ ∈ (g.replaceEmptyRules names).rules :=
      mem_replaceEmptyRules_iff.2 ⟨hne, source, hr, hvariant⟩
    exact ⟨_, hpath.replaceEmptyRules.trans (.cons hlast hrest)⟩

/-- What a chain path of the variants leads to is taken over by a name that a chain path leads to
after both passes. -/
theorem exists_chainPath_of_replaceChainRules (hpairs : g.IsUnitPairSet pairs) {n : Nat}
    {u v : Name} (h : ChainPath (g.replaceEmptyRules names) n u v) {body : Form}
    (hbody : ⟨v, body⟩ ∈ (g.replaceChainRules pairs).rules) :
    ∃ x m, ChainPath ((g.replaceChainRules pairs).replaceEmptyRules names) m u x ∧
      ⟨x, body⟩ ∈ (g.replaceChainRules pairs).rules := by
  induction h with
  | nil v => exact ⟨v, 0, .nil v, hbody⟩
  | @cons n u y v first _ ih =>
    obtain ⟨x, m, hpath, hx⟩ := ih hbody
    obtain ⟨hne, source, hs, hvariant⟩ := mem_replaceEmptyRules_iff.1 first
    cases hshape : (⟨u, source⟩ : Rule).isChain with
    | false =>
      -- The step comes of a rule that is kept.
      have hkept := mem_replaceChainRules_of_not_chain hpairs hs hshape
      have hfirst : ⟨u, [.nonterminal y]⟩ ∈
          ((g.replaceChainRules pairs).replaceEmptyRules names).rules :=
        mem_replaceEmptyRules_iff.2 ⟨hne, source, hkept, hvariant⟩
      exact ⟨x, m + 1, .cons hfirst hpath, hx⟩
    | true =>
      -- The step is a chain rule there was before, and is left out.
      obtain ⟨z, hz⟩ := Rule.isChain_iff.1 hshape
      obtain rfl : source = [.nonterminal z] := hz
      have hyz := (Form.mem_variants_singleton.1 hvariant).resolve_right fun h => hne h.2
      cases hyz
      cases hpath with
      | nil => exact ⟨u, 0, .nil u, mem_replaceChainRules_of_chain hpairs hs hx⟩
      | @cons m _ w _ next rest =>
        -- The rule behind the next step is taken over by `u` itself.
        obtain ⟨hne', source, hs', hvariant'⟩ := mem_replaceEmptyRules_iff.1 next
        have htaken := mem_replaceChainRules_of_chain hpairs hs hs'
        have hnext : ⟨u, [.nonterminal w]⟩ ∈
            ((g.replaceChainRules pairs).replaceEmptyRules names).rules :=
          mem_replaceEmptyRules_iff.2 ⟨hne', source, htaken, hvariant'⟩
        exact ⟨x, m + 1, .cons hnext rest, hx⟩

/-! ## Passes that leave no trace

Both results are described by chain paths, so what was shown about these says that the results are
the same. -/

/-- The elimination of chain rules keeps all yields, and so it keeps what is nullable. -/
theorem IsNullableSet.replaceChainRules (hnames : g.IsNullableSet names)
    (hpairs : g.IsUnitPairSet pairs) : (g.replaceChainRules pairs).IsNullableSet names := by
  intro form
  rw [exists_yields_replaceChainRules_iff hpairs]
  exact hnames form

/-- Eliminating chain rules before the empty rules makes no difference to eliminating them after. -/
theorem replaceChainRules_absorbed (hpairs : g.IsUnitPairSet pairs) {late early : SortedSet Arc}
    (hlate : (g.replaceEmptyRules names).IsUnitPairSet late)
    (hearly : ((g.replaceChainRules pairs).replaceEmptyRules names).IsUnitPairSet early) :
    ((g.replaceChainRules pairs).replaceEmptyRules names).replaceChainRules early =
      (g.replaceEmptyRules names).replaceChainRules late := by
  refine eq_of_mem_rules (by simp) (by simp) fun r => ?_
  rw [mem_replaceChainRules_iff hearly, mem_replaceChainRules_iff hlate]
  refine and_congr_right fun hshape => ?_
  constructor
  · rintro ⟨v, n, hpath, hr⟩
    obtain ⟨hne, source, hs, hvariant⟩ := mem_replaceEmptyRules_iff.1 hr
    obtain ⟨-, x, k, htaken, hs⟩ := (mem_replaceChainRules_iff hpairs).1 hs
    -- Behind the variant is a rule that was taken over early, along a path that can be gone late as
    -- well.
    obtain ⟨m, hpath⟩ := hpath.of_replaceChainRules hpairs
    exact ⟨x, m + k, hpath.trans htaken.replaceEmptyRules,
      mem_replaceEmptyRules_iff.2 ⟨hne, source, hs, hvariant⟩⟩
  · rintro ⟨v, n, hpath, hr⟩
    obtain ⟨hne, source, hs, hvariant⟩ := mem_replaceEmptyRules_iff.1 hr
    -- The rule behind the variant is no chain rule, so it was not lost early.
    have hkept := mem_replaceChainRules_of_not_chain hpairs hs
      (not_isChain_of_mem_variants hne hshape hvariant)
    obtain ⟨x, m, hpath, hx⟩ := exists_chainPath_of_replaceChainRules hpairs hpath hkept
    exact ⟨x, m, hpath, mem_replaceEmptyRules_iff.2 ⟨hne, source, hx, hvariant⟩⟩

end Grammar

/-! ## Sequences of passes

What passes come after both eliminations is shown first, then what comes between them, and then what
comes before. In each case an induction on the passes takes the first of them off. -/

/-- One of the two passes. -/
inductive Elimination
  | emptyRules
  | chainRules
deriving DecidableEq

namespace Elimination

/-- Runs a pass with the names or pairs of the grammar itself, as a session does. -/
def run (g : Grammar) : Elimination → Logged Refusal Grammar
  | .emptyRules => g.eliminateNullableRules.mapError .closure
  | .chainRules => g.eliminateUnitRules.mapError .pairClosure

/-- Runs the passes one after another, each on the answer of the one before. -/
def runAll (passes : List Elimination) (g : Grammar) : Logged Refusal Grammar :=
  passes.foldlM run g

variable {g : Grammar} {names : SortedSet Name} {pairs : SortedSet Arc}

/-- Within a session the pass answers as it does alone. Only its complaints would read differently.
-/
theorem outcome_run_emptyRules (hnames : g.IsNullableSet names) :
    (run g .emptyRules).outcome = .ok (g.replaceEmptyRules names) := by
  unfold run Logged.mapError
  rw [Grammar.outcome_eliminateNullableRules hnames]
  rfl

theorem outcome_run_chainRules (hpairs : g.IsUnitPairSet pairs) :
    (run g .chainRules).outcome = .ok (g.replaceChainRules pairs) := by
  unfold run Logged.mapError
  rw [Grammar.outcome_eliminateUnitRules hpairs]
  rfl

/-- The first pass comes out with a grammar, and the others go on with it. -/
theorem outcome_runAll_cons {pass : Elimination} {next : Grammar}
    (h : (run g pass).outcome = .ok next) (passes : List Elimination) :
    (runAll (pass :: passes) g).outcome = (runAll passes next).outcome := by
  unfold runAll
  rw [List.foldlM_cons, Logged.outcome_bind_ok h]

/-- Where there are neither empty rules nor chain rules no pass finds anything to do. -/
theorem outcome_runAll_of_settled (hnonempty : ∀ r ∈ g.rules, r.body ≠ [])
    (hshape : ∀ r ∈ g.rules, r.isChain = false) (passes : List Elimination) :
    (runAll passes g).outcome = .ok g := by
  induction passes with
  | nil => rfl
  | cons pass passes ih =>
    have hrun : (run g pass).outcome = .ok g := by
      cases pass with
      | emptyRules =>
        obtain ⟨names, -, hnames⟩ := g.exists_computeNullable
        rw [outcome_run_emptyRules hnames, Grammar.replaceEmptyRules_eq_self hnonempty hnames]
      | chainRules =>
        obtain ⟨pairs, -, hpairs⟩ := g.exists_computeUnitPairs
        rw [outcome_run_chainRules hpairs, Grammar.replaceChainRules_eq_self hshape hpairs]
    rw [outcome_runAll_cons hrun, ih]

/-- Where there are no empty rules, the first elimination of chain rules is the only pass that does
anything. -/
theorem outcome_runAll_of_nonempty (hnonempty : ∀ r ∈ g.rules, r.body ≠ [])
    (hpairs : g.IsUnitPairSet pairs) (between after : List Elimination) :
    (runAll (between ++ .chainRules :: after) g).outcome = .ok (g.replaceChainRules pairs) := by
  have hfirst (passes : List Elimination) :
      (runAll (.chainRules :: passes) g).outcome = .ok (g.replaceChainRules pairs) := by
    rw [outcome_runAll_cons (outcome_run_chainRules hpairs)]
    exact outcome_runAll_of_settled (Grammar.body_ne_nil_of_mem_replaceChainRules hnonempty)
      (fun r hr => (Grammar.mem_replaceChainRules.1 hr).1) passes
  induction between with
  | nil => exact hfirst after
  | cons pass between ih =>
    cases pass with
    | emptyRules =>
      -- There is nothing to replace, so the pass answers with the grammar it was given.
      obtain ⟨names, -, hnames⟩ := g.exists_computeNullable
      have hrun := outcome_run_emptyRules hnames
      rw [Grammar.replaceEmptyRules_eq_self hnonempty hnames] at hrun
      rw [List.cons_append, outcome_runAll_cons hrun, ih]
    | chainRules => exact hfirst _

/-- The passes before an elimination of empty rules leave no trace once chain rules are eliminated
after it. -/
theorem outcome_runAll_append (hnames : g.IsNullableSet names)
    (hlate : (g.replaceEmptyRules names).IsUnitPairSet pairs)
    (before between after : List Elimination) :
    (runAll (before ++ .emptyRules :: (between ++ .chainRules :: after)) g).outcome =
      .ok ((g.replaceEmptyRules names).replaceChainRules pairs) := by
  have hnonempty {g : Grammar} : ∀ r ∈ (g.replaceEmptyRules names).rules, r.body ≠ [] :=
    fun r => Grammar.body_ne_nil_of_mem_replaceEmptyRules
  induction before generalizing g pairs with
  | nil =>
    rw [List.nil_append, outcome_runAll_cons (outcome_run_emptyRules hnames),
      outcome_runAll_of_nonempty hnonempty hlate]
  | cons pass before ih =>
    rw [List.cons_append]
    cases pass with
    | emptyRules =>
      -- What is left still contains the elimination of chain rules, behind one pass more.
      rw [outcome_runAll_cons (outcome_run_emptyRules hnames), ← List.cons_append,
        ← List.append_assoc, outcome_runAll_of_nonempty hnonempty hlate]
    | chainRules =>
      -- The grammar has changed, but its nullable names have not, and the change is absorbed.
      obtain ⟨arcs, -, harcs⟩ := g.exists_computeUnitPairs
      obtain ⟨early, -, hearly⟩ :=
        ((g.replaceChainRules arcs).replaceEmptyRules names).exists_computeUnitPairs
      rw [outcome_runAll_cons (outcome_run_chainRules harcs),
        ih (hnames.replaceChainRules harcs) hearly,
        Grammar.replaceChainRules_absorbed harcs hlate hearly]

/-- **Only one order of the passes matters.** Any sequence of passes in which empty rules are
eliminated at some point and chain rules at some later point answers with the grammar that these two
passes alone answer with: passes before, between and after them leave no trace. -/
theorem outcome_runAll_eq (g : Grammar) (before between after : List Elimination) :
    ∃ e h, g.eliminateNullableRules.outcome = .ok e ∧ e.eliminateUnitRules.outcome = .ok h ∧
      (runAll (before ++ .emptyRules :: (between ++ .chainRules :: after)) g).outcome = .ok h := by
  obtain ⟨names, -, hnames⟩ := g.exists_computeNullable
  obtain ⟨pairs, -, hpairs⟩ := (g.replaceEmptyRules names).exists_computeUnitPairs
  exact ⟨_, _, Grammar.outcome_eliminateNullableRules hnames,
    Grammar.outcome_eliminateUnitRules hpairs,
    outcome_runAll_append hnames hpairs before between after⟩

end Elimination

end ContextFree
