import ContextFree.Proofs.ChainRuleElimination
import ContextFree.Proofs.EmptyRuleElimination
import ContextFree.Proofs.QueueSearch

/-!
# ContextFree — deciding membership

Once both passes have run, a body is a single terminal or has at least two symbols. Weigh a form by
its symbols, and its terminals once more: a nonterminal weighs one and every body at least two, so
each step makes a form heavier. A word weighs twice its length, which bounds the steps that derive
it, and the search within that bound is a decision procedure for the original grammar.

Main statements: `StepsIn.add_weight_le` (no derivation is longer than the weight it adds) and
`eliminations_decide_membership`.
-/

namespace ContextFree

/-- The symbols of a form, with terminals counted twice. -/
def Form.weight (form : Form) : Nat :=
  form.length + Form.terminalCount form

theorem Form.weight_append (a b : Form) : weight (a ++ b) = weight a + weight b := by
  unfold weight
  rw [List.length_append, terminalCount_append]
  omega

/-- A word weighs twice its length, as all of its symbols are terminals. -/
theorem Word.weight_toForm (w : Word) : Form.weight w.toForm = 2 * w.length := by
  have hlength : w.toForm.length = w.length := List.length_map _
  unfold Form.weight
  rw [hlength, Word.terminalCount_toForm]
  omega

/-- The body is exactly one terminal or has at least two symbols. -/
def Rule.IsGrowing (r : Rule) : Prop :=
  (∃ v, r.body = [.terminal v]) ∨ 2 ≤ r.body.length

/-- The body of a growing rule weighs two or more, which is more than its head. -/
theorem Rule.IsGrowing.two_le_weight {r : Rule} (h : r.IsGrowing) : 2 ≤ Form.weight r.body := by
  rcases h with ⟨v, hbody⟩ | hlength
  · rw [hbody]
    exact Nat.le_refl 2
  · unfold Form.weight
    omega

/-- A rule that is neither empty nor a chain rule is growing. By the shapes that a body can have. -/
theorem Rule.isGrowing_of_not_chain {r : Rule} (hne : r.body ≠ []) (hshape : r.isChain = false) :
    r.IsGrowing := by
  -- A body of another shape is empty or a single nonterminal.
  match hbody : r.body with
  | [] => exact absurd hbody hne
  | [.terminal v] => exact .inl ⟨v, hbody⟩
  | [.nonterminal v] => exact absurd hbody (Rule.isChain_eq_false_iff.1 hshape v)
  | s :: t :: rest =>
    refine .inr ?_
    rw [hbody, List.length_cons, List.length_cons]
    omega

namespace Rewriting

variable {rules : List Rule}

/-! ## Derivations by growing rules

The weight goes up with each step and ends at twice the length of the word. It starts at one for a
nonterminal, so a derivation of a word has fewer steps than twice its length, and a search down to
that level is a decision. -/

/-- A step by a growing rule makes the form heavier, as its context weighs the same before and
after. -/
theorem Step.weight_lt (hgrow : ∀ r ∈ rules, r.IsGrowing) {a b : Form} (h : Step rules a b) :
    Form.weight a < Form.weight b := by
  obtain ⟨before, after, hr⟩ := h
  rename_i r
  have hbody := (hgrow r hr).two_le_weight
  have hhead : Form.weight (.nonterminal r.head :: after) = 1 + Form.weight after :=
    Form.weight_append [.nonterminal r.head] after
  rw [Form.weight_append, Form.weight_append, Form.weight_append, hhead]
  omega

/-- A derivation has no more steps than it adds weight. -/
theorem StepsIn.add_weight_le (hgrow : ∀ r ∈ rules, r.IsGrowing) {n : Nat} {a b : Form}
    (h : StepsIn rules n a b) : n + Form.weight a ≤ Form.weight b := by
  induction h with
  | zero => omega
  | succ first _ ih =>
    have hfirst := first.weight_lt hgrow
    omega

/-- A nonterminal derives a word in fewer steps than twice its length, so the search within that
bound misses nothing. -/
theorem derivesByQueue_iff_derives (hgrow : ∀ r ∈ rules, r.IsGrowing) {v : Name} {w : Word} :
    derivesByQueue rules [.nonterminal v] w.toForm (2 * w.length - 1) = true ↔
      Derives rules [.nonterminal v] w.toForm := by
  rw [derivesByQueue_iff]
  constructor
  · rintro ⟨n, -, hsteps⟩
    exact ⟨n, hsteps⟩
  · rintro ⟨n, hsteps⟩
    have hweight := hsteps.add_weight_le hgrow
    have hsource : Form.weight [.nonterminal v] = 1 := rfl
    rw [Word.weight_toForm, hsource] at hweight
    exact ⟨n, by omega, hsteps⟩

end Rewriting

namespace Grammar

open Rewriting

variable {g : Grammar} {pairs : SortedSet Arc}

/-- The elimination of chain rules leaves growing rules if there was no empty rule. -/
theorem isGrowing_of_mem_replaceChainRules (hnonempty : ∀ r ∈ g.rules, r.body ≠ []) :
    ∀ r ∈ (g.replaceChainRules pairs).rules, r.IsGrowing := by
  intro r hr
  have hne := body_ne_nil_of_mem_replaceChainRules hnonempty r hr
  exact Rule.isGrowing_of_not_chain hne (mem_replaceChainRules.1 hr).1

/-- **After both passes the bounded search decides membership.** The passes answer with growing
rules only, and whatever order they are tried in, a word that is not empty is found in fewer steps
than twice its length just if the original grammar generates it. -/
theorem eliminations_decide_membership (g : Grammar) :
    ∃ e h, g.eliminateNullableRules.outcome = .ok e ∧ e.eliminateUnitRules.outcome = .ok h ∧
      (∀ r ∈ h.rules, r.IsGrowing) ∧
      ∀ rules : List Rule, (∀ r, r ∈ rules ↔ r ∈ h.rules) → ∀ (v : Name) (w : Word), w ≠ [] →
        (derivesByQueue rules [.nonterminal v] w.toForm (2 * w.length - 1) = true ↔
          g.Generates v w) := by
  obtain ⟨names, -, hnames⟩ := g.exists_computeNullable
  obtain ⟨pairs, -, hpairs⟩ := (g.replaceEmptyRules names).exists_computeUnitPairs
  have hgrow : ∀ r ∈ ((g.replaceEmptyRules names).replaceChainRules pairs).rules, r.IsGrowing :=
    isGrowing_of_mem_replaceChainRules fun r => body_ne_nil_of_mem_replaceEmptyRules
  refine ⟨_, _, outcome_eliminateNullableRules hnames, outcome_eliminateUnitRules hpairs, hgrow, ?_⟩
  intro rules hrules v w hne
  -- From the search to derivations, and from these back through both passes.
  rw [derivesByQueue_iff_derives fun r hr => hgrow r ((hrules r).1 hr),
    derives_iff_generates hrules, generates_replaceChainRules hpairs,
    generates_replaceEmptyRules hnames]
  exact and_iff_right hne

/-- Two names that are renamed into each other. The first stands for a letter, or for another letter
with the second name behind it and a name for nothing in between. -/
def chainLoop : Grammar where
  nonterminals := ∅
  goal := .text "A"
  rules := .ofList [⟨.text "A", [.nonterminal (.text "B")]⟩,
    ⟨.text "B", [.nonterminal (.text "A")]⟩,
    ⟨.text "A", [.terminal (.text "a"), .nonterminal (.text "C"), .nonterminal (.text "B")]⟩,
    ⟨.text "A", [.terminal (.text "b")]⟩, ⟨.text "C", []⟩]

/-- A name with the long rule puts a letter in front of what the second name yields, and two rules
are used for it: the long one, and the one for nothing. -/
theorem yields_letter_cons {rules : List Rule} {v : Name}
    (hletter : ⟨v, [.terminal (.text "a"), .nonterminal (.text "C"), .nonterminal (.text "B")]⟩ ∈
      rules)
    (hnothing : ⟨.text "C", []⟩ ∈ rules) {n : Nat} {w : Word}
    (h : Yields rules n [.nonterminal (.text "B")] w) :
    Yields rules (n + 2) [.nonterminal v] (.text "a" :: w) := by
  have hrest : Yields rules (0 + n + 1) [.nonterminal (.text "C"), .nonterminal (.text "B")] w :=
    .nonterminal (u := []) hnothing .nil h
  rw [Nat.zero_add] at hrest
  exact yields_singleton_iff.2 ⟨n + 1, _, hletter, .terminal _ hrest, rfl⟩

/-- The second name yields the last letter with any number of others in front, by three rules for
each of these. -/
theorem chainLoop_yields (k : Nat) :
    Yields chainLoop.rules.toList (3 * k + 2) [.nonterminal (.text "B")]
      (List.replicate k (.text "a") ++ [.text "b"]) := by
  have hrename : ⟨.text "B", [.nonterminal (.text "A")]⟩ ∈ chainLoop.rules.toList :=
    SortedSet.mem_toList.2 (by simp [chainLoop])
  induction k with
  | zero =>
    have hlast : ⟨.text "A", [.terminal (.text "b")]⟩ ∈ chainLoop.rules.toList :=
      SortedSet.mem_toList.2 (by simp [chainLoop])
    have hfirst := yields_singleton_iff.2 ⟨0, _, hlast, .terminal _ .nil, rfl⟩
    exact yields_singleton_iff.2 ⟨1, _, hrename, hfirst, rfl⟩
  | succ k ih =>
    have hfirst := yields_letter_cons (v := .text "A")
      (SortedSet.mem_toList.2 (by simp [chainLoop]))
      (SortedSet.mem_toList.2 (by simp [chainLoop])) ih
    exact yields_singleton_iff.2 ⟨_, _, hrename, hfirst, rfl⟩

/-- The second name derives a word of three letters in eight steps, and in five at the most after
both passes. -/
theorem chainLoop_decided :
    ∃ e h, chainLoop.eliminateNullableRules.outcome = .ok e ∧
      e.eliminateUnitRules.outcome = .ok h ∧
      derivesByQueue h.rules.toList [.nonterminal (.text "B")]
        (Word.toForm [.text "a", .text "a", .text "b"]) 5 = true := by
  obtain ⟨e, h, he, hh, -, hdecides⟩ := eliminations_decide_membership chainLoop
  have hword : [Name.text "a", .text "a", .text "b"] ≠ [] := List.cons_ne_nil _ _
  have hdecided := hdecides h.rules.toList (fun r => SortedSet.mem_toList) (.text "B") _ hword
  exact ⟨e, h, he, hh, hdecided.2 ⟨8, (chainLoop_yields 2).stepsIn⟩⟩

end Grammar

end ContextFree
