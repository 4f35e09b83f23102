import ContextFree.Grammar.Basic
import ContextFree.Proofs.Derivation

/-!
# ContextFree — rewriting one occurrence at a time

What a form is rewritten to is listed once for every occurrence of a nonterminal and every rule that
it heads, so a result can be listed several times. An occurrence lies in one part of a
concatenation, and the other part is copied. So the list for the whole is made of the lists for the
parts, whatever positions the occurrences have in it, and with each result as often as it was there.

The order of the rules is left open and may be another one each time; it decides only in which order
the results are listed.

Main statements: `rewrite_perm` (rules in another order list the same results as often, by induction
on the form), `stepsIn_stages` (the stages of a chain of rewrites derive each other) and
`Grammar.rewriting_keeps_context_and_terminals`.
-/

namespace ContextFree

namespace Rewriting

variable {rules rules' : List Rule}

/-! ## Rules in another order

For each occurrence the results come in the order of the rules, and the occurrences follow each
other from left to right. So another order of the rules moves results only within the part of an
occurrence. -/

/-- What a symbol can be replaced by is listed in the order of the rules. -/
theorem replacements_perm (h : rules.Perm rules') (s : Symbol) :
    (replacements rules s).Perm (replacements rules' s) := by
  cases s with
  | terminal v => exact List.Perm.refl _
  | nonterminal v => exact (h.filter _).map Rule.body

/-- The order of the rules makes no difference to which results are listed and how often. -/
theorem rewrite_perm (h : rules.Perm rules') (form : Form) :
    (rewrite rules form).Perm (rewrite rules' form) := by
  induction form with
  | nil => exact List.Perm.refl _
  | cons s rest ih =>
    rw [rewrite, rewrite]
    exact ((replacements_perm h s).map _).append (ih.map _)

/-! ## Chains of rewrites

The stages are given by a function of their number, as it is only asked which of two stages is
later. -/

/-- Of a chain of rewrites each stage derives the later ones, in as many steps as they are later. -/
theorem stepsIn_stages {stages : Nat → Form} {n : Nat}
    (h : ∀ k < n, Step rules (stages k) (stages (k + 1))) (i d : Nat) (hlast : i + d ≤ n) :
    StepsIn rules d (stages i) (stages (i + d)) := by
  induction d with
  | zero => exact .zero _
  | succ d ih =>
    have hearlier : StepsIn rules d (stages i) (stages (i + d)) := ih (by omega)
    have hlater : Step rules (stages (i + d)) (stages (i + d + 1)) := h (i + d) (by omega)
    exact hearlier.trans (.succ hlater (.zero _))

end Rewriting

namespace Grammar

open Rewriting

/-- **Rewriting leaves the context and the terminals as they are.** The rules may be listed in
another order each time. A concatenation is rewritten to its left part rewritten with the right part
behind it, and to its right part rewritten with the left part in front, each result as often as it
is listed for the part; and cutting the whole form at its positions lists what rewriting from the
left does. Along a chain of rewrites the terminals of a stage stay in their order at every later
stage, so there are never fewer of them. -/
theorem rewriting_keeps_context_and_terminals (g : Grammar) {whole left right : List Rule}
    (hlisted : ∀ rules ∈ [whole, left, right], rules.Perm g.rules.toList) :
    (∀ form, (rewriteByPosition whole form).Perm (rewrite g.rules.toList form)) ∧
    (∀ x y : Form, (rewriteByPosition whole (x ++ y)).Perm
      ((rewriteByPosition left x).map (· ++ y) ++ (rewriteByPosition right y).map (x ++ ·))) ∧
    ∀ (n : Nat) (stages : Nat → Form),
      (∀ k < n, stages (k + 1) ∈ rewriteByPosition whole (stages k)) →
      ∀ i j, i ≤ j → j ≤ n → (Form.terminals (stages i)).Sublist (Form.terminals (stages j)) ∧
        Form.terminalCount (stages i) ≤ Form.terminalCount (stages j) := by
  obtain ⟨hwhole, hleft, hright⟩ : whole.Perm g.rules.toList ∧ left.Perm g.rules.toList ∧
      right.Perm g.rules.toList := by simpa using hlisted
  simp only [rewriteByPosition_eq]
  refine ⟨rewrite_perm hwhole, fun x y => ?_, fun n stages hchain i j hij hj => ?_⟩
  · -- Each part may list the rules in an order of its own.
    rw [rewrite_append]
    have hx := rewrite_perm (hwhole.trans hleft.symm) x
    have hy := rewrite_perm (hwhole.trans hright.symm) y
    exact (hx.map _).append (hy.map _)
  · obtain ⟨d, rfl⟩ := Nat.exists_eq_add_of_le hij
    have hsteps : StepsIn whole d (stages i) (stages (i + d)) :=
      stepsIn_stages (fun k hk => mem_rewrite.1 (hchain k hk)) i d hj
    exact ⟨hsteps.terminals_sublist, hsteps.terminalCount_le⟩

/-- A name that takes a letter behind it or goes away. -/
def fadingRules : List Rule :=
  [⟨.text "A", []⟩, ⟨.text "A", [.nonterminal (.text "A"), .terminal (.text "a")]⟩]

def fading : Grammar where
  nonterminals := ∅
  goal := .text "A"
  rules := .ofList fadingRules

/-- A letter between two names, a letter more, and then one name less. -/
def fadingStages : Nat → Form
  | 0 => [.nonterminal (.text "A"), .terminal (.text "b"), .nonterminal (.text "A")]
  | 1 => [.nonterminal (.text "A"), .terminal (.text "b"), .nonterminal (.text "A"),
      .terminal (.text "a")]
  | _ => [.terminal (.text "b"), .nonterminal (.text "A"), .terminal (.text "a")]

/-- Two of the names become one in two ways, since either may go away; and the letter between them
is there at the end. -/
theorem fading_rewritten :
    (∀ rules ∈ [fadingRules.reverse, fadingRules, fadingRules], rules.Perm fading.rules.toList) ∧
      (rewriteByPosition fadingRules.reverse
          ([.nonterminal (.text "A")] ++ [.nonterminal (.text "A")])).Perm
        ((rewriteByPosition fadingRules [.nonterminal (.text "A")]).map
            (· ++ [.nonterminal (.text "A")]) ++
          (rewriteByPosition fadingRules [.nonterminal (.text "A")]).map
            ([.nonterminal (.text "A")] ++ ·)) ∧
      (rewriteByPosition fadingRules.reverse
        [.nonterminal (.text "A"), .nonterminal (.text "A")]).count [.nonterminal (.text "A")] = 2 ∧
      (∀ k < 2, fadingStages (k + 1) ∈ rewriteByPosition fadingRules.reverse (fadingStages k)) ∧
      List.Sublist [.text "b"] (Form.terminals (fadingStages 2)) := by
  have hperm : fadingRules.Perm fading.rules.toList := by
    refine (List.perm_ext_iff_of_nodup (by decide) (SortedSet.nodup_toList _)).2 fun r => ?_
    rw [SortedSet.mem_toList]
    exact SortedSet.mem_ofList.symm
  have hreversed : fadingRules.reverse.Perm fading.rules.toList :=
    (List.reverse_perm fadingRules).trans hperm
  have hlisted : ∀ rules ∈ [fadingRules.reverse, fadingRules, fadingRules],
      rules.Perm fading.rules.toList := by
    simp [hperm, hreversed]
  have hchain : ∀ k < 2,
      fadingStages (k + 1) ∈ rewriteByPosition fadingRules.reverse (fadingStages k) := by
    decide
  obtain ⟨-, hparts, hterminals⟩ := rewriting_keeps_context_and_terminals fading hlisted
  exact ⟨hlisted, hparts _ _, by decide, hchain,
    (hterminals 2 fadingStages hchain 0 2 (by decide) (by decide)).1⟩

end Grammar

end ContextFree
