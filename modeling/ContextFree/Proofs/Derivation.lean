import ContextFree.Rewriting.Step

/-!
# ContextFree — derivations put together

Derivations can be run one after the other and inside a context, so what the parts of a form derive
the whole form derives. A step of a concatenation is a step of one of its two parts, and no step
takes a terminal away.

Main statements: `StepsIn.trans` and `StepsIn.append` (steps are counted exactly when derivations
are put together), `Step.append_cases` (a step happens in one part) and `stepsIn_append_iff` (so
derivations come apart again, by induction on the steps), `stepsIn_congr` (the order of the rules
does not matter) and `StepsIn.terminals_sublist` (terminals stay, by induction on the steps).
-/

namespace ContextFree

namespace Rewriting

variable {rules : List Rule}

/-! ## Steps in a context

A step replaces one occurrence, and what stands to its left and right is the context. Contexts can
be made larger, and a step in a concatenation has its occurrence in one of the two parts. Both are
read off from the list of what a form becomes (`rewrite_append`). -/

/-- What a concatenation becomes in one step, listed for its left part first. Induction on the left
part. -/
theorem rewrite_append (rules : List Rule) (a b : Form) :
    rewrite rules (a ++ b) = (rewrite rules a).map (· ++ b) ++ (rewrite rules b).map (a ++ ·) := by
  induction a with
  | nil => simp [rewrite]
  | cons s a ih => simp [rewrite, ih, Function.comp_def]

/-- A step of a concatenation happens in one of its parts. -/
theorem Step.append_cases {a b c : Form} (h : Step rules (a ++ b) c) :
    (∃ a', Step rules a a' ∧ c = a' ++ b) ∨ ∃ b', Step rules b b' ∧ c = a ++ b' := by
  rw [← mem_rewrite, rewrite_append, List.mem_append, List.mem_map, List.mem_map] at h
  rcases h with ⟨a', ha, rfl⟩ | ⟨b', hb, rfl⟩
  · exact .inl ⟨a', mem_rewrite.1 ha, rfl⟩
  · exact .inr ⟨b', mem_rewrite.1 hb, rfl⟩

/-- A step may be made with more symbols behind it. -/
theorem Step.append_right {a a' : Form} (h : Step rules a a') (b : Form) :
    Step rules (a ++ b) (a' ++ b) := by
  rw [← mem_rewrite, rewrite_append, List.mem_append, List.mem_map]
  exact .inl ⟨a', mem_rewrite.2 h, rfl⟩

theorem Step.append_left {b b' : Form} (a : Form) (h : Step rules b b') :
    Step rules (a ++ b) (a ++ b') := by
  rw [← mem_rewrite, rewrite_append, List.mem_append, List.mem_map, List.mem_map]
  exact .inr ⟨b', mem_rewrite.2 h, rfl⟩

/-- A rule makes a step from its head alone. -/
theorem Step.of_rule {v : Name} {body : Form} (h : ⟨v, body⟩ ∈ rules) :
    Step rules [.nonterminal v] body := by
  have hstep := Step.replace [] [] h
  rwa [List.nil_append, List.nil_append, List.append_nil] at hstep

/-- A nonterminal alone becomes the body of a rule that it heads. -/
theorem step_singleton_iff {v : Name} {form : Form} :
    Step rules [.nonterminal v] form ↔ ⟨v, form⟩ ∈ rules := by
  rw [← mem_rewrite]
  simp [rewrite, replacements, mem_bodiesFor]

/-! ## Counted steps

The number of steps is kept exactly, and not only as a bound, since the searches and the passes are
compared by it. -/

/-- One derivation after the other, with their steps added up. Induction on the first. -/
theorem StepsIn.trans {m n : Nat} {a b c : Form} (hab : StepsIn rules m a b)
    (hbc : StepsIn rules n b c) : StepsIn rules (m + n) a c := by
  induction hab with
  | zero => rwa [Nat.zero_add]
  | @succ m a b' b first _ ih =>
    rw [show m + 1 + n = m + n + 1 from by omega]
    exact .succ first (ih hbc)

/-- A whole derivation may be made with more symbols behind it. -/
theorem StepsIn.append_right {n : Nat} {a a' : Form} (h : StepsIn rules n a a') (b : Form) :
    StepsIn rules n (a ++ b) (a' ++ b) := by
  induction h with
  | zero a => exact .zero _
  | succ first _ ih => exact .succ (first.append_right b) ih

theorem StepsIn.append_left {n : Nat} {b b' : Form} (a : Form) (h : StepsIn rules n b b') :
    StepsIn rules n (a ++ b) (a ++ b') := by
  induction h with
  | zero b => exact .zero _
  | succ first _ ih => exact .succ (first.append_left a) ih

/-- Two derivations side by side: first the left one in front of the right source, then the right
one behind the left target. -/
theorem StepsIn.append {m n : Nat} {a a' b b' : Form} (ha : StepsIn rules m a a')
    (hb : StepsIn rules n b b') : StepsIn rules (m + n) (a ++ b) (a' ++ b') :=
  (ha.append_right b).trans (hb.append_left a')

/-- A derivation of a concatenation interleaves a derivation of each part, and each step belongs to
one of the two. -/
theorem stepsIn_append_iff {n : Nat} {a b c : Form} :
    StepsIn rules n (a ++ b) c ↔ ∃ i j a' b', StepsIn rules i a a' ∧ StepsIn rules j b b' ∧
      n = i + j ∧ c = a' ++ b' := by
  constructor
  · intro h
    generalize hsource : a ++ b = source at h
    induction h generalizing a b with
    | zero => exact ⟨0, 0, a, b, .zero a, .zero b, rfl, hsource.symm⟩
    | succ first _ ih =>
      subst hsource
      -- The first step belongs to one part, and stands in front of what is left of its derivation.
      rcases first.append_cases with ⟨d, hd, rfl⟩ | ⟨d, hd, rfl⟩
      · obtain ⟨i, j, a', b', ha, hb, rfl, rfl⟩ := ih rfl
        exact ⟨i + 1, j, a', b', .succ hd ha, hb, by omega, rfl⟩
      · obtain ⟨i, j, a', b', ha, hb, rfl, rfl⟩ := ih rfl
        exact ⟨i, j + 1, a', b', ha, .succ hd hb, by omega, rfl⟩
  · rintro ⟨i, j, a', b', ha, hb, rfl, rfl⟩
    exact ha.append hb

/-! ## More rules, and rules in another order

A derivation uses rules one by one and asks only whether they are there. So it is still a derivation
with more rules, and the order of the rules cannot matter. -/

theorem Step.mono {rules' : List Rule} (hsub : ∀ r ∈ rules, r ∈ rules') {a b : Form}
    (h : Step rules a b) : Step rules' a b := by
  obtain ⟨before, after, hr⟩ := h
  exact .replace before after (hsub _ hr)

/-- With more rules there are no fewer derivations, of the same number of steps. -/
theorem StepsIn.mono {rules' : List Rule} (hsub : ∀ r ∈ rules, r ∈ rules') {n : Nat} {a b : Form}
    (h : StepsIn rules n a b) : StepsIn rules' n a b := by
  induction h with
  | zero => exact .zero _
  | succ first _ ih => exact .succ (first.mono hsub) ih

/-- Which derivations there are depends on which rules there are, and not on their order. -/
theorem stepsIn_congr {rules' : List Rule} (hrules : ∀ r, r ∈ rules ↔ r ∈ rules') {n : Nat}
    {a b : Form} : StepsIn rules n a b ↔ StepsIn rules' n a b :=
  ⟨.mono fun r => (hrules r).1, .mono fun r => (hrules r).2⟩

/-! ## Terminals stay

No rule is headed by a terminal, so a step has nothing to replace a terminal by. This is what allows
the searches to leave out forms with too many terminals. -/

/-- A step takes no terminal away and keeps the order of those that are there. -/
theorem Step.terminals_sublist {a b : Form} (h : Step rules a b) :
    (Form.terminals a).Sublist (Form.terminals b) := by
  obtain ⟨before, after, hr⟩ := h
  rw [Form.terminals_append, Form.terminals_append, Form.terminals_append,
    Form.terminals_cons_nonterminal]
  exact (List.sublist_append_left _ _).append (List.Sublist.refl _)

/-- Terminals are never rewritten, so those of the source stay in their order, whatever a derivation
adds between them. -/
theorem StepsIn.terminals_sublist {n : Nat} {a b : Form} (h : StepsIn rules n a b) :
    (Form.terminals a).Sublist (Form.terminals b) := by
  induction h with
  | zero => exact List.Sublist.refl _
  | succ first _ ih => exact first.terminals_sublist.trans ih

/-- A derivation never has fewer terminals than its source. -/
theorem StepsIn.terminalCount_le {n : Nat} {a b : Form} (h : StepsIn rules n a b) :
    Form.terminalCount a ≤ Form.terminalCount b := by
  rw [← Form.length_terminals, ← Form.length_terminals]
  exact h.terminals_sublist.length_le

end Rewriting

end ContextFree
