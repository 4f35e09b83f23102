import ContextFree.Proofs.Search
import ContextFree.Proofs.Yield
import ContextFree.Rewriting.Queue

/-!
# ContextFree — the search with a queue is exact

The queue holds the rest of one level and behind it what has joined of the next, and whatever has
joined counts as seen. So when a level has been followed up, the queue holds the next level, and a
form waits on the first level that it is reached on: the limit on the steps never cuts off a shorter
way to it. Turn by turn the queue does what the search by levels does at once, and both find exactly
the derivations that fit into the limit.

Main statements: `exists_searchQueue_level` (a level followed up, by induction on its forms),
`searchQueue_eq_searchFrom` (both searches agree, by induction on the levels),
`derivesByQueue_iff`, with `Grammar.derivesByQueue_toForm_iff` for words,
`derivesByQueue_append_iff` (a search of a concatenation comes apart) and
`Grammar.bounded_search_finds_derivations`. The order of the rules decides in which order forms
join, and makes no difference to the answer.
-/

namespace ContextFree

namespace Rewriting

variable {rules : List Rule} {target : Form} {seen : SortedSet Form} {left : Nat}

/-! ## One level

A level is a list of forms that all have as many steps left. Behind it in the queue stand forms of
the next level. While the level is followed up the next one grows at the end of the queue, and the
forms that stand there already are not looked at. -/

/-- A target on the level is met, whatever has joined behind the level. -/
theorem searchQueue_of_mem_append {forms : List Form} (h : target ∈ forms)
    (later : List (Form × Nat)) :
    searchQueue rules target seen (forms.map (·, left) ++ later) = true := by
  induction forms generalizing seen later with
  | nil => exact absurd h List.not_mem_nil
  | cons form rest ih =>
    rw [List.map_cons, List.cons_append]
    by_cases hform : form = target
    · exact searchQueue_of_found hform
    have hrest : target ∈ rest := (List.mem_cons.1 h).resolve_left (Ne.symm hform)
    -- Whether the form is followed up or not, the rest of the level stays in front.
    cases left with
    | zero =>
      rw [searchQueue_of_used_up hform]
      exact ih hrest later
    | succ left =>
      rw [searchQueue_of_followed hform, List.append_assoc]
      exact ih hrest _

/-- On the last level the forms are looked at and nothing joins. -/
theorem searchQueue_of_last_level {forms : List Form} (h : target ∉ forms) :
    searchQueue rules target seen (forms.map (·, 0)) = false := by
  induction forms with
  | nil => exact searchQueue_nil
  | cons form rest ih =>
    obtain ⟨hform, hrest⟩ := not_or.1 (mt List.mem_cons.2 h)
    rw [List.map_cons, searchQueue_of_used_up (Ne.symm hform)]
    exact ih hrest

/-- When a level without the target has been followed up, the queue holds what had joined before and
what one step leads to, as far as it was not seen and may lead to the target. -/
theorem exists_searchQueue_level (rules : List Rule) (left : Nat) {forms joined : List Form}
    (h : target ∉ forms) (hjoined : ∀ a ∈ joined, a ∈ seen) :
    ∃ next : List Form,
      (∀ b, b ∈ next ↔ b ∈ joined ∨ (∃ a ∈ forms, Step rules a b) ∧
        Form.terminalCount b ≤ Form.terminalCount target ∧ b ∉ seen) ∧
      searchQueue rules target seen (forms.map (·, left + 1) ++ joined.map (·, left)) =
        searchQueue rules target (seen ∪ .ofList next) (next.map (·, left)) := by
  induction forms generalizing seen joined with
  | nil =>
    have hseen : seen ∪ .ofList joined = seen := by
      apply SortedSet.ext_mem
      intro a
      rw [SortedSet.mem_union, SortedSet.mem_ofList]
      exact or_iff_left_of_imp (hjoined a)
    exact ⟨joined, fun b => by simp, by rw [hseen]; rfl⟩
  | cons form rest ih =>
    obtain ⟨hform, hrest⟩ := not_or.1 (mt List.mem_cons.2 h)
    -- The forms that join now stand behind those that had joined, and are seen from now on.
    generalize hnew : newcomers (Form.terminalCount target) seen (rewrite rules form) = new
    have hmem : ∀ b, b ∈ new ↔
        Step rules form b ∧ Form.terminalCount b ≤ Form.terminalCount target ∧ b ∉ seen := by
      intro b
      rw [← hnew, mem_newcomers, mem_rewrite]
    have hjoined' : ∀ a ∈ joined ++ new, a ∈ seen ∪ .ofList new := by
      intro a ha
      rw [SortedSet.mem_union, SortedSet.mem_ofList]
      exact (List.mem_append.1 ha).imp_left (hjoined a)
    obtain ⟨next, hnext, hsearch⟩ := ih hrest hjoined'
    simp only [List.mem_append, SortedSet.mem_union, SortedSet.mem_ofList, hmem] at hnext
    refine ⟨next, fun b => ?_, ?_⟩
    · rw [hnext]
      grind
    · have hseen : seen ∪ .ofList new ∪ .ofList next = seen ∪ .ofList next := by
        apply SortedSet.ext_mem
        intro b
        simp only [SortedSet.mem_union, SortedSet.mem_ofList, hmem, hnext]
        grind
      rw [List.map_cons, List.cons_append, searchQueue_of_followed (Ne.symm hform), hnew,
        List.append_assoc, ← List.map_append, hsearch, hseen]

/-! ## All levels

When a level has been followed up, what is in the queue is one level again, and as a set it is the
next level of the search by levels. So both searches go the same way. -/

/-- A target on the level is met by both searches. -/
theorem searchQueue_eq_searchFrom_of_mem {forms : List Form} (h : target ∈ forms) :
    searchQueue rules target seen (forms.map (·, left)) =
      decide (searchFrom rules target left seen (.ofList forms) = .found) := by
  have hfound : searchFrom rules target left seen (.ofList forms) = .found :=
    searchFrom_of_mem (SortedSet.mem_ofList.2 h)
  rw [decide_eq_true hfound, ← List.append_nil (forms.map _)]
  exact searchQueue_of_mem_append h []

/-- From any level on the queue finds what the search by levels finds. -/
theorem searchQueue_eq_searchFrom (rules : List Rule) (target : Form) (seen : SortedSet Form)
    (left : Nat) (forms : List Form) :
    searchQueue rules target seen (forms.map (·, left)) =
      decide (searchFrom rules target left seen (.ofList forms) = .found) := by
  induction left generalizing seen forms with
  | zero =>
    by_cases htarget : target ∈ forms
    · exact searchQueue_eq_searchFrom_of_mem htarget
    rw [searchQueue_of_last_level htarget, searchFrom,
      if_neg (mt SortedSet.mem_ofList.1 htarget)]
    split <;> rfl
  | succ left ih =>
    by_cases htarget : target ∈ forms
    · exact searchQueue_eq_searchFrom_of_mem htarget
    have hnone : ∀ a ∈ ([] : List Form), a ∈ seen := fun a ha => absurd ha List.not_mem_nil
    obtain ⟨next, hnext, hsearch⟩ := exists_searchQueue_level rules left htarget hnone
    -- What is in the queue now are the forms of the next level.
    have hlevel : .ofList next =
        nextFrontier rules (Form.terminalCount target) seen (.ofList forms) := by
      apply SortedSet.ext_mem
      intro b
      rw [SortedSet.mem_ofList, hnext, mem_nextFrontier, or_iff_right List.not_mem_nil]
      simp only [SortedSet.mem_ofList]
    rw [List.map_nil, List.append_nil] at hsearch
    rw [hsearch, ih, hlevel]
    simp only [found_succ_iff (mt SortedSet.mem_ofList.1 htarget)]

/-- The search with a queue answers what the search by levels does. -/
theorem derivesByQueue_eq (rules : List Rule) (source target : Form) (steps : Nat) :
    derivesByQueue rules source target steps = derivesWithin rules source target steps := by
  have hsearch := searchQueue_eq_searchFrom rules target {source} steps [source]
  rw [SortedSet.ofList_singleton] at hsearch
  exact hsearch

/-- The search with a queue finds the target just if it is derived in so many steps or fewer. -/
theorem derivesByQueue_iff {source : Form} {steps : Nat} :
    derivesByQueue rules source target steps = true ↔
      ∃ n ≤ steps, StepsIn rules n source target := by
  rw [derivesByQueue_eq, derivesWithin_iff]

/-! ## Parts of a form

That the search is exact makes it a question about derivations, and these come apart along a form.
About the queue itself nothing of the kind could be said: the search of a part looks at other forms
than the search of the whole. -/

/-- **Searches come apart along a form.** With the rules in any order a concatenation leads to the
target within a limit just if the target and the limit can be split so that each part leads to its
part of the target within its part of the limit. Each of the three searches leaves out what holds
too many terminals for its own target, and none of them loses anything by it. -/
theorem derivesByQueue_append_iff (rules : List Rule) (left right target : Form) (steps : Nat) :
    derivesByQueue rules (left ++ right) target steps = true ↔
      ∃ target₁ target₂ i j, target = target₁ ++ target₂ ∧ steps = i + j ∧
        derivesByQueue rules left target₁ i = true ∧
        derivesByQueue rules right target₂ j = true := by
  simp only [derivesByQueue_iff]
  constructor
  · rintro ⟨n, hn, hsteps⟩
    obtain ⟨i, j, target₁, target₂, hleft, hright, rfl, rfl⟩ := stepsIn_append_iff.1 hsteps
    -- Steps that are left over go to the right part.
    exact ⟨target₁, target₂, i, steps - i, rfl, by omega, ⟨i, Nat.le_refl i, hleft⟩,
      ⟨j, by omega, hright⟩⟩
  · rintro ⟨target₁, target₂, i, j, rfl, rfl, ⟨m, hm, hleft⟩, ⟨n, hn, hright⟩⟩
    exact ⟨m + n, Nat.add_le_add hm hn, hleft.append hright⟩

end Rewriting

namespace Grammar

open Rewriting

/-- The search finds a word just if the form yields it with no more rules than steps. -/
theorem derivesByQueue_toForm_iff {g : Grammar} {rules : List Rule}
    (hrules : ∀ r, r ∈ rules ↔ r ∈ g.rules) {form : Form} {w : Word} {steps : Nat} :
    derivesByQueue rules form w.toForm steps = true ↔
      ∃ n ≤ steps, Yields g.rules.toList n form w := by
  rw [derivesByQueue_iff]
  simp only [stepsIn_toList_iff hrules, stepsIn_toForm_iff]

/-- **The bounded search is exact.** With the rules in any order the search with a queue answers yes
just if a derivation of no more steps leads from the source to the target, and the search by levels
gives the same answer. -/
theorem bounded_search_finds_derivations (g : Grammar) (rules : List Rule)
    (hrules : ∀ r, r ∈ rules ↔ r ∈ g.rules) (source target : Form) (steps levels : Nat) :
    (derivesByQueue rules source target steps = true ↔
        ∃ n ≤ steps, StepsIn g.rules.toList n source target) ∧
      derives? rules source target steps levels =
        some (derivesByQueue rules source target steps) := by
  rw [derivesByQueue_eq, derivesWithin_iff]
  refine ⟨?_, rfl⟩
  exact exists_congr fun n => and_congr_right fun _ => stepsIn_toList_iff hrules

/-- A name for two letters, each of which may be left out. -/
def optionalPairRules : List Rule :=
  [⟨.text "S", [.nonterminal (.text "A"), .nonterminal (.text "A")]⟩, ⟨.text "A", []⟩,
    ⟨.text "A", [.terminal (.text "a")]⟩]

def optionalPair : Grammar where
  nonterminals := ∅
  goal := .text "S"
  rules := .ofList optionalPairRules

/-- A form with symbols of both kinds is two steps away from the goal, and not one. -/
theorem optionalPair_searched :
    (∀ r, r ∈ optionalPairRules.reverse ↔ r ∈ optionalPair.rules) ∧
      derivesByQueue optionalPairRules.reverse [.nonterminal (.text "S")]
        [.terminal (.text "a"), .nonterminal (.text "A")] 2 = true ∧
      derivesByQueue optionalPairRules.reverse [.nonterminal (.text "S")]
        [.terminal (.text "a"), .nonterminal (.text "A")] 1 = false := by
  have hrules : ∀ r, r ∈ optionalPairRules.reverse ↔ r ∈ optionalPair.rules :=
    fun r => List.mem_reverse.trans SortedSet.mem_ofList.symm
  have hlisted : ∀ r, r ∈ optionalPairRules ↔ r ∈ optionalPair.rules :=
    fun r => SortedSet.mem_ofList.symm
  have hsearch := fun steps => (bounded_search_finds_derivations optionalPair _ hrules
    [.nonterminal (.text "S")] [.terminal (.text "a"), .nonterminal (.text "A")] steps 0).1
  refine ⟨hrules, ?_, ?_⟩
  · have hfirst : Step optionalPairRules [.nonterminal (.text "S")]
        [.nonterminal (.text "A"), .nonterminal (.text "A")] := Step.of_rule (by decide)
    have hletter : Step optionalPairRules [.nonterminal (.text "A")] [.terminal (.text "a")] :=
      Step.of_rule (by decide)
    have hsteps := StepsIn.succ hfirst
      (.succ (hletter.append_right [.nonterminal (.text "A")]) (.zero _))
    exact (hsearch 2).2 ⟨2, Nat.le_refl 2, (stepsIn_toList_iff hlisted).1 hsteps⟩
  · rw [Bool.eq_false_iff, ne_eq, hsearch]
    rintro ⟨n, hn, hsteps⟩
    rw [← stepsIn_toList_iff hlisted] at hsteps
    cases hsteps with
    | succ first rest =>
      cases rest with
      | zero => exact absurd (mem_rewrite.2 first) (by decide)
      | succ => omega

end Grammar

end ContextFree
