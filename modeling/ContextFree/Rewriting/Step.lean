import ContextFree.Rule

/-!
# ContextFree — rewriting

One step replaces one occurrence of a nonterminal by the body of a rule it heads. `Rewriting.Step`
says when a form becomes another, and `Rewriting.rewrite` lists what a form becomes, leftmost
occurrence first and once for every occurrence and rule. `Rewriting.rewriteByPosition` makes the
same list by cutting the whole form at every position in turn.

Main statements: `mem_rewrite` (the list holds exactly the forms that the relation allows) and
`rewriteByPosition_eq` (cutting at positions makes the same list, by induction on what stands behind
the position).
-/

namespace ContextFree

namespace Rewriting

/-- The bodies of the rules with the given head, in the order of the rules. -/
def bodiesFor (rules : List Rule) (head : Name) : List Form :=
  (rules.filter fun r => r.head = head).map Rule.body

/-- What a symbol may be replaced by. -/
def replacements (rules : List Rule) : Symbol → List Form
  | .terminal _ => []
  | .nonterminal v => bodiesFor rules v

/-- Every form reached in one step, repetitions kept. -/
def rewrite (rules : List Rule) : Form → List Form
  | [] => []
  | s :: rest =>
    (replacements rules s).map (· ++ rest) ++ (rewrite rules rest).map (s :: ·)

/-- What the symbol at a position of the whole form is rewritten to, between what stands before the
position and what stands behind it. -/
def rewriteAt (rules : List Rule) (form : Form) (s : Symbol) (i : Nat) : List Form :=
  (replacements rules s).map fun body => form.take i ++ body ++ form.drop (i + 1)

/-- Every form reached in one step, position by position, repetitions kept. -/
def rewriteByPosition (rules : List Rule) (form : Form) : List Form :=
  form.zipIdx.flatMap fun p => rewriteAt rules form p.1 p.2

/-- One step: an occurrence of a rule's head becomes the rule's body. -/
inductive Step (rules : List Rule) : Form → Form → Prop
  | replace (before after : Form) {r : Rule} (h : r ∈ rules) :
    Step rules (before ++ .nonterminal r.head :: after) (before ++ r.body ++ after)

/-- Exactly `n` steps. -/
inductive StepsIn (rules : List Rule) : Nat → Form → Form → Prop
  | zero (form : Form) : StepsIn rules 0 form form
  | succ {n : Nat} {a b c : Form} (first : Step rules a b) (rest : StepsIn rules n b c) :
    StepsIn rules (n + 1) a c

/-- Any number of steps. -/
def Derives (rules : List Rule) (source target : Form) : Prop :=
  ∃ n, StepsIn rules n source target

/-! ## The list and the relation agree

`rewrite` goes by the first symbol of a form and `Step` by what stands on both sides of an
occurrence. So one direction is an induction on the form and the other an induction on what stands
before the occurrence. -/

theorem mem_bodiesFor {rules : List Rule} {head : Name} {body : Form} :
    body ∈ bodiesFor rules head ↔ ⟨head, body⟩ ∈ rules := by
  simp only [bodiesFor, List.mem_map, List.mem_filter, decide_eq_true_eq]
  constructor
  · rintro ⟨r, ⟨hr, rfl⟩, rfl⟩
    exact hr
  · exact fun h => ⟨_, ⟨h, rfl⟩, rfl⟩

/-- Only a nonterminal is replaced, and by the bodies of the rules that it heads. -/
theorem mem_replacements {rules : List Rule} {s : Symbol} {body : Form} :
    body ∈ replacements rules s ↔ ∃ r ∈ rules, s = .nonterminal r.head ∧ body = r.body := by
  cases s with
  | terminal v => simp [replacements]
  | nonterminal v =>
    rw [replacements, mem_bodiesFor]
    constructor
    · exact fun h => ⟨_, h, rfl, rfl⟩
    · rintro ⟨r, hr, hv, rfl⟩
      rwa [Symbol.nonterminal.inj hv]

/-- A step under a symbol put in front. -/
theorem Step.cons {rules : List Rule} (s : Symbol) {a b : Form} (h : Step rules a b) :
    Step rules (s :: a) (s :: b) := by
  cases h with
  | replace before after h => exact .replace (s :: before) after h

/-- The list holds exactly the forms reached in one step. -/
theorem mem_rewrite {rules : List Rule} {a b : Form} : b ∈ rewrite rules a ↔ Step rules a b := by
  constructor
  · intro h
    induction a generalizing b with
    | nil => simp [rewrite] at h
    | cons s rest ih =>
      simp only [rewrite, List.mem_append, List.mem_map] at h
      -- Either the first symbol was replaced or something behind it.
      rcases h with ⟨body, hbody, rfl⟩ | ⟨b, hb, rfl⟩
      · obtain ⟨r, hr, rfl, rfl⟩ := mem_replacements.1 hbody
        exact .replace [] rest hr
      · exact (ih hb).cons s
  · rintro ⟨before, after, hr⟩
    induction before with
    | nil =>
      simp only [rewrite, List.nil_append, List.mem_append, List.mem_map]
      exact .inl ⟨_, mem_replacements.2 ⟨_, hr, rfl, rfl⟩, rfl⟩
    | cons s before ih =>
      simp only [List.cons_append, rewrite, List.mem_append, List.mem_map]
      exact .inr ⟨_, ih, rfl⟩

/-! ## Position by position

Both lists hold the forms for the leftmost position first. To compare them, the form is cut into a
beginning that stays and a rest whose positions are rewritten, and the beginning grows by one symbol
at a time. -/

/-- At the position behind a beginning the symbol that stands there is replaced, and both sides
stay. -/
theorem rewriteAt_append_cons (rules : List Rule) (before : Form) (s : Symbol) (after : Form) :
    rewriteAt rules (before ++ s :: after) s before.length =
      (replacements rules s).map (before ++ · ++ after) := by
  have hafter : (before ++ s :: after).drop (before.length + 1) = after := by
    rw [← List.drop_drop, List.drop_left]
    rfl
  rw [rewriteAt, List.take_left, hafter]

/-- The positions behind a beginning rewrite what follows it and leave it as it is. -/
theorem flatMap_rewriteAt (rules : List Rule) (before rest : Form) :
    ((rest.zipIdx before.length).flatMap fun p => rewriteAt rules (before ++ rest) p.1 p.2) =
      (rewrite rules rest).map (before ++ ·) := by
  induction rest generalizing before with
  | nil => rfl
  | cons s rest ih =>
    -- The symbol joins the beginning, so the positions of the rest are those of the whole form.
    have hrest := ih (before ++ [s])
    rw [List.append_assoc, List.singleton_append, List.length_append,
      List.length_singleton] at hrest
    rw [List.zipIdx_cons, List.flatMap_cons, rewriteAt_append_cons, hrest, rewrite, List.map_append,
      List.map_map, List.map_map]
    simp [Function.comp_def]

/-- Position by position the same list comes out, in the same order. -/
theorem rewriteByPosition_eq (rules : List Rule) (form : Form) :
    rewriteByPosition rules form = rewrite rules form := by
  have hall := flatMap_rewriteAt rules [] form
  simpa [rewriteByPosition] using hall

end Rewriting

end ContextFree
