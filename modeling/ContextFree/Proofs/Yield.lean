import ContextFree.Grammar.Basic
import ContextFree.Proofs.Derivation

/-!
# ContextFree — what forms yield

A derivation of a word from a form interleaves its work on the symbols of the form. `Yields` sorts
this work symbol by symbol: each terminal stands for itself, and each nonterminal is replaced by a
body whose own yield is accounted for before the rest of the form. The number of rules used is the
number of steps of the derivation, so nothing is lost by arguing over yields.

Main statements: `yields_append_iff` (a concatenation yields what its parts yield) and
`stepsIn_toForm_iff` (a form yields exactly the words that it derives, in as many steps), which the
later modules use through `Grammar.generates_iff`.
-/

namespace ContextFree

@[simp] theorem Word.toForm_nil : Word.toForm [] = [] :=
  rfl

@[simp] theorem Word.toForm_cons (a : Name) (w : Word) :
    Word.toForm (a :: w) = .terminal a :: Word.toForm w :=
  rfl

/-- Words in a row are forms in a row. -/
@[simp] theorem Word.toForm_append (u w : Word) :
    Word.toForm (u ++ w) = Word.toForm u ++ Word.toForm w :=
  List.map_append

namespace Rewriting

variable {rules : List Rule}

/-- The form turns into the word by replacing nonterminals, with `n` rules used in all. -/
inductive Yields (rules : List Rule) : Nat → Form → Word → Prop
  | nil : Yields rules 0 [] []
  | terminal (a : Name) {n : Nat} {rest : Form} {w : Word} (h : Yields rules n rest w) :
    Yields rules n (.terminal a :: rest) (a :: w)
  | nonterminal {m n : Nat} {v : Name} {body rest : Form} {u w : Word} (hr : ⟨v, body⟩ ∈ rules)
    (hbody : Yields rules m body u) (hrest : Yields rules n rest w) :
    Yields rules (m + n + 1) (.nonterminal v :: rest) (u ++ w)

/-! ## Yields of forms put together

A yield goes through its form from left to right, so it comes apart where the form does. The numbers
of rules add up, and each nonterminal counts one for the rule that replaces it. -/

/-- The empty form yields the empty word, and no rule is used for it. -/
theorem yields_nil_iff {n : Nat} {w : Word} : Yields rules n [] w ↔ n = 0 ∧ w = [] := by
  constructor
  · rintro ⟨⟩
    exact ⟨rfl, rfl⟩
  · rintro ⟨rfl, rfl⟩
    exact .nil

/-- Yields of two forms side by side, with the rules used for both. Induction on the yield of the
left form. -/
theorem Yields.append {m n : Nat} {a b : Form} {u w : Word} (ha : Yields rules m a u)
    (hb : Yields rules n b w) : Yields rules (m + n) (a ++ b) (u ++ w) := by
  induction ha with
  | nil => rwa [Nat.zero_add]
  | terminal a _ ih => exact .terminal a ih
  | @nonterminal i j v body rest u' w' hr hbody _ _ ih =>
    rw [show i + j + 1 + n = i + (j + n) + 1 from by omega, List.append_assoc]
    exact .nonterminal hr hbody ih

/-- A concatenation yields a yield of its left part followed by one of its right part. -/
theorem yields_append_iff {n : Nat} {a b : Form} {w : Word} :
    Yields rules n (a ++ b) w ↔ ∃ i j u x, Yields rules i a u ∧ Yields rules j b x ∧
      n = i + j ∧ w = u ++ x := by
  constructor
  · intro h
    induction a generalizing n w with
    | nil => exact ⟨0, n, [], w, .nil, h, (Nat.zero_add n).symm, rfl⟩
    | cons s a ih =>
      -- The first symbol says how the yield begins. What it yields goes to the left part.
      cases h with
      | terminal c h =>
        obtain ⟨i, j, u, x, ha, hb, rfl, rfl⟩ := ih h
        exact ⟨i, j, c :: u, x, .terminal c ha, hb, rfl, rfl⟩
      | @nonterminal m _ _ _ _ y _ hr hbody h =>
        obtain ⟨i, j, u, x, ha, hb, rfl, rfl⟩ := ih h
        exact ⟨m + i + 1, j, y ++ u, x, .nonterminal hr hbody ha, hb, by omega, by simp⟩
  · rintro ⟨i, j, u, x, ha, hb, rfl, rfl⟩
    exact ha.append hb

/-- A nonterminal alone yields what one of its bodies yields, with one more rule. -/
theorem yields_singleton_iff {n : Nat} {v : Name} {w : Word} :
    Yields rules n [.nonterminal v] w ↔
      ∃ m body, ⟨v, body⟩ ∈ rules ∧ Yields rules m body w ∧ n = m + 1 := by
  constructor
  · intro h
    cases h with
    | @nonterminal m _ _ body _ u _ hr hbody hrest =>
      obtain ⟨rfl, rfl⟩ := yields_nil_iff.1 hrest
      exact ⟨m, body, hr, by rwa [List.append_nil], rfl⟩
  · rintro ⟨m, body, hr, hbody, rfl⟩
    have h := Yields.nonterminal hr hbody .nil
    rwa [List.append_nil] at h

/-! ## Yields and derivations

A derivation may go back and forth between the symbols of a form. Carried back from its end, each of
its steps puts a body together into its head again, which leaves a yield of the form before the
step; and a yield can be carried out as a derivation. So a form yields a word just if it derives it,
and with the same number of rules as steps. -/

/-- A word yields itself without any rule. -/
theorem yields_toForm (rules : List Rule) (w : Word) : Yields rules 0 w.toForm w := by
  induction w with
  | nil => exact .nil
  | cons a w ih => exact .terminal a ih

/-- A step in front of a yield is one more rule. The body that the step put in yields a part of the
word, and so its head yields that part. -/
theorem Step.yields {a b : Form} (hab : Step rules a b) {n : Nat} {w : Word}
    (h : Yields rules n b w) : Yields rules (n + 1) a w := by
  obtain ⟨before, after, hr⟩ := hab
  rename_i r
  -- Take the yield apart around the body and put it together around the head.
  obtain ⟨i, j, u, z, hleft, hafter, rfl, rfl⟩ := yields_append_iff.1 h
  obtain ⟨k, l, x, y, hbefore, hbody, rfl, rfl⟩ := yields_append_iff.1 hleft
  have hhead : Yields rules (l + j + 1) (.nonterminal r.head :: after) (y ++ z) :=
    .nonterminal hr hbody hafter
  rw [show k + l + j + 1 = k + (l + j + 1) from by omega, List.append_assoc]
  exact hbefore.append hhead

/-- A yield is carried out from left to right: each nonterminal is replaced and its body worked on
until it is a part of the word. -/
theorem Yields.stepsIn {n : Nat} {form : Form} {w : Word} (h : Yields rules n form w) :
    StepsIn rules n form w.toForm := by
  induction h with
  | nil => exact .zero _
  | terminal a _ ih => exact ih.append_left [.terminal a]
  | @nonterminal m k v body rest u x hr _ _ ihbody ihrest =>
    have hfirst : Step rules (.nonterminal v :: rest) (body ++ rest) :=
      (Step.of_rule hr).append_right rest
    rw [Word.toForm_append]
    exact .succ hfirst (ihbody.append ihrest)

/-- A form yields the words that it derives, and uses as many rules as the derivation has steps. -/
theorem stepsIn_toForm_iff {n : Nat} {form : Form} {w : Word} :
    StepsIn rules n form w.toForm ↔ Yields rules n form w := by
  refine ⟨fun h => ?_, Yields.stepsIn⟩
  generalize htarget : w.toForm = target at h
  induction h with
  | zero =>
    subst htarget
    exact yields_toForm rules w
  | succ first _ ih =>
    -- The yield is carried back from the word to the form, one step at a time.
    exact first.yields (ih htarget)

theorem Yields.mono {rules' : List Rule} (hsub : ∀ r ∈ rules, r ∈ rules') {n : Nat} {form : Form}
    {w : Word} (h : Yields rules n form w) : Yields rules' n form w :=
  stepsIn_toForm_iff.1 (h.stepsIn.mono hsub)

end Rewriting

namespace Grammar

/-- The word can be derived from the nonterminal of that name, in any number of steps. -/
def Generates (g : Grammar) (v : Name) (w : Word) : Prop :=
  Rewriting.Derives g.rules.toList [.nonterminal v] w.toForm

theorem generates_iff_yields {g : Grammar} {v : Name} {w : Word} :
    g.Generates v w ↔ ∃ n, Rewriting.Yields g.rules.toList n [.nonterminal v] w :=
  exists_congr fun _ => Rewriting.stepsIn_toForm_iff

theorem Generates.mono {g h : Grammar} (hrules : g.rules ⊆ h.rules) {v : Name} {w : Word}
    (hword : g.Generates v w) : h.Generates v w := by
  obtain ⟨n, hsteps⟩ := hword
  refine ⟨n, hsteps.mono fun r hr => ?_⟩
  exact SortedSet.mem_toList.2 (hrules r (SortedSet.mem_toList.1 hr))

/-- The order in which the rules are listed does not matter. -/
theorem stepsIn_toList_iff {g : Grammar} {rules : List Rule} (hrules : ∀ r, r ∈ rules ↔ r ∈ g.rules)
    {n : Nat} {a b : Form} :
    Rewriting.StepsIn rules n a b ↔ Rewriting.StepsIn g.rules.toList n a b :=
  Rewriting.stepsIn_congr fun r => (hrules r).trans SortedSet.mem_toList.symm

/-- What the rules yield in any order, the grammar's rules derive. -/
theorem exists_yields_iff_derives {g : Grammar} {rules : List Rule}
    (hrules : ∀ r, r ∈ rules ↔ r ∈ g.rules) {form : Form} {w : Word} :
    (∃ n, Rewriting.Yields rules n form w) ↔ Rewriting.Derives g.rules.toList form w.toForm :=
  exists_congr fun _ => Rewriting.stepsIn_toForm_iff.symm.trans (stepsIn_toList_iff hrules)

/-- What the rules derive in any order, the grammar generates. -/
theorem derives_iff_generates {g : Grammar} {rules : List Rule}
    (hrules : ∀ r, r ∈ rules ↔ r ∈ g.rules) {v : Name} {w : Word} :
    Rewriting.Derives rules [.nonterminal v] w.toForm ↔ g.Generates v w :=
  exists_congr fun _ => stepsIn_toList_iff hrules

/-- A name generates what one of its bodies yields. This is the form in which the passes are
compared. -/
theorem generates_iff {g : Grammar} {rules : List Rule} (hrules : ∀ r, r ∈ rules ↔ r ∈ g.rules)
    {v : Name} {w : Word} :
    g.Generates v w ↔ ∃ n body, ⟨v, body⟩ ∈ rules ∧ Rewriting.Yields rules n body w := by
  rw [← derives_iff_generates hrules]
  unfold Rewriting.Derives
  simp only [Rewriting.stepsIn_toForm_iff, Rewriting.yields_singleton_iff]
  constructor
  · rintro ⟨_, n, body, hr, hbody, rfl⟩
    exact ⟨n, body, hr, hbody⟩
  · rintro ⟨n, body, hr, hbody⟩
    exact ⟨n + 1, n, body, hr, hbody, rfl⟩

end Grammar

end ContextFree
