import ContextFree.Nullable.Names
import ContextFree.Proofs.Rounds
import ContextFree.Proofs.Yield
import Mathlib.Algebra.Ring.GeomSum

/-!
# ContextFree — the nullable names are those that yield nothing

The rounds of `Grammar.addNullables` can start from any names. They add generators only, so they
settle. What a round finds derives a form over the names at the start, by the bodies over the names
found before it, and the number of steps this takes is bounded by the round. And back from such a
form each step is covered by a round, so what derives it in so many steps is found within so many
rounds. From no names these forms are the empty one, and the round that settles has the nullable
names.

Main statements: `Grammar.exists_settlesAt_addNullables` (how many rounds there are),
`Grammar.exists_stepsIn_of_mem_iterate` and `Grammar.isNullable_iterate_of_stepsIn` (the two
inclusions, each with its bound), `Grammar.exists_computeNullable` (the answer is exact for every
form) and `Grammar.computeNullable_decides_empty_derivations` (the same for derivations).
-/

namespace ContextFree

open Closure Rewriting

namespace Form

/-- A form is nullable if its first symbol can be dropped and the rest is nullable. -/
@[simp] theorem isNullable_cons (names : SortedSet Name) (s : Symbol) (rest : Form) :
    isNullable names (s :: rest) = (s.isDroppable names && isNullable names rest) :=
  List.all_cons

@[simp] theorem isNullable_append (names : SortedSet Name) (a b : Form) :
    isNullable names (a ++ b) = (isNullable names a && isNullable names b) :=
  List.all_append

theorem isNullable_singleton {names : SortedSet Name} {v : Name} :
    isNullable names [.nonterminal v] = true ↔ v ∈ names := by
  simp [isNullable, Symbol.isDroppable]

/-- With more names there are no fewer nullable forms. -/
theorem isNullable_mono {names names' : SortedSet Name} (hsub : names ⊆ names') {form : Form}
    (h : isNullable names form = true) : isNullable names' form = true := by
  rw [isNullable_iff] at h ⊢
  intro s hs
  obtain ⟨v, hv, hsymbol⟩ := h s hs
  exact ⟨v, hsub v hv, hsymbol⟩

/-- Without names only the empty form is nullable. -/
theorem isNullable_empty_iff {form : Form} : isNullable ∅ form = true ↔ form = [] := by
  simp [isNullable_iff, List.eq_nil_iff_forall_not_mem]

end Form

namespace Grammar

/-! ## The rounds

A round adds heads of rules and takes nothing away, so it grows within the start and the generators
together (`growsWithin_addNullables_union`). What a closure does follows from this alone. -/

/-- A round adds heads of rules to the names it is given. -/
theorem growsWithin_addNullables_of_subset {g : Grammar} {whole : SortedSet Name}
    (hwhole : g.generators ⊆ whole) : GrowsWithin whole g.addNullables where
  grows _ _ _ hv := mem_addNullables.2 (.inl hv)
  stays s hs v hv := by
    rcases mem_addNullables.1 hv with hv | ⟨r, hr, _, rfl⟩
    · exact hs v hv
    · exact hwhole _ (mem_generators.2 ⟨r, hr, rfl⟩)

/-- From no names the rounds stay among the generators. -/
theorem growsWithin_addNullables (g : Grammar) : GrowsWithin g.generators g.addNullables :=
  growsWithin_addNullables_of_subset fun _ hv => hv

/-- From any names the rounds add generators to them. -/
theorem growsWithin_addNullables_union (g : Grammar) (names : SortedSet Name) :
    GrowsWithin (names ∪ g.generators) g.addNullables :=
  growsWithin_addNullables_of_subset (SortedSet.subset_union_right _ _)

/-- From any names the rounds settle, within as many rounds as there are generators to add. -/
theorem exists_settlesAt_addNullables (g : Grammar) (names : SortedSet Name) :
    ∃ n ≤ g.generators.size, SettlesAt g.addNullables names n := by
  have hgrows := g.growsWithin_addNullables_union names
  have hstart : names ⊆ names ∪ g.generators := SortedSet.subset_union_left _ _
  obtain ⟨n, hn⟩ := hgrows.exists_settlesAt hstart
  have hrounds : names.size + n ≤ (names ∪ g.generators).size :=
    hgrows.add_size_le_of_settlesAt hstart hn
  have hunion := SortedSet.size_union_le names g.generators
  exact ⟨n, by omega, hn⟩

/-- The closure of the nullable names as a whole: its reports and its answer, for some number of
rounds at which it settles. -/
theorem exists_nullableRounds_eq (g : Grammar) :
    ∃ n, SettlesAt g.addNullables ∅ n ∧ g.nullableRounds =
      ⟨(List.range' 1 n).map fun i => roundEvent g.generators.size i (g.addNullables^[i] ∅),
        .ok (settledRounds g.addNullables ∅ n)⟩ :=
  exists_iterate_eq g.growsWithin_addNullables (SortedSet.empty_subset _) (Int.le_refl _)

theorem iterate_addNullables_subset (g : Grammar) {i k : Nat} (hik : i ≤ k) :
    g.addNullables^[i] ∅ ⊆ g.addNullables^[k] ∅ :=
  g.growsWithin_addNullables.iterate_subset_iterate (SortedSet.empty_subset _) hik

/-! ## What a round finds

A name is found in a round because a body over the names found before it is there. By induction on
the rounds each of these names derives a form over the given names, and the steps add up as the
nodes of a tree do: one for the rule, and a share for each symbol of the body. -/

/-- The number of symbols in the longest body, 0 if there are no rules. -/
def longestBody (g : Grammar) : Nat :=
  (g.rules.toList.map fun r => r.body.length).max?.getD 0

theorem length_body_le_longestBody {g : Grammar} {r : Rule} (hr : r ∈ g.rules) :
    r.body.length ≤ g.longestBody :=
  List.le_max?_getD_of_mem (List.mem_map.2 ⟨r, SortedSet.mem_toList.2 hr, rfl⟩)

/-- Where each name found derives a form over the given names, a form over the names found does,
with a share of the steps for each of its symbols. -/
theorem exists_stepsIn_of_isNullable {rules : List Rule} {names found : SortedSet Name}
    {share : Nat}
    (hfound : ∀ v ∈ found, ∃ n ≤ share, ∃ target, Form.isNullable names target = true ∧
      StepsIn rules n [.nonterminal v] target) {form : Form}
    (h : Form.isNullable found form = true) :
    ∃ n ≤ form.length * share, ∃ target, Form.isNullable names target = true ∧
      StepsIn rules n form target := by
  induction form with
  | nil => exact ⟨0, Nat.zero_le _, [], rfl, .zero []⟩
  | cons s rest ih =>
    rw [Form.isNullable_cons, Bool.and_eq_true, Symbol.isDroppable_iff] at h
    obtain ⟨⟨v, hv, rfl⟩, hrest⟩ := h
    obtain ⟨m, hm, first, hfirst, hsymbol⟩ := hfound v hv
    obtain ⟨n, hn, others, hothers, hsteps⟩ := ih hrest
    -- The targets stand side by side, as the symbols did.
    refine ⟨m + n, ?_, first ++ others, ?_, hsymbol.append hsteps⟩
    · rw [List.length_cons, Nat.succ_mul]
      omega
    · rw [Form.isNullable_append, hfirst, hothers, Bool.and_true]

/-- Every name found within `k` rounds derives a form over the given names, with no more steps than
a tree of `k` levels has nodes if no node has more children than the longest body has symbols. -/
theorem exists_stepsIn_of_mem_iterate (g : Grammar) (names : SortedSet Name) (k : Nat) :
    ∀ v ∈ g.addNullables^[k] names, ∃ n ≤ ∑ i ∈ Finset.range k, g.longestBody ^ i,
      ∃ target, Form.isNullable names target = true ∧
        StepsIn g.rules.toList n [.nonterminal v] target := by
  induction k with
  | zero =>
    intro v hv
    exact ⟨0, Nat.zero_le _, [.nonterminal v], Form.isNullable_singleton.2 hv, .zero _⟩
  | succ k ih =>
    intro v hv
    rw [Function.iterate_succ_apply'] at hv
    rcases mem_addNullables.1 hv with hv | ⟨r, hr, hbody, rfl⟩
    · obtain ⟨n, hn, hsteps⟩ := ih v hv
      rw [Finset.sum_range_succ]
      exact ⟨n, Nat.le_add_right_of_le hn, hsteps⟩
    · -- The rule is the root, and each symbol of its body has a tree of one level less below it.
      obtain ⟨n, hn, target, htarget, hsteps⟩ := exists_stepsIn_of_isNullable ih hbody
      have hmost := Nat.mul_le_mul_right (∑ i ∈ Finset.range k, g.longestBody ^ i)
        (length_body_le_longestBody hr)
      have hfirst : Step g.rules.toList [.nonterminal r.head] r.body :=
        Step.of_rule (SortedSet.mem_toList.2 hr)
      rw [geom_sum_succ]
      exact ⟨n + 1, by omega, target, htarget, .succ hfirst hsteps⟩

/-! ## What is found by a round

This is the converse, by induction on a derivation and from its end. A form over the names found so
far has one step put in front of it, and one more round finds the head that this step replaces. -/

/-- A round covers a step: the head that the step replaces is found from the body. -/
theorem isNullable_addNullables_of_step {g : Grammar} {found : SortedSet Name} {a b : Form}
    (hstep : Step g.rules.toList a b) (h : Form.isNullable found b = true) :
    Form.isNullable (g.addNullables found) a = true := by
  obtain ⟨before, after, hr⟩ := hstep
  rename_i r
  rw [Form.isNullable_append, Form.isNullable_append, Bool.and_eq_true, Bool.and_eq_true] at h
  obtain ⟨⟨hbefore, hbody⟩, hafter⟩ := h
  have hgrows : found ⊆ g.addNullables found := fun _ hv => mem_addNullables.2 (.inl hv)
  -- The rule of the step has a body of names found so far, so its head is found next.
  have hhead : (Symbol.nonterminal r.head).isDroppable (g.addNullables found) = true := by
    rw [Symbol.isDroppable_iff]
    exact ⟨r.head, mem_addNullables.2 (.inr ⟨r, SortedSet.mem_toList.1 hr, hbody, rfl⟩), rfl⟩
  rw [Form.isNullable_append, Form.isNullable_cons, Form.isNullable_mono hgrows hbefore, hhead,
    Form.isNullable_mono hgrows hafter]
  rfl

/-- A form that derives a form over the given names in `n` steps is made of names found within `n`
rounds. -/
theorem isNullable_iterate_of_stepsIn {g : Grammar} {names : SortedSet Name} {n : Nat} {a b : Form}
    (hsteps : StepsIn g.rules.toList n a b) (h : Form.isNullable names b = true) :
    Form.isNullable (g.addNullables^[n] names) a = true := by
  induction hsteps with
  | zero => exact h
  | succ first _ ih =>
    rw [Function.iterate_succ_apply']
    exact isNullable_addNullables_of_step first (ih h)

/-! ## From no names

Over no names the only form is the empty one, so both inclusions are about yields of the empty word
here, and together they say that the set which the rounds settle at is exact (`IsNullableSet`). -/

/-- A form over the names found within `k` rounds yields the empty word. -/
theorem exists_yields_nil_of_isNullable_iterate (g : Grammar) (k : Nat) {form : Form}
    (h : Form.isNullable (g.addNullables^[k] ∅) form = true) :
    ∃ n ≤ form.length * ∑ i ∈ Finset.range k, g.longestBody ^ i,
      Yields g.rules.toList n form [] := by
  obtain ⟨n, hn, target, htarget, hsteps⟩ :=
    exists_stepsIn_of_isNullable (g.exists_stepsIn_of_mem_iterate ∅ k) h
  obtain rfl := Form.isNullable_empty_iff.1 htarget
  exact ⟨n, hn, stepsIn_toForm_iff.1 hsteps⟩

/-- Every name found within `k` rounds yields the empty word, by as many rules as a tree of `k`
levels has nodes, or fewer. -/
theorem exists_yields_nil_of_mem_iterate (g : Grammar) (k : Nat) :
    ∀ v ∈ g.addNullables^[k] ∅, ∃ n ≤ ∑ i ∈ Finset.range k, g.longestBody ^ i,
      Yields g.rules.toList n [.nonterminal v] [] := by
  intro v hv
  obtain ⟨n, hn, hyield⟩ :=
    g.exists_yields_nil_of_isNullable_iterate k (Form.isNullable_singleton.2 hv)
  rw [List.length_singleton, Nat.one_mul] at hn
  exact ⟨n, hn, hyield⟩

/-- A form that yields the empty word by `n` rules is made of names found within `n` rounds. -/
theorem isNullable_iterate_of_yields_nil {g : Grammar} {n : Nat} {form : Form}
    (h : Yields g.rules.toList n form []) :
    Form.isNullable (g.addNullables^[n] ∅) form = true :=
  isNullable_iterate_of_stepsIn h.stepsIn rfl

theorem mem_iterate_of_yields_nil {g : Grammar} {n : Nat} {v : Name}
    (h : Yields g.rules.toList n [.nonterminal v] []) : v ∈ g.addNullables^[n] ∅ :=
  Form.isNullable_singleton.1 (isNullable_iterate_of_yields_nil h)

/-- The forms made of the names are those that yield the empty word. -/
def IsNullableSet (g : Grammar) (names : SortedSet Name) : Prop :=
  ∀ form, Form.isNullable names form = true ↔ ∃ n, Yields g.rules.toList n form []

/-- The nullable names are those that yield the empty word. -/
theorem IsNullableSet.mem_iff {g : Grammar} {names : SortedSet Name} (h : g.IsNullableSet names)
    {v : Name} : v ∈ names ↔ ∃ n, Yields g.rules.toList n [.nonterminal v] [] := by
  rw [← h, Form.isNullable_singleton]

theorem IsNullableSet.mem_iff_exists_round {g : Grammar} {names : SortedSet Name}
    (hnames : g.IsNullableSet names) {v : Name} :
    v ∈ names ↔ ∃ k, v ∈ g.addNullables^[k] ∅ := by
  rw [hnames.mem_iff]
  constructor
  · intro hyields
    obtain ⟨n, hyield⟩ := hyields
    exact ⟨n, mem_iterate_of_yields_nil hyield⟩
  · intro hfound
    obtain ⟨k, hv⟩ := hfound
    obtain ⟨n, -, hyield⟩ := g.exists_yields_nil_of_mem_iterate k v hv
    exact ⟨n, hyield⟩

/-- The head of a rule with a nullable body is nullable. -/
theorem IsNullableSet.mem_of_isNullable {g : Grammar} {names : SortedSet Name}
    (h : g.IsNullableSet names) {v : Name} {body : Form} (hr : ⟨v, body⟩ ∈ g.rules)
    (hbody : Form.isNullable names body = true) : v ∈ names := by
  obtain ⟨n, hyield⟩ := (h body).1 hbody
  exact h.mem_iff.2
    ⟨n + 1, yields_singleton_iff.2 ⟨n, body, SortedSet.mem_toList.2 hr, hyield, rfl⟩⟩

/-- There is one set of nullable names. -/
theorem IsNullableSet.unique {g : Grammar} {names names' : SortedSet Name}
    (h : g.IsNullableSet names) (h' : g.IsNullableSet names') : names = names' :=
  SortedSet.ext_mem fun _ => h.mem_iff.trans h'.mem_iff.symm

/-- The nullable names are found, and they are all that yield the empty word. -/
theorem exists_computeNullable (g : Grammar) :
    ∃ names, g.computeNullable.outcome = .ok names ∧ g.IsNullableSet names := by
  obtain ⟨n, hn, hrounds⟩ := g.exists_nullableRounds_eq
  refine ⟨g.addNullables^[n] ∅, ?_, fun form => ⟨fun h => ?_, fun ⟨m, h⟩ => ?_⟩⟩
  · rw [computeNullable, hrounds, ← last_settledRounds]
    rfl
  · obtain ⟨m, -, hyield⟩ := g.exists_yields_nil_of_isNullable_iterate n h
    exact ⟨m, hyield⟩
  · -- The round that settles has what the round of the yield found.
    have hsettled : g.addNullables^[m] ∅ ⊆ g.addNullables^[n] ∅ :=
      g.growsWithin_addNullables.iterate_subset_settled (SortedSet.empty_subset _) hn m
    exact Form.isNullable_mono hsettled (isNullable_iterate_of_yields_nil h)

/-- What the closure answers is that set. So any set that is known to be exact may be taken for the
answer, and the other way round. -/
theorem outcome_computeNullable_iff {g : Grammar} {names : SortedSet Name} :
    g.computeNullable.outcome = .ok names ↔ g.IsNullableSet names := by
  obtain ⟨computed, houtcome, hcomputed⟩ := g.exists_computeNullable
  rw [houtcome, Except.ok.injEq]
  constructor
  · rintro rfl
    exact hcomputed
  · exact hcomputed.unique

/-- Exactness in terms of derivations, with as many steps as it takes. -/
theorem IsNullableSet.isNullable_iff_derives {g : Grammar} {names : SortedSet Name}
    (h : g.IsNullableSet names) {form : Form} :
    Form.isNullable names form = true ↔ Derives g.rules.toList form [] := by
  rw [h]
  exact exists_congr fun n => (stepsIn_toForm_iff (w := [])).symm

/-- **Nullability is decided.** The closure answers with names for which a form is nullable just if
some derivation leads from it to the empty form; so the names are those of the nonterminals that
derive the empty form. -/
theorem computeNullable_decides_empty_derivations (g : Grammar) :
    ∃ names, g.computeNullable.outcome = .ok names ∧
      (∀ form, Form.isNullable names form = true ↔ Derives g.rules.toList form []) ∧
      ∀ v, v ∈ names ↔ Derives g.rules.toList [.nonterminal v] [] := by
  obtain ⟨names, houtcome, hnames⟩ := g.exists_computeNullable
  refine ⟨names, houtcome, fun form => hnames.isNullable_iff_derives, fun v => ?_⟩
  rw [← hnames.isNullable_iff_derives, Form.isNullable_singleton]

end Grammar

end ContextFree
