import ContextFree.Proofs.NullableNames
import ContextFree.Proofs.Variants
import ContextFree.Proofs.WordTable

/-!
# ContextFree — no word but the empty one is lost with the empty rules

A yield of a form becomes a yield of one of its variants when every occurrence that yields nothing
is dropped, and a yield of a variant becomes one of the form when the dropped occurrences are put
back with their empty yields. Both hold at every rule of a derivation, so a grammar and its variants
yield the same words, except for the empty word, which no rule is left to yield.

Main statements: `exists_variant_yields` (dropping, with no more rules used than before),
`yields_of_replaceEmptyRules` (putting back) and `eliminateNullableRules_loses_only_empty_word`.
-/

namespace ContextFree

open Rewriting

/-! ## Putting back what was dropped

Only this is needed of the dropped names: each of them can yield nothing. That there are no others
of the kind does not matter here, so what is shown in this section holds also where too few names
were dropped. -/

/-- What a variant yields the form yields, if each dropped name can yield nothing. -/
theorem exists_yields_of_mem_variants {rules : List Rule} {names : SortedSet Name}
    (hnames : ∀ v ∈ names, ∃ n, Yields rules n [.nonterminal v] []) {form variant : Form}
    (hvariant : variant ∈ Form.variants names form) {n : Nat} {w : Word}
    (h : Yields rules n variant w) : ∃ m, Yields rules m form w := by
  induction form generalizing variant n w with
  | nil =>
    rw [Form.mem_variants_nil.1 hvariant] at h
    exact ⟨n, h⟩
  | cons s rest ih =>
    rcases Form.mem_variants_cons.1 hvariant with ⟨tail, htail, rfl⟩ | ⟨hdrop, htail⟩
    · -- The symbol was kept: its own yield is split off and put in front again.
      obtain ⟨i, j, u, x, hs, htail', rfl, rfl⟩ := yields_append_iff (a := [s]).1 h
      obtain ⟨m, hm⟩ := ih htail htail'
      exact ⟨i + m, hs.append hm⟩
    · -- The symbol was dropped: its empty yield is put in front.
      obtain ⟨v, hv, rfl⟩ := Symbol.isDroppable_iff.1 hdrop
      obtain ⟨i, hi⟩ := hnames v hv
      obtain ⟨m, hm⟩ := ih htail h
      exact ⟨i + m, hi.append hm⟩

namespace Grammar

variable {g : Grammar} {names : SortedSet Name}

/-- The rules of a name are the variants of its rules, the empty ones left out. -/
theorem mem_replaceEmptyRules_iff {v : Name} {body : Form} :
    ⟨v, body⟩ ∈ (g.replaceEmptyRules names).rules ↔
      body ≠ [] ∧ ∃ source, ⟨v, source⟩ ∈ g.rules ∧ body ∈ Form.variants names source := by
  rw [mem_replaceEmptyRules]
  refine and_congr_right fun _ => ⟨?_, ?_⟩
  · rintro ⟨⟨_, source⟩, hs, rfl, hvariant⟩
    exact ⟨source, hs, hvariant⟩
  · rintro ⟨source, hs, hvariant⟩
    exact ⟨⟨v, source⟩, hs, rfl, hvariant⟩

/-- Rules replaced by their variants yield nothing new. -/
theorem yields_of_replaceEmptyRules
    (hnames : ∀ v ∈ names, ∃ n, Yields g.rules.toList n [.nonterminal v] []) {n : Nat} {form : Form}
    {w : Word} (h : Yields (g.replaceEmptyRules names).rules.toList n form w) :
    ∃ m, Yields g.rules.toList m form w := by
  induction h with
  | nil => exact ⟨0, .nil⟩
  | terminal a _ ih =>
    obtain ⟨m, hm⟩ := ih
    exact ⟨m, .terminal a hm⟩
  | nonterminal hr _ _ ihbody ihrest =>
    -- The body is a variant. What was dropped from it is put back first, and then the rest goes on.
    obtain ⟨-, source, hs, hvariant⟩ := mem_replaceEmptyRules_iff.1 (SortedSet.mem_toList.1 hr)
    obtain ⟨i, hi⟩ := ihbody
    obtain ⟨m, hbody⟩ := exists_yields_of_mem_variants hnames hvariant hi
    obtain ⟨j, hrest⟩ := ihrest
    exact ⟨m + j + 1, .nonterminal (SortedSet.mem_toList.2 hs) hbody hrest⟩

/-! ## Dropping what yields nothing

In the other direction all nullable names have to be among the dropped ones. The variant is chosen
by the derivation: an occurrence is dropped where the derivation makes nothing of it, and kept where
it makes a letter. The same name may be kept in one place and dropped in another. -/

/-- What a form yields one of its variants yields with the rules replaced, using no more of them. -/
theorem exists_variant_yields
    (hall : ∀ v n, Yields g.rules.toList n [.nonterminal v] [] → v ∈ names) {n : Nat} {form : Form}
    {w : Word} (h : Yields g.rules.toList n form w) :
    ∃ variant ∈ Form.variants names form, ∃ m ≤ n,
      Yields (g.replaceEmptyRules names).rules.toList m variant w := by
  induction h with
  | nil => exact ⟨[], Form.mem_variants_nil.2 rfl, 0, Nat.le_refl 0, .nil⟩
  | @terminal a _ rest _ _ ih =>
    obtain ⟨tail, htail, m, hm, hyield⟩ := ih
    exact ⟨.terminal a :: tail, Form.cons_mem_variants htail, m, hm, .terminal a hyield⟩
  | @nonterminal i j v body rest u x hr hbody _ ihbody ihrest =>
    obtain ⟨body', hbody', k, hk, hyield⟩ := ihbody
    obtain ⟨tail, htail, m, hm, hyield'⟩ := ihrest
    -- The occurrence is dropped if the variant found for its body is empty.
    by_cases hempty : body' = []
    · subst hempty
      obtain ⟨rfl, rfl⟩ := yields_nil_iff.1 hyield
      have hv : v ∈ names := hall v (i + 1) (yields_singleton_iff.2 ⟨i, body, hr, hbody, rfl⟩)
      have hdrop : (Symbol.nonterminal v).isDroppable names = true :=
        Symbol.isDroppable_iff.2 ⟨v, hv, rfl⟩
      exact ⟨tail, Form.mem_variants_of_droppable hdrop htail, m, by omega, hyield'⟩
    · have hrule : ⟨v, body'⟩ ∈ (g.replaceEmptyRules names).rules :=
        mem_replaceEmptyRules_iff.2 ⟨hempty, body, SortedSet.mem_toList.1 hr, hbody'⟩
      exact ⟨.nonterminal v :: tail, Form.cons_mem_variants htail, k + m + 1, by omega,
        .nonterminal (SortedSet.mem_toList.2 hrule) hyield hyield'⟩

/-! ## The words

Without empty rules a form never gets shorter, so no name yields the empty word any more. All other
words are still there by the two directions above. -/

/-- Without empty rules a form yields at least as many letters as it has symbols. -/
theorem length_le_of_yields (hnonempty : ∀ r ∈ g.rules, r.body ≠ []) {n : Nat} {form : Form}
    {w : Word} (h : Yields g.rules.toList n form w) : form.length ≤ w.length := by
  induction h with
  | nil => exact Nat.le_refl 0
  | terminal a _ ih =>
    rw [List.length_cons, List.length_cons]
    omega
  | @nonterminal _ _ _ body _ _ _ hr _ _ ihbody ihrest =>
    have hpos : 0 < body.length :=
      List.length_pos_iff.2 (hnonempty _ (SortedSet.mem_toList.1 hr))
    rw [List.length_cons, List.length_append]
    omega

/-- Whatever names were dropped, no rule is empty afterwards. -/
theorem body_ne_nil_of_mem_replaceEmptyRules {r : Rule}
    (hr : r ∈ (g.replaceEmptyRules names).rules) : r.body ≠ [] :=
  (mem_replaceEmptyRules.1 hr).1

/-- A word that is not empty is yielded by the variants as well, and with no more rules in all. -/
theorem exists_yields_replaceEmptyRules (hnames : g.IsNullableSet names) {n : Nat} {v : Name}
    {w : Word} (hne : w ≠ []) (h : Yields g.rules.toList n [.nonterminal v] w) :
    ∃ m ≤ n, Yields (g.replaceEmptyRules names).rules.toList m [.nonterminal v] w := by
  obtain ⟨variant, hvariant, m, hm, hyield⟩ :=
    exists_variant_yields (fun v n h => hnames.mem_iff.2 ⟨n, h⟩) h
  -- Of the two variants of a single nonterminal the empty one yields no word but the empty one.
  rcases Form.mem_variants_singleton.1 hvariant with rfl | ⟨-, rfl⟩
  · exact ⟨m, hm, hyield⟩
  · exact absurd (yields_nil_iff.1 hyield).2 hne

/-- Where only nullable names are dropped, the variants generate nothing new, and no empty word. -/
theorem generates_of_replaceEmptyRules
    (hnames : ∀ v ∈ names, ∃ n, Yields g.rules.toList n [.nonterminal v] []) {v : Name} {w : Word}
    (h : (g.replaceEmptyRules names).Generates v w) : w ≠ [] ∧ g.Generates v w := by
  rw [generates_iff_yields] at h ⊢
  obtain ⟨n, h⟩ := h
  have hlength := length_le_of_yields (fun r => body_ne_nil_of_mem_replaceEmptyRules) h
  exact ⟨List.ne_nil_of_length_pos hlength, yields_of_replaceEmptyRules hnames h⟩

/-- With exactly the nullable names the variants generate the words that are not empty. -/
theorem generates_replaceEmptyRules (hnames : g.IsNullableSet names) {v : Name} {w : Word} :
    (g.replaceEmptyRules names).Generates v w ↔ w ≠ [] ∧ g.Generates v w := by
  refine ⟨generates_of_replaceEmptyRules fun v hv => hnames.mem_iff.1 hv, ?_⟩
  rw [generates_iff_yields, generates_iff_yields]
  rintro ⟨hne, n, h⟩
  obtain ⟨m, -, hyield⟩ := exists_yields_replaceEmptyRules hnames hne h
  exact ⟨m, hyield⟩

/-- The language loses the empty word, also under a negative limit, where an empty rule of the goal
is all that counts. -/
theorem language_replaceEmptyRules (hnames : g.IsNullableSet names) (limit : Int) :
    (g.replaceEmptyRules names).language limit = g.language limit \ {[]} := by
  apply SortedSet.ext_mem
  intro w
  rw [SortedSet.mem_diff, SortedSet.mem_singleton]
  -- Under a negative limit the language is not what the goal generates, so this is a case of its
  -- own.
  rcases Int.lt_or_le limit 0 with hneg | hlimit
  · rw [mem_language_of_neg hneg, mem_language_of_neg hneg]
    constructor
    · rintro ⟨rfl, hr⟩
      exact absurd rfl (body_ne_nil_of_mem_replaceEmptyRules hr)
    · rintro ⟨⟨rfl, -⟩, hne⟩
      exact absurd rfl hne
  · obtain ⟨n, rfl⟩ := Int.eq_ofNat_of_zero_le hlimit
    rw [mem_language, mem_language, goal_replaceEmptyRules, generates_replaceEmptyRules hnames]
    constructor
    · rintro ⟨hlength, hne, h⟩
      exact ⟨⟨hlength, h⟩, hne⟩
    · rintro ⟨⟨hlength, h⟩, hne⟩
      exact ⟨hlength, hne, h⟩

/-! ## The pass

Last, the pass itself: what it answers with, that it has nothing to do where there are no empty
rules, and that it loses only the empty word. -/

/-- The pass replaces the empty rules by way of the nullable names, which it finds itself. -/
theorem outcome_eliminateNullableRules (hnames : g.IsNullableSet names) :
    g.eliminateNullableRules.outcome = .ok (g.replaceEmptyRules names) := by
  unfold eliminateNullableRules
  rw [Logged.outcome_bind_ok (outcome_computeNullable_iff.2 hnames), outcome_eliminateNullable]

/-- Without empty rules no name is nullable. -/
theorem isNullableSet_empty (hnonempty : ∀ r ∈ g.rules, r.body ≠ []) : g.IsNullableSet ∅ := by
  intro form
  constructor
  · intro h
    obtain rfl := Form.isNullable_empty_iff.1 h
    exact ⟨0, .nil⟩
  · rintro ⟨n, hyield⟩
    have hlength := length_le_of_yields hnonempty hyield
    rw [List.eq_nil_of_length_eq_zero (Nat.le_zero.1 hlength)]
    rfl

theorem replaceEmptyRules_eq_self (hnonempty : ∀ r ∈ g.rules, r.body ≠ [])
    (hnames : g.IsNullableSet names) : g.replaceEmptyRules names = g := by
  -- No name is nullable, so every rule is its own only variant.
  obtain rfl := hnames.unique (isNullableSet_empty hnonempty)
  refine eq_of_mem_rules rfl rfl fun ⟨v, body⟩ => ?_
  rw [mem_replaceEmptyRules_iff]
  constructor
  · rintro ⟨-, source, hs, hvariant⟩
    rwa [Form.eq_of_mem_variants SortedSet.not_mem_empty hvariant]
  · exact fun hr => ⟨hnonempty _ hr, body, hr, Form.self_mem_variants body⟩

/-- **Empty rules are eliminated at the cost of the empty word.** The pass answers with a grammar in
which every name generates the words that it generated before, the empty word excepted; so the
language up to any limit loses the empty word and nothing else. -/
theorem eliminateNullableRules_loses_only_empty_word (g : Grammar) :
    ∃ h, g.eliminateNullableRules.outcome = .ok h ∧
      (∀ v w, h.Generates v w ↔ w ≠ [] ∧ g.Generates v w) ∧
      ∀ limit : Int, h.language limit = g.language limit \ {[]} := by
  obtain ⟨names, -, hnames⟩ := g.exists_computeNullable
  exact ⟨_, outcome_eliminateNullableRules hnames, fun v w => generates_replaceEmptyRules hnames,
    language_replaceEmptyRules hnames⟩

end Grammar

end ContextFree
