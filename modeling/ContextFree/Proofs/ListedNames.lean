import ContextFree.Proofs.WordTable

/-!
# ContextFree — which names a word table lists

Besides the names it starts with, a table lists what rules look up. A body is looked at from left to
right as long as something short enough can be made of what was looked at before, so a rule comes to
a nonterminal just if the part of its body in front of it is empty or yields a short enough word.
Rules look up more the more words there are, so the last pass looks up all that any pass did.

Main statements: `WordTable.mem_table_spell` (what is looked up along a form),
`Pass.mem_table_applyRule` (along a body), `Saturation.mem_table_ofRules` (the names listed in the
end are the declared names, the heads and what the rules come to) and
`Grammar.derivedWords_lists_looked_up_names`, which reads them off the grammar.
-/

namespace ContextFree

open Rewriting

theorem Form.exists_append_cons_iff {s t : Symbol} {rest : Form} {P : Form → Prop} :
    (∃ before after, s :: rest = before ++ t :: after ∧ P before) ↔
      s = t ∧ P [] ∨ ∃ before after, rest = before ++ t :: after ∧ P (s :: before) := by
  constructor
  · rintro ⟨before, after, hform, hbefore⟩
    cases before with
    | nil =>
      cases hform
      exact .inl ⟨rfl, hbefore⟩
    | cons u before =>
      cases hform
      exact .inr ⟨before, after, rfl, hbefore⟩
  · rintro (⟨rfl, hnil⟩ | ⟨before, after, rfl, hbefore⟩)
    · exact ⟨[], rest, rfl, hnil⟩
    · exact ⟨s :: before, after, rfl, hbefore⟩

namespace WordTable

variable {limit : Int}

/-- Spelling a form looks up the nonterminals in front of which something can be made. -/
theorem mem_table_spell {form : Form} {made : SortedSet Word} {table : WordTable} {v : Name}
    (hmade : ∃ u, u ∈ made) :
    v ∈ (spell limit form made table).2 ↔
      v ∈ table ∨ ∃ before after, form = before ++ .nonterminal v :: after ∧
        ∃ w, w ∈ (spell limit before made table).1 := by
  induction form generalizing made table with
  | nil =>
    refine (or_iff_left ?_).symm
    rintro ⟨before, after, hform, -⟩
    exact absurd hform (List.append_ne_nil_of_right_ne_nil before (List.cons_ne_nil _ _)).symm
  | cons s rest ih =>
    rw [Form.exists_append_cons_iff (P := fun before => ∃ w, w ∈ (spell limit before made table).1)]
    unfold spell
    dsimp only
    split
    · next hempty =>
      -- Nothing is left behind the first symbol, so only this one is looked up.
      rw [SortedSet.isEmpty_iff] at hempty
      rw [mem_lookedUp, hempty]
      simp [hmade, or_comm]
    · next hlonger =>
      have hsome : ∃ u, u ∈ Word.concat limit made (table.wordsOf s) := by
        refine Classical.byContradiction fun hnone => hlonger (SortedSet.isEmpty_iff.2 ?_)
        exact SortedSet.ext_mem fun u =>
          iff_of_false (fun hu => hnone ⟨u, hu⟩) (SortedSet.not_mem_empty u)
      rw [ih hsome, mem_lookedUp]
      simp only [hmade, and_true, or_assoc, or_left_comm]

end WordTable

/-- A rule comes to a nonterminal of its body if something short enough can be made of what stands
in front of it. -/
def Pass.ComesTo (limit : Int) (table : WordTable) (r : Rule) (v : Name) : Prop :=
  ∃ before after, r.body = before ++ .nonterminal v :: after ∧
    ∃ w, table.Spells before w ∧ (before = [] ∨ (w.length : Int) ≤ limit)

namespace Pass

variable {limit : Int}

theorem ComesTo.of_subset {table table' : WordTable}
    (hsub : ∀ v, table.wordsFor v ⊆ table'.wordsFor v) {r : Rule} {v : Name}
    (h : ComesTo limit table r v) : ComesTo limit table' r v := by
  obtain ⟨before, after, hbody, w, hw, hlimit⟩ := h
  exact ⟨before, after, hbody, w,
    hw.of_subset (WordTable.wordsOf_subset_of_wordsFor hsub), hlimit⟩

/-- A rule whose head is listed lists what it comes to, and nothing else. -/
theorem mem_table_applyRule {pass : Pass} {r : Rule} (hhead : r.head ∈ pass.table) {v : Name} :
    v ∈ (pass.applyRule limit r).table ↔ v ∈ pass.table ∨ ComesTo limit pass.table r v := by
  have hspelled : ∀ before w, w ∈ (pass.table.spell limit before {[]}).1 ↔
      pass.table.Spells before w ∧ (before = [] ∨ (w.length : Int) ≤ limit) :=
    fun before _ => mem_spelled (r := ⟨r.head, before⟩)
  have hspell : v ∈ (pass.table.spell limit r.body {[]}).2 ↔
      v ∈ pass.table ∨ ComesTo limit pass.table r v := by
    rw [WordTable.mem_table_spell ⟨[], SortedSet.mem_singleton.2 rfl⟩]
    simp only [hspelled, ComesTo]
  unfold applyRule
  dsimp only
  -- The head is listed already, so it makes no difference whether words are added.
  split
  · exact hspell
  · rw [Std.TreeMap.mem_insert, Std.LawfulEqCmp.compare_eq_iff_eq, hspell]
    refine or_iff_right_of_imp ?_
    rintro rfl
    exact .inl hhead

/-- Rules applied in turn list what the first table has them come to. What they come to further on,
when there are more words, is listed as well, but nothing is said of it here. -/
theorem mem_table_foldl {rules : List Rule} {pass : Pass}
    (hheads : ∀ r ∈ rules, r.head ∈ pass.table) {v : Name}
    (h : v ∈ pass.table ∨ ∃ r ∈ rules, ComesTo limit pass.table r v) :
    v ∈ (rules.foldl (applyRule limit) pass).table := by
  induction rules generalizing pass with
  | nil => exact h.resolve_right fun ⟨r, hr, _⟩ => absurd hr List.not_mem_nil
  | cons r rules ih =>
    rw [List.forall_mem_cons] at hheads
    have hlisted : ∀ u, u ∈ (pass.applyRule limit r).table ↔
        u ∈ pass.table ∨ ComesTo limit pass.table r u := fun _ => mem_table_applyRule hheads.1
    refine ih (fun s hs => (hlisted _).2 (.inl (hheads.2 s hs))) ?_
    rcases h with hv | ⟨s, hs, hcomes⟩
    · exact .inl ((hlisted v).2 (.inl hv))
    · rcases List.mem_cons.1 hs with rfl | hs
      · exact .inl ((hlisted v).2 (.inr hcomes))
      · -- The words that have been added so far let the later rules come to no less.
        have hsub : ∀ u, pass.table.wordsFor u ⊆ (pass.applyRule limit r).table.wordsFor u :=
          fun u w hw => mem_wordsFor_applyRule.2 (.inl hw)
        exact .inr ⟨s, hs, hcomes.of_subset hsub⟩

end Pass

namespace Saturation

variable {declared : SortedSet Name} {rules : List Rule} {limit : Int}

/-- The names that a table lists in the end, whatever the order of the rules. -/
inductive Listed (declared : SortedSet Name) (rules : List Rule) (limit : Int) : Name → Prop
  | declared {v : Name} (hv : v ∈ declared) : Listed declared rules limit v
  | head {r : Rule} (hr : r ∈ rules) : Listed declared rules limit r.head
  | lookedUp {u v : Name} {before after : Form}
    (hr : ⟨u, before ++ .nonterminal v :: after⟩ ∈ rules)
    (hbefore : before = [] ∨ ∃ n w, Yields rules n before w ∧ (w.length : Int) ≤ limit) :
    Listed declared rules limit v

/-! ## Nothing else is listed

A name is looked up because of words that the table has at the time. As these are words that the
rules make, the reason can be given without the table, and it holds for good. -/

/-- Along with the words, which the rules make, a table lists the heads and only what it may. -/
structure Proper (declared : SortedSet Name) (rules : List Rule) (limit : Int)
    (table : WordTable) : Prop where
  sound : Sound limit rules table
  heads : ∀ r ∈ rules, r.head ∈ table
  listed : ∀ v ∈ table, Listed declared rules limit v

/-- A table with sound words lets a rule come only to what may be listed. -/
theorem Proper.of_comesTo {table : WordTable} (proper : Proper declared rules limit table)
    {r : Rule} (hr : r ∈ rules) {v : Name} (h : Pass.ComesTo limit table r v) :
    Listed declared rules limit v := by
  obtain ⟨before, after, hbody, w, hw, hlimit⟩ := h
  have hr : ⟨r.head, before ++ .nonterminal v :: after⟩ ∈ rules := hbody ▸ hr
  refine .lookedUp hr (hlimit.imp_right fun hlimit => ?_)
  obtain ⟨n, hn⟩ := proper.sound.exists_yields hw
  exact ⟨n, w, hn, hlimit⟩

/-- One rule keeps a table proper. -/
theorem Proper.applyRule {pass : Pass} (proper : Proper declared rules limit pass.table) {r : Rule}
    (hr : r ∈ rules) : Proper declared rules limit (pass.applyRule limit r).table where
  sound := proper.sound.applyRule hr
  heads s hs := (Pass.mem_table_applyRule (proper.heads r hr)).2 (.inl (proper.heads s hs))
  listed v hv := by
    rcases (Pass.mem_table_applyRule (proper.heads r hr)).1 hv with hv | hcomes
    · exact proper.listed v hv
    · exact proper.of_comesTo hr hcomes

theorem Proper.foldl {applied : List Rule} (happlied : ∀ r ∈ applied, r ∈ rules) {pass : Pass}
    (proper : Proper declared rules limit pass.table) :
    Proper declared rules limit (applied.foldl (Pass.applyRule limit) pass).table := by
  induction applied generalizing pass with
  | nil => exact proper
  | cons r applied ih =>
    rw [List.forall_mem_cons] at happlied
    exact ih happlied.2 (proper.applyRule happlied.1)

theorem proper_settle {table : WordTable} (fits : Fits limit rules table)
    (proper : Proper declared rules limit table) :
    Proper declared rules limit (settle limit rules table fits).table := by
  fun_induction settle limit rules table fits with
  | case1 table fits pass h later ih => exact ih (proper.foldl fun _ hr => hr)
  | case2 table fits pass h => exact proper.foldl fun _ hr => hr

/-! ## Nothing is left out

The other way round a reason given by the rules need not hold in the first passes, since the words
are not there yet. In the last pass all words are there. -/

/-- A pass lists what there was and what the rules come to with the words there were. -/
theorem mem_table_pass {table : WordTable} (hheads : ∀ r ∈ rules, r.head ∈ table) {v : Name}
    (h : v ∈ table ∨ ∃ r ∈ rules, Pass.ComesTo limit table r v) :
    v ∈ (table.pass limit rules).table :=
  Pass.mem_table_foldl hheads h

/-- A name that is listed stays listed. -/
theorem mem_table_settle {table : WordTable} (fits : Fits limit rules table)
    (hheads : ∀ r ∈ rules, r.head ∈ table) {v : Name} (hv : v ∈ table) :
    v ∈ (settle limit rules table fits).table := by
  fun_induction settle limit rules table fits with
  | case1 table fits pass h later ih =>
    have hkept : ∀ {u}, u ∈ table → u ∈ pass.table :=
      fun hu => mem_table_pass hheads (.inl hu)
    exact ih (fun r hr => hkept (hheads r hr)) (hkept hv)
  | case2 table fits pass h => exact mem_table_pass hheads (.inl hv)

/-- The last pass changed no words, so what rules come to in the end they came to in it. -/
theorem comesTo_settle {table : WordTable} (fits : Fits limit rules table)
    (hheads : ∀ r ∈ rules, r.head ∈ table) {r : Rule} (hr : r ∈ rules) {v : Name}
    (h : Pass.ComesTo limit (settle limit rules table fits).table r v) :
    v ∈ (settle limit rules table fits).table := by
  fun_induction settle limit rules table fits with
  | case1 table fits pass hgrew later ih =>
    refine ih (fun s hs => ?_) h
    exact mem_table_pass hheads (.inl (hheads s hs))
  | case2 table fits pass hgrew =>
    obtain ⟨hsame, -, -⟩ := Pass.foldl_eq_of_not_grew (Bool.not_eq_true _ ▸ hgrew)
    have hsub : ∀ u, pass.table.wordsFor u ⊆ table.wordsFor u :=
      fun u => SortedSet.subset_of_eq (hsame u)
    exact mem_table_pass hheads (.inr ⟨r, hr, h.of_subset hsub⟩)

/-- The names listed in the end are the declared ones, the heads, and the nonterminals that rules
come to. -/
theorem mem_table_ofRules {v : Name} :
    v ∈ (ofRules declared rules limit).table ↔ Listed declared rules limit v := by
  have hstart : ∀ u, u ∈ WordTable.ofNames (declared ∪ heads rules) ↔
      u ∈ declared ∨ ∃ r ∈ rules, r.head = u := by
    intro u
    rw [WordTable.mem_ofNames, SortedSet.mem_union]
    simp only [heads, SortedSet.mem_ofList, List.mem_map]
  have hheads : ∀ r ∈ rules, r.head ∈ WordTable.ofNames (declared ∪ heads rules) :=
    fun r hr => (hstart _).2 (.inr ⟨r, hr, rfl⟩)
  have fits := fits_ofNames limit rules (declared ∪ heads rules)
  constructor
  · refine (proper_settle fits ⟨sound_ofNames _, hheads, fun u hu => ?_⟩).listed v
    -- A name that was there from the start is listed. The passes add only names that a rule comes
    -- to.
    rcases (hstart u).1 hu with hu | ⟨r, hr, rfl⟩
    · exact .declared hu
    · exact .head hr
  · intro h
    cases h with
    | declared hv => exact mem_table_settle fits hheads ((hstart v).2 (.inl hv))
    | head hr => exact mem_table_settle fits hheads (hheads _ hr)
    | @lookedUp _ _ before after hr hbefore =>
      -- A rule comes to the name, if with a word for what stands before it, which the settled table
      -- has.
      refine comesTo_settle fits hheads hr ⟨before, after, rfl, ?_⟩
      rcases hbefore with rfl | ⟨n, w, hyield, hlimit⟩
      · exact ⟨[], .nil, .inl rfl⟩
      · exact ⟨w, (saturated_settle fits).spells hyield hlimit, .inr hlimit⟩

end Saturation

namespace Grammar

variable {g : Grammar}

/-- What is in front of a nonterminal that is looked up yields a short word, so it derives one.
Under a negative limit no word is short enough. -/
theorem exists_yields_le_iff {rules : List Rule} (hrules : ∀ r, r ∈ rules ↔ r ∈ g.rules)
    {limit : Int} {form : Form} :
    (∃ n w, Yields rules n form w ∧ (w.length : Int) ≤ limit) ↔
      0 ≤ limit ∧ ∃ w : Word, (w.length : Int) ≤ limit ∧ Derives g.rules.toList form w.toForm := by
  constructor
  · rintro ⟨n, w, hyield, hlimit⟩
    exact ⟨by omega, w, hlimit, (exists_yields_iff_derives hrules).1 ⟨n, hyield⟩⟩
  · rintro ⟨-, w, hlimit, hderives⟩
    obtain ⟨n, hyield⟩ := (exists_yields_iff_derives hrules).2 hderives
    exact ⟨n, w, hyield, hlimit⟩

/-- The names listed with the rules in any order, read off the grammar. -/
theorem mem_table_ofRules_iff {rules : List Rule} (hrules : ∀ r, r ∈ rules ↔ r ∈ g.rules)
    {limit : Int} {v : Name} :
    v ∈ (Saturation.ofRules g.nonterminals rules limit).table ↔
      v ∈ g.nonterminals ∨ v ∈ g.generators ∨
        ∃ r ∈ g.rules, ∃ before after, r.body = before ++ .nonterminal v :: after ∧
          (before = [] ∨ 0 ≤ limit ∧ ∃ w : Word, (w.length : Int) ≤ limit ∧
            Derives g.rules.toList before w.toForm) := by
  rw [Saturation.mem_table_ofRules, mem_generators]
  simp only [← exists_yields_le_iff hrules]
  constructor
  · intro h
    cases h with
    | declared hv => exact .inl hv
    | @head r hr => exact .inr (.inl ⟨r, (hrules r).1 hr, rfl⟩)
    | @lookedUp u _ before after hr hbefore =>
      exact .inr (.inr ⟨_, (hrules _).1 hr, before, after, rfl, hbefore⟩)
  · rintro (hv | ⟨r, hr, rfl⟩ | ⟨⟨u, body⟩, hr, before, after, rfl, hbefore⟩)
    · exact .declared hv
    · exact .head ((hrules r).2 hr)
    · exact .lookedUp ((hrules _).2 hr) hbefore

/-- No words are found for a name that heads no rule. -/
theorem wordsFor_ofRules_of_not_mem_generators {rules : List Rule}
    (hrules : ∀ r, r ∈ rules ↔ r ∈ g.rules) (declared : SortedSet Name) {limit : Int} {v : Name}
    (hv : v ∉ g.generators) : (Saturation.ofRules declared rules limit).table.wordsFor v = ∅ := by
  refine SortedSet.eq_empty_iff.2 fun w hw => hv ?_
  obtain ⟨n, body, hr, -⟩ := Saturation.mem_wordsFor_ofRules.1 hw
  exact mem_generators.2 ⟨⟨v, body⟩, (hrules _).1 hr, rfl⟩

/-- The table depends on which rules there are, and not on their order. -/
theorem getElem?_ofRules_congr {rules rules' : List Rule} (hrules : ∀ r, r ∈ rules ↔ r ∈ g.rules)
    (hrules' : ∀ r, r ∈ rules' ↔ r ∈ g.rules) (limit : Int) (v : Name) :
    (Saturation.ofRules g.nonterminals rules limit).table[v]? =
      (Saturation.ofRules g.nonterminals rules' limit).table[v]? := by
  have hsame : v ∈ (Saturation.ofRules g.nonterminals rules limit).table ↔
      v ∈ (Saturation.ofRules g.nonterminals rules' limit).table :=
    (mem_table_ofRules_iff hrules).trans (mem_table_ofRules_iff hrules').symm
  by_cases hv : v ∈ (Saturation.ofRules g.nonterminals rules limit).table
  · rw [WordTable.getElem?_of_mem hv, WordTable.getElem?_of_mem (hsame.1 hv)]
    congr 1
    apply SortedSet.ext_mem
    intro w
    rw [mem_wordsFor_ofRules_iff hrules, mem_wordsFor_ofRules_iff hrules']
  · rw [Std.TreeMap.getElem?_eq_none hv, Std.TreeMap.getElem?_eq_none (mt hsame.2 hv)]

/-- **A table lists what is declared, what heads a rule, and what is looked up.** With the rules in
any order a nonterminal of a body is looked up just if what stands in front of it is empty or
derives a word up to the limit, for which the limit must not be negative. A name that is listed and
heads no rule has no words, and the order of the rules makes no difference to the table. -/
theorem derivedWords_lists_looked_up_names (g : Grammar) (limit : Int) (rules : List Rule)
    (hrules : ∀ r, r ∈ rules ↔ r ∈ g.rules) :
    (∀ v, v ∈ (Saturation.ofRules g.nonterminals rules limit).table ↔
        v ∈ g.nonterminals ∨ v ∈ g.generators ∨
          ∃ r ∈ g.rules, ∃ before after, r.body = before ++ .nonterminal v :: after ∧
            (before = [] ∨ 0 ≤ limit ∧ ∃ w : Word, (w.length : Int) ≤ limit ∧
              Derives g.rules.toList before w.toForm)) ∧
      (∀ v ∈ (Saturation.ofRules g.nonterminals rules limit).table, v ∉ g.generators →
        (Saturation.ofRules g.nonterminals rules limit).table[v]? = some ∅) ∧
      ∀ v : Name, (g.derivedWords limit)[v]? =
        (Saturation.ofRules g.nonterminals rules limit).table[v]? := by
  refine ⟨fun v => mem_table_ofRules_iff hrules, fun v hlisted hv => ?_, fun v => ?_⟩
  · rw [WordTable.getElem?_of_mem hlisted, wordsFor_ofRules_of_not_mem_generators hrules _ hv]
  · exact getElem?_ofRules_congr (fun r => SortedSet.mem_toList) hrules limit v

/-- A letter in front of a name that heads no rule. -/
def unheadedEndRules : List Rule :=
  [⟨.text "S", [.nonterminal (.text "A"), .nonterminal (.text "B")]⟩,
    ⟨.text "A", [.terminal (.text "a")]⟩]

def unheadedEnd : Grammar where
  nonterminals := ∅
  goal := .text "S"
  rules := .ofList unheadedEndRules

/-- With room for one letter the name behind it is looked up, and has no words; with no room for any
it is not even listed. -/
theorem unheadedEnd_listed :
    (∀ r, r ∈ unheadedEndRules.reverse ↔ r ∈ unheadedEnd.rules) ∧
      (Saturation.ofRules unheadedEnd.nonterminals unheadedEndRules.reverse 1).table[
        Name.text "B"]? = some ∅ ∧
      Name.text "B" ∉
        (Saturation.ofRules unheadedEnd.nonterminals unheadedEndRules.reverse 0).table := by
  have hrules : ∀ r, r ∈ unheadedEndRules.reverse ↔ r ∈ unheadedEnd.rules :=
    fun r => List.mem_reverse.trans SortedSet.mem_ofList.symm
  have hB : Name.text "B" ∉ unheadedEnd.generators := by decide +kernel
  have htables := fun limit =>
    derivedWords_lists_looked_up_names unheadedEnd limit unheadedEndRules.reverse hrules
  refine ⟨hrules, ?_, ?_⟩
  · obtain ⟨hlisted, hempty, -⟩ := htables 1
    have hletter : Yields unheadedEndRules.reverse 1 [.nonterminal (.text "A")] [.text "a"] :=
      yields_singleton_iff.2 ⟨0, _, by decide, yields_toForm _ [.text "a"], rfl⟩
    have hderives := (exists_yields_iff_derives hrules).1 ⟨1, hletter⟩
    refine hempty _ ((hlisted _).2 (.inr (.inr ?_))) hB
    exact ⟨⟨.text "S", _⟩, (hrules _).1 (by decide), [.nonterminal (.text "A")], [], rfl,
      .inr ⟨by decide, _, by decide, hderives⟩⟩
  · obtain ⟨hlisted, -, -⟩ := htables 0
    rw [hlisted]
    rintro (hdeclared | hhead | ⟨r, hr, before, after, hbody, hbefore⟩)
    · exact SortedSet.not_mem_empty _ hdeclared
    · exact hB hhead
    · replace hr := (hrules r).2 hr
      simp only [unheadedEndRules, List.mem_reverse, List.mem_cons, List.not_mem_nil,
        or_false] at hr
      -- The name stands in one body only, behind the name of the letter.
      have hfront : before = [.nonterminal (.text "A")] := by
        rcases hr with rfl | rfl <;> rcases before with _ | ⟨_, _ | ⟨_, _⟩⟩ <;> simp_all
      subst hfront
      obtain ⟨-, w, hshort, hderives⟩ := hbefore.resolve_left (List.cons_ne_nil _ _)
      obtain ⟨n, body, hA, hyield⟩ := (generates_iff hrules).1 hderives
      obtain rfl : body = [.terminal (.text "a")] := by
        simpa [unheadedEndRules] using hA
      cases hyield
      exact absurd hshort (by simp)

end Grammar

end ContextFree
