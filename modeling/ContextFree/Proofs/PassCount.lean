import ContextFree.Proofs.WordTable
import Mathlib.Algebra.Ring.GeomSum
import Mathlib.Order.Bounds.Basic

/-!
# ContextFree — how many passes fill a word table

Passes over the rules are made until one adds nothing, and no count is kept of them. Each pass but
the last adds a word to the head of a rule, and the words are made of the terminals of the rules and
are short enough. So the passes are no more than such words can be added to heads, and one. Under a
negative limit only empty rules add anything, and they all do so in the first pass.

Main statements: `Saturation.isLeast_passes_settle` (the passes go on up to the first that adds
nothing, by induction on them), `Word.length_upTo` (how many short words there are),
`Saturation.not_grew_second_pass` and `Grammar.passes_bounded_by_short_words`.
-/

namespace ContextFree

open Rewriting

/-- There are `1 + t + ... + t ^ n` words over `t` letters up to the length `n`. -/
theorem Word.length_upTo (letters : List Name) (n : Nat) :
    (Word.upTo letters n).length = ∑ i ∈ Finset.range (n + 1), letters.length ^ i := by
  induction n with
  | zero => simp [upTo]
  | succ n ih =>
    rw [upTo, List.length_cons, List.length_flatMap]
    simp only [List.length_map, List.map_const', List.sum_replicate_nat]
    rw [ih]
    exact geom_sum_succ.symm

/-- The table after so many passes, and whether the last of them added a word. Before the first pass
nothing is settled, as if a word had been added. -/
def WordTable.afterPasses (limit : Int) (rules : List Rule) (table : WordTable) : Nat → Pass
  | 0 => ⟨table, true⟩
  | k + 1 => (afterPasses limit rules table k).table.pass limit rules

/-- If the first pass added a word, the later ones go on from its table. -/
theorem WordTable.afterPasses_succ_of_grew {limit : Int} {rules : List Rule} {table : WordTable}
    (h : (table.pass limit rules).grew = true) (k : Nat) :
    table.afterPasses limit rules (k + 1) =
      (table.pass limit rules).table.afterPasses limit rules k := by
  induction k with
  | zero =>
    show table.pass limit rules = ⟨(table.pass limit rules).table, true⟩
    rw [← h]
  | succ k ih => rw [afterPasses, ih, afterPasses]

namespace Saturation

variable {limit : Int} {rules : List Rule}

/-! ## The passes that are made

The source repeats a pass as long as the one before it added a word. Here the passes are numbered,
and the number at which the recursion stops is the least one at which nothing was added. -/

/-- Passes are made up to the first that adds nothing, and its table is the answer. -/
theorem isLeast_passes_settle {table : WordTable} (fits : Fits limit rules table) :
    IsLeast {k | (table.afterPasses limit rules k).grew = false}
        (settle limit rules table fits).passes ∧
      (settle limit rules table fits).table =
        (table.afterPasses limit rules (settle limit rules table fits).passes).table := by
  fun_induction settle limit rules table fits with
  | case1 table fits pass h later ih =>
    obtain ⟨⟨hended, hfirst⟩, htable⟩ := ih
    -- The later passes start from the table of the first, so their numbers are one less.
    have hshift := WordTable.afterPasses_succ_of_grew h
    refine ⟨⟨?_, fun k hk => ?_⟩, ?_⟩
    · show (table.afterPasses limit rules (later.passes + 1)).grew = false
      rw [hshift]
      exact hended
    · cases k with
      | zero => cases hk
      | succ k =>
        have hk : (table.afterPasses limit rules (k + 1)).grew = false := hk
        rw [hshift] at hk
        exact Nat.succ_le_succ (hfirst hk)
    · rw [hshift]
      exact htable
  | case2 table fits pass h =>
    -- The first pass added nothing. Number 0 does not count as such a pass.
    refine ⟨⟨Bool.eq_false_iff.2 h, fun k hk => ?_⟩, rfl⟩
    cases k with
    | zero => cases hk
    | succ k => exact Nat.succ_le_succ (Nat.zero_le k)

/-! ## How many there can be

Each pass but the last fills an entry, that is a head with a short word. There are as many entries
as heads times short words. A negative limit leaves no short words, so for it the passes are counted
in another way. -/

/-- There is room for one entry for each head and each possible word, at most. -/
theorem room_le (table : WordTable) :
    room limit rules table ≤ (heads rules).size *
      ∑ i ∈ Finset.range (limit.toNat + 1), (letters rules).size ^ i := by
  have hentries : (entries limit rules).length =
      (heads rules).size * (possibleWords limit rules).length := by
    rw [entries, List.length_flatMap]
    simp only [List.length_map, List.map_const', List.sum_replicate_nat, SortedSet.length_toList]
  have hwords := Word.length_upTo (letters rules).toList limit.toNat
  rw [SortedSet.length_toList] at hwords
  rw [← hwords, ← possibleWords, ← hentries]
  exact List.countP_le_length

/-- Under a negative limit the second pass adds nothing: whatever a pass adds is the empty word for
the head of an empty rule, and the first pass has added that. -/
theorem not_grew_second_pass (hneg : limit < 0) {table : WordTable}
    (sound : Sound limit rules table) : (table.afterPasses limit rules 2).grew = false := by
  rw [Bool.eq_false_iff]
  intro hgrew
  obtain ⟨r, -, w, hw, hnew⟩ := WordTable.exists_new_of_pass_grew hgrew
  obtain ⟨n, body, hr, hbody, hlimit⟩ := sound.pass.pass r.head w hw
  obtain rfl : body = [] := hlimit.resolve_right (by omega)
  obtain ⟨-, rfl⟩ := yields_nil_iff.1 hbody
  have hspelled : [] ∈ Pass.spelled limit (⟨table, false⟩ : Pass).table ⟨r.head, []⟩ :=
    Pass.mem_spelled.2 ⟨.nil, .inl rfl⟩
  exact hnew (Pass.spelled_subset_foldl hr [] hspelled)

/-- The passes made from a table without words. -/
theorem passes_ofRules_le (declared : SortedSet Name) :
    (ofRules declared rules limit).passes ≤
      if 0 ≤ limit then
        1 + (heads rules).size * ∑ i ∈ Finset.range (limit.toNat + 1), (letters rules).size ^ i
      else 2 := by
  have fits := fits_ofNames limit rules (declared ∪ heads rules)
  split
  · have hroom : room limit rules (.ofNames (declared ∪ heads rules)) ≤ _ := room_le _
    -- There is no more room in a table without words than in any other.
    have hpasses := passes_settle_le fits
    unfold ofRules
    omega
  · next hneg =>
    have sound : Sound limit rules (.ofNames (declared ∪ heads rules)) := sound_ofNames _
    exact (isLeast_passes_settle fits).1.2 (not_grew_second_pass (Int.not_le.1 hneg) sound)

end Saturation

namespace Grammar

variable {g : Grammar} {rules : List Rule}

/-- Listed in any order the rules have the generators for their heads. -/
theorem heads_eq_generators (hrules : ∀ r, r ∈ rules ↔ r ∈ g.rules) :
    Saturation.heads rules = g.generators := by
  apply SortedSet.ext_mem
  intro v
  simp only [Saturation.heads, SortedSet.mem_ofList, List.mem_map, hrules, mem_generators]

/-- And the letters in their bodies are the terminals of the grammar. -/
theorem letters_eq_terminals (hrules : ∀ r, r ∈ rules ↔ r ∈ g.rules) :
    Saturation.letters rules = g.terminals := by
  apply SortedSet.ext_mem
  intro a
  simp only [Saturation.mem_letters, mem_terminals, hrules]

/-- **A word table is filled in few passes.** With the rules in any order passes are made up to the
first that adds nothing, and that there is one is bounded beforehand: by the number of words over
the terminals up to the limit, for each name that heads a rule, and one more. Under a negative limit
it is the second pass at the latest. -/
theorem passes_bounded_by_short_words (g : Grammar) (limit : Int) (rules : List Rule)
    (hrules : ∀ r, r ∈ rules ↔ r ∈ g.rules) :
    let start := WordTable.ofNames (g.nonterminals ∪ g.generators)
    let result := Saturation.ofRules g.nonterminals rules limit
    IsLeast {k | (start.afterPasses limit rules k).grew = false} result.passes ∧
      result.table = (start.afterPasses limit rules result.passes).table ∧
      result.passes ≤
        if 0 ≤ limit then
          1 + g.generators.size * ∑ i ∈ Finset.range (limit.toNat + 1), g.terminals.size ^ i
        else 2 := by
  rw [← heads_eq_generators hrules, ← letters_eq_terminals hrules]
  obtain ⟨hleast, htable⟩ := Saturation.isLeast_passes_settle
    (Saturation.fits_ofNames limit rules (g.nonterminals ∪ Saturation.heads rules))
  exact ⟨hleast, htable, Saturation.passes_ofRules_le g.nonterminals⟩

/-- A letter in front of what there is already, or nothing. -/
def lengthenedRules : List Rule :=
  [⟨.text "S", [.terminal (.text "a"), .nonterminal (.text "S")]⟩, ⟨.text "S", []⟩]

def lengthened : Grammar where
  nonterminals := ∅
  goal := .text "S"
  rules := .ofList lengthenedRules

/-- Where each pass makes the words longer by a letter only, as many passes are made as the bound
allows. -/
theorem lengthened_passes :
    (∀ r, r ∈ lengthenedRules ↔ r ∈ lengthened.rules) ∧
      (Saturation.ofRules lengthened.nonterminals lengthenedRules 1).passes = 3 ∧
      (Saturation.ofRules lengthened.nonterminals lengthenedRules (-1)).passes = 2 := by
  have hrules : ∀ r, r ∈ lengthenedRules ↔ r ∈ lengthened.rules :=
    fun r => SortedSet.mem_ofList.symm
  have hpasses := fun limit =>
    passes_bounded_by_short_words lengthened limit lengthenedRules hrules
  refine ⟨hrules, ?_, ?_⟩
  · obtain ⟨⟨hended, -⟩, -, hle⟩ := hpasses 1
    have hadded : ∀ k < 3, ((WordTable.ofNames (lengthened.nonterminals ∪
        lengthened.generators)).afterPasses 1 lengthenedRules k).grew = true := by decide +kernel
    refine Nat.le_antisymm (Nat.le_trans hle (by decide +kernel)) (Nat.le_of_not_lt fun hlt => ?_)
    exact Bool.false_ne_true (hended.symm.trans (hadded _ hlt))
  · obtain ⟨⟨hended, -⟩, -, hle⟩ := hpasses (-1)
    have hadded : ∀ k < 2, ((WordTable.ofNames (lengthened.nonterminals ∪
        lengthened.generators)).afterPasses (-1) lengthenedRules k).grew = true := by decide +kernel
    refine Nat.le_antisymm hle (Nat.le_of_not_lt fun hlt => ?_)
    exact Bool.false_ne_true (hended.symm.trans (hadded _ hlt))

end Grammar

end ContextFree
