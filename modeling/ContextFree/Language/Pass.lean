import ContextFree.Language.Table
import ContextFree.Rule

/-!
# ContextFree — passes over the rules

A pass lets each rule add to its head the words that its body spells. A rule sees the table as it
is at that moment, with what earlier rules of the same pass have added.

Main statements: `mem_wordsFor_applyRule` says which words a rule adds; words are never lost in a
pass (`subset_pass`), and a pass that grew has added a word to the head of a rule
(`exists_new_of_pass_grew`).
-/

namespace ContextFree

/-- A table in the course of a pass. -/
structure Pass where
  table : WordTable
  /-- A word was added in the pass. -/
  grew : Bool

namespace Pass

def spelled (limit : Int) (table : WordTable) (r : Rule) : SortedSet Word :=
  (table.spell limit r.body {[]}).1

/-- Adds what the rule's body spells to the words of its head. -/
def applyRule (limit : Int) (pass : Pass) (r : Rule) : Pass :=
  let (words, table) := pass.table.spell limit r.body {[]}
  let old := table.wordsFor r.head
  if words.isSubset old then { pass with table } else ⟨table.insert r.head (old ∪ words), true⟩

/-! ## One rule

A rule is applied in two steps: its body is spelled, which may list names but adds no words, and
then the words are added to those of the head unless they are all there. What later modules need of
both steps is in the two lemmas here. -/

/-- A rule adds what its body spells, and only to its own head. Where it spells nothing new the
table stays as it is but for the names that were looked up. -/
theorem mem_wordsFor_applyRule {limit : Int} {pass : Pass} {r : Rule} {v : Name} {w : Word} :
    w ∈ (pass.applyRule limit r).table.wordsFor v ↔
      w ∈ pass.table.wordsFor v ∨ v = r.head ∧ w ∈ spelled limit pass.table r := by
  unfold applyRule
  dsimp only
  split
  · next h =>
    -- All that was spelled is there already.
    rw [SortedSet.isSubset_iff, WordTable.wordsFor_spell] at h
    rw [WordTable.wordsFor_spell]
    refine ⟨.inl, ?_⟩
    rintro (hw | ⟨rfl, hw⟩)
    · exact hw
    · exact h w hw
  · -- The entry of the head is written anew, and what was spelled is added to its old words.
    rw [WordTable.wordsFor_insert]
    split
    · next h =>
      subst h
      rw [SortedSet.mem_union, WordTable.wordsFor_spell]
      simp [spelled]
    · next h =>
      rw [WordTable.wordsFor_spell]
      simp [Ne.symm h]

/-- A pass counts as grown if it did so before, or if the rule spells a word that its head does not
have. -/
theorem grew_applyRule {limit : Int} {pass : Pass} {r : Rule} :
    (pass.applyRule limit r).grew = true ↔
      pass.grew = true ∨ ¬ spelled limit pass.table r ⊆ pass.table.wordsFor r.head := by
  unfold applyRule
  dsimp only
  rw [WordTable.wordsFor_spell]
  split <;> simp_all [spelled]

/-! ## Many rules

A pass goes through the rules with the table of the rule before, so statements about it are proved
for any pass to start from and by induction on the rules that are left. -/

/-- No rule takes a word away. Induction on the rules. -/
theorem subset_foldl {limit : Int} (rules : List Rule) (pass : Pass) (v : Name) :
    pass.table.wordsFor v ⊆ (rules.foldl (applyRule limit) pass).table.wordsFor v := by
  induction rules generalizing pass with
  | nil => exact fun _ hw => hw
  | cons r rules ih => exact fun w hw => ih _ w (mem_wordsFor_applyRule.2 (.inl hw))

/-- A pass that grew can point to a word that is there now and was not at the start. Induction on
the rules: the word stays there through those that follow. -/
theorem exists_new_of_foldl_grew {limit : Int} {rules : List Rule} {pass : Pass}
    (h : (rules.foldl (applyRule limit) pass).grew = true) :
    pass.grew = true ∨ ∃ r ∈ rules,
      ∃ w ∈ (rules.foldl (applyRule limit) pass).table.wordsFor r.head,
        w ∉ pass.table.wordsFor r.head := by
  induction rules generalizing pass with
  | nil => exact .inl h
  | cons r rules ih =>
    -- Either the rules behind this one can point to a word, or the pass had grown before them.
    rcases ih h with h | ⟨r', hr', w, hw, hn⟩
    · rcases grew_applyRule.1 h with h | h
      · exact .inl h
      · obtain ⟨w, hw, hn⟩ : ∃ w ∈ spelled limit pass.table r, w ∉ pass.table.wordsFor r.head := by
          simpa [SortedSet.subset_def] using h
        have hw : w ∈ (pass.applyRule limit r).table.wordsFor r.head :=
          mem_wordsFor_applyRule.2 (.inr ⟨rfl, hw⟩)
        exact .inr ⟨r, .head _, w, subset_foldl rules _ _ w hw, hn⟩
    · exact .inr ⟨r', .tail _ hr', w, hw, fun h => hn (mem_wordsFor_applyRule.2 (.inl h))⟩

end Pass

namespace WordTable

def pass (limit : Int) (rules : List Rule) (table : WordTable) : Pass :=
  rules.foldl (Pass.applyRule limit) ⟨table, false⟩

theorem subset_pass {limit : Int} {rules : List Rule} {table : WordTable} (v : Name) :
    table.wordsFor v ⊆ (table.pass limit rules).table.wordsFor v :=
  Pass.subset_foldl rules ⟨table, false⟩ v

/-- A whole pass starts without having grown, so there is a new word if it did. -/
theorem exists_new_of_pass_grew {limit : Int} {rules : List Rule} {table : WordTable}
    (h : (table.pass limit rules).grew = true) :
    ∃ r ∈ rules, ∃ w ∈ (table.pass limit rules).table.wordsFor r.head,
      w ∉ table.wordsFor r.head :=
  (Pass.exists_new_of_foldl_grew h).resolve_left Bool.false_ne_true

end WordTable

end ContextFree
