import ContextFree.Language.Saturation
import ContextFree.Proofs.Yield

/-!
# ContextFree — the word table is exact

A table spells a word along a form when it has a word for each symbol and these words in a row are
the word. Cutting off what is too long on the way loses nothing, since a beginning is never longer
than the whole. Passes only add words that the rules yield, and after a pass that added nothing
every short enough word that a body spells is there for the head already.

Main statements: `WordTable.mem_spell` (what is put together along a form), `sound_settle` and
`saturated_settle` (the two inclusions, each by induction over the passes),
`Saturation.mem_wordsFor_ofRules` (the words found are those that some body yields) and
`Grammar.derivedWords_lists_generated_words`. The order of the rules and the declared names make no
difference.
-/

namespace ContextFree

open Rewriting

namespace WordTable

/-! ## Spelling a form

The source puts words together from left to right, and cuts off what is too long after each symbol.
In between, it looks up names, which changes the table but none of its words. Without the cutting,
and without an order, that is a relation between a form and a word. -/

/-- The word is made of words that the table has for the symbols of the form, one for each. -/
inductive Spells (table : WordTable) : Form → Word → Prop
  | nil : Spells table [] []
  | cons {s : Symbol} {rest : Form} {u w : Word} (hu : u ∈ table.wordsOf s)
    (hw : Spells table rest w) : Spells table (s :: rest) (u ++ w)

variable {limit : Int} {table table' : WordTable}

/-- With more words for the symbols a form spells no less. -/
theorem Spells.of_subset (hsub : ∀ s, table.wordsOf s ⊆ table'.wordsOf s) {form : Form} {w : Word}
    (h : table.Spells form w) : table'.Spells form w := by
  induction h with
  | nil => exact .nil
  | cons hu _ ih => exact .cons (hsub _ _ hu) ih

/-- A terminal has its one word in every table, so only the nonterminals need to be compared. -/
theorem wordsOf_subset_of_wordsFor (hsub : ∀ v, table.wordsFor v ⊆ table'.wordsFor v) (s : Symbol) :
    table.wordsOf s ⊆ table'.wordsOf s := by
  cases s with
  | terminal v => exact fun _ h => h
  | nonterminal v => exact hsub v

/-- Looking a name up lists it, but adds no word. -/
theorem spells_lookedUp {s : Symbol} {form : Form} {w : Word} :
    (table.lookedUp s).Spells form w ↔ table.Spells form w := by
  constructor <;> apply Spells.of_subset <;> intro t u hu
  · rwa [wordsOf_lookedUp] at hu
  · rwa [wordsOf_lookedUp]

/-- What is made along a symbol and then along the rest is made along both, since a beginning is
never longer than the whole word. -/
theorem exists_concat_iff {s : Symbol} {rest : Form} {made : SortedSet Word} {w : Word} :
    (∃ u ∈ Word.concat limit made (table.wordsOf s), ∃ v, table.Spells rest v ∧ u ++ v = w ∧
        (rest = [] ∨ (w.length : Int) ≤ limit)) ↔
      ∃ u ∈ made, ∃ v, table.Spells (s :: rest) v ∧ u ++ v = w ∧ (w.length : Int) ≤ limit := by
  constructor
  · rintro ⟨_, hu, v, hv, rfl, hlimit⟩
    obtain ⟨u, hmade, x, hx, rfl, hshort⟩ := Word.mem_concat.1 hu
    refine ⟨u, hmade, x ++ v, .cons hx hv, (List.append_assoc u x v).symm, ?_⟩
    rcases hlimit with rfl | hlimit
    · cases hv
      rwa [List.append_nil]
    · exact hlimit
  · rintro ⟨u, hu, _, hv, rfl, hlimit⟩
    cases hv with
    | @cons _ _ x v hx hv =>
      -- The beginning `u ++ x` is not cut off.
      have hshort : ((u ++ x).length : Int) ≤ limit := by
        simp only [List.length_append] at hlimit ⊢
        omega
      exact ⟨u ++ x, Word.mem_concat.2 ⟨u, hu, x, hx, rfl, hshort⟩, v, hv,
        List.append_assoc u x v, .inr hlimit⟩

/-- The words spelled are the words made so far, each followed by a word spelled along the form.
A word is dropped only if it is too long in the end. -/
theorem mem_spell {form : Form} {made : SortedSet Word} {w : Word} :
    w ∈ (spell limit form made table).1 ↔ ∃ u ∈ made, ∃ v, table.Spells form v ∧ u ++ v = w ∧
      (form = [] ∨ (w.length : Int) ≤ limit) := by
  induction form generalizing made table with
  | nil =>
    constructor
    · exact fun h => ⟨w, h, [], .nil, List.append_nil w, .inl rfl⟩
    · rintro ⟨u, hu, v, ⟨⟩, rfl, _⟩
      rwa [List.append_nil]
  | cons s rest ih =>
    unfold spell
    dsimp only
    simp only [reduceCtorEq, false_or, ← exists_concat_iff]
    -- Where nothing short enough was made, nothing can be made of the rest.
    split
    · next hempty =>
      rw [SortedSet.isEmpty_iff] at hempty
      rw [hempty]
      simp
    · rw [ih]
      simp only [spells_lookedUp]

end WordTable

namespace Pass

variable {limit : Int}

/-- What a rule spells, without the words made so far: a body starts from the empty word. -/
theorem mem_spelled {table : WordTable} {r : Rule} {w : Word} :
    w ∈ spelled limit table r ↔
      table.Spells r.body w ∧ (r.body = [] ∨ (w.length : Int) ≤ limit) := by
  unfold spelled
  rw [WordTable.mem_spell]
  constructor
  · rintro ⟨u, hu, v, hv, rfl, hlimit⟩
    obtain rfl : u = [] := SortedSet.mem_singleton.1 hu
    exact ⟨hv, hlimit⟩
  · rintro ⟨hw, hlimit⟩
    exact ⟨[], SortedSet.mem_singleton.2 rfl, w, hw, List.nil_append w, hlimit⟩

/-- With more words in the table a rule spells no less. -/
theorem spelled_mono {table table' : WordTable}
    (hsub : ∀ v, table.wordsFor v ⊆ table'.wordsFor v) (r : Rule) :
    spelled limit table r ⊆ spelled limit table' r := by
  intro w hw
  obtain ⟨hspells, hlimit⟩ := mem_spelled.1 hw
  refine mem_spelled.2 ⟨hspells.of_subset ?_, hlimit⟩
  exact WordTable.wordsOf_subset_of_wordsFor hsub

/-- Every rule of a pass adds at least what it spells at the start. -/
theorem spelled_subset_foldl {rules : List Rule} {pass : Pass} {r : Rule} (hr : r ∈ rules) :
    spelled limit pass.table r ⊆ (rules.foldl (applyRule limit) pass).table.wordsFor r.head := by
  induction rules generalizing pass with
  | nil => exact absurd hr List.not_mem_nil
  | cons first rules ih =>
    intro w hw
    rcases List.mem_cons.1 hr with rfl | hr
    · exact subset_foldl rules _ _ w (mem_wordsFor_applyRule.2 (.inr ⟨rfl, hw⟩))
    · have hsub : ∀ v, pass.table.wordsFor v ⊆ (pass.applyRule limit first).table.wordsFor v :=
        fun v u hu => mem_wordsFor_applyRule.2 (.inl hu)
      exact ih hr w (spelled_mono hsub r w hw)

/-! ## A pass that adds nothing

Rules are applied in turn, and each of them works on the table that those before it have left. If
the flag is down in the end it was never up, so all of them worked on the words that there were at
the start. -/

/-- If rules added nothing in turn, they changed no words, so each of them saw the words that there
were at the start. -/
theorem foldl_eq_of_not_grew {rules : List Rule} {pass : Pass}
    (h : (rules.foldl (applyRule limit) pass).grew = false) :
    (∀ v, (rules.foldl (applyRule limit) pass).table.wordsFor v = pass.table.wordsFor v) ∧
      pass.grew = false ∧ ∀ r ∈ rules, spelled limit pass.table r ⊆ pass.table.wordsFor r.head := by
  induction rules generalizing pass with
  | nil => exact ⟨fun _ => rfl, h, fun _ hr => absurd hr List.not_mem_nil⟩
  | cons r rules ih =>
    obtain ⟨hsame, hgrew, hrest⟩ := ih h
    -- The flag never goes down, so it was not up after this rule.
    have hnot :
        ¬ (pass.grew = true ∨ ¬ spelled limit pass.table r ⊆ pass.table.wordsFor r.head) := by
      rw [← grew_applyRule, hgrew]
      exact Bool.false_ne_true
    rw [not_or, Classical.not_not, Bool.not_eq_true] at hnot
    -- What the rule spelled was there, so no words have changed so far.
    have hwords : ∀ v, (pass.applyRule limit r).table.wordsFor v = pass.table.wordsFor v := by
      intro v
      apply SortedSet.ext_mem
      intro w
      rw [mem_wordsFor_applyRule]
      refine or_iff_left_of_imp ?_
      rintro ⟨rfl, hw⟩
      exact hnot.2 w hw
    refine ⟨fun v => (hsame v).trans (hwords v), hnot.1, fun r' hr' w hw => ?_⟩
    rcases List.mem_cons.1 hr' with rfl | hr'
    · exact hnot.2 w hw
    · have hsub : ∀ v, pass.table.wordsFor v ⊆ (pass.applyRule limit r).table.wordsFor v :=
        fun v => SortedSet.subset_of_eq (hwords v).symm
      rw [← hwords]
      exact hrest r' hr' w (spelled_mono hsub r' w hw)

end Pass

namespace Saturation

variable {limit : Int} {rules : List Rule}

/-- A body of the name yields the word, which is not too long unless the body is empty. -/
def Makes (limit : Int) (rules : List Rule) (v : Name) (w : Word) : Prop :=
  ∃ n body, ⟨v, body⟩ ∈ rules ∧ Yields rules n body w ∧ (body = [] ∨ (w.length : Int) ≤ limit)

/-! ## Nothing else is found

Soundness is an invariant of every single rule, so it holds however many passes there are. -/

/-- The table has only words that the rules make. -/
def Sound (limit : Int) (rules : List Rule) (table : WordTable) : Prop :=
  ∀ v, ∀ w ∈ table.wordsFor v, Makes limit rules v w

/-- What a sound table spells along a form is yielded by the form. -/
theorem Sound.exists_yields {table : WordTable} (sound : Sound limit rules table) {form : Form}
    {w : Word} (h : table.Spells form w) : ∃ n, Yields rules n form w := by
  induction h with
  | nil => exact ⟨0, .nil⟩
  | @cons s rest u w hu _ ih =>
    obtain ⟨n, hn⟩ := ih
    -- A terminal is its own word, and a word of a nonterminal was made by one of its bodies.
    cases s with
    | terminal v =>
      obtain rfl : u = [v] := SortedSet.mem_singleton.1 hu
      exact ⟨n, .terminal v hn⟩
    | nonterminal v =>
      obtain ⟨m, body, hr, hbody, _⟩ := sound v u hu
      exact ⟨m + n + 1, .nonterminal hr hbody hn⟩

/-- One rule keeps a table sound. -/
theorem Sound.applyRule {pass : Pass} (sound : Sound limit rules pass.table) {r : Rule}
    (hr : r ∈ rules) : Sound limit rules (pass.applyRule limit r).table := by
  intro v w hw
  rcases Pass.mem_wordsFor_applyRule.1 hw with hold | ⟨rfl, hspelled⟩
  · exact sound v w hold
  · obtain ⟨hspells, hlimit⟩ := Pass.mem_spelled.1 hspelled
    obtain ⟨n, hn⟩ := sound.exists_yields hspells
    exact ⟨n, r.body, hr, hn, hlimit⟩

theorem Sound.foldl {applied : List Rule} (happlied : ∀ r ∈ applied, r ∈ rules) {pass : Pass}
    (sound : Sound limit rules pass.table) :
    Sound limit rules (applied.foldl (Pass.applyRule limit) pass).table := by
  induction applied generalizing pass with
  | nil => exact sound
  | cons r applied ih =>
    have hr := happlied r (List.mem_cons_self ..)
    exact ih (fun r' hr' => happlied r' (List.mem_cons_of_mem r hr')) (sound.applyRule hr)

theorem Sound.pass {table : WordTable} (sound : Sound limit rules table) :
    Sound limit rules (table.pass limit rules).table := by
  have hstart : Sound limit rules (⟨table, false⟩ : Pass).table := sound
  exact hstart.foldl fun _ hr => hr

/-- A table without words is sound, whatever names it lists. -/
theorem sound_ofNames (names : SortedSet Name) : Sound limit rules (.ofNames names) := by
  intro v w hw
  rw [WordTable.wordsFor_ofNames] at hw
  exact absurd hw (SortedSet.not_mem_empty w)

/-- However many passes are made, the table is still sound. -/
theorem sound_settle {table : WordTable} (fits : Fits limit rules table)
    (sound : Sound limit rules table) :
    Sound limit rules (settle limit rules table fits).table := by
  fun_induction settle limit rules table fits with
  | case1 table fits pass h later ih => exact ih sound.pass
  | case2 table fits pass h => exact sound.pass

/-! ## Nothing is missed

Completeness comes of the last pass alone. It needs no invariant, only that the passes end with one
that added nothing. -/

/-- Every short enough word that a body spells is there for the head. -/
def Saturated (limit : Int) (rules : List Rule) (table : WordTable) : Prop :=
  ∀ r ∈ rules, ∀ w, table.Spells r.body w → (r.body = [] ∨ (w.length : Int) ≤ limit) →
    w ∈ table.wordsFor r.head

/-- A pass that adds nothing leaves a saturated table. While it ran no word was new, so each rule
had all the words of the table to spell with. -/
theorem saturated_of_not_grew {table : WordTable} (h : (table.pass limit rules).grew = false) :
    Saturated limit rules (table.pass limit rules).table := by
  obtain ⟨hsame, -, hspelled⟩ := Pass.foldl_eq_of_not_grew h
  intro r hr w hw hlimit
  have hw : table.Spells r.body w := by
    apply hw.of_subset
    apply WordTable.wordsOf_subset_of_wordsFor
    exact fun v => SortedSet.subset_of_eq (hsame v)
  rw [show (table.pass limit rules).table.wordsFor r.head = _ from hsame r.head]
  exact hspelled r hr w (Pass.mem_spelled.2 ⟨hw, hlimit⟩)

theorem saturated_settle {table : WordTable} (fits : Fits limit rules table) :
    Saturated limit rules (settle limit rules table fits).table := by
  fun_induction settle limit rules table fits with
  | case1 table fits pass h later ih => exact ih
  | case2 table fits pass h =>
    -- This is the last pass, which added nothing.
    exact saturated_of_not_grew (Bool.not_eq_true _ ▸ h)

/-- A saturated table spells every yield that is short enough. -/
theorem Saturated.spells {table : WordTable} (saturated : Saturated limit rules table) {n : Nat}
    {form : Form} {w : Word} (h : Yields rules n form w) (hlimit : (w.length : Int) ≤ limit) :
    table.Spells form w := by
  induction h with
  | nil => exact .nil
  | @terminal a n rest w _ ih =>
    have hrest : (w.length : Int) ≤ limit := by
      rw [List.length_cons] at hlimit
      omega
    exact .cons (s := .terminal a) (SortedSet.mem_singleton.2 rfl) (ih hrest)
  | @nonterminal _ _ v body rest u x hr _ _ ihbody ihrest =>
    -- The words of the parts are no longer than the whole.
    rw [List.length_append] at hlimit
    have hbody : (u.length : Int) ≤ limit := by omega
    have hrest : (x.length : Int) ≤ limit := by omega
    exact .cons (s := .nonterminal v) (saturated _ hr u (ihbody hbody) (.inr hbody)) (ihrest hrest)

/-! ## The words found

Both inclusions hold with the rules in any order, so the order makes no difference to the words. -/

/-- The words found for a name are those that its bodies yield within the limit. -/
theorem mem_wordsFor_ofRules {declared : SortedSet Name} {v : Name} {w : Word} :
    w ∈ (ofRules declared rules limit).table.wordsFor v ↔ Makes limit rules v w := by
  refine ⟨sound_settle (fits_ofNames limit rules _) (sound_ofNames _) v w, ?_⟩
  rintro ⟨n, body, hr, hbody, hlimit⟩
  have saturated := saturated_settle (fits_ofNames limit rules (declared ∪ heads rules))
  refine saturated ⟨v, body⟩ hr w ?_ hlimit
  rcases hlimit with rfl | hlimit
  · obtain ⟨-, rfl⟩ := yields_nil_iff.1 hbody
    exact .nil
  · exact saturated.spells hbody hlimit

end Saturation

namespace Grammar

variable {g : Grammar} {w : Word}

/-- What the rules make in any order are the short words that a name generates. A negative limit
leaves the empty word, and only for the heads of empty rules. -/
theorem makes_iff {rules : List Rule} (hrules : ∀ r, r ∈ rules ↔ r ∈ g.rules) {limit : Int}
    {v : Name} :
    Saturation.Makes limit rules v w ↔
      if 0 ≤ limit then (w.length : Int) ≤ limit ∧ g.Generates v w
      else w = [] ∧ ⟨v, []⟩ ∈ g.rules := by
  unfold Saturation.Makes
  split
  · next hlimit =>
    rw [generates_iff hrules]
    constructor
    · rintro ⟨n, body, hr, hbody, hshort⟩
      refine ⟨?_, n, body, hr, hbody⟩
      -- The word of an empty body is within any limit that is not negative.
      rcases hshort with rfl | hshort
      · obtain ⟨-, rfl⟩ := yields_nil_iff.1 hbody
        exact hlimit
      · exact hshort
    · rintro ⟨hshort, n, body, hr, hbody⟩
      exact ⟨n, body, hr, hbody, .inr hshort⟩
  · next hneg =>
    constructor
    · rintro ⟨n, body, hr, hbody, hshort⟩
      obtain rfl : body = [] := hshort.resolve_right (by omega)
      exact ⟨(yields_nil_iff.1 hbody).2, (hrules _).1 hr⟩
    · rintro ⟨rfl, hr⟩
      exact ⟨0, [], (hrules _).2 hr, .nil, .inl rfl⟩

theorem mem_wordsFor_ofRules_iff {rules : List Rule} (hrules : ∀ r, r ∈ rules ↔ r ∈ g.rules)
    (declared : SortedSet Name) {limit : Int} {v : Name} :
    w ∈ (Saturation.ofRules declared rules limit).table.wordsFor v ↔
      if 0 ≤ limit then (w.length : Int) ≤ limit ∧ g.Generates v w
      else w = [] ∧ ⟨v, []⟩ ∈ g.rules :=
  Saturation.mem_wordsFor_ofRules.trans (makes_iff hrules)

/-- With a limit the language has the words up to that length that the goal generates. -/
theorem mem_language {n : Nat} : w ∈ g.language n ↔ w.length ≤ n ∧ g.Generates g.goal w := by
  unfold language derivedWords
  rw [mem_wordsFor_ofRules_iff (fun r => SortedSet.mem_toList), if_pos (Int.natCast_nonneg n),
    Int.ofNat_le]

/-- With a negative limit only an empty rule of the goal leaves a word. -/
theorem mem_language_of_neg {limit : Int} (hneg : limit < 0) :
    w ∈ g.language limit ↔ w = [] ∧ ⟨g.goal, []⟩ ∈ g.rules := by
  unfold language derivedWords
  rw [mem_wordsFor_ofRules_iff (fun r => SortedSet.mem_toList), if_neg (by omega)]

/-- **The word table is exact.** With the rules in any order the words listed for a name are those
up to the limit that it generates; under a negative limit they are the empty word for the head of an
empty rule, and none otherwise. The language is what is listed for the goal, if anything is. -/
theorem derivedWords_lists_generated_words (g : Grammar) (limit : Int) (rules : List Rule)
    (hrules : ∀ r, r ∈ rules ↔ r ∈ g.rules) :
    (∀ v words, (Saturation.ofRules g.nonterminals rules limit).table[v]? = some words →
      ∀ w, w ∈ words ↔
        if 0 ≤ limit then (w.length : Int) ≤ limit ∧ g.Generates v w
        else w = [] ∧ ⟨v, []⟩ ∈ g.rules) ∧
      g.language limit =
        (Saturation.ofRules g.nonterminals rules limit).table[g.goal]?.getD ∅ := by
  constructor
  · intro v words hwords w
    rw [← mem_wordsFor_ofRules_iff hrules g.nonterminals, WordTable.wordsFor_eq, hwords,
      Option.getD_some]
  · rw [← WordTable.wordsFor_eq]
    apply SortedSet.ext_mem
    intro w
    rw [mem_wordsFor_ofRules_iff hrules]
    exact mem_wordsFor_ofRules_iff (fun r => SortedSet.mem_toList) g.nonterminals

/-- A letter repeated any number of times, by a rule that starts with its own head. -/
def repeatedLetterRules : List Rule :=
  [⟨.text "S", [.nonterminal (.text "S"), .terminal (.text "a")]⟩, ⟨.text "S", []⟩]

/-- The grammar of these rules. -/
def repeatedLetter : Grammar where
  nonterminals := ∅
  goal := .text "S"
  rules := .ofList repeatedLetterRules

/-- The goal is put in front of one letter after another, and then goes away. -/
theorem repeatedLetter_generates (n : Nat) :
    repeatedLetter.Generates repeatedLetter.goal (List.replicate n (.text "a")) := by
  have hlisted : ∀ r, r ∈ repeatedLetterRules ↔ r ∈ repeatedLetter.rules :=
    fun r => SortedSet.mem_ofList.symm
  have hmore : Step repeatedLetterRules [.nonterminal (.text "S")]
      [.nonterminal (.text "S"), .terminal (.text "a")] := Step.of_rule (by decide)
  have hstop : Step repeatedLetterRules [.nonterminal (.text "S")] [] := Step.of_rule (by decide)
  rw [← derives_iff_generates hlisted]
  induction n with
  | zero => exact ⟨1, .succ hstop (.zero _)⟩
  | succ n ih =>
    obtain ⟨m, hsteps⟩ := ih
    rw [List.replicate_succ', Word.toForm_append]
    exact ⟨m + 1, .succ hmore (hsteps.append_right [.terminal (.text "a")])⟩

/-- With the limit 2, and the rules tried from the last to the first, the goal is listed with the
word of two letters and not with that of three. -/
theorem repeatedLetter_listed :
    (∀ r, r ∈ repeatedLetterRules.reverse ↔ r ∈ repeatedLetter.rules) ∧
      ∃ words, (Saturation.ofRules repeatedLetter.nonterminals repeatedLetterRules.reverse 2).table[
          repeatedLetter.goal]? = some words ∧
        [.text "a", .text "a"] ∈ words ∧ [.text "a", .text "a", .text "a"] ∉ words := by
  have hrules : ∀ r, r ∈ repeatedLetterRules.reverse ↔ r ∈ repeatedLetter.rules :=
    fun r => List.mem_reverse.trans SortedSet.mem_ofList.symm
  obtain ⟨hlisted, hlanguage⟩ :=
    derivedWords_lists_generated_words repeatedLetter 2 repeatedLetterRules.reverse hrules
  have htwo : [.text "a", .text "a"] ∈ repeatedLetter.language 2 :=
    mem_language.2 ⟨Nat.le_refl 2, repeatedLetter_generates 2⟩
  rw [hlanguage] at htwo
  refine ⟨hrules, ?_⟩
  cases htable :
      (Saturation.ofRules repeatedLetter.nonterminals repeatedLetterRules.reverse 2).table[
        repeatedLetter.goal]? with
  | none =>
    rw [htable] at htwo
    exact absurd htwo (SortedSet.not_mem_empty _)
  | some words =>
    rw [htable] at htwo
    refine ⟨words, rfl, htwo, fun hthree => ?_⟩
    rw [hlisted _ _ htable] at hthree
    exact absurd hthree.1 (by decide)

end Grammar

end ContextFree
