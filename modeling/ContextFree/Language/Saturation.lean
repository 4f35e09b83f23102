import ContextFree.Grammar.Basic
import ContextFree.Language.Pass

/-!
# ContextFree — the words of a grammar up to a length

Passes over the rules fill a word table until one adds nothing. Whatever the rules, this comes to
an end: a word in the table is made of the terminals of the rules and is not too long, so there are
finitely many, and every pass but the last adds one of them to the head of a rule. How many there
could be is never computed, since a generous limit makes the number astronomical.

Main statements: `Saturation.room_lt_of_grew` — a pass that grew leaves less room — and
`Saturation.passes_settle_le`, which bounds the number of passes by the room there is.
-/

namespace ContextFree

/-- The words over some letters up to a length. -/
def Word.upTo (letters : List Name) : Nat → List Word
  | 0 => [[]]
  | n + 1 => [] :: letters.flatMap fun a => (upTo letters n).map (a :: ·)

/-- The list has every word over the letters that is short enough, and no other. Induction on the
length. -/
theorem Word.mem_upTo {letters : List Name} {n : Nat} {w : Word} :
    w ∈ Word.upTo letters n ↔ w.length ≤ n ∧ ∀ a ∈ w, a ∈ letters := by
  induction n generalizing w with
  | zero => cases w <;> simp [upTo]
  | succ n ih =>
    cases w with
    | nil => simp [upTo]
    | cons a w =>
      simp only [upTo, List.mem_cons, reduceCtorEq, false_or, List.mem_flatMap, List.mem_map, ih,
        List.cons.injEq, List.length_cons, Nat.add_le_add_iff_right, forall_eq_or_imp]
      constructor
      · rintro ⟨b, hb, u, ⟨hu, hletters⟩, rfl, rfl⟩
        exact ⟨hu, hb, hletters⟩
      · rintro ⟨hw, ha, hletters⟩
        exact ⟨a, ha, w, ⟨hw, hletters⟩, rfl, rfl⟩

/-- What repeated passes lead to. -/
structure Saturation where
  table : WordTable
  /-- The number of passes made, the last of which added nothing. -/
  passes : Nat

namespace Saturation

def heads (rules : List Rule) : SortedSet Name :=
  .ofList (rules.map Rule.head)

def letters (rules : List Rule) : SortedSet Name :=
  .ofList (rules.flatMap fun r => r.body.filterMap Symbol.terminal?)

/-- The words that rules could make. With a negative limit only the empty word is left. -/
def possibleWords (limit : Int) (rules : List Rule) : List Word :=
  Word.upTo (letters rules).toList limit.toNat

/-- The table holds no other words than rules could make. -/
def Fits (limit : Int) (rules : List Rule) (table : WordTable) : Prop :=
  ∀ v, ∀ w ∈ table.wordsFor v, w ∈ possibleWords limit rules

/-! ## Passes keep to the possible words

`Fits` is the invariant that makes the table finite: it holds of the table that is started from, one
rule keeps it, and so does a pass. -/

theorem mem_letters {rules : List Rule} {a : Name} :
    a ∈ letters rules ↔ ∃ r ∈ rules, .terminal a ∈ r.body := by
  simp [letters]

/-- A word is possible if it is short enough and made of letters of the rules. -/
theorem mem_possibleWords {limit : Int} {rules : List Rule} {w : Word} :
    w ∈ possibleWords limit rules ↔ w.length ≤ limit.toNat ∧ ∀ a ∈ w, a ∈ letters rules := by
  simp only [possibleWords, Word.mem_upTo, SortedSet.mem_toList]

/-- The empty word is possible whatever the limit is, since an empty rule makes it without a look at
the limit. -/
theorem nil_mem_possibleWords (limit : Int) (rules : List Rule) :
    [] ∈ possibleWords limit rules :=
  mem_possibleWords.2 ⟨Nat.zero_le _, by simp⟩

/-- A possible word may be continued by letters of the rules as long as the limit allows it. -/
theorem append_mem_possibleWords {limit : Int} {rules : List Rule} {u v : Word}
    (hu : u ∈ possibleWords limit rules) (hv : ∀ a ∈ v, a ∈ letters rules)
    (hlimit : ((u ++ v).length : Int) ≤ limit) : u ++ v ∈ possibleWords limit rules := by
  refine mem_possibleWords.2 ⟨by omega, fun a ha => ?_⟩
  exact (List.mem_append.1 ha).elim ((mem_possibleWords.1 hu).2 a) (hv a)

/-- What a symbol of a rule stands for is made of letters of the rules: a terminal is one itself,
and a nonterminal stands for words of the table. -/
theorem Fits.mem_letters_of_mem_wordsOf {limit : Int} {rules : List Rule} {table : WordTable}
    (fits : Fits limit rules table) {r : Rule} (hr : r ∈ rules) {s : Symbol} (hs : s ∈ r.body)
    {w : Word} (hw : w ∈ table.wordsOf s) : ∀ a ∈ w, a ∈ letters rules := by
  cases s with
  | terminal v =>
    rw [WordTable.wordsOf, SortedSet.mem_singleton] at hw
    subst hw
    intro a ha
    rw [List.mem_singleton.1 ha]
    exact mem_letters.2 ⟨r, hr, hs⟩
  | nonterminal v => exact (mem_possibleWords.1 (fits v w hw)).2

/-- A rule adds possible words only. By `forall_mem_spell`, which takes this along the body. -/
theorem Fits.applyRule {limit : Int} {rules : List Rule} {pass : Pass}
    (fits : Fits limit rules pass.table) {r : Rule} (hr : r ∈ rules) :
    Fits limit rules (pass.applyRule limit r).table := by
  intro v w hw
  rcases Pass.mem_wordsFor_applyRule.1 hw with hw | ⟨_, hw⟩
  · exact fits v w hw
  · refine WordTable.forall_mem_spell (P := (· ∈ possibleWords limit rules)) ?_ ?_ w hw
    · intro u hu
      rw [SortedSet.mem_singleton.1 hu]
      exact nil_mem_possibleWords limit rules
    · rintro u v hu ⟨s, hs, hv⟩ hlimit
      exact append_mem_possibleWords hu (fits.mem_letters_of_mem_wordsOf hr hs hv) hlimit

/-- A pass adds possible words only, since none of its rules adds others. -/
theorem Fits.pass {limit : Int} {rules : List Rule} {table : WordTable}
    (fits : Fits limit rules table) : Fits limit rules (table.pass limit rules).table := by
  -- For any pass to start from, since each rule goes on from the table of the one before.
  have key : ∀ (some : List Rule) (pass : Pass), (∀ r ∈ some, r ∈ rules) →
      Fits limit rules pass.table →
      Fits limit rules (some.foldl (Pass.applyRule limit) pass).table := by
    intro some
    induction some with
    | nil => exact fun _ _ fits => fits
    | cons r some ih =>
      exact fun pass hsome fits =>
        ih _ (fun r hr => hsome r (.tail _ hr)) (fits.applyRule (hsome r (.head _)))
  exact key rules ⟨table, false⟩ (fun _ hr => hr) fits

/-- A table without words has no word that is not possible. -/
theorem fits_ofNames (limit : Int) (rules : List Rule) (names : SortedSet Name) :
    Fits limit rules (.ofNames names) := by
  intro v w hw
  rw [WordTable.wordsFor_ofNames] at hw
  exact absurd hw (SortedSet.not_mem_empty w)

/-! ## The room left

The room is the number of entries, that is, of heads with a possible word, that the table does not
have yet. It is a measure for proofs only; no computation counts the possible words. -/

/-- Every word that could be added to the head of some rule. -/
def entries (limit : Int) (rules : List Rule) : List (Name × Word) :=
  (heads rules).toList.flatMap fun v => (possibleWords limit rules).map (v, ·)

def room (limit : Int) (rules : List Rule) (table : WordTable) : Nat :=
  (entries limit rules).countP fun (v, w) => w ∉ table.wordsFor v

theorem mem_entries {limit : Int} {rules : List Rule} {v : Name} {w : Word} :
    (v, w) ∈ entries limit rules ↔ (∃ r ∈ rules, r.head = v) ∧ w ∈ possibleWords limit rules := by
  simp [entries, heads, SortedSet.mem_toList]

theorem countP_lt_of_imp {α : Type} {p q : α → Bool} {l : List α}
    (himp : ∀ a ∈ l, p a = true → q a = true) {a : α} (ha : a ∈ l) (hp : p a = false)
    (hq : q a = true) : l.countP p < l.countP q := by
  induction l with
  | nil => simp at ha
  | cons b l ih =>
    have hle : l.countP p ≤ l.countP q := List.countP_mono_left fun c hc => himp c (.tail _ hc)
    rw [List.countP_cons, List.countP_cons]
    rcases List.mem_cons.1 ha with rfl | ha
    · simp only [hp, hq, if_true, Bool.false_eq_true, if_false]
      omega
    · -- There is one less further on already, and `b` cannot make up for it.
      have hlt := ih (fun c hc => himp c (.tail _ hc)) ha
      have hb := himp b (.head _)
      split <;> split <;> grind

/-- A pass that grew fills an entry and empties none, so it leaves less room. This is why passes
come to an end. -/
theorem room_lt_of_grew {limit : Int} {rules : List Rule} {table : WordTable}
    (fits : Fits limit rules table) (h : (table.pass limit rules).grew = true) :
    room limit rules (table.pass limit rules).table < room limit rules table := by
  obtain ⟨r, hr, w, hw, hn⟩ := WordTable.exists_new_of_pass_grew h
  refine countP_lt_of_imp (a := (r.head, w)) ?_ ?_ ?_ ?_
  · rintro ⟨v, u⟩ _ hu
    simp only [decide_eq_true_eq] at hu ⊢
    exact fun h => hu (WordTable.subset_pass v u h)
  · exact mem_entries.2 ⟨⟨r, hr, rfl⟩, fits.pass _ w hw⟩
  · simpa using hw
  · simpa using hn

/-! ## Passes until nothing is added

The recursion carries the invariant `Fits` with it, and ends by `room_lt_of_grew`. So the passes
need no limit on their number, and the number they come to is bounded by the room. -/

/-- Makes passes until one adds nothing. -/
def settle (limit : Int) (rules : List Rule) (table : WordTable)
    (fits : Fits limit rules table) : Saturation :=
  let pass := table.pass limit rules
  if h : pass.grew = true then
    -- The table that is passed on still fits, without which nothing would bound the passes.
    let later := settle limit rules pass.table fits.pass
    ⟨later.table, later.passes + 1⟩
  else
    ⟨pass.table, 1⟩
termination_by room limit rules table
decreasing_by exact room_lt_of_grew fits h

/-- Each pass but the last uses up some of the room. -/
theorem passes_settle_le {limit : Int} {rules : List Rule} {table : WordTable}
    (fits : Fits limit rules table) :
    (settle limit rules table fits).passes ≤ room limit rules table + 1 := by
  fun_induction settle limit rules table fits with
  | case1 table fits pass h later ih =>
    have hless := room_lt_of_grew fits h
    exact Nat.succ_le_succ (Nat.le_trans ih hless)
  | case2 => exact Nat.le_add_left 1 _

/-- Makes passes over the rules from a table that lists the declared names and the heads. -/
def ofRules (declared : SortedSet Name) (rules : List Rule) (limit : Int) : Saturation :=
  settle limit rules (.ofNames (declared ∪ heads rules)) (fits_ofNames limit rules _)

end Saturation

namespace Grammar

/-- The words up to the length limit that each listed name derives. -/
def derivedWords (g : Grammar) (limit : Int) : WordTable :=
  (Saturation.ofRules g.nonterminals g.rules.toList limit).table

/-- The words up to the length limit that the goal derives. -/
def language (g : Grammar) (limit : Int) : SortedSet Word :=
  (g.derivedWords limit).wordsFor g.goal

end Grammar

end ContextFree
