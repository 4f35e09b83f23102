import ContextFree.Grammar.Text
import Mathlib.Data.List.Permutation

/-!
# ContextFree — the text of a grammar tells its rules

The text of a grammar escapes nothing, so a name with a blank in it reads like two names, and one in
double quotes like a terminal. Names without such marks cannot be mistaken: then the lines are what
stands between line breaks, the words of a line are what stands between blanks, and a word in quotes
is a terminal. So the rules can be read back, whatever the goal is, although the goal decides in
which order they stand. Back from the rules and the goal the text is settled as well. Two rules come
at the same place only if they read alike, so it does not matter which of them is listed first.

Main statements: `Rule.render_eq_intercalate` (a line is made of words), `Rule.ofLine?_render` and
`Grammar.readRules_render` (lines and texts are read back), `Rule.renderAll_eq_of_perm` (the order
of the listing makes no difference), and `Grammar.text_tells_rules`.
-/

namespace ContextFree

open Std

/-! ## Names without marks

What may not be in a name follows from how names are printed: the sign of an empty body, blanks,
line breaks and double quotes. The arrow may, since it is only looked for in the second place of a
line. -/

/-- A text in which nothing can be taken for a mark of the notation. -/
def Name.IsOrdinary : Name → Prop
  | .number _ => False
  | .text s => s ≠ "ϵ" ∧ ' ' ∉ s.toList ∧ '\n' ∉ s.toList ∧ '"' ∉ s.toList

instance : DecidablePred Name.IsOrdinary
  | .number _ => inferInstanceAs (Decidable False)
  | .text s => inferInstanceAs
      (Decidable (s ≠ "ϵ" ∧ ' ' ∉ s.toList ∧ '\n' ∉ s.toList ∧ '"' ∉ s.toList))

/-- The names of the rule have no marks in them. -/
def Rule.IsOrdinary (r : Rule) : Prop :=
  r.head.IsOrdinary ∧ ∀ s ∈ r.body, s.name.IsOrdinary

instance : DecidablePred Rule.IsOrdinary := fun r =>
  inferInstanceAs (Decidable (r.head.IsOrdinary ∧ ∀ s ∈ r.body, s.name.IsOrdinary))

/-- A number is not ordinary, so an ordinary name is a text with nothing in it that marks anything.
-/
theorem Name.IsOrdinary.exists_text {v : Name} (h : v.IsOrdinary) :
    ∃ s, v = .text s ∧ s ≠ "ϵ" ∧ ' ' ∉ s.toList ∧ '\n' ∉ s.toList ∧ '"' ∉ s.toList := by
  cases v with
  | number n => exact h.elim
  | text s => exact ⟨s, rfl, h⟩

/-! ## Words

A terminal is told by its quotes. No name begins with a quote, so nothing else is taken for a
terminal. -/

/-- The symbol that a word stands for, a terminal if it begins with a quote. -/
def Symbol.ofWord : List Char → Symbol
  | '"' :: rest => .terminal (.text (String.ofList rest.dropLast))
  | word => .nonterminal (.text (String.ofList word))

/-- A symbol is read back from its word. -/
theorem Symbol.ofWord_render {s : Symbol} (h : s.name.IsOrdinary) :
    ofWord s.render.toList = s := by
  cases s with
  | terminal v =>
    obtain ⟨t, rfl, -⟩ := h.exists_text
    have hword : (Symbol.terminal (.text t)).render.toList = '"' :: (t.toList ++ ['"']) := by
      simp [render, Name.render]
    rw [hword, ofWord, List.dropLast_concat, String.ofList_toList]
  | nonterminal v =>
    obtain ⟨t, rfl, -, -, -, hquote⟩ := h.exists_text
    have hword : (Symbol.nonterminal (.text t)).render.toList = t.toList := rfl
    rw [hword, ofWord, String.ofList_toList]
    -- A word without a quote in front is not taken for a terminal.
    intro rest hrest
    exact hquote (by rw [hrest]; exact List.mem_cons_self)

/-- No symbol reads like an empty body. -/
theorem Symbol.render_ne_mark {s : Symbol} (h : s.name.IsOrdinary) : s.render ≠ "ϵ" := by
  intro hmark
  have hs : s = .nonterminal (.text "ϵ") := by
    rw [← ofWord_render h, hmark]
    rfl
  rw [hs] at h
  exact h.1 rfl

/-- The words are separated by blanks and the lines by line breaks, and neither is part of a word.
-/
theorem Symbol.not_mem_render {s : Symbol} (h : s.name.IsOrdinary) :
    ' ' ∉ s.render.toList ∧ '\n' ∉ s.render.toList := by
  cases s with
  | terminal v =>
    obtain ⟨t, rfl, -, hblank, hbreak, -⟩ := h.exists_text
    simp [render, Name.render, hblank, hbreak]
  | nonterminal v =>
    obtain ⟨t, rfl, -, hblank, hbreak, -⟩ := h.exists_text
    exact ⟨hblank, hbreak⟩

/-! ## Lines

A line is cut at its blanks, which gives back the words it was made of. The first word is the head,
the second is passed over, and the others are the body. -/

/-- The words of a body, or the mark of an empty one. -/
def Rule.bodyWords : Form → List String
  | [] => ["ϵ"]
  | body => body.map Symbol.render

/-- What stands between the blanks of a line. -/
def Rule.words (r : Rule) : List String :=
  r.head.render :: "→" :: bodyWords r.body

/-- A line is its words with a blank between each two. The head and the arrow are words as well, and
so is the mark of an empty body. -/
theorem Rule.render_eq_intercalate (r : Rule) : r.render = " ".intercalate r.words := by
  have hbody : renderBody r.body = " ".intercalate (bodyWords r.body) := by
    cases r.body with
    | nil => exact String.intercalate_singleton.symm
    | cons s rest => rfl
  have hwords : bodyWords r.body ≠ [] := by
    cases r.body <;> simp [bodyWords]
  rw [render, words, String.intercalate_cons_cons, String.intercalate_cons_of_ne_nil hwords, hbody]
  simp only [String.append_assoc]
  rfl

/-- A word of an ordinary rule has neither blanks nor line breaks. -/
theorem Rule.not_mem_of_mem_words {r : Rule} (h : r.IsOrdinary) {word : String}
    (hword : word ∈ r.words) : ' ' ∉ word.toList ∧ '\n' ∉ word.toList := by
  -- The word is the head, the arrow, or one of the body.
  rcases List.mem_cons.1 hword with rfl | hword
  · exact Symbol.not_mem_render (s := .nonterminal r.head) h.1
  rcases List.mem_cons.1 hword with rfl | hword
  · decide
  cases hbody : r.body with
  | nil =>
    rw [hbody] at hword
    obtain rfl := List.mem_singleton.1 hword
    decide
  | cons s rest =>
    rw [hbody] at hword
    obtain ⟨t, ht, rfl⟩ := List.mem_map.1 hword
    exact Symbol.not_mem_render (h.2 t (by rw [hbody]; exact ht))

/-- The body that words stand for, given those behind the arrow. -/
def Rule.bodyOfWords (words : List (List Char)) : Form :=
  if words = [['ϵ']] then [] else words.map Symbol.ofWord

/-- The rule that a line stands for, if it has a head and an arrow. -/
def Rule.ofLine? (line : List Char) : Option Rule :=
  match line.splitOn ' ' with
  | head :: _ :: words => some ⟨.text (String.ofList head), bodyOfWords words⟩
  | _ => none

theorem Rule.bodyOfWords_bodyWords {body : Form} (h : ∀ s ∈ body, s.name.IsOrdinary) :
    bodyOfWords ((bodyWords body).map String.toList) = body := by
  cases body with
  | nil => decide
  | cons s rest =>
    -- The words of this body could be the mark of an empty one only if a symbol read like it.
    have hmark : (bodyWords (s :: rest)).map String.toList ≠ [['ϵ']] := by
      intro hmark
      have hsymbol : s.render.toList = ['ϵ'] := (List.cons.inj hmark).1
      exact Symbol.render_ne_mark (h s List.mem_cons_self) (String.toList_inj.1 hsymbol)
    rw [bodyOfWords, if_neg hmark]
    show (((s :: rest).map Symbol.render).map String.toList).map Symbol.ofWord = s :: rest
    rw [List.map_map, List.map_map]
    refine (List.map_congr_left fun t ht => ?_).trans (List.map_id _)
    exact Symbol.ofWord_render (h t ht)

/-- A line is read back. -/
theorem Rule.ofLine?_render {r : Rule} (h : r.IsOrdinary) : ofLine? r.render.toList = some r := by
  obtain ⟨name, hname, -⟩ := h.1.exists_text
  have hwords : r.render.toList.splitOn ' ' = r.words.map String.toList := by
    rw [render_eq_intercalate, String.toList_intercalate]
    refine List.splitOn_intercalate ' ' (fun cs hcs => ?_) (by simp [words])
    obtain ⟨word, hword, rfl⟩ := List.mem_map.1 hcs
    exact (not_mem_of_mem_words h hword).1
  rw [ofLine?, hwords, words]
  simp only [List.map_cons, bodyOfWords_bodyWords h.2, String.ofList_toList]
  cases r
  simp_all [Name.render]

theorem Text.exists_of_mem_intercalate {sep : String} {parts : List String} {c : Char}
    (h : c ∈ (sep.intercalate parts).toList) :
    c ∈ sep.toList ∨ ∃ part ∈ parts, c ∈ part.toList := by
  induction parts with
  | nil => simp at h
  | cons part rest ih =>
    cases rest with
    | nil => exact .inr ⟨part, List.mem_cons_self, by simpa using h⟩
    | cons next rest =>
      rw [String.intercalate_cons_cons, String.toList_append, String.toList_append, List.mem_append,
        List.mem_append] at h
      rcases h with (h | h) | h
      · exact .inr ⟨part, List.mem_cons_self, h⟩
      · exact .inl h
      · exact (ih h).imp_right fun ⟨p, hp, hc⟩ => ⟨p, List.mem_cons_of_mem part hp, hc⟩

/-- A rule takes up one line. -/
theorem Rule.break_not_mem_render {r : Rule} (h : r.IsOrdinary) : '\n' ∉ r.render.toList := by
  rw [render_eq_intercalate]
  intro hbreak
  rcases Text.exists_of_mem_intercalate hbreak with hbreak | ⟨word, hword, hbreak⟩
  · exact absurd hbreak (by decide)
  · exact (not_mem_of_mem_words h hword).2 hbreak

/-! ## Texts

A text is cut at its line breaks. The lines stand in the order of their keys, and a key tells the
line, so that a listing of the rules in another order leads to the same lines. This part needs no
assumption about names. -/

namespace Rule

variable {goal : Name}

/-- What decides the place of a line. -/
def lineKey (goal : Name) (r : Rule) : Bool × String :=
  (decide (r.head ≠ goal), r.render)

/-- The order of the keys, which is the order of the lines. -/
def keyOrder : Bool × String → Bool × String → Ordering :=
  compareLex (compareOn Prod.fst) (compareOn Prod.snd)

instance : TransCmp keyOrder :=
  inferInstanceAs (TransCmp (compareLex _ _))

/-- Keys that come at the same place are equal, both parts of a key being linearly ordered. -/
theorem eq_of_keyOrder {a b : Bool × String} (hab : (keyOrder a b).isLE = true)
    (hba : (keyOrder b a).isLE = true) : a = b := by
  obtain ⟨hfst, hsnd⟩ := compareLex_eq_eq.1 (OrientedCmp.isLE_antisymm hab hba)
  exact Prod.ext (LawfulEqCmp.eq_of_compare hfst) (LawfulEqCmp.eq_of_compare hsnd)

theorem pairwise_inLineOrder (rules : List Rule) :
    ((inLineOrder goal rules).map (lineKey goal)).Pairwise fun a b =>
      (keyOrder a b).isLE = true := by
  rw [List.pairwise_map]
  refine List.pairwise_mergeSort (fun r s t => TransCmp.isLE_trans) (fun r s => ?_) rules
  have hswap : keyOrder (lineKey goal s) (lineKey goal r) =
      (keyOrder (lineKey goal r) (lineKey goal s)).swap := OrientedCmp.eq_swap
  rw [hswap]
  cases keyOrder (lineKey goal r) (lineKey goal s) <;> rfl

/-- The text is the same in whatever order the rules are listed. Their places depend on their keys,
and rules with the same key have the same line. -/
theorem renderAll_eq_of_perm {k l : List Rule} (h : k.Perm l) :
    renderAll goal k = renderAll goal l := by
  have hperm : (inLineOrder goal k).Perm (inLineOrder goal l) :=
    (List.mergeSort_perm k _).trans (h.trans (List.mergeSort_perm l _).symm)
  have hkeys : (inLineOrder goal k).map (lineKey goal) = (inLineOrder goal l).map (lineKey goal) :=
    List.Perm.eq_of_pairwise (fun _ _ _ _ => eq_of_keyOrder) (pairwise_inLineOrder k)
      (pairwise_inLineOrder l) (hperm.map _)
  have hlines := congrArg (List.map Prod.snd) hkeys
  rw [List.map_map, List.map_map] at hlines
  exact congrArg ("\n".intercalate ·) hlines

end Rule

namespace Grammar

/-- The rules that the lines of a text stand for. -/
def readRules (text : String) : SortedSet Rule :=
  .ofList ((text.toList.splitOn '\n').filterMap Rule.ofLine?)

/-- Lines that stand one below the other are read back one by one. -/
theorem readLines_intercalate {rules : List Rule} (h : ∀ r ∈ rules, r.IsOrdinary) :
    (("\n".intercalate (rules.map Rule.render)).toList.splitOn '\n').filterMap Rule.ofLine? =
      rules := by
  -- Of no lines at all a single blank one is read, which stands for no rule.
  by_cases hnone : rules = []
  · subst hnone
    decide
  have hlines : ∀ cs ∈ (rules.map Rule.render).map String.toList, '\n' ∉ cs := by
    intro cs hcs
    obtain ⟨line, hline, rfl⟩ := List.mem_map.1 hcs
    obtain ⟨r, hr, rfl⟩ := List.mem_map.1 hline
    exact Rule.break_not_mem_render (h r hr)
  have hsplit : ("\n".intercalate (rules.map Rule.render)).toList.splitOn '\n' =
      (rules.map Rule.render).map String.toList := by
    rw [String.toList_intercalate]
    exact List.splitOn_intercalate '\n' hlines (by simp [hnone])
  rw [hsplit, List.map_map, List.filterMap_map]
  calc rules.filterMap (Rule.ofLine? ∘ String.toList ∘ Rule.render)
      = rules.filterMap some := List.filterMap_congr fun r hr => Rule.ofLine?_render (h r hr)
    _ = rules := List.filterMap_some

/-- Rules are read back from their text, whatever the goal is. -/
theorem readRules_renderAll {goal : Name} {rules : List Rule} (h : ∀ r ∈ rules, r.IsOrdinary) :
    readRules (Rule.renderAll goal rules) = .ofList rules := by
  have hperm : (Rule.inLineOrder goal rules).Perm rules := List.mergeSort_perm rules _
  have hordinary : ∀ r ∈ Rule.inLineOrder goal rules, r.IsOrdinary :=
    fun r hr => h r (hperm.mem_iff.1 hr)
  refine SortedSet.ext_mem fun r => ?_
  rw [readRules, Rule.renderAll, readLines_intercalate hordinary,
    SortedSet.mem_ofList, SortedSet.mem_ofList, hperm.mem_iff]

/-- No name in the rules has a mark in it. -/
def IsOrdinary (g : Grammar) : Prop :=
  ∀ r ∈ g.rules, r.IsOrdinary

/-- The rules of a grammar are read back from its text. -/
theorem readRules_render {g : Grammar} (h : g.IsOrdinary) : readRules g.render = g.rules := by
  rw [render, readRules_renderAll fun r hr => h r (SortedSet.mem_toList.1 hr)]
  exact SortedSet.ext_mem fun r => by rw [SortedSet.mem_ofList, SortedSet.mem_toList]

/-- **The text tells the rules.** If no name in the rules of two grammars has a mark in it, the
grammars have the same rules as soon as they have the same text, whatever their goals are. And
grammars with the same rules and the same goal have the same text, in whatever order their rules are
listed. -/
theorem text_tells_rules (g h : Grammar) :
    (g.IsOrdinary → h.IsOrdinary → g.render = h.render → g.rules = h.rules) ∧
      (g.rules = h.rules → g.goal = h.goal → g.render = h.render ∧
        ∀ k l : List Rule, k.Perm g.rules.toList → l.Perm h.rules.toList →
          Rule.renderAll g.goal k = Rule.renderAll h.goal l) := by
  constructor
  · intro hg hh htext
    rw [← readRules_render hg, htext, readRules_render hh]
  · intro hrules hgoal
    refine ⟨by rw [render, render, hrules, hgoal], fun k l hk hl => ?_⟩
    rw [Rule.renderAll_eq_of_perm hk, Rule.renderAll_eq_of_perm hl, hrules, hgoal]

/-- A name that is renamed into another or stands for a letter called like it. -/
def sameName : Grammar where
  nonterminals := ∅
  goal := .text "A"
  rules := .ofList [⟨.text "A", [.nonterminal (.text "a")]⟩, ⟨.text "A", [.terminal (.text "a")]⟩]

/-- The same with its rules in another order, one of them twice, and a goal that heads none. -/
def sameNameAgain : Grammar where
  nonterminals := {.text "A"}
  goal := .text "Z"
  rules := .ofList [⟨.text "A", [.terminal (.text "a")]⟩, ⟨.text "A", [.nonterminal (.text "a")]⟩,
    ⟨.text "A", [.terminal (.text "a")]⟩]

/-- Both have the same text and so the same rules, and listing them backwards changes nothing. -/
theorem sameName_told :
    (sameName.IsOrdinary ∧ sameNameAgain.IsOrdinary ∧ sameName.render = sameNameAgain.render) ∧
      sameName.rules = sameNameAgain.rules ∧
      Rule.renderAll (.text "A") sameName.rules.toList.reverse =
        Rule.renderAll (.text "A") sameName.rules.toList := by
  have hsame : sameName.IsOrdinary := by
    intro r hr
    simp only [sameName, SortedSet.mem_ofList, List.mem_cons, List.not_mem_nil, or_false] at hr
    rcases hr with rfl | rfl <;> decide
  have hagain : sameNameAgain.IsOrdinary := by
    intro r hr
    simp only [sameNameAgain, SortedSet.mem_ofList, List.mem_cons, List.not_mem_nil,
      or_false] at hr
    rcases hr with rfl | rfl | rfl <;> decide
  have htext : sameName.render = sameNameAgain.render := by cbv
  exact ⟨⟨hsame, hagain, htext⟩, (text_tells_rules sameName sameNameAgain).1 hsame hagain htext,
    ((text_tells_rules sameName sameName).2 rfl rfl).2 _ _ (List.reverse_perm _) (.refl _)⟩

end Grammar

end ContextFree
