import ContextFree.Symbol
import ContextFree.SortedSet.Basic
import Std.Data.TreeMap

/-!
# ContextFree — tables of words

A word table lists, for each name, the words found for it so far. The words of a form up to a
length are put together from those of its symbols; a symbol that is looked up is listed from then
on, and once nothing short enough is left the rest of the form is not looked at.

Main statements: `mem_concat` says which words two sets make; looking up a symbol lists its name
(`mem_lookedUp`) and changes no words (`wordsFor_lookedUp`), and `forall_mem_spell` is the induction
along a form that is spelled.
-/

namespace ContextFree

/-- The words of the left set followed by those of the right set, as far as they are not too long.
A negative limit leaves none. -/
def Word.concat (limit : Int) (left right : SortedSet Word) : SortedSet Word :=
  left.flatMap fun u => right.toList.filterMap fun v =>
    if ((u.length + v.length : Nat) : Int) ≤ limit then some (u ++ v) else none

/-- A word is put together from one of the left set and one of the right set, and its length is held
against the limit. -/
theorem Word.mem_concat {limit : Int} {left right : SortedSet Word} {w : Word} :
    w ∈ Word.concat limit left right ↔
      ∃ u ∈ left, ∃ v ∈ right, u ++ v = w ∧ (w.length : Int) ≤ limit := by
  simp only [concat, SortedSet.mem_flatMap, List.mem_filterMap, SortedSet.mem_toList,
    Option.ite_none_right_eq_some, Option.some.injEq]
  refine exists_congr fun u => and_congr_right fun _ => exists_congr fun v =>
    and_congr_right fun _ => ?_
  constructor
  · rintro ⟨h, rfl⟩
    exact ⟨rfl, by rwa [List.length_append]⟩
  · rintro ⟨rfl, h⟩
    exact ⟨by rwa [List.length_append] at h, rfl⟩

/-- The words found so far for each name that is listed. -/
abbrev WordTable := Std.TreeMap Name (SortedSet Word)

namespace WordTable

/-- Lists the names without any words. -/
def ofNames (names : SortedSet Name) : WordTable :=
  names.toList.foldl (fun table v => table.insert v ∅) ∅

/-- The words for a name, none if it is not listed. -/
def wordsFor (table : WordTable) (v : Name) : SortedSet Word :=
  table.getD v ∅

def wordsOf (table : WordTable) : Symbol → SortedSet Word
  | .terminal v => {[v]}
  | .nonterminal v => table.wordsFor v

/-- The table after a symbol was looked up, which lists the name of a nonterminal. -/
def lookedUp (table : WordTable) : Symbol → WordTable
  | .terminal _ => table
  | .nonterminal v => table.insertIfNew v ∅

/-! ## Look-ups list names and change no words

A table answers two questions: which names are listed, and which words there are for a name, listed
or not. Look-ups change the answer to the first question only. So they can be left out of all
reasoning about words. -/

/-- The listed names are the given ones. By an induction that has any table to start from, since
names are listed one after the other. -/
theorem mem_ofNames {names : SortedSet Name} {v : Name} : v ∈ ofNames names ↔ v ∈ names := by
  have key : ∀ (l : List Name) (table : WordTable),
      v ∈ l.foldl (fun table v => table.insert v ∅) table ↔ v ∈ l ∨ v ∈ table := by
    intro l
    induction l with
    | nil => simp
    | cons a l ih =>
      intro table
      rw [List.foldl_cons, ih, Std.TreeMap.mem_insert, Std.LawfulEqCmp.compare_eq_iff_eq]
      simp only [List.mem_cons]
      grind
  rw [ofNames, key]
  simp [SortedSet.mem_toList]

theorem wordsFor_ofNames (names : SortedSet Name) (v : Name) : (ofNames names).wordsFor v = ∅ := by
  -- For any table to start from that has no words for the name.
  have key : ∀ (l : List Name) (table : WordTable), table.wordsFor v = ∅ →
      (l.foldl (fun table v => table.insert v ∅) table).wordsFor v = ∅ := by
    intro l
    induction l with
    | nil => exact fun _ h => h
    | cons a l ih =>
      intro table h
      refine ih _ ?_
      rw [wordsFor, Std.TreeMap.getD_insert]
      split
      · rfl
      · exact h
  exact key _ _ rfl

/-- The words for a name are its entry, if it has one. -/
theorem wordsFor_eq (table : WordTable) (v : Name) : table.wordsFor v = table[v]?.getD ∅ :=
  Std.TreeMap.getD_eq_getD_getElem?

/-- A listed name has an entry, and it holds the words for the name. -/
theorem getElem?_of_mem {table : WordTable} {v : Name} (h : v ∈ table) :
    table[v]? = some (table.wordsFor v) := by
  rw [wordsFor_eq, Std.TreeMap.getElem?_eq_some_getElem h, Option.getD_some]

theorem wordsFor_insert (table : WordTable) (u : Name) (words : SortedSet Word) (v : Name) :
    wordsFor (table.insert u words) v = if u = v then words else table.wordsFor v := by
  rw [wordsFor, Std.TreeMap.getD_insert]
  simp only [Std.LawfulEqCmp.compare_eq_iff_eq]
  rfl

/-- Looking a symbol up lists at most the name of that symbol. -/
theorem mem_lookedUp {table : WordTable} {s : Symbol} {v : Name} :
    v ∈ table.lookedUp s ↔ s = .nonterminal v ∨ v ∈ table := by
  cases s with
  | terminal u => simp [lookedUp]
  | nonterminal u =>
    rw [lookedUp, Std.TreeMap.mem_insertIfNew, Std.LawfulEqCmp.compare_eq_iff_eq]
    simp

/-- Looking a symbol up changes no words, since the entry it may add is empty. -/
theorem wordsFor_lookedUp (table : WordTable) (s : Symbol) (v : Name) :
    (table.lookedUp s).wordsFor v = table.wordsFor v := by
  cases s with
  | terminal u => rfl
  | nonterminal u =>
    simp only [lookedUp, wordsFor, Std.TreeMap.getD_insertIfNew]
    split
    · next h =>
      rw [Std.LawfulEqCmp.compare_eq_iff_eq] at h
      rw [← h.1, Std.TreeMap.getD_eq_fallback h.2]
    · rfl

/-- The words that continue those made so far by the words of a form, and the table after the
look-ups this takes. -/
def spell (limit : Int) : Form → (made : SortedSet Word) → WordTable → SortedSet Word × WordTable
  | [], made, table => (made, table)
  | s :: rest, made, table =>
    let longer := Word.concat limit made (table.wordsOf s)
    if longer.isEmpty then
      (longer, table.lookedUp s)
    else
      spell limit rest longer (table.lookedUp s)

/-! ## What spelling a form does

A form is spelled from left to right, and each look-up happens in the table that the one before it
left. As look-ups change no words, all of them see the same words, and the induction along the form
needs no invariant about the table. -/

/-- The next symbol stands for the same words as before the look-up. -/
theorem wordsOf_lookedUp (table : WordTable) (s t : Symbol) :
    (table.lookedUp s).wordsOf t = table.wordsOf t := by
  cases t with
  | terminal v => rfl
  | nonterminal v => exact wordsFor_lookedUp table s v

/-- Spelling a form changes no words, only which names are listed. Induction on the form. -/
theorem wordsFor_spell {limit : Int} {form : Form} {made : SortedSet Word} {table : WordTable}
    (v : Name) : (spell limit form made table).2.wordsFor v = table.wordsFor v := by
  induction form generalizing made table with
  | nil => rfl
  | cons s rest ih =>
    unfold spell
    dsimp only
    split
    · exact wordsFor_lookedUp table s v
    · rw [ih, wordsFor_lookedUp]

/-- What holds of the words made so far, and stays true when a word of one of the form's symbols is
appended, holds of every word spelled. -/
theorem forall_mem_spell {limit : Int} {form : Form} {made : SortedSet Word} {table : WordTable}
    {P : Word → Prop} (hmade : ∀ w ∈ made, P w)
    (happend : ∀ u v, P u → (∃ s ∈ form, v ∈ table.wordsOf s) →
      ((u ++ v).length : Int) ≤ limit → P (u ++ v)) :
    ∀ w ∈ (spell limit form made table).1, P w := by
  induction form generalizing made table with
  | nil => exact hmade
  | cons s rest ih =>
    -- What is made along the first symbol has the property, and the rest of the form goes on from
    -- it.
    have hlonger : ∀ w ∈ Word.concat limit made (table.wordsOf s), P w := by
      intro w hw
      obtain ⟨u, hu, v, hv, rfl, hlimit⟩ := Word.mem_concat.1 hw
      exact happend u v (hmade u hu) ⟨s, .head _, hv⟩ hlimit
    unfold spell
    dsimp only
    split
    · exact hlonger
    · refine ih hlonger fun u v hu ⟨t, ht, hv⟩ => happend u v hu ⟨t, .tail _ ht, ?_⟩
      rwa [wordsOf_lookedUp] at hv

end WordTable

end ContextFree
