import ContextFree.Name

/-!
# ContextFree — symbols, forms and words

A symbol is a name used as a terminal or as a nonterminal; a form is a sequence of symbols, which
rewriting works on; a word is a sequence of terminal names, which a grammar describes.

Main statements: terminals stand before nonterminals in a lawful linear order, and forms are
ordered from left to right with a shorter beginning first.
-/

namespace ContextFree

open Std

/-- A name in one of its two roles. -/
inductive Symbol
  | terminal (name : Name)
  | nonterminal (name : Name)
deriving DecidableEq

/-- A sequence of symbols: the body of a rule, or a stage of a derivation. -/
abbrev Form := List Symbol

/-- A sequence of terminal names. -/
abbrev Word := List Name

namespace Symbol

def name : Symbol → Name
  | .terminal v => v
  | .nonterminal v => v

def isTerminal : Symbol → Bool
  | .terminal _ => true
  | .nonterminal _ => false

def terminal? : Symbol → Option Name
  | .terminal v => some v
  | .nonterminal _ => none

def nonterminal? : Symbol → Option Name
  | .terminal _ => none
  | .nonterminal v => some v

/-- A terminal stands between double quotes, and nothing inside them is escaped. -/
def render : Symbol → String
  | .terminal v => "\"" ++ v.render ++ "\""
  | .nonterminal v => v.render

/-- Terminals before nonterminals, each kind by name. -/
def order : Symbol → Symbol → Ordering
  | .terminal v, .terminal w => compare v w
  | .terminal _, .nonterminal _ => .lt
  | .nonterminal _, .terminal _ => .gt
  | .nonterminal v, .nonterminal w => compare v w

instance : Ord Symbol := ⟨order⟩

/-- `compare` on symbols, opened for the instances below. -/
theorem compare_def (a b : Symbol) : compare a b = order a b :=
  rfl

instance : TransOrd Symbol where
  eq_swap {a b} := by
    cases a <;> cases b <;> simp only [compare_def, order, Ordering.swap_lt, Ordering.swap_gt]
    · exact OrientedCmp.eq_swap
    · exact OrientedCmp.eq_swap
  isLE_trans {a b c} hab hbc := by
    cases a <;> cases b <;> cases c <;>
      simp only [compare_def, order, Ordering.isLE, Bool.false_eq_true] at hab hbc ⊢
    · exact TransCmp.isLE_trans hab hbc
    · exact TransCmp.isLE_trans hab hbc

instance : LawfulEqOrd Symbol where
  eq_of_compare {a b} h := by
    cases a <;> cases b <;> simp_all [compare_def, order]

@[simp] theorem terminal?_eq_some {s : Symbol} {v : Name} :
    s.terminal? = some v ↔ s = .terminal v := by
  cases s <;> simp [terminal?]

@[simp] theorem nonterminal?_eq_some {s : Symbol} {v : Name} :
    s.nonterminal? = some v ↔ s = .nonterminal v := by
  cases s <;> simp [nonterminal?]

end Symbol

/-- The terminals of a form in their order, repetitions included. -/
def Form.terminals (form : Form) : Word :=
  form.filterMap Symbol.terminal?

/-- The terminals of a concatenation are those of its parts, in the same order. -/
@[simp] theorem Form.terminals_append (a b : Form) :
    terminals (a ++ b) = terminals a ++ terminals b :=
  List.filterMap_append

/-- A nonterminal in front adds no terminal, so replacing it by a body can only add some. -/
@[simp] theorem Form.terminals_cons_nonterminal (v : Name) (form : Form) :
    terminals (.nonterminal v :: form) = terminals form :=
  List.filterMap_cons_none rfl

/-- How many terminals a form holds, repetitions included. -/
def Form.terminalCount (form : Form) : Nat :=
  form.countP Symbol.isTerminal

@[simp] theorem Form.terminalCount_append (a b : Form) :
    terminalCount (a ++ b) = terminalCount a + terminalCount b :=
  List.countP_append

/-- Counting the terminals and listing them come to the same number. -/
theorem Form.length_terminals (form : Form) : (terminals form).length = terminalCount form := by
  rw [terminals, List.length_filterMap_eq_countP, terminalCount]
  congr 1
  funext s
  cases s <;> rfl

/-- The word as a form, which nothing rewrites any further. -/
def Word.toForm (w : Word) : Form :=
  w.map .terminal

/-- A word is made of terminals only, so a form with more terminals than the word has letters cannot
lead to it. -/
@[simp] theorem Word.terminalCount_toForm (w : Word) : Form.terminalCount w.toForm = w.length := by
  simp [toForm, Form.terminalCount, List.countP_map, Function.comp_def, Symbol.isTerminal]

end ContextFree
