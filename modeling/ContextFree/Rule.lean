import ContextFree.Symbol

/-!
# ContextFree — rules

A rule lets its head, a nonterminal, be rewritten into its body. Two shapes matter to the passes:
an empty rule erases its head, a chain rule only renames it.

Main statements: `isEmpty_iff` and `isChain_iff` say which rules have these shapes, and rules have
a lawful linear order, by head and then by body.
-/

namespace ContextFree

open Std

/-- The nonterminal `head` may be replaced by `body`. -/
structure Rule where
  head : Name
  body : Form
deriving DecidableEq

namespace Rule

/-- The rule erases its head. -/
def isEmpty (r : Rule) : Bool :=
  r.body.isEmpty

/-- What a chain rule renames its head into; other rules have no such target. -/
def chainTarget? (r : Rule) : Option Name :=
  match r.body with
  | [.nonterminal v] => some v
  | _ => none

/-- The body is exactly one nonterminal. -/
def isChain (r : Rule) : Bool :=
  r.chainTarget?.isSome

/-- The test for an empty rule looks at the body and at nothing else. -/
theorem isEmpty_iff {r : Rule} : r.isEmpty = true ↔ r.body = [] :=
  List.isEmpty_iff

/-- A rule has a target just if its body is that one nonterminal. -/
theorem chainTarget?_eq_some {r : Rule} {v : Name} :
    r.chainTarget? = some v ↔ r.body = [.nonterminal v] := by
  unfold chainTarget?
  split <;> simp_all

/-- A chain rule is one whose body is a single nonterminal, whatever its name. -/
theorem isChain_iff {r : Rule} : r.isChain = true ↔ ∃ v, r.body = [.nonterminal v] := by
  simp only [isChain, Option.isSome_iff_exists, chainTarget?_eq_some]

/-- The same the other way round, which is how the elimination of chain rules uses it. -/
theorem isChain_eq_false_iff {r : Rule} : r.isChain = false ↔ ∀ v, r.body ≠ [.nonterminal v] := by
  rw [Bool.eq_false_iff, ne_eq, isChain_iff, not_exists]

/-- The symbols of a body with blanks between them, or `ϵ` for none. -/
def renderBody : Form → String
  | [] => "ϵ"
  | body => " ".intercalate (body.map Symbol.render)

def render (r : Rule) : String :=
  r.head.render ++ " → " ++ renderBody r.body

instance : Ord Rule := ⟨compareLex (compareOn Rule.head) (compareOn Rule.body)⟩

instance : TransOrd Rule :=
  inferInstanceAs (TransCmp (compareLex (compareOn Rule.head) (compareOn Rule.body)))

instance : LawfulEqOrd Rule where
  eq_of_compare {r s} h := by
    have h : (compareLex (compareOn Rule.head) (compareOn Rule.body)) r s = .eq := h
    rw [compareLex_eq_eq] at h
    cases r
    cases s
    congr
    · exact LawfulEqCmp.eq_of_compare h.1
    · exact LawfulEqCmp.eq_of_compare h.2

end Rule

end ContextFree
