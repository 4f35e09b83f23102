/-!
# ContextFree — names

What a grammar calls its symbols: a whole number of any size, or a text. The number 1 and the
text "1" are different names that are written alike.

Main statements: the order of names (numbers by size, then texts by code point) is a lawful linear
order, so finite sets of names have one ascending listing.
-/

namespace ContextFree

open Std

/-- The name of a symbol, also the head of a rule and the goal of a grammar. -/
inductive Name
  | number (n : Int)
  | text (s : String)
deriving DecidableEq

namespace Name

/-- A number in decimal, a text as it stands. -/
def render : Name → String
  | .number n => toString n
  | .text s => s

/-- Numbers by size, then texts by code point. -/
def order : Name → Name → Ordering
  | .number m, .number n => compare m n
  | .number _, .text _ => .lt
  | .text _, .number _ => .gt
  | .text s, .text t => compare s t

instance : Ord Name := ⟨order⟩

/-- `compare` on names, opened for the instances below. -/
theorem compare_def (a b : Name) : compare a b = order a b :=
  rfl

instance : TransOrd Name where
  eq_swap {a b} := by
    cases a <;> cases b <;> simp only [compare_def, order, Ordering.swap_lt, Ordering.swap_gt]
    · exact OrientedCmp.eq_swap
    · exact OrientedCmp.eq_swap
  isLE_trans {a b c} hab hbc := by
    cases a <;> cases b <;> cases c <;>
      simp only [compare_def, order, Ordering.isLE, Bool.false_eq_true] at hab hbc ⊢
    · exact TransCmp.isLE_trans hab hbc
    · exact TransCmp.isLE_trans hab hbc

/-- Names that compare equal are the same name: a number and a text never compare equal, also where
they are written alike. -/
instance : LawfulEqOrd Name where
  eq_of_compare {a b} h := by
    cases a <;> cases b <;> simp_all [compare_def, order]

end Name

end ContextFree
