import ContextFree.Closure.Visits
import ContextFree.Grammar.Basic

/-!
# ContextFree — nullable names

A name is nullable when its nonterminal derives the empty form. The nullable names are the closure
of the empty set under `Grammar.addNullables`: a rule whose body is made of nullable nonterminals
makes its head nullable. Each name is found in a round, which the trace lists.

Main statements: `Form.isNullable_iff` and `Grammar.mem_addNullables` say what the test and the
round mean; the rows of a trace have a lawful linear order.
-/

namespace ContextFree

open Std

/-- A nonterminal whose name is in the set. -/
def Symbol.isDroppable (names : SortedSet Name) : Symbol → Bool
  | .terminal _ => false
  | .nonterminal v => v ∈ names

/-- Every symbol of the form is a nonterminal whose name is in the set. -/
def Form.isNullable (names : SortedSet Name) (form : Form) : Bool :=
  form.all (Symbol.isDroppable names)

/-- Only a nonterminal can be dropped, and only if its name is in the set. -/
theorem Symbol.isDroppable_iff {names : SortedSet Name} {s : Symbol} :
    s.isDroppable names = true ↔ ∃ v ∈ names, s = .nonterminal v := by
  cases s <;> simp [isDroppable]

/-- What can be dropped by two sets together can be dropped by one of them. -/
theorem Symbol.isDroppable_union {names names' : SortedSet Name} {s : Symbol} :
    s.isDroppable (names ∪ names') = true ↔
      s.isDroppable names = true ∨ s.isDroppable names' = true := by
  cases s <;> simp [isDroppable]

/-- A form is nullable if each of its symbols is a nonterminal with one of the names. So the empty
form always is, and a form with a terminal never. -/
theorem Form.isNullable_iff {names : SortedSet Name} {form : Form} :
    isNullable names form = true ↔ ∀ s ∈ form, ∃ v ∈ names, s = .nonterminal v := by
  simp only [isNullable, List.all_eq_true, Symbol.isDroppable_iff]

/-- A name with the round in which it was found to be nullable. -/
structure NullableRow where
  name : Name
  round : Nat
deriving DecidableEq

namespace NullableRow

/-- The order of the trace: by the text of the name, names that read alike by round. -/
def order : NullableRow → NullableRow → Ordering :=
  compareLex (compareOn fun row => row.name.render)
    (compareLex (compareOn NullableRow.round) (compareOn NullableRow.name))

instance : Ord NullableRow := ⟨order⟩

instance : TransOrd NullableRow :=
  inferInstanceAs (TransCmp (compareLex (compareOn fun row : NullableRow => row.name.render)
    (compareLex (compareOn NullableRow.round) (compareOn NullableRow.name))))

instance : LawfulEqOrd NullableRow where
  eq_of_compare {a b} h := by
    have h : order a b = .eq := h
    rw [order, compareLex_eq_eq, compareLex_eq_eq] at h
    cases a
    cases b
    congr
    · exact LawfulEqCmp.eq_of_compare h.2.2
    · exact LawfulEqCmp.eq_of_compare h.2.1

end NullableRow

namespace Grammar

/-- One round: the names, and the heads of rules with bodies that are nullable given the names. -/
def addNullables (g : Grammar) (names : SortedSet Name) : SortedSet Name :=
  names ∪ (g.rules.filter fun r => Form.isNullable names r.body).map Rule.head

/-- The rounds from no names to all nullable names, which all head rules. -/
def nullableRounds (g : Grammar) : Logged (Fault Name) (Rounds Name) :=
  Closure.iterate ∅ (fun _ => g.addNullables) g.generators.size

def computeNullable (g : Grammar) : Logged (Fault Name) (SortedSet Name) := do
  let rounds ← g.nullableRounds
  Logged.report (.nullableSolved rounds.last.size rounds.count)
  return rounds.last

/-- Every nullable name with the round in which it was found. -/
def nullableTrace (g : Grammar) : Logged (Fault Name) (SortedSet NullableRow) := do
  let rounds ← g.nullableRounds
  return rounds.last.flatMap fun v =>
    (rounds.firstRound? v).toList.map fun round => ⟨v, round⟩

/-- The same in a walk through the rounds, with a row for each name that it comes by. -/
def nullableTraceByVisits (listing : SortedSet Name → List Name) (g : Grammar) :
    Logged (Fault Name) (SortedSet NullableRow) := do
  let rounds ← g.nullableRounds
  return .ofList ((rounds.firstSeen listing).toList.map fun (v, round) => ⟨v, round⟩)

/-- A round keeps the names, and adds the head of each rule whose body is nullable with the names
there were before the round. -/
theorem mem_addNullables {g : Grammar} {names : SortedSet Name} {v : Name} :
    v ∈ g.addNullables names ↔
      v ∈ names ∨ ∃ r ∈ g.rules, Form.isNullable names r.body = true ∧ r.head = v := by
  simp [addNullables, and_assoc]

end Grammar

end ContextFree
