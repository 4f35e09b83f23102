import ContextFree.Rewriting.Search
import Mathlib.Data.Multiset.DershowitzManna

/-!
# ContextFree — the search with a queue

The search for a derivation needs no levels: the forms to look at can wait in one queue, each with
the number of steps that may still be made from it. What one more step reaches joins the queue at
the end and counts as seen from then on, so it joins only once, and in an order that depends on the
order of the rules.

How many forms a turn adds is not bounded, but each of them has fewer steps left than the one that
was taken off. So the numbers of steps left go down in the order of multisets, and the search ends.

A limit may also be negative. No number of steps is, so nothing is cut off then, and the search need
not end. `searchQueue?` takes any limit and counts the steps up from the source. It also takes the
number of turns, and has an answer only if it comes to an end within them.

Main statements: `mem_newcomers` and `nodup_newcomers` say which forms join the queue, and the four
ways a turn can go are `searchQueue_nil`, `searchQueue_of_found`, `searchQueue_of_used_up` and
`searchQueue_of_followed`, with the same four for `searchQueue?`.
-/

namespace ContextFree

namespace Rewriting

/-- The forms of a list that join the queue, in order: those that do not hold too many terminals and
were not seen before, neither at the start nor further up the list. -/
def newcomers (most : Nat) : (seen : SortedSet Form) → List Form → List Form
  | _, [] => []
  | seen, form :: rest =>
    if form ∈ seen ∨ most < Form.terminalCount form then
      newcomers most seen rest
    else
      form :: newcomers most (insert form seen) rest

/-- What joins is what the list has, less the forms that are left out. That a form is left out
further down the list, because it has joined further up, makes no difference to the set. -/
theorem mem_newcomers {most : Nat} {seen : SortedSet Form} {forms : List Form} {form : Form} :
    form ∈ newcomers most seen forms ↔
      form ∈ forms ∧ Form.terminalCount form ≤ most ∧ form ∉ seen := by
  induction forms generalizing seen with
  | nil => simp [newcomers]
  | cons first rest ih =>
    unfold newcomers
    split
    · next h =>
      rw [ih, List.mem_cons]
      grind
    · next h =>
      rw [List.mem_cons, ih, List.mem_cons, SortedSet.mem_insert]
      grind

theorem nodup_newcomers (most : Nat) (seen : SortedSet Form) (forms : List Form) :
    (newcomers most seen forms).Nodup := by
  induction forms generalizing seen with
  | nil => exact List.nodup_nil
  | cons first rest ih =>
    unfold newcomers
    split
    · exact ih seen
    · refine List.nodup_cons.2 ⟨fun hmem => ?_, ih _⟩
      exact (mem_newcomers.1 hmem).2.2 (SortedSet.mem_insert.2 (.inl rfl))

/-- The numbers of steps left to the forms of a queue. -/
def stepsLeft (queue : List (Form × Nat)) : Multiset Nat :=
  (queue.map Prod.snd : List Nat)

/-- The order of multisets goes down when a form is taken off and forms with fewer steps join. -/
theorem stepsLeft_lt (form : Form) {left : Nat} (rest : List (Form × Nat))
    {joining : List (Form × Nat)} (h : ∀ entry ∈ joining, entry.2 < left) :
    (stepsLeft (rest ++ joining)).IsDershowitzMannaLT (stepsLeft ((form, left) :: rest)) := by
  refine ⟨stepsLeft rest, stepsLeft joining, {left}, Multiset.singleton_ne_zero left, ?_, ?_, ?_⟩
  · simp [stepsLeft]
  · rw [Multiset.add_comm, Multiset.singleton_add]
    rfl
  · intro n hn
    obtain ⟨entry, hentry, rfl⟩ := List.mem_map.1 (Multiset.mem_coe.1 hn)
    exact ⟨left, Multiset.mem_singleton_self left, h entry hentry⟩

/-- Looks at the forms of the queue in turn. -/
def searchQueue (rules : List Rule) (target : Form) (seen : SortedSet Form)
    (queue : List (Form × Nat)) : Bool :=
  match queue with
  | [] => false
  | (form, left) :: rest =>
    if form = target then
      true
    else
      match left with
      | 0 => searchQueue rules target seen rest
      | left + 1 =>
        let new := newcomers (Form.terminalCount target) seen (rewrite rules form)
        searchQueue rules target (seen ∪ .ofList new) (rest ++ new.map (·, left))
termination_by stepsLeft queue
decreasing_by
  · -- Nothing joins in the place of the form.
    have hnone : ∀ entry ∈ ([] : List (Form × Nat)), entry.2 < 0 := nofun
    have hlt := stepsLeft_lt form rest hnone
    rwa [List.append_nil] at hlt
  · -- What joins has one step less.
    refine stepsLeft_lt form rest fun entry hentry => ?_
    obtain ⟨_, _, rfl⟩ := List.mem_map.1 hentry
    exact Nat.lt_succ_self left

section Turns

variable {rules : List Rule} {target form : Form} {seen : SortedSet Form}
variable {rest : List (Form × Nat)} {left : Nat}

/-- An empty queue has no target in it. -/
theorem searchQueue_nil : searchQueue rules target seen [] = false := by
  rw [searchQueue]

/-- The search ends at the target, with forms left in the queue or not. -/
theorem searchQueue_of_found (h : form = target) :
    searchQueue rules target seen ((form, left) :: rest) = true := by
  rw [searchQueue.eq_def]
  exact if_pos h

/-- A form without a step left is taken off, and nothing joins. -/
theorem searchQueue_of_used_up (h : form ≠ target) :
    searchQueue rules target seen ((form, 0) :: rest) = searchQueue rules target seen rest := by
  rw [searchQueue, if_neg h]

/-- A form with steps left is taken off, and what one step leads to joins at the end. -/
theorem searchQueue_of_followed (h : form ≠ target) :
    searchQueue rules target seen ((form, left + 1) :: rest) =
      searchQueue rules target
        (seen ∪ .ofList (newcomers (Form.terminalCount target) seen (rewrite rules form)))
        (rest ++ (newcomers (Form.terminalCount target) seen (rewrite rules form)).map
          (·, left)) := by
  rw [searchQueue, if_neg h]

end Turns

/-- Whether the source derives the target in at most so many steps, searched with a queue. -/
def derivesByQueue (rules : List Rule) (source target : Form) (steps : Nat) : Bool :=
  searchQueue rules target {source} [(source, steps)]

/-! ## Any limit

Counting up from the source, a form is not followed when its count is equal to the limit. With a
limit from 0 on this is what counting down does; with a negative limit it never happens. So the
recursion is on the number of turns here, since the queue need not become empty. -/

/-- Looks at so many forms of the queue in turn, each with the number of steps made on the way to
it. A form that has used up the limit is not followed. There is no answer if the turns are used up
before the queue. -/
def searchQueue? (rules : List Rule) (target : Form) (limit : Int) :
    (turns : Nat) → (seen : SortedSet Form) → (queue : List (Form × Nat)) → Option Bool
  | _, _, [] => some false
  | 0, _, _ :: _ => none
  | turns + 1, seen, (form, steps) :: rest =>
    if form = target then
      some true
    else if (steps : Int) = limit then
      searchQueue? rules target limit turns seen rest
    else
      let new := newcomers (Form.terminalCount target) seen (rewrite rules form)
      searchQueue? rules target limit turns (seen ∪ .ofList new) (rest ++ new.map (·, steps + 1))

section Turns

variable {rules : List Rule} {target form : Form} {limit : Int} {seen : SortedSet Form}
variable {rest : List (Form × Nat)} {turns steps : Nat}

/-- An empty queue settles the search also when no turns are left. -/
theorem searchQueue?_nil : searchQueue? rules target limit turns seen [] = some false := by
  rw [searchQueue?]

/-- The turn that meets the target is the last one. -/
theorem searchQueue?_of_found (h : form = target) :
    searchQueue? rules target limit (turns + 1) seen ((form, steps) :: rest) = some true := by
  rw [searchQueue?, if_pos h]

/-- A form that has come as far as the limit is taken off, and nothing joins. -/
theorem searchQueue?_of_used_up (h : form ≠ target) (hlimit : (steps : Int) = limit) :
    searchQueue? rules target limit (turns + 1) seen ((form, steps) :: rest) =
      searchQueue? rules target limit turns seen rest := by
  rw [searchQueue?, if_neg h, if_pos hlimit]

/-- Short of the limit, or with a limit that no number of steps is equal to, what one step leads to
joins at the end. -/
theorem searchQueue?_of_followed (h : form ≠ target) (hlimit : (steps : Int) ≠ limit) :
    searchQueue? rules target limit (turns + 1) seen ((form, steps) :: rest) =
      searchQueue? rules target limit turns
        (seen ∪ .ofList (newcomers (Form.terminalCount target) seen (rewrite rules form)))
        (rest ++ (newcomers (Form.terminalCount target) seen (rewrite rules form)).map
          (·, steps + 1)) := by
  rw [searchQueue?, if_neg h, if_neg hlimit]

end Turns

/-- Whether the source derives the target in at most so many steps, or in any number of steps if the
limit is negative, if so many turns settle it. -/
def derivesByQueue? (rules : List Rule) (source target : Form) (limit : Int) (turns : Nat) :
    Option Bool :=
  searchQueue? rules target limit turns {source} [(source, 0)]

end Rewriting

end ContextFree
