import ContextFree.Closure
import Std.Data.TreeMap

/-!
# ContextFree — the rounds of a closure, one element at a time

A walk through the rounds of a closure comes by each element once for every round that has it. Which
element of a round comes first is up to whoever lists the round, and nothing that is read off from a
walk may depend on it. The round in which an element is found is the first one that the walk comes
by it in.

Main statements: `Rounds.lookup_visits` (the first visit is in the first round) and
`Rounds.getElem?_firstSeen` (so is what a table keeps that is only written where it has no entry).
-/

namespace ContextFree

open Std

variable {α : Type} [Ord α] [TransOrd α]

namespace Rounds

/-- The elements of each set with the number of the set, the first of them being number `k`. -/
def visitsFrom (listing : SortedSet α → List α) (k : Nat) : List (SortedSet α) → List (α × Nat)
  | [] => []
  | s :: sets => (listing s).map (·, k) ++ visitsFrom listing (k + 1) sets

/-- The elements of the rounds in turn, each with the number of its round. -/
def visits (listing : SortedSet α → List α) (rounds : Rounds α) : List (α × Nat) :=
  visitsFrom listing 0 rounds.toList

/-- The number of the first visit to each element. -/
def firstSeen (listing : SortedSet α → List α) (rounds : Rounds α) : TreeMap α Nat :=
  (rounds.visits listing).foldl (fun seen visit => seen.insertIfNew visit.1 visit.2) ∅

variable {listing : SortedSet α → List α} {a : α}

/-! ## Which elements are visited

A walk visits what the rounds have, as long as every set is listed in full and nothing else is. -/

theorem exists_mem_of_mem_visitsFrom (hlisting : ∀ s a, a ∈ listing s ↔ a ∈ s) {k i : Nat}
    {sets : List (SortedSet α)} (h : (a, i) ∈ visitsFrom listing k sets) : ∃ s ∈ sets, a ∈ s := by
  induction sets generalizing k with
  | nil => cases h
  | cons s sets ih =>
    rcases List.mem_append.1 h with hhere | hlater
    · obtain ⟨b, hb, heq⟩ := List.mem_map.1 hhere
      obtain rfl : b = a := congrArg Prod.fst heq
      exact ⟨s, List.mem_cons_self, (hlisting s b).1 hb⟩
    · obtain ⟨t, ht, hmem⟩ := ih hlater
      exact ⟨t, List.mem_cons_of_mem s ht, hmem⟩

/-- Every visit is to an element of one of the rounds. -/
theorem exists_mem_of_mem_visits (hlisting : ∀ s a, a ∈ listing s ↔ a ∈ s) {i : Nat}
    {rounds : Rounds α} (h : (a, i) ∈ rounds.visits listing) : ∃ s ∈ rounds.toList, a ∈ s :=
  exists_mem_of_mem_visitsFrom hlisting h

/-! ## The first visit

Within a round all visits have the same number, so the order in which the round is listed is lost as
soon as only the first number is asked for. -/

section FirstVisit

variable [LawfulEqOrd α] [DecidableEq α]

theorem lookup_map_mk (l : List α) (k : Nat) (a : α) :
    (l.map (·, k)).lookup a = if a ∈ l then some k else none := by
  induction l with
  | nil => rfl
  | cons b l ih =>
    by_cases hab : a = b
    · subst hab
      simp
    · have hmem : a ∈ b :: l ↔ a ∈ l := List.mem_cons.trans (or_iff_right hab)
      rw [List.map_cons, List.lookup_cons, beq_false_of_ne hab, ih]
      simp only [hmem]

/-- The first visit has the number of the first set that has the element. -/
theorem lookup_visitsFrom (hlisting : ∀ s a, a ∈ listing s ↔ a ∈ s) (k : Nat)
    (sets : List (SortedSet α)) (a : α) :
    (visitsFrom listing k sets).lookup a = (sets.findIdx? fun s => a ∈ s).map (· + k) := by
  induction sets generalizing k with
  | nil => rfl
  | cons s sets ih =>
    rw [visitsFrom, List.lookup_append, lookup_map_mk, ih, List.findIdx?_cons]
    simp only [hlisting, decide_eq_true_eq]
    split
    · simp
    · -- The later sets are searched from a number higher by one, and each of them stands one
      -- further on.
      simp only [Option.none_or, Option.map_map]
      congr 1
      funext i
      exact Nat.add_right_comm i k 1

/-- **The first visit to an element is in the first round that has it**, whichever way the rounds
are listed. -/
theorem lookup_visits (hlisting : ∀ s a, a ∈ listing s ↔ a ∈ s) (rounds : Rounds α) (a : α) :
    (rounds.visits listing).lookup a = rounds.firstRound? a := by
  rw [visits, lookup_visitsFrom hlisting]
  exact Option.map_id'

/-- Where entries are only made for elements that have none, an old entry stays, and a new one is
that of the first visit. -/
theorem getElem?_foldl_insertIfNew (visits : List (α × Nat)) (seen : TreeMap α Nat) (a : α) :
    (visits.foldl (fun seen visit => seen.insertIfNew visit.1 visit.2) seen)[a]? =
      seen[a]?.or (visits.lookup a) := by
  induction visits generalizing seen with
  | nil => exact Option.or_none.symm
  | cons visit visits ih =>
    obtain ⟨b, k⟩ := visit
    rw [List.foldl_cons, ih, TreeMap.getElem?_insertIfNew, List.lookup_cons]
    by_cases hab : a = b
    · subst hab
      -- An entry that was there before the visit keeps its number.
      by_cases hseen : a ∈ seen
      · simp [hseen]
      · simp [hseen]
    · have hcompare : compare b a ≠ .eq := fun h => hab (LawfulEqCmp.eq_of_compare h).symm
      rw [beq_false_of_ne hab, if_neg fun h => hcompare h.1]

/-- The table has an entry for each element that some round has, and it is the first such round. -/
theorem getElem?_firstSeen (hlisting : ∀ s a, a ∈ listing s ↔ a ∈ s) (rounds : Rounds α) (a : α) :
    (rounds.firstSeen listing)[a]? = rounds.firstRound? a := by
  rw [firstSeen, getElem?_foldl_insertIfNew, TreeMap.getElem?_emptyc, Option.none_or,
    lookup_visits hlisting]

end FirstVisit

end Rounds

end ContextFree
