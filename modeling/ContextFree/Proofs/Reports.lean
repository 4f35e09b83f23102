import ContextFree.Proofs.ChainDistance
import ContextFree.Proofs.RoundEquation
import Mathlib.Data.List.ProdSigma

/-!
# ContextFree — what the closures report and what the tables show

A closure reports its rounds while it runs: how many elements there are, and how much room is left.
A table is made afterwards, and it shows for each element the round that found it. The two agree.
The elements found within a round are counted by the entries of the table that are no later, and a
round that is followed by another is too small. So the latest entry is the last round that took
effect, and the reports can be written down from the entries alone.

Main statements: `Closure.foundWithin_eq_length_iff` (the latest entry is where the counts stop),
`Closure.SettlesAt.lastRound_eq` and `Closure.events_solved_eq_reports` (entries that count the
rounds of a closure end where it settles, and tell what it reports),
`Grammar.exists_nullableTrace_counts` and `Grammar.exists_unitPairTable_counts` (the entries of both
tables count the rounds), and `Grammar.reports_agree_with_tables`.
-/

namespace ContextFree

namespace Closure

/-! ## Reports read off the rounds in which elements were found

All that is needed of a table is which rounds stand in it and how often, that is a list of numbers.
From such a list the reports of a closure are written down, without running it. -/

/-- How many of the rounds are no later than the given one. -/
def foundWithin (found : List Nat) (k : Nat) : Nat :=
  found.countP fun round => round ≤ k

/-- What is reported when elements are found in the given rounds, in a universe of so many elements:
each round with the elements found within it and the room left, and in the end all elements and
rounds. -/
def reports (solved : Nat → Nat → Event) (whole : Nat) (found : List Nat) : List Event :=
  (List.range' 1 (lastRound found)).map (fun k =>
    .round k (foundWithin found k) (whole - foundWithin found k)) ++
  [solved (foundWithin found (lastRound found)) (lastRound found)]

/-- There is a report of each round up to the latest, and one more. -/
theorem map_reporter_reports (solved : Nat → Nat → Event) (whole : Nat) (found : List Nat) :
    (reports solved whole found).map Event.reporter =
      List.replicate (lastRound found) .closure ++
        [(solved (foundWithin found (lastRound found)) (lastRound found)).reporter] := by
  rw [reports, List.map_append, List.map_map, List.map_singleton]
  show (List.range' 1 (lastRound found)).map (fun _ => Reporter.closure) ++ _ = _
  rw [List.map_const', List.length_range']

/-- All is found within a round just if no entry is later. -/
theorem foundWithin_eq_length_iff {found : List Nat} {k : Nat} :
    foundWithin found k = found.length ↔ lastRound found ≤ k := by
  rw [foundWithin, List.countP_eq_length, lastRound_le_iff]
  simp only [decide_eq_true_eq]

section Settling

variable {α : Type} [Ord α] [Std.TransOrd α] [Std.LawfulEqOrd α]
variable {f : SortedSet α → SortedSet α} {start whole : SortedSet α} {n : Nat} {found : List Nat}

/-- A round has as many elements as the one that settles just if it is no earlier. -/
theorem SettlesAt.size_iterate_eq_iff (h : SettlesAt f start n) (hf : GrowsWithin whole f)
    (hstart : start ⊆ whole) {k : Nat} : (f^[k] start).size = (f^[n] start).size ↔ n ≤ k := by
  constructor
  · intro hsize
    by_contra hlt
    have hgrows : (f^[k] start).size < (f^[k + 1] start).size :=
      SortedSet.size_lt_of_subset_of_ne (hf.subset_iterate_succ hstart k) (h.changes k (by omega))
    have hmore : (f^[k + 1] start).size ≤ (f^[n] start).size :=
      SortedSet.size_le_of_subset (hf.iterate_subset_iterate hstart (by omega))
    omega
  · intro hk
    rw [h.iterate_eq hk]

/-- Entries that count the rounds of a closure end where the closure settles. -/
theorem SettlesAt.lastRound_eq (h : SettlesAt f start n) (hf : GrowsWithin whole f)
    (hstart : start ⊆ whole) (hcount : ∀ k, foundWithin found k = (f^[k] start).size) :
    lastRound found = n := by
  -- Late enough, all entries are counted and the closure has settled.
  have hall : found.length = (f^[n] start).size := by
    have hlate : foundWithin found (max n (lastRound found)) = found.length :=
      foundWithin_eq_length_iff.2 (Nat.le_max_right _ _)
    rw [← hlate, hcount, h.iterate_eq (Nat.le_max_left _ _)]
  have hsame : ∀ k, lastRound found ≤ k ↔ n ≤ k := by
    intro k
    rw [← foundWithin_eq_length_iff, hcount, hall, h.size_iterate_eq_iff hf hstart]
  exact Nat.le_antisymm ((hsame n).2 (Nat.le_refl n)) ((hsame _).1 (Nat.le_refl _))

/-- They tell what is reported by a closure that reports in the end how many elements it found. -/
theorem events_solved_eq_reports (hf : GrowsWithin whole f) (hstart : start ⊆ whole) {room : Nat}
    (hroom : whole.size ≤ room) (hcount : ∀ k, foundWithin found k = (f^[k] start).size)
    (solved : Nat → Nat → Event) :
    (do
      let rounds ← iterate start (fun _ => f) room
      Logged.report (solved rounds.last.size rounds.count)
      return rounds.last : Logged (Fault α) (SortedSet α)).events = reports solved room found := by
  obtain ⟨n, hn, hrounds⟩ := exists_iterate_eq hf hstart (Int.ofNat_le.2 hroom)
  have hok : (iterate start (fun _ => f) (room : Int)).outcome = .ok (settledRounds f start n) := by
    rw [hrounds]
  -- Whatever is reported goes by sizes of stages, and these are what the entries count.
  rw [Logged.events_bind_ok hok, hrounds, last_settledRounds, count_settledRounds, reports,
    hn.lastRound_eq hf hstart hcount]
  simp only [hcount]
  rfl

end Settling

end Closure

/-- The numbers that stand in the cells. -/
def PairTable.numbers (table : PairTable) : List Nat :=
  table.rows.flatten.filterMap id

/-- The rows one after the other have a cell for each pair of names of the index, in the order of
the pairs. -/
theorem PairTable.flatten_rows (table : PairTable) :
    table.rows.flatten = (table.index ×ˢ table.index).map fun p => table.cell p.1 p.2 := by
  simp [rows, SProd.sprod, List.product, List.map_flatMap, ← List.flatMap_def, Function.comp_def]

namespace Grammar

open Closure

/-! ## The entries of the tables

Each element has one entry, the round that found it first. So to count the entries up to some round
is to count the elements that have been found by then. -/

/-- The rows of the trace count the names that its rounds find. -/
theorem exists_nullableTrace_counts (g : Grammar) :
    ∃ rows, g.nullableTrace.outcome = .ok rows ∧
      ∀ k, foundWithin (rows.toList.map NullableRow.round) k = (g.addNullables^[k] ∅).size := by
  obtain ⟨names, -, hnames⟩ := g.exists_computeNullable
  obtain ⟨rows, htrace, hleast⟩ := g.exists_nullableTrace
  obtain ⟨round, hround⟩ := hnames.exists_isRoundOf
  have hrows : ∀ v r, ⟨v, r⟩ ∈ rows ↔ v ∈ names ∧ r = round v := fun v r =>
    (hleast v r).trans hround.isLeast_iff
  refine ⟨rows, htrace, fun k => ?_⟩
  unfold foundWithin
  rw [List.countP_map]
  -- Each name has one row, so to count rows is to count names.
  refine SortedSet.countP_eq_size (nodup_map_name hrows) fun v => ?_
  rw [hround k v]
  constructor
  · intro h
    exact ⟨⟨v, round v⟩, SortedSet.mem_toList.2 ((hrows v _).2 ⟨h.1, rfl⟩), decide_eq_true h.2, rfl⟩
  · rintro ⟨⟨u, r⟩, hrow, hr, rfl⟩
    obtain ⟨hu, rfl⟩ := (hrows u r).1 (SortedSet.mem_toList.1 hrow)
    exact ⟨hu, of_decide_eq_true hr⟩

/-- The numbers in the table count the pairs that its rounds find. -/
theorem exists_unitPairTable_counts (g : Grammar) :
    ∃ table, g.unitPairTable.outcome = .ok table ∧ ∀ k, foundWithin table.numbers k =
      (g.extendPairs^[k] (Arc.diagonal g.generators)).size := by
  obtain ⟨table, houtcome, -, hindex, hnodup, hcell⟩ := g.exists_unitPairTable
  refine ⟨table, houtcome, fun k => ?_⟩
  unfold foundWithin PairTable.numbers
  rw [List.countP_filterMap, table.flatten_rows, List.countP_map]
  -- Each pair has one cell, so to count cells is to count pairs.
  have hkeys : ((table.index ×ˢ table.index).map fun p => (⟨p.1, p.2⟩ : Arc)).Nodup := by
    refine (hnodup.product hnodup).map fun p q h => ?_
    obtain ⟨hsource, htarget⟩ := Arc.mk.inj h
    exact Prod.ext hsource htarget
  refine SortedSet.countP_eq_size hkeys fun ⟨u, w⟩ => ?_
  rw [mem_iterate_diagonal, exists_le_chainPath_iff]
  constructor
  · rintro ⟨hw, n, hn, hleast⟩
    have hu : u ∈ g.generators := hleast.1.source_mem_generators hw
    have hnumber : table.cell u w = some n := (hcell u w n).2 ⟨hw, hleast⟩
    refine ⟨(u, w), List.pair_mem_product.2 ⟨(hindex u).2 hu, (hindex w).2 hw⟩, ?_, rfl⟩
    simp [hnumber, hn]
  · rintro ⟨⟨u', w'⟩, -, hcounted, hkey⟩
    obtain ⟨rfl, rfl⟩ := Arc.mk.inj hkey
    obtain ⟨n, hnumber, hn⟩ : ∃ n, table.cell u' w' = some n ∧ n ≤ k := by
      cases hnumber : table.cell u' w' <;> simp_all
    obtain ⟨hw, hleast⟩ := (hcell u' w' n).1 hnumber
    exact ⟨hw, n, hn, hleast⟩

/-! ## The reports of both closures

Both closures start their tables from the same rounds. What is left is to name their universes: the
generators, and the pairs of them. -/

/-- **Reports and tables agree.** The closure of the nullable names reports as many rounds as the
latest row of the trace says, each with the rows that are no later and the generators that are left,
and then the number of all rows and of the rounds. The closure of the unit pairs reports in the same
way what the numbers in the cells of its table say, in the universe of the pairs of generators. -/
theorem reports_agree_with_tables (g : Grammar) :
    (∃ rows, g.nullableTrace.outcome = .ok rows ∧
      g.computeNullable.events =
        reports .nullableSolved g.generators.size (rows.toList.map NullableRow.round) ∧
      g.computeNullable.events.map Event.reporter =
        List.replicate (lastRound (rows.toList.map NullableRow.round)) .closure ++ [.nullable]) ∧
    ∃ table, g.unitPairTable.outcome = .ok table ∧
      g.computeUnitPairs.events = reports .pairsSolved (g.generators.size ^ 2) table.numbers ∧
      g.computeUnitPairs.events.map Event.reporter =
        List.replicate (lastRound table.numbers) .closure ++ [.chain] := by
  constructor
  · obtain ⟨rows, htrace, hcount⟩ := g.exists_nullableTrace_counts
    have hreports : g.computeNullable.events =
        reports .nullableSolved g.generators.size (rows.toList.map NullableRow.round) :=
      events_solved_eq_reports g.growsWithin_addNullables (SortedSet.empty_subset _) (Nat.le_refl _)
        hcount .nullableSolved
    refine ⟨rows, htrace, hreports, ?_⟩
    rw [hreports, map_reporter_reports]
    rfl
  · obtain ⟨table, houtcome, hcount⟩ := g.exists_unitPairTable_counts
    have hreports : g.computeUnitPairs.events =
        reports .pairsSolved (g.generators.size ^ 2) table.numbers := by
      rw [Nat.pow_two]
      exact events_solved_eq_reports g.growsWithin_extendPairs (diagonal_subset_pairsWithin _)
        (size_pairsWithin_le _) hcount .pairsSolved
    refine ⟨table, houtcome, hreports, ?_⟩
    rw [hreports, map_reporter_reports]
    rfl

end Grammar

end ContextFree
