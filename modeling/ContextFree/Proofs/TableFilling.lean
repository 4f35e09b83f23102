import ContextFree.Proofs.Faultless

/-!
# ContextFree — tables filled in a walk through the rounds

The round in which something was found can be asked of the rounds themselves, or it can be written
down on a walk through them, where only the first visit to anything leaves a mark. Both tables of a
grammar can be had either way: the trace of the nullable names keeps an entry for each name that the
walk comes by, and the table of the unit pairs starts with a cell for each two generators, one of
which must be there for every pair.

Main statements: `PairTable.exists_foldlM_write` (what the cells hold after any visits),
`Grammar.exists_fill_unitPairTable` and `Grammar.nullableTraceByVisits_eq`.
-/

namespace ContextFree

open Std Closure

namespace PairTable

/-! ## Blank cells

The table begins with nothing but blanks, so it makes no difference that a cell is laid out again
where a name stands in the index twice. -/

theorem getElem?_foldl_insert_none (places : List Arc) (cells : TreeMap Arc (Option Nat))
    (p : Arc) :
    (places.foldl (fun cells p => cells.insert p none) cells)[p]? =
      if p ∈ places then some none else cells[p]? := by
  induction places generalizing cells with
  | nil => exact (if_neg List.not_mem_nil).symm
  | cons q places ih =>
    rw [List.foldl_cons, ih, TreeMap.getElem?_insert]
    simp only [LawfulEqCmp.compare_eq_iff_eq, List.mem_cons]
    grind

/-- There is a cell for each two names of the index, and no other. -/
theorem getElem?_blank (index : List Name) (p : Arc) :
    (blank index)[p]? = if p.source ∈ index ∧ p.target ∈ index then some none else none := by
  have hplace : p ∈ index.flatMap (fun source => index.map (Arc.mk source)) ↔
      p.source ∈ index ∧ p.target ∈ index := by
    cases p
    simp [and_left_comm]
  rw [blank, getElem?_foldl_insert_none, TreeMap.getElem?_emptyc]
  simp only [hplace]

/-! ## Writing

A visit writes in one cell at most. What is written stays, so a cell ends up with the number of the
first visit to its pair. -/

/-- A visit to a pair that has a cell fills it if it is blank, and changes no other. -/
theorem exists_write {cells : TreeMap Arc (Option Nat)} {visit : Arc × Nat} (h : visit.1 ∈ cells) :
    ∃ written, write cells visit = some written ∧
      ∀ p : Arc, written[p]? = cells[p]?.map fun cell => cell.or ([visit].lookup p) := by
  obtain ⟨q, k⟩ := visit
  obtain ⟨cell, hcell⟩ : ∃ cell, cells[q]? = some cell :=
    Option.isSome_iff_exists.1 (TreeMap.isSome_getElem?_eq_contains.trans h)
  cases cell with
  | none =>
    -- A blank cell is filled, so this is the first visit to its pair.
    refine ⟨cells.insert q (some k), by simp [write, hcell], fun p => ?_⟩
    rw [TreeMap.getElem?_insert]
    by_cases hsame : p = q
    · subst hsame
      simp [hcell]
    · have hcompare : compare q p ≠ .eq := fun h => hsame (LawfulEqCmp.eq_of_compare h).symm
      rw [if_neg hcompare, List.lookup_cons, beq_false_of_ne hsame]
      simp
  | some first =>
    -- The cell has the number of an earlier visit, which stays.
    refine ⟨cells, by simp [write, hcell], fun p => ?_⟩
    by_cases hsame : p = q
    · subst hsame
      simp [hcell]
    · rw [List.lookup_cons, beq_false_of_ne hsame]
      simp

/-- As long as every pair has a cell, the visits are all written, and a cell that was blank holds
the number of the first visit to its pair. -/
theorem exists_foldlM_write (visits : List (Arc × Nat)) {cells : TreeMap Arc (Option Nat)}
    (h : ∀ visit ∈ visits, visit.1 ∈ cells) :
    ∃ filled, visits.foldlM write cells = some filled ∧
      ∀ p : Arc, filled[p]? = cells[p]?.map fun cell => cell.or (visits.lookup p) := by
  induction visits generalizing cells with
  | nil => exact ⟨cells, rfl, fun p => by simp⟩
  | cons visit visits ih =>
    obtain ⟨written, hwrite, hwritten⟩ := exists_write (h visit List.mem_cons_self)
    -- No cell goes away, so the later visits find theirs.
    have hcells : ∀ later ∈ visits, later.1 ∈ written := fun later hlater => by
      have hcell := h later (List.mem_cons_of_mem visit hlater)
      rw [TreeMap.mem_iff_isSome_getElem?] at hcell ⊢
      rwa [hwritten, Option.isSome_map]
    obtain ⟨filled, hfill, hfilled⟩ := ih hcells
    refine ⟨filled, by rw [List.foldlM_cons, hwrite]; exact hfill, fun p => ?_⟩
    have hlookup : (visit :: visits).lookup p = ([visit].lookup p).or (visits.lookup p) := by
      rw [← List.lookup_append, List.singleton_append]
    rw [hfilled, hwritten, Option.map_map, hlookup]
    exact congrArg (cells[p]?.map ·) (funext fun cell => Option.or_assoc)

/-- A table whose rounds stay within its index can be filled, and a cell holds the round of its
pair. -/
theorem exists_fill {listing : SortedSet Arc → List Arc} (hlisting : ∀ s a, a ∈ listing s ↔ a ∈ s)
    {table : PairTable} (hindex : ∀ pairs ∈ table.rounds.toList, ∀ p ∈ pairs,
      p.source ∈ table.index ∧ p.target ∈ table.index) :
    ∃ cells, table.fill listing = some cells ∧ ∀ p : Arc, cells[p]? =
      if p.source ∈ table.index ∧ p.target ∈ table.index then some (table.cell p.source p.target)
      else none := by
  have hblank : ∀ visit ∈ table.rounds.visits listing, visit.1 ∈ blank table.index := by
    rintro ⟨p, k⟩ hvisit
    obtain ⟨pairs, hpairs, hp⟩ := Rounds.exists_mem_of_mem_visits hlisting hvisit
    rw [TreeMap.mem_iff_isSome_getElem?, getElem?_blank, if_pos (hindex pairs hpairs p hp)]
    rfl
  obtain ⟨cells, hfill, hcells⟩ := exists_foldlM_write (table.rounds.visits listing) hblank
  refine ⟨cells, hfill, fun p => ?_⟩
  rw [hcells, getElem?_blank, Rounds.lookup_visits hlisting]
  split
  · exact congrArg some Option.none_or
  · rfl

end PairTable

namespace Grammar

/-! ## The two tables of a grammar

The rounds of a grammar rise within their universe. For the unit pairs this means that every pair
has a cell. For the nullable names it means that a name with an entry is still there in the last
round, from which the trace takes its rows. -/

/-- **The table of the unit pairs can be filled cell by cell**, with each round listed in any order.
No pair is without a cell, and each cell of the index ends up with the round of its pair, or blank.
-/
theorem exists_fill_unitPairTable (g : Grammar) {listing : SortedSet Arc → List Arc}
    (hlisting : ∀ s a, a ∈ listing s ↔ a ∈ s) :
    ∃ table cells, g.unitPairTable.outcome = .ok table ∧ table.fill listing = some cells ∧
      ∀ p : Arc, cells[p]? =
        if p.source ∈ g.generators ∧ p.target ∈ g.generators then
          some (table.cell p.source p.target)
        else none := by
  obtain ⟨table, houtcome, hcovers⟩ := g.exists_unitPairTable_covers
  obtain ⟨table', houtcome', -, hindex, -, -⟩ := g.exists_unitPairTable
  obtain rfl : table = table' := Except.ok.inj (houtcome.symm.trans houtcome')
  obtain ⟨cells, hfill, hcells⟩ := PairTable.exists_fill hlisting hcovers
  simp only [hindex] at hcells
  exact ⟨table, cells, houtcome, hfill, hcells⟩

/-- Where whatever a round has is still there in the last one, the entries of a walk are the rows of
the names in the last round. -/
theorem ofList_firstSeen {listing : SortedSet Name → List Name}
    (hlisting : ∀ s a, a ∈ listing s ↔ a ∈ s) {rounds : Rounds Name}
    (hlater : ∀ v k, rounds.firstRound? v = some k → v ∈ rounds.last) :
    (.ofList ((rounds.firstSeen listing).toList.map fun (v, k) => ⟨v, k⟩) : SortedSet NullableRow) =
      rounds.last.flatMap fun v => (rounds.firstRound? v).toList.map fun k => ⟨v, k⟩ := by
  apply SortedSet.ext_mem
  rintro ⟨v, k⟩
  simp only [SortedSet.mem_ofList, SortedSet.mem_flatMap, List.mem_map, Prod.exists,
    TreeMap.mem_toList_iff_getElem?_eq_some, Rounds.getElem?_firstSeen hlisting,
    Option.mem_toList]
  constructor
  · rintro ⟨v, k, hk, ⟨⟩⟩
    exact ⟨v, hlater v k hk, k, hk, rfl⟩
  · rintro ⟨v, -, k, hk, ⟨⟩⟩
    exact ⟨v, k, hk, rfl⟩

/-- **The trace of the nullable names can be had in a walk through the rounds**, with each round
listed in any order. -/
theorem nullableTraceByVisits_eq (g : Grammar) {listing : SortedSet Name → List Name}
    (hlisting : ∀ s a, a ∈ listing s ↔ a ∈ s) :
    g.nullableTraceByVisits listing = g.nullableTrace := by
  obtain ⟨last, hlast, hrounds⟩ := g.exists_nullableRounds_eq
  -- The rounds rise, so the last one has whatever the walk comes by.
  have hlater : ∀ v k, (settledRounds g.addNullables ∅ last).firstRound? v = some k →
      v ∈ (settledRounds g.addNullables ∅ last).last := by
    intro v k hk
    rw [last_settledRounds]
    exact g.growsWithin_addNullables.iterate_subset_settled (SortedSet.empty_subset _) hlast k v
      (hlast.firstRound?_eq_some.1 hk).1
  rw [nullableTraceByVisits, nullableTrace, hrounds]
  exact congrArg (fun rows => Logged.mk _ (.ok rows)) (ofList_firstSeen hlisting hlater)

end Grammar

end ContextFree
