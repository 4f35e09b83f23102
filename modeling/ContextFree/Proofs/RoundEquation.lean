import ContextFree.Proofs.NullableRounds
import Mathlib.Order.Lattice.Nat

/-!
# ContextFree — the rounds of nullable names by the rules

A name is found one round after the last symbol of a body that it heads, for the body that is found
first of all. So the rules determine the rounds: the round of a name is one more than the least
latest round of its nullable bodies, whichever way the rules lead in circles. A round can only be
followed by another if it finds something, so no round is left out, and each takes a generator.

The names and rounds are tied to the closure in one place: a name is found within so many rounds
just if it is nullable and its round is no later (`IsRoundOf`). Everything else is read off from
this.

Main statements: `Grammar.IsRoundOf.isNullable_iterate_iff` (when a form is nullable with the names
found so far), `Grammar.IsRoundOf.isLeast_latestRound` (the equation),
`Grammar.IsRoundOf.exists_round_eq` (no gaps) and `Grammar.nullableTrace_satisfies_round_equation`.
-/

namespace ContextFree

open Closure

/-- The latest round of a symbol of the form, 0 if there are no symbols. -/
def Form.latestRound (round : Name → Nat) (form : Form) : Nat :=
  (form.map fun s => round s.name).max?.getD 0

/-- All symbols of a form have been found by some round just if the latest of them has. -/
theorem Form.latestRound_le_iff {round : Name → Nat} {form : Form} {k : Nat} :
    latestRound round form ≤ k ↔ ∀ s ∈ form, round s.name ≤ k := by
  show lastRound (form.map fun s => round s.name) ≤ k ↔ _
  rw [lastRound_le_iff]
  exact List.forall_mem_map

namespace Grammar

variable {g : Grammar} {names : SortedSet Name} {round : Name → Nat}

/-- So many rounds find exactly the names whose round is no later. -/
def IsRoundOf (g : Grammar) (names : SortedSet Name) (round : Name → Nat) : Prop :=
  ∀ k v, v ∈ g.addNullables^[k] ∅ ↔ v ∈ names ∧ round v ≤ k

/-- The round of a nullable name is the least one that finds it. -/
theorem IsNullableSet.exists_isRoundOf (hnames : g.IsNullableSet names) :
    ∃ round, g.IsRoundOf names round := by
  refine ⟨fun v => sInf {k | v ∈ g.addNullables^[k] ∅}, fun k v => ?_⟩
  constructor
  · intro hv
    exact ⟨hnames.mem_iff_exists_round.2 ⟨k, hv⟩, Nat.sInf_le hv⟩
  · intro h
    obtain ⟨hv, hround⟩ := h
    have hfirst : v ∈ g.addNullables^[sInf {k | v ∈ g.addNullables^[k] ∅}] ∅ :=
      Nat.sInf_mem (hnames.mem_iff_exists_round.1 hv)
    exact g.iterate_addNullables_subset hround v hfirst

namespace IsRoundOf

theorem isLeast_iff (h : g.IsRoundOf names round) {v : Name} {r : Nat} :
    IsLeast {k | v ∈ g.addNullables^[k] ∅} r ↔ v ∈ names ∧ r = round v := by
  constructor
  · intro hleast
    obtain ⟨hv, hle⟩ := (h r v).1 hleast.1
    have hge : r ≤ round v := hleast.2 ((h _ v).2 ⟨hv, Nat.le_refl _⟩)
    exact ⟨hv, by omega⟩
  · intro hround
    obtain ⟨hv, rfl⟩ := hround
    exact ⟨(h _ v).2 ⟨hv, Nat.le_refl _⟩, fun k hk => ((h k v).1 hk).2⟩

/-- A form is nullable with the names found so far if it is nullable in the end and its latest
symbol has been found. -/
theorem isNullable_iterate_iff (h : g.IsRoundOf names round) {k : Nat} {form : Form} :
    Form.isNullable (g.addNullables^[k] ∅) form = true ↔
      Form.isNullable names form = true ∧ Form.latestRound round form ≤ k := by
  rw [Form.isNullable_iff, Form.isNullable_iff, Form.latestRound_le_iff]
  constructor
  · intro hform
    refine ⟨fun s hs => ?_, fun s hs => ?_⟩
    · obtain ⟨v, hv, rfl⟩ := hform s hs
      exact ⟨v, ((h k v).1 hv).1, rfl⟩
    · obtain ⟨v, hv, rfl⟩ := hform s hs
      exact ((h k v).1 hv).2
  · intro hform s hs
    obtain ⟨hnullable, hlatest⟩ := hform
    obtain ⟨v, hv, rfl⟩ := hnullable s hs
    exact ⟨v, (h k v).2 ⟨hv, hlatest _ hs⟩, rfl⟩

/-! ## The equation

A nullable body makes its head nullable one round after its last symbol, so the round of a name is
at most one more than that for each of its nullable bodies. And it is not less for all of them,
since the round that found the name found it by one of these bodies. -/

/-- A name is found at the latest one round after any of its nullable bodies. -/
theorem round_le (h : g.IsRoundOf names round) {v : Name} {body : Form} (hr : ⟨v, body⟩ ∈ g.rules)
    (hbody : Form.isNullable names body = true) : round v ≤ 1 + Form.latestRound round body := by
  have hfound : v ∈ g.addNullables^[Form.latestRound round body + 1] ∅ := by
    rw [Function.iterate_succ_apply']
    exact mem_addNullables.2
      (.inr ⟨_, hr, h.isNullable_iterate_iff.2 ⟨hbody, Nat.le_refl _⟩, rfl⟩)
  have hle := ((h _ v).1 hfound).2
  omega

/-- One of its nullable bodies had been found by the round before. -/
theorem exists_body (h : g.IsRoundOf names round) {v : Name} (hv : v ∈ names) :
    ∃ body, ⟨v, body⟩ ∈ g.rules ∧ Form.isNullable names body = true ∧
      1 + Form.latestRound round body ≤ round v := by
  have hfound : v ∈ g.addNullables^[round v] ∅ := (h _ v).2 ⟨hv, Nat.le_refl _⟩
  cases hround : round v with
  | zero =>
    rw [hround] at hfound
    exact absurd hfound (SortedSet.not_mem_empty v)
  | succ k =>
    rw [hround, Function.iterate_succ_apply'] at hfound
    -- It was not there before, so there is a body for which this round added it.
    rcases mem_addNullables.1 hfound with hbefore | ⟨r, hr, hbody, rfl⟩
    · have hle := ((h k v).1 hbefore).2
      omega
    · obtain ⟨hnullable, hlatest⟩ := h.isNullable_iterate_iff.1 hbody
      exact ⟨r.body, hr, hnullable, by omega⟩

/-- The round of a name is one more than the least latest round of its nullable bodies. -/
theorem isLeast_latestRound (h : g.IsRoundOf names round) {v : Name} (hv : v ∈ names) :
    IsLeast {k | ∃ body, ⟨v, body⟩ ∈ g.rules ∧ Form.isNullable names body = true ∧
      k = 1 + Form.latestRound round body} (round v) := by
  constructor
  · obtain ⟨body, hr, hbody, hle⟩ := h.exists_body hv
    exact ⟨body, hr, hbody, Nat.le_antisymm (h.round_le hr hbody) hle⟩
  · intro k hk
    obtain ⟨body, hr, hbody, rfl⟩ := hk
    exact h.round_le hr hbody

/-! ## How many rounds there are

A round between the first and the last that found nothing would be the last, as every later round
does the same. So each of them finds a name, and different rounds find different names. -/

variable {last : Nat}

/-- A name is found before the rounds settle. -/
theorem round_le_of_settlesAt (h : g.IsRoundOf names round)
    (hlast : SettlesAt g.addNullables ∅ last) {v : Name} (hv : v ∈ names) : round v ≤ last := by
  have hfound : v ∈ g.addNullables^[round v] ∅ := (h _ v).2 ⟨hv, Nat.le_refl _⟩
  have hsettled : v ∈ g.addNullables^[last] ∅ :=
    g.growsWithin_addNullables.iterate_subset_settled (SortedSet.empty_subset _) hlast _ v hfound
  exact ((h last v).1 hsettled).2

/-- Up to where the rounds settle each of them finds a name. -/
theorem exists_round_eq (h : g.IsRoundOf names round) (hlast : SettlesAt g.addNullables ∅ last)
    {i : Nat} (hpos : 0 < i) (hi : i ≤ last) : ∃ u ∈ names, round u = i := by
  obtain ⟨k, rfl⟩ := Nat.exists_eq_add_one.2 hpos
  by_contra hnone
  -- Whatever the round has would have been found by the round before it.
  refine hlast.changes k (by omega) (SortedSet.subset_antisymm (fun u hu => ?_) ?_)
  · obtain ⟨hmem, hle⟩ := (h _ u).1 hu
    have hother : round u ≠ k + 1 := fun heq => hnone ⟨u, hmem, heq⟩
    exact (h k u).2 ⟨hmem, by omega⟩
  · exact g.iterate_addNullables_subset (Nat.le_succ k)

end IsRoundOf

/-! ## The trace

What is left is to read the rounds off the rows of the trace: a row is a nullable name with its
round, so the names of the rows are without repetitions. -/

section Rows

variable {rows : SortedSet NullableRow}

theorem nodup_map_name (hrows : ∀ v r, ⟨v, r⟩ ∈ rows ↔ v ∈ names ∧ r = round v) :
    (rows.toList.map NullableRow.name).Nodup := by
  have hround : ∀ row ∈ rows.toList, row.round = round row.name := fun row hrow =>
    ((hrows row.name row.round).1 (SortedSet.mem_toList.1 hrow)).2
  refine rows.nodup_toList.map_on fun row hrow row' hrow' hname => ?_
  have hsame : row.round = row'.round := by
    rw [hround row hrow, hround row' hrow', hname]
  cases row
  cases row'
  congr

theorem mem_map_name_iff (hrows : ∀ v r, ⟨v, r⟩ ∈ rows ↔ v ∈ names ∧ r = round v) {v : Name} :
    v ∈ rows.toList.map NullableRow.name ↔ v ∈ names := by
  rw [List.mem_map]
  constructor
  · intro h
    obtain ⟨row, hrow, rfl⟩ := h
    exact ((hrows row.name row.round).1 (SortedSet.mem_toList.1 hrow)).1
  · intro hv
    exact ⟨⟨v, round v⟩, SortedSet.mem_toList.2 ((hrows v _).2 ⟨hv, rfl⟩), rfl⟩

end Rows

/-- **The rules determine the rounds.** The trace lists each nullable name once. The round of a name
is one more than the latest round of the symbols of a body, 0 if the body is empty, for the rule of
the name with the least such round, among those with a body of nullable nonterminals only. No round
up to the last is without a name, and there are no more rounds than generators. -/
theorem nullableTrace_satisfies_round_equation (g : Grammar) :
    ∃ names rows, ∃ round : Name → Nat, g.computeNullable.outcome = .ok names ∧
      g.nullableTrace.outcome = .ok rows ∧
      (rows.toList.map NullableRow.name).Nodup ∧
      (∀ v, v ∈ rows.toList.map NullableRow.name ↔ v ∈ names) ∧
      (∀ v r, ⟨v, r⟩ ∈ rows ↔ v ∈ names ∧ r = round v) ∧
      (∀ v ∈ names, IsLeast {k | ∃ body : Form, ⟨v, body⟩ ∈ g.rules ∧
        (∀ s ∈ body, ∃ u ∈ names, s = .nonterminal u) ∧
        k = 1 + Form.latestRound round body} (round v)) ∧
      ∀ v ∈ names, round v ≤ g.generators.size ∧
        ∀ i, 0 < i → i ≤ round v → ∃ u ∈ names, round u = i := by
  obtain ⟨names, houtcome, hnames⟩ := g.exists_computeNullable
  obtain ⟨rows, htrace, hleast⟩ := g.exists_nullableTrace
  obtain ⟨round, hround⟩ := hnames.exists_isRoundOf
  have hrows : ∀ v r, ⟨v, r⟩ ∈ rows ↔ v ∈ names ∧ r = round v := fun v r =>
    (hleast v r).trans hround.isLeast_iff
  obtain ⟨last, hfew, hlast⟩ := g.exists_settlesAt_addNullables ∅
  refine ⟨names, rows, round, houtcome, htrace, nodup_map_name hrows,
    fun v => mem_map_name_iff hrows, hrows, fun v hv => ?_, fun v hv => ?_⟩
  · simp only [← Form.isNullable_iff]
    exact hround.isLeast_latestRound hv
  · -- The rounds of names are those up to the last, and that one is no later than there are
    -- generators.
    have hle : round v ≤ last := hround.round_le_of_settlesAt hlast hv
    exact ⟨Nat.le_trans hle hfew,
      fun i hpos hi => hround.exists_round_eq hlast hpos (Nat.le_trans hi hle)⟩

/-- A name for nothing, one for twice nothing, one for the second, and one for the first together
with the second or the third. The second name stands for the last as well. -/
def detour : Grammar where
  nonterminals := ∅
  goal := .text "S"
  rules := .ofList [⟨.text "A", []⟩,
    ⟨.text "B", [.nonterminal (.text "A"), .nonterminal (.text "A")]⟩,
    ⟨.text "B", [.nonterminal (.text "S")]⟩,
    ⟨.text "C", [.nonterminal (.text "B")]⟩,
    ⟨.text "S", [.nonterminal (.text "C"), .nonterminal (.text "A")]⟩,
    ⟨.text "S", [.nonterminal (.text "A"), .nonterminal (.text "B")]⟩]

/-- The goal is found in the third round, since one of its bodies has been found by the second, and
there is a name of the second round. -/
theorem detour_rounds :
    ∃ names rows, ∃ round : Name → Nat, detour.computeNullable.outcome = .ok names ∧
      detour.nullableTrace.outcome = .ok rows ∧ .text "S" ∈ names ∧ ⟨.text "S", 3⟩ ∈ rows ∧
      (∃ body : Form, ⟨.text "S", body⟩ ∈ detour.rules ∧ Form.latestRound round body = 2) ∧
      3 ≤ detour.generators.size ∧ ∃ u, ⟨u, 2⟩ ∈ rows := by
  obtain ⟨names, rows, round, hnullable, htrace, -, -, hrows, hequation, hgaps⟩ :=
    nullableTrace_satisfies_round_equation detour
  have hS : ⟨.text "S", 3⟩ ∈ rows := by
    obtain ⟨rows', htrace', hleast⟩ := detour.exists_nullableTrace
    obtain rfl : rows' = rows := Except.ok.inj (htrace'.symm.trans htrace)
    exact (hleast _ 3).2 (isLeast_round_succ (by decide +kernel) (by decide +kernel))
  obtain ⟨hmem, hround⟩ := (hrows _ _).1 hS
  obtain ⟨body, hr, -, hlatest⟩ := (hequation _ hmem).1
  obtain ⟨hfew, hnone⟩ := hgaps _ hmem
  obtain ⟨u, hu, hsecond⟩ := hnone 2 (by decide) (by omega)
  exact ⟨names, rows, round, hnullable, htrace, hmem, hS, ⟨body, hr, by omega⟩, by omega, u,
    (hrows u 2).2 ⟨hu, hsecond.symm⟩⟩

end Grammar

end ContextFree
