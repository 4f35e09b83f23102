import ContextFree.Name
import ContextFree.Proofs.Rounds

/-!
# ContextFree — the least fixed point

Where a step grows within a universe and never gets less from more, the last set of its closure is
the least one in the universe that has the start and that the step leaves as it is. Two such steps
are compared round by round: if the one never gets more than the other does from as much, it never
has more after as many rounds.

Main statements: `LeWithin.iterate_subset_iterate` (two steps compared, by induction on the rounds),
`LeWithin.iterate_subset_of_closed` (no round leads out of a closed set),
`GrowsWithin.isLeastFixedPoint` and `iterate_answers_least_fixed_point`.
-/

namespace ContextFree

open Std

variable {α : Type} [Ord α] [TransOrd α]

namespace Closure

/-- Whatever `f` gets from a set in the universe, `g` gets from every larger set there. -/
def LeWithin (whole : SortedSet α) (f g : SortedSet α → SortedSet α) : Prop :=
  ∀ s t, s ⊆ t → t ⊆ whole → f s ⊆ g t

/-- The set lies in the universe, has the start and is left as it is by the step, and it is the
least such set. -/
structure IsLeastFixedPoint (f : SortedSet α → SortedSet α) (start whole s : SortedSet α) :
    Prop where
  within : s ⊆ whole
  starts : start ⊆ s
  fixed : f s = s
  least : ∀ t, t ⊆ whole → start ⊆ t → f t = t → s ⊆ t

variable {whole start start' : SortedSet α} {f g : SortedSet α → SortedSet α}

/-- After as many rounds from as much, the step that gets less has no more. -/
theorem LeWithin.iterate_subset_iterate (hfg : LeWithin whole f g)
    (hg : ∀ k, g^[k] start' ⊆ whole) (hstart : start ⊆ start') (k : Nat) :
    f^[k] start ⊆ g^[k] start' := by
  induction k with
  | zero => exact hstart
  | succ k ih =>
    rw [Function.iterate_succ_apply', Function.iterate_succ_apply']
    exact hfg _ _ ih (hg k)

/-- A step that never gets less from more does not lead out of a set that has the start and that it
adds nothing to. -/
theorem LeWithin.iterate_subset_of_closed (hf : LeWithin whole f f) {t : SortedSet α}
    (ht : t ⊆ whole) (hstart : start ⊆ t) (hclosed : f t ⊆ t) (k : Nat) : f^[k] start ⊆ t := by
  induction k with
  | zero => exact hstart
  | succ k ih =>
    rw [Function.iterate_succ_apply']
    -- The set itself would not get out of itself, so less than it does not either.
    exact fun a ha => hclosed a (hf _ _ ih ht a ha)

/-- Of a step that never gets less from more, the set that the rounds settle at is below every set
that has the start and does not change. -/
theorem GrowsWithin.isLeastFixedPoint (hf : GrowsWithin whole f) (hmono : LeWithin whole f f)
    (hstart : start ⊆ whole) {n : Nat} (h : SettlesAt f start n) :
    IsLeastFixedPoint f start whole (f^[n] start) where
  within := hf.iterate_subset hstart n
  starts := hf.iterate_subset_iterate hstart (Nat.zero_le n)
  fixed := h.settled
  least _ ht hstart' hfixed :=
    hmono.iterate_subset_of_closed ht hstart' (SortedSet.subset_of_eq hfixed) n

variable [LawfulEqOrd α]

/-- **A closure answers with the least fixed point.** A step that grows within a universe there is
room for, and never gets less from more, is applied round after round without a fault, and the last
set is the least one in the universe that has the start and is left as it is. -/
theorem iterate_answers_least_fixed_point {bound : Int} (hf : GrowsWithin whole f)
    (hmono : LeWithin whole f f) (hstart : start ⊆ whole) (hbound : (whole.size : Int) ≤ bound) :
    ∃ rounds, (iterate start (fun _ => f) bound).outcome = .ok rounds ∧
      rounds.toList = (List.range (rounds.count + 1)).map (fun k => f^[k] start) ∧
      IsLeastFixedPoint f start whole rounds.last := by
  obtain ⟨n, hn, hrun⟩ := exists_iterate_eq hf hstart hbound
  have hcount : (settledRounds f start n).count = n := by
    rw [Rounds.count, settledRounds, List.length_map, List.length_range']
  refine ⟨settledRounds f start n, ?_, ?_, ?_⟩
  · rw [hrun]
  · rw [hcount, toList_settledRounds]
  · rw [last_settledRounds]
    exact hf.isLeastFixedPoint hmono hstart hn

/-- The numbers up to three. -/
def upToThree : SortedSet Name :=
  .ofList [.number 0, .number 1, .number 2, .number 3]

/-- Adds the double of each number there is, up to three. -/
def addDoubles (s : SortedSet Name) : SortedSet Name :=
  s ∪ (s.flatMap fun
    | .number n => [.number (2 * n)]
    | .text _ => []).filter (· ∈ upToThree)

/-- Only numbers up to three are added, and none is taken away. -/
theorem addDoubles_growsWithin : GrowsWithin upToThree addDoubles where
  grows s _ := SortedSet.subset_union_left s _
  stays s hs a ha := by
    rcases SortedSet.mem_union.1 ha with ha | ha
    · exact hs a ha
    · exact of_decide_eq_true (SortedSet.mem_filter.1 ha).2

/-- From more numbers there are no fewer doubles. -/
theorem addDoubles_leWithin : LeWithin upToThree addDoubles addDoubles := by
  intro s t hst _ a ha
  simp only [addDoubles, SortedSet.mem_union, SortedSet.mem_filter, SortedSet.mem_flatMap] at ha ⊢
  obtain ha | ⟨⟨b, hb, hab⟩, hmem⟩ := ha
  · exact .inl (hst a ha)
  · exact .inr ⟨⟨b, hst b hb, hab⟩, hmem⟩

/-- From one on, the doubles up to three are one and two. -/
theorem addDoubles_closed :
    ∃ rounds, (iterate {.number 1} (fun _ => addDoubles) 4).outcome = .ok rounds ∧
      rounds.last = .ofList [.number 1, .number 2] := by
  have hstart : ({.number 1} : SortedSet Name) ⊆ upToThree := by decide +kernel
  have hbound : (upToThree.size : Int) ≤ 4 := by decide +kernel
  obtain ⟨rounds, houtcome, -, hleast⟩ := iterate_answers_least_fixed_point
    addDoubles_growsWithin addDoubles_leWithin hstart hbound
  refine ⟨rounds, houtcome, SortedSet.subset_antisymm ?_ ?_⟩
  · exact hleast.least _ (by decide +kernel) (by decide +kernel) (by decide +kernel)
  · -- One step from the start has both already.
    have hstep := addDoubles_leWithin _ _ hleast.starts hleast.within
    have hfirst : addDoubles {.number 1} = .ofList [.number 1, .number 2] := by decide +kernel
    rw [hleast.fixed, hfirst] at hstep
    exact hstep

end Closure

end ContextFree
