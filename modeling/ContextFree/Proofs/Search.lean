import ContextFree.Proofs.Yield
import ContextFree.Rewriting.Search

/-!
# ContextFree — the search is exact

The search looks at forms level by level and never twice. What makes this complete is that a form
seen before is either on the current level or has all its successors seen, so the shortest way to
the target always leads on through the current level. Leaving out forms with too many terminals
loses nothing, because a derivation never gets rid of a terminal.

Main statements: `found_of_stepsIn` (a derivation within the levels left is found, by induction on
the levels), `exists_stepsIn_of_found` (what is found is a derivation) and `derivesWithin_iff`. The
rules are a list in any order and with any repetitions.
-/

namespace ContextFree

namespace Rewriting

variable {rules : List Rule} {target : Form} {seen frontier : SortedSet Form}

/-- What holds at the start of every level. -/
structure Covers (rules : List Rule) (target : Form) (seen frontier : SortedSet Form) : Prop where
  /-- The level has been seen. -/
  subset : frontier ⊆ seen
  /-- What was seen above the level has been followed up. -/
  closed : ∀ a ∈ seen, a ∉ frontier → ∀ b, Step rules a b →
    Form.terminalCount b ≤ Form.terminalCount target → b ∈ seen
  /-- The target was not seen above the level. -/
  unmet : target ∈ seen → target ∈ frontier

/-- At the start only the source has been seen, and it is on the level. -/
theorem covers_start (rules : List Rule) (source target : Form) :
    Covers rules target {source} {source} where
  subset _ ha := ha
  closed _ ha hn := absurd ha hn
  unmet h := h

/-- The next level is covered if the target is not on the current one. -/
theorem Covers.next (h : Covers rules target seen frontier) (hn : target ∉ frontier) :
    Covers rules target
      (seen ∪ nextFrontier rules (Form.terminalCount target) seen frontier)
      (nextFrontier rules (Form.terminalCount target) seen frontier) where
  subset := SortedSet.subset_union_right _ _
  closed a ha hnext b hab hcount := by
    have ha : a ∈ seen := (SortedSet.mem_union.1 ha).resolve_right hnext
    rw [SortedSet.mem_union]
    -- The forms of the current level are the ones that are followed up now.
    by_cases hfrontier : a ∈ frontier
    · by_cases hb : b ∈ seen
      · exact .inl hb
      · exact .inr (mem_nextFrontier.2 ⟨⟨a, hfrontier, hab⟩, hcount, hb⟩)
    · exact .inl (h.closed a ha hfrontier b hab hcount)
  unmet hseen := by
    rcases SortedSet.mem_union.1 hseen with hseen | hnext
    · exact absurd (h.unmet hseen) hn
    · exact hnext

/-- A target on the level is found at once, with levels left or not. -/
theorem searchFrom_of_mem {levels : Nat} (h : target ∈ frontier) :
    searchFrom rules target levels seen frontier = .found := by
  unfold searchFrom
  rw [if_pos h]

/-- An empty level has nothing below it. -/
theorem searchFrom_empty (rules : List Rule) (target : Form) (levels : Nat)
    (seen : SortedSet Form) :
    searchFrom rules target levels seen ∅ = .exhausted := by
  unfold searchFrom
  rw [if_neg (SortedSet.not_mem_empty target), if_pos (SortedSet.isEmpty_iff.2 rfl)]

/-- Without a level left the search is cut off if there are forms to look at. -/
theorem searchFrom_zero (htarget : target ∉ frontier) (hne : frontier ≠ ∅) :
    searchFrom rules target 0 seen frontier = .cut := by
  unfold searchFrom
  rw [if_neg htarget, if_neg (mt SortedSet.isEmpty_iff.1 hne)]

/-- A level without the target is left for the next one. -/
theorem searchFrom_succ (htarget : target ∉ frontier) (hne : frontier ≠ ∅) (levels : Nat) :
    searchFrom rules target (levels + 1) seen frontier =
      searchFrom rules target levels
        (seen ∪ nextFrontier rules (Form.terminalCount target) seen frontier)
        (nextFrontier rules (Form.terminalCount target) seen frontier) := by
  rw [searchFrom, if_neg htarget, if_neg (mt SortedSet.isEmpty_iff.1 hne)]

/-- What the search finds is a derivation from the current level. -/
theorem exists_stepsIn_of_found {levels : Nat}
    (h : searchFrom rules target levels seen frontier = .found) :
    ∃ n ≤ levels, ∃ a ∈ frontier, StepsIn rules n a target := by
  induction levels generalizing seen frontier with
  | zero =>
    unfold searchFrom at h
    by_cases htarget : target ∈ frontier
    · exact ⟨0, Nat.le_refl 0, target, htarget, .zero target⟩
    rw [if_neg htarget] at h
    split at h <;> cases h
  | succ levels ih =>
    unfold searchFrom at h
    by_cases htarget : target ∈ frontier
    · exact ⟨0, Nat.zero_le _, target, htarget, .zero target⟩
    rw [if_neg htarget] at h
    split at h
    · cases h
    · obtain ⟨n, hn, b, hb, hsteps⟩ := ih h
      -- The next level is one step from this one.
      obtain ⟨⟨a, ha, hab⟩, -, -⟩ := mem_nextFrontier.1 hb
      exact ⟨n + 1, by omega, a, ha, .succ hab hsteps⟩

/-- A target that is not on a level is found just if it is found from the next level on. -/
theorem found_succ_iff {levels : Nat} (h : target ∉ frontier) :
    searchFrom rules target (levels + 1) seen frontier = .found ↔
      searchFrom rules target levels
        (seen ∪ nextFrontier rules (Form.terminalCount target) seen frontier)
        (nextFrontier rules (Form.terminalCount target) seen frontier) = .found := by
  by_cases hempty : frontier = ∅
  · subst hempty
    rw [searchFrom_empty]
    refine ⟨nofun, fun hfound => ?_⟩
    -- Nothing comes after an empty level.
    obtain ⟨_, _, b, hb, _⟩ := exists_stepsIn_of_found hfound
    obtain ⟨⟨a, ha, _⟩, _⟩ := mem_nextFrontier.1 hb
    exact absurd ha (SortedSet.not_mem_empty a)
  · rw [searchFrom_succ h hempty]

/-- The search finds every derivation, from any form seen, that fits into the levels left. -/
theorem found_of_stepsIn {levels n : Nat} (h : Covers rules target seen frontier) {a : Form}
    (ha : a ∈ seen) (hn : n ≤ levels) (hsteps : StepsIn rules n a target) :
    searchFrom rules target levels seen frontier = .found := by
  induction levels generalizing n a seen frontier with
  | zero =>
    obtain rfl : n = 0 := by omega
    cases hsteps
    exact searchFrom_of_mem (h.unmet ha)
  | succ levels ih =>
    by_cases htarget : target ∈ frontier
    · exact searchFrom_of_mem htarget
    rw [found_succ_iff htarget]
    have hcovers := h.next htarget
    cases hsteps with
    | zero => exact absurd (h.unmet ha) htarget
    | @succ n _ b _ first rest =>
      -- The second form of the derivation is seen by now, one level further down.
      refine ih hcovers (a := b) ?_ (by omega) rest
      rw [SortedSet.mem_union]
      by_cases hb : b ∈ seen
      · exact .inl hb
      by_cases hfrontier : a ∈ frontier
      · exact .inr (mem_nextFrontier.2 ⟨⟨a, hfrontier, first⟩, rest.terminalCount_le, hb⟩)
      · exact .inl (h.closed a ha hfrontier b first rest.terminalCount_le)

/-- The search down to a level finds the target just if it is derived in so many steps or fewer. -/
theorem derivesWithin_iff {source : Form} {steps : Nat} :
    derivesWithin rules source target steps = true ↔
      ∃ n ≤ steps, StepsIn rules n source target := by
  unfold derivesWithin search
  rw [decide_eq_true_eq]
  constructor
  · intro h
    obtain ⟨n, hn, a, ha, hsteps⟩ := exists_stepsIn_of_found h
    obtain rfl : a = source := SortedSet.mem_singleton.1 ha
    exact ⟨n, hn, hsteps⟩
  · rintro ⟨n, hn, hsteps⟩
    exact found_of_stepsIn (covers_start rules source target) (SortedSet.mem_singleton.2 rfl) hn
      hsteps

end Rewriting

end ContextFree
