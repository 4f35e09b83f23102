import ContextFree.Closure
import ContextFree.Proofs.SetSize
import Mathlib.Data.List.Range
import Mathlib.Data.Nat.Find
import Mathlib.Logic.Function.Iterate
import Mathlib.Order.Nat

/-!
# ContextFree — runs of a closure

What `Closure.iterate` does over all its rounds. A round is accepted when it adds something and
leaves room; a run of accepted rounds lists the stages it went through and reports each of them,
whatever the next round turns out to be. A step that never leaves a finite universe cannot be
accepted more often than there is room, so it settles, and the closure answers with its stages.

Main statements: `roundsFrom_of_all_accepted` (a run of accepted rounds, by induction on its
length) and `iterate_of_all_accepted` (the same for a whole closure), `exists_iterate_eq` (a step
that grows within a universe settles, and nothing fails on the way), `exists_iterate_ascends` (what
the rounds of such a step are like) and `SettlesAt.firstRound?_eq_some` (in which of them an element
is found).
-/

namespace ContextFree

open Std

variable {α : Type} [Ord α]

namespace Closure

/-- The latest of the rounds, 0 if there are none. -/
def lastRound (found : List Nat) : Nat :=
  found.max?.getD 0

/-- The latest round is a bound for each of them. With no rounds at all every bound will do. -/
theorem lastRound_le_iff {found : List Nat} {k : Nat} :
    lastRound found ≤ k ↔ ∀ round ∈ found, round ≤ k := by
  unfold lastRound
  constructor
  · intro h round hround
    exact Nat.le_trans (List.le_max?_getD_of_mem hround) h
  · intro h
    cases hmax : found.max? with
    | none => exact Nat.zero_le k
    | some latest =>
      show latest ≤ k
      exact h latest (List.max?_mem hmax)

/-! ## Stages and settling

What the sets after each round would be is defined for all numbers of rounds, also behind the one
that settles. So statements about rounds need no bound on their number, and a closure only shows a
beginning of the stages. -/

/-- The set after so many rounds, whether or not the closure gets that far. -/
def stage (step : Nat → SortedSet α → SortedSet α) (start : SortedSet α) : Nat → SortedSet α
  | 0 => start
  | k + 1 => step (k + 1) (stage step start k)

/-- For a step that is the same in every round the stages are its iterates. -/
theorem stage_const (f : SortedSet α → SortedSet α) (start : SortedSet α) :
    stage (fun _ => f) start = fun k => f^[k] start := by
  funext k
  induction k with
  | zero => rfl
  | succ k ih => rw [stage, ih, Function.iterate_succ_apply']

/-- Each of the first `n` rounds changes the set, and the next one does not. -/
structure SettlesAt (f : SortedSet α → SortedSet α) (start : SortedSet α) (n : Nat) : Prop where
  changes : ∀ i < n, f^[i + 1] start ≠ f^[i] start
  settled : f (f^[n] start) = f^[n] start

/-- After the round that settles nothing changes any more. Induction on the rounds behind it. -/
theorem SettlesAt.iterate_eq {f : SortedSet α → SortedSet α} {start : SortedSet α} {n k : Nat}
    (h : SettlesAt f start n) (hk : n ≤ k) : f^[k] start = f^[n] start := by
  induction hk with
  | refl => rfl
  | step _ ih => rw [Function.iterate_succ_apply', ih, h.settled]

/-- The answer of a closure whose step settles at round `n`: the start and the set after each round
up to there. -/
def settledRounds (f : SortedSet α → SortedSet α) (start : SortedSet α) (n : Nat) : Rounds α :=
  ⟨start, (List.range' 1 n).map fun i => f^[i] start⟩

/-- The last set of the answer is the one that the rounds settle at. -/
theorem last_settledRounds (f : SortedSet α → SortedSet α) (start : SortedSet α) (n : Nat) :
    (settledRounds f start n).last = f^[n] start := by
  unfold settledRounds Rounds.last
  cases n with
  | zero => rfl
  | succ n =>
    rw [List.range'_concat, List.map_append, List.map_cons, List.map_nil, List.getLastD_concat,
      Nat.one_mul, Nat.add_comm 1 n]

/-- The answer has as many rounds as change the set. -/
theorem count_settledRounds (f : SortedSet α → SortedSet α) (start : SortedSet α) (n : Nat) :
    (settledRounds f start n).count = n := by
  rw [Rounds.count, settledRounds, List.length_map, List.length_range']

/-- The start and the sets of the rounds 1 to `n` are the sets 0 to `n`. -/
theorem toList_range' (sets : Nat → SortedSet α) (n : Nat) :
    (⟨sets 0, (List.range' 1 n).map sets⟩ : Rounds α).toList = (List.range (n + 1)).map sets := by
  rw [List.range_eq_range', List.range'_succ]
  rfl

theorem toList_settledRounds (f : SortedSet α → SortedSet α) (start : SortedSet α) (n : Nat) :
    (settledRounds f start n).toList = (List.range (n + 1)).map fun i => f^[i] start :=
  toList_range' (fun i => f^[i] start) n

end Closure

variable [TransOrd α]

namespace Closure

/-! ## Steps that stay in a universe

`GrowsWithin` asks for two things, and only of sets within the universe: that the step keeps what it
is given and that it does not lead outside. Both are inherited by any number of rounds. -/

/-- Within the universe the step keeps every element and does not lead outside. -/
structure GrowsWithin (whole : SortedSet α) (f : SortedSet α → SortedSet α) : Prop where
  grows : ∀ s, s ⊆ whole → s ⊆ f s
  stays : ∀ s, s ⊆ whole → f s ⊆ whole

namespace GrowsWithin

variable {whole start : SortedSet α} {f : SortedSet α → SortedSet α}

/-- No round leads out of the universe. Induction on the rounds. -/
theorem iterate_subset (hf : GrowsWithin whole f) (hstart : start ⊆ whole) (k : Nat) :
    f^[k] start ⊆ whole := by
  induction k with
  | zero => exact hstart
  | succ k ih =>
    rw [Function.iterate_succ_apply']
    exact hf.stays _ ih

/-- Each round keeps what the one before it had. -/
theorem subset_iterate_succ (hf : GrowsWithin whole f) (hstart : start ⊆ whole) (k : Nat) :
    f^[k] start ⊆ f^[k + 1] start := by
  rw [Function.iterate_succ_apply']
  exact hf.grows _ (hf.iterate_subset hstart k)

/-- A later round has what an earlier one has. -/
theorem iterate_subset_iterate (hf : GrowsWithin whole f) (hstart : start ⊆ whole) {i k : Nat}
    (hik : i ≤ k) : f^[i] start ⊆ f^[k] start := by
  induction hik with
  | refl => exact fun _ ha => ha
  | step _ ih => exact fun a ha => hf.subset_iterate_succ hstart _ a (ih a ha)

/-- No round has more than the one that settles. -/
theorem iterate_subset_settled (hf : GrowsWithin whole f) (hstart : start ⊆ whole) {n : Nat}
    (h : SettlesAt f start n) (k : Nat) : f^[k] start ⊆ f^[n] start := by
  rw [← h.iterate_eq (Nat.le_max_left n k)]
  exact hf.iterate_subset_iterate hstart (Nat.le_max_right n k)

end GrowsWithin

/-- The rounds begin at `start`, each makes one step and adds to the set, all of it within the
universe, and after the last round the step changes nothing. -/
structure Ascends (rounds : Rounds α) (f : SortedSet α → SortedSet α) (start whole : SortedSet α) :
    Prop where
  starts : rounds.start = start
  within : ∀ s ∈ rounds.toList, s ⊆ whole
  climbs : rounds.toList.IsChain fun before after =>
    after = f before ∧ before ⊆ after ∧ after ≠ before
  settled : f rounds.last = rounds.last

theorem GrowsWithin.ascends_settledRounds {whole start : SortedSet α}
    {f : SortedSet α → SortedSet α} (hf : GrowsWithin whole f) (hstart : start ⊆ whole) {n : Nat}
    (h : SettlesAt f start n) : Ascends (settledRounds f start n) f start whole where
  starts := rfl
  within s hs := by
    rw [toList_settledRounds] at hs
    obtain ⟨i, -, rfl⟩ := List.mem_map.1 hs
    exact hf.iterate_subset hstart i
  climbs := by
    rw [toList_settledRounds, List.isChain_map, List.isChain_range_succ]
    intro i hi
    exact ⟨Function.iterate_succ_apply' f i start, hf.subset_iterate_succ hstart i, h.changes i hi⟩
  settled := by
    rw [last_settledRounds]
    exact h.settled

/-! ## The round in which an element is found

The answer of a closure is searched for the first set with the element, and the stages for the least
number of rounds. As nothing is found behind the round that settles, both give the same number. -/

section FirstRound

variable {f : SortedSet α → SortedSet α} {start : SortedSet α} {n : Nat}

/-- An element is found in the first round that has it. -/
theorem SettlesAt.firstRound?_eq_some (h : SettlesAt f start n) {a : α} {i : Nat} :
    (settledRounds f start n).firstRound? a = some i ↔ IsLeast {k | a ∈ f^[k] start} i := by
  unfold Rounds.firstRound?
  rw [toList_settledRounds, List.findIdx?_eq_some_iff_getElem]
  simp only [List.length_map, List.length_range, List.getElem_map, List.getElem_range,
    decide_eq_true_eq]
  constructor
  · rintro ⟨-, hmem, hfirst⟩
    refine ⟨hmem, fun k hk => ?_⟩
    by_contra hlt
    exact hfirst k (by omega) hk
  · rintro ⟨hmem, hleast⟩
    have hi : i ≤ n := by
      by_contra hlt
      -- A round behind the settled one has nothing that the settled one has not.
      have hsettled : a ∈ f^[n] start := by
        rw [← h.iterate_eq (k := i) (by omega)]
        exact hmem
      exact hlt (hleast hsettled)
    refine ⟨by omega, hmem, fun j hj hmem' => ?_⟩
    have hij : i ≤ j := hleast hmem'
    omega

end FirstRound

end Closure

variable [LawfulEqOrd α]

namespace Closure

/-! ## Accepted rounds

`Accepted` says of the sets before and after a round that the round is reported and the closure goes
on. How a run of accepted rounds looks is proved with any rounds behind it, so it can be used for
closures that settle and for closures that break off. -/

/-- The round from `before` to `after` keeps every element, adds some, and stays in the room. -/
structure Accepted (bound : Int) (before after : SortedSet α) : Prop where
  grows : before ⊆ after
  changes : after ≠ before
  fits : (after.size : Int) ≤ bound

/-- What is reported of the round after which the set is `after`. -/
def roundEvent (bound : Int) (k : Nat) (after : SortedSet α) : Event :=
  .round k after.size (measure bound after)

section Run

variable {bound : Int} {step : Nat → SortedSet α → SortedSet α} {start : SortedSet α}

/-- An accepted round is one that grew, so `roundsFrom_of_grown` applies. The conditions on the
measure become conditions on the set, which are easier to have. -/
theorem roundsFrom_of_accepted {k : Nat} {current : SortedSet α}
    (h : Accepted bound current (step k current)) :
    roundsFrom bound step k current =
      ⟨roundEvent bound k (step k current) ::
          (roundsFrom bound step (k + 1) (step k current)).events,
        (roundsFrom bound step (k + 1) (step k current)).outcome.map (step k current :: ·)⟩ := by
  have hlt := SortedSet.size_lt_of_subset_of_ne h.grows h.changes
  have hfits := h.fits
  have hroom : 0 ≤ measure bound (step k current) := by
    unfold measure
    omega
  have hless : measure bound (step k current) < measure bound current := by
    unfold measure
    omega
  -- Whatever becomes of the later rounds, this one is reported and stands before them.
  rw [roundsFrom_of_grown h.grows h.changes hroom hless]
  cases hrun : roundsFrom bound step (k + 1) (step k current) with
  | mk events outcome =>
    cases outcome <;>
      simp [Bind.bind, Logged.bind, Logged.report, roundEvent, pure, Except.map]

/-- A run of accepted rounds is reported round by round, and its stages stand in front of what the
remaining rounds answer. A fault further on is answered as it is. -/
theorem roundsFrom_of_all_accepted (n : Nat) {k : Nat}
    (h : ∀ i, k ≤ i → i < k + n → Accepted bound (stage step start i) (stage step start (i + 1))) :
    roundsFrom bound step (k + 1) (stage step start k) =
      ⟨(List.range' (k + 1) n).map (fun i => roundEvent bound i (stage step start i)) ++
          (roundsFrom bound step (k + n + 1) (stage step start (k + n))).events,
        (roundsFrom bound step (k + n + 1) (stage step start (k + n))).outcome.map
          ((List.range' (k + 1) n).map (stage step start) ++ ·)⟩ := by
  induction n generalizing k with
  | zero =>
    cases hrun : roundsFrom bound step (k + 1) (stage step start k) with
    | mk events outcome => cases outcome <;> simp [Except.map]
  | succ n ih =>
    have hfirst : Accepted bound (stage step start k) (step (k + 1) (stage step start k)) :=
      h k (Nat.le_refl k) (by omega)
    -- The remaining rounds start at the next stage, and they are the same stages from there on.
    have hrest := ih (k := k + 1) fun i hi hlt => h i (by omega) (by omega)
    rw [show k + 1 + n = k + (n + 1) from by omega] at hrest
    rw [roundsFrom_of_accepted hfirst]
    rw [show step (k + 1) (stage step start k) = stage step start (k + 1) from rfl, hrest,
      List.range'_succ, List.map_cons, List.map_cons]
    cases (roundsFrom bound step (k + (n + 1) + 1) (stage step start (k + (n + 1)))).outcome <;> rfl

/-- A closure is its rounds with the start put in front. -/
theorem iterate_eq (start : SortedSet α) (step : Nat → SortedSet α → SortedSet α) (bound : Int) :
    iterate start step bound =
      ⟨(roundsFrom bound step 1 start).events,
        (roundsFrom bound step 1 start).outcome.map fun later => ⟨start, later⟩⟩ := by
  unfold iterate
  cases roundsFrom bound step 1 start with
  | mk events outcome => cases outcome <;> simp [Bind.bind, Logged.bind, pure, Except.map]

/-- A closure reports the stages that are accepted and goes on from the last of them. -/
theorem iterate_of_all_accepted {n : Nat}
    (h : ∀ i < n, Accepted bound (stage step start i) (stage step start (i + 1))) :
    iterate start step bound =
      ⟨(List.range' 1 n).map (fun i => roundEvent bound i (stage step start i)) ++
          (roundsFrom bound step (n + 1) (stage step start n)).events,
        (roundsFrom bound step (n + 1) (stage step start n)).outcome.map fun later =>
          ⟨start, (List.range' 1 n).map (stage step start) ++ later⟩⟩ := by
  have hrun : roundsFrom bound step 1 start = _ :=
    roundsFrom_of_all_accepted n (k := 0) fun i _ hi => h i (by omega)
  simp only [Nat.zero_add] at hrun
  rw [iterate_eq, hrun]
  cases (roundsFrom bound step (n + 1) (stage step start n)).outcome <;> rfl

end Run

/-! ## Closures that settle

A step that grows within a universe cannot grow for ever. Up to the round where it stops all rounds
are accepted, provided that there is room for the whole universe, and then the closure ends without
a fault. -/

section Settling

variable {whole start : SortedSet α} {f : SortedSet α → SortedSet α}

/-- Changes come to an end. -/
theorem GrowsWithin.exists_settlesAt (hf : GrowsWithin whole f) (hstart : start ⊆ whole) :
    ∃ n, SettlesAt f start n := by
  have hex : ∃ n, f^[n + 1] start = f^[n] start := by
    by_contra hnone
    -- Every change takes an element, and so many changes take more than there are.
    have hmany : start.size + (whole.size + 1) ≤ (f^[whole.size + 1] start).size :=
      SortedSet.add_size_le_of_growing fun i _ =>
        ⟨hf.subset_iterate_succ hstart i, fun h => hnone ⟨i, h⟩⟩
    have hfew := SortedSet.size_le_of_subset (hf.iterate_subset hstart (whole.size + 1))
    omega
  classical
  refine ⟨Nat.find hex, fun i hi => Nat.find_min hex hi, ?_⟩
  rw [← Function.iterate_succ_apply' f]
  exact Nat.find_spec hex

/-- Every round before it settles takes an element that the start did not have. -/
theorem GrowsWithin.add_size_le_of_settlesAt (hf : GrowsWithin whole f) (hstart : start ⊆ whole)
    {n : Nat} (h : SettlesAt f start n) : start.size + n ≤ whole.size := by
  have hmany : start.size + n ≤ (f^[n] start).size :=
    SortedSet.add_size_le_of_growing fun i hi => ⟨hf.subset_iterate_succ hstart i, h.changes i hi⟩
  have hfew := SortedSet.size_le_of_subset (hf.iterate_subset hstart n)
  omega

/-- The closure of a step that grows within a universe there is room for answers with its stages. -/
theorem exists_iterate_eq {bound : Int} (hf : GrowsWithin whole f) (hstart : start ⊆ whole)
    (hbound : (whole.size : Int) ≤ bound) :
    ∃ n, SettlesAt f start n ∧ iterate start (fun _ => f) bound =
      ⟨(List.range' 1 n).map fun i => roundEvent bound i (f^[i] start),
        .ok (settledRounds f start n)⟩ := by
  obtain ⟨n, hn⟩ := hf.exists_settlesAt hstart
  -- Every round before the one that changes nothing is accepted, so nothing fails.
  have haccepted : ∀ i < n,
      Accepted bound (stage (fun _ => f) start i) (stage (fun _ => f) start (i + 1)) := by
    intro i hi
    have hsize := SortedSet.size_le_of_subset (hf.iterate_subset hstart (i + 1))
    simp only [stage_const]
    exact ⟨hf.subset_iterate_succ hstart i, hn.changes i hi, by omega⟩
  have hstop : roundsFrom bound (fun _ => f) (n + 1) (stage (fun _ => f) start n) = pure [] := by
    apply roundsFrom_of_unchanged
    rw [stage_const]
    exact hn.settled
  have hrun := iterate_of_all_accepted haccepted
  rw [hstop] at hrun
  simp only [stage_const, Logged.events_pure, Logged.outcome_pure, List.append_nil,
    Except.map] at hrun
  exact ⟨n, hn, hrun⟩

/-- Nothing fails on the way of such a closure, and its rounds ascend within the universe. -/
theorem exists_iterate_ascends {bound : Int} (hf : GrowsWithin whole f) (hstart : start ⊆ whole)
    (hbound : (whole.size : Int) ≤ bound) :
    ∃ rounds, (iterate start (fun _ => f) bound).outcome = .ok rounds ∧
      Ascends rounds f start whole := by
  obtain ⟨n, hn, hrun⟩ := exists_iterate_eq hf hstart hbound
  refine ⟨settledRounds f start n, ?_, hf.ascends_settledRounds hstart hn⟩
  rw [hrun]

end Settling

end Closure

end ContextFree
