import ContextFree.Closure.Stateful
import ContextFree.Name
import ContextFree.Proofs.Rounds

/-!
# ContextFree — where a closure stops

Whatever the step does, a closure goes on just as long as the answers are accepted: as long as each
has more elements than the one before it and no more than there is room for. So it calls the step
once more than it accepts answers, and what it makes of the last one depends on that answer and the
one before it. Nothing is asked of the step: it may forget elements, go back and forth, or keep a
state that decides what it answers next.

Main statements: `exists_first_not_accepted` (an answer that is not accepted comes up) and
`le_room_of_accepted` (how soon), `statefulRoundsFrom_eq` (a closure goes by the answers alone, by
recursion on the room left), `exists_stopsAfter_inTurn` (what a closure makes of answers that are
given in turn) and `iterate_stops_at_first_answer_not_accepted`.
-/

namespace ContextFree

open Std

variable {α : Type} [Ord α]

namespace Closure

/-- With sets that are given in turn, the stages are these sets. -/
theorem stage_inTurn (sets : Nat → SortedSet α) : stage (inTurn sets) (sets 0) = sets := by
  funext k
  cases k <;> rfl

variable [TransOrd α] [LawfulEqOrd α]

/-! ## The first answer that is not accepted

Each accepted answer has more elements than the one before and no more than there is room for. So
accepted answers are counted by the room that the start leaves, and a sequence of answers that goes
on for ever has one that is not accepted. -/

section Answers

variable {bound : Int} {answers : Nat → SortedSet α} {n : Nat}

/-- No more answers are accepted than the start leaves room for. -/
theorem le_room_of_accepted (h : ∀ j < n, Accepted bound (answers j) (answers (j + 1))) :
    (n : Int) ≤ max 0 (measure bound (answers 0)) := by
  cases n with
  | zero => exact Int.le_max_left 0 _
  | succ n =>
    have hsize : (answers 0).size + (n + 1) ≤ (answers (n + 1)).size :=
      SortedSet.add_size_le_of_growing fun j hj => ⟨(h j hj).grows, (h j hj).changes⟩
    have hfits := (h n (Nat.lt_succ_self n)).fits
    unfold measure
    omega

variable (bound answers) in
/-- Some answer is the first that is not accepted, since there is not room for all of them. -/
theorem exists_first_not_accepted :
    ∃ n, (∀ j < n, Accepted bound (answers j) (answers (j + 1))) ∧
      ¬ Accepted bound (answers n) (answers (n + 1)) := by
  have hex : ∃ n, ¬ Accepted bound (answers n) (answers (n + 1)) := by
    by_contra hnone
    -- Otherwise more answers would be accepted than there is room for.
    have haccepted : ∀ n, Accepted bound (answers n) (answers (n + 1)) := by
      simpa using hnone
    have hroom := le_room_of_accepted (n := (measure bound (answers 0)).toNat + 1)
      fun j _ => haccepted j
    omega
  classical
  exact ⟨Nat.find hex, fun j hj => Classical.not_not.1 (Nat.find_min hex hj), Nat.find_spec hex⟩

end Answers

/-! ## A closure goes by the answers alone

The state decides what a step answers, but the closure only sees the answers. So with the answers of
all calls written down beforehand, the step can be replaced by one that reads them out in turn, and
what comes out is the same. The induction is on the room left, as in the definition of the
rounds. -/

section Stateful

variable {σ : Type} {bound : Int} {step : SortedSet α → σ → SortedSet α × σ}
variable {answers : Nat → SortedSet α} {states : Nat → σ}

/-- With the same answers in turn the same comes out. Each round that is reported is a call, and the
call that ends the closure is one more. -/
theorem statefulRoundsFrom_eq
    (hcalls : ∀ n, step (answers n) (states n) = (answers (n + 1), states (n + 1))) (k : Nat) :
    statefulRoundsFrom bound step (k + 1) (answers k) (states k) =
      (roundsFrom bound (inTurn answers) (k + 1) (answers k),
        states (k + 1 +
          (roundsFrom bound (inTurn answers) (k + 1) (answers k)).events.length)) := by
  by_cases hsub : answers k ⊆ inTurn answers (k + 1) (answers k)
  · by_cases hsame : inTurn answers (k + 1) (answers k) = answers k
    · have hcall : step (answers k) (states k) = (answers k, states (k + 1)) := by
        rw [hcalls k]
        exact Prod.ext hsame rfl
      rw [statefulRoundsFrom_of_unchanged hcall, roundsFrom_of_unchanged hsame]
      rfl
    · by_cases hroom : 0 ≤ measure bound (inTurn answers (k + 1) (answers k)) ∧
          measure bound (inTurn answers (k + 1) (answers k)) < measure bound (answers k)
      · obtain ⟨hfits, hless⟩ := hroom
        have haccepted : Accepted bound (answers k) (inTurn answers (k + 1) (answers k)) :=
          ⟨hsub, hsame, by unfold measure at hfits; omega⟩
        -- The answer was accepted, so there is less room for those that follow.
        have hlater := statefulRoundsFrom_eq hcalls (k + 1)
        rw [statefulRoundsFrom_of_grown (hcalls k) hsub hsame hfits hless, hlater]
        refine Prod.ext (roundsFrom_of_grown hsub hsame hfits hless).symm ?_
        rw [roundsFrom_of_accepted haccepted]
        -- One report more is one call more.
        refine congrArg states ?_
        rw [List.length_cons]
        exact Nat.succ_add_eq_add_succ (k + 1) _
      · rw [statefulRoundsFrom_of_stalled (hcalls k) hsub hsame hroom,
          roundsFrom_of_stalled hsub hsame hroom]
        rfl
  · rw [statefulRoundsFrom_of_lost (hcalls k) hsub, roundsFrom_of_lost hsub]
    rfl
termination_by (measure bound (answers k)).toNat
decreasing_by
  exact (Int.toNat_lt_toNat (Int.lt_of_le_of_lt hfits hless)).2 hless

/-- A closure whose step keeps a state answers as the closure by the answers of the calls does, and
leaves the state of one call more than there are reports. -/
theorem iterateStateful_eq (start : SortedSet α) (step : SortedSet α → σ → SortedSet α × σ)
    (bound : Int) (state : σ) :
    iterateStateful start step bound state =
      (iterate start (inTurn (answer step start state)) bound,
        stateAfter step start state
          (1 + (iterate start (inTurn (answer step start state)) bound).events.length)) := by
  have hrun : statefulRoundsFrom bound step 1 start state = _ :=
    statefulRoundsFrom_eq (step_answer step start state) 0
  unfold iterateStateful
  rw [hrun]
  refine Prod.ext rfl ?_
  rw [iterate_eq]
  rfl

end Stateful

/-! ## Accepted answers in turn

For answers in turn the stages are known, so the run of accepted rounds (`iterate_of_all_accepted`)
shows them as they are. -/

section InTurn

variable {bound : Int} {sets : Nat → SortedSet α} {n : Nat}

/-- A closure reports the sets that are accepted and goes on from the last of them. -/
theorem iterate_inTurn_of_all_accepted
    (h : ∀ j < n, Accepted bound (sets j) (sets (j + 1))) :
    iterate (sets 0) (inTurn sets) bound =
      ⟨(List.range' 1 n).map (fun j => roundEvent bound j (sets j)) ++
          (roundsFrom bound (inTurn sets) (n + 1) (sets n)).events,
        (roundsFrom bound (inTurn sets) (n + 1) (sets n)).outcome.map fun later =>
          ⟨sets 0, (List.range' 1 n).map sets ++ later⟩⟩ := by
  have hstages : ∀ i < n,
      Accepted bound (stage (inTurn sets) (sets 0) i) (stage (inTurn sets) (sets 0) (i + 1)) := by
    rw [stage_inTurn]
    exact h
  have hrun := iterate_of_all_accepted hstages
  rwa [stage_inTurn] at hrun

end InTurn

/-! ## The answer that a closure stops at

What becomes of the first answer that is not accepted is decided by three questions: is it the set
before, does it keep that set, and if so, does it fit. `StopsAfter` puts the whole run together: the
accepted answers, the one that stops it, the reports and the outcome. -/

/-- An answer that is not accepted ends the closure without a report. If it is the set there was
before, the closure is done; otherwise the answer is at fault, for what it lost or, if it kept
everything, for leaving the universe. -/
theorem roundsFrom_of_not_accepted {bound : Int} {step : Nat → SortedSet α → SortedSet α} {k : Nat}
    {current : SortedSet α} (h : ¬ Accepted bound current (step k current)) :
    roundsFrom bound step k current =
      ⟨[], if step k current = current then .ok []
        else if current ⊆ step k current then
          .error (.stalled k (measure bound current) (measure bound (step k current)))
        else .error (.dropped k (current \ step k current))⟩ := by
  by_cases hsub : current ⊆ step k current
  · by_cases hsame : step k current = current
    · rw [roundsFrom_of_unchanged hsame, if_pos hsame]
      rfl
    · -- The answer kept everything and is another set, so it can only be too large.
      have hroom : ¬ (0 ≤ measure bound (step k current) ∧
          measure bound (step k current) < measure bound current) := by
        rintro ⟨hfits, -⟩
        exact h ⟨hsub, hsame, by unfold measure at hfits; omega⟩
      rw [roundsFrom_of_stalled hsub hsame hroom, if_neg hsame, if_pos hsub]
      rfl
  · rw [roundsFrom_of_lost hsub, if_neg (SortedSet.ne_of_not_subset hsub), if_neg hsub]
    rfl

/-- The first `n` of the sets are accepted and the next one is not, and this is what a closure made
of them: it reported the accepted ones, and its answer goes by the last two. A complaint about lost
elements names them in the order in which they happen to be listed. -/
structure StopsAfter (bound : Int) (sets : Nat → SortedSet α) (n : Nat)
    (run : Logged (Fault α) (Rounds α)) : Prop where
  accepted : ∀ j < n, Accepted bound (sets j) (sets (j + 1))
  stops : ¬ Accepted bound (sets n) (sets (n + 1))
  events : run.events =
    (List.range' 1 n).map fun j => .round j (sets j).size (bound - (sets j).size)
  settled : sets (n + 1) = sets n →
    run.outcome.map Rounds.toList = .ok ((List.range (n + 1)).map sets)
  dropped : ¬ sets n ⊆ sets (n + 1) → ∃ fault, run.outcome = .error fault ∧
    fault = .dropped (n + 1) (sets n \ sets (n + 1)) ∧
    ∀ quoted listing, fault.message quoted listing =
      "Round " ++ toString (n + 1) ++ " dropped \x7b" ++
        ", ".intercalate ((listing (sets n \ sets (n + 1))).map quoted) ++ "\x7d"
  stalled : sets n ⊆ sets (n + 1) → sets (n + 1) ≠ sets n → ∃ fault, run.outcome = .error fault ∧
    fault = .stalled (n + 1) (bound - (sets n).size) (bound - (sets (n + 1)).size) ∧
    ∀ quoted listing, fault.message quoted listing =
      "Round " ++ toString (n + 1) ++ " did not decrease the measure: " ++
        toString (bound - (sets n).size) ++ " -> " ++ toString (bound - (sets (n + 1)).size)

/-- There is only one place to stop at. -/
theorem StopsAfter.eq_of_first {bound : Int} {sets : Nat → SortedSet α} {n m : Nat}
    {run : Logged (Fault α) (Rounds α)} (h : StopsAfter bound sets n run)
    (haccepted : ∀ j < m, Accepted bound (sets j) (sets (j + 1)))
    (hstop : ¬ Accepted bound (sets m) (sets (m + 1))) : n = m := by
  rcases Nat.lt_trichotomy n m with hlt | heq | hgt
  · exact absurd (haccepted n hlt) h.stops
  · exact heq
  · exact absurd (h.accepted m hgt) hstop

/-- With the sets in turn, a closure stops at the first that is not accepted. -/
theorem exists_stopsAfter_inTurn (bound : Int) (sets : Nat → SortedSet α) :
    ∃ n, StopsAfter bound sets n (iterate (sets 0) (inTurn sets) bound) := by
  obtain ⟨n, haccepted, hstop⟩ := exists_first_not_accepted bound sets
  have hlast : roundsFrom bound (inTurn sets) (n + 1) (sets n) =
      ⟨[], if sets (n + 1) = sets n then .ok []
        else if sets n ⊆ sets (n + 1) then
          .error (.stalled (n + 1) (measure bound (sets n)) (measure bound (sets (n + 1))))
        else .error (.dropped (n + 1) (sets n \ sets (n + 1)))⟩ :=
    roundsFrom_of_not_accepted hstop
  refine ⟨n, ?_⟩
  -- The accepted rounds go through, and the next one decides the outcome by itself.
  rw [iterate_inTurn_of_all_accepted haccepted, hlast]
  refine ⟨haccepted, hstop, List.append_nil _, fun hsame => ?_, fun hlost => ?_,
    fun hsub hchanged => ?_⟩
  · rw [if_pos hsame, ← toList_range']
    simp only [Except.map, List.append_nil]
  · rw [if_neg (SortedSet.ne_of_not_subset hlost), if_neg hlost]
    exact ⟨_, rfl, rfl, fun _ _ => rfl⟩
  · rw [if_neg hchanged, if_pos hsub]
    exact ⟨_, rfl, rfl, fun _ _ => rfl⟩

/-- A closure calls its step once for each round that it reports, and once more. -/
theorem callCount_eq {σ : Type} (start : SortedSet α) (step : SortedSet α → σ → SortedSet α × σ)
    (bound : Int) (state : σ) :
    callCount start step bound state =
      1 + (iterate start (inTurn (answer step start state)) bound).events.length := by
  have hanswers : answer (counted step) start (state, 0) = answer step start state := by
    funext n
    exact congrArg Prod.fst (afterCalls_counted step start state n)
  have hrun := iterateStateful_eq start (counted step) bound (state, 0)
  rw [hanswers] at hrun
  unfold callCount
  rw [hrun]
  unfold stateAfter
  rw [afterCalls_counted]

/-- **A closure stops at the first answer that is not accepted**, whatever its step does and
whatever state it keeps. The step is called for each accepted answer and once more, and so no more
often than the start leaves room for and once more. What comes out is an answer if the last call
changed nothing, and otherwise a complaint that names the number of that call. -/
theorem iterate_stops_at_first_answer_not_accepted {σ : Type} (start : SortedSet α)
    (step : SortedSet α → σ → SortedSet α × σ) (bound : Int) (state : σ) :
    ∃ (n : Nat) (run : Logged (Fault α) (Rounds α)),
      iterateStateful start step bound state = (run, stateAfter step start state (n + 1)) ∧
      run = iterate start (inTurn (answer step start state)) bound ∧
      StopsAfter bound (answer step start state) n run ∧
      callCount start step bound state = n + 1 ∧
      (callCount start step bound state : Int) ≤ max 0 (bound - start.size) + 1 := by
  obtain ⟨n, hstops⟩ := exists_stopsAfter_inTurn bound (answer step start state)
  have hlength : (iterate start (inTurn (answer step start state)) bound).events.length = n := by
    have hevents := congrArg List.length hstops.events
    rwa [List.length_map, List.length_range'] at hevents
  have hroom := le_room_of_accepted hstops.accepted
  rw [show answer step start state 0 = start from rfl] at hroom
  unfold measure at hroom
  have hcalls : callCount start step bound state = n + 1 := by
    rw [callCount_eq, hlength, Nat.add_comm 1 n]
  refine ⟨n, _, ?_, rfl, hstops, hcalls, ?_⟩
  · rw [iterateStateful_eq, hlength, Nat.add_comm 1 n]
  · rw [hcalls]
    omega

/-- Adds the number of the call twice, and then forgets both. -/
def forgetful (current : SortedSet Name) (calls : Nat) : SortedSet Name × Nat :=
  (if calls < 2 then insert (.number calls) current else current \ {.number 0, .number 1},
    calls + 1)

/-- The third call is not accepted, and the second is reported last. The complaint reads differently
as the two lost numbers are listed upwards or downwards. -/
theorem forgetful_stops :
    ∃ run, iterateStateful ∅ forgetful 2 0 = (run, 3) ∧
      run.events = [.round 1 1 1, .round 2 2 0] ∧
      (∃ fault, run.outcome = .error fault ∧ fault = .dropped 3 {.number 0, .number 1} ∧
        fault.message Name.render SortedSet.toList = "Round 3 dropped \x7b0, 1\x7d" ∧
        fault.message Name.render (fun lost => lost.toList.reverse) =
          "Round 3 dropped \x7b1, 0\x7d") ∧
      callCount ∅ forgetful 2 0 = 3 := by
  obtain ⟨n, run, hrun, -, hstops, hcalls, -⟩ :=
    iterate_stops_at_first_answer_not_accepted ∅ forgetful 2 0
  have hlost : ¬ answer forgetful ∅ 0 2 ⊆ answer forgetful ∅ 0 3 := by decide +kernel
  obtain rfl : n = 2 := by
    refine hstops.eq_of_first (fun j hj => ?_) fun h => hlost h.grows
    obtain rfl | rfl : j = 0 ∨ j = 1 := by omega
    · exact ⟨by decide +kernel, by decide +kernel, by decide +kernel⟩
    · exact ⟨by decide +kernel, by decide +kernel, by decide +kernel⟩
  obtain ⟨fault, houtcome, hfault, hmessage⟩ := hstops.dropped hlost
  have hset : answer forgetful ∅ 0 2 \ answer forgetful ∅ 0 3 = {.number 0, .number 1} := by
    decide +kernel
  rw [hset] at hfault hmessage
  refine ⟨run, hrun, ?_, ⟨fault, houtcome, hfault, ?_, ?_⟩, hcalls⟩
  · rw [hstops.events]
    decide +kernel
  · rw [hmessage]
    decide +kernel
  · rw [hmessage]
    decide +kernel

end Closure

end ContextFree
