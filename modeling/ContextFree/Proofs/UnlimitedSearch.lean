import ContextFree.Proofs.QueueSearch
import ContextFree.Proofs.SetSize
import Mathlib.Data.Set.Finite.Basic
import Mathlib.Logic.Relation

/-!
# ContextFree — the search without a limit

Under a negative limit nothing stops the search but the forms themselves: a form joins the queue
once, and not at all if it holds more terminals than the target. So if only finitely many forms are
reached through such forms, each turn uses up one of them and the search ends. What it answers then
is the truth about derivations of any length, since a derivation of the target never passes through
a form that is left out.

Main statements: `exists_derivesByQueue?_natCast_iff` (a limit that is not negative is that of the
search before), `Covers.turn` (the invariant of the levels, kept turn by turn),
`eq_true_iff_of_searchQueue?` (what an answer means), `exists_searchQueue?_eq` (each turn uses up a
form, by induction on the turns), `searchFrom_ne_cut` (the same for levels) and
`Grammar.unlimited_search_ends_if_finite`.
-/

namespace ContextFree

namespace Rewriting

variable {rules : List Rule} {source target : Form} {seen frontier whole : SortedSet Form}

/-- One step that leads to no more terminals than that. -/
def StepWithin (rules : List Rule) (most : Nat) (a b : Form) : Prop :=
  Step rules a b ∧ Form.terminalCount b ≤ most

/-- Nothing is reached from the set by steps within the number of terminals but what is in it. -/
def ClosedWithin (rules : List Rule) (most : Nat) (whole : SortedSet Form) : Prop :=
  ∀ a ∈ whole, ∀ b, StepWithin rules most a b → b ∈ whole

/-! ## A limit that is not negative

The search that is bounded by turns counts the steps made, and stops a form when they are as many as
the limit. The one before counts the steps left. With a limit that can be reached these are the same
search, and enough turns let it end. -/

/-- More turns change nothing about a search that has ended. -/
theorem searchQueue?_of_le {limit : Int} {turns more : Nat} {queue : List (Form × Nat)}
    {answer : Bool}
    (h : searchQueue? rules target limit turns seen queue = some answer) (hle : turns ≤ more) :
    searchQueue? rules target limit more seen queue = some answer := by
  induction turns generalizing more seen queue with
  | zero =>
    cases queue with
    | nil => exact searchQueue?_nil.trans (searchQueue?_nil.symm.trans h)
    | cons entry rest => cases h
  | succ turns ih =>
    cases queue with
    | nil => exact searchQueue?_nil.trans (searchQueue?_nil.symm.trans h)
    | cons entry rest =>
      obtain ⟨form, steps⟩ := entry
      -- One turn is used up on both sides, and the same one, as the turn goes by the form at the
      -- front only.
      obtain ⟨more, rfl⟩ : ∃ k, more = k + 1 := ⟨more - 1, by omega⟩
      have hle : turns ≤ more := Nat.le_of_succ_le_succ hle
      by_cases htarget : form = target
      · rw [searchQueue?_of_found htarget] at h ⊢
        exact h
      by_cases hlimit : (steps : Int) = limit
      · rw [searchQueue?_of_used_up htarget hlimit] at h ⊢
        exact ih h hle
      · rw [searchQueue?_of_followed htarget hlimit] at h ⊢
        exact ih h hle

/-- The steps made and the steps left add up to the limit. -/
theorem exists_searchQueue?_natCast (limit : Nat) {queue : List (Form × Nat)}
    (h : ∀ entry ∈ queue, entry.2 ≤ limit) :
    ∃ turns, searchQueue? rules target limit turns seen
      (queue.map fun entry => (entry.1, limit - entry.2)) =
        some (searchQueue rules target seen queue) := by
  fun_induction searchQueue rules target seen queue with
  | case1 => exact ⟨0, searchQueue?_nil⟩
  | case2 seen left rest => exact ⟨1, searchQueue?_of_found rfl⟩
  | case3 seen form rest hform ih =>
    obtain ⟨turns, hturns⟩ := ih fun entry hentry => h entry (List.mem_cons_of_mem _ hentry)
    exact ⟨turns + 1, (searchQueue?_of_used_up hform rfl).trans hturns⟩
  | case4 seen form rest hform left new ih =>
    have hleft : left + 1 ≤ limit := h _ List.mem_cons_self
    -- With a step left the form has not come as far as the limit.
    have hlimit : ((limit - (left + 1) : Nat) : Int) ≠ limit := by omega
    have hqueue : ∀ entry ∈ rest ++ new.map (·, left), entry.2 ≤ limit := by
      intro entry hentry
      rcases List.mem_append.1 hentry with hentry | hentry
      · exact h entry (List.mem_cons_of_mem _ hentry)
      · obtain ⟨b, -, rfl⟩ := List.mem_map.1 hentry
        exact Nat.le_of_succ_le hleft
    obtain ⟨turns, hturns⟩ := ih hqueue
    refine ⟨turns + 1, (searchQueue?_of_followed hform hlimit).trans ?_⟩
    rw [← hturns, show limit - (left + 1) + 1 = limit - left from by omega, List.map_append,
      List.map_map]
    rfl

/-- Under a limit that is not negative the search ends, with the answer of the search that counts
the steps left. -/
theorem exists_derivesByQueue?_natCast_iff {limit : Nat} {answer : Bool} :
    (∃ turns, derivesByQueue? rules source target limit turns = some answer) ↔
      derivesByQueue rules source target limit = answer := by
  have hsearch : ∃ turns, searchQueue? rules target limit turns {source}
      ([(source, limit)].map fun entry => (entry.1, limit - entry.2)) =
        some (searchQueue rules target {source} [(source, limit)]) :=
    exists_searchQueue?_natCast limit (by simp)
  rw [List.map_singleton, Nat.sub_self] at hsearch
  constructor
  · rintro ⟨turns, hturns⟩
    -- The turns may be too few or too many, so both searches are given the larger number of turns.
    obtain ⟨most, hmost⟩ := hsearch
    have hsame := searchQueue?_of_le hturns (Nat.le_max_left turns most)
    rw [searchQueue?_of_le hmost (Nat.le_max_right turns most)] at hsame
    exact Option.some.inj hsame
  · rintro rfl
    exact hsearch

/-! ## What an answer means

Under a negative limit no form is stopped, since no number of steps is equal to the limit. What has
been seen is closed under steps but for the forms in the queue, and this is kept turn by turn. So
when the queue is empty everything has been seen. -/

/-- What a turn follows up is seen from then on, so what was seen is closed but for the queue. -/
theorem Covers.turn {form : Form} {rest : List Form}
    (h : Covers rules target seen (.ofList (form :: rest))) (hform : form ≠ target) :
    Covers rules target
      (seen ∪ .ofList (newcomers (Form.terminalCount target) seen (rewrite rules form)))
      (.ofList (rest ++ newcomers (Form.terminalCount target) seen (rewrite rules form))) where
  subset a ha := by
    rw [SortedSet.mem_union, SortedSet.mem_ofList]
    refine (List.mem_append.1 (SortedSet.mem_ofList.1 ha)).imp_left fun ha => ?_
    exact h.subset a (SortedSet.mem_ofList.2 (List.mem_cons_of_mem form ha))
  closed a ha hqueue b hab hcount := by
    simp only [SortedSet.mem_ofList, List.mem_append, not_or] at hqueue
    rw [SortedSet.mem_union, SortedSet.mem_ofList] at ha ⊢
    have ha : a ∈ seen := ha.resolve_right hqueue.2
    -- The form taken off is the one that has been followed up now.
    by_cases hsame : a = form
    · subst hsame
      by_cases hb : b ∈ seen
      · exact .inl hb
      · exact .inr (mem_newcomers.2 ⟨mem_rewrite.2 hab, hcount, hb⟩)
    · refine .inl (h.closed a ha (fun hmem => ?_) b hab hcount)
      exact (List.mem_cons.1 (SortedSet.mem_ofList.1 hmem)).elim hsame hqueue.1
  unmet hseen := by
    rw [SortedSet.mem_union, SortedSet.mem_ofList] at hseen
    rw [SortedSet.mem_ofList, List.mem_append]
    refine hseen.imp_left fun hseen => ?_
    have hqueue := SortedSet.mem_ofList.1 (h.unmet hseen)
    exact (List.mem_cons.1 hqueue).resolve_left (Ne.symm hform)

/-- When everything seen has been followed up, the target is not derived from any of it. -/
theorem Covers.not_derives_of_empty (h : Covers rules target seen ∅) {a : Form} (ha : a ∈ seen) :
    ¬ Derives rules a target := by
  rintro ⟨n, hsteps⟩
  obtain ⟨_, _, b, hb, _⟩ := exists_stepsIn_of_found (found_of_stepsIn h ha (Nat.le_refl n) hsteps)
  exact SortedSet.not_mem_empty b hb

/-- What joins is one step from the form taken off, so no target is derived that was not before. -/
theorem exists_derives_union_newcomers_iff {form : Form} (hform : form ∈ seen) :
    (∃ a ∈ seen ∪ .ofList (newcomers (Form.terminalCount target) seen (rewrite rules form)),
        Derives rules a target) ↔ ∃ a ∈ seen, Derives rules a target := by
  constructor
  · rintro ⟨a, ha, n, hsteps⟩
    rw [SortedSet.mem_union, SortedSet.mem_ofList, mem_newcomers, mem_rewrite] at ha
    rcases ha with ha | ⟨hstep, -⟩
    · exact ⟨a, ha, n, hsteps⟩
    · exact ⟨form, hform, n + 1, .succ hstep hsteps⟩
  · rintro ⟨a, ha, hderives⟩
    exact ⟨a, SortedSet.mem_union.2 (.inl ha), hderives⟩

/-- Under a negative limit any answer is the truth about derivations of any length. -/
theorem eq_true_iff_of_searchQueue? {limit : Int} (hneg : limit < 0) {turns : Nat}
    {queue : List (Form × Nat)} {answer : Bool}
    (h : searchQueue? rules target limit turns seen queue = some answer)
    (hcovers : Covers rules target seen (.ofList (queue.map Prod.fst))) :
    answer = true ↔ ∃ a ∈ seen, Derives rules a target := by
  fun_induction searchQueue? rules target limit turns seen queue with
  | case1 _ seen =>
    obtain rfl : false = answer := Option.some.inj h
    refine iff_of_false Bool.false_ne_true ?_
    rintro ⟨a, ha, hderives⟩
    exact hcovers.not_derives_of_empty ha hderives
  | case2 => cases h
  | case3 _ seen steps rest =>
    obtain rfl : true = answer := Option.some.inj h
    have htarget : target ∈ seen := hcovers.subset _ (SortedSet.mem_ofList.2 List.mem_cons_self)
    exact iff_of_true rfl ⟨target, htarget, 0, .zero target⟩
  -- No form is stopped, since no number of steps is negative.
  | case4 => omega
  | case5 _ seen form steps rest htarget _ new ih =>
    have hform : form ∈ seen := hcovers.subset form (SortedSet.mem_ofList.2 List.mem_cons_self)
    rw [← exists_derives_union_newcomers_iff hform]
    refine ih h ?_
    have hnext := hcovers.turn htarget
    simpa only [List.map_append, List.map_map, Function.comp_def, List.map_id'] using hnext

/-! ## When there is an answer

Now the search has to end. Each turn takes one form off the queue, and a form is put there only when
it is first seen. A finite set that no step leads out of bounds the number of turns. -/

/-- A form that joins is one more that is seen. -/
theorem size_union_newcomers (most : Nat) (seen : SortedSet Form) (forms : List Form) :
    (seen ∪ .ofList (newcomers most seen forms)).size =
      seen.size + (newcomers most seen forms).length := by
  rw [← SortedSet.size_ofList_of_nodup (nodup_newcomers most seen forms),
    SortedSet.size_union_eq_iff]
  intro a ha hjoined
  exact (mem_newcomers.1 (SortedSet.mem_ofList.1 hjoined)).2.2 ha

/-- Each turn takes a form off, and a form joins only as one more that is seen, so there are no more
turns than forms in a closed set around the search. -/
theorem exists_searchQueue?_eq {limit : Int} (hneg : limit < 0)
    (hclosed : ClosedWithin rules (Form.terminalCount target) whole) {queue : List (Form × Nat)}
    (turns : Nat) (hseen : seen ⊆ whole) (hqueue : ∀ entry ∈ queue, entry.1 ∈ whole)
    (hturns : whole.size + queue.length ≤ seen.size + turns) :
    ∃ answer, searchQueue? rules target limit turns seen queue = some answer := by
  induction turns generalizing seen queue with
  | zero =>
    have hsize := SortedSet.size_le_of_subset hseen
    obtain rfl : queue = [] := List.length_eq_zero_iff.1 (by omega)
    exact ⟨false, searchQueue?_nil⟩
  | succ turns ih =>
    cases queue with
    | nil => exact ⟨false, searchQueue?_nil⟩
    | cons entry rest =>
      obtain ⟨form, steps⟩ := entry
      by_cases htarget : form = target
      · exact ⟨true, searchQueue?_of_found htarget⟩
      rw [searchQueue?_of_followed htarget (by omega)]
      rw [List.forall_mem_cons] at hqueue
      -- One form goes, and as many join as are seen for the first time.
      have hsize := size_union_newcomers (Form.terminalCount target) seen (rewrite rules form)
      have hjoining : ∀ b ∈ newcomers (Form.terminalCount target) seen (rewrite rules form),
          b ∈ whole := by
        intro b hb
        obtain ⟨hstep, hcount, -⟩ := mem_newcomers.1 hb
        exact hclosed form hqueue.1 b ⟨mem_rewrite.1 hstep, hcount⟩
      refine ih (fun a ha => ?_) (fun entry hentry => ?_) ?_
      · rw [SortedSet.mem_union, SortedSet.mem_ofList] at ha
        exact ha.elim (hseen a) (hjoining a)
      · rcases List.mem_append.1 hentry with hentry | hentry
        · exact hqueue.2 entry hentry
        · obtain ⟨b, hb, rfl⟩ := List.mem_map.1 hentry
          exact hjoining b hb
      · rw [hsize, List.length_append, List.length_map]
        rw [List.length_cons] at hturns
        omega

/-! ## The search by levels

The search by levels is settled by the same set, which has room for so many levels that bring
something new. With both searches settled, and both right about derivations, they give one
answer. -/

/-- More levels change nothing about a search that is settled. -/
theorem searchFrom_of_le {levels more : Nat}
    (h : searchFrom rules target levels seen frontier ≠ .cut) (hle : levels ≤ more) :
    searchFrom rules target more seen frontier = searchFrom rules target levels seen frontier := by
  induction levels generalizing more seen frontier with
  | zero =>
    by_cases htarget : target ∈ frontier
    · rw [searchFrom_of_mem htarget, searchFrom_of_mem htarget]
    by_cases hempty : frontier = ∅
    · rw [hempty, searchFrom_empty, searchFrom_empty]
    -- With no levels left, what is neither found nor exhausted is cut, which is excluded.
    exact absurd (searchFrom_zero htarget hempty) h
  | succ levels ih =>
    by_cases htarget : target ∈ frontier
    · rw [searchFrom_of_mem htarget, searchFrom_of_mem htarget]
    by_cases hempty : frontier = ∅
    · rw [hempty, searchFrom_empty, searchFrom_empty]
    obtain ⟨more, rfl⟩ : ∃ k, more = k + 1 := ⟨more - 1, by omega⟩
    rw [searchFrom_succ htarget hempty] at h ⊢
    rw [searchFrom_succ htarget hempty]
    exact ih h (Nat.le_of_succ_le_succ hle)

/-- Each level but the last has a form that was not seen before, so there are no more levels than
forms in a closed set around the search. -/
theorem searchFrom_ne_cut (hclosed : ClosedWithin rules (Form.terminalCount target) whole)
    {levels : Nat} (hseen : seen ⊆ whole) (hfrontier : frontier ⊆ whole)
    (hlevels : whole.size < seen.size + levels) :
    searchFrom rules target levels seen frontier ≠ .cut := by
  induction levels generalizing seen frontier with
  | zero =>
    have hsize := SortedSet.size_le_of_subset hseen
    omega
  | succ levels ih =>
    by_cases htarget : target ∈ frontier
    · rw [searchFrom_of_mem htarget]
      exact Verdict.noConfusion
    by_cases hempty : frontier = ∅
    · rw [hempty, searchFrom_empty]
      exact Verdict.noConfusion
    rw [searchFrom_succ htarget hempty]
    generalize hnext : nextFrontier rules (Form.terminalCount target) seen frontier = next
    have hmem : ∀ b, b ∈ next ↔ (∃ a ∈ frontier, Step rules a b) ∧
        Form.terminalCount b ≤ Form.terminalCount target ∧ b ∉ seen := by
      intro b
      rw [← hnext, mem_nextFrontier]
    by_cases hnone : next = ∅
    · rw [hnone, searchFrom_empty]
      exact Verdict.noConfusion
    have hjoining : next ⊆ whole := by
      intro b hb
      obtain ⟨⟨a, ha, hab⟩, hcount, -⟩ := (hmem b).1 hb
      exact hclosed a (hfrontier a ha) b ⟨hab, hcount⟩
    -- The level is not empty, and nothing on it was seen before.
    have hgrown : seen.size < (seen ∪ next).size := by
      refine SortedSet.size_lt_of_subset_of_ne (SortedSet.subset_union_left seen next) ?_
      intro hsame
      refine hnone (SortedSet.eq_empty_iff.2 fun b hb => ((hmem b).1 hb).2.2 ?_)
      rw [← hsame]
      exact SortedSet.mem_union.2 (.inr hb)
    refine ih (fun a ha => ?_) hjoining (by omega)
    exact (SortedSet.mem_union.1 ha).elim (hseen a) (hjoining a)

/-- Any answer of the search by levels is the truth about derivations of any length. -/
theorem eq_true_iff_of_derivesEver? {levels : Nat} {answer : Bool}
    (h : derivesEver? rules source target levels = some answer) :
    answer = true ↔ Derives rules source target := by
  unfold derivesEver? at h
  cases hverdict : search rules source target levels with
  | found =>
    rw [hverdict] at h
    obtain ⟨n, -, hsteps⟩ := derivesWithin_iff.1 (decide_eq_true hverdict)
    exact iff_of_true (Option.some.inj h).symm ⟨n, hsteps⟩
  | exhausted =>
    rw [hverdict] at h
    obtain rfl : false = answer := Option.some.inj h
    refine iff_of_false Bool.false_ne_true ?_
    rintro ⟨n, hsteps⟩
    -- With as many levels as the derivation has steps the search would have found it.
    have hmore : search rules source target (max levels n) = .exhausted :=
      (searchFrom_of_le (hverdict.trans_ne Verdict.noConfusion) (Nat.le_max_left ..)).trans hverdict
    have hfound := derivesWithin_iff.2 ⟨n, Nat.le_max_right levels n, hsteps⟩
    rw [derivesWithin, hmore] at hfound
    cases hfound
  | cut =>
    rw [hverdict] at h
    cases h

/-- A settled search has an answer. -/
theorem exists_derivesEver?_eq {levels : Nat} (h : search rules source target levels ≠ .cut) :
    ∃ answer, derivesEver? rules source target levels = some answer := by
  unfold derivesEver?
  cases hverdict : search rules source target levels with
  | found => exact ⟨true, rfl⟩
  | exhausted => exact ⟨false, rfl⟩
  | cut => exact absurd hverdict h

/-- Both searches without a limit end when they stay within finitely many forms, with the same
answer. -/
theorem exists_unlimited_search_eq {limit : Int} (hneg : limit < 0)
    (hclosed : ClosedWithin rules (Form.terminalCount target) whole) (hsource : source ∈ whole) :
    ∃ answer, (answer = true ↔ Derives rules source target) ∧
      (∀ turns > whole.size, derivesByQueue? rules source target limit turns = some answer) ∧
      ∀ levels > whole.size, derives? rules source target limit levels = some answer := by
  have hstart : {source} ⊆ whole := fun a ha => SortedSet.mem_singleton.1 ha ▸ hsource
  obtain ⟨answer, hqueue⟩ :
      ∃ answer, derivesByQueue? rules source target limit (whole.size + 1) = some answer :=
    exists_searchQueue?_eq hneg hclosed (whole.size + 1) hstart (by simpa using hsource)
      (by rw [List.length_singleton]; omega)
  have hcovers : Covers rules target {source} (.ofList ([(source, 0)].map Prod.fst)) := by
    rw [List.map_singleton, SortedSet.ofList_singleton]
    exact covers_start rules source target
  have hanswer : answer = true ↔ Derives rules source target := by
    rw [eq_true_iff_of_searchQueue? hneg hqueue hcovers]
    simp only [SortedSet.mem_singleton, exists_eq_left]
  refine ⟨answer, hanswer, fun turns hturns => ?_, fun levels hlevels => ?_⟩
  · exact searchQueue?_of_le hqueue hturns
  · have hsettled : search rules source target levels ≠ .cut :=
      searchFrom_ne_cut hclosed hstart hstart (by omega)
    obtain ⟨answer', hlevel⟩ := exists_derivesEver?_eq hsettled
    -- Both answers are the truth, so they are the same.
    have hsame : answer' = answer := by
      rw [Bool.eq_iff_iff, hanswer]
      exact eq_true_iff_of_derivesEver? hlevel
    obtain ⟨n, rfl⟩ := Int.eq_negSucc_of_lt_zero hneg
    exact hsame ▸ hlevel

end Rewriting

namespace Grammar

open Rewriting

/-- **The search without a limit ends if only finitely many forms can lead to the target.** With the
rules in any order and any negative limit, let only finitely many forms be reached from the source
through forms that hold no more terminals than the target. Then the search with a queue ends; it
answers yes just if the source derives the target in any number of steps, which is just if some
limit lets the search answer yes; and the search by levels gives the same answer as soon as it has
enough levels. -/
theorem unlimited_search_ends_if_finite (g : Grammar) (rules : List Rule)
    (hrules : ∀ r, r ∈ rules ↔ r ∈ g.rules) (source target : Form) (limit : Int) (hneg : limit < 0)
    (hfinite : {form | Relation.ReflTransGen
      (StepWithin g.rules.toList (Form.terminalCount target)) source form}.Finite) :
    ∃ answer,
      (∃ most, ∀ turns ≥ most, derivesByQueue? rules source target limit turns = some answer) ∧
      (answer = true ↔ Derives g.rules.toList source target) ∧
      (answer = true ↔ ∃ steps turns : Nat,
        derivesByQueue? rules source target steps turns = some true) ∧
      ∃ most, ∀ levels ≥ most, derives? rules source target limit levels = some answer := by
  -- What can be reached is finite, so it is one of the sets of this development.
  obtain ⟨whole, hwhole⟩ : ∃ whole : SortedSet Form, ∀ a, a ∈ whole ↔ Relation.ReflTransGen
      (StepWithin g.rules.toList (Form.terminalCount target)) source a :=
    ⟨.ofList hfinite.toFinset.toList, by simp⟩
  have hclosed : ClosedWithin rules (Form.terminalCount target) whole := by
    rintro a ha b ⟨hab, hcount⟩
    have hab : Step g.rules.toList a b :=
      hab.mono fun r hr => SortedSet.mem_toList.2 ((hrules r).1 hr)
    exact (hwhole b).2 (((hwhole a).1 ha).tail ⟨hab, hcount⟩)
  obtain ⟨answer, hanswer, hturns, hlevels⟩ :=
    exists_unlimited_search_eq hneg hclosed ((hwhole source).2 .refl)
  refine ⟨answer, ⟨whole.size + 1, hturns⟩, ?_, ?_, whole.size + 1, hlevels⟩
  · rw [hanswer]
    exact exists_congr fun _ => stepsIn_toList_iff hrules
  · simp only [exists_derivesByQueue?_natCast_iff, derivesByQueue_eq, derivesWithin_iff]
    rw [hanswer]
    constructor
    · rintro ⟨n, hsteps⟩
      exact ⟨n, n, Nat.le_refl n, hsteps⟩
    · rintro ⟨_, n, _, hsteps⟩
      exact ⟨n, hsteps⟩

/-- Two names that stand for each other, and a letter for one of them. -/
def roundaboutRules : List Rule :=
  [⟨.text "A", [.nonterminal (.text "B")]⟩, ⟨.text "B", [.nonterminal (.text "A")]⟩,
    ⟨.text "A", [.terminal (.text "a")]⟩]

/-- The grammar of these rules. -/
def roundabout : Grammar where
  nonterminals := ∅
  goal := .text "A"
  rules := .ofList roundaboutRules

/-- All forms that are reached from either of the names. -/
def roundaboutForms : List Form :=
  [[.nonterminal (.text "A")], [.nonterminal (.text "B")], [.terminal (.text "a")]]

/-- A step leads from one of the three forms to one of them. -/
theorem mem_roundaboutForms_of_step {a b : Form} (ha : a ∈ roundaboutForms)
    (h : Step roundabout.rules.toList a b) : b ∈ roundaboutForms := by
  have hclosed : ∀ a ∈ roundaboutForms, ∀ b ∈ rewrite roundaboutRules a, b ∈ roundaboutForms := by
    decide
  refine hclosed a ha b (mem_rewrite.2 (h.mono fun r hr => ?_))
  exact SortedSet.mem_ofList.1 (SortedSet.mem_toList.1 hr)

theorem mem_roundaboutForms_of_stepsIn {n : Nat} {a b : Form} (ha : a ∈ roundaboutForms)
    (h : StepsIn roundabout.rules.toList n a b) : b ∈ roundaboutForms := by
  induction h with
  | zero => exact ha
  | succ first _ ih => exact ih (mem_roundaboutForms_of_step ha first)

/-- The names can be exchanged for ever, but no new form comes of it. So the search ends, also where
there is nothing to be found. -/
theorem roundabout_searched :
    (∀ r, r ∈ roundaboutRules ↔ r ∈ roundabout.rules) ∧
      {form | Relation.ReflTransGen (StepWithin roundabout.rules.toList 1)
        [.nonterminal (.text "A")] form}.Finite ∧
      (∃ most, ∀ turns ≥ most, derivesByQueue? roundaboutRules [.nonterminal (.text "A")]
        [.terminal (.text "a")] (-1) turns = some true) ∧
      ∃ most, ∀ turns ≥ most, derivesByQueue? roundaboutRules [.nonterminal (.text "A")]
        [.terminal (.text "b")] (-1) turns = some false := by
  have hrules : ∀ r, r ∈ roundaboutRules ↔ r ∈ roundabout.rules :=
    fun r => SortedSet.mem_ofList.symm
  have hfinite : {form | Relation.ReflTransGen (StepWithin roundabout.rules.toList 1)
      [.nonterminal (.text "A")] form}.Finite := by
    refine roundaboutForms.finite_toSet.subset fun form hform => ?_
    induction hform with
    | refl => exact List.mem_cons_self
    | tail _ hstep ih => exact mem_roundaboutForms_of_step ih hstep.1
  refine ⟨hrules, hfinite, ?_, ?_⟩
  · obtain ⟨answer, hqueue, hanswer, -⟩ := unlimited_search_ends_if_finite roundabout
      roundaboutRules hrules _ [.terminal (.text "a")] (-1) (by decide) hfinite
    have hstep : Step roundaboutRules [.nonterminal (.text "A")] [.terminal (.text "a")] :=
      Step.of_rule (by decide)
    obtain rfl : answer = true :=
      hanswer.2 ⟨1, (stepsIn_toList_iff hrules).1 (.succ hstep (.zero _))⟩
    exact hqueue
  · obtain ⟨answer, hqueue, hanswer, -⟩ := unlimited_search_ends_if_finite roundabout
      roundaboutRules hrules _ [.terminal (.text "b")] (-1) (by decide) hfinite
    have hnone : ¬ Derives roundabout.rules.toList [.nonterminal (.text "A")]
        [.terminal (.text "b")] := by
      rintro ⟨n, hsteps⟩
      exact absurd (mem_roundaboutForms_of_stepsIn List.mem_cons_self hsteps) (by decide)
    obtain rfl : answer = false := Bool.eq_false_iff.2 (mt hanswer.1 hnone)
    exact hqueue

end Grammar

end ContextFree
