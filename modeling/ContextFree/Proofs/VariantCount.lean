import ContextFree.Proofs.NullableNames
import ContextFree.Proofs.SetSize
import ContextFree.Proofs.Variants
import Mathlib.Data.List.DropRight

/-!
# ContextFree — how many variants a form has

A droppable symbol in front of a form makes a variant more for each there was, with the symbol in
front, unless that is a variant already. It is one already if the symbol comes up once more behind
droppable symbols only: then either of the two may be kept, and the same form is left. The symbols
that are always kept tell one run of droppable symbols from the next, so variants are lost only
within a run, and only if it has a symbol twice, next to each other or not.

Main statements: `size_variants_eq_double_iff` and `exists_collision_iff` (when a symbol in front
makes as many new variants as there were), `size_variants_eq_iff` (the number, by induction on the
form), `runsDistinct_iff` (all runs and those as long as can be) and `variants_lost_within_runs`.
-/

namespace ContextFree

namespace Form

variable {names : SortedSet Name}

/-! ## A symbol in front

The variants of a form are made from those of its rest, with the first symbol in front of them or
without it. Either kind is as many as the variants of the rest. The two kinds may have forms in
common, and these are what is lost. -/

theorem size_variants_nil (names : SortedSet Name) : (variants names []).size = 1 :=
  rfl

/-- A symbol that cannot be dropped stands in front of every variant. -/
theorem size_variants_of_kept {s : Symbol} {rest : Form} (hkept : s.isDroppable names = false) :
    (variants names (s :: rest)).size = (variants names rest).size := by
  have hsame : variants names (s :: rest) = (variants names rest).map (s :: ·) := by
    simp [variants, hkept]
  rw [hsame, SortedSet.size_map_of_injective List.cons_injective]

section Droppable

variable {s : Symbol} (rest : Form)

/-- A symbol that can be dropped stands in front of each variant of the rest, or it does not. -/
theorem variants_of_droppable (hdrop : s.isDroppable names = true) :
    variants names (s :: rest) = (variants names rest).map (s :: ·) ∪ variants names rest := by
  simp [variants, hdrop]

/-- A droppable symbol makes a variant that is longer than all there were. -/
theorem size_variants_lt (hdrop : s.isDroppable names = true) :
    (variants names rest).size < (variants names (s :: rest)).size := by
  refine SortedSet.size_lt_of_subset_of_ne (fun _ h => mem_variants_of_droppable hdrop h) ?_
  intro hsame
  have hself : s :: rest ∈ variants names rest := by
    rw [← hsame]
    exact self_mem_variants _
  have hlength := (sublist_of_mem_variants hself).length_le
  rw [List.length_cons] at hlength
  omega

/-- It makes at most twice as many, and fewer if some form comes about with it and without it. -/
theorem size_variants_le_double (hdrop : s.isDroppable names = true) :
    (variants names (s :: rest)).size ≤
      (variants names rest).size + (variants names rest).size := by
  have hunion := SortedSet.size_union_le ((variants names rest).map (s :: ·)) (variants names rest)
  rw [SortedSet.size_map_of_injective List.cons_injective] at hunion
  rw [variants_of_droppable rest hdrop]
  exact hunion

/-- It makes as many new variants as there were unless it stands in front of one already. -/
theorem size_variants_eq_double_iff (hdrop : s.isDroppable names = true) :
    (variants names (s :: rest)).size = (variants names rest).size + (variants names rest).size ↔
      ¬ ∃ tail ∈ variants names rest, s :: tail ∈ variants names rest := by
  have hunion := SortedSet.size_union_eq_iff (s := (variants names rest).map (s :: ·))
    (t := variants names rest)
  rw [SortedSet.size_map_of_injective List.cons_injective] at hunion
  rw [variants_of_droppable rest hdrop, hunion]
  constructor
  · intro hnone hcollision
    obtain ⟨tail, htail, hcons⟩ := hcollision
    exact hnone (s :: tail) (SortedSet.mem_map.2 ⟨tail, htail, rfl⟩) hcons
  · intro hnone form hform hmem
    obtain ⟨tail, htail, rfl⟩ := SortedSet.mem_map.1 hform
    exact hnone ⟨tail, htail, hmem⟩

end Droppable

/-! ## Bounds

Both bounds follow symbol by symbol: a droppable symbol adds something, and it never does more than
double. -/

/-- At least one variant is added for each droppable symbol. -/
theorem countP_lt_size_variants (names : SortedSet Name) (form : Form) :
    form.countP (Symbol.isDroppable names) < (variants names form).size := by
  induction form with
  | nil =>
    rw [size_variants_nil, List.countP_nil]
    exact Nat.one_pos
  | cons s rest ih =>
    cases hdrop : s.isDroppable names with
    | false =>
      rw [List.countP_cons_of_neg (by simp [hdrop]), size_variants_of_kept hdrop]
      exact ih
    | true =>
      have hgrows := size_variants_lt rest hdrop
      rw [List.countP_cons_of_pos hdrop]
      omega

/-- There are no more variants than choices of what to drop. -/
theorem size_variants_le (names : SortedSet Name) (form : Form) :
    (variants names form).size ≤ 2 ^ form.countP (Symbol.isDroppable names) := by
  induction form with
  | nil =>
    rw [size_variants_nil, List.countP_nil, Nat.pow_zero]
  | cons s rest ih =>
    cases hdrop : s.isDroppable names with
    | false =>
      rw [List.countP_cons_of_neg (by simp [hdrop]), size_variants_of_kept hdrop]
      exact ih
    | true =>
      have hdouble := size_variants_le_double rest hdrop
      rw [List.countP_cons_of_pos hdrop, Nat.pow_succ]
      omega

/-! ## Runs of droppable symbols

The bound is reached if no symbol in front stands in front of a variant already. This is a condition
on the symbols behind it, which becomes one on the whole form: among droppable symbols next to each
other none comes up twice. -/

/-- A form can be dropped as a whole if all its symbols can be. -/
theorem nil_mem_variants {form : Form} (h : isNullable names form = true) :
    [] ∈ variants names form := by
  induction form with
  | nil => exact self_mem_variants []
  | cons s rest ih =>
    rw [isNullable_cons, Bool.and_eq_true] at h
    exact mem_variants_of_droppable h.1 (ih h.2)

/-- A variant begins with a symbol if the symbol stands behind droppable symbols only. -/
theorem exists_append_of_cons_mem_variants {s : Symbol} {form tail : Form}
    (h : s :: tail ∈ variants names form) :
    ∃ before after, form = before ++ s :: after ∧ isNullable names before = true := by
  induction form with
  | nil => exact absurd (mem_variants_nil.1 h) (List.cons_ne_nil s tail)
  | cons s' rest ih =>
    rcases mem_variants_cons.1 h with ⟨tail', -, hcons⟩ | ⟨hdrop, htail⟩
    · obtain ⟨rfl, -⟩ := List.cons.inj hcons
      exact ⟨[], rest, rfl, rfl⟩
    · obtain ⟨before, after, rfl, hbefore⟩ := ih htail
      refine ⟨s' :: before, after, rfl, ?_⟩
      rw [isNullable_cons, hdrop, hbefore]
      rfl

/-- A droppable symbol stands in front of a variant already if it comes up once more with nothing
but droppable symbols in between. -/
theorem exists_collision_iff {s : Symbol} {rest : Form} (hdrop : s.isDroppable names = true) :
    (∃ tail ∈ variants names rest, s :: tail ∈ variants names rest) ↔
      ∃ before after, rest = before ++ s :: after ∧ isNullable names before = true := by
  constructor
  · intro hcollision
    obtain ⟨tail, -, hcons⟩ := hcollision
    exact exists_append_of_cons_mem_variants hcons
  · intro hagain
    obtain ⟨before, after, rfl, hbefore⟩ := hagain
    have hempty := nil_mem_variants hbefore
    -- What stands behind the symbol is left without it and with it.
    refine ⟨after, mem_variants_append.2 ⟨[], hempty, after, ?_, rfl⟩,
      mem_variants_append.2 ⟨[], hempty, s :: after, ?_, rfl⟩⟩
    · exact mem_variants_of_droppable hdrop (self_mem_variants after)
    · exact self_mem_variants (s :: after)

/-- No symbol comes up twice among droppable symbols next to each other. -/
def RunsDistinct (names : SortedSet Name) (form : Form) : Prop :=
  ∀ run, run <:+: form → isNullable names run = true → run.Nodup

/-- No run goes across a symbol that is always kept. -/
theorem runsDistinct_cons_of_kept {s : Symbol} {rest : Form} (hkept : s.isDroppable names = false) :
    RunsDistinct names (s :: rest) ↔ RunsDistinct names rest := by
  constructor
  · exact fun h run hrun => h run (List.infix_cons hrun)
  · intro h run hrun hnullable
    rcases List.infix_cons_iff.1 hrun with hfront | hrest
    · rcases List.prefix_cons_iff.1 hfront with rfl | ⟨run', rfl, -⟩
      · exact List.nodup_nil
      · rw [isNullable_cons, hkept] at hnullable
        cases hnullable
    · exact h run hrest hnullable

/-- A droppable symbol in front prolongs the first run, so it must not come up in that run once
more. -/
theorem runsDistinct_cons_of_droppable {s : Symbol} {rest : Form}
    (hdrop : s.isDroppable names = true) :
    RunsDistinct names (s :: rest) ↔ RunsDistinct names rest ∧
      ¬ ∃ before after, rest = before ++ s :: after ∧ isNullable names before = true := by
  constructor
  · intro h
    refine ⟨fun run hrun => h run (List.infix_cons hrun), fun hagain => ?_⟩
    obtain ⟨before, after, rfl, hbefore⟩ := hagain
    have hinfix : s :: (before ++ [s]) <:+: s :: (before ++ s :: after) := ⟨[], after, by simp⟩
    have hnullable : isNullable names (s :: (before ++ [s])) = true := by
      rw [isNullable_cons, isNullable_append, isNullable_cons, hdrop, hbefore]
      rfl
    exact (List.nodup_cons.1 (h _ hinfix hnullable)).1 (by simp)
  · intro h run hrun hnullable
    obtain ⟨hrest, hnone⟩ := h
    rcases List.infix_cons_iff.1 hrun with hfront | hinfix
    · rcases List.prefix_cons_iff.1 hfront with rfl | ⟨run', rfl, hrun'⟩
      · exact List.nodup_nil
      · rw [isNullable_cons, Bool.and_eq_true] at hnullable
        refine List.nodup_cons.2 ⟨fun hmem => ?_, hrest run' hrun'.isInfix hnullable.2⟩
        -- The symbol comes up once more in the run.
        obtain ⟨before, after, rfl⟩ := List.append_of_mem hmem
        obtain ⟨beyond, rfl⟩ := hrun'
        rw [isNullable_append, Bool.and_eq_true] at hnullable
        exact hnone ⟨before, after ++ beyond, by simp, hnullable.2.1⟩
    · exact hrest run hinfix hnullable

/-- There are as many variants as choices just if no run has a symbol twice. -/
theorem size_variants_eq_iff (names : SortedSet Name) (form : Form) :
    (variants names form).size = 2 ^ form.countP (Symbol.isDroppable names) ↔
      RunsDistinct names form := by
  induction form with
  | nil =>
    refine iff_of_true ?_ fun run hrun _ => ?_
    · rw [size_variants_nil, List.countP_nil, Nat.pow_zero]
    · rw [List.infix_nil.1 hrun]
      exact List.nodup_nil
  | cons s rest ih =>
    cases hdrop : s.isDroppable names with
    | false =>
      rw [List.countP_cons_of_neg (by simp [hdrop]), size_variants_of_kept hdrop,
        runsDistinct_cons_of_kept hdrop]
      exact ih
    | true =>
      rw [runsDistinct_cons_of_droppable hdrop, ← exists_collision_iff hdrop,
        ← size_variants_eq_double_iff rest hdrop, ← ih, List.countP_cons_of_pos hdrop, Nat.pow_succ]
      -- Twice the bound is reached only from the bound, and only by doubling.
      have hmost := size_variants_le names rest
      have hdouble := size_variants_le_double rest hdrop
      omega

/-- A run of droppable symbols that is as long as can be: the symbols on both sides of it are kept,
if there are any. -/
def IsMaximalRun (names : SortedSet Name) (form run : Form) : Prop :=
  ∃ before after, before ++ run ++ after = form ∧ isNullable names run = true ∧
    (∀ s ∈ before.getLast?, s.isDroppable names = false) ∧
    ∀ s ∈ after.head?, s.isDroppable names = false

/-- What stands in front of a run is cut where the droppable symbols next to the run begin. -/
theorem exists_split_before (names : SortedSet Name) (form : Form) :
    ∃ before inner, before ++ inner = form ∧ isNullable names inner = true ∧
      ∀ s ∈ before.getLast?, s.isDroppable names = false := by
  refine ⟨_, _, List.rdropWhile_append_rtakeWhile (p := Symbol.isDroppable names),
    List.all_eq_true.2 fun s hs => List.mem_rtakeWhile_imp hs, fun s hs => ?_⟩
  obtain ⟨hne, hlast⟩ := List.mem_getLast?_eq_getLast hs
  rw [hlast, ← Bool.not_eq_true]
  exact List.rdropWhile_last_not _ form hne

/-- What stands behind a run is cut where the droppable symbols next to the run end. -/
theorem exists_split_after (names : SortedSet Name) (form : Form) :
    ∃ inner after, inner ++ after = form ∧ isNullable names inner = true ∧
      ∀ s ∈ after.head?, s.isDroppable names = false := by
  refine ⟨_, _, List.takeWhile_append_dropWhile (p := Symbol.isDroppable names),
    List.all_takeWhile, fun s hs => ?_⟩
  have hfirst := List.head?_dropWhile_not (Symbol.isDroppable names) form
  rw [Option.mem_def.1 hs] at hfirst
  exact hfirst

/-- Every run is part of one that is as long as can be. -/
theorem exists_isMaximalRun {form run : Form} (hrun : run <:+: form)
    (hnullable : isNullable names run = true) :
    ∃ whole, IsMaximalRun names form whole ∧ run <:+: whole := by
  obtain ⟨left, right, rfl⟩ := hrun
  obtain ⟨before, inner, rfl, hinner, hlast⟩ := exists_split_before names left
  obtain ⟨inner', after, rfl, hinner', hfirst⟩ := exists_split_after names right
  have hwhole : isNullable names (inner ++ run ++ inner') = true := by
    rw [isNullable_append, isNullable_append, hinner, hnullable, hinner']
    rfl
  have hform : before ++ (inner ++ run ++ inner') ++ after =
      before ++ inner ++ run ++ (inner' ++ after) := by
    simp only [List.append_assoc]
  exact ⟨inner ++ run ++ inner', ⟨before, after, hform, hwhole, hlast, hfirst⟩, inner, inner', rfl⟩

/-- It is enough to look at the runs that are as long as can be, as the others are part of them. -/
theorem runsDistinct_iff {form : Form} :
    RunsDistinct names form ↔ ∀ run, IsMaximalRun names form run → run.Nodup := by
  constructor
  · intro h run hrun
    obtain ⟨before, after, hform, hnullable, -, -⟩ := hrun
    exact h run ⟨before, after, hform⟩ hnullable
  · intro h run hrun hnullable
    obtain ⟨whole, hwhole, hpart⟩ := exists_isMaximalRun hrun hnullable
    exact (h whole hwhole).sublist hpart.sublist

/-- **Variants are lost only within runs.** Of `k` occurrences that can be dropped at least `k + 1`
variants come, and no more than there are choices, which are `2 ^ k`. There are as many just if no
run of droppable symbols, taken as long as can be, has the same symbol twice. -/
theorem variants_lost_within_runs (names : SortedSet Name) (form : Form) :
    form.countP (Symbol.isDroppable names) + 1 ≤ (variants names form).size ∧
      (variants names form).size ≤ 2 ^ form.countP (Symbol.isDroppable names) ∧
      ((variants names form).size = 2 ^ form.countP (Symbol.isDroppable names) ↔
        ∀ run, IsMaximalRun names form run → run.Nodup) :=
  ⟨countP_lt_size_variants names form, size_variants_le names form,
    (size_variants_eq_iff names form).trans runsDistinct_iff⟩

/-- The first and the last symbol are the same. Kept alone, either of them leaves the same form. -/
example : (variants (.ofList [.text "A", .text "B"])
    [.nonterminal (.text "A"), .nonterminal (.text "B"), .nonterminal (.text "A")]).size = 7 := by
  decide +kernel

end Form

end ContextFree
