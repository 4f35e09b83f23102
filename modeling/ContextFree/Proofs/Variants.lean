import ContextFree.Nullable.Variants
import Mathlib.Data.List.Sections

/-!
# ContextFree — the variants of a form

A variant of a form is what is left when some of the positions are left out that hold a droppable
nonterminal. Which ones is decided position by position, so the variants of a concatenation are the
concatenations of variants of the two parts. The same forms come of writing down for each symbol
what may stand in its place and then making all choices.

Main statements: `mem_variants_iff_without` (positions left out, by induction on the form),
`variantsByChoice_eq` (all choices), `mem_variants_append` and `variants_are_deletions`.
-/

namespace ContextFree

/-- What may stand in the place of a symbol: the symbol, and nothing if it can be dropped. -/
def Symbol.choices (names : SortedSet Name) (s : Symbol) : List Form :=
  if s.isDroppable names then [[s], []] else [[s]]

namespace Form

variable {names : SortedSet Name}

/-! ## Variants of small and of the same forms

The recursion of the variants is on the form, so the facts about them are proved by induction on the
form, with `mem_variants_cons` for the step. -/

theorem mem_variants_nil {form : Form} : form ∈ variants names [] ↔ form = [] := by
  unfold variants
  exact SortedSet.mem_singleton

/-- A single symbol is kept, or it is dropped if it may be. -/
theorem mem_variants_singleton {s : Symbol} {form : Form} :
    form ∈ variants names [s] ↔ form = [s] ∨ s.isDroppable names = true ∧ form = [] := by
  rw [mem_variants_cons, mem_variants_nil]
  refine or_congr_left ⟨?_, ?_⟩
  · rintro ⟨tail, htail, rfl⟩
    rw [mem_variants_nil.1 htail]
  · rintro rfl
    exact ⟨[], mem_variants_nil.2 rfl, rfl⟩

/-- A form is a variant of itself, with nothing dropped. -/
theorem self_mem_variants (form : Form) : form ∈ variants names form := by
  induction form with
  | nil => exact mem_variants_nil.2 rfl
  | cons s rest ih => exact cons_mem_variants ih

/-- With more names that can be dropped there are more variants. -/
theorem variants_mono {names' : SortedSet Name} (hsub : names ⊆ names') (form : Form) :
    variants names form ⊆ variants names' form := by
  induction form with
  | nil => exact fun _ h => h
  | cons s rest ih =>
    intro variant h
    rcases mem_variants_cons.1 h with ⟨tail, htail, rfl⟩ | ⟨hdrop, htail⟩
    · exact cons_mem_variants (ih tail htail)
    · obtain ⟨v, hv, hsymbol⟩ := Symbol.isDroppable_iff.1 hdrop
      have hdrop' : s.isDroppable names' = true :=
        Symbol.isDroppable_iff.2 ⟨v, hsub v hv, hsymbol⟩
      exact mem_variants_of_droppable hdrop' (ih variant htail)

/-- A variant keeps the symbols that it has in their order. -/
theorem sublist_of_mem_variants {form variant : Form} (h : variant ∈ variants names form) :
    variant.Sublist form := by
  induction form generalizing variant with
  | nil =>
    obtain rfl := mem_variants_nil.1 h
    exact .refl []
  | cons s rest ih =>
    rcases mem_variants_cons.1 h with ⟨tail, htail, rfl⟩ | ⟨-, htail⟩
    · exact (ih htail).cons_cons s
    · exact (ih htail).cons s

/-- With no names to drop there is no other variant. -/
theorem eq_of_mem_variants (hnames : ∀ v, v ∉ names) {form variant : Form}
    (h : variant ∈ variants names form) : variant = form := by
  induction form generalizing variant with
  | nil => exact mem_variants_nil.1 h
  | cons s rest ih =>
    rcases mem_variants_cons.1 h with ⟨tail, htail, rfl⟩ | ⟨hdrop, -⟩
    · rw [ih htail]
    · obtain ⟨v, hv, -⟩ := Symbol.isDroppable_iff.1 hdrop
      exact absurd hv (hnames v)

/-! ## Positions left out

Two occurrences of one symbol are different positions, and dropping the one or the other may leave
the same form. So the positions that are dropped are given as a function on numbers, and a variant
is what is left for some such function. -/

/-- The symbols, in their order, without those at the positions that are dropped. -/
def without (dropped : Nat → Bool) (form : Form) : Form :=
  (form.zipIdx.filter fun p => !dropped p.2).map Prod.fst

/-- Whether the first symbol is left out is decided at position 0, and the decisions for the rest
are those one position further on. -/
theorem without_cons (dropped : Nat → Bool) (s : Symbol) (rest : Form) :
    without dropped (s :: rest) =
      if dropped 0 then without (fun i => dropped (i + 1)) rest
      else s :: without (fun i => dropped (i + 1)) rest := by
  -- The positions in the rest are counted from one here and from zero there.
  have hrest : ((rest.zipIdx 1).filter fun p => !dropped p.2).map Prod.fst =
      without (fun i => dropped (i + 1)) rest := by
    rw [List.zipIdx_succ, List.filter_map, List.map_map]
    rfl
  unfold without at hrest ⊢
  rw [List.zipIdx_cons, List.filter_cons]
  by_cases hfirst : dropped 0 = true
  · simp only [hfirst, Bool.not_true, Bool.false_eq_true, if_false, if_true]
    exact hrest
  · simp only [hfirst, Bool.not_false, if_true, List.map_cons]
    exact congrArg (s :: ·) hrest

/-- A choice for the first position and, one further on each, the choices for the others. -/
def startingWith (first : Bool) (dropped : Nat → Bool) : Nat → Bool
  | 0 => first
  | i + 1 => dropped i

/-- The variants are what is left when positions are dropped, all of which hold a nonterminal with
one of the names. -/
theorem mem_variants_iff_without {form variant : Form} :
    variant ∈ variants names form ↔ ∃ dropped : Nat → Bool,
      (∀ i, dropped i = true → ∃ v ∈ names, form[i]? = some (.nonterminal v)) ∧
        without dropped form = variant := by
  induction form generalizing variant with
  | nil =>
    rw [mem_variants_nil]
    constructor
    · intro hvariant
      exact ⟨fun _ => false, fun _ hi => absurd hi Bool.false_ne_true, hvariant.symm⟩
    · intro h
      obtain ⟨dropped, -, hvariant⟩ := h
      exact hvariant.symm
  | cons s rest ih =>
    constructor
    · intro h
      rcases mem_variants_cons.1 h with ⟨tail, htail, rfl⟩ | ⟨hdrop, htail⟩
      · obtain ⟨dropped, hdropped, rfl⟩ := ih.1 htail
        -- The first symbol was kept, so its position is not dropped.
        refine ⟨startingWith false dropped, fun i hi => ?_, without_cons _ s rest⟩
        cases i with
        | zero => exact absurd hi Bool.false_ne_true
        | succ i => exact hdropped i hi
      · obtain ⟨dropped, hdropped, rfl⟩ := ih.1 htail
        -- The first symbol was left out, which it may be.
        refine ⟨startingWith true dropped, fun i hi => ?_, without_cons _ s rest⟩
        cases i with
        | zero =>
          obtain ⟨v, hv, rfl⟩ := Symbol.isDroppable_iff.1 hdrop
          exact ⟨v, hv, rfl⟩
        | succ i => exact hdropped i hi
    · intro h
      obtain ⟨dropped, hdropped, rfl⟩ := h
      have htail : without (fun i => dropped (i + 1)) rest ∈ variants names rest :=
        ih.2 ⟨_, fun i hi => hdropped (i + 1) hi, rfl⟩
      rw [without_cons]
      split
      · rename_i hfirst
        obtain ⟨v, hv, hs⟩ := hdropped 0 hfirst
        have hdrop : s.isDroppable names = true :=
          Symbol.isDroppable_iff.2 ⟨v, hv, Option.some.inj hs⟩
        exact mem_variants_of_droppable hdrop htail
      · exact cons_mem_variants htail

/-! ## One choice for each symbol

The product of the choices has a list of parts for every way to choose, and a variant is the parts
of such a list in a row. It does not matter in which order the product lists them, and different
choices may leave the same variant. -/

/-- The forms that come of all choices, one for each symbol of the form. -/
def variantsByChoice (names : SortedSet Name) (form : Form) : SortedSet Form :=
  .ofList ((form.map (Symbol.choices names)).sections.map List.flatten)

theorem mem_choices {s : Symbol} {part : Form} :
    part ∈ s.choices names ↔ part = [s] ∨ s.isDroppable names = true ∧ part = [] := by
  unfold Symbol.choices
  split <;> simp_all

/-- The choice for the first symbol stands in front of the choices for the others. -/
theorem mem_variantsByChoice_cons {s : Symbol} {rest variant : Form} :
    variant ∈ variantsByChoice names (s :: rest) ↔
      ∃ part ∈ s.choices names, ∃ tail ∈ variantsByChoice names rest, part ++ tail = variant := by
  simp only [variantsByChoice, SortedSet.mem_ofList, List.map_cons, List.sections, List.mem_map,
    List.mem_flatMap]
  constructor
  · rintro ⟨_, ⟨parts, hparts, part, hpart, rfl⟩, rfl⟩
    exact ⟨part, hpart, parts.flatten, ⟨parts, hparts, rfl⟩, rfl⟩
  · rintro ⟨part, hpart, _, ⟨parts, hparts, rfl⟩, rfl⟩
    exact ⟨part :: parts, ⟨parts, hparts, part, hpart, rfl⟩, rfl⟩

/-- **Making all choices gives the variants.** -/
theorem variantsByChoice_eq (names : SortedSet Name) (form : Form) :
    variantsByChoice names form = variants names form := by
  induction form with
  | nil => rfl
  | cons s rest ih =>
    apply SortedSet.ext_mem
    intro variant
    rw [mem_variantsByChoice_cons, ih, mem_variants_cons]
    -- A choice for the first symbol is the symbol itself or, if it may be dropped, nothing.
    simp only [mem_choices]
    constructor
    · rintro ⟨_, rfl | ⟨hdrop, rfl⟩, tail, htail, rfl⟩
      · exact .inl ⟨tail, htail, rfl⟩
      · exact .inr ⟨hdrop, htail⟩
    · rintro (⟨tail, htail, rfl⟩ | ⟨hdrop, htail⟩)
      · exact ⟨[s], .inl rfl, tail, htail, rfl⟩
      · exact ⟨[], .inr ⟨hdrop, rfl⟩, variant, htail, rfl⟩

/-! ## Concatenations

Dropping in one part has nothing to do with dropping in the other. -/

/-- The variants of a concatenation are put together from a variant of each part. Induction on the
left part. -/
theorem mem_variants_append {x y variant : Form} :
    variant ∈ variants names (x ++ y) ↔
      ∃ a ∈ variants names x, ∃ b ∈ variants names y, a ++ b = variant := by
  induction x generalizing variant with
  | nil => simp [mem_variants_nil]
  | cons s x ih =>
    rw [List.cons_append]
    constructor
    · intro h
      rcases mem_variants_cons.1 h with ⟨tail, htail, rfl⟩ | ⟨hdrop, htail⟩
      · obtain ⟨a, ha, b, hb, rfl⟩ := ih.1 htail
        exact ⟨s :: a, cons_mem_variants ha, b, hb, rfl⟩
      · obtain ⟨a, ha, b, hb, rfl⟩ := ih.1 htail
        exact ⟨a, mem_variants_of_droppable hdrop ha, b, hb, rfl⟩
    · intro h
      obtain ⟨a, ha, b, hb, rfl⟩ := h
      -- Whether the first symbol is kept is a matter of the left part alone.
      rcases mem_variants_cons.1 ha with ⟨tail, htail, rfl⟩ | ⟨hdrop, htail⟩
      · exact cons_mem_variants (ih.2 ⟨tail, htail, b, hb, rfl⟩)
      · exact mem_variants_of_droppable hdrop (ih.2 ⟨a, htail, b, hb, rfl⟩)

/-- **Variants are what deletions leave.** A variant of a form is what is left when some of the
positions are left out that hold a nonterminal with one of the names, the other symbols kept in
their order. The variants of a concatenation are the variants of the left part, each followed by
each of the variants of the right part. -/
theorem variants_are_deletions (names : SortedSet Name) :
    (∀ form variant : Form, variant ∈ variants names form ↔ ∃ dropped : Nat → Bool,
      (∀ i, dropped i = true → ∃ v ∈ names, form[i]? = some (.nonterminal v)) ∧
        without dropped form = variant) ∧
    ∀ x y : Form, variants names (x ++ y) =
      (variants names x).flatMap fun a => (variants names y).toList.map (a ++ ·) := by
  refine ⟨fun form variant => mem_variants_iff_without, fun x y => ?_⟩
  apply SortedSet.ext_mem
  intro variant
  simp only [mem_variants_append, SortedSet.mem_flatMap, List.mem_map, SortedSet.mem_toList]

end Form

end ContextFree
