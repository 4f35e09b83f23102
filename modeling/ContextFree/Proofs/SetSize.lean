import ContextFree.SortedSet.Basic
import Mathlib.Data.Finset.Card

/-!
# ContextFree — the size of a set

How many elements a set has. A set is looked at as a `Finset` with the same elements, where the
library counts them: inclusion, union and images are carried over, and the size is the cardinality.

Main statements: `size_lt_of_subset_of_ne` (a set that grows has more elements) and
`add_size_le_of_growing` (by induction on how often it grows), `size_union_eq_iff` (when no element
is counted twice) and `size_map_of_injective`.
-/

namespace ContextFree

open Std

namespace SortedSet

section Counting

variable {α : Type} [Ord α] [TransOrd α]

/-- Repetitions in a list are counted once, so the set may be smaller than the list is long. -/
theorem size_ofList_le (l : List α) : (ofList l).size ≤ l.length :=
  ExtTreeSet.size_ofList_le

/-- The same elements without their order. -/
def toFinset (s : SortedSet α) : Finset α :=
  ⟨s.toList, s.nodup_toList⟩

/-- The cardinality that the library counts is the size. -/
@[simp] theorem card_toFinset (s : SortedSet α) : s.toFinset.card = s.size :=
  s.length_toList

variable [LawfulEqOrd α]

@[simp] theorem mem_toFinset {a : α} {s : SortedSet α} : a ∈ s.toFinset ↔ a ∈ s :=
  mem_toList

/-- Inclusion is carried over to the library's sets, where `Finset.card_le_card` applies. -/
theorem toFinset_subset_iff {s t : SortedSet α} : s.toFinset ⊆ t.toFinset ↔ s ⊆ t :=
  forall_congr' fun _ => imp_congr mem_toFinset mem_toFinset

theorem toFinset_union [DecidableEq α] (s t : SortedSet α) :
    (s ∪ t).toFinset = s.toFinset ∪ t.toFinset := by
  ext a
  simp

/-! ## Inclusion

A set that includes another has at least as many elements, and more if it is another set. From this
one step `add_size_le_of_growing` counts along a whole sequence, which is how the number of rounds
of a closure is bounded. -/

/-- Different elements of a set are no more than its size. -/
theorem length_le_size_of_nodup {l : List α} {s : SortedSet α} (hnodup : l.Nodup)
    (h : ∀ a ∈ l, a ∈ s) : l.length ≤ s.size := by
  rw [← length_toList s]
  exact hnodup.length_le_of_subset fun a ha => mem_toList.2 (h a ha)

/-- A list without repetitions makes a set of as many elements. -/
theorem size_ofList_of_nodup {l : List α} (hnodup : l.Nodup) : (ofList l).size = l.length :=
  Nat.le_antisymm (size_ofList_le l) (length_le_size_of_nodup hnodup fun _ => mem_ofList.2)

/-- A set is counted by a list with a key for each element, among other entries that are not
counted. -/
theorem countP_eq_size {β : Type} {l : List β} {key : β → α} {p : β → Bool} {s : SortedSet α}
    (hnodup : (l.map key).Nodup) (h : ∀ a, a ∈ s ↔ ∃ b ∈ l, p b = true ∧ key b = a) :
    l.countP p = s.size := by
  have hkeys : ((l.filter p).map key).Nodup := hnodup.sublist (List.filter_sublist.map key)
  have hsame : ofList ((l.filter p).map key) = s := by
    refine ext_mem fun a => ?_
    rw [h]
    simp [and_assoc]
  rw [← hsame, size_ofList_of_nodup hkeys, List.length_map, List.countP_eq_length_filter]

theorem size_le_of_subset {s t : SortedSet α} (h : s ⊆ t) : s.size ≤ t.size := by
  rw [← card_toFinset, ← card_toFinset]
  exact Finset.card_le_card (toFinset_subset_iff.2 h)

/-- A part that is not all of a set has fewer elements. This is what makes the measure of a closure
fall in each round that adds something. -/
theorem size_lt_of_subset_of_ne {s t : SortedSet α} (h : s ⊆ t) (hne : t ≠ s) :
    s.size < t.size := by
  rw [← card_toFinset, ← card_toFinset]
  refine Finset.card_lt_card ⟨toFinset_subset_iff.2 h, fun hts => ?_⟩
  exact hne (subset_antisymm (toFinset_subset_iff.1 hts) h)

/-- Sets that grow from each to the next gain an element each time. -/
theorem add_size_le_of_growing {sets : Nat → SortedSet α} {n : Nat}
    (h : ∀ i < n, sets i ⊆ sets (i + 1) ∧ sets (i + 1) ≠ sets i) :
    (sets 0).size + n ≤ (sets n).size := by
  induction n with
  | zero => exact Nat.le_refl _
  | succ n ih =>
    obtain ⟨hsub, hne⟩ := h n (Nat.lt_succ_self n)
    have hlt := size_lt_of_subset_of_ne hsub hne
    have hle := ih fun i hi => h i (by omega)
    omega

/-! ## Union

The size of a union is bounded by the sizes of its parts, and falls short of their sum by the
elements that the parts share. -/

/-- Elements of both sets are counted once. -/
theorem size_union_le (s t : SortedSet α) : (s ∪ t).size ≤ s.size + t.size := by
  classical
  rw [← card_toFinset, toFinset_union, ← card_toFinset s, ← card_toFinset t]
  exact Finset.card_union_le _ _

/-- A union has as many elements as its two parts together just if they share none. -/
theorem size_union_eq_iff {s t : SortedSet α} :
    (s ∪ t).size = s.size + t.size ↔ ∀ a ∈ s, a ∉ t := by
  classical
  rw [← card_toFinset, toFinset_union, ← card_toFinset s, ← card_toFinset t,
    Finset.card_union_eq_card_add_card, Finset.disjoint_left]
  exact forall_congr' fun _ => imp_congr mem_toFinset (not_congr mem_toFinset)

end Counting

/-! ## Images

An image can only lose elements where two of them have the same image. -/

section Images

variable {α β : Type} [Ord α] [TransOrd α] [LawfulEqOrd α] [Ord β] [TransOrd β] [LawfulEqOrd β]

theorem toFinset_map [DecidableEq β] (f : α → β) (s : SortedSet α) :
    (s.map f).toFinset = s.toFinset.image f := by
  ext b
  simp

/-- Where different elements have different images, none is lost by taking the image. -/
theorem size_map_of_injective {f : α → β} (hf : Function.Injective f) (s : SortedSet α) :
    (s.map f).size = s.size := by
  classical
  rw [← card_toFinset, toFinset_map, Finset.card_image_of_injective _ hf, card_toFinset]

end Images

end SortedSet

end ContextFree
