import Std.Data.ExtTreeSet

/-!
# ContextFree — finite sets in ascending order

A `SortedSet` is a finite set that is listed in ascending order, whatever order it was built in.
Equal sets are equal values, so a set can be compared, kept and shown without choosing how to
write it down. Every answer that stands for a set is listed this way.

Main statements: `SortedSet.ext_mem` (sets with the same members are equal), one membership lemma
for each operation, and `ascending_toList`. Later modules argue through these and never look at the
tree inside.
-/

namespace ContextFree

open Std

structure SortedSet (α : Type) [Ord α] where
  tree : ExtTreeSet α compare

namespace SortedSet

/-- Sets are equal just if their trees are, so equality of sets can be decided. -/
theorem tree_eq_iff {α : Type} [Ord α] {s t : SortedSet α} : s.tree = t.tree ↔ s = t := by
  cases s
  cases t
  simp

section Basic

variable {α : Type} [Ord α] [TransOrd α]

instance : Membership α (SortedSet α) := ⟨fun s a => a ∈ s.tree⟩

instance : HasSubset (SortedSet α) := ⟨fun s t => ∀ a, a ∈ s → a ∈ t⟩

instance : EmptyCollection (SortedSet α) := ⟨⟨∅⟩⟩

instance : Singleton α (SortedSet α) := ⟨fun a => ⟨{a}⟩⟩

instance : Insert α (SortedSet α) := ⟨fun a s => ⟨insert a s.tree⟩⟩

instance : Union (SortedSet α) := ⟨fun s t => ⟨s.tree ∪ t.tree⟩⟩

/-- The elements of the first set that are not in the second. -/
instance : SDiff (SortedSet α) := ⟨fun s t => ⟨s.tree \ t.tree⟩⟩

/-- The elements, least first. -/
def toList (s : SortedSet α) : List α :=
  s.tree.toList

/-- The elements of a list, in any order and any number of times. -/
def ofList (l : List α) : SortedSet α :=
  ⟨.ofList l⟩

def size (s : SortedSet α) : Nat :=
  s.tree.size

def isEmpty (s : SortedSet α) : Bool :=
  s.tree.isEmpty

def contains (s : SortedSet α) (a : α) : Bool :=
  s.tree.contains a

def isSubset (s t : SortedSet α) : Bool :=
  s.toList.all t.contains

def filter (p : α → Bool) (s : SortedSet α) : SortedSet α :=
  ⟨s.tree.filter p⟩

/-! ## Listing

The listing of a set is determined by the set: ascending, without repetitions, and as long as the
set has elements. So a function that goes through it gives the same answer for equal sets. -/

/-- Every element stands strictly below all later ones. -/
theorem ascending_toList (s : SortedSet α) : s.toList.Pairwise fun a b => compare a b = .lt :=
  ExtTreeSet.ordered_toList

/-- No element is listed twice, since none stands below itself. -/
theorem nodup_toList (s : SortedSet α) : s.toList.Nodup :=
  s.ascending_toList.imp fun {a b} hab => by
    rintro rfl
    simp at hab

theorem length_toList (s : SortedSet α) : s.toList.length = s.size :=
  ExtTreeSet.length_toList

/-! ## Membership

One lemma for each operation says what its result holds. The lemmas are tagged for `simp`, so a
question about a set that is put together from others comes down to the parts. -/

/-- Membership in terms of the tree, for the lemmas of this section only. -/
theorem mem_def {a : α} {s : SortedSet α} : a ∈ s ↔ a ∈ s.tree :=
  .rfl

/-- The test for membership that is evaluated agrees with the proposition. -/
@[simp] theorem contains_iff {a : α} {s : SortedSet α} : s.contains a = true ↔ a ∈ s :=
  ExtTreeSet.mem_iff_contains.symm

@[inline] instance (a : α) (s : SortedSet α) : Decidable (a ∈ s) :=
  decidable_of_iff (s.contains a = true) contains_iff

theorem subset_def {s t : SortedSet α} : s ⊆ t ↔ ∀ a, a ∈ s → a ∈ t :=
  .rfl

@[simp] theorem not_mem_empty (a : α) : a ∉ (∅ : SortedSet α) :=
  ExtTreeSet.not_mem_empty

/-- A closure may start from nothing whatever its universe is. -/
theorem empty_subset (s : SortedSet α) : ∅ ⊆ s :=
  fun a ha => absurd ha (not_mem_empty a)

/-- A set that did not change lost nothing. -/
theorem subset_of_eq {s t : SortedSet α} (h : s = t) : s ⊆ t := by
  rw [h]
  exact fun _ ha => ha

/-- A set that lost an element has changed. -/
theorem ne_of_not_subset {s t : SortedSet α} (h : ¬ s ⊆ t) : t ≠ s :=
  fun hsame => h (subset_of_eq hsame.symm)

@[simp] theorem mem_union {a : α} {s t : SortedSet α} : a ∈ s ∪ t ↔ a ∈ s ∨ a ∈ t :=
  ExtTreeSet.mem_union_iff

/-- Adding elements to a set keeps those that it had. -/
theorem subset_union_left (s t : SortedSet α) : s ⊆ s ∪ t :=
  fun _ ha => mem_union.2 (.inl ha)

theorem subset_union_right (s t : SortedSet α) : t ⊆ s ∪ t :=
  fun _ ha => mem_union.2 (.inr ha)

@[simp] theorem mem_diff {a : α} {s t : SortedSet α} : a ∈ s \ t ↔ a ∈ s ∧ a ∉ t :=
  ExtTreeSet.mem_diff_iff

/-- A list of one element makes the set of that element, by computation. -/
theorem ofList_singleton (a : α) : ofList [a] = {a} :=
  rfl

theorem isEmpty_iff {s : SortedSet α} : s.isEmpty = true ↔ s = ∅ := by
  rw [isEmpty, ExtTreeSet.isEmpty_iff]
  exact tree_eq_iff

variable [LawfulEqOrd α]

theorem mem_toList {a : α} {s : SortedSet α} : a ∈ s.toList ↔ a ∈ s :=
  ExtTreeSet.mem_toList

/-- A set made from a list forgets the order of the list and its repetitions, and nothing else. -/
@[simp] theorem mem_ofList {a : α} {l : List α} : a ∈ ofList l ↔ a ∈ l := by
  classical
  rw [mem_def, ofList, ExtTreeSet.mem_ofList, List.contains_iff_mem]

/-- Inserting an element adds that element at the most. -/
@[simp] theorem mem_insert {a b : α} {s : SortedSet α} : a ∈ insert b s ↔ a = b ∨ a ∈ s :=
  ExtTreeSet.mem_insert.trans (or_congr_left (LawfulEqCmp.compare_eq_iff_eq.trans eq_comm))

@[simp] theorem mem_singleton {a b : α} : a ∈ ({b} : SortedSet α) ↔ a = b :=
  (mem_insert (s := ∅)).trans (or_iff_left (not_mem_empty a))

@[simp] theorem mem_filter {a : α} {p : α → Bool} {s : SortedSet α} :
    a ∈ s.filter p ↔ a ∈ s ∧ p a = true := by
  rw [mem_def, filter, ExtTreeSet.mem_filter]
  simp [mem_def]

/-! ## Inclusion and equality

Sets with the same members are the same value (`ext_mem`), since a tree that may be shaped in
several ways is hidden behind a quotient. Both relations can be decided, so statements about given
sets can be evaluated. -/

@[simp] theorem isSubset_iff {s t : SortedSet α} : s.isSubset t = true ↔ s ⊆ t := by
  simp [isSubset, mem_toList, subset_def]

@[inline] instance (s t : SortedSet α) : Decidable (s ⊆ t) :=
  decidable_of_iff (s.isSubset t = true) isSubset_iff

/-- Sets with the same members are equal. -/
theorem ext_mem {s t : SortedSet α} (h : ∀ a, a ∈ s ↔ a ∈ t) : s = t :=
  tree_eq_iff.1 (ExtTreeSet.ext_mem h)

/-- Two inclusions make an equality, which is how closures are compared. -/
theorem subset_antisymm {s t : SortedSet α} (hst : s ⊆ t) (hts : t ⊆ s) : s = t :=
  ext_mem fun a => ⟨hst a, hts a⟩

theorem eq_empty_iff {s : SortedSet α} : s = ∅ ↔ ∀ a, a ∉ s := by
  constructor
  · rintro rfl
    exact not_mem_empty
  · exact fun h => ext_mem fun a => iff_of_false (h a) (not_mem_empty a)

theorem union_comm (s t : SortedSet α) : s ∪ t = t ∪ s :=
  ext_mem fun a => by rw [mem_union, mem_union, or_comm]

theorem union_self (s : SortedSet α) : s ∪ s = s :=
  ext_mem fun a => by rw [mem_union, or_self]

theorem foldl_insert {β : Type} (f : β → α) (l : List β) (s : SortedSet α) :
    l.foldl (fun s b => insert (f b) s) s = s ∪ ofList (l.map f) := by
  induction l generalizing s with
  | nil => exact ext_mem fun a => by simp
  | cons b l ih =>
    rw [List.foldl_cons, ih]
    apply ext_mem
    intro a
    simp only [mem_union, mem_insert, mem_ofList, List.map_cons, List.mem_cons, or_left_comm,
      or_assoc]

instance : DecidableEq (SortedSet α) := fun s t =>
  decidable_of_iff (s.tree = t.tree) tree_eq_iff

end Basic

section Images

variable {α β : Type} [Ord α] [TransOrd α] [Ord β] [TransOrd β]

def map (f : α → β) (s : SortedSet α) : SortedSet β :=
  ofList (s.toList.map f)

/-- The elements of the lists that `f` makes of the elements. -/
def flatMap (f : α → List β) (s : SortedSet α) : SortedSet β :=
  ofList (s.toList.flatMap f)

variable [LawfulEqOrd α] [LawfulEqOrd β]

/-- An image holds what comes of some element. Elements with the same image count once. -/
@[simp] theorem mem_map {b : β} {f : α → β} {s : SortedSet α} :
    b ∈ s.map f ↔ ∃ a, a ∈ s ∧ f a = b := by
  simp [map, mem_toList]

@[simp] theorem mem_flatMap {b : β} {f : α → List β} {s : SortedSet α} :
    b ∈ s.flatMap f ↔ ∃ a, a ∈ s ∧ b ∈ f a := by
  simp [flatMap, mem_toList]

end Images

end SortedSet

end ContextFree
