import ContextFree.SortedSet.Basic

/-!
# ContextFree — listing a set by a key

Some listings follow what an element is shown as and not what it is: ten stands before nine when
both are compared as texts. Elements whose keys are equal follow in their own order, so the listing
depends on nothing but the set and the key.

Main statements: `mem_listBy` and `nodup_listBy` (each element is listed once), `keys_listBy` (the
keys never fall).
-/

namespace ContextFree

open Std

namespace SortedSet

variable {α κ : Type} [Ord α] [TransOrd α] [Ord κ] [TransOrd κ]

/-- The order by a key, and by the elements' own order where keys are equal. -/
abbrev keyOrder (key : α → κ) : α → α → Ordering :=
  compareLex (compareOn key) compare

/-- The elements in the order of their keys. -/
def listBy (key : α → κ) (s : SortedSet α) : List α :=
  (ExtTreeSet.ofList s.toList (keyOrder key)).toList

/-- The listing is ascending in the order by key, from which the other facts about it follow. -/
theorem ordered_listBy (key : α → κ) (s : SortedSet α) :
    (s.listBy key).Pairwise fun a b => keyOrder key a b = .lt :=
  ExtTreeSet.ordered_toList

/-- The keys never fall along the listing. -/
theorem keys_listBy (key : α → κ) (s : SortedSet α) :
    (s.listBy key).Pairwise fun a b => (compare (key a) (key b)).isLE = true := by
  refine (ordered_listBy key s).imp fun {a b} h => ?_
  rw [keyOrder, compareLex, Ordering.then_eq_lt] at h
  rcases h with h | h <;> simp_all [compareOn]

/-- No element is listed twice, also where several have the same key. -/
theorem nodup_listBy (key : α → κ) (s : SortedSet α) : (s.listBy key).Nodup :=
  ExtTreeSet.distinct_toList.imp fun {a b} hab => by
    rintro rfl
    exact hab ReflCmp.compare_self

/-! ## Membership

Two elements with the same key are still two elements: the order by key falls back on the order of
the elements, so only equal ones compare equal, and the listing keeps them all. -/

variable [LawfulEqOrd α]

instance lawfulEqCmp_keyOrder (key : α → κ) : LawfulEqCmp (keyOrder key) where
  eq_of_compare h := LawfulEqCmp.eq_of_compare (compareLex_eq_eq.1 h).2

/-- Listing by a key leaves no element out and adds none. -/
@[simp] theorem mem_listBy {key : α → κ} {a : α} {s : SortedSet α} :
    a ∈ s.listBy key ↔ a ∈ s := by
  classical
  rw [listBy, ExtTreeSet.mem_toList, ExtTreeSet.mem_ofList, List.contains_iff_mem, mem_toList]

end SortedSet

end ContextFree
