/-!
# ContextFree — the first item that fails a check

Items that are checked one after the other are refused as soon as one of them does not pass. So the
complaint is about the first item that does not pass, and there is one just if some item does not.

Main statements: `isFirst_cons` (the first item with a property stands in front, or it is the first
of those behind) and from it, by induction on the items, `exists_isFirst_iff` and `mapM_eq_error`.
-/

namespace ContextFree

variable {α β ε : Type}

/-- The item has the property, and it stands behind items without it. -/
def IsFirst (p : α → Prop) (items : List α) (a : α) : Prop :=
  ∃ before after, items = before ++ a :: after ∧ (∀ b ∈ before, ¬ p b) ∧ p a

theorem not_isFirst_nil {p : α → Prop} {a : α} : ¬ IsFirst p [] a := by
  rintro ⟨before, after, hsplit, -, -⟩
  exact List.append_ne_nil_of_right_ne_nil before (List.cons_ne_nil a after) hsplit.symm

/-- If the item in front has the property it is the first one. Otherwise it can be passed over.
Inductions on the items go by this, and need not say where the item stands. -/
theorem isFirst_cons {p : α → Prop} {a b : α} {items : List α} :
    IsFirst p (a :: items) b ↔ a = b ∧ p a ∨ ¬ p a ∧ IsFirst p items b := by
  constructor
  · intro h
    obtain ⟨before, after, hsplit, hbefore, hb⟩ := h
    -- The item in front is the first one just if nothing stands before it.
    cases before with
    | nil =>
      obtain ⟨rfl, rfl⟩ := List.cons.inj hsplit
      exact .inl ⟨rfl, hb⟩
    | cons c before =>
      obtain ⟨rfl, rfl⟩ := List.cons.inj hsplit
      obtain ⟨ha, hbefore⟩ := List.forall_mem_cons.1 hbefore
      exact .inr ⟨ha, before, after, rfl, hbefore, hb⟩
  · intro h
    rcases h with ⟨rfl, ha⟩ | ⟨ha, before, after, rfl, hbefore, hb⟩
    · exact ⟨[], items, rfl, fun _ hc => absurd hc List.not_mem_nil, ha⟩
    · exact ⟨a :: before, after, rfl, List.forall_mem_cons.2 ⟨ha, hbefore⟩, hb⟩

/-- There is a first item with the property just if there is any. -/
theorem exists_isFirst_iff {p : α → Prop} {items : List α} :
    (∃ a, IsFirst p items a) ↔ ∃ a ∈ items, p a := by
  induction items with
  | nil => simp [not_isFirst_nil]
  | cons a items ih =>
    simp only [isFirst_cons, exists_or, exists_and_left, exists_and_right, exists_eq', true_and, ih,
      List.mem_cons, or_and_right, exists_eq_left]
    by_cases ha : p a <;> simp [ha]

/-- What is made of a result adds no complaint and takes none away. -/
theorem bind_pure_eq_error {x : Except ε α} {f : α → β} {e : ε} :
    (do let a ← x; return f a) = Except.error e ↔ x = .error e := by
  cases x with
  | error _ =>
    exact ⟨fun h => congrArg Except.error (Except.error.inj h),
      fun h => congrArg Except.error (Except.error.inj h)⟩
  | ok a => exact ⟨fun h => (nomatch h), fun h => (nomatch h)⟩

/-- The complaint is that of the first item that does not pass. -/
theorem mapM_eq_error {f : α → Except ε β} {p : α → Prop} {complaint : α → ε}
    (hf : ∀ a e, f a = .error e ↔ p a ∧ e = complaint a) {items : List α} {e : ε} :
    items.mapM f = .error e ↔ ∃ a, IsFirst p items a ∧ e = complaint a := by
  induction items with
  | nil =>
    refine ⟨fun h => (nomatch h), fun h => ?_⟩
    obtain ⟨a, ha, -⟩ := h
    exact absurd ha not_isFirst_nil
  | cons a items ih =>
    rw [List.mapM_cons]
    simp only [isFirst_cons]
    cases hfirst : f a with
    | error e' =>
      obtain ⟨ha, rfl⟩ := (hf a e').1 hfirst
      constructor
      · intro h
        exact ⟨a, .inl ⟨rfl, ha⟩, (Except.error.inj h).symm⟩
      · intro h
        obtain ⟨b, ⟨rfl, -⟩ | ⟨hpassed, -⟩, rfl⟩ := h
        · rfl
        · exact absurd ha hpassed
    | ok passed =>
      -- An item that passes is not complained about, so both sides go on behind it.
      have ha : ¬ p a := by
        intro ha
        rw [(hf a _).2 ⟨ha, rfl⟩] at hfirst
        cases hfirst
      refine bind_pure_eq_error.trans (ih.trans (exists_congr fun b => ?_))
      simp only [ha, and_false, false_or, not_false_eq_true, true_and]

end ContextFree
