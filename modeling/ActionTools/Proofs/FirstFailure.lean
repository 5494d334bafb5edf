import Mathlib.Data.List.Basic

/-!
# The first failure

Work that goes through a list and stops where it fails is described by the item at which it stops:
that one fails, and those before it do not (`FirstFails`). Nothing is said of those after it. The
head of the list is this item, or it passes and the rest has one (`firstFails_cons_iff`).
-/

namespace ActionTools

variable {α : Type} {Passes Fails : α → Prop}

/-- Some item fails, and all items before it pass. -/
def FirstFails (Passes Fails : α → Prop) (items : List α) : Prop :=
  ∃ before item after, items = before ++ item :: after ∧
    (∀ earlier ∈ before, Passes earlier) ∧ Fails item

/-- Where nothing is to be done nothing fails. -/
theorem not_firstFails_nil : ¬ FirstFails Passes Fails [] := by
  rintro ⟨before, item, after, hsplit, -⟩
  exact List.append_ne_nil_of_right_ne_nil before (List.cons_ne_nil item after) hsplit.symm

/-- The first item fails, or it passes and there is a first failure among the others. -/
theorem firstFails_cons_iff {item : α} {rest : List α} :
    FirstFails Passes Fails (item :: rest) ↔
      Fails item ∨ Passes item ∧ FirstFails Passes Fails rest := by
  constructor
  · rintro ⟨_ | ⟨_, before⟩, failing, after, hsplit, hbefore, hfailing⟩
    · cases hsplit
      exact .inl hfailing
    · cases hsplit
      obtain ⟨hfirst, hbefore⟩ := List.forall_mem_cons.1 hbefore
      exact .inr ⟨hfirst, before, failing, after, rfl, hbefore, hfailing⟩
  · rintro (hfailing | ⟨hfirst, before, failing, after, rfl, hbefore, hfailing⟩)
    · exact ⟨[], item, rest, rfl, List.forall_mem_nil _, hfailing⟩
    · exact ⟨item :: before, failing, after, rfl, List.forall_mem_cons.2 ⟨hfirst, hbefore⟩,
        hfailing⟩

end ActionTools
