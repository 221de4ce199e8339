import Mathlib.Algebra.Group.Basic
import Mathlib.Data.List.Forall2

/-!
# Related lists

Lists that are related item by item: composition, splitting along a concatenation and the partner
of an item. `Summed` relates a list to a sum of what its items are related to.
-/

namespace Ferratomic.Lib

variable {α β γ : Type}

/-- A list related to a concatenation is a concatenation of related lists. -/
theorem forall₂_flatten {R : α → β → Prop} {items : List α} {groups : List (List β)}
    (h : List.Forall₂ R items groups.flatten) :
    ∃ parts : List (List α), parts.flatten = items ∧
      List.Forall₂ (List.Forall₂ R) parts groups := by
  induction groups generalizing items with
  | nil =>
      cases h
      exact ⟨[], rfl, .nil⟩
  | cons group rest ih =>
      rw [List.flatten_cons] at h
      obtain ⟨parts, hparts, hrest⟩ := ih (List.forall₂_drop_append _ _ _ h)
      refine ⟨items.take group.length :: parts, ?_, .cons (List.forall₂_take_append _ _ _ h) hrest⟩
      rw [List.flatten_cons, hparts, List.take_append_drop]

/-- A list related to a concatenation around an item splits at a related item. -/
theorem forall₂_split {R : α → β → Prop} {items : List α} {front back : List β} {b : β}
    (h : List.Forall₂ R items (front ++ b :: back)) :
    ∃ left right a, items = left ++ a :: right ∧
      List.Forall₂ R left front ∧ R a b ∧ List.Forall₂ R right back := by
  have hdrop := List.forall₂_drop_append _ _ _ h
  obtain ⟨a, right, hab, hright, heq⟩ := List.forall₂_cons_right_iff.mp hdrop
  refine ⟨items.take front.length, right, a, ?_, List.forall₂_take_append _ _ _ h, hab, hright⟩
  rw [← heq, List.take_append_drop]

/-- Reading items one by one gives the list that they are related to. -/
theorem filterMap_eq_of_forall₂ {f : β → Option α} {as : List α} {bs : List β}
    (h : List.Forall₂ (fun a b => f b = some a) as bs) : bs.filterMap f = as := by
  induction h with
  | nil => rfl
  | cons hab hrest ih => rw [List.filterMap_cons_some hab, ih]

/-- Related lists compose. -/
theorem forall₂_trans {R : α → β → Prop} {S : β → γ → Prop} {T : α → γ → Prop}
    (h : ∀ a b c, R a b → S b c → T a c) {as : List α} {bs : List β} {cs : List γ}
    (hleft : List.Forall₂ R as bs) (hright : List.Forall₂ S bs cs) : List.Forall₂ T as cs := by
  induction hleft generalizing cs with
  | nil =>
      cases hright
      exact .nil
  | cons hab hrest ih =>
      cases hright with
      | cons hbc hright => exact .cons (h _ _ _ hab hbc) (ih hright)

/-- Every item on the right is related to one on the left. -/
theorem exists_of_forall₂ {R : α → β → Prop} {as : List α} {bs : List β}
    (h : List.Forall₂ R as bs) {b : β} (hb : b ∈ bs) : ∃ a ∈ as, R a b := by
  induction h with
  | nil => exact absurd hb List.not_mem_nil
  | cons hab hrest ih =>
      rcases List.mem_cons.mp hb with rfl | hb
      · exact ⟨_, List.mem_cons_self, hab⟩
      · obtain ⟨a, ha, hR⟩ := ih hb
        exact ⟨a, List.mem_cons_of_mem _ ha, hR⟩

variable {M : Type} [AddCommMonoid M]

/-- The items of a list are related to summands of a total. -/
inductive Summed (R : α → M → Prop) : List α → M → Prop where
  | nil : Summed R [] 0
  | cons {a : α} {as : List α} {x y : M} : R a x → Summed R as y → Summed R (a :: as) (x + y)

namespace Summed

variable {R : α → M → Prop}

/-- Pushing the items one after the other adds their summands. -/
theorem push {as bs : List α} {x y : M} (has : Summed R as x) (hbs : Summed R bs y) :
    Summed R (as.foldl (fun bs a => a :: bs) bs) (x + y) := by
  induction has generalizing bs y with
  | nil =>
      rw [zero_add]
      exact hbs
  | @cons a as x x' ha has ih =>
      rw [add_comm x, add_assoc]
      exact ih (.cons ha hbs)

/-- The sum does not depend on the order of the items. -/
theorem reverse {as : List α} {x : M} (h : Summed R as x) : Summed R as.reverse x := by
  have hpush := h.push .nil
  rwa [add_zero, List.foldl_flip_cons_eq_append', List.append_nil] at hpush

end Summed

end Ferratomic.Lib
