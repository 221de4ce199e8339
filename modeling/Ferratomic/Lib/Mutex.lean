import Mathlib

/-!
# Locks

A family of parties, each in a state of its own, and the owner of a lock. `Owned` says that the
parties in states of a kind, those inside the section that the lock guards, are the owner and no
other. It holds again after a step by which a party takes the lock, gives it back or does neither.
-/

namespace Ferratomic.Lib

variable {ι σ : Type}

/-- The parties in states of a kind are the owner of the lock. -/
def Owned (kind : σ → Prop) (states : ι → σ) (owner : Option ι) : Prop :=
  ∀ i, kind (states i) ↔ owner = some i

namespace Owned

variable {kind : σ → Prop} {states : ι → σ} {owner : Option ι}

/-- A lock that nobody owns, with nobody inside. -/
theorem free (h : ∀ i, ¬kind (states i)) : Owned kind states none :=
  fun i => ⟨fun hkind => absurd hkind (h i), fun howner => by cases howner⟩

/-- There is one party inside at most. -/
theorem unique (h : Owned kind states owner) {i j : ι} (hi : kind (states i))
    (hj : kind (states j)) : i = j :=
  Option.some.inj (((h i).mp hi).symm.trans ((h j).mp hj))

variable [DecidableEq ι] {i : ι} {state : σ}

/-- A step that stays inside or outside. -/
theorem stay (h : Owned kind states owner) (hkind : kind state ↔ kind (states i)) :
    Owned kind (Function.update states i state) owner := by
  intro j
  by_cases hj : j = i
  · subst hj
    rw [Function.update_self, hkind]
    exact h j
  · rw [Function.update_of_ne hj]
    exact h j

/-- A step that takes a free lock. -/
theorem take (h : Owned kind states none) (hkind : kind state) :
    Owned kind (Function.update states i state) (some i) := by
  intro j
  by_cases hj : j = i
  · subst hj
    rw [Function.update_self]
    exact ⟨fun _ => rfl, fun _ => hkind⟩
  · rw [Function.update_of_ne hj]
    refine ⟨fun hinside => ?_, fun heq => absurd (Option.some.inj heq).symm hj⟩
    cases (h j).mp hinside

/-- A step by which the owner gives the lock back. -/
theorem give (h : Owned kind states owner) (hinside : kind (states i)) (hkind : ¬kind state) :
    Owned kind (Function.update states i state) none := by
  intro j
  by_cases hj : j = i
  · subst hj
    rw [Function.update_self]
    exact ⟨fun hstate => absurd hstate hkind, fun heq => by cases heq⟩
  · rw [Function.update_of_ne hj]
    exact ⟨fun hother => absurd (h.unique hother hinside) hj, fun heq => by cases heq⟩

end Owned

end Ferratomic.Lib
