import Mathlib

/-!
# Counting parties

A family of parties, each in a state of its own, and how many of them are in states of some kind. A
counter that is incremented when a party comes to such a state and decremented when it leaves it
counts the parties (`Census.enter`, `Census.leave`, `Census.stay`).
-/

namespace Ferratomic.Lib

variable {ι σ : Type}

/-- The parties in states of a kind. -/
def parties (kind : σ → Prop) (states : ι → σ) : Set ι :=
  {i | kind (states i)}

/-- The parties of a kind are those whose state is of it. -/
theorem mem_parties {kind : σ → Prop} {states : ι → σ} {i : ι} :
    i ∈ parties kind states ↔ kind (states i) :=
  Set.mem_ofPred_eq ▸ Iff.rfl

/-- As many parties as given are in states of a kind. -/
def Census (kind : σ → Prop) (states : ι → σ) (count : ℕ) : Prop :=
  (parties kind states).encard = count

namespace Census

variable {kind other : σ → Prop} {states : ι → σ} {count more : ℕ}

/-- Where no state is of the kind the count is zero. -/
theorem none (h : ∀ i, ¬kind (states i)) : Census kind states 0 := by
  have hempty : parties kind states = ∅ :=
    Set.eq_empty_iff_forall_notMem.mpr fun i hi => h i (mem_parties.mp hi)
  unfold Census
  rw [hempty, Set.encard_empty]
  rfl

/-- There is one count. -/
theorem unique (h : Census kind states count) (hmore : Census kind states more) :
    count = more := by
  unfold Census at h hmore
  rw [h] at hmore
  exact_mod_cast hmore

/-- The count is zero exactly when no state is of the kind. -/
theorem eq_zero_iff (h : Census kind states count) : count = 0 ↔ ∀ i, ¬kind (states i) := by
  constructor
  · intro hzero i hi
    unfold Census at h
    rw [hzero, Nat.cast_zero, Set.encard_eq_zero] at h
    exact Set.eq_empty_iff_forall_notMem.mp h i (mem_parties.mpr hi)
  · intro hnone
    exact h.unique (.none hnone)

/-- A state of the kind makes the count positive. -/
theorem pos {i : ι} (h : Census kind states count) (hi : kind (states i)) : 0 < count :=
  Nat.pos_of_ne_zero fun hzero => h.eq_zero_iff.mp hzero i hi

/-- Kinds that exclude each other. -/
theorem add (h : Census kind states count) (hmore : Census other states more)
    (hdisjoint : ∀ i, kind (states i) → ¬other (states i)) :
    Census (fun state => kind state ∨ other state) states (count + more) := by
  have hunion : parties (fun state => kind state ∨ other state) states =
      parties kind states ∪ parties other states := by
    ext i
    rw [Set.mem_union, mem_parties, mem_parties, mem_parties]
  have hempty : Disjoint (parties kind states) (parties other states) :=
    Set.disjoint_left.mpr fun i hi hother =>
      hdisjoint i (mem_parties.mp hi) (mem_parties.mp hother)
  unfold Census at h hmore ⊢
  rw [hunion, Set.encard_union_eq hempty, h, hmore, Nat.cast_add]

/-- There are no more parties in states of a kind than parties. -/
theorem le_card [Fintype ι] (h : Census kind states count) : count ≤ Fintype.card ι := by
  have hle := Set.encard_le_encard (Set.subset_univ (parties kind states))
  unfold Census at h
  rw [h, Set.encard_univ, ENat.card_eq_coe_fintype_card] at hle
  exact_mod_cast hle

section Update

variable [DecidableEq ι] {i : ι} {state : σ}

/-- After an update of one party only that party may change sides. -/
theorem mem_parties_update {party : ι} : party ∈ parties kind (Function.update states i state) ↔
    (party = i ∧ kind state) ∨ (party ≠ i ∧ party ∈ parties kind states) := by
  rw [mem_parties, mem_parties]
  by_cases hparty : party = i
  · subst hparty
    simp
  · simp [hparty]

/-- A party comes to a state of the kind. -/
theorem enter (h : Census kind states count) (hbefore : ¬kind (states i)) (hafter : kind state) :
    Census kind (Function.update states i state) (count + 1) := by
  have hnotMem : i ∉ parties kind states := fun hi => hbefore (mem_parties.mp hi)
  have hinsert : parties kind (Function.update states i state) =
      insert i (parties kind states) := by
    ext party
    rw [mem_parties_update, Set.mem_insert_iff]
    by_cases hparty : party = i
    · simp [hparty, hafter]
    · simp [hparty]
  unfold Census at h ⊢
  rw [hinsert, Set.encard_insert_of_notMem hnotMem, h]
  rfl

/-- A party leaves the states of the kind. -/
theorem leave (h : Census kind states (count + 1)) (hbefore : kind (states i))
    (hafter : ¬kind state) : Census kind (Function.update states i state) count := by
  have hsdiff : parties kind (Function.update states i state) =
      parties kind states \ {i} := by
    ext party
    rw [mem_parties_update, Set.mem_sdiff, Set.mem_singleton_iff]
    by_cases hparty : party = i
    · simp [hparty, hafter]
    · simp [hparty]
  have hcard := Set.encard_sdiff_singleton_add_one (mem_parties.mpr hbefore)
  unfold Census at h ⊢
  rw [hsdiff]
  rw [h, Nat.cast_add, Nat.cast_one] at hcard
  exact WithTop.add_right_cancel ENat.one_ne_top hcard

/-- A party goes from one state to another of which both are of the kind, or neither. -/
theorem stay (h : Census kind states count) (hiff : kind state ↔ kind (states i)) :
    Census kind (Function.update states i state) count := by
  have hsame : parties kind (Function.update states i state) = parties kind states := by
    ext party
    rw [mem_parties_update]
    by_cases hparty : party = i
    · simp [hparty, hiff, mem_parties]
    · simp [hparty]
  unfold Census at h ⊢
  rw [hsame, h]

end Update

end Census

end Ferratomic.Lib
