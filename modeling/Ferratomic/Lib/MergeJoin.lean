import Mathlib.Algebra.Group.Prod
import Mathlib.Algebra.Order.Group.Multiset

/-!
# Joining two lists by key

`mergeJoin` walks along two lists of keyed items and says for each key whether it is on the left,
on the right or on both sides. The main theorems are its induction rule `mergeJoin_induction` and
`pairwise_mergeJoin`: on lists with ascending keys it reports no key twice. `Cancels` compares two
pairs of collections: the first pair has more than the second, and the same on both sides.
-/

namespace Ferratomic.Lib

section Join

variable {κ ν γ : Type} [LinearOrder κ]

/-- The walk along two lists in the order of their keys. -/
def mergeJoin (left right : κ × ν → γ) (both : κ → ν → ν → Option γ) :
    List (κ × ν) → List (κ × ν) → List γ
  | [], [] => []
  | a :: as, [] => left a :: mergeJoin left right both as []
  | [], b :: bs => right b :: mergeJoin left right both [] bs
  | a :: as, b :: bs =>
      if a.1 < b.1 then left a :: mergeJoin left right both as (b :: bs)
      else if b.1 < a.1 then right b :: mergeJoin left right both (a :: as) bs
      else (both a.1 a.2 b.2).toList ++ mergeJoin left right both as bs
termination_by as bs => as.length + bs.length

variable {left right : κ × ν → γ} {both : κ → ν → ν → Option γ}

/-- What holds of a join whatever the order of the items: an item is taken from one side, or two
items with one key are taken together. -/
theorem mergeJoin_induction {P : List (κ × ν) → List (κ × ν) → List γ → Prop} (hnil : P [] [] [])
    (hleft : ∀ a as bs out, P as bs out → P (a :: as) bs (left a :: out))
    (hright : ∀ b as bs out, P as bs out → P as (b :: bs) (right b :: out))
    (hboth : ∀ key u v as bs out, P as bs out →
      P ((key, u) :: as) ((key, v) :: bs) ((both key u v).toList ++ out))
    (as bs : List (κ × ν)) : P as bs (mergeJoin left right both as bs) := by
  fun_induction mergeJoin left right both as bs with
  | case1 => exact hnil
  | case2 a as ih => exact hleft a as [] _ ih
  | case3 b bs ih => exact hright b [] bs _ ih
  | case4 a as b bs hlt ih => exact hleft a as (b :: bs) _ ih
  | case5 a as b bs hnot hlt ih => exact hright b (a :: as) bs _ ih
  | case6 a as b bs hnot hnot' ih =>
      obtain ⟨key, u⟩ := a
      obtain ⟨key', v⟩ := b
      obtain rfl : key = key' := le_antisymm (not_lt.mp hnot') (not_lt.mp hnot)
      exact hboth key u v as bs _ ih

variable {key : γ → κ} (hleft : ∀ a, key (left a) = a.1) (hright : ∀ b, key (right b) = b.1)
  (hboth : ∀ k u v c, both k u v = some c → key c = k)

include hleft hright hboth

/-- The keys of a join are keys of the lists. -/
theorem key_mem_mergeJoin {as bs : List (κ × ν)} {c : γ}
    (h : c ∈ mergeJoin left right both as bs) :
    key c ∈ as.map Prod.fst ∨ key c ∈ bs.map Prod.fst := by
  revert h
  refine mergeJoin_induction (P := fun as bs out => c ∈ out →
    key c ∈ as.map Prod.fst ∨ key c ∈ bs.map Prod.fst) ?_ ?_ ?_ ?_ as bs
  · intro h
    exact absurd h List.not_mem_nil
  · intro a as bs out ih h
    rcases List.mem_cons.mp h with rfl | h
    · exact .inl (List.mem_cons.mpr (.inl (hleft a)))
    · exact (ih h).imp_left (List.mem_cons_of_mem _)
  · intro b as bs out ih h
    rcases List.mem_cons.mp h with rfl | h
    · exact .inr (List.mem_cons.mpr (.inl (hright b)))
    · exact (ih h).imp_right (List.mem_cons_of_mem _)
  · intro k u v as bs out ih h
    rcases List.mem_append.mp h with h | h
    · exact .inl (List.mem_cons.mpr (.inl (hboth k u v c (Option.mem_toList.mp h))))
    · exact (ih h).imp (List.mem_cons_of_mem _) (List.mem_cons_of_mem _)

/-- A join of lists below which a key stands has its keys above it. -/
theorem lt_key_mergeJoin {as bs : List (κ × ν)} {k : κ} (has : ∀ a ∈ as, k < a.1)
    (hbs : ∀ b ∈ bs, k < b.1) {c : γ} (h : c ∈ mergeJoin left right both as bs) : k < key c := by
  rcases key_mem_mergeJoin hleft hright hboth h with h | h
  · obtain ⟨a, ha, heq⟩ := List.mem_map.mp h
    rw [← heq]
    exact has a ha
  · obtain ⟨b, hb, heq⟩ := List.mem_map.mp h
    rw [← heq]
    exact hbs b hb

/-- The keys of a join of lists with ascending keys ascend. -/
theorem pairwise_mergeJoin {as bs : List (κ × ν)} (has : as.Pairwise fun a b => a.1 < b.1)
    (hbs : bs.Pairwise fun a b => a.1 < b.1) :
    (mergeJoin left right both as bs).Pairwise fun a b => key a < key b := by
  have hlt : ∀ {k : κ} {as bs : List (κ × ν)}, (∀ a ∈ as, k < a.1) → (∀ b ∈ bs, k < b.1) →
      ∀ c ∈ mergeJoin left right both as bs, k < key c := fun has hbs _ h =>
    lt_key_mergeJoin hleft hright hboth has hbs h
  fun_induction mergeJoin left right both as bs with
  | case1 => exact .nil
  | case2 a as ih =>
      obtain ⟨hfirst, has⟩ := List.pairwise_cons.mp has
      refine List.pairwise_cons.mpr ⟨?_, ih has hbs⟩
      rw [hleft]
      exact hlt hfirst (by simp)
  | case3 b bs ih =>
      obtain ⟨hfirst, hbs⟩ := List.pairwise_cons.mp hbs
      refine List.pairwise_cons.mpr ⟨?_, ih has hbs⟩
      rw [hright]
      exact hlt (by simp) hfirst
  | case4 a as b bs hab ih =>
      obtain ⟨hfirst, has⟩ := List.pairwise_cons.mp has
      refine List.pairwise_cons.mpr ⟨?_, ih has hbs⟩
      rw [hleft]
      exact hlt hfirst (List.forall_mem_cons.mpr
        ⟨hab, fun b' hb' => hab.trans ((List.pairwise_cons.mp hbs).1 b' hb')⟩)
  | case5 a as b bs hnot hba ih =>
      obtain ⟨hfirst, hbs⟩ := List.pairwise_cons.mp hbs
      refine List.pairwise_cons.mpr ⟨?_, ih has hbs⟩
      rw [hright]
      exact hlt (List.forall_mem_cons.mpr
        ⟨hba, fun a' ha' => hba.trans ((List.pairwise_cons.mp has).1 a' ha')⟩) hfirst
  | case6 a as b bs hnot hnot' ih =>
      obtain ⟨hfirst, has⟩ := List.pairwise_cons.mp has
      obtain ⟨hfirst', hbs⟩ := List.pairwise_cons.mp hbs
      have heq : a.1 = b.1 := le_antisymm (not_lt.mp hnot') (not_lt.mp hnot)
      rw [← heq] at hfirst'
      cases hc : both a.1 a.2 b.2 with
      | none => exact ih has hbs
      | some c =>
          refine List.pairwise_cons.mpr ⟨?_, ih has hbs⟩
          rw [hboth _ _ _ c hc]
          exact hlt hfirst hfirst'

end Join

section Cancel

variable {α : Type}

/-- The first pair of collections has the same more than the second on both sides. -/
def Cancels (p q : Multiset α × Multiset α) : Prop :=
  ∃ common, p = q + (common, common)

namespace Cancels

variable {p q r p' q' : Multiset α × Multiset α}

/-- Nothing cancels between a pair and itself. -/
theorem refl (p : Multiset α × Multiset α) : Cancels p p :=
  ⟨0, (add_zero p).symm⟩

/-- What cancels in turn cancels together. -/
theorem trans (h : Cancels p q) (h' : Cancels q r) : Cancels p r := by
  obtain ⟨common, rfl⟩ := h
  obtain ⟨more, rfl⟩ := h'
  exact ⟨more + common, add_assoc r (more, more) (common, common)⟩

/-- Cancellations add up. -/
theorem add (h : Cancels p q) (h' : Cancels p' q') : Cancels (p + p') (q + q') := by
  obtain ⟨common, rfl⟩ := h
  obtain ⟨more, rfl⟩ := h'
  exact ⟨common + more, add_add_add_comm q (common, common) q' (more, more)⟩

/-- Equal collections cancel. -/
theorem diagonal (s : Multiset α) : Cancels (s, s) 0 :=
  ⟨s, (zero_add _).symm⟩

end Cancels

end Cancel

end Ferratomic.Lib
