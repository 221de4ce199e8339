import Ferratomic.Keys
import Ferratomic.Sketch

/-!
# Estimates of the difference

The difference of two sets is estimated from the hashes that their sketches share. All machine
arithmetic is explicit: `estimatedDiffSize_eq` says that every step is in range for capacities below
2 ^ 31, so that the estimate is the exact quotient. The main theorem is `estimated_diff_size_spec`:
the estimate is symmetric, bounded, zero on equal sets, and exact on sets that the sketches hold
whole.
-/

namespace Ferratomic

open Lib

/-- The largest `usize`. -/
def usizeMax : Nat := 2 ^ 64 - 1

/-- `SetCounts` -/
structure SetCounts where
  intersection : Nat
  union : Nat
  deriving DecidableEq

namespace StoreSketch

section Model

/-- Walk two arrays in lockstep with a pass for each comparison, to the end of one of them. -/
def walkCounts {σ : Type} (pass : Ordering → σ → Except Fault σ)
    (finish : Nat → σ → Except Fault σ) : List Hash → List Hash → σ → Except Fault σ
  | x :: a, y :: b, counts => do
      let counts ← pass (ordCmp x y) counts
      match ordCmp x y with
      | .eq => walkCounts pass finish a b counts
      | .lt => walkCounts pass finish a (y :: b) counts
      | .gt => walkCounts pass finish (x :: a) b counts
  | a, b, counts => finish (a.length + b.length) counts
termination_by a b => a.length + b.length

variable (profile : Profile)

/-- A pass of the loop of `sorted_set_counts`. -/
def countPass (order : Ordering) (counts : SetCounts) : Except Fault SetCounts := do
  let union ← profile.add 32 counts.union 1
  if order = .eq then
    let intersection ← profile.add 32 counts.intersection 1
    pure ⟨intersection, union⟩
  else pure ⟨counts.intersection, union⟩

/-- What remains of one array after the loop. -/
def countRemaining (remaining : Nat) (counts : SetCounts) : Except Fault SetCounts := do
  let union ← profile.add 32 counts.union (saturate remaining)
  pure ⟨counts.intersection, union⟩

/-- `sorted_set_counts` -/
def sortedSetCounts (a b : List Hash) : Except Fault SetCounts :=
  walkCounts (countPass profile) (countRemaining profile) a b ⟨0, 0⟩

/-- The rounded quotient of `estimated_diff_size`, in `u128`. -/
def estimateQuotient (countA countB : Nat) (counts : SetCounts) : Except Fault Nat := do
  let total ← profile.add 128 countA countB
  let diffNumerator ← profile.sub 32 counts.union counts.intersection
  let denominator ← profile.add 128 counts.union counts.intersection
  if denominator = 0 then pure 0
  else do
    let product ← profile.mul 128 total diffNumerator
    let half ← divide denominator 2
    let numerator ← profile.add 128 product half
    let result ← divide numerator denominator
    pure (min result usizeMax)

/-- `estimated_diff_size` -/
def estimatedDiffSize (a b : StoreSketch) : Except Fault (Except FerraError Nat) :=
  if a.capacity ≠ b.capacity then
    .ok (.error (.invariantViolation "bd-wows"
      s!"sketch capacity mismatch: {a.capacity} vs {b.capacity}"))
  else if a.minHashes = [] ∧ b.minHashes = [] then .ok (.ok 0)
  else if a.minHashes = [] then .ok (.ok b.count)
  else if b.minHashes = [] then .ok (.ok a.count)
  else do
    let counts ← sortedSetCounts profile a.minHashes b.minHashes
    if counts.intersection = counts.union then pure (.ok 0)
    else if counts.union = 0 then pure (.ok 0)
    else do
      let result ← estimateQuotient profile a.count b.count counts
      pure (.ok result)

end Model

variable {profile : Profile}

section Counts

/-- A merge is at most as long as both lists and at least half as long. -/
theorem length_mergeSortDedup (a b : List Hash) :
    (mergeSortDedup a b).length ≤ a.length + b.length ∧
      a.length + b.length ≤ 2 * (mergeSortDedup a b).length := by
  fun_induction mergeSortDedup a b with
  | case1 b =>
      rw [List.length_nil]
      omega
  | case2 a hne =>
      rw [List.length_nil]
      omega
  | case3 x a y b h ih =>
      simp only [List.length_cons] at ih ⊢
      omega
  | case4 x a y b h ih =>
      simp only [List.length_cons] at ih ⊢
      omega
  | case5 x a y b h ih =>
      simp only [List.length_cons] at ih ⊢
      omega

/-- Within the range one pass counts without a fault. -/
theorem countPass_eq {order : Ordering} {counts : SetCounts} (hrange : counts.union + 1 < 2 ^ 32)
    (hle : counts.intersection ≤ counts.union) :
    countPass profile order counts =
      .ok ⟨if order = .eq then counts.intersection + 1 else counts.intersection,
        counts.union + 1⟩ := by
  have hshared : counts.intersection + 1 < 2 ^ 32 := by omega
  rw [countPass, Profile.add_eq hrange, ok_bind]
  split
  case isTrue => rw [Profile.add_eq hshared, ok_bind]; rfl
  case isFalse => rfl

/-- Within the range the rest is counted without a fault. -/
theorem countRemaining_eq {remaining : Nat} {counts : SetCounts}
    (hrange : counts.union + remaining < 2 ^ 32) :
    countRemaining profile remaining counts =
      .ok ⟨counts.intersection, counts.union + remaining⟩ := by
  have hsaturate : saturate remaining = remaining := by
    refine Nat.min_eq_left ?_
    rw [u32Max]
    omega
  rw [countRemaining, hsaturate, Profile.add_eq hrange, ok_bind]
  rfl

/-- A pass over a pair of different or equal hashes counts them. -/
theorem walkCounts_cons {x y : Hash} {a b : List Hash} {counts : SetCounts}
    (hrange : counts.union + 1 < 2 ^ 32) (hle : counts.intersection ≤ counts.union) :
    walkCounts (countPass profile) (countRemaining profile) (x :: a) (y :: b) counts =
      match ordCmp x y with
      | .eq => walkCounts (countPass profile) (countRemaining profile) a b
          ⟨counts.intersection + 1, counts.union + 1⟩
      | .lt => walkCounts (countPass profile) (countRemaining profile) a (y :: b)
          ⟨counts.intersection, counts.union + 1⟩
      | .gt => walkCounts (countPass profile) (countRemaining profile) (x :: a) b
          ⟨counts.intersection, counts.union + 1⟩ := by
  rw [walkCounts, countPass_eq hrange hle, ok_bind]
  cases ordCmp x y with
  | eq => rfl
  | lt => rfl
  | gt => rfl

/-- The walk adds the counts of what is left, all in range. -/
theorem walkCounts_eq {a b : List Hash} {counts : SetCounts}
    (hrange : counts.union + (a.length + b.length) < 2 ^ 32)
    (hle : counts.intersection ≤ counts.union) :
    ∃ after, walkCounts (countPass profile) (countRemaining profile) a b counts = .ok after ∧
      after.union = counts.union + (mergeSortDedup a b).length ∧
      after.intersection + after.union =
        counts.intersection + counts.union + (a.length + b.length) := by
  -- along the merge without duplicates; the counters stay below the bound of `hrange`
  fun_induction mergeSortDedup a b generalizing counts with
  | case1 b =>
      rw [walkCounts, countRemaining_eq hrange]
      · refine ⟨_, rfl, ?_, ?_⟩
        · rw [List.length_nil, Nat.zero_add]
        · exact (Nat.add_assoc _ _ _).symm
      · intro x xs y ys hx
        cases hx
  | case2 a hne =>
      rw [walkCounts, countRemaining_eq hrange]
      · refine ⟨_, rfl, ?_, ?_⟩
        · rw [List.length_nil, Nat.add_zero]
        · exact (Nat.add_assoc _ _ _).symm
      · intro x xs y ys _ hy
        cases hy
  | case3 x a y b h ih =>
      have horder : ordCmp x y = .lt := h
      simp only [List.length_cons] at hrange ih ⊢
      rw [walkCounts_cons (by omega) hle, horder]
      obtain ⟨after, hwalk, hunion, htotal⟩ :=
        @ih ⟨counts.intersection, counts.union + 1⟩ (by simp only; omega) (by simp only; omega)
      simp only at hunion htotal
      exact ⟨after, hwalk, by omega, by omega⟩
  | case4 x a y b h ih =>
      have horder : ordCmp x y = .gt := h
      simp only [List.length_cons] at hrange ih ⊢
      rw [walkCounts_cons (by omega) hle, horder]
      obtain ⟨after, hwalk, hunion, htotal⟩ :=
        @ih ⟨counts.intersection, counts.union + 1⟩ (by simp only; omega) (by simp only; omega)
      simp only at hunion htotal
      exact ⟨after, hwalk, by omega, by omega⟩
  | case5 x a y b h ih =>
      have horder : ordCmp x y = .eq := h
      simp only [List.length_cons] at hrange ih ⊢
      rw [walkCounts_cons (by omega) hle, horder]
      obtain ⟨after, hwalk, hunion, htotal⟩ :=
        @ih ⟨counts.intersection + 1, counts.union + 1⟩ (by simp only; omega) (by simp only; omega)
      simp only at hunion htotal
      exact ⟨after, hwalk, by omega, by omega⟩

end Counts

section Exact

/-- How many different hashes two sketches have. -/
def unionCount (a b : StoreSketch) : Nat :=
  (mergeSortDedup a.minHashes b.minHashes).length

/-- How many hashes two sketches share. -/
def sharedCount (a b : StoreSketch) : Nat :=
  a.minHashes.length + b.minHashes.length - unionCount a b

/-- The rounded quotient in exact arithmetic. -/
def quotient (total union shared : Nat) : Nat :=
  (total * (union - shared) + (union + shared) / 2) / (union + shared)

/-- The estimate in exact arithmetic. -/
def estimate (a b : StoreSketch) : Nat :=
  if a.minHashes = [] ∧ b.minHashes = [] then 0
  else if a.minHashes = [] then b.count
  else if b.minHashes = [] then a.count
  else if sharedCount a b = unionCount a b then 0
  else min (quotient (a.count + b.count) (unionCount a b) (sharedCount a b)) usizeMax

variable {a b : StoreSketch}

/-- Union and intersection count what both sketches count. -/
theorem unionCount_add_sharedCount (a b : StoreSketch) :
    unionCount a b + sharedCount a b = a.minHashes.length + b.minHashes.length := by
  have hle := (length_mergeSortDedup a.minHashes b.minHashes).1
  unfold sharedCount unionCount
  omega

/-- The intersection counts no more than the union. -/
theorem sharedCount_le_unionCount (a b : StoreSketch) : sharedCount a b ≤ unionCount a b := by
  have hle := (length_mergeSortDedup a.minHashes b.minHashes).2
  unfold sharedCount unionCount
  omega

/-- The walk counts the different hashes and the shared ones. -/
theorem sortedSetCounts_eq (hcapacity : a.capacity = b.capacity) (hsmall : a.capacity < 2 ^ 31) :
    sortedSetCounts profile a.minHashes b.minHashes =
      .ok ⟨sharedCount a b, unionCount a b⟩ := by
  have hrange : a.minHashes.length + b.minHashes.length < 2 ^ 32 := by
    have ha := a.bounded
    have hb := b.bounded
    omega
  obtain ⟨⟨shared, union⟩, hwalk, hunion, htotal⟩ :=
    @walkCounts_eq profile a.minHashes b.minHashes ⟨0, 0⟩ (by simp only; omega) (Nat.le_refl 0)
  simp only [Nat.zero_add] at hunion htotal
  have hshared : shared = sharedCount a b := by
    unfold sharedCount unionCount
    omega
  rw [sortedSetCounts, hwalk, hshared, hunion]
  rfl

/-- Every step of the quotient is in range. -/
theorem estimateQuotient_eq {countA countB : Nat} {counts : SetCounts} (ha : countA < 2 ^ 64)
    (hb : countB < 2 ^ 64) (hle : counts.intersection ≤ counts.union)
    (hrange : counts.union < 2 ^ 32) (hpos : 0 < counts.union) :
    estimateQuotient profile countA countB counts =
      .ok (min (quotient (countA + countB) counts.union counts.intersection) usizeMax) := by
  have htotal : countA + countB < 2 ^ 128 := by omega
  have hdenominator : counts.union + counts.intersection < 2 ^ 128 := by omega
  have hproduct : (countA + countB) * (counts.union - counts.intersection) < 2 ^ 65 * 2 ^ 32 :=
    Nat.mul_lt_mul'' (by omega) (by omega)
  have hproduct' : (countA + countB) * (counts.union - counts.intersection) < 2 ^ 128 :=
    hproduct.trans (by decide)
  have hnumerator : (countA + countB) * (counts.union - counts.intersection) +
      (counts.union + counts.intersection) / 2 < 2 ^ 128 := by omega
  rw [estimateQuotient, Profile.add_eq htotal, ok_bind, Profile.sub_eq hle hrange, ok_bind,
    Profile.add_eq hdenominator, ok_bind, if_neg (by omega), Profile.mul_eq hproduct', ok_bind,
    divide_eq Nat.two_pos, ok_bind, Profile.add_eq hnumerator, ok_bind, divide_eq (by omega),
    ok_bind]
  rfl

/-- Every step of the estimate is in range for capacities below 2 ^ 31. -/
theorem estimatedDiffSize_eq (hcapacity : a.capacity = b.capacity) (hsmall : a.capacity < 2 ^ 31)
    (ha : a.count < 2 ^ 64) (hb : b.count < 2 ^ 64) :
    estimatedDiffSize profile a b = .ok (.ok (estimate a b)) := by
  have hle := sharedCount_le_unionCount a b
  have hsum := unionCount_add_sharedCount a b
  have hrange : unionCount a b < 2 ^ 32 := by
    have ha' := a.bounded
    have hb' := b.bounded
    omega
  rw [estimatedDiffSize, estimate, if_neg (not_not.mpr hcapacity)]
  by_cases hboth : a.minHashes = [] ∧ b.minHashes = []
  · rw [if_pos hboth, if_pos hboth]
  by_cases hleft : a.minHashes = []
  · rw [if_neg hboth, if_pos hleft, if_neg hboth, if_pos hleft]
  by_cases hright : b.minHashes = []
  · rw [if_neg hboth, if_neg hleft, if_pos hright, if_neg hboth, if_neg hleft, if_pos hright]
  rw [if_neg hboth, if_neg hleft, if_neg hright, if_neg hboth, if_neg hleft, if_neg hright,
    sortedSetCounts_eq hcapacity hsmall, ok_bind]
  have hpos : 0 < unionCount a b := by
    have hlength := List.length_pos_iff.mpr hleft
    omega
  by_cases hsame : sharedCount a b = unionCount a b
  · rw [if_pos hsame, if_pos hsame]
    rfl
  · rw [if_neg hsame, if_neg (Nat.ne_of_gt hpos), if_neg hsame,
      estimateQuotient_eq ha hb hle hrange hpos, ok_bind]
    rfl

/-- The estimate does not depend on the order of the sketches. -/
theorem estimate_comm (a b : StoreSketch) : estimate a b = estimate b a := by
  have hunion : unionCount a b = unionCount b a := by
    rw [unionCount, mergeSortDedup_comm, unionCount]
  have hshared : sharedCount a b = sharedCount b a := by
    rw [sharedCount, hunion, Nat.add_comm, sharedCount]
  unfold estimate
  rw [hunion, hshared, Nat.add_comm a.count]
  by_cases hleft : a.minHashes = []
  · by_cases hright : b.minHashes = []
    · simp only [hleft, hright, and_self, if_true]
    · simp only [hleft, hright, and_false, false_and, if_false, if_true]
  · by_cases hright : b.minHashes = []
    · simp only [hleft, hright, and_false, false_and, if_false, if_true]
    · simp only [hleft, hright, and_self, if_false]

/-- The quotient is at most the total. -/
theorem quotient_le (total union shared : Nat) : quotient total union shared ≤ total := by
  rcases Nat.eq_zero_or_pos (union + shared) with hzero | hpos
  · rw [quotient, hzero, Nat.div_zero]
    exact Nat.zero_le total
  · have hproduct : total * (union - shared) ≤ total * (union + shared) :=
      Nat.mul_le_mul_left total (by omega)
    refine Nat.le_of_lt_succ ((Nat.div_lt_iff_lt_mul hpos).mpr ?_)
    rw [Nat.succ_mul]
    omega

/-- The estimate is at most the number of all datoms. -/
theorem estimate_le (a b : StoreSketch) : estimate a b ≤ a.count + b.count := by
  have hquotient := quotient_le (a.count + b.count) (unionCount a b) (sharedCount a b)
  unfold estimate
  split
  case isTrue => exact Nat.zero_le _
  case isFalse =>
    split
    case isTrue => exact Nat.le_add_left _ _
    case isFalse =>
      split
      case isTrue => exact Nat.le_add_right _ _
      case isFalse =>
        split
        case isTrue => exact Nat.zero_le _
        case isFalse => exact (Nat.min_le_left _ _).trans hquotient

/-- Sketches with the same hashes have no difference. -/
theorem estimate_same (h : a.minHashes = b.minHashes) : estimate a b = 0 := by
  have hunion : unionCount a b = b.minHashes.length := by
    rw [unionCount, h, mergeSortDedup_self]
  have hshared : sharedCount a b = unionCount a b := by
    rw [sharedCount, hunion, h, Nat.add_sub_cancel]
  unfold estimate
  rw [h]
  by_cases hempty : b.minHashes = []
  · rw [if_pos ⟨hempty, hempty⟩]
  · rw [if_neg fun hboth => hempty hboth.1, if_neg hempty, if_neg hempty, if_pos hshared]

/-- Where the counts are those of the hashes the estimate counts the hashes that are not shared. -/
theorem estimate_exact (ha : a.count = a.minHashes.length) (hb : b.count = b.minHashes.length)
    (hbound : unionCount a b ≤ usizeMax) : estimate a b = unionCount a b - sharedCount a b := by
  have hsum := unionCount_add_sharedCount a b
  unfold estimate
  by_cases hleft : a.minHashes = []
  · have hunion : unionCount a b = b.minHashes.length := by
      rw [unionCount, hleft, mergeSortDedup_nil_left]
    rw [hleft, List.length_nil] at hsum
    by_cases hright : b.minHashes = []
    · rw [if_pos ⟨hleft, hright⟩, hunion, hright, List.length_nil, Nat.zero_sub]
    · rw [if_neg fun hboth => hright hboth.2, if_pos hleft, hb]
      omega
  · by_cases hright : b.minHashes = []
    · have hunion : unionCount a b = a.minHashes.length := by
        rw [unionCount, hright, mergeSortDedup_nil_right]
      rw [hright, List.length_nil] at hsum
      rw [if_neg fun hboth => hleft hboth.1, if_neg hleft, if_pos hright, ha]
      omega
    · rw [if_neg fun hboth => hleft hboth.1, if_neg hleft, if_neg hright]
      split
      case isTrue hsame => rw [hsame, Nat.sub_self]
      case isFalse =>
        have hpos : 0 < unionCount a b + sharedCount a b := by
          rw [hsum]
          exact Nat.add_pos_left (List.length_pos_iff.mpr hleft) _
        have hhalf : (unionCount a b + sharedCount a b) / 2 < unionCount a b + sharedCount a b :=
          Nat.div_lt_self hpos Nat.one_lt_two
        rw [ha, hb, ← hsum, quotient, Nat.mul_add_div hpos, Nat.div_eq_of_lt hhalf, Nat.add_zero]
        exact Nat.min_eq_left (by omega)

end Exact

section Difference

/-- The members of one set only are those of both less the shared ones. -/
theorem card_symmDiff {α : Type} [DecidableEq α] (A B : Finset α) :
    (symmDiff A B).card = (A ∪ B).card - (A.card + B.card - (A ∪ B).card) := by
  have hinter := Finset.card_union_add_card_inter A B
  have hsub : A ∩ B ⊆ A ∪ B := Finset.inter_subset_union
  rw [symmDiff_eq_sup_sdiff_inf, Finset.sup_eq_union, Finset.inf_eq_inter,
    Finset.card_sdiff_of_subset hsub]
  omega

variable [Blake3]

/-- A set with different hashes has as many hashes as datoms. -/
theorem length_sortedHashes {datoms : Finset Datom}
    (hinj : Set.InjOn Datom.contentHash (datoms : Set Datom)) :
    (sortedHashes datoms).length = datoms.card := by
  rw [sortedHashes, Finset.length_sort, Finset.card_image_of_injOn hinj]

/-- Sketches that hold their sets whole are estimated exactly. -/
theorem estimate_whole {A B : Finset Datom} {a b : StoreSketch}
    (hinj : Set.InjOn Datom.contentHash ((A ∪ B : Finset Datom) : Set Datom))
    (ha : a.minHashes = sortedHashes A ∧ a.count = A.card)
    (hb : b.minHashes = sortedHashes B ∧ b.count = B.card) (hbound : A.card + B.card ≤ usizeMax) :
    estimate a b = (symmDiff A B).card := by
  have hA := length_sortedHashes
    (hinj.mono (Finset.coe_subset.mpr (Finset.subset_union_left : A ⊆ A ∪ B)))
  have hB := length_sortedHashes
    (hinj.mono (Finset.coe_subset.mpr (Finset.subset_union_right : B ⊆ A ∪ B)))
  have hunion : unionCount a b = (A ∪ B).card := by
    rw [unionCount, ha.1, hb.1, ← sortedHashes_union, length_sortedHashes hinj]
  have hshared : sharedCount a b = A.card + B.card - (A ∪ B).card := by
    rw [sharedCount, hunion, ha.1, hb.1, hA, hB]
  have hcard := Finset.card_union_le A B
  rw [estimate_exact (by rw [ha.2, ha.1, hA]) (by rw [hb.2, hb.1, hB]) (by omega), hunion, hshared,
    card_symmDiff]

/-- The estimate is symmetric, zero on equal sets, bounded by the sizes of the sets and exact on
sets that the sketches hold whole, and nothing overflows or is divided by zero. -/
theorem estimated_diff_size_spec {A B : Finset Datom} {capacity : Nat} {as bs : List Datom}
    (hinj : Set.InjOn Datom.contentHash ((A ∪ B : Finset Datom) : Set Datom))
    (hpos : 0 < capacity) (hsmall : capacity < 2 ^ 31)
    (hfits : profile.Fits 64 A.card ∧ profile.Fits 64 B.card)
    (has : as.Nodup ∧ as.toFinset = A) (hbs : bs.Nodup ∧ bs.toFinset = B) :
    ∃ a b diff, compute profile as capacity = .ok (.ok a) ∧
      compute profile bs capacity = .ok (.ok b) ∧
      estimatedDiffSize profile a b = .ok (.ok diff) ∧
      estimatedDiffSize profile b a = .ok (.ok diff) ∧ (A = B → diff = 0) ∧
      diff ≤ A.card + B.card ∧
      (A.card ≤ capacity → B.card ≤ capacity → diff = (symmDiff A B).card) := by
  have hinjA := hinj.mono (Finset.coe_subset.mpr (Finset.subset_union_left : A ⊆ A ∪ B))
  have hinjB := hinj.mono (Finset.coe_subset.mpr (Finset.subset_union_right : B ⊆ A ∪ B))
  have hroom : Reservable profile capacity := .inl (by omega)
  obtain ⟨a, ha, haHashes, haCount, haCapacity⟩ :=
    compute_minHashes hinjA hpos hroom hfits.1 has.1 has.2
  obtain ⟨b, hb, hbHashes, hbCount, hbCapacity⟩ :=
    compute_minHashes hinjB hpos hroom hfits.2 hbs.1 hbs.2
  have hrangeA : a.count < 2 ^ 64 := haCount ▸ Nat.mod_lt _ (Nat.two_pow_pos 64)
  have hrangeB : b.count < 2 ^ 64 := hbCount ▸ Nat.mod_lt _ (Nat.two_pow_pos 64)
  have hcapacity : a.capacity = b.capacity := haCapacity.trans hbCapacity.symm
  refine ⟨a, b, estimate a b, ha, hb,
    estimatedDiffSize_eq hcapacity (haCapacity ▸ hsmall) hrangeA hrangeB, ?_, ?_, ?_, ?_⟩
  · rw [estimate_comm]
    exact estimatedDiffSize_eq hcapacity.symm (hbCapacity ▸ hsmall) hrangeB hrangeA
  · rintro rfl
    exact estimate_same (haHashes.trans hbHashes.symm)
  · refine (estimate_le a b).trans ?_
    rw [haCount, hbCount]
    exact Nat.add_le_add (Nat.mod_le _ _) (Nat.mod_le _ _)
  · -- sketches that hold every hash count exactly
    intro hwholeA hwholeB
    rw [List.take_of_length_le (by rw [length_sortedHashes hinjA]; exact hwholeA)] at haHashes
    rw [List.take_of_length_le (by rw [length_sortedHashes hinjB]; exact hwholeB)] at hbHashes
    rw [Nat.mod_eq_of_lt (by omega)] at haCount hbCount
    refine estimate_whole hinj ⟨haHashes, haCount⟩ ⟨hbHashes, hbCount⟩ ?_
    rw [usizeMax]
    omega

end Difference

open Sample

/-- Two sketches of one hash each. -/
theorem estimated_diff_size_linked :
    ∃ a b, compute .checked [linked 0] 2 = .ok (.ok a) ∧
      compute .checked [linked 1] 2 = .ok (.ok b) ∧
      estimatedDiffSize .checked a b = .ok (.ok 2) := by
  have hfits (number : Nat) : Profile.checked.Fits 64 ({linked number} : Finset Datom).card := by
    rw [Finset.card_singleton]
    exact .inr (by decide)
  have hne : linked 0 ≠ linked 1 := fun heq => contentHash_linked (congrArg Datom.contentHash heq)
  obtain ⟨a, b, diff, ha, hb, hdiff, -, -, -, hexact⟩ :=
    estimated_diff_size_spec injOn_linked Nat.two_pos (by decide) ⟨hfits 0, hfits 1⟩
      ⟨List.nodup_singleton (linked 0), rfl⟩ ⟨List.nodup_singleton (linked 1), rfl⟩
  have hcard : (symmDiff {linked 0} {linked 1} : Finset Datom).card = 2 := by
    rw [card_symmDiff, Finset.card_singleton, Finset.card_singleton, ← Finset.insert_eq,
      Finset.card_pair hne]
  rw [hexact (by rw [Finset.card_singleton]; decide) (by rw [Finset.card_singleton]; decide),
    hcard] at hdiff
  exact ⟨a, b, ha, hb, hdiff⟩

end StoreSketch

end Ferratomic
