import Ferratomic.Search

/-!
# The estimate of interpolation search

The estimate adds a guess to the lower end of the window. The guess is taken from the leading bytes
at the ends of the window, and a key above the window can make it almost as large as the range of
the type; then the sum leaves that range. `EstimateOverflows` is this condition on a window and
`interpolate` is the position that interpolation in natural numbers takes. The main theorem is
`interpolationSearch_overflow_iff`: the search overflows if and only if interpolation in natural
numbers arrives at such a window. It never does for a key that the array has
(`interpolationSearch_checked_of_mem`).
-/

namespace Ferratomic

open Lib

section Estimate

variable (canonical : List Datom) (key : EavtKey) (w : Window)

/-- The position that interpolation in natural numbers takes: the middle between equal ends, and
otherwise the guess, but no further than the upper end. -/
def interpolate : Nat :=
  if valueAt canonical w.hi = valueAt canonical w.lo then w.lo + (w.hi - w.lo) / 2
  else min (w.lo + guess canonical key w) w.hi

/-- The guess fits 64 bits and its sum with the lower end of the window does not. -/
def EstimateOverflows : Prop :=
  valueAt canonical w.hi ≠ valueAt canonical w.lo ∧ guess canonical key w < 2 ^ 64 ∧
    2 ^ 64 ≤ w.lo + guess canonical key w

instance : Decidable (EstimateOverflows canonical key w) :=
  inferInstanceAs (Decidable (_ ∧ _ ∧ _))

/-- The windows that interpolation in natural numbers arrives at. -/
def Interpolates : Prop :=
  Visits (interpolate canonical key) (probeKey key) canonical ⟨0, canonical.length - 1⟩ w

/-- The interpolated position stays inside the range. -/
theorem interpolate_inside : StaysInside (interpolate canonical key) := by
  intro w hle
  unfold interpolate
  split
  case isTrue => omega
  case isFalse => omega

end Estimate

section Checked

variable {canonical : List Datom} {key : EavtKey} {w : Window}

/-- The estimate leaves the range exactly in the windows that say so. -/
theorem probePosition_checked (hsorted : canonical.Pairwise (· < ·))
    (hlength : canonical.length ≤ u32Max) (hle : w.lo ≤ w.hi) (hbound : w.hi < canonical.length) :
    probePosition .checked canonical key w =
      if EstimateOverflows canonical key w then .error .overflow
      else .ok (interpolate canonical key w) := by
  have hlength' : canonical.length < 2 ^ 32 := by
    rw [u32Max] at hlength
    omega
  rw [probePosition_eq hsorted hlength hle hbound]
  by_cases heq : valueAt canonical w.hi = valueAt canonical w.lo
  · rw [if_pos heq, if_neg fun h => h.1 heq, interpolate, if_pos heq]
  · rw [if_neg heq, interpolate, if_neg heq]
    by_cases hsmall : guess canonical key w < 2 ^ 64
    · rw [cappedGuess, if_pos hsmall]
      by_cases hover : 2 ^ 64 ≤ w.lo + guess canonical key w
      · rw [if_pos ⟨heq, hsmall, hover⟩, Profile.checked_add_over hover]
        rfl
      · rw [if_neg fun h => hover h.2.2, Profile.add_eq (Nat.lt_of_not_le hover)]
        show Except.ok (max w.lo (min (w.lo + guess canonical key w) w.hi)) = _
        rw [Nat.max_eq_right (Nat.le_min.mpr ⟨Nat.le_add_right _ _, hle⟩)]
    · -- a guess that does not fit falls back to the upper end
      rw [cappedGuess, if_neg hsmall, if_neg fun h => hsmall h.2.1, Profile.add_eq (by omega)]
      show Except.ok (max w.lo (min (w.lo + w.hi) w.hi)) = _
      have hmin : min (w.lo + guess canonical key w) w.hi = w.hi := by omega
      rw [hmin, Nat.min_eq_right (Nat.le_add_left _ _), Nat.max_eq_right hle]

/-- A checked pass overflows exactly when its estimate does, and is the exact pass otherwise. -/
theorem searchPass_checked (hsorted : canonical.Pairwise (· < ·))
    (hlength : canonical.length ≤ u32Max) (hle : w.lo ≤ w.hi) (hbound : w.hi < canonical.length) :
    searchPass .checked canonical key w =
      if EstimateOverflows canonical key w then .error .overflow
      else .ok (windowStep (interpolate canonical key) (probeKey key) canonical w) := by
  have hposition := @probePosition_checked canonical key w hsorted hlength hle hbound
  by_cases hover : EstimateOverflows canonical key w
  · rw [if_pos hover] at hposition ⊢
    rw [searchPass, hposition]
    rfl
  · rw [if_neg hover] at hposition ⊢
    exact searchPass_eq hlength
      (Nat.lt_of_le_of_lt (interpolate_inside canonical key w hle).2 hbound) hposition

/-- A loop that arrives at no window whose estimate overflows is the window search. -/
theorem searchLoop_checked (hsorted : canonical.Pairwise (· < ·))
    (hlength : canonical.length ≤ u32Max) (fuel : Nat) (hbound : w.hi < canonical.length)
    (hnone : ∀ last, Visits (interpolate canonical key) (probeKey key) canonical w last →
      last.lo ≤ last.hi → ¬ EstimateOverflows canonical key last) :
    searchLoop .checked canonical key fuel w =
      (windowSearch (interpolate canonical key) (probeKey key) canonical fuel w).map .ok := by
  induction fuel generalizing w with
  | zero => rfl
  | succ fuel ih =>
      rw [searchLoop, windowSearch]
      by_cases hle : w.lo ≤ w.hi
      · rw [if_pos hle, if_pos hle, searchPass_checked hsorted hlength hle hbound,
          if_neg (hnone w (.here w) hle)]
        cases hstep : windowStep (interpolate canonical key) (probeKey key) canonical w with
        | inl result => rfl
        | inr rest =>
            have hhigh := windowStep_hi_le (interpolate_inside canonical key) hle hstep
            exact ih (Nat.lt_of_le_of_lt hhigh hbound) fun last hvisits =>
              hnone last (.later hle hstep hvisits)
      · rw [if_neg hle, if_neg hle]
        rfl

/-- A loop that goes on in a window whose estimate overflows overflows. -/
theorem exists_fuel_overflow (hsorted : canonical.Pairwise (· < ·))
    (hlength : canonical.length ≤ u32Max) (hbound : w.hi < canonical.length) {last : Window}
    (hvisits : Visits (interpolate canonical key) (probeKey key) canonical w last)
    (hle : last.lo ≤ last.hi) (hover : EstimateOverflows canonical key last) :
    ∃ fuel, searchLoop .checked canonical key fuel w = some (.error .overflow) := by
  induction hvisits with
  | here w =>
      refine ⟨1, ?_⟩
      rw [searchLoop, if_pos hle, searchPass_checked hsorted hlength hle hbound, if_pos hover]
  | @later w rest last hwle hstep _ ih =>
      have hpass := @searchPass_checked canonical key w hsorted hlength hwle hbound
      by_cases hnow : EstimateOverflows canonical key w
      · refine ⟨1, ?_⟩
        rw [searchLoop, if_pos hwle, hpass, if_pos hnow]
      · have hhigh := windowStep_hi_le (interpolate_inside canonical key) hwle hstep
        obtain ⟨fuel, hfuel⟩ := ih (Nat.lt_of_le_of_lt hhigh hbound) hle hover
        refine ⟨fuel + 1, ?_⟩
        rw [searchLoop, if_pos hwle, hpass, if_neg hnow, hstep]
        exact hfuel

/-- No operation of the search leaves the range of its type if and only if interpolation in natural
numbers arrives at no window whose estimate does. -/
theorem interpolationSearch_overflow_iff {canonical : List Datom}
    (hsorted : canonical.Pairwise (· < ·)) (hlength : canonical.length ≤ u32Max) (key : EavtKey) :
    (∀ fuel, interpolationSearch .checked canonical key fuel ≠ some (.error .overflow)) ↔
      ∀ w, Interpolates canonical key w → w.lo ≤ w.hi → ¬ EstimateOverflows canonical key w := by
  by_cases hne : canonical = []
  · subst hne
    refine iff_of_true (fun fuel h => by cases h) fun w _ _ hover => hover.1 rfl
  · have hbound : canonical.length - 1 < canonical.length :=
      Nat.sub_lt (List.length_pos_iff.mpr hne) Nat.one_pos
    constructor
    · intro hnone w hvisits hle hover
      obtain ⟨fuel, hfuel⟩ := exists_fuel_overflow hsorted hlength hbound hvisits hle hover
      exact hnone fuel ((interpolationSearch_eq hlength hne fuel).trans hfuel)
    · intro hall fuel hfault
      rw [interpolationSearch_eq hlength hne, searchLoop_checked hsorted hlength fuel hbound hall,
        Option.map_eq_some_iff] at hfault
      obtain ⟨result, -, hok⟩ := hfault
      cases hok

/-- A window whose estimate overflows lies below the key. -/
theorem EstimateOverflows.lt_key (hover : EstimateOverflows canonical key w) (hle : w.lo ≤ w.hi)
    (hbound : w.hi < 2 ^ 64) : valueAt canonical w.hi < entityKeyU64 key := by
  obtain ⟨-, -, hsum⟩ := hover
  by_contra hkey
  have hguess : guess canonical key w ≤ w.hi - w.lo := by
    rw [guess, Nat.mul_comm]
    refine Nat.div_le_of_le_mul ?_
    rw [Nat.mul_comm (w.hi - w.lo)]
    exact Nat.mul_le_mul_right _ (Nat.sub_le_sub_right (Nat.le_of_not_lt hkey) _)
  omega

/-- The search for a key that the array has never overflows, and finds it. -/
theorem interpolationSearch_checked_of_mem (hsorted : canonical.Pairwise (· < ·))
    (hlength : canonical.length ≤ u32Max) {d : Datom} (hd : d ∈ canonical) {fuel : Nat}
    (hfuel : canonical.length < fuel) :
    interpolationSearch .checked canonical (EavtKey.fromDatom d) fuel = some (.ok (some d)) := by
  have hne : canonical ≠ [] := List.ne_nil_of_mem hd
  have hbound : canonical.length - 1 < canonical.length :=
    Nat.sub_lt (List.length_pos_iff.mpr hne) Nat.one_pos
  have hascends := ascends_probeKey hsorted (EavtKey.fromDatom d)
  have hwhole := holds_whole (probeKey (EavtKey.fromDatom d)) canonical
  have hinside := interpolate_inside canonical (EavtKey.fromDatom d)
  have hnone : ∀ w, Interpolates canonical (EavtKey.fromDatom d) w → w.lo ≤ w.hi →
      ¬ EstimateOverflows canonical (EavtKey.fromDatom d) w := by
    intro w hvisits hle hover
    obtain ⟨hhigh, hholds⟩ := hvisits.holds hinside hascends hbound hwhole
    obtain ⟨i, hi⟩ := List.mem_iff_getElem?.mp hd
    have hlast := (hholds i d hi (probeKey_eq_iff.mpr rfl)).2
    have hlt := hover.lt_key hle (by rw [u32Max] at hlength; omega)
    have hle' := valueAt_le hsorted hlast hhigh
    rw [valueAt_eq hi] at hle'
    exact absurd hlt (Nat.not_lt.mpr hle')
  obtain ⟨result, hresult, hspec⟩ := windowSearch_spec hinside hascends hbound hwhole
    (show canonical.length - 1 + 1 - 0 < fuel by omega)
  rw [interpolationSearch_eq hlength hne, searchLoop_checked hsorted hlength fuel hbound hnone,
    hresult, (hspec d).mpr ⟨hd, probeKey_eq_iff.mpr rfl⟩]
  rfl

end Checked

section Sample

open Sample

/-- The checked search overflows on the sample. -/
theorem interpolationSearch_clustered :
    interpolationSearch .checked clustered belowHalf 3 = some (.error .overflow) := by
  decide +kernel

/-- The third estimate for a key just below the upper half leaves the range. -/
theorem clustered_overflows :
    clustered.Pairwise (· < ·) ∧ clustered.length ≤ u32Max ∧
      interpolationSearch .checked clustered belowHalf 3 = some (.error .overflow) :=
  ⟨clustered_ascends, by decide, interpolationSearch_clustered⟩

/-- Interpolation in natural numbers arrives there too. -/
theorem interpolationSearch_overflow_clustered :
    ∃ w, Interpolates clustered belowHalf w ∧ w.lo ≤ w.hi ∧
      EstimateOverflows clustered belowHalf w := by
  by_contra hnone
  refine (interpolationSearch_overflow_iff clustered_ascends (by decide) belowHalf).mpr ?_ 3
    interpolationSearch_clustered
  intro w hvisits hle hover
  exact hnone ⟨w, hvisits, hle, hover⟩

end Sample

end Ferratomic
