import Ferratomic.Keys
import Ferratomic.Lib.ByteOrder
import Ferratomic.Lib.Machine
import Ferratomic.Lib.WindowSearch
import Ferratomic.Positional

/-!
# Interpolation search

The EAVT lookup guesses where a key stands from the first eight bytes of the entities at both ends
of the window. All machine arithmetic of the loop is explicit. `probePosition_eq` says what one
guess computes within a window, and `searchPass_eq` that a pass of the loop is a step of a window
search. The main theorem is `interpolationSearch_wrapping`: where the estimate wraps around the
search still ends, indexes within the array and finds the key.
-/

namespace Ferratomic

open Lib

/-- The first eight bytes of an entity as a big-endian number. -/
def leadingU64 (entity : EntityId) : Nat :=
  beNat (entity.val.take 8)

/-- `entity_u64` -/
def entityU64 (d : Datom) : Nat :=
  leadingU64 d.entity

/-- `entity_key_u64` -/
def entityKeyU64 (key : EavtKey) : Nat :=
  leadingU64 key.entity

section Loop

variable (profile : Profile) (canonical : List Datom) (key : EavtKey)

/-- The position that a pass of the loop looks at. -/
def probePosition (w : Window) : Except Fault Nat := do
  let loVal := entityU64 (← index canonical w.lo)
  let hiVal := entityU64 (← index canonical w.hi)
  let keyVal := entityKeyU64 key
  if hiVal = loVal then
    let width ← profile.sub 64 w.hi w.lo
    profile.add 64 w.lo (width / 2)
  else
    let width ← profile.sub 64 w.hi w.lo
    -- `saturating_sub` is the subtraction of natural numbers
    let numerator ← profile.mul 128 (keyVal - loVal) width
    let denominator ← profile.sub 64 hiVal loVal
    let ratio ← divide numerator denominator
    let estimate ← profile.add 64 w.lo (if ratio < 2 ^ 64 then ratio else w.hi)
    pure (max w.lo (min estimate w.hi))

/-- How the loop compares a datom with the key. -/
def probeKey (d : Datom) : Ordering :=
  (key.cmpDatom d).swap

/-- One pass of the loop: the search returns, or a smaller window is left. -/
def searchPass (w : Window) : Except Fault (Option Datom ⊕ Window) := do
  let pos ← probePosition profile canonical key w
  let d ← index canonical pos
  match probeKey key d with
  | .eq => pure (.inl (some d))
  | .lt =>
      let lo ← profile.add 64 pos 1
      pure (.inr ⟨lo, w.hi⟩)
  | .gt =>
      if pos = 0 then pure (.inl none)
      else
        let hi ← profile.sub 64 pos 1
        pure (.inr ⟨w.lo, hi⟩)

/-- The loop; `none` when the fuel does not last. -/
def searchLoop : Nat → Window → Option (Except Fault (Option Datom))
  | 0, _ => none
  | fuel + 1, w =>
      if w.lo ≤ w.hi then
        match searchPass profile canonical key w with
        | .error fault => some (.error fault)
        | .ok (.inl result) => some (.ok result)
        | .ok (.inr rest) => searchLoop fuel rest
      else some (.ok none)

/-- `interpolation_search` -/
def interpolationSearch (fuel : Nat) : Option (Except Fault (Option Datom)) :=
  if canonical = [] then some (.ok none)
  else
    match profile.sub 64 canonical.length 1 with
    | .error fault => some (.error fault)
    | .ok hi => searchLoop profile canonical key fuel ⟨0, hi⟩

end Loop

section Guess

variable (canonical : List Datom) (key : EavtKey) (w : Window)

/-- The leading bytes of the entity at a position. -/
def valueAt (i : Nat) : Nat :=
  (canonical[i]?.map entityU64).getD 0

/-- How far into the window the key stands if the leading bytes grow evenly. -/
def guess : Nat :=
  (entityKeyU64 key - valueAt canonical w.lo) * (w.hi - w.lo) /
    (valueAt canonical w.hi - valueAt canonical w.lo)

/-- What is added to the lower end of the window. -/
def cappedGuess : Nat :=
  if guess canonical key w < 2 ^ 64 then guess canonical key w else w.hi

/-- The position where the estimate wraps around. -/
def wrappedPosition : Nat :=
  if valueAt canonical w.hi = valueAt canonical w.lo then w.lo + (w.hi - w.lo) / 2
  else max w.lo (min ((w.lo + cappedGuess canonical key w) % 2 ^ 64) w.hi)

/-- The wrapped position stays inside the range. -/
theorem wrappedPosition_inside : StaysInside (wrappedPosition canonical key) := by
  intro w hle
  unfold wrappedPosition
  split
  case isTrue => omega
  case isFalse => omega

end Guess

section Spec

variable {profile : Profile} {canonical : List Datom} {key : EavtKey} {w : Window}

/-- The leading word of an entity is a 64-bit number. -/
theorem leadingU64_lt (entity : EntityId) : leadingU64 entity < 2 ^ 64 := by
  have h := beNat_lt (entity.val.take 8)
  rw [List.length_take, entity.property] at h
  exact h

/-- Entities in order have their leading bytes in order. -/
theorem leadingU64_le {a b : EntityId} (h : a ≤ b) : leadingU64 a ≤ leadingU64 b := by
  have hlength : a.val.length = b.val.length := a.property.trans b.property.symm
  refine beNat_le ?_ (take_le_take 8 hlength h)
  rw [List.length_take, List.length_take, hlength]

/-- Ascending datoms have ascending entities. -/
theorem Datom.entity_le {d d' : Datom} (h : d ≤ d') : d.entity ≤ d'.entity := by
  have hkey : d.sortKey ≤ d'.sortKey := h
  rcases Prod.Lex.toLex_le_toLex.mp hkey with hlt | ⟨heq, -⟩
  · exact hlt.le
  · exact heq.le

/-- The value at a position is the leading word of the datom there. -/
theorem valueAt_eq {i : Nat} {d : Datom} (h : canonical[i]? = some d) :
    valueAt canonical i = entityU64 d := by
  rw [valueAt, h]
  rfl

/-- The value at a position is a 64-bit number. -/
theorem valueAt_lt (i : Nat) : valueAt canonical i < 2 ^ 64 := by
  rw [valueAt]
  cases canonical[i]? with
  | none => exact Nat.two_pow_pos 64
  | some d => exact leadingU64_lt d.entity

/-- The values of an ascending array ascend. -/
theorem valueAt_le (hsorted : canonical.Pairwise (· < ·)) {i j : Nat} (hle : i ≤ j)
    (hbound : j < canonical.length) : valueAt canonical i ≤ valueAt canonical j := by
  rcases Nat.lt_or_eq_of_le hle with hlt | rfl
  · have hi : i < canonical.length := Nat.lt_trans hlt hbound
    rw [valueAt_eq (List.getElem?_eq_getElem hi), valueAt_eq (List.getElem?_eq_getElem hbound)]
    exact leadingU64_le
      (Datom.entity_le (List.pairwise_iff_getElem.mp hsorted i j hi hbound hlt).le)
  · exact Nat.le_refl _

/-- What one guess computes: everything but the sum of the estimate is in range. -/
theorem probePosition_eq (hsorted : canonical.Pairwise (· < ·))
    (hlength : canonical.length ≤ u32Max) (hle : w.lo ≤ w.hi) (hbound : w.hi < canonical.length) :
    probePosition profile canonical key w =
      if valueAt canonical w.hi = valueAt canonical w.lo then .ok (w.lo + (w.hi - w.lo) / 2)
      else (profile.add 64 w.lo (cappedGuess canonical key w)).map
        fun estimate => max w.lo (min estimate w.hi) := by
  have hlo : canonical[w.lo]? = some canonical[w.lo] := List.getElem?_eq_getElem (by omega)
  have hhi : canonical[w.hi]? = some canonical[w.hi] := List.getElem?_eq_getElem hbound
  have hlow := valueAt_eq hlo
  have hhigh := valueAt_eq hhi
  have hmono : valueAt canonical w.lo ≤ valueAt canonical w.hi := valueAt_le hsorted hle hbound
  have hkey : entityKeyU64 key < 2 ^ 64 := leadingU64_lt key.entity
  have hvalue : valueAt canonical w.hi < 2 ^ 64 := valueAt_lt w.hi
  rw [u32Max] at hlength
  have hwidth : profile.sub 64 w.hi w.lo = .ok (w.hi - w.lo) := Profile.sub_eq hle (by omega)
  unfold probePosition
  rw [index_eq hlo, ok_bind, index_eq hhi, ok_bind, hwidth, ok_bind]
  dsimp only
  rw [ok_bind, ← hlow, ← hhigh]
  by_cases heq : valueAt canonical w.hi = valueAt canonical w.lo
  · rw [if_pos heq, if_pos heq]
    exact Profile.add_eq (by omega)
  · -- the product of the interpolation is computed in 128 bits
    have hproduct : (entityKeyU64 key - valueAt canonical w.lo) * (w.hi - w.lo) < 2 ^ 128 := by
      have hle' : (entityKeyU64 key - valueAt canonical w.lo) * (w.hi - w.lo) ≤
          2 ^ 64 * (2 ^ 32 - 1) := Nat.mul_le_mul (by omega) (by omega)
      omega
    have hspread : 0 < valueAt canonical w.hi - valueAt canonical w.lo := by omega
    rw [if_neg heq, if_neg heq, Profile.mul_eq hproduct, ok_bind, Profile.sub_eq hmono hvalue,
      ok_bind, divide_eq hspread, ok_bind, cappedGuess, guess]
    cases profile.add 64 w.lo _ with
    | error fault => rfl
    | ok estimate => rfl

/-- A pass of the loop is a step of a window search by the rule that picks its position. -/
theorem searchPass_eq {rule : Window → Nat} (hlength : canonical.length ≤ u32Max)
    (hbound : rule w < canonical.length)
    (hposition : probePosition profile canonical key w = .ok (rule w)) :
    searchPass profile canonical key w = .ok (windowStep rule (probeKey key) canonical w) := by
  have hget : canonical[rule w]? = some canonical[rule w] := List.getElem?_eq_getElem hbound
  rw [u32Max] at hlength
  unfold searchPass windowStep
  rw [hposition, ok_bind, index_eq hget, ok_bind, hget]
  cases hprobe : probeKey key canonical[rule w] with
  | eq => simp only [hprobe, pure, Except.pure]
  | lt =>
      have hsum : profile.add 64 (rule w) 1 = .ok (rule w + 1) := Profile.add_eq (by omega)
      simp only [hprobe, hsum, ok_bind, pure, Except.pure]
  | gt =>
      by_cases hzero : rule w = 0
      · simp only [hprobe, if_pos hzero, pure, Except.pure]
      · have hdifference : profile.sub 64 (rule w) 1 = .ok (rule w - 1) :=
          Profile.sub_eq (by omega) (by omega)
        simp only [hprobe, if_neg hzero, hdifference, ok_bind, pure, Except.pure]

/-- The array ascends past the key. -/
theorem ascends_probeKey (hsorted : canonical.Pairwise (· < ·)) (key : EavtKey) :
    Ascends (probeKey key) canonical := by
  have hprobe : probeKey key = fun d => (ordCmp key (EavtKey.fromDatom d)).swap := by
    funext d
    rw [probeKey, EavtKey.cmpDatom_eq]
  have hkeys : canonical.Pairwise fun d d' => EavtKey.fromDatom d < EavtKey.fromDatom d' := hsorted
  rw [hprobe]
  exact ascends_ordCmp hkeys key

/-- The probe finds a datom equal exactly when it has the key. -/
theorem probeKey_eq_iff {d : Datom} : probeKey key d = .eq ↔ EavtKey.fromDatom d = key := by
  rw [probeKey, EavtKey.cmpDatom_eq, swap_ordCmp_eq_iff]

/-- The window of the whole array holds everything. -/
theorem holds_whole (probe : Datom → Ordering) (canonical : List Datom) :
    (⟨0, canonical.length - 1⟩ : Window).Holds probe canonical := by
  intro i d hi _
  obtain ⟨hlt, -⟩ := List.getElem?_eq_some_iff.mp hi
  exact ⟨Nat.zero_le i, Nat.le_sub_one_of_lt hlt⟩

/-- Where every position is the one of a rule, the loop is the window search by that rule. -/
theorem searchLoop_eq {rule : Window → Nat} (hrule : StaysInside rule)
    (hlength : canonical.length ≤ u32Max)
    (hposition : ∀ w : Window, w.lo ≤ w.hi → w.hi < canonical.length →
      probePosition profile canonical key w = .ok (rule w))
    (fuel : Nat) {w : Window} (hbound : w.hi < canonical.length) :
    searchLoop profile canonical key fuel w =
      (windowSearch rule (probeKey key) canonical fuel w).map .ok := by
  induction fuel generalizing w with
  | zero => rfl
  | succ fuel ih =>
      rw [searchLoop, windowSearch]
      by_cases hle : w.lo ≤ w.hi
      · have hpass := searchPass_eq hlength (Nat.lt_of_le_of_lt (hrule w hle).2 hbound)
          (hposition w hle hbound)
        rw [if_pos hle, if_pos hle, hpass]
        cases hstep : windowStep rule (probeKey key) canonical w with
        | inl result => rfl
        | inr rest =>
            exact ih (Nat.lt_of_le_of_lt (windowStep_hi_le hrule hle hstep) hbound)
      · rw [if_neg hle, if_neg hle]
        rfl

/-- The position where the estimate wraps around. -/
theorem probePosition_wrapping (hsorted : canonical.Pairwise (· < ·))
    (hlength : canonical.length ≤ u32Max) (hle : w.lo ≤ w.hi) (hbound : w.hi < canonical.length) :
    probePosition .wrapping canonical key w = .ok (wrappedPosition canonical key w) := by
  rw [probePosition_eq hsorted hlength hle hbound, wrappedPosition, Profile.wrapping_add]
  split
  case isTrue => rfl
  case isFalse => rfl

/-- The search of an array that is not empty starts with the whole of it. -/
theorem interpolationSearch_eq (hlength : canonical.length ≤ u32Max) (hne : canonical ≠ [])
    (fuel : Nat) :
    interpolationSearch profile canonical key fuel =
      searchLoop profile canonical key fuel ⟨0, canonical.length - 1⟩ := by
  have hpos : 0 < canonical.length := List.length_pos_iff.mpr hne
  rw [u32Max] at hlength
  have hlast : profile.sub 64 canonical.length 1 = .ok (canonical.length - 1) :=
    Profile.sub_eq hpos (by omega)
  rw [interpolationSearch, if_neg hne, hlast]

end Spec

/-- The datom that a binary search by the key finds. -/
def binarySearchKey (canonical : List Datom) (key : EavtKey) : Option Datom :=
  match binarySearchBy canonical (probeKey key) with
  | .ok i => canonical[i]?
  | .error _ => none

/-- The binary search finds the datom of the key. -/
theorem binarySearchKey_eq_some {canonical : List Datom} (hsorted : canonical.Pairwise (· < ·))
    {key : EavtKey} {d : Datom} :
    binarySearchKey canonical key = some d ↔ d ∈ canonical ∧ EavtKey.fromDatom d = key := by
  have hfound : ∀ i, binarySearchBy canonical (probeKey key) = .ok i ↔
      ∃ item, canonical[i]? = some item ∧ probeKey key item = .eq := fun i =>
    binarySearchBy_eq_ok (ascends_probeKey hsorted key)
  rw [binarySearchKey]
  constructor
  · intro h
    cases hsearch : binarySearchBy canonical (probeKey key) with
    | error i => rw [hsearch] at h; cases h
    | ok i =>
        rw [hsearch] at h
        obtain ⟨item, hitem, hprobe⟩ := (hfound i).mp hsearch
        obtain rfl : item = d := Option.some.inj (hitem.symm.trans h)
        exact ⟨List.mem_of_getElem? hitem, probeKey_eq_iff.mp hprobe⟩
  · rintro ⟨hmem, hkey⟩
    obtain ⟨i, hi⟩ := List.mem_iff_getElem?.mp hmem
    rw [(hfound i).mpr ⟨d, hi, probeKey_eq_iff.mpr hkey⟩]
    exact hi

/-- Where the estimate wraps around, the search of an ascending array within the position space ends
without a fault, finds the datom of the key if and only if the array has it, and agrees with the
binary search. -/
theorem interpolationSearch_wrapping {canonical : List Datom}
    (hsorted : canonical.Pairwise (· < ·)) (hlength : canonical.length ≤ u32Max) (key : EavtKey)
    {fuel : Nat} (hfuel : canonical.length < fuel) :
    ∃ result, interpolationSearch .wrapping canonical key fuel = some (.ok result) ∧
      (∀ d, result = some d ↔ d ∈ canonical ∧ EavtKey.fromDatom d = key) ∧
      result = binarySearchKey canonical key := by
  have hspec : ∃ result, interpolationSearch .wrapping canonical key fuel = some (.ok result) ∧
      ∀ d, result = some d ↔ d ∈ canonical ∧ EavtKey.fromDatom d = key := by
    by_cases hne : canonical = []
    · refine ⟨none, by rw [interpolationSearch, if_pos hne], fun d => ⟨nofun, ?_⟩⟩
      rintro ⟨hmem, -⟩
      rw [hne] at hmem
      exact absurd hmem List.not_mem_nil
    · have hpos : 0 < canonical.length := List.length_pos_iff.mpr hne
      obtain ⟨result, hresult, hspec⟩ := windowSearch_spec (wrappedPosition_inside canonical key)
        (ascends_probeKey hsorted key) (Nat.sub_lt hpos Nat.one_pos)
        (holds_whole (probeKey key) canonical)
        (show canonical.length - 1 + 1 - 0 < fuel by omega)
      refine ⟨result, ?_, fun d => ?_⟩
      · rw [interpolationSearch_eq hlength hne, searchLoop_eq (wrappedPosition_inside canonical key)
          hlength (fun w => probePosition_wrapping hsorted hlength) fuel
          (Nat.sub_lt hpos Nat.one_pos), hresult]
        rfl
      · rw [hspec d, probeKey_eq_iff]
  obtain ⟨result, hresult, hfound⟩ := hspec
  refine ⟨result, hresult, hfound, Option.ext fun d => ?_⟩
  rw [hfound d, binarySearchKey_eq_some hsorted]

section Sample

namespace Sample

/-- A datom whose entity has the given leading bytes, followed by a number. -/
def leading (value number : Nat) : Datom :=
  ⟨⟨(leBytes 8 value).reverse ++ (leBytes 24 number).reverse, by simp⟩, "a", .bool true,
    ⟨0, 0, NodeId.zero⟩, .assert⟩

/-- Ten entities with leading bytes zero, one with one, and five in the upper half. -/
def clustered : List Datom :=
  (List.range 10).map (leading 0) ++ [leading 1 0] ++ (List.range 4).map (leading (2 ^ 63)) ++
    [leading (2 ^ 64 - 1) 0]

/-- A key just below the upper half. -/
def belowHalf : EavtKey :=
  EavtKey.fromDatom (leading (2 ^ 63 - 1) 0)

/-- The sample datoms ascend. -/
theorem clustered_ascends : clustered.Pairwise (· < ·) := by
  decide +kernel

end Sample

open Sample

/-- The wrapping search is exact on the sample that overflows. -/
theorem interpolationSearch_wrapping_clustered :
    ∃ result, interpolationSearch .wrapping clustered belowHalf 17 = some (.ok result) ∧
      (∀ d, result = some d ↔ d ∈ clustered ∧ EavtKey.fromDatom d = belowHalf) ∧
      result = binarySearchKey clustered belowHalf :=
  interpolationSearch_wrapping clustered_ascends (by decide) belowHalf (by decide)

end Sample

end Ferratomic
