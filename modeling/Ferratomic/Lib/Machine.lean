import Mathlib

/-!
# Machine arithmetic

Unsigned arithmetic of a fixed width on natural numbers. An operation whose exact result does not
fit wraps around, or faults where the profile has overflow checks compiled in. In range both
profiles give the exact result (`Profile.add_eq`, `Profile.sub_eq`, `Profile.mul_eq`). A collection
that reserves more room than an allocation can have faults in both (`reserve_over`).
-/

namespace Ferratomic.Lib

/-- What makes a run panic. -/
inductive Fault where
  | overflow
  | divisionByZero
  | outOfBounds
  | capacityOverflow
  deriving DecidableEq, Repr

/-- Whether overflow checks are compiled in. -/
inductive Profile where
  | checked
  | wrapping
  deriving DecidableEq, Repr

namespace Profile

/-- The result of an operation of the given width. -/
def fit (profile : Profile) (bits : Nat) (exact : Int) : Except Fault Nat :=
  if 0 ≤ exact ∧ exact < 2 ^ bits then .ok exact.toNat
  else
    match profile with
    | checked => .error .overflow
    | wrapping => .ok (exact % 2 ^ bits).toNat

/-- Addition. -/
def add (profile : Profile) (bits a b : Nat) : Except Fault Nat :=
  profile.fit bits (a + b)

/-- Subtraction. -/
def sub (profile : Profile) (bits a b : Nat) : Except Fault Nat :=
  profile.fit bits (a - b)

/-- Multiplication. -/
def mul (profile : Profile) (bits a b : Nat) : Except Fault Nat :=
  profile.fit bits (a * b)

/-- A value within the width is kept. -/
theorem fit_eq {profile : Profile} {bits value : Nat} {exact : Int} (hexact : exact = value)
    (h : value < 2 ^ bits) : profile.fit bits exact = .ok value := by
  have hrange : 0 ≤ exact ∧ exact < 2 ^ bits := by
    rw [hexact]
    exact ⟨Int.natCast_nonneg value, by exact_mod_cast h⟩
  unfold fit
  rw [if_pos hrange, hexact, Int.toNat_natCast]

/-- A sum within the width is exact. -/
theorem add_eq {profile : Profile} {bits a b : Nat} (h : a + b < 2 ^ bits) :
    profile.add bits a b = .ok (a + b) :=
  fit_eq (Nat.cast_add a b).symm h

/-- A difference that is not negative is exact. -/
theorem sub_eq {profile : Profile} {bits a b : Nat} (hle : b ≤ a) (h : a < 2 ^ bits) :
    profile.sub bits a b = .ok (a - b) :=
  fit_eq (Nat.cast_sub hle).symm (Nat.lt_of_le_of_lt (Nat.sub_le a b) h)

/-- A product within the width is exact. -/
theorem mul_eq {profile : Profile} {bits a b : Nat} (h : a * b < 2 ^ bits) :
    profile.mul bits a b = .ok (a * b) :=
  fit_eq (Nat.cast_mul a b).symm h

/-- A sum out of range faults where it is checked. -/
theorem checked_add_over {bits a b : Nat} (h : 2 ^ bits ≤ a + b) :
    checked.add bits a b = .error .overflow := by
  have hrange : ¬ (0 ≤ (a + b : Int) ∧ (a + b : Int) < 2 ^ bits) := by
    rintro ⟨-, hlt⟩
    have hlt' : a + b < 2 ^ bits := by exact_mod_cast hlt
    omega
  unfold add fit
  rw [if_neg hrange]

/-- A sum that wraps around is taken modulo the range. -/
theorem wrapping_add (bits a b : Nat) : wrapping.add bits a b = .ok ((a + b) % 2 ^ bits) := by
  have hmod : ((a + b : Int) % 2 ^ bits).toNat = (a + b) % 2 ^ bits := by
    have hcast : (a + b : Int) % 2 ^ bits = ((a + b) % 2 ^ bits : Nat) := by
      push_cast
      rfl
    rw [hcast, Int.toNat_natCast]
  by_cases h : a + b < 2 ^ bits
  · rw [add_eq h, Nat.mod_eq_of_lt h]
  · have hrange : ¬ (0 ≤ (a + b : Int) ∧ (a + b : Int) < 2 ^ bits) := by
      rintro ⟨-, hlt⟩
      exact h (by exact_mod_cast hlt)
    unfold add fit
    rw [if_neg hrange, hmod]

/-- An exact result can be had without a fault: it fits, or results wrap around. -/
def Fits (profile : Profile) (bits value : Nat) : Prop :=
  profile = wrapping ∨ value < 2 ^ bits

/-- What is at most a fitting value fits. -/
theorem Fits.mono {profile : Profile} {bits a b : Nat} (h : profile.Fits bits b) (hle : a ≤ b) :
    profile.Fits bits a :=
  h.imp_right hle.trans_lt

/-- A sum that does not fault is the exact one modulo the range. -/
theorem Fits.add {profile : Profile} {bits a b : Nat} (h : profile.Fits bits (a + b)) :
    profile.add bits a b = .ok ((a + b) % 2 ^ bits) := by
  rcases h with rfl | hlt
  · exact wrapping_add bits a b
  · rw [add_eq hlt, Nat.mod_eq_of_lt hlt]

/-- Addition commutes, faults included. -/
theorem add_comm (profile : Profile) (bits a b : Nat) :
    profile.add bits a b = profile.add bits b a := by
  unfold add
  rw [Int.add_comm]

/-- A sum that is had is one that fits. -/
theorem add_eq_ok {profile : Profile} {bits a b sum : Nat} (h : profile.add bits a b = .ok sum) :
    profile.Fits bits (a + b) ∧ sum = (a + b) % 2 ^ bits := by
  have hfits : profile.Fits bits (a + b) := by
    cases profile with
    | wrapping => exact .inl rfl
    | checked =>
        refine .inr (Nat.lt_of_not_le fun hover => ?_)
        rw [checked_add_over hover] at h
        cases h
  rw [hfits.add] at h
  cases h
  exact ⟨hfits, rfl⟩

/-- Sums of natural numbers can be had in any order. -/
theorem add_assoc {profile : Profile} {bits a b c ab abc : Nat}
    (hleft : profile.add bits a b = .ok ab) (h : profile.add bits ab c = .ok abc) :
    ∃ bc, profile.add bits b c = .ok bc ∧ profile.add bits a bc = .ok abc := by
  obtain ⟨hfits, rfl⟩ := add_eq_ok hleft
  obtain ⟨hfits', rfl⟩ := add_eq_ok h
  have htotal : profile.Fits bits (a + (b + c)) := by
    rcases hfits with rfl | hlt
    · exact .inl rfl
    · rw [Nat.mod_eq_of_lt hlt, Nat.add_assoc] at hfits'
      exact hfits'
  have hright := htotal.mono (Nat.le_add_left (b + c) a)
  refine ⟨(b + c) % 2 ^ bits, hright.add, ?_⟩
  have hle : a + (b + c) % 2 ^ bits ≤ a + (b + c) := Nat.add_le_add_left (Nat.mod_le _ _) a
  rw [(htotal.mono hle).add, Nat.add_mod_mod, Nat.mod_add_mod, Nat.add_assoc]

end Profile

/-- A step that does not fault hands its result on. -/
theorem ok_bind {α β : Type} (value : α) (next : α → Except Fault β) :
    (Except.ok value >>= next) = next value := rfl

/-- Division. -/
def divide (a b : Nat) : Except Fault Nat :=
  if b = 0 then .error .divisionByZero else .ok (a / b)

/-- A division by a positive number is exact. -/
theorem divide_eq {a b : Nat} (h : 0 < b) : divide a b = .ok (a / b) :=
  if_neg (Nat.ne_of_gt h)

/-- Indexing. -/
def index {α : Type} (items : List α) (i : Nat) : Except Fault α :=
  match items[i]? with
  | some item => .ok item
  | none => .error .outOfBounds

/-- An index that is there yields its item. -/
theorem index_eq {α : Type} {items : List α} {i : Nat} {item : α} (h : items[i]? = some item) :
    index items i = .ok item := by
  rw [index, h]

/-- The largest allocation in bytes. -/
def maxAllocation : Nat := 2 ^ 63 - 1

/-- Reserve room for `count` elements of `size` bytes. -/
def reserve (size count : Nat) : Except Fault Unit :=
  if count * size ≤ maxAllocation then .ok () else .error .capacityOverflow

/-- An allocation within the limit succeeds. -/
theorem reserve_eq {size count : Nat} (h : count * size ≤ maxAllocation) :
    reserve size count = .ok () :=
  if_pos h

/-- An allocation above the limit is refused. -/
theorem reserve_over {size count : Nat} (h : maxAllocation < count * size) :
    reserve size count = .error .capacityOverflow :=
  if_neg (Nat.not_le_of_lt h)

end Ferratomic.Lib
