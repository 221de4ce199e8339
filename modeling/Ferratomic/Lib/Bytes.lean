import Mathlib

/-!
# Bytes and fixed-width little-endian integers

Byte strings are lists of `UInt8`. `leBytes width value` is the little-endian encoding of a
natural number in `width` bytes and `leNat` reads it back. The main theorems are the round
trips `leNat_leBytes` and `leBytes_leNat`. The module also gives the unsigned machine integers
the linear orders that derived lexicographic comparisons build on, and a signed integer of any
width as a bounded `Int`.
-/

namespace Ferratomic.Lib

/-- The order of `u8` values. -/
instance instLinearOrderUInt8 : LinearOrder UInt8 where
  le_refl := UInt8.le_refl
  le_trans _ _ _ := UInt8.le_trans
  lt_iff_le_not_ge a b := by
    rw [UInt8.lt_iff_toNat_lt, UInt8.le_iff_toNat_le, UInt8.le_iff_toNat_le]
    omega
  le_antisymm _ _ := UInt8.le_antisymm
  le_total := UInt8.le_total
  toDecidableLE := inferInstance
  toDecidableLT := inferInstance
  toDecidableEq := inferInstance
  min_def _ _ := rfl
  max_def _ _ := rfl
  compare_eq_compareOfLessAndEq _ _ := rfl

/-- The order of `u32` values. -/
instance instLinearOrderUInt32 : LinearOrder UInt32 where
  le_refl := UInt32.le_refl
  le_trans _ _ _ := UInt32.le_trans
  lt_iff_le_not_ge a b := by
    rw [UInt32.lt_iff_toNat_lt, UInt32.le_iff_toNat_le, UInt32.le_iff_toNat_le]
    omega
  le_antisymm _ _ := UInt32.le_antisymm
  le_total := UInt32.le_total
  toDecidableLE := inferInstance
  toDecidableLT := inferInstance
  toDecidableEq := inferInstance
  min_def _ _ := rfl
  max_def _ _ := rfl
  compare_eq_compareOfLessAndEq _ _ := rfl

/-- The order of `u64` values. -/
instance instLinearOrderUInt64 : LinearOrder UInt64 where
  le_refl := UInt64.le_refl
  le_trans _ _ _ := UInt64.le_trans
  lt_iff_le_not_ge a b := by
    rw [UInt64.lt_iff_toNat_lt, UInt64.le_iff_toNat_le, UInt64.le_iff_toNat_le]
    omega
  le_antisymm _ _ := UInt64.le_antisymm
  le_total := UInt64.le_total
  toDecidableLE := inferInstance
  toDecidableLT := inferInstance
  toDecidableEq := inferInstance
  min_def _ _ := rfl
  max_def _ _ := rfl
  compare_eq_compareOfLessAndEq _ _ := rfl

/-- A byte string. -/
abbrev Bytes := List UInt8

instance (priority := 1100) instTransCmpBytes :
    Std.TransCmp (α := Bytes) (@compare _ LinearOrder.toOrd) :=
  inferInstance

/-- A byte array of a fixed length, compared lexicographically. -/
abbrev FixedBytes (length : Nat) := { bytes : Bytes // bytes.length = length }

/-- A signed two's-complement integer of `width` bits, as the integer it denotes. -/
abbrev SignedInt (width : Nat) :=
  { value : Int // -(2 ^ (width - 1)) ≤ value ∧ value < 2 ^ (width - 1) }

/-- The little-endian encoding of `value` in `width` bytes; higher digits are dropped. -/
def leBytes : Nat → Nat → Bytes
  | 0, _ => []
  | width + 1, value => UInt8.ofNat (value % 256) :: leBytes width (value / 256)

/-- The natural number that a little-endian byte string denotes. -/
def leNat : Bytes → Nat
  | [] => 0
  | byte :: bytes => byte.toNat + 256 * leNat bytes

/-- The encoding of a signed integer: its two's complement, little-endian. -/
def SignedInt.leBytes {width : Nat} (value : SignedInt width) : Bytes :=
  Lib.leBytes (width / 8) (value.val % 2 ^ width).toNat

/-- The little-endian bytes of a number are as many as the width. -/
@[simp]
theorem length_leBytes (width value : Nat) : (leBytes width value).length = width := by
  induction width generalizing value with
  | zero => rfl
  | succ width ih =>
      simp only [leBytes, List.length_cons, ih]

/-- Reading back an encoded value gives it modulo the range of the width. -/
theorem leNat_leBytes_mod (width value : Nat) :
    leNat (leBytes width value) = value % 256 ^ width := by
  induction width generalizing value with
  | zero => simp [leBytes, leNat, Nat.mod_one]
  | succ width ih =>
      have hbyte : (UInt8.ofNat (value % 256)).toNat = value % 256 := by
        simp
      rw [leBytes, leNat, ih, hbyte, Nat.pow_succ', Nat.mod_mul]

/-- A value that fits the width is read back unchanged. -/
theorem leNat_leBytes {width value : Nat} (h : value < 256 ^ width) :
    leNat (leBytes width value) = value := by
  rw [leNat_leBytes_mod, Nat.mod_eq_of_lt h]

/-- A byte string denotes a number below the range of its width. -/
theorem leNat_lt (bytes : Bytes) : leNat bytes < 256 ^ bytes.length := by
  induction bytes with
  | nil => simp [leNat]
  | cons byte bytes ih =>
      have hbyte : byte.toNat < 256 := byte.toNat_lt
      simp only [leNat, List.length_cons, Nat.pow_succ']
      omega

/-- Encoding the number that a byte string denotes gives the byte string. -/
theorem leBytes_leNat (bytes : Bytes) : leBytes bytes.length (leNat bytes) = bytes := by
  induction bytes with
  | nil => rfl
  | cons byte bytes ih =>
      have hbyte : byte.toNat < 256 := byte.toNat_lt
      have hmod : (byte.toNat + 256 * leNat bytes) % 256 = byte.toNat := by omega
      have hdiv : (byte.toNat + 256 * leNat bytes) / 256 = leNat bytes := by omega
      simp only [leNat, List.length_cons, leBytes, hmod, hdiv, ih, UInt8.ofNat_toNat]

/-- Values in range with equal encodings are equal. -/
theorem leBytes_inj {width a b : Nat} (ha : a < 256 ^ width) (hb : b < 256 ^ width)
    (h : leBytes width a = leBytes width b) : a = b := by
  rw [← leNat_leBytes ha, ← leNat_leBytes hb, h]

end Ferratomic.Lib
