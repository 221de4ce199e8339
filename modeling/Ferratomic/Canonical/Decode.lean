import Ferratomic.Canonical
import Ferratomic.Lib.Reads

/-!
# Decoding the canonical layout

`Datom.fromCanonicalBytes` reads a datom back from its canonical bytes. The offsets of the source
are the rests of the byte string here. `fromCanonicalBytes_eq_ok` says which byte strings decode to
a datom: its canonical bytes when the name and the payload fit their lengths, and besides them the
spelling of a zero double by the bits of negative zero.
-/

namespace Ferratomic

open Lib

section Parsers

/-- The bounds check and the slice in front of every fixed-width field. -/
def takeBytes (width : Nat) (bytes : Bytes) : Except FerraError (FixedBytes width × Bytes) :=
  if h : bytes.length < width then .error .truncatedChunk
  else .ok (⟨bytes.take width, List.length_take_of_le (Nat.le_of_not_lt h)⟩, bytes.drop width)

/-- A little-endian length, and a slice of that length. -/
def takeCounted (width : Nat) (bytes : Bytes) : Except FerraError (Bytes × Bytes) := do
  let (count, bytes) ← takeBytes width bytes
  if bytes.length < leNat count.val then .error .truncatedChunk
  else .ok (bytes.take (leNat count.val), bytes.drop (leNat count.val))

/-- `core::str::from_utf8` with the error of its callers. -/
def fromUtf8 (data : Bytes) : Except FerraError String :=
  match Codec.ofUtf8 data with
  | some text => .ok text
  | none => .error .nonCanonicalChunk

/-- `parse_entity` -/
def parseEntity (bytes : Bytes) : Except FerraError (EntityId × Bytes) :=
  takeBytes 32 bytes

/-- A counted slice that is valid UTF-8. -/
def takeText (width : Nat) (bytes : Bytes) : Except FerraError (String × Bytes) := do
  let (data, bytes) ← takeCounted width bytes
  let text ← fromUtf8 data
  pure (text, bytes)

/-- `parse_attribute` -/
def parseAttribute (bytes : Bytes) : Except FerraError (Attribute × Bytes) :=
  takeText 2 bytes

/-- `parse_tx`. The three slices fail as the source's one check of 28 bytes does. -/
def parseTx (bytes : Bytes) : Except FerraError (TxId × Bytes) := do
  let (physical, bytes) ← takeBytes 8 bytes
  let (logical, bytes) ← takeBytes 4 bytes
  let (node, bytes) ← takeBytes 16 bytes
  pure (⟨UInt64.ofNat (leNat physical.val), UInt32.ofNat (leNat logical.val), node⟩, bytes)

/-- The operation of a byte. -/
def Op.ofByte (byte : UInt8) : Except FerraError Op :=
  if byte = 0x00 then .ok .assert
  else if byte = 0x01 then .ok .retract
  else .error .nonCanonicalChunk

/-- One byte, or the error of an empty rest. -/
def takeByte : Bytes → Except FerraError (UInt8 × Bytes)
  | [] => .error .truncatedChunk
  | byte :: bytes => .ok (byte, bytes)

/-- `parse_op` -/
def parseOp (bytes : Bytes) : Except FerraError (Op × Bytes) := do
  let (byte, bytes) ← takeByte bytes
  let op ← Op.ofByte byte
  pure (op, bytes)

/-- The integer that the unsigned reading of a two's complement stands for. -/
def twosComplement (width raw : Nat) : Int :=
  if raw < 2 ^ (width - 1) then raw else raw - 2 ^ width

/-- A two's complement number lies in the range of its width. -/
theorem twosComplement_bounds {width raw : Nat} (hwidth : 0 < width) (hraw : raw < 2 ^ width) :
    -(2 ^ (width - 1)) ≤ twosComplement width raw ∧ twosComplement width raw < 2 ^ (width - 1) := by
  obtain ⟨width, rfl⟩ := Nat.exists_eq_succ_of_ne_zero hwidth.ne'
  have hcast : ((2 ^ width : Nat) : Int) = 2 ^ width := by
    push_cast
    rfl
  simp only [twosComplement, Nat.succ_eq_add_one, Nat.add_sub_cancel, pow_succ] at hraw ⊢
  split <;> omega

/-- The number a field of `width` bytes stands for fits that width. -/
theorem leNat_lt_two_pow {width : Nat} (raw : FixedBytes width) :
    leNat raw.val < 2 ^ (8 * width) := by
  have hlt := leNat_lt raw.val
  rwa [raw.property, show 256 = 2 ^ 8 from rfl, ← pow_mul] at hlt

/-- `i64::from_le_bytes` and `i128::from_le_bytes`: the integer of a two's complement. -/
def signedOfLeBytes {width : Nat} (hwidth : 0 < width) (raw : FixedBytes width) :
    SignedInt (8 * width) :=
  ⟨twosComplement (8 * width) (leNat raw.val),
    twosComplement_bounds (by omega) (leNat_lt_two_pow raw)⟩

/-- `read_i64` -/
def readI64 (bytes : Bytes) : Except FerraError (SignedInt 64 × Bytes) := do
  let (raw, bytes) ← takeBytes 8 bytes
  pure (signedOfLeBytes (Nat.succ_pos 7) raw, bytes)

/-- `read_i128` -/
def readI128 (bytes : Bytes) : Except FerraError (SignedInt 128 × Bytes) := do
  let (raw, bytes) ← takeBytes 16 bytes
  pure (signedOfLeBytes (Nat.succ_pos 15) raw, bytes)

/-- `NonNanFloat::new` on the bits of a double. -/
def nonNanOfBits (raw : FixedBytes 8) : Except FerraError NonNanFloat :=
  match Bincode.ofBits (leNat raw.val) with
  | some number => .ok number
  | none => .error .nonCanonicalChunk

/-- `read_f64` and the check that the double is not a NaN. -/
def readF64 (bytes : Bytes) : Except FerraError (NonNanFloat × Bytes) := do
  let (raw, bytes) ← takeBytes 8 bytes
  let number ← nonNanOfBits raw
  pure (number, bytes)

/-- The canonical spellings of the flags. -/
def boolOfByte (byte : UInt8) : Except FerraError Bool :=
  if byte = 0x00 then .ok false
  else if byte = 0x01 then .ok true
  else .error .nonCanonicalChunk

/-- The flag byte of a Boolean value. -/
def readBool (bytes : Bytes) : Except FerraError (Bool × Bytes) := do
  let (byte, bytes) ← takeByte bytes
  let flag ← boolOfByte byte
  pure (flag, bytes)

/-- `parse_varlen_value`: keywords, strings and blobs. -/
def parseVarlenValue (tag : UInt8) (bytes : Bytes) : Except FerraError (Value × Bytes) :=
  if tag = 0x01 then do
    let (text, bytes) ← takeText 2 bytes
    pure (.keyword text, bytes)
  else if tag = 0x02 then do
    let (text, bytes) ← takeText 4 bytes
    pure (.string text, bytes)
  else if tag = 0x08 then do
    let (data, bytes) ← takeCounted 4 bytes
    pure (.bytes data, bytes)
  else .error .nonCanonicalChunk

/-- `parse_fixed_value`: the variants of a fixed width. -/
def parseFixedValue (tag : UInt8) (bytes : Bytes) : Except FerraError (Value × Bytes) :=
  if tag = 0x03 then do
    let (number, bytes) ← readI64 bytes
    pure (.long number, bytes)
  else if tag = 0x04 then do
    let (number, bytes) ← readF64 bytes
    pure (.double number, bytes)
  else if tag = 0x05 then do
    let (flag, bytes) ← readBool bytes
    pure (.bool flag, bytes)
  else if tag = 0x06 then do
    let (millis, bytes) ← readI64 bytes
    pure (.instant millis, bytes)
  else if tag = 0x07 then do
    let (id, bytes) ← takeBytes 16 bytes
    pure (.uuid id, bytes)
  else if tag = 0x09 then do
    let (entity, bytes) ← takeBytes 32 bytes
    pure (.ref entity, bytes)
  else if tag = 0x0A then do
    let (number, bytes) ← readI128 bytes
    pure (.bigInt number, bytes)
  else if tag = 0x0B then do
    let (number, bytes) ← readI128 bytes
    pure (.bigDec number, bytes)
  else .error .nonCanonicalChunk

/-- `parse_canonical_value` -/
def parseCanonicalValue : Bytes → Except FerraError (Value × Bytes)
  | [] => .error .truncatedChunk
  | tag :: bytes =>
      if tag = 0x01 ∨ tag = 0x02 ∨ tag = 0x08 then parseVarlenValue tag bytes
      else if 0x03 ≤ tag ∧ tag ≤ 0x07 ∨ 0x09 ≤ tag ∧ tag ≤ 0x0B then parseFixedValue tag bytes
      else .error .nonCanonicalChunk

/-- The five fields of a datom in a row. -/
def parseFields (bytes : Bytes) : Except FerraError (Datom × Bytes) := do
  let (entity, bytes) ← parseEntity bytes
  let (attr, bytes) ← parseAttribute bytes
  let (value, bytes) ← parseCanonicalValue bytes
  let (tx, bytes) ← parseTx bytes
  let (op, bytes) ← parseOp bytes
  pure (⟨entity, attr, value, tx, op⟩, bytes)

/-- `from_canonical_bytes`: the five fields and nothing after them. -/
def Datom.fromCanonicalBytes (bytes : Bytes) : Except FerraError Datom := do
  let (d, bytes) ← parseFields bytes
  if bytes ≠ [] then .error .trailingBytes
  else .ok d

end Parsers

section Fields

/-- `take_bytes` takes exactly the bytes it returns. -/
theorem reads_takeBytes (width : Nat) :
    Reads (takeBytes width) fun value spelling => spelling = value.val := by
  intro bytes value rest
  rw [takeBytes]
  constructor
  · intro hread
    split at hread
    · cases hread
    · cases hread
      exact ⟨_, rfl, (List.take_append_drop _ _).symm⟩
  · rintro ⟨_, rfl, rfl⟩
    obtain ⟨value, rfl⟩ := value
    have hlength : ¬ (value ++ rest).length < value.length := by
      rw [List.length_append]
      omega
    rw [dif_neg hlength]
    simp only [List.take_left, List.drop_left]

/-- `take_byte` takes exactly the byte it returns. -/
theorem reads_takeByte : Reads takeByte fun byte spelling => spelling = [byte] := by
  intro bytes value rest
  cases bytes with
  | nil => simp [takeByte]
  | cons byte bytes =>
      simp only [takeByte, Except.ok.injEq, Prod.mk.injEq, exists_eq_left, List.singleton_append,
        List.cons.injEq]

/-- The counted data has the length in front of it, which therefore fits its width. -/
theorem reads_takeCounted (width : Nat) :
    Reads (takeCounted width) fun data spelling =>
      data.length < 256 ^ width ∧ spelling = leBytes width data.length ++ data := by
  -- the length is read first, and decides how much follows
  have hnext (count : FixedBytes width) :
      Reads (fun bytes : Bytes => if bytes.length < leNat count.val then
          (.error .truncatedChunk : Except FerraError (Bytes × Bytes))
        else .ok (bytes.take (leNat count.val), bytes.drop (leNat count.val)))
        fun data spelling => data.length = leNat count.val ∧ spelling = data := by
    intro bytes data rest
    beta_reduce
    constructor
    · intro hread
      split at hread
      · cases hread
      next hlength =>
        cases hread
        exact ⟨_, ⟨List.length_take_of_le (Nat.le_of_not_lt hlength), rfl⟩,
          (List.take_append_drop _ _).symm⟩
    · rintro ⟨_, ⟨hlength, rfl⟩, rfl⟩
      rw [← hlength, if_neg (by rw [List.length_append]; omega), List.take_left, List.drop_left]
  refine ((reads_takeBytes width).bind hnext).congr fun data spelling => ?_
  constructor
  · rintro ⟨count, _, _, rfl, ⟨hlength, rfl⟩, rfl⟩
    have hlt := leNat_lt count.val
    have hcount := leBytes_leNat count.val
    rw [count.property] at hlt hcount
    rw [hlength, hcount]
    exact ⟨hlt, rfl⟩
  · rintro ⟨hlt, rfl⟩
    exact ⟨⟨leBytes width data.length, length_leBytes _ _⟩, _, data, rfl,
      ⟨(leNat_leBytes hlt).symm, rfl⟩, rfl⟩

/-- UTF-8 decoding returns a text exactly on the bytes of that text. -/
theorem fromUtf8_eq_ok {data : Bytes} {text : String} :
    fromUtf8 data = .ok text ↔ utf8Bytes text = data := by
  have hvalid : Codec.ofUtf8 data = some text ↔ utf8Bytes text = data := by
    rw [Codec.ofUtf8, utf8Bytes_eq]
    constructor
    · intro h
      unfold String.fromUTF8? at h
      split at h
      · cases h
        rfl
      · cases h
    · rintro rfl
      rw [Array.toArray_toList]
      exact dif_pos text.isValidUTF8
  rw [← hvalid, fromUtf8]
  cases Codec.ofUtf8 data with
  | none => simp
  | some found => simp

/-- `take_text` takes a little-endian length and the bytes of the text it returns. -/
theorem reads_takeText (width : Nat) :
    Reads (takeText width) fun text spelling =>
      (utf8Bytes text).length < 256 ^ width ∧
        spelling = leBytes width (utf8Bytes text).length ++ utf8Bytes text := by
  refine ((reads_takeCounted width).check fromUtf8).congr fun text spelling => ?_
  constructor
  · rintro ⟨data, htext, hspelling⟩
    obtain rfl := fromUtf8_eq_ok.mp htext
    exact hspelling
  · intro hspelling
    exact ⟨utf8Bytes text, fromUtf8_eq_ok.mpr rfl, hspelling⟩

/-- A saturating length that data fits is its length. -/
theorem counted_iff {width bound : Nat} (hbound : 256 ^ width = bound + 1) {data spelling : Bytes} :
    (data.length < 256 ^ width ∧ spelling = leBytes width data.length ++ data) ↔
      data.length ≤ bound ∧ spelling = leBytes width (min data.length bound) ++ data := by
  rw [hbound, Nat.lt_succ_iff]
  refine and_congr_right fun hle => ?_
  rw [min_eq_left hle]

/-- The attribute field reads back a name of at most the maximal length. -/
theorem reads_parseAttribute :
    Reads parseAttribute fun name spelling =>
      (utf8Bytes name).length ≤ maxAttributeBytes ∧ spelling = canonicalAttrBytes name :=
  (reads_takeText 2).congr fun _ _ => counted_iff rfl

/-- The transaction field takes the canonical bytes of the identifier it returns. -/
theorem reads_parseTx : Reads parseTx fun tx spelling => spelling = tx.canonicalBytes := by
  refine ((reads_takeBytes 8).bind fun physical => (reads_takeBytes 4).bind fun logical =>
    (reads_takeBytes 16).map fun node => (⟨UInt64.ofNat (leNat physical.val),
      UInt32.ofNat (leNat logical.val), node⟩ : TxId)).congr fun tx spelling => ?_
  constructor
  · rintro ⟨physical, _, _, rfl, ⟨logical, _, _, rfl, ⟨node, rfl, rfl⟩, rfl⟩, rfl⟩
    have hphysical := leNat_lt physical.val
    have hlogical := leNat_lt logical.val
    have hback := leBytes_leNat physical.val
    have hback' := leBytes_leNat logical.val
    rw [physical.property] at hphysical hback
    rw [logical.property] at hlogical hback'
    simp only [TxId.canonicalBytes]
    rw [UInt64.toNat_ofNat_of_lt' hphysical, UInt32.toNat_ofNat_of_lt' hlogical, hback, hback',
      List.append_assoc]
  · rintro rfl
    have hphysical : leNat (leBytes 8 tx.physical.toNat) = tx.physical.toNat :=
      leNat_leBytes tx.physical.toNat_lt
    have hlogical : leNat (leBytes 4 tx.logical.toNat) = tx.logical.toNat :=
      leNat_leBytes tx.logical.toNat_lt
    refine ⟨⟨leBytes 8 tx.physical.toNat, length_leBytes _ _⟩, _, _, rfl,
      ⟨⟨leBytes 4 tx.logical.toNat, length_leBytes _ _⟩, _, _, rfl, ⟨tx.node, ?_, rfl⟩, rfl⟩, ?_⟩
    · simp only [hphysical, hlogical, UInt64.ofNat_toNat, UInt32.ofNat_toNat]
    · simp only [TxId.canonicalBytes, List.append_assoc]

/-- A byte decodes to an operation exactly when it is that operation's byte. -/
theorem Op.ofByte_eq_ok {byte : UInt8} {op : Op} :
    Op.ofByte byte = .ok op ↔ byte = op.canonicalByte := by
  rw [Op.ofByte]
  cases op <;> split_ifs <;> simp_all [Op.canonicalByte]

/-- The operation field takes the byte of the operation it returns. -/
theorem reads_parseOp : Reads parseOp fun op spelling => spelling = [op.canonicalByte] := by
  refine (reads_takeByte.check Op.ofByte).congr fun op spelling => ?_
  simp only [Op.ofByte_eq_ok, exists_eq_left]

/-- The two's complement is read back as it is written. -/
theorem signedOfLeBytes_eq {width : Nat} (hwidth : 0 < width) {raw : FixedBytes width}
    {value : SignedInt (8 * width)} :
    signedOfLeBytes hwidth raw = value ↔ raw.val = value.leBytes := by
  have hdiv : 8 * width / 8 = width := by omega
  have hpow : 256 ^ width = 2 ^ (8 * width) := by rw [show 256 = 2 ^ 8 from rfl, ← pow_mul]
  constructor
  · rintro rfl
    have hlt := leNat_lt_two_pow raw
    have hback := leBytes_leNat raw.val
    rw [raw.property] at hback
    have hmod : ((signedOfLeBytes hwidth raw).val % 2 ^ (8 * width)).toNat = leNat raw.val := by
      have hcast : ((2 ^ (8 * width) : Nat) : Int) = 2 ^ (8 * width) := by
        push_cast
        rfl
      simp only [signedOfLeBytes, twosComplement]
      split
      · rw [Int.emod_eq_of_lt (by omega) (by omega)]
        exact Int.toNat_natCast _
      · rw [Int.sub_emod_right, Int.emod_eq_of_lt (by omega) (by omega)]
        exact Int.toNat_natCast _
    rw [SignedInt.leBytes, hmod, hdiv, hback]
  · intro hraw
    have hread := Bincode.ofTwosComplement_emod (by omega) value
    have hvalue : leNat raw.val = (value.val % 2 ^ (8 * width)).toNat := by
      rw [hraw, SignedInt.leBytes, hdiv]
      exact leNat_leBytes (hpow ▸ Bincode.twosComplement_lt value)
    rw [← hvalue, Bincode.ofTwosComplement] at hread
    simp only [Option.dite_none_right_eq_some, Option.some.injEq] at hread
    obtain ⟨_, hread⟩ := hread
    exact hread

/-- The integers of any width are read from their two's complement. -/
theorem reads_signed {width : Nat} (hwidth : 0 < width) :
    Reads (fun bytes : Bytes => takeBytes width bytes >>= fun read =>
        pure (signedOfLeBytes hwidth read.1, read.2))
      fun number spelling => spelling = number.leBytes := by
  refine ((reads_takeBytes width).map (signedOfLeBytes hwidth)).congr fun number spelling => ?_
  constructor
  · rintro ⟨raw, hraw, rfl⟩
    exact (signedOfLeBytes_eq hwidth).mp hraw
  · rintro rfl
    have hlength : number.leBytes.length = width := by
      rw [SignedInt.leBytes, length_leBytes, Nat.mul_div_cancel_left width (by decide)]
    exact ⟨⟨number.leBytes, hlength⟩, (signedOfLeBytes_eq hwidth).mpr rfl, rfl⟩

/-- `read_i64` takes the eight little-endian bytes of the number it returns. -/
theorem reads_readI64 : Reads readI64 fun number spelling => spelling = number.leBytes :=
  reads_signed (by decide)

/-- `read_i128` takes the sixteen little-endian bytes of the number it returns. -/
theorem reads_readI128 : Reads readI128 fun number spelling => spelling = number.leBytes :=
  reads_signed (by decide)

/-- Every double has one spelling, except that zero has a second one. -/
theorem ofBits_eq_some {raw : Nat} (hraw : raw < 2 ^ 64) {number : NonNanFloat} :
    Bincode.ofBits raw = some number ↔
      raw = number.toBits ∨ number = ⟨0, by decide⟩ ∧ raw = 2 ^ 63 := by
  obtain ⟨number, hlow, hhigh⟩ := number
  simp only [Bincode.ofBits, NonNanFloat.toBits, Option.dite_none_right_eq_some,
    Option.some.injEq, Subtype.mk.injEq]
  constructor
  · rintro ⟨_, hnumber⟩
    split at hnumber <;> split <;> omega
  · intro hraw
    have hnumber : (if raw < 2 ^ 63 then (raw : Int) else 2 ^ 63 - raw) = number := by
      split at hraw <;> split <;> omega
    rw [hnumber]
    exact ⟨⟨hlow, hhigh⟩, rfl⟩

/-- Eight bytes decode to a float exactly when their bits are of a number that is not NaN. -/
theorem nonNanOfBits_eq_ok {raw : FixedBytes 8} {number : NonNanFloat} :
    nonNanOfBits raw = .ok number ↔ Bincode.ofBits (leNat raw.val) = some number := by
  rw [nonNanOfBits]
  cases Bincode.ofBits (leNat raw.val) with
  | none => simp
  | some found => simp

/-- The bytes of the bits of negative zero. -/
def negativeZeroBits : Bytes :=
  leBytes 8 (2 ^ 63)

/-- `read_f64` takes the bits of the float it returns, or those of the negative zero. -/
theorem reads_readF64 :
    Reads readF64 fun number spelling =>
      spelling = leBytes 8 number.toBits ∨
        number = ⟨0, by decide⟩ ∧ spelling = negativeZeroBits := by
  refine ((reads_takeBytes 8).check nonNanOfBits).congr fun number spelling => ?_
  have hbits : number.toBits < 256 ^ 8 := by
    have := number.property
    rw [NonNanFloat.toBits]
    split <;> omega
  constructor
  · rintro ⟨raw, hnumber, rfl⟩
    have hback := leBytes_leNat raw.val
    rw [raw.property] at hback
    rcases (ofBits_eq_some (leNat_lt_two_pow raw)).mp (nonNanOfBits_eq_ok.mp hnumber) with
      hraw | ⟨hzero, hraw⟩
    · rw [← hback, hraw]
      exact .inl rfl
    · rw [← hback, hraw]
      exact .inr ⟨hzero, rfl⟩
  · rintro (rfl | ⟨hzero, rfl⟩)
    · refine ⟨⟨leBytes 8 number.toBits, length_leBytes _ _⟩, nonNanOfBits_eq_ok.mpr ?_, rfl⟩
      rw [leNat_leBytes hbits]
      exact (ofBits_eq_some hbits).mpr (.inl rfl)
    · refine ⟨⟨negativeZeroBits, length_leBytes _ _⟩, nonNanOfBits_eq_ok.mpr ?_, rfl⟩
      show Bincode.ofBits (leNat (leBytes 8 (2 ^ 63))) = some number
      rw [leNat_leBytes (by decide)]
      exact (ofBits_eq_some (by decide)).mpr (.inr ⟨hzero, rfl⟩)

/-- A byte decodes to a flag exactly when it is the 0 or the 1 that stands for it. -/
theorem boolOfByte_eq_ok {byte : UInt8} {flag : Bool} :
    boolOfByte byte = .ok flag ↔ byte = if flag then 1 else 0 := by
  rw [boolOfByte]
  cases flag <;> split_ifs <;> simp_all

/-- `read_bool` takes the one byte that stands for the flag it returns. -/
theorem reads_readBool :
    Reads readBool fun flag spelling => spelling = [if flag then 1 else 0] := by
  refine (reads_takeByte.check boolOfByte).congr fun flag spelling => ?_
  simp only [boolOfByte_eq_ok, exists_eq_left]

end Fields

section Values

/-- A value of zero, written by the bits of negative zero. -/
def negativeZeroBytes : Bytes :=
  0x04 :: negativeZeroBits

/-- The byte strings that decode to a value. -/
def Value.Spells (value : Value) (spelling : Bytes) : Prop :=
  (value.Encodable ∧ spelling = value.canonicalBytes) ∨
    (value = .double ⟨0, by decide⟩ ∧ spelling = negativeZeroBytes)

/-- A spelling starts with the tag of the value. -/
theorem Value.Spells.tag_eq {value : Value} {tag : UInt8} {spelling : Bytes}
    (h : value.Spells (tag :: spelling)) : tag = UInt8.ofNat value.variant := by
  rcases h with ⟨_, hspelling⟩ | ⟨rfl, hspelling⟩
  · have hhead := value.head?_canonicalBytes []
    rw [List.append_nil, ← hspelling] at hhead
    exact Option.some.inj hhead
  · exact (List.cons.inj hspelling).1

/-- No value is spelt by the empty byte string. -/
theorem Value.not_spells_nil (value : Value) : ¬ value.Spells [] := by
  rintro (⟨_, hspelling⟩ | ⟨_, hspelling⟩)
  · have hhead := value.head?_canonicalBytes []
    rw [List.append_nil, ← hspelling] at hhead
    cases hhead
  · cases hspelling

/-- The spellings with a tag are those of the values of its variant. -/
theorem spells_cons_iff {α : Type} {make : α → Value} {variant : Nat} (hvariant : variant < 256)
    {spells : α → Bytes → Prop}
    (hmake : ∀ value : Value, value.variant = variant → ∃ payload, make payload = value)
    (hspells : ∀ payload spelling, spells payload spelling ↔
      (make payload).Spells (UInt8.ofNat variant :: spelling)) (value : Value) (spelling : Bytes) :
    (∃ payload, make payload = value ∧ spells payload spelling) ↔
      value.Spells (UInt8.ofNat variant :: spelling) := by
  constructor
  · rintro ⟨payload, rfl, h⟩
    exact (hspells payload spelling).mp h
  · intro h
    have htag := congrArg UInt8.toNat h.tag_eq
    rw [UInt8.toNat_ofNat', UInt8.toNat_ofNat', Nat.mod_eq_of_lt hvariant,
      Nat.mod_eq_of_lt value.variant_lt] at htag
    obtain ⟨payload, rfl⟩ := hmake value htag.symm
    exact ⟨payload, rfl, (hspells payload spelling).mpr h⟩

/-- Only a double has a spelling that is not canonical. -/
theorem Value.spells_iff {value : Value} (h : value.variant ≠ 4) {spelling : Bytes} :
    value.Spells spelling ↔ value.Encodable ∧ spelling = value.canonicalBytes := by
  constructor
  · rintro (hcanonical | ⟨rfl, _⟩)
    · exact hcanonical
    · exact absurd rfl h
  · exact .inl

/-- Behind its tag a value other than a float has one spelling, its canonical payload. -/
theorem Value.spells_tagged {value : Value} (h : value.variant ≠ 4) {tag : UInt8}
    {payload spelling : Bytes} (hbytes : value.canonicalBytes = tag :: payload) :
    value.Spells (tag :: spelling) ↔ value.Encodable ∧ spelling = payload := by
  rw [Value.spells_iff h, hbytes, List.cons.injEq]
  simp only [true_and]

/-- A variant of a fixed width: every value of it fits and has one spelling. -/
theorem reads_variant {α : Type} {parse : Bytes → Except FerraError (α × Bytes)}
    {payload : α → Bytes} (h : Reads parse fun a spelling => spelling = payload a)
    {make : α → Value} (variant : Nat) (hvariant : variant < 256) (hne : ∀ a, (make a).variant ≠ 4)
    (hmake : ∀ value : Value, value.variant = variant → ∃ a, make a = value)
    (hfits : ∀ a, (make a).Encodable)
    (hbytes : ∀ a, (make a).canonicalBytes = UInt8.ofNat variant :: payload a) :
    Reads (fun bytes => parse bytes >>= fun read => pure (make read.1, read.2))
      fun value spelling => value.Spells (UInt8.ofNat variant :: spelling) := by
  refine (h.map make).congr (spells_cons_iff hvariant hmake fun a spelling => ?_)
  rw [Value.spells_tagged (hne a) (hbytes a)]
  simp only [hfits a, true_and]

/-- Behind a tag of variable length the parser takes a spelling of the value it returns. -/
theorem reads_parseVarlenValue {tag : UInt8} (h : tag = 0x01 ∨ tag = 0x02 ∨ tag = 0x08) :
    Reads (parseVarlenValue tag) fun value spelling => value.Spells (tag :: spelling) := by
  rcases h with rfl | rfl | rfl
  · refine ((reads_takeText 2).map Value.keyword).congr
      (@spells_cons_iff _ _ 1 (by decide) _ ?_ fun text spelling => ?_)
    · intro value hvariant
      cases value <;> first | exact ⟨_, rfl⟩ | cases hvariant
    · have htagged := @Value.spells_tagged (.keyword text) (by simp [Value.variant]) 0x01 _ spelling
        rfl
      exact (counted_iff rfl).trans htagged.symm
  · refine ((reads_takeText 4).map Value.string).congr
      (@spells_cons_iff _ _ 2 (by decide) _ ?_ fun text spelling => ?_)
    · intro value hvariant
      cases value <;> first | exact ⟨_, rfl⟩ | cases hvariant
    · have htagged := @Value.spells_tagged (.string text) (by simp [Value.variant]) 0x02 _ spelling
        rfl
      exact (counted_iff rfl).trans htagged.symm
  · refine ((reads_takeCounted 4).map Value.bytes).congr
      (@spells_cons_iff _ _ 8 (by decide) _ ?_ fun data spelling => ?_)
    · intro value hvariant
      cases value <;> first | exact ⟨_, rfl⟩ | cases hvariant
    · have htagged := @Value.spells_tagged (.bytes data) (by simp [Value.variant]) 0x08 _ spelling
        rfl
      exact (counted_iff rfl).trans htagged.symm

/-- Behind a tag of fixed length the parser takes a spelling of the value it returns. -/
theorem reads_parseFixedValue {tag : UInt8}
    (h : tag ∈ ([0x03, 0x04, 0x05, 0x06, 0x07, 0x09, 0x0A, 0x0B] : List UInt8)) :
    Reads (parseFixedValue tag) fun value spelling => value.Spells (tag :: spelling) := by
  simp only [List.mem_cons, List.not_mem_nil, or_false] at h
  rcases h with rfl | rfl | rfl | rfl | rfl | rfl | rfl | rfl
  · refine reads_variant reads_readI64 3 (by decide) (fun _ => by simp [Value.variant]) ?_
      (fun _ => trivial) (fun _ => rfl)
    intro value hvariant
    cases value <;> first | exact ⟨_, rfl⟩ | cases hvariant
  · refine (reads_readF64.map Value.double).congr
      (@spells_cons_iff _ _ 4 (by decide) _ ?_ fun number spelling => ?_)
    · intro value hvariant
      cases value <;> first | exact ⟨_, rfl⟩ | cases hvariant
    · simp only [Value.Spells, Value.Encodable, true_and, Value.double.injEq, negativeZeroBytes]
      exact or_congr (by simp [Value.canonicalBytes]) (and_congr_right fun _ => by simp)
  · refine reads_variant reads_readBool 5 (by decide) (fun _ => by simp [Value.variant]) ?_
      (fun _ => trivial) (fun _ => rfl)
    intro value hvariant
    cases value <;> first | exact ⟨_, rfl⟩ | cases hvariant
  · refine reads_variant reads_readI64 6 (by decide) (fun _ => by simp [Value.variant]) ?_
      (fun _ => trivial) (fun _ => rfl)
    intro value hvariant
    cases value <;> first | exact ⟨_, rfl⟩ | cases hvariant
  · refine reads_variant (reads_takeBytes 16) 7 (by decide) (fun _ => by simp [Value.variant]) ?_
      (fun _ => trivial) (fun _ => rfl)
    intro value hvariant
    cases value <;> first | exact ⟨_, rfl⟩ | cases hvariant
  · refine reads_variant (reads_takeBytes 32) 9 (by decide) (fun _ => by simp [Value.variant]) ?_
      (fun _ => trivial) (fun _ => rfl)
    intro value hvariant
    cases value <;> first | exact ⟨_, rfl⟩ | cases hvariant
  · refine reads_variant reads_readI128 10 (by decide) (fun _ => by simp [Value.variant]) ?_
      (fun _ => trivial) (fun _ => rfl)
    intro value hvariant
    cases value <;> first | exact ⟨_, rfl⟩ | cases hvariant
  · refine reads_variant reads_readI128 11 (by decide) (fun _ => by simp [Value.variant]) ?_
      (fun _ => trivial) (fun _ => rfl)
    intro value hvariant
    cases value <;> first | exact ⟨_, rfl⟩ | cases hvariant

/-- A tag outside the table is the tag of no value. -/
theorem Value.variant_mem (value : Value) :
    UInt8.ofNat value.variant ∈
      ([0x01, 0x02, 0x03, 0x04, 0x05, 0x06, 0x07, 0x08, 0x09, 0x0A, 0x0B] : List UInt8) := by
  unfold Value.variant
  split <;> decide

/-- The tags that `parse_canonical_value` hands to `parse_fixed_value`. -/
theorem fixed_tag_mem (tag : UInt8) :
    0x03 ≤ tag ∧ tag ≤ 0x07 ∨ 0x09 ≤ tag ∧ tag ≤ 0x0B →
      tag ∈ ([0x03, 0x04, 0x05, 0x06, 0x07, 0x09, 0x0A, 0x0B] : List UInt8) := by
  revert tag
  decide +kernel

/-- The value field takes a spelling of the value it returns. -/
theorem reads_parseCanonicalValue : Reads parseCanonicalValue Value.Spells := by
  refine Reads.tagged (fun tag => ?_) Value.not_spells_nil
  by_cases hvarlen : tag = 0x01 ∨ tag = 0x02 ∨ tag = 0x08
  · simp only [if_pos hvarlen]
    exact reads_parseVarlenValue hvarlen
  simp only [if_neg hvarlen]
  by_cases hfixed : 0x03 ≤ tag ∧ tag ≤ 0x07 ∨ 0x09 ≤ tag ∧ tag ≤ 0x0B
  · simp only [if_pos hfixed]
    exact reads_parseFixedValue (fixed_tag_mem tag hfixed)
  simp only [if_neg hfixed]
  intro bytes value rest
  constructor
  · intro hfail
    cases hfail
  · rintro ⟨spelling, hspells, _⟩
    have hmem := value.variant_mem
    rw [← hspells.tag_eq] at hmem
    simp only [List.mem_cons, List.not_mem_nil, or_false] at hmem
    rcases hmem with rfl | rfl | rfl | rfl | rfl | rfl | rfl | rfl | rfl | rfl | rfl <;>
      first | exact absurd (by decide) hvarlen | exact absurd (by decide) hfixed

end Values

section Datoms

/-- The bytes of the fields of a datom, with a spelling of its value. -/
def Datom.bytesWith (d : Datom) (spelling : Bytes) : Bytes :=
  d.entity.val ++ (canonicalAttrBytes d.attr ++
    (spelling ++ (d.tx.canonicalBytes ++ [d.op.canonicalByte])))

/-- The canonical bytes of a datom hold the canonical bytes of its value. -/
theorem Datom.canonicalBytes_eq (d : Datom) :
    d.canonicalBytes = d.bytesWith d.value.canonicalBytes := by
  simp only [Datom.canonicalBytes, Datom.bytesWith, List.append_assoc]

/-- The parser takes the bytes of the datom it returns, with some spelling of its value. -/
theorem reads_parseFields :
    Reads parseFields fun d spelling => (utf8Bytes d.attr).length ≤ maxAttributeBytes ∧
      ∃ value, d.value.Spells value ∧ spelling = d.bytesWith value := by
  refine ((reads_takeBytes 32).bind fun entity => reads_parseAttribute.bind fun attr =>
    reads_parseCanonicalValue.bind fun value => reads_parseTx.bind fun tx =>
      reads_parseOp.map fun op => (⟨entity, attr, value, tx, op⟩ : Datom)).congr
        fun d spelling => ?_
  constructor
  · rintro ⟨entity, _, _, rfl, ⟨attr, _, _, ⟨hattr, rfl⟩, ⟨value, spelling, _, hspells,
      ⟨tx, _, _, rfl, ⟨op, rfl, rfl⟩, rfl⟩, rfl⟩, rfl⟩, rfl⟩
    exact ⟨hattr, spelling, hspells, rfl⟩
  · rintro ⟨hattr, spelling, hspells, rfl⟩
    exact ⟨d.entity, _, _, rfl, ⟨d.attr, _, _, ⟨hattr, rfl⟩, ⟨d.value, spelling, _, hspells,
      ⟨d.tx, _, _, rfl, ⟨d.op, rfl, rfl⟩, rfl⟩, rfl⟩, rfl⟩, rfl⟩

/-- The byte strings that decode to a datom: the bytes of its fields, with any spelling of its
value. -/
theorem fromCanonicalBytes_eq_ok {bytes : Bytes} {d : Datom} :
    Datom.fromCanonicalBytes bytes = .ok d ↔
      (utf8Bytes d.attr).length ≤ maxAttributeBytes ∧
        ∃ value, d.value.Spells value ∧ bytes = d.bytesWith value := by
  have hread := reads_parseFields bytes d []
  simp only [List.append_nil, exists_eq_right'] at hread
  rw [← hread, Datom.fromCanonicalBytes]
  constructor
  · intro hok
    cases hfields : parseFields bytes with
    | error e =>
        rw [hfields] at hok
        cases hok
    | ok read =>
        obtain ⟨found, rest⟩ := read
        rw [hfields] at hok
        cases rest with
        | nil =>
            cases hok
            rfl
        | cons byte rest => cases hok
  · intro hfields
    rw [hfields]
    rfl

/-- A value that was decoded fits its length. -/
theorem encodable_of_fromCanonicalBytes {bytes : Bytes} {d : Datom}
    (h : Datom.fromCanonicalBytes bytes = .ok d) : d.value.Encodable := by
  obtain ⟨_, spelling, hspells | ⟨hdouble, _⟩, _⟩ := fromCanonicalBytes_eq_ok.mp h
  · exact hspells.1
  · rw [hdouble]
    exact trivial

/-- Decoding undoes the canonical encoding exactly when the keyword in the datom, if there is one,
fits the two bytes of its length. -/
theorem canonical_round_trip_iff (d : Datom)
    (hattr : (utf8Bytes d.attr).length ≤ maxAttributeBytes)
    (hstring : ∀ text, d.value = .string text → (utf8Bytes text).length < 2 ^ 32)
    (hbytes : ∀ blob, d.value = .bytes blob → blob.length < 2 ^ 32) :
    Datom.fromCanonicalBytes d.canonicalBytes = .ok d ↔
      ∀ text, d.value = .keyword text → (utf8Bytes text).length ≤ 65535 := by
  constructor
  · intro hok text htext
    have hfits := encodable_of_fromCanonicalBytes hok
    rw [htext] at hfits
    exact hfits
  · intro hkeyword
    have hfits : d.value.Encodable := by
      cases hvalue : d.value with
      | keyword text => exact hkeyword text hvalue
      | string text => exact Nat.le_sub_one_of_lt (hstring text hvalue)
      | bytes blob => exact Nat.le_sub_one_of_lt (hbytes blob hvalue)
      | _ => exact trivial
    exact fromCanonicalBytes_eq_ok.mpr
      ⟨hattr, d.value.canonicalBytes, .inl ⟨hfits, rfl⟩, d.canonicalBytes_eq⟩

/-- A datom with a given value, and zeros in the fields of a fixed width. -/
def datomWith (value : Value) : Datom :=
  ⟨⟨List.replicate 32 0, rfl⟩, "a", value, ⟨0, 0, NodeId.zero⟩, .assert⟩

/-- The attribute of the sample datom is within the maximal length. -/
theorem length_datomWith_attr (value : Value) :
    (utf8Bytes (datomWith value).attr).length ≤ maxAttributeBytes := by
  rw [utf8Bytes_eq]
  exact Nat.le_of_ble_eq_true rfl

/-- A string, a blob and a keyword are decoded. -/
theorem canonical_round_trip_texts :
    Datom.fromCanonicalBytes (datomWith (.string "a name")).canonicalBytes =
        .ok (datomWith (.string "a name")) ∧
      Datom.fromCanonicalBytes (datomWith (.bytes [1, 2])).canonicalBytes =
        .ok (datomWith (.bytes [1, 2])) ∧
      Datom.fromCanonicalBytes (datomWith (.keyword "db/ident")).canonicalBytes =
        .ok (datomWith (.keyword "db/ident")) := by
  refine ⟨?_, ?_, ?_⟩
  · refine (canonical_round_trip_iff (datomWith (.string "a name")) (length_datomWith_attr _)
      (fun text htext => ?_) nofun).mpr nofun
    rw [← Value.string.inj htext, utf8Bytes_eq]
    exact Nat.lt_of_sub_eq_succ rfl
  · refine (canonical_round_trip_iff (datomWith (.bytes [1, 2])) (length_datomWith_attr _)
      nofun (fun blob hblob => ?_)).mpr nofun
    rw [← Value.bytes.inj hblob]
    decide
  · refine (canonical_round_trip_iff (datomWith (.keyword "db/ident")) (length_datomWith_attr _)
      nofun nofun).mpr fun text htext => ?_
    rw [← Value.keyword.inj htext, utf8Bytes_eq]
    exact Nat.le_of_ble_eq_true rfl

/-- A keyword one byte longer than its length can say. -/
def longKeyword : String :=
  String.ofList (List.replicate 65536 'a')

/-- A text of `count` letters `a` has `count` bytes. -/
theorem length_utf8Bytes_replicate (count : Nat) :
    (utf8Bytes (String.ofList (List.replicate count 'a'))).length = count := by
  have hbyte : (String.utf8EncodeChar 'a').length = 1 := rfl
  rw [utf8Bytes_eq_flatMap, String.toList_ofList, List.length_flatMap, List.map_replicate, hbyte,
    List.sum_replicate, smul_eq_mul, mul_one]

/-- No byte string decodes to a keyword of more than 65535 bytes. -/
theorem keyword_not_decoded {text : String} (h : 65535 < (utf8Bytes text).length)
    (bytes : Bytes) : Datom.fromCanonicalBytes bytes ≠ .ok (datomWith (.keyword text)) := by
  intro hok
  have hfits : (utf8Bytes text).length ≤ 65535 := encodable_of_fromCanonicalBytes hok
  omega

/-- A keyword of 65536 bytes is not read back from its canonical bytes. -/
theorem longKeyword_no_round_trip :
    (utf8Bytes (datomWith (.keyword longKeyword)).attr).length ≤ maxAttributeBytes ∧
      Datom.fromCanonicalBytes (datomWith (.keyword longKeyword)).canonicalBytes ≠
        .ok (datomWith (.keyword longKeyword)) := by
  have hlength : (utf8Bytes longKeyword).length = 65536 := length_utf8Bytes_replicate 65536
  have hlong : 65535 < (utf8Bytes longKeyword).length := by
    rw [hlength]
    exact Nat.lt_succ_self _
  exact ⟨length_datomWith_attr (.keyword longKeyword), keyword_not_decoded hlong _⟩

/-- The value of an encoded datom, in front of the timestamp and the operation. -/
def valueField (bytes : Bytes) : Bytes :=
  (bytes.drop 34).drop (leNat ((bytes.drop 32).take 2))

/-- The value is a double, written by the bits of negative zero. -/
def NegativeZero (bytes : Bytes) : Prop :=
  (valueField bytes).take 9 = negativeZeroBytes

instance (bytes : Bytes) : Decidable (NegativeZero bytes) :=
  inferInstanceAs (Decidable (_ = _))

/-- The value field of a datom's bytes starts with the spelling written there. -/
theorem valueField_bytesWith {d : Datom} (hattr : (utf8Bytes d.attr).length ≤ maxAttributeBytes)
    (spelling : Bytes) :
    valueField (d.bytesWith spelling) =
      spelling ++ (d.tx.canonicalBytes ++ [d.op.canonicalByte]) := by
  obtain ⟨_, hcount⟩ := (counted_iff rfl).mpr ⟨hattr, (rfl : canonicalAttrBytes d.attr = _)⟩
  have hfits : (utf8Bytes d.attr).length < 256 ^ 2 := Nat.lt_succ_of_le hattr
  have hentity := d.entity.property
  have hname : (d.bytesWith spelling).drop 32 = leBytes 2 (utf8Bytes d.attr).length ++
      (utf8Bytes d.attr ++ (spelling ++ (d.tx.canonicalBytes ++ [d.op.canonicalByte]))) := by
    rw [Datom.bytesWith, List.drop_left' hentity, hcount, List.append_assoc]
  have hrest : (d.bytesWith spelling).drop 34 =
      utf8Bytes d.attr ++ (spelling ++ (d.tx.canonicalBytes ++ [d.op.canonicalByte])) := by
    rw [show 34 = 32 + 2 from rfl, ← List.drop_drop, hname, List.drop_left' (length_leBytes _ _)]
  rw [valueField, hname, hrest, List.take_left' (length_leBytes _ _), leNat_leBytes hfits,
    List.drop_left]

/-- The normalised bits are never those of negative zero. -/
theorem NonNanFloat.toBits_ne (number : NonNanFloat) :
    leBytes 8 number.toBits ≠ negativeZeroBits := by
  intro h
  have hproperty := number.property
  have hbits : number.toBits < 256 ^ 8 := by
    rw [NonNanFloat.toBits]
    split <;> omega
  have heq := leBytes_inj hbits (by decide) h
  rw [NonNanFloat.toBits] at heq
  split at heq <;> omega

/-- Among the spellings of a value only the second one of zero reads as negative zero. -/
theorem Value.Spells.take_eq_iff {value : Value} {spelling : Bytes} (h : value.Spells spelling)
    (rest : Bytes) :
    (spelling ++ rest).take 9 = negativeZeroBytes ↔ spelling ≠ value.canonicalBytes := by
  rcases h with ⟨_, rfl⟩ | ⟨rfl, rfl⟩
  · refine iff_of_false (fun hzero => ?_) (fun hne => hne rfl)
    have hhead : ((value.canonicalBytes ++ rest).take 9).head? = some (UInt8.ofNat value.variant) :=
      List.head?_take.trans (value.head?_canonicalBytes rest)
    rw [hzero] at hhead
    cases value with
    | double number =>
        have hpayload : ((0x04 :: leBytes 8 number.toBits) ++ rest).take 9 = negativeZeroBytes :=
          hzero
        rw [List.take_left' (by rw [List.length_cons, length_leBytes])] at hpayload
        exact number.toBits_ne (List.cons.inj hpayload).2
    | _ => exact absurd (Option.some.inj hhead) (by simp [Value.variant])
  · refine iff_of_true (List.take_left' (by decide)) fun hcanonical => ?_
    exact NonNanFloat.toBits_ne _ (List.cons.inj hcanonical).2.symm

/-- What decodes to a datom is its canonical bytes, or the spelling of a zero by negative zero. -/
theorem fromCanonicalBytes_cases {bytes : Bytes} {d : Datom}
    (h : Datom.fromCanonicalBytes bytes = .ok d) :
    (bytes = d.canonicalBytes ∧ ¬ NegativeZero bytes) ∨
      (bytes = d.bytesWith negativeZeroBytes ∧ bytes ≠ d.canonicalBytes ∧ NegativeZero bytes) := by
  obtain ⟨hattr, spelling, hspells, rfl⟩ := fromCanonicalBytes_eq_ok.mp h
  have hzero := hspells.take_eq_iff (d.tx.canonicalBytes ++ [d.op.canonicalByte])
  rw [← valueField_bytesWith hattr] at hzero
  rw [d.canonicalBytes_eq]
  rcases hspells with ⟨_, rfl⟩ | ⟨hvalue, rfl⟩
  · exact .inl ⟨rfl, fun hneg => hzero.mp hneg rfl⟩
  · have hne : negativeZeroBytes ≠ d.value.canonicalBytes := by
      rw [hvalue]
      exact fun hcanonical => NonNanFloat.toBits_ne _ (List.cons.inj hcanonical).2.symm
    refine .inr ⟨rfl, fun heq => hne ?_, hzero.mpr hne⟩
    exact List.append_cancel_right (List.append_cancel_left (List.append_cancel_left heq))

/-- Encoding a decoded datom gives back the byte string unless it spells negative zero, and two
byte strings that decode to one datom are equal unless one of them does. -/
theorem canonicalBytes_fromCanonicalBytes_iff {bytes : Bytes} {d : Datom}
    (h : Datom.fromCanonicalBytes bytes = .ok d) :
    (d.canonicalBytes = bytes ↔ ¬ NegativeZero bytes) ∧
      ∀ bytes', Datom.fromCanonicalBytes bytes' = .ok d →
        (bytes = bytes' ↔ (NegativeZero bytes ↔ NegativeZero bytes')) := by
  rcases fromCanonicalBytes_cases h with ⟨rfl, hneg⟩ | ⟨rfl, hne, hneg⟩
  · refine ⟨iff_of_true rfl hneg, fun bytes' h' => ?_⟩
    rcases fromCanonicalBytes_cases h' with ⟨rfl, _⟩ | ⟨_, hne', hneg'⟩
    · exact iff_of_true rfl Iff.rfl
    · exact iff_of_false hne'.symm fun hiff => hneg (hiff.mpr hneg')
  · refine ⟨iff_of_false hne.symm (not_not_intro hneg), fun bytes' h' => ?_⟩
    rcases fromCanonicalBytes_cases h' with ⟨rfl, hneg'⟩ | ⟨rfl, _, _⟩
    · exact iff_of_false hne fun hiff => hneg' (hiff.mp hneg)
    · exact iff_of_true rfl Iff.rfl

/-- A datom whose value, zero, is written by the bits of negative zero. -/
def negativeZeroDatom : Bytes :=
  (datomWith (.double ⟨0, by decide⟩)).bytesWith negativeZeroBytes

/-- The bytes of a negative zero decode to the datom of the positive zero. -/
theorem fromCanonicalBytes_negativeZeroDatom :
    Datom.fromCanonicalBytes negativeZeroDatom = .ok (datomWith (.double ⟨0, by decide⟩)) :=
  fromCanonicalBytes_eq_ok.mpr ⟨length_datomWith_attr _, negativeZeroBytes, .inr ⟨rfl, rfl⟩, rfl⟩

/-- The sample datom of an encodable value is read back from its canonical bytes. -/
theorem fromCanonicalBytes_canonicalBytes_datomWith {value : Value} (h : value.Encodable) :
    Datom.fromCanonicalBytes (datomWith value).canonicalBytes = .ok (datomWith value) :=
  fromCanonicalBytes_eq_ok.mpr
    ⟨length_datomWith_attr _, value.canonicalBytes, .inl ⟨h, rfl⟩, Datom.canonicalBytes_eq _⟩

/-- The bytes of a negative zero are not the canonical bytes of the datom they decode to. -/
theorem canonicalBytes_fromCanonicalBytes_negativeZeroDatom :
    Datom.fromCanonicalBytes negativeZeroDatom = .ok (datomWith (.double ⟨0, by decide⟩)) ∧
      ((datomWith (.double ⟨0, by decide⟩)).canonicalBytes = negativeZeroDatom ↔
        ¬ NegativeZero negativeZeroDatom) :=
  ⟨fromCanonicalBytes_negativeZeroDatom,
    (canonicalBytes_fromCanonicalBytes_iff fromCanonicalBytes_negativeZeroDatom).1⟩

/-- Two byte strings decode to the datom of a zero, and only one of them is its encoding. -/
theorem negativeZeroDatom_not_injective :
    Datom.fromCanonicalBytes negativeZeroDatom = .ok (datomWith (.double ⟨0, by decide⟩)) ∧
      Datom.fromCanonicalBytes (datomWith (.double ⟨0, by decide⟩)).canonicalBytes =
        .ok (datomWith (.double ⟨0, by decide⟩)) ∧
      (datomWith (.double ⟨0, by decide⟩)).canonicalBytes ≠ negativeZeroDatom := by
  refine ⟨fromCanonicalBytes_negativeZeroDatom,
    fromCanonicalBytes_canonicalBytes_datomWith trivial, fun heq => ?_⟩
  rw [Datom.canonicalBytes_eq] at heq
  have hspelling :=
    List.append_cancel_right (List.append_cancel_left (List.append_cancel_left heq))
  exact NonNanFloat.toBits_ne _ (List.cons.inj hspelling).2

end Datoms

end Ferratomic
