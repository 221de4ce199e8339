import Ferratomic.Lib.Codec
import Ferratomic.Wire

/-!
# The bincode format

The default format of `bincode` for the payload types of the engine: fixed-width little-endian
integers, 64-bit lengths, 32-bit variant indices and no field names. `Bincode.reference` is the
instance and `faithful_reference` says that it has the round trips the engine relies on.
-/

namespace Ferratomic

open Lib

namespace Bincode

/-- `u64` -/
def u64 : Codec UInt64 :=
  (Codec.uint 8).via (fun value => ⟨value.toNat, value.toNat_lt⟩)
    (fun raw => some (UInt64.ofNat raw.val))
    (fun _ => congrArg some UInt64.ofNat_toNat)

/-- `u32` -/
def u32 : Codec UInt32 :=
  (Codec.uint 4).via (fun value => ⟨value.toNat, value.toNat_lt⟩)
    (fun raw => some (UInt32.ofNat raw.val))
    (fun _ => congrArg some UInt32.ofNat_toNat)

/-- The signed reading of an unsigned integer, if it is in range. -/
def ofTwosComplement (width raw : Nat) : Option (SignedInt width) :=
  let value : Int := if raw < 2 ^ (width - 1) then raw else raw - 2 ^ width
  if h : -(2 ^ (width - 1)) ≤ value ∧ value < 2 ^ (width - 1) then some ⟨value, h⟩ else none

/-- The two's complement of a number fits the width. -/
theorem twosComplement_lt {width : Nat} (value : SignedInt width) :
    (value.val % 2 ^ width).toNat < 2 ^ width := by
  have hpos : (0 : Int) < 2 ^ width := by positivity
  have hlt := Int.emod_lt_of_pos value.val hpos
  have hnonneg := Int.emod_nonneg value.val hpos.ne'
  zify
  rwa [Int.toNat_of_nonneg hnonneg]

/-- A signed number is read back from its two's complement. -/
theorem ofTwosComplement_emod {width : Nat} (hwidth : 0 < width) (value : SignedInt width) :
    ofTwosComplement width (value.val % 2 ^ width).toNat = some value := by
  obtain ⟨width, rfl⟩ := Nat.exists_eq_succ_of_ne_zero hwidth.ne'
  obtain ⟨value, hlow, hhigh⟩ := value
  simp only [Nat.succ_eq_add_one, Nat.add_sub_cancel] at hlow hhigh ⊢
  have hfull : (2 : Int) ^ (width + 1) = 2 * 2 ^ width := by rw [pow_succ, mul_comm]
  have hcast : ((2 ^ width : Nat) : Int) = 2 ^ width := by push_cast; rfl
  have hread : (if (value % 2 ^ (width + 1)).toNat < 2 ^ width then
      ((value % 2 ^ (width + 1)).toNat : Int)
      else (value % 2 ^ (width + 1)).toNat - 2 ^ (width + 1)) = value := by
    rcases Int.lt_or_le value 0 with hneg | hnonneg
    · have hmod : value % 2 ^ (width + 1) = value + 2 ^ (width + 1) := by
        rw [Int.emod_eq_add_self_emod, Int.emod_eq_of_lt (by omega) (by omega)]
      rw [if_neg (by omega)]
      omega
    · have hmod : value % 2 ^ (width + 1) = value := Int.emod_eq_of_lt hnonneg (by omega)
      rw [if_pos (by omega)]
      omega
  rw [ofTwosComplement]
  simp only [Nat.add_sub_cancel, hread, hlow, hhigh, and_self, dif_pos]

/-- `i64` and `i128` -/
def signed (bytes : Nat) (hbytes : 0 < bytes) : Codec (SignedInt (8 * bytes)) :=
  (Codec.uint bytes).via
    (fun value => ⟨(value.val % 2 ^ (8 * bytes)).toNat, by
      have := twosComplement_lt value
      rwa [show 256 = 2 ^ 8 from rfl, ← pow_mul]⟩)
    (fun raw => ofTwosComplement (8 * bytes) raw.val)
    (fun value => ofTwosComplement_emod (by omega) value)

/-- A double from its bits, rejecting NaN. -/
def ofBits (raw : Nat) : Option NonNanFloat :=
  let magnitude : Int := if raw < 2 ^ 63 then raw else 2 ^ 63 - raw
  if h : -0x7FF0000000000000 ≤ magnitude ∧ magnitude ≤ 0x7FF0000000000000 then
    some ⟨magnitude, h⟩
  else none

/-- `f64` -/
def double : Codec NonNanFloat :=
  (Codec.uint 8).via
    (fun value => ⟨value.toBits, by
      have := value.property
      rw [NonNanFloat.toBits]
      split <;> omega⟩)
    (fun raw => ofBits raw.val)
    (fun value => by
      obtain ⟨value, hlow, hhigh⟩ := value
      have hread : (if NonNanFloat.toBits ⟨value, hlow, hhigh⟩ < 2 ^ 63 then
          (NonNanFloat.toBits ⟨value, hlow, hhigh⟩ : Int)
          else 2 ^ 63 - NonNanFloat.toBits ⟨value, hlow, hhigh⟩) = value := by
        simp only [NonNanFloat.toBits]
        split <;> split <;> omega
      rw [ofBits]
      simp only [hread, hlow, hhigh, and_self, dif_pos])

/-- The bytes of a blob. -/
def blob : Codec Bytes :=
  Codec.byte.list

/-- An entity identifier: 32 bytes, without a length. -/
def entityId : Codec WireEntityId :=
  (Codec.bytes 32).via WireEntityId.bytes (fun raw => some ⟨raw⟩) (fun _ => rfl)

/-- A value: the index of its variant and the payload. -/
def value : Codec WireValue where
  encode
    | .keyword text => leBytes 4 0 ++ Codec.string.encode text
    | .string text => leBytes 4 1 ++ Codec.string.encode text
    | .long number => leBytes 4 2 ++ (signed 8 (by decide)).encode number
    | .double number => leBytes 4 3 ++ double.encode number
    | .bool flag => leBytes 4 4 ++ Codec.bool.encode flag
    | .instant millis => leBytes 4 5 ++ (signed 8 (by decide)).encode millis
    | .uuid id => leBytes 4 6 ++ (Codec.bytes 16).encode id
    | .bytes raw => leBytes 4 7 ++ blob.encode raw
    | .ref entity => leBytes 4 8 ++ entityId.encode entity
    | .bigInt number => leBytes 4 9 ++ (signed 16 (by decide)).encode number
    | .bigDec number => leBytes 4 10 ++ (signed 16 (by decide)).encode number
  decode buf := do
    let (variant, buf) ← (Codec.uint 4).decode buf
    match variant.val with
    | 0 => (Codec.string.decode buf).map fun (text, buf) => (.keyword text, buf)
    | 1 => (Codec.string.decode buf).map fun (text, buf) => (.string text, buf)
    | 2 => ((signed 8 (by decide)).decode buf).map fun (number, buf) => (.long number, buf)
    | 3 => (double.decode buf).map fun (number, buf) => (.double number, buf)
    | 4 => (Codec.bool.decode buf).map fun (flag, buf) => (.bool flag, buf)
    | 5 => ((signed 8 (by decide)).decode buf).map fun (millis, buf) => (.instant millis, buf)
    | 6 => ((Codec.bytes 16).decode buf).map fun (id, buf) => (.uuid id, buf)
    | 7 => (blob.decode buf).map fun (raw, buf) => (.bytes raw, buf)
    | 8 => (entityId.decode buf).map fun (entity, buf) => (.ref entity, buf)
    | 9 => ((signed 16 (by decide)).decode buf).map fun (number, buf) => (.bigInt number, buf)
    | 10 => ((signed 16 (by decide)).decode buf).map fun (number, buf) => (.bigDec number, buf)
    | _ => none
  accepts _ := True
  decode_encode := by
    intro value _ rest
    have hvariant (index : Nat) (h : index < 256 ^ 4) (payload : Bytes) :
        (Codec.uint 4).decode (leBytes 4 index ++ payload) = some (⟨index, h⟩, payload) :=
      (Codec.uint 4).decode_encode ⟨index, h⟩ trivial payload
    cases value with
    | keyword text => simp [hvariant, Codec.string.decode_encode text trivial]
    | string text => simp [hvariant, Codec.string.decode_encode text trivial]
    | long number => simp [hvariant, (signed 8 (by decide)).decode_encode number trivial]
    | double number => simp [hvariant, double.decode_encode number trivial]
    | bool flag => simp [hvariant, Codec.bool.decode_encode flag trivial]
    | instant millis => simp [hvariant, (signed 8 (by decide)).decode_encode millis trivial]
    | uuid id => simp [hvariant, (Codec.bytes 16).decode_encode id trivial]
    | bytes raw => simp [hvariant, blob.decode_encode raw fun _ _ => trivial]
    | ref entity => simp [hvariant, entityId.decode_encode entity trivial]
    | bigInt number => simp [hvariant, (signed 16 (by decide)).decode_encode number trivial]
    | bigDec number => simp [hvariant, (signed 16 (by decide)).decode_encode number trivial]

/-- A transaction identifier: its fields in declaration order. -/
def txId : Codec TxId :=
  (u64.pair (u32.pair (Codec.bytes 16))).via (fun tx => (tx.physical, tx.logical, tx.node))
    (fun (physical, logical, node) => some ⟨physical, logical, node⟩) (fun _ => rfl)

/-- An operation: the index of its variant. -/
def op : Codec Op :=
  Codec.enum [.assert, .retract] Op.rank (fun value => by cases value <;> decide)
    (fun value => by cases value <;> rfl)

/-- An attribute name; the deserializer refuses names of more than 65535 bytes. -/
def attr : Codec Attribute :=
  Codec.string.checked fun name => (utf8Bytes name).length ≤ maxAttributeBytes

/-- A datom: its fields in declaration order. -/
def datom : Codec WireDatom :=
  (entityId.pair (attr.pair (value.pair (txId.pair op)))).via
    (fun d => (d.entity, d.attr, d.value, d.tx, d.op))
    (fun (entity, attr, value, tx, op) => some ⟨entity, attr, value, tx, op⟩) (fun _ => rfl)

/-- An attribute definition: its fields in declaration order. -/
def attributeDef : Codec AttributeDef :=
  ((Codec.enum [.keyword, .string, .long, .double, .boolean, .instant, .uuid, .bytes, .ref,
      .bigInt, .bigDec] ValueType.rank (fun value => by cases value <;> decide)
      (fun value => by cases value <;> rfl)).pair
    ((Codec.enum [.one, .many] Cardinality.rank (fun value => by cases value <;> decide)
      (fun value => by cases value <;> rfl)).pair
    ((Codec.enum [.lww, .multiValue] ResolutionMode.rank (fun value => by cases value <;> decide)
      (fun value => by cases value <;> rfl)).pair
    Codec.string.option))).via
    (fun definition => (definition.valueType, definition.cardinality, definition.resolutionMode,
      definition.doc))
    (fun (valueType, cardinality, resolutionMode, doc) =>
      some ⟨valueType, cardinality, resolutionMode, doc⟩) (fun _ => rfl)

/-- The schema of a checkpoint. -/
def schemaPairs : Codec (List (String × AttributeDef)) :=
  (Codec.string.pair attributeDef).list

/-- A 64-bit word. -/
def word : Codec Nat where
  encode value := leBytes 8 value
  decode buf := ((Codec.uint 8).decode buf).map fun (value, buf) => (value.val, buf)
  accepts value := value < 256 ^ 8
  decode_encode := by
    intro value h rest
    have hword := (Codec.uint 8).decode_encode ⟨value, h⟩ trivial rest
    show ((Codec.uint 8).decode ((Codec.uint 8).encode ⟨value, h⟩ ++ rest)).map _ = _
    rw [hword]
    rfl

/-- The fields of a dense bit vector: the name of its bit order, the width of its words and the
index of its first bit, the number of bits and the words. -/
def bitFields : Codec (List Bool) :=
  (Codec.string.pair (Codec.byte.pair (Codec.byte.pair (Codec.length.pair word.list)))).via
    (fun bits => ("bitvec::order::Lsb0", 64, 0, bits.length,
      Codec.packWords 64 ((bits.length + 63) / 64) bits))
    (fun (_, _, _, count, words) => some ((words.flatMap (Codec.natBits 64)).take count))
    (fun bits => congrArg some (Codec.flatMap_packWords (by omega)))

/-- A dense bit vector. -/
def bitVec : Codec (List Bool) where
  encode := bitFields.encode
  decode := bitFields.decode
  accepts _ := True
  decode_encode := by
    intro bits _ rest
    refine bitFields.decode_encode bits ⟨trivial, trivial, trivial, trivial, ?_⟩ rest
    intro value hvalue
    exact Codec.lt_of_mem_packWords hvalue

/-- The serializer of a codec through the wire form. Trailing bytes are ignored, as
`bincode::deserialize` does. -/
def serde {α β : Type} (codec : Codec β) (wire : α → β) : Serde α β where
  serialize value := .ok (codec.encode (wire value))
  deserialize buf :=
    match codec.decode buf with
    | some (value, _) => .ok value
    | none => .error "invalid bincode payload"

/-- A codec is faithful to what it is translated to when that is accepted. -/
theorem faithful_serde {α β : Type} (codec : Codec β) (wire : α → β) {accepts : α → Prop}
    (h : ∀ value, accepts value → codec.accepts (wire value)) :
    (serde codec wire).Faithful wire accepts := by
  intro value hvalue
  have hdecode := codec.decode_encode (wire value) (h value hvalue) []
  rw [List.append_nil] at hdecode
  refine ⟨codec.encode (wire value), rfl, ?_⟩
  simp only [serde, hdecode]

/-- `V3PayloadRead` -/
def v3Payload : Codec V3PayloadRead :=
  (schemaPairs.pair (datom.list.pair bitVec)).via
    (fun payload => (payload.schemaPairs, payload.datoms, payload.liveBits))
    (fun (pairs, datoms, bits) => some ⟨pairs, datoms, bits⟩) (fun _ => rfl)

/-- `V3LiveFirstPayloadRead` -/
def liveFirstPayload : Codec V3LiveFirstPayloadRead :=
  (schemaPairs.pair (datom.list.pair datom.list)).via
    (fun payload => (payload.schemaPairs, payload.liveDatoms, payload.histDatoms))
    (fun (pairs, live, hist) => some ⟨pairs, live, hist⟩) (fun _ => rfl)

/-- `V4PayloadRead` -/
def v4Payload : Codec V4PayloadRead :=
  (schemaPairs.pair (entityId.list.pair (Codec.string.list.pair (value.list.pair
      (txId.list.pair (Codec.bool.list.pair bitVec)))))).via
    (fun payload => (payload.schemaPairs, payload.entities, payload.attributes, payload.values,
      payload.txIds, payload.ops, payload.liveBits))
    (fun (pairs, entities, attributes, values, txIds, ops, bits) =>
      some ⟨pairs, entities, attributes, values, txIds, ops, bits⟩) (fun _ => rfl)

/-- `WireCheckpointPayload` -/
def v2Payload : Codec WireCheckpointPayload :=
  (schemaPairs.pair ((Codec.bytes 16).pair datom.list)).via
    (fun payload => (payload.schema, payload.genesisNode, payload.datoms))
    (fun (pairs, node, datoms) => some ⟨pairs, node, datoms⟩) (fun _ => rfl)

/-- The default format. -/
instance reference : Bincode where
  datoms := serde datom.list (List.map Datom.toWire)
  v3 := serde v3Payload V3PayloadWrite.toWire
  liveFirst := serde liveFirstPayload V3LiveFirstPayloadWrite.toWire
  v4 := serde v4Payload V4PayloadWrite.toWire
  v2 := serde v2Payload id

/-- The schema codec accepts every list of pairs. -/
theorem accepts_schemaPairs (pairs : List (String × AttributeDef)) :
    schemaPairs.accepts pairs :=
  fun _ _ => ⟨trivial, trivial, trivial, trivial, fun _ _ => trivial⟩

/-- The datom codec accepts datoms of short attributes. -/
theorem accepts_datoms {datoms : List Datom} (h : ShortAttrs datoms) :
    datom.list.accepts (datoms.map Datom.toWire) := by
  intro wire hwire
  obtain ⟨d, hd, rfl⟩ := List.mem_map.mp hwire
  exact ⟨trivial, ⟨trivial, decide_eq_true (h d hd)⟩, trivial, ⟨trivial, trivial, trivial⟩,
    trivial⟩

/-- The default format has the round trips the engine relies on. -/
theorem faithful_reference : Bincode.Faithful where
  datoms := faithful_serde _ _ fun _ h => accepts_datoms h
  v3 := faithful_serde _ _ fun payload h =>
    ⟨accepts_schemaPairs payload.schemaPairs, accepts_datoms h, trivial⟩
  liveFirst := faithful_serde _ _ fun payload h =>
    ⟨accepts_schemaPairs payload.schemaPairs, accepts_datoms h.1, accepts_datoms h.2⟩
  v4 := faithful_serde _ _ fun payload _ =>
    ⟨accepts_schemaPairs payload.schemaPairs, fun _ _ => trivial, fun _ _ => trivial,
      fun _ _ => trivial, fun _ _ => ⟨trivial, trivial, trivial⟩, fun _ _ => trivial, trivial⟩

end Bincode

end Ferratomic
