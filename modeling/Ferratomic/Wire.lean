import Ferratomic.Schema

/-!
# Wire types and serialization

Datoms are serialized directly and deserialized as wire types, which cross the trust boundary
through `intoTrusted`. The serializer is `bincode`, a parameter of the development: one
serializer and deserializer for each payload type. `Bincode.Faithful` is what the engine relies
on. Serialization succeeds, and reading the bytes back gives the wire form of what was written,
unless the payload holds an attribute name that the deserializer of `Attribute` refuses.
-/

namespace Ferratomic

open Lib

/-- An entity identifier of unknown provenance. -/
@[ext]
structure WireEntityId where
  bytes : FixedBytes 32

/-- `into_trusted` -/
def WireEntityId.intoTrusted (id : WireEntityId) : EntityId :=
  id.bytes

/-- A value whose references are of unknown provenance. -/
inductive WireValue where
  | keyword (text : String)
  | string (text : String)
  | long (number : SignedInt 64)
  | double (number : NonNanFloat)
  | bool (flag : Bool)
  | instant (millis : SignedInt 64)
  | uuid (id : FixedBytes 16)
  | bytes (blob : Bytes)
  | ref (entity : WireEntityId)
  | bigInt (number : SignedInt 128)
  | bigDec (number : SignedInt 128)

/-- `into_trusted` -/
def WireValue.intoTrusted : WireValue → Value
  | keyword text => .keyword text
  | string text => .string text
  | long number => .long number
  | double number => .double number
  | bool flag => .bool flag
  | instant millis => .instant millis
  | uuid id => .uuid id
  | bytes blob => .bytes blob
  | ref entity => .ref entity.intoTrusted
  | bigInt number => .bigInt number
  | bigDec number => .bigDec number

/-- A datom of unknown provenance. -/
@[ext]
structure WireDatom where
  entity : WireEntityId
  attr : Attribute
  value : WireValue
  tx : TxId
  op : Op

/-- `into_trusted` -/
def WireDatom.intoTrusted (d : WireDatom) : Datom :=
  ⟨d.entity.intoTrusted, d.attr, d.value.intoTrusted, d.tx, d.op⟩

/-- The wire form of a value: the value that its serialized bytes deserialize to. -/
def Value.toWire : Value → WireValue
  | keyword text => .keyword text
  | string text => .string text
  | long number => .long number
  | double number => .double number
  | bool flag => .bool flag
  | instant millis => .instant millis
  | uuid id => .uuid id
  | bytes blob => .bytes blob
  | ref entity => .ref ⟨entity⟩
  | bigInt number => .bigInt number
  | bigDec number => .bigDec number

/-- The wire form of a datom. -/
def Datom.toWire (d : Datom) : WireDatom :=
  ⟨⟨d.entity⟩, d.attr, d.value.toWire, d.tx, d.op⟩

/-- A value is trusted back from its wire form. -/
@[simp]
theorem Value.intoTrusted_toWire (value : Value) : value.toWire.intoTrusted = value := by
  cases value <;> rfl

/-- A datom is trusted back from its wire form. -/
@[simp]
theorem Datom.intoTrusted_toWire (d : Datom) : d.toWire.intoTrusted = d := by
  simp only [toWire, WireDatom.intoTrusted, Value.intoTrusted_toWire]
  rfl

/-- Crossing the trust boundary gives back the datoms that were serialized. -/
@[simp]
theorem map_intoTrusted_toWire (datoms : List Datom) :
    (datoms.map Datom.toWire).map WireDatom.intoTrusted = datoms := by
  simp [List.map_map, Function.comp_def]

/-- `V3PayloadWrite` -/
structure V3PayloadWrite where
  schemaPairs : List (String × AttributeDef)
  datoms : List Datom
  liveBits : List Bool

/-- `V3PayloadRead` -/
@[ext]
structure V3PayloadRead where
  schemaPairs : List (String × AttributeDef)
  datoms : List WireDatom
  liveBits : List Bool

/-- `V3LiveFirstPayloadWrite` -/
structure V3LiveFirstPayloadWrite where
  schemaPairs : List (String × AttributeDef)
  liveDatoms : List Datom
  histDatoms : List Datom

/-- `V3LiveFirstPayloadRead` -/
@[ext]
structure V3LiveFirstPayloadRead where
  schemaPairs : List (String × AttributeDef)
  liveDatoms : List WireDatom
  histDatoms : List WireDatom

/-- `V4PayloadWrite` -/
structure V4PayloadWrite where
  schemaPairs : List (String × AttributeDef)
  entities : List EntityId
  attributes : List String
  values : List Value
  txIds : List TxId
  ops : List Bool
  liveBits : List Bool

/-- `V4PayloadRead` -/
@[ext]
structure V4PayloadRead where
  schemaPairs : List (String × AttributeDef)
  entities : List WireEntityId
  attributes : List String
  values : List WireValue
  txIds : List TxId
  ops : List Bool
  liveBits : List Bool

/-- `WireCheckpointPayload`, the payload of the legacy V2 format. -/
structure WireCheckpointPayload where
  schema : List (String × AttributeDef)
  genesisNode : NodeId
  datoms : List WireDatom

/-- The wire form of a V3 payload. -/
def V3PayloadWrite.toWire (payload : V3PayloadWrite) : V3PayloadRead :=
  ⟨payload.schemaPairs, payload.datoms.map Datom.toWire, payload.liveBits⟩

/-- The wire form of a LIVE-first payload. -/
def V3LiveFirstPayloadWrite.toWire (payload : V3LiveFirstPayloadWrite) :
    V3LiveFirstPayloadRead :=
  ⟨payload.schemaPairs, payload.liveDatoms.map Datom.toWire, payload.histDatoms.map Datom.toWire⟩

/-- The wire form of a columnar payload. -/
def V4PayloadWrite.toWire (payload : V4PayloadWrite) : V4PayloadRead :=
  ⟨payload.schemaPairs, payload.entities.map WireEntityId.mk, payload.attributes,
    payload.values.map Value.toWire, payload.txIds, payload.ops, payload.liveBits⟩

/-- `bincode::serialize` at one type and `bincode::deserialize` at its wire type. -/
structure Serde (α β : Type) where
  serialize : α → Except String Bytes
  deserialize : Bytes → Except String β

/-- Serialization succeeds and deserialization reads the wire form back. -/
def Serde.Faithful {α β : Type} (serde : Serde α β) (wire : α → β) (accepts : α → Prop) : Prop :=
  ∀ value, accepts value →
    ∃ bytes, serde.serialize value = .ok bytes ∧ serde.deserialize bytes = .ok (wire value)

/-- The serializers of the engine. -/
class Bincode where
  datoms : Serde (List Datom) (List WireDatom)
  v3 : Serde V3PayloadWrite V3PayloadRead
  liveFirst : Serde V3LiveFirstPayloadWrite V3LiveFirstPayloadRead
  v4 : Serde V4PayloadWrite V4PayloadRead
  v2 : Serde WireCheckpointPayload WireCheckpointPayload

/-- The attribute names that the deserializer of `Attribute` accepts. -/
def ShortAttr (attr : Attribute) : Prop :=
  (utf8Bytes attr).length ≤ maxAttributeBytes

/-- Every datom has an attribute name that can be read back. -/
def ShortAttrs (datoms : List Datom) : Prop :=
  ∀ d ∈ datoms, ShortAttr d.attr

/-- What the engine relies on. Columns of attribute names are plain strings, which have no
length limit. -/
structure Bincode.Faithful [Bincode] : Prop where
  datoms : (Bincode.datoms).Faithful (List.map Datom.toWire) ShortAttrs
  v3 : (Bincode.v3).Faithful V3PayloadWrite.toWire fun payload => ShortAttrs payload.datoms
  liveFirst : (Bincode.liveFirst).Faithful V3LiveFirstPayloadWrite.toWire fun payload =>
    ShortAttrs payload.liveDatoms ∧ ShortAttrs payload.histDatoms
  v4 : (Bincode.v4).Faithful V4PayloadWrite.toWire fun _ => True

end Ferratomic
