import Ferratomic.Lib.Bytes

/-!
# Datoms

A datom is the 5-tuple `(entity, attribute, value, tx, op)`. Every type here carries the order
that the source derives from its declaration order, so the order of datoms is EAVT: entity,
attribute, value, transaction, operation. Equality of the model is the equality of the source;
in particular the two zeros of a double are one value.

The canonical byte layout and the hashes over it are functions of BLAKE3, which is a parameter
of the development.
-/

namespace Ferratomic

open Lib

/-- A BLAKE3 digest. -/
abbrev Hash := FixedBytes 32

/-- The BLAKE3 hash function. -/
class Blake3 where
  hash : Bytes → Hash

/-- A content-addressed entity identifier. -/
abbrev EntityId := FixedBytes 32

/-- `EntityId::from_content`: the BLAKE3 hash of the content bytes. -/
def EntityId.fromContent [Blake3] (content : Bytes) : EntityId :=
  Blake3.hash content

/-- A node identifier. -/
abbrev NodeId := FixedBytes 16

instance (priority := 1100) instTransCmpNodeId :
    Std.TransCmp (α := NodeId) (@compare _ LinearOrder.toOrd) :=
  inferInstance

/-- The all-zero node identifier of genesis stores. -/
def NodeId.zero : NodeId :=
  ⟨List.replicate 16 0, List.length_replicate⟩

/-- An attribute name. -/
abbrev Attribute := String

/-- The bytes of a string. -/
def utf8Bytes (s : String) : Bytes :=
  s.toUTF8.toList

/-- The longest attribute name that `Attribute::new` and its `Deserialize` accept. -/
def maxAttributeBytes : Nat := 65535

/-- Assert a fact, or retract it. `Assert` sorts before `Retract`. -/
inductive Op where
  | assert
  | retract
  deriving Repr

namespace Op

/-- The position of the operation in its declaration. -/
def rank : Op → Nat
  | assert => 0
  | retract => 1

/-- Operations of the same rank are equal. -/
theorem rank_injective : Function.Injective rank := by
  intro a b h
  cases a <;> cases b <;> first | rfl | exact absurd h (by decide)

instance : LinearOrder Op :=
  LinearOrder.lift' rank rank_injective

/-- The canonical byte of the operation. -/
def canonicalByte : Op → UInt8
  | assert => 0x00
  | retract => 0x01

end Op

/-- A hybrid logical clock timestamp. -/
@[ext]
structure TxId where
  physical : UInt64
  logical : UInt32
  node : NodeId

namespace TxId

/-- The components in comparison order. -/
def sortKey (tx : TxId) : UInt64 ×ₗ UInt32 ×ₗ NodeId :=
  toLex (tx.physical, toLex (tx.logical, tx.node))

/-- Identifiers of the same sort key are equal. -/
theorem sortKey_injective : Function.Injective sortKey := by
  intro a b h
  cases a
  cases b
  simp only [sortKey, EmbeddingLike.apply_eq_iff_eq, Prod.mk.injEq] at h
  simpa only [TxId.mk.injEq] using h

/-- Lexicographic order on `(physical, logical, node)`. -/
instance : LinearOrder TxId :=
  LinearOrder.lift' sortKey sortKey_injective

/-- `tx_id_canonical_bytes`: the 28 bytes of a timestamp. -/
def canonicalBytes (tx : TxId) : Bytes :=
  leBytes 8 tx.physical.toNat ++ leBytes 4 tx.logical.toNat ++ tx.node.val

end TxId

/-- A non-NaN double, as the signed magnitude of its bits. Negative and positive zero, which the
source compares as equal, are the same value here. -/
abbrev NonNanFloat :=
  { magnitude : Int // -0x7FF0000000000000 ≤ magnitude ∧ magnitude ≤ 0x7FF0000000000000 }

/-- The bits of the double after the source's normalising `+ 0.0`. -/
def NonNanFloat.toBits (f : NonNanFloat) : Nat :=
  if 0 ≤ f.val then f.val.toNat else 2 ^ 63 + (-f.val).toNat

/-- Every value a datom can carry. -/
inductive Value where
  | keyword (text : String)
  | string (text : String)
  | long (number : SignedInt 64)
  | double (number : NonNanFloat)
  | bool (flag : Bool)
  | instant (millis : SignedInt 64)
  | uuid (id : FixedBytes 16)
  | bytes (blob : Bytes)
  | ref (entity : EntityId)
  | bigInt (number : SignedInt 128)
  | bigDec (number : SignedInt 128)

namespace Value

/-- The variants in declaration order, which is their order of comparison. -/
abbrev Variants :=
  String ⊕ₗ String ⊕ₗ SignedInt 64 ⊕ₗ NonNanFloat ⊕ₗ Bool ⊕ₗ SignedInt 64 ⊕ₗ FixedBytes 16 ⊕ₗ
    Bytes ⊕ₗ EntityId ⊕ₗ SignedInt 128 ⊕ₗ SignedInt 128

/-- The variant and payload of a value. -/
def toVariants : Value → Variants
  | keyword text => Sum.inlₗ text
  | string text => Sum.inrₗ (Sum.inlₗ text)
  | long number => Sum.inrₗ (Sum.inrₗ (Sum.inlₗ number))
  | double number => Sum.inrₗ (Sum.inrₗ (Sum.inrₗ (Sum.inlₗ number)))
  | bool flag => Sum.inrₗ (Sum.inrₗ (Sum.inrₗ (Sum.inrₗ (Sum.inlₗ flag))))
  | instant millis =>
      Sum.inrₗ (Sum.inrₗ (Sum.inrₗ (Sum.inrₗ (Sum.inrₗ (Sum.inlₗ millis)))))
  | uuid id =>
      Sum.inrₗ (Sum.inrₗ (Sum.inrₗ (Sum.inrₗ (Sum.inrₗ (Sum.inrₗ (Sum.inlₗ id))))))
  | bytes blob =>
      Sum.inrₗ (Sum.inrₗ (Sum.inrₗ (Sum.inrₗ (Sum.inrₗ (Sum.inrₗ (Sum.inrₗ (Sum.inlₗ blob)))))))
  | ref entity =>
      Sum.inrₗ (Sum.inrₗ (Sum.inrₗ (Sum.inrₗ (Sum.inrₗ (Sum.inrₗ (Sum.inrₗ (Sum.inrₗ
        (Sum.inlₗ entity))))))))
  | bigInt number =>
      Sum.inrₗ (Sum.inrₗ (Sum.inrₗ (Sum.inrₗ (Sum.inrₗ (Sum.inrₗ (Sum.inrₗ (Sum.inrₗ (Sum.inrₗ
        (Sum.inlₗ number)))))))))
  | bigDec number =>
      Sum.inrₗ (Sum.inrₗ (Sum.inrₗ (Sum.inrₗ (Sum.inrₗ (Sum.inrₗ (Sum.inrₗ (Sum.inrₗ (Sum.inrₗ
        (Sum.inrₗ number)))))))))

/-- Values of the same variant and payload are equal. -/
theorem toVariants_injective : Function.Injective toVariants := by
  intro a b h
  cases a <;> cases b <;>
    simp_all only [toVariants, Sum.inlₗ, Sum.inrₗ, EmbeddingLike.apply_eq_iff_eq,
      Sum.inl.injEq, Sum.inr.injEq, reduceCtorEq]

/-- The derived order: first the variant, then its payload. -/
instance : LinearOrder Value :=
  LinearOrder.lift' toVariants toVariants_injective

/-- `push_tag_u16_str`: a tag, a saturating 16-bit length and the data. -/
def tagU16 (tag : UInt8) (data : Bytes) : Bytes :=
  tag :: leBytes 2 (min data.length 65535) ++ data

/-- `push_tag_u32_bytes`: a tag, a saturating 32-bit length and the data. -/
def tagU32 (tag : UInt8) (data : Bytes) : Bytes :=
  tag :: leBytes 4 (min data.length (2 ^ 32 - 1)) ++ data

/-- `canonical_value_bytes`: the tagged encoding of a value. -/
def canonicalBytes : Value → Bytes
  | keyword text => tagU16 0x01 (utf8Bytes text)
  | string text => tagU32 0x02 (utf8Bytes text)
  | long number => 0x03 :: number.leBytes
  | double number => 0x04 :: leBytes 8 number.toBits
  | bool flag => [0x05, if flag then 1 else 0]
  | instant millis => 0x06 :: millis.leBytes
  | uuid id => 0x07 :: id.val
  | bytes blob => tagU32 0x08 blob
  | ref entity => 0x09 :: entity.val
  | bigInt number => 0x0A :: number.leBytes
  | bigDec number => 0x0B :: number.leBytes

end Value

/-- `canonical_attr_bytes`: a saturating 16-bit length and the name. -/
def canonicalAttrBytes (attr : Attribute) : Bytes :=
  leBytes 2 (min (utf8Bytes attr).length 65535) ++ utf8Bytes attr

/-- The atomic fact. -/
@[ext]
structure Datom where
  entity : EntityId
  attr : Attribute
  value : Value
  tx : TxId
  op : Op

namespace Datom

/-- The five fields in comparison order. -/
def sortKey (d : Datom) : EntityId ×ₗ Attribute ×ₗ Value ×ₗ TxId ×ₗ Op :=
  toLex (d.entity, toLex (d.attr, toLex (d.value,
    toLex (d.tx, d.op))))

/-- Datoms of the same sort key are equal. -/
theorem sortKey_injective : Function.Injective sortKey := by
  intro a b h
  cases a
  cases b
  simp only [sortKey, EmbeddingLike.apply_eq_iff_eq, Prod.mk.injEq] at h
  simpa only [Datom.mk.injEq] using h

/-- EAVT order. -/
instance : LinearOrder Datom :=
  LinearOrder.lift' sortKey sortKey_injective

instance instIsTransLe : IsTrans Datom (· ≤ ·) := inferInstance

instance instAntisymmLe : Std.Antisymm (α := Datom) (· ≤ ·) := inferInstance

/-- The `(entity, attribute)` pair that keys the LIVE maps. -/
abbrev LiveKey := EntityId ×ₗ Attribute

instance (priority := 1100) instTransCmpLiveKey :
    Std.TransCmp (α := LiveKey) (@compare _ LinearOrder.toOrd) :=
  inferInstance

/-- The LIVE key of a datom. -/
def liveKey (d : Datom) : LiveKey :=
  toLex (d.entity, d.attr)

/-- The canonical byte layout of a datom. -/
def canonicalBytes (d : Datom) : Bytes :=
  d.entity.val ++ canonicalAttrBytes d.attr ++ d.value.canonicalBytes ++
    d.tx.canonicalBytes ++ [d.op.canonicalByte]

/-- The bytes `hash_signing_fields` streams into a hasher: the canonical layout without the
timestamp. -/
def signingFields (d : Datom) : Bytes :=
  d.entity.val ++ canonicalAttrBytes d.attr ++ d.value.canonicalBytes ++
    [d.op.canonicalByte]

/-- `content_hash`: BLAKE3 over the streamed canonical layout. -/
def contentHash [Blake3] (d : Datom) : Hash :=
  Blake3.hash (d.entity.val ++ canonicalAttrBytes d.attr ++ d.value.canonicalBytes ++
    d.tx.canonicalBytes ++ [d.op.canonicalByte])

end Datom

end Ferratomic
