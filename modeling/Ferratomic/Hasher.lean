import Ferratomic.LeafChunk.Fingerprint

/-!
# Streamed hashing

`content_hash` and `hash_signing_fields` do not build the canonical bytes of a datom. They feed its
fields to an incremental hasher, through a serializer of their own. The main theorem
`hashed_canonical` says that this serializer writes the canonical bytes, and that the value fields
of leaf chunks therefore add up to the fingerprint of the store whose datoms the chunks divide.
-/

namespace Ferratomic

open Lib

/-- An incremental BLAKE3 hasher, as the bytes it was fed. -/
@[ext]
structure Hasher where
  fed : Bytes

namespace Hasher

/-- `Hasher::new` -/
def new : Hasher := ⟨[]⟩

/-- `update`: feed bytes. -/
def update (hasher : Hasher) (data : Bytes) : Hasher :=
  ⟨hasher.fed ++ data⟩

/-- `finalize`: the hash of all that was fed. -/
def finalize [Blake3] (hasher : Hasher) : Hash :=
  Blake3.hash hasher.fed

/-- `hash_tag_u16_str`: feed a tag, a saturating 16-bit length and the data. -/
def hashTagU16Str (hasher : Hasher) (tag : UInt8) (data : Bytes) : Hasher :=
  ((hasher.update [tag]).update (leBytes 2 (min data.length 65535))).update data

/-- `hash_tag_u32_bytes`: feed a tag, a saturating 32-bit length and the data. -/
def hashTagU32Bytes (hasher : Hasher) (tag : UInt8) (data : Bytes) : Hasher :=
  ((hasher.update [tag]).update (leBytes 4 (min data.length (2 ^ 32 - 1)))).update data

/-- `canonical_value_hash`: feed a value. -/
def canonicalValueHash (hasher : Hasher) : Value → Hasher
  | .keyword text => hasher.hashTagU16Str 0x01 (utf8Bytes text)
  | .string text => hasher.hashTagU32Bytes 0x02 (utf8Bytes text)
  | .long number => (hasher.update [0x03]).update number.leBytes
  | .double number => (hasher.update [0x04]).update (leBytes 8 number.toBits)
  | .bool flag => (hasher.update [0x05]).update [if flag then 1 else 0]
  | .instant millis => (hasher.update [0x06]).update millis.leBytes
  | .uuid id => (hasher.update [0x07]).update id.val
  | .bytes blob => hasher.hashTagU32Bytes 0x08 blob
  | .ref entity => (hasher.update [0x09]).update entity.val
  | .bigInt number => (hasher.update [0x0A]).update number.leBytes
  | .bigDec number => (hasher.update [0x0B]).update number.leBytes

/-- A new hasher was fed nothing. -/
@[simp]
theorem fed_new : new.fed = [] := rfl

/-- An update feeds its bytes. -/
@[simp]
theorem fed_update (hasher : Hasher) (data : Bytes) :
    (hasher.update data).fed = hasher.fed ++ data := rfl

/-- A short text is fed as its tag, length and bytes. -/
@[simp]
theorem fed_hashTagU16Str (hasher : Hasher) (tag : UInt8) (data : Bytes) :
    (hasher.hashTagU16Str tag data).fed = hasher.fed ++ Value.tagU16 tag data := by
  simp [hashTagU16Str, Value.tagU16]

/-- A long byte string is fed as its tag, length and bytes. -/
@[simp]
theorem fed_hashTagU32Bytes (hasher : Hasher) (tag : UInt8) (data : Bytes) :
    (hasher.hashTagU32Bytes tag data).fed = hasher.fed ++ Value.tagU32 tag data := by
  simp [hashTagU32Bytes, Value.tagU32]

/-- The two serializers of values write the same bytes. -/
@[simp]
theorem fed_canonicalValueHash (hasher : Hasher) (value : Value) :
    (hasher.canonicalValueHash value).fed = hasher.fed ++ value.canonicalBytes := by
  cases value <;> simp [canonicalValueHash, Value.canonicalBytes]

end Hasher

namespace Datom

/-- `hash_signing_fields`: feed every field but the timestamp. -/
def hashSigningFields (d : Datom) (hasher : Hasher) : Hasher :=
  let hasher := hasher.update d.entity.val
  let hasher := hasher.update (leBytes 2 (min (utf8Bytes d.attr).length 65535))
  let hasher := hasher.update (utf8Bytes d.attr)
  let hasher := hasher.canonicalValueHash d.value
  hasher.update [d.op.canonicalByte]

/-- The hasher of `content_hash` when all fields are fed. -/
def contentHasher (d : Datom) : Hasher :=
  let hasher := Hasher.new.update d.entity.val
  let hasher := hasher.update (leBytes 2 (min (utf8Bytes d.attr).length 65535))
  let hasher := hasher.update (utf8Bytes d.attr)
  let hasher := hasher.canonicalValueHash d.value
  let hasher := hasher.update (leBytes 8 d.tx.physical.toNat)
  let hasher := hasher.update (leBytes 4 d.tx.logical.toNat)
  let hasher := hasher.update d.tx.node.val
  hasher.update [d.op.canonicalByte]

/-- The signing hasher is fed the fields that are signed. -/
theorem fed_hashSigningFields (d : Datom) (hasher : Hasher) :
    (d.hashSigningFields hasher).fed = hasher.fed ++ d.signingFields := by
  simp [hashSigningFields, signingFields, canonicalAttrBytes]

/-- The content hasher is fed the canonical bytes. -/
theorem fed_contentHasher (d : Datom) : d.contentHasher.fed = d.canonicalBytes := by
  simp [contentHasher, canonicalBytes, canonicalAttrBytes, TxId.canonicalBytes]

/-- The identifier of a datom has 28 bytes. -/
theorem length_tx_canonicalBytes (d : Datom) : d.tx.canonicalBytes.length = 28 := by
  simp [TxId.canonicalBytes, d.tx.node.property]

/-- The canonical bytes are the signed fields with the timestamp in front of the operation. -/
theorem canonicalBytes_split (d : Datom) :
    ∃ fields, d.canonicalBytes = fields ++ d.tx.canonicalBytes ++ [d.op.canonicalByte] ∧
      d.signingFields = fields ++ [d.op.canonicalByte] :=
  ⟨d.entity.val ++ canonicalAttrBytes d.attr ++ d.value.canonicalBytes, rfl, rfl⟩

end Datom

section Partition

variable [Blake3]

/-- The fingerprint of a leaf chunk is the sum of the content hashes of its datoms. -/
theorem frameworkFingerprint_datomSet (datoms : Finset Datom) :
    frameworkFingerprint (datomSetToPairChunk datoms) = ∑ d ∈ datoms, d.contentHash := by
  have hvalue : (fun d : Datom => valueHash d.pairEntry.2) = Datom.contentHash := by
    funext d
    exact dif_pos (Blake3.hash d.canonicalBytes).property
  have hsum := List.sum_toFinset Datom.contentHash (Finset.sort_nodup datoms (· ≤ ·))
  rw [Finset.sort_toFinset] at hsum
  rw [frameworkFingerprint_eq, datomSetToPairChunk, DatomPairChunk.fromSortedUnchecked,
    List.map_map, hsum]
  exact congrArg (fun f => ((datoms.sort (· ≤ ·)).map f).sum) hvalue

omit [Blake3] in
/-- A sum over disjoint parts is the sum over all of them. -/
theorem sum_parts {M : Type} [AddCommMonoid M] (f : Datom → M) {parts : List (Finset Datom)}
    (hdisjoint : parts.Pairwise Disjoint) :
    (parts.map fun part => ∑ d ∈ part, f d).sum = ∑ d ∈ parts.foldr (· ∪ ·) ∅, f d := by
  induction parts with
  | nil => rfl
  | cons part parts ih =>
      obtain ⟨hpart, hparts⟩ := List.pairwise_cons.mp hdisjoint
      have hrest : Disjoint part (parts.foldr (· ∪ ·) ∅) := by
        clear ih hdisjoint hparts
        induction parts with
        | nil => exact Finset.disjoint_empty_right part
        | cons next parts ih =>
            exact Finset.disjoint_union_right.mpr ⟨hpart next List.mem_cons_self,
              ih fun other hother => hpart other (List.mem_cons_of_mem _ hother)⟩
      rw [List.map_cons, List.sum_cons, ih hparts, List.foldr_cons, Finset.sum_union hrest]

/-- The hashers are fed the canonical bytes, with or without the 28 bytes of the timestamp; so the
fingerprints of leaf chunks that divide the datoms of a store add up to the fingerprint of the
store. -/
theorem hashed_canonical (d : Datom) (ps : PositionalStore) (parts : List (Finset Datom))
    (hdisjoint : parts.Pairwise Disjoint)
    (hparts : parts.foldr (· ∪ ·) ∅ = ps.canonical.toFinset) :
    d.contentHasher.fed = d.canonicalBytes ∧
      d.contentHasher.finalize = d.contentHash ∧
      (∃ fields, d.canonicalBytes = fields ++ d.tx.canonicalBytes ++ [d.op.canonicalByte] ∧
        d.tx.canonicalBytes.length = 28 ∧
        (d.hashSigningFields Hasher.new).fed = fields ++ [d.op.canonicalByte]) ∧
      (parts.map fun part => frameworkFingerprint (datomSetToPairChunk part)).foldl xorHash
        zeroHash = ps.fingerprint := by
  refine ⟨d.fed_contentHasher, congrArg Blake3.hash d.fed_contentHasher, ?_, ?_⟩
  · obtain ⟨fields, hcanonical, hsigning⟩ := d.canonicalBytes_split
    refine ⟨fields, hcanonical, d.length_tx_canonicalBytes, ?_⟩
    rw [Datom.fed_hashSigningFields, hsigning]
    rfl
  · have hsum := foldl_xorHash id
      (parts.map fun part => frameworkFingerprint (datomSetToPairChunk part)) zeroHash
    rw [List.map_id] at hsum
    simp only [frameworkFingerprint_datomSet] at hsum ⊢
    rw [ps.fingerprint_eq, computeFingerprint_toFinset ps.sorted, ← hparts,
      ← sum_parts Datom.contentHash hdisjoint]
    exact hsum.trans (zero_add _)

end Partition

section Sample

open Sample

/-- Two numbers in a leaf chunk each. -/
theorem hashed_canonical_twoNumbers :
    [{datom255}, {datom256}].Pairwise (Disjoint (α := Finset Datom)) ∧
      ([{datom255}, {datom256}].map fun part =>
          frameworkFingerprint (datomSetToPairChunk part)).foldl xorHash zeroHash =
        (PositionalStore.fromDatoms [datom255, datom256]).fingerprint := by
  have hne : datom255 ≠ datom256 := by
    intro heq
    exact absurd (congrArg (fun d : Datom => d.value) heq) (by decide)
  have hdisjoint : [{datom255}, {datom256}].Pairwise (Disjoint (α := Finset Datom)) :=
    List.pairwise_pair.mpr (Finset.disjoint_singleton.mpr hne)
  refine ⟨hdisjoint, (hashed_canonical datom255 (PositionalStore.fromDatoms [datom255, datom256])
    [{datom255}, {datom256}] hdisjoint ?_).2.2.2⟩
  rw [PositionalStore.toFinset_fromDatoms]
  simp

end Sample

end Ferratomic
