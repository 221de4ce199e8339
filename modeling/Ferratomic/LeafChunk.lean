import Ferratomic.Blake3
import Ferratomic.Canonical.Decode
import Ferratomic.Lib.SortByKey
import Ferratomic.Positional

/-!
# Leaf chunks

The `DatomPair` codec writes a set of datoms as a count and counted pairs of a key and a value: the
canonical bytes of a datom and their hash. `decodePayload_eq_ok` says which byte strings it accepts.
The main theorem is `DatomPairCodec.conformance`: decoding gives back the set that was encoded
when its counts and lengths fit, although the entries are encoded in the order of the datoms and
decoded into the order of the keys.
-/

namespace Ferratomic

open Lib

/-- Key and value bytes in a row. `from_sorted_unchecked` builds one from any entries when the
debug assertions are compiled out. -/
structure DatomPairChunk where
  entries : List (Bytes × Bytes)
  deriving DecidableEq

/-- The leaf chunk encodings; there is one. -/
inductive LeafChunk where
  | datomPair (chunk : DatomPairChunk)
  deriving DecidableEq

section Payload

/-- `DatomPairChunk::new`: sort by key and reject two neighbours of one key. -/
def DatomPairChunk.new (entries : List (Bytes × Bytes)) : Except FerraError DatomPairChunk :=
  let sorted := sortByKey Prod.fst entries
  if repeatsKey Prod.fst sorted then .error .nonCanonicalChunk
  else .ok ⟨sorted⟩

/-- `from_sorted_unchecked` without its debug assertion. -/
def DatomPairChunk.fromSortedUnchecked (entries : List (Bytes × Bytes)) : DatomPairChunk :=
  ⟨entries⟩

/-- A saturating 32-bit length and the data. -/
def countedBytes (data : Bytes) : Bytes :=
  leBytes 4 (min data.length u32Max) ++ data

/-- The bytes of an entry. -/
def entryBytes (entry : Bytes × Bytes) : Bytes :=
  countedBytes entry.1 ++ countedBytes entry.2

namespace DatomPairCodec

/-- `CODEC_TAG` -/
def codecTag : UInt8 := 0x01

/-- `encode_payload`: a saturating count and the entries. -/
def encodePayload (chunk : DatomPairChunk) : Bytes :=
  leBytes 4 (min chunk.entries.length u32Max) ++ chunk.entries.flatMap entryBytes

/-- One round of the loop of `decode_payload`. -/
def readEntry (bytes : Bytes) : Except FerraError ((Bytes × Bytes) × Bytes) := do
  let (key, bytes) ← takeCounted 4 bytes
  let (value, bytes) ← takeCounted 4 bytes
  pure ((key, value), bytes)

/-- The count and the loop of `decode_payload`. -/
def readEntries (bytes : Bytes) : Except FerraError (List (Bytes × Bytes) × Bytes) := do
  let (count, bytes) ← takeBytes 4 bytes
  readMany readEntry (leNat count.val) bytes

/-- `decode_payload` -/
def decodePayload (bytes : Bytes) : Except FerraError DatomPairChunk := do
  let (entries, bytes) ← readEntries bytes
  if bytes ≠ [] then .error .trailingBytes
  else DatomPairChunk.new entries

end DatomPairCodec

namespace LeafChunk

/-- `LeafChunk::encode`: the tag of the codec and its payload. -/
def encode : LeafChunk → Bytes
  | datomPair chunk => DatomPairCodec.codecTag :: DatomPairCodec.encodePayload chunk

/-- `LeafChunk::decode` -/
def decode : Bytes → Except FerraError LeafChunk
  | [] => .error .truncatedChunk
  | tag :: payload =>
      if tag = DatomPairCodec.codecTag then do
        let chunk ← DatomPairCodec.decodePayload payload
        pure (datomPair chunk)
      else .error (.unknownCodecTag tag)

end LeafChunk

/-- `pair_chunk_to_datom_set`: every key is the spelling of a datom. -/
def pairChunkToDatomSet (chunk : DatomPairChunk) : Except FerraError (Finset Datom) := do
  let datoms ← chunk.entries.mapM fun entry => Datom.fromCanonicalBytes entry.1
  pure datoms.toFinset

namespace DatomPairCodec

/-- `DatomPairCodec::decode` -/
def decode (bytes : Bytes) : Except FerraError (Finset Datom) := do
  let chunk ← decodePayload bytes
  pairChunkToDatomSet chunk

/-- The first datom of a set, or the error of an empty one. -/
def firstDatom (datoms : Finset Datom) : Except FerraError Datom :=
  match (datoms.sort (· ≤ ·)).head? with
  | some d => .ok d
  | none => .error .emptyChunk

/-- `boundary_key`: the first datom of the decoded set. -/
def boundaryKey (bytes : Bytes) : Except FerraError Datom := do
  let datoms ← decode bytes
  firstDatom datoms

end DatomPairCodec

/-- `framework_fingerprint`: the exclusive or of the value fields that have the width of a hash. -/
def frameworkFingerprint (chunk : DatomPairChunk) : Hash :=
  chunk.entries.foldl (fun acc entry =>
    if h : entry.2.length = 32 then xorHash acc ⟨entry.2, h⟩ else acc) zeroHash

/-- `LeafChunk::fingerprint` -/
def LeafChunk.fingerprint : LeafChunk → Hash
  | datomPair chunk => frameworkFingerprint chunk

end Payload

section Accepted

/-- The count and the lengths of entries fit their four bytes. -/
def EntriesFit (entries : List (Bytes × Bytes)) : Prop :=
  entries.length ≤ u32Max ∧
    ∀ entry ∈ entries, entry.1.length ≤ u32Max ∧ entry.2.length ≤ u32Max

instance (entries : List (Bytes × Bytes)) : Decidable (EntriesFit entries) :=
  inferInstanceAs (Decidable (_ ∧ _))

/-- A chunk is made of entries exactly when their keys differ, and it is sorted by key. -/
theorem DatomPairChunk.new_eq_ok {entries : List (Bytes × Bytes)} {chunk : DatomPairChunk} :
    DatomPairChunk.new entries = .ok chunk ↔
      (entries.map Prod.fst).Nodup ∧ chunk = ⟨sortByKey Prod.fst entries⟩ := by
  rw [← repeatsKey_sortByKey, DatomPairChunk.new]
  cases repeatsKey Prod.fst (sortByKey Prod.fst entries) with
  | true => simp
  | false => simp [eq_comm]

/-- Entries that share a key are refused. -/
theorem DatomPairChunk.new_eq_error {entries : List (Bytes × Bytes)}
    (h : ¬ (entries.map Prod.fst).Nodup) :
    DatomPairChunk.new entries = .error .nonCanonicalChunk := by
  rw [← repeatsKey_sortByKey, Bool.not_eq_false] at h
  rw [DatomPairChunk.new]
  exact if_pos h

/-- The datoms of a chunk are those that its keys spell. -/
theorem pairChunkToDatomSet_eq_ok {chunk : DatomPairChunk} {datoms : Finset Datom} :
    pairChunkToDatomSet chunk = .ok datoms ↔ ∃ ds, List.Forall₂
      (fun entry d => Datom.fromCanonicalBytes entry.1 = .ok d) chunk.entries ds ∧
        ds.toFinset = datoms := by
  rw [pairChunkToDatomSet, bind_eq_ok]
  exact exists_congr fun ds => and_congr mapM_eq_ok ⟨Except.ok.inj, congrArg Except.ok⟩

namespace DatomPairCodec

/-- The first datom is the least of the set. -/
theorem firstDatom_eq_ok {datoms : Finset Datom} {d : Datom} :
    firstDatom datoms = .ok d ↔ IsLeast (datoms : Set Datom) d := by
  rw [← head?_sort, firstDatom]
  cases (datoms.sort (· ≤ ·)).head? with
  | none => exact iff_of_false nofun nofun
  | some first => rw [Except.ok.injEq, Option.some.injEq]

/-- The empty set has no first datom. -/
theorem firstDatom_empty : firstDatom ∅ = .error .emptyChunk := by
  rw [firstDatom, Finset.sort_empty]
  rfl

/-- A counted byte string takes its length and its bytes. -/
theorem reads_countedBytes :
    Reads (takeCounted 4) fun data spelling =>
      data.length ≤ u32Max ∧ spelling = countedBytes data :=
  (reads_takeCounted 4).congr fun _ _ => counted_iff rfl

/-- `read_entry` takes the bytes of the entry it returns. -/
theorem reads_readEntry :
    Reads readEntry fun entry spelling =>
      (entry.1.length ≤ u32Max ∧ entry.2.length ≤ u32Max) ∧ spelling = entryBytes entry := by
  refine (reads_countedBytes.bind fun key =>
    reads_countedBytes.map fun value => (key, value)).congr fun entry spelling => ?_
  constructor
  · rintro ⟨key, _, _, ⟨hkey, rfl⟩, ⟨value, rfl, hvalue, rfl⟩, rfl⟩
    exact ⟨⟨hkey, hvalue⟩, rfl⟩
  · rintro ⟨⟨hkey, hvalue⟩, rfl⟩
    exact ⟨entry.1, _, _, ⟨hkey, rfl⟩, ⟨entry.2, rfl, hvalue, rfl⟩, rfl⟩

/-- The payload takes the bytes of the entries it returns. -/
theorem reads_readEntries :
    Reads readEntries fun entries spelling =>
      EntriesFit entries ∧ spelling = encodePayload ⟨entries⟩ := by
  refine ((reads_takeBytes 4).bind fun count =>
    reads_readEntry.many (leNat count.val)).congr fun entries spelling => ?_
  constructor
  · rintro ⟨count, _, _, rfl, ⟨hcount, hentries, rfl⟩, rfl⟩
    have hlt := leNat_lt count.val
    have hback := leBytes_leNat count.val
    rw [count.property, ← hcount] at hlt hback
    have hfits : entries.length ≤ u32Max := Nat.le_of_lt_succ hlt
    refine ⟨⟨hfits, hentries⟩, ?_⟩
    rw [encodePayload, min_eq_left hfits, hback]
  · rintro ⟨⟨hfits, hentries⟩, rfl⟩
    have hlt : entries.length < 256 ^ 4 := Nat.lt_succ_of_le hfits
    refine ⟨⟨leBytes 4 entries.length, length_leBytes _ _⟩, _, _, rfl,
      ⟨(leNat_leBytes hlt).symm, hentries, rfl⟩, ?_⟩
    rw [encodePayload, min_eq_left hfits]

/-- The payloads of entries that fit are accepted unless two of them have one key. -/
theorem decodePayload_encodePayload {entries : List (Bytes × Bytes)} (h : EntriesFit entries) :
    decodePayload (encodePayload ⟨entries⟩) = DatomPairChunk.new entries := by
  have hread : readEntries (encodePayload ⟨entries⟩) = .ok (entries, []) :=
    (reads_readEntries _ _ _).mpr ⟨_, ⟨h, rfl⟩, (List.append_nil _).symm⟩
  rw [decodePayload, hread]
  rfl

/-- Nothing but the payload of entries that fit is accepted. -/
theorem decodePayload_eq_ok {bytes : Bytes} {chunk : DatomPairChunk} :
    decodePayload bytes = .ok chunk ↔ ∃ entries, EntriesFit entries ∧
      bytes = encodePayload ⟨entries⟩ ∧ DatomPairChunk.new entries = .ok chunk := by
  constructor
  · intro hok
    obtain ⟨⟨entries, rest⟩, hread, hchunk⟩ := bind_eq_ok.mp hok
    cases rest with
    | nil =>
        obtain ⟨_, ⟨hfits, rfl⟩, hbytes⟩ := (reads_readEntries bytes entries []).mp hread
        exact ⟨entries, hfits, by rw [hbytes, List.append_nil], hchunk⟩
    | cons byte rest => cases hchunk
  · rintro ⟨entries, hfits, rfl, hchunk⟩
    rw [decodePayload_encodePayload hfits, hchunk]

end DatomPairCodec

end Accepted

section Datoms

variable [Blake3]

/-- The entry of a datom: its canonical bytes and their hash. -/
def Datom.pairEntry (d : Datom) : Bytes × Bytes :=
  (d.canonicalBytes, (Blake3.hash d.canonicalBytes).val)

/-- `datom_set_to_pair_chunk` -/
def datomSetToPairChunk (datoms : Finset Datom) : DatomPairChunk :=
  DatomPairChunk.fromSortedUnchecked ((datoms.sort (· ≤ ·)).map Datom.pairEntry)

/-- `DatomPairCodec::encode` -/
def DatomPairCodec.encode (datoms : Finset Datom) : Bytes :=
  DatomPairCodec.encodePayload (datomSetToPairChunk datoms)

/-- The name and the value of a datom fit their lengths, and the whole of it those of an entry. -/
structure Datom.ChunkEncodable (d : Datom) : Prop where
  attr : (utf8Bytes d.attr).length ≤ 65535
  keyword : ∀ text, d.value = .keyword text → (utf8Bytes text).length ≤ 65535
  bytes : d.canonicalBytes.length < 2 ^ 32

omit [Blake3] in
/-- A payload is no longer than the datom around it. -/
theorem Datom.ChunkEncodable.value {d : Datom} (h : d.ChunkEncodable) : d.value.Encodable := by
  have hlength : d.value.canonicalBytes.length < 2 ^ 32 := by
    have hbytes := h.bytes
    simp only [Datom.canonicalBytes, List.length_append] at hbytes
    omega
  cases hvalue : d.value with
  | keyword text => exact h.keyword text hvalue
  | string text =>
      rw [hvalue] at hlength
      simp only [Value.canonicalBytes, Value.tagU32, List.length_cons, List.length_append]
        at hlength
      show (utf8Bytes text).length ≤ 2 ^ 32 - 1
      omega
  | bytes blob =>
      rw [hvalue] at hlength
      simp only [Value.canonicalBytes, Value.tagU32, List.length_cons, List.length_append]
        at hlength
      show blob.length ≤ 2 ^ 32 - 1
      omega
  | _ => exact trivial

omit [Blake3] in
/-- An encodable datom is read back from its canonical bytes. -/
theorem Datom.ChunkEncodable.fromCanonicalBytes {d : Datom} (h : d.ChunkEncodable) :
    Datom.fromCanonicalBytes d.canonicalBytes = .ok d :=
  fromCanonicalBytes_eq_ok.mpr
    ⟨h.attr, d.value.canonicalBytes, .inl ⟨h.value, rfl⟩, d.canonicalBytes_eq⟩

variable {D : Finset Datom}

/-- The entries of a set within the bounds fit the length fields. -/
theorem entriesFit_datomSetToPairChunk (hcard : D.card < 2 ^ 32)
    (hfits : ∀ d ∈ D, d.ChunkEncodable) : EntriesFit (datomSetToPairChunk D).entries := by
  constructor
  · show ((D.sort (· ≤ ·)).map Datom.pairEntry).length ≤ u32Max
    rw [List.length_map, Finset.length_sort]
    exact Nat.le_sub_one_of_lt hcard
  · intro entry hentry
    obtain ⟨d, hd, rfl⟩ := List.mem_map.mp hentry
    have hbytes := (hfits d ((Finset.mem_sort _).mp hd)).bytes
    have hhash := (Blake3.hash d.canonicalBytes).property
    refine ⟨Nat.le_sub_one_of_lt hbytes, ?_⟩
    show (Blake3.hash d.canonicalBytes).val.length ≤ u32Max
    rw [hhash]
    decide

/-- Different datoms have different keys. -/
theorem nodup_keys_datomSetToPairChunk (hfits : ∀ d ∈ D, d.ChunkEncodable) :
    ((datomSetToPairChunk D).entries.map Prod.fst).Nodup := by
  show (((D.sort (· ≤ ·)).map Datom.pairEntry).map Prod.fst).Nodup
  rw [List.map_map]
  refine List.Nodup.map_on (fun d hd d' hd' hkey => ?_) (Finset.sort_nodup _ _)
  have hread := (hfits d ((Finset.mem_sort _).mp hd)).fromCanonicalBytes
  have hread' := (hfits d' ((Finset.mem_sort _).mp hd')).fromCanonicalBytes
  have hkey : d.canonicalBytes = d'.canonicalBytes := hkey
  rw [hkey, hread'] at hread
  exact (Except.ok.inj hread).symm

/-- Decoding gives back the set that was encoded. -/
theorem DatomPairCodec.decode_encode (hcard : D.card < 2 ^ 32)
    (hfits : ∀ d ∈ D, d.ChunkEncodable) :
    DatomPairCodec.decode (DatomPairCodec.encode D) = .ok D := by
  have hpayload : decodePayload (encode D) =
      .ok ⟨sortByKey Prod.fst (datomSetToPairChunk D).entries⟩ :=
    (decodePayload_encodePayload (entriesFit_datomSetToPairChunk hcard hfits)).trans
      (DatomPairChunk.new_eq_ok.mpr ⟨nodup_keys_datomSetToPairChunk hfits, rfl⟩)
  rw [decode, hpayload]
  refine pairChunkToDatomSet_eq_ok.mpr
    ⟨sortByKey (Prod.fst ∘ Datom.pairEntry) (D.sort (· ≤ ·)), ?_, ?_⟩
  · -- The order of the keys is one of the datoms as well, so that each entry is that of its datom.
    show List.Forall₂ _ (sortByKey Prod.fst ((D.sort (· ≤ ·)).map Datom.pairEntry)) _
    rw [sortByKey_map, List.forall₂_map_left_iff, List.forall₂_same]
    intro d hd
    have hmem := (perm_sortByKey _).mem_iff.mp hd
    exact (hfits d ((Finset.mem_sort _).mp hmem)).fromCanonicalBytes
  · rw [List.toFinset_eq_of_perm _ _ (perm_sortByKey _), Finset.sort_toFinset]

/-- The boundary key of an encoded set is its least datom. -/
theorem DatomPairCodec.boundaryKey_encode (hcard : D.card < 2 ^ 32)
    (hfits : ∀ d ∈ D, d.ChunkEncodable) (d : Datom) :
    DatomPairCodec.boundaryKey (DatomPairCodec.encode D) = .ok d ↔ IsLeast (D : Set Datom) d := by
  rw [boundaryKey, decode_encode hcard hfits]
  exact firstDatom_eq_ok

/-- The codec loses nothing of a set whose counts and lengths fit: decoding gives it back, its least
datom is the boundary key, and no other set has its bytes. -/
theorem DatomPairCodec.conformance (hcard : D.card < 2 ^ 32)
    (hfits : ∀ d ∈ D, d.ChunkEncodable) :
    DatomPairCodec.decode (DatomPairCodec.encode D) = .ok D ∧
      (∀ d, DatomPairCodec.boundaryKey (DatomPairCodec.encode D) = .ok d ↔
        IsLeast (D : Set Datom) d) ∧
      (D = ∅ → DatomPairCodec.boundaryKey (DatomPairCodec.encode D) = .error .emptyChunk) ∧
      ∀ D' : Finset Datom, D'.card < 2 ^ 32 → (∀ d ∈ D', d.ChunkEncodable) → D ≠ D' →
        DatomPairCodec.encode D ≠ DatomPairCodec.encode D' := by
  refine ⟨decode_encode hcard hfits, boundaryKey_encode hcard hfits, ?_, ?_⟩
  · rintro rfl
    rw [boundaryKey, decode_encode hcard hfits]
    exact firstDatom_empty
  · intro D' hcard' hfits' hne hbytes
    have hdecode := decode_encode hcard hfits
    rw [hbytes, decode_encode hcard' hfits'] at hdecode
    exact hne (Except.ok.inj hdecode).symm

end Datoms

section Sample

def datom255 : Datom :=
  datomWith (.long ⟨255, by decide⟩)

def datom256 : Datom :=
  datomWith (.long ⟨256, by decide⟩)

/-- Two datoms whose keys are in the other order. -/
def twoNumbers : Finset Datom :=
  {datom255, datom256}

/-- The sample datom of a short value is encodable. -/
theorem chunkEncodable_datomWith {value : Value} (hlength : value.canonicalBytes.length ≤ 65535)
    (hkeyword : ∀ text, value = .keyword text → (utf8Bytes text).length ≤ 65535) :
    (datomWith value).ChunkEncodable where
  attr := length_datomWith_attr value
  keyword := hkeyword
  bytes := by
    have hattr := length_datomWith_attr value
    have hentity := (datomWith value).entity.property
    have hnode := (datomWith value).tx.node.property
    have hvalue : (datomWith value).value.canonicalBytes.length ≤ 65535 := hlength
    simp only [Datom.canonicalBytes, canonicalAttrBytes, TxId.canonicalBytes, List.length_append,
      List.length_cons, List.length_nil, length_leBytes, hentity, hnode]
    rw [maxAttributeBytes] at hattr
    omega

/-- The sample datom of a number is encodable. -/
theorem chunkEncodable_datomWith_long (number : SignedInt 64) :
    (datomWith (.long number)).ChunkEncodable :=
  chunkEncodable_datomWith (by simp [Value.canonicalBytes, SignedInt.leBytes]) nofun

/-- The two sample datoms are encodable. -/
theorem chunkEncodable_twoNumbers {d : Datom} (h : d ∈ twoNumbers) : d.ChunkEncodable := by
  rcases Finset.mem_insert.mp h with rfl | h
  · exact chunkEncodable_datomWith_long _
  · rw [Finset.mem_singleton.mp h]
    exact chunkEncodable_datomWith_long _

/-- The two sample datoms are read back from their chunk. -/
theorem conformance_twoNumbers :
    DatomPairCodec.decode (DatomPairCodec.encode twoNumbers) = .ok twoNumbers :=
  (DatomPairCodec.conformance (lt_of_le_of_lt (Finset.card_insert_le _ _) (by decide))
    fun _ => chunkEncodable_twoNumbers).1

end Sample

end Ferratomic
