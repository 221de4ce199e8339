import Ferratomic.Fingerprint
import Ferratomic.LeafChunk.Accepted

/-!
# The fingerprint of a leaf chunk

`framework_fingerprint` sums the value fields of a chunk, while its datoms are read from its keys. A
value field need not be the content hash of the datom that its key spells, and two keys may spell
one datom, by the two zeros of a double. `fingerprint_eq` gives the fingerprint as that of the
datoms and an error made of these two, and the main theorem `fingerprint_eq_iff` says that it is
right exactly if the errors cancel.
-/

namespace Ferratomic

open Lib

section Spelled

/-- The datom that a key spells in one of the two ways: with the bits of negative zero, or without.
-/
def spelledBy (negative : Bool) (key : Bytes) : Option Datom :=
  if decide (NegativeZero key) = negative then (Datom.fromCanonicalBytes key).toOption else none

/-- The datoms that keys spell in one of the two ways. -/
def spelled (negative : Bool) (keys : List Bytes) : List Datom :=
  keys.filterMap (spelledBy negative)

/-- The datoms that two of the keys spell. -/
def spelledTwice (keys : List Bytes) : Finset Datom :=
  (spelled false keys).toFinset ∩ (spelled true keys).toFinset

/-- A key spells a datom it decodes to, with or without a negative zero. -/
theorem spelledBy_eq_some {negative : Bool} {key : Bytes} {d : Datom} :
    spelledBy negative key = some d ↔
      decide (NegativeZero key) = negative ∧ Datom.fromCanonicalBytes key = .ok d := by
  rw [spelledBy]
  split
  case isTrue h =>
      rw [and_iff_right h]
      cases Datom.fromCanonicalBytes key with
      | error e => exact iff_of_false nofun nofun
      | ok found => rw [Except.toOption, Option.some.injEq, Except.ok.injEq]
  case isFalse h => exact iff_of_false nofun fun hboth => h hboth.1

/-- A key that spells a datom does so in one of the two ways. -/
theorem spelledBy_of_read {key : Bytes} {d : Datom} (h : Datom.fromCanonicalBytes key = .ok d)
    (negative : Bool) :
    spelledBy negative key = if decide (NegativeZero key) = negative then some d else none := by
  rw [spelledBy, h]
  rfl

/-- In each of the two ways different keys spell different datoms. -/
theorem nodup_spelled {keys : List Bytes} (h : keys.Nodup) (negative : Bool) :
    (spelled negative keys).Nodup := by
  refine h.filterMap fun key key' d hkey hkey' => ?_
  obtain ⟨hway, hread⟩ := spelledBy_eq_some.mp hkey
  obtain ⟨hway', hread'⟩ := spelledBy_eq_some.mp hkey'
  refine ((canonicalBytes_fromCanonicalBytes_iff hread).2 key' hread').mpr ?_
  rw [← hway'] at hway
  exact decide_eq_decide.mp hway

/-- Every key spells its datom in one of the two ways. -/
theorem sum_spelled {keys : List Bytes} {ds : List Datom} {M : Type} [AddCommMonoid M]
    (h : List.Forall₂ (fun key d => Datom.fromCanonicalBytes key = .ok d) keys ds) (f : Datom → M) :
    (ds.map f).sum = ((spelled false keys).map f).sum + ((spelled true keys).map f).sum := by
  induction h with
  | nil => exact (add_zero 0).symm
  | @cons key d keys ds hread hrest ih =>
      have hkey := spelledBy_of_read hread
      by_cases hzero : NegativeZero key
      · simp only [spelled, List.filterMap_cons, hkey, hzero, decide_true, reduceCtorEq, if_true,
          if_false, List.map_cons, List.sum_cons] at ih ⊢
        rw [ih, add_left_comm]
      · simp only [spelled, List.filterMap_cons, hkey, hzero, decide_false, reduceCtorEq, if_true,
          if_false, List.map_cons, List.sum_cons] at ih ⊢
        rw [ih, add_assoc]

/-- Every decoded datom is spelt with a negative zero or without one. -/
theorem toFinset_spelled {keys : List Bytes} {ds : List Datom}
    (h : List.Forall₂ (fun key d => Datom.fromCanonicalBytes key = .ok d) keys ds) :
    (spelled false keys).toFinset ∪ (spelled true keys).toFinset = ds.toFinset := by
  induction h with
  | nil => rfl
  | @cons key d keys ds hread hrest ih =>
      have hkey := spelledBy_of_read hread
      rw [List.toFinset_cons, ← ih]
      by_cases hzero : NegativeZero key
      · simp only [spelled, List.filterMap_cons, hkey, hzero, decide_true, reduceCtorEq, if_true,
          if_false, List.toFinset_cons, Finset.union_insert]
      · simp only [spelled, List.filterMap_cons, hkey, hzero, decide_false, reduceCtorEq, if_true,
          if_false, List.toFinset_cons, Finset.insert_union]

/-- The datoms that keys spell one by one are those of their set, and once more those that two keys
spell. -/
theorem sum_datoms {keys : List Bytes} {ds : List Datom} {M : Type} [AddCommMonoid M]
    (hkeys : keys.Nodup)
    (h : List.Forall₂ (fun key d => Datom.fromCanonicalBytes key = .ok d) keys ds) (f : Datom → M) :
    (ds.map f).sum = ∑ d ∈ ds.toFinset, f d + ∑ d ∈ spelledTwice keys, f d := by
  rw [sum_spelled h, ← toFinset_spelled h, spelledTwice, Finset.sum_union_inter,
    List.sum_toFinset f (nodup_spelled hkeys false), List.sum_toFinset f (nodup_spelled hkeys true)]

/-- Keys that are all canonical spell no datom twice. -/
theorem spelledTwice_eq_empty {keys : List Bytes} (h : ∀ key ∈ keys, ¬ NegativeZero key) :
    spelledTwice keys = ∅ := by
  have hnone : spelled true keys = [] :=
    List.filterMap_eq_nil_iff.mpr fun key hkey => if_neg (by simp [h key hkey])
  rw [spelledTwice, hnone]
  exact Finset.inter_empty _

end Spelled

/-- The hash in a value field; a value of another width counts for nothing. -/
def valueHash (value : Bytes) : Hash :=
  if h : value.length = 32 then ⟨value, h⟩ else zeroHash

/-- The fingerprint of a chunk is the sum of its value fields. -/
theorem frameworkFingerprint_eq (chunk : DatomPairChunk) :
    frameworkFingerprint chunk = (chunk.entries.map fun entry => valueHash entry.2).sum := by
  have hstep : (fun (acc : Hash) (entry : Bytes × Bytes) =>
      if h : entry.2.length = 32 then xorHash acc ⟨entry.2, h⟩ else acc) =
        fun acc entry => xorHash acc (valueHash entry.2) := by
    funext acc entry
    rw [valueHash]
    split
    case isTrue => rfl
    case isFalse => exact (add_zero acc).symm
  rw [frameworkFingerprint, hstep, foldl_xorHash]
  exact zero_add _

section Errors

variable [Blake3]

/-- By how much the value field of an entry differs from the content hash of its datom. -/
def valueError (entry : Bytes × Bytes) : Hash :=
  match Datom.fromCanonicalBytes entry.1 with
  | .ok d => xorHash (valueHash entry.2) d.contentHash
  | .error _ => zeroHash

/-- The errors of the value fields, and the content hashes of the datoms that two keys spell. -/
def fingerprintError (entries : List (Bytes × Bytes)) : Hash :=
  (entries.map valueError).sum + ∑ d ∈ spelledTwice (entries.map Prod.fst), d.contentHash

/-- Every value field is the content hash of the datom that its key spells, and no two keys spell
one datom. -/
def FieldsAgree (entries : List (Bytes × Bytes)) : Prop :=
  (∀ entry ∈ entries, ∀ d, Datom.fromCanonicalBytes entry.1 = .ok d → entry.2 = d.contentHash.val) ∧
    spelledTwice (entries.map Prod.fst) = ∅

/-- A value field that holds the content hash of its key has no error. -/
theorem valueError_eq_zero {entry : Bytes × Bytes}
    (h : ∀ d, Datom.fromCanonicalBytes entry.1 = .ok d → entry.2 = d.contentHash.val) :
    valueError entry = 0 := by
  rw [valueError]
  cases hread : Datom.fromCanonicalBytes entry.1 with
  | error e => rfl
  | ok d =>
      have hvalue : valueHash entry.2 = d.contentHash := by
        rw [valueHash, dif_pos (by rw [h d hread, d.contentHash.property])]
        exact Subtype.ext (h d hread)
      show valueHash entry.2 + d.contentHash = 0
      rw [hvalue, hash_add_self]

/-- Fields that agree have no error. -/
theorem FieldsAgree.fingerprintError {entries : List (Bytes × Bytes)} (h : FieldsAgree entries) :
    fingerprintError entries = 0 := by
  obtain ⟨hvalues, htwice⟩ := h
  have hzero : (entries.map valueError).sum = 0 := by
    refine List.sum_eq_zero fun x hx => ?_
    obtain ⟨entry, hentry, rfl⟩ := List.mem_map.mp hx
    exact valueError_eq_zero (hvalues entry hentry)
  rw [Ferratomic.fingerprintError, hzero, htwice, Finset.sum_empty, add_zero]

/-- The entries that the encoder makes of a set agree with its datoms. -/
theorem fieldsAgree_datomSetToPairChunk {D : Finset Datom} (h : ∀ d ∈ D, d.ChunkEncodable) :
    FieldsAgree (datomSetToPairChunk D).entries := by
  have hentry {entry : Bytes × Bytes} (hmem : entry ∈ (datomSetToPairChunk D).entries) :
      ∃ d, Datom.fromCanonicalBytes d.canonicalBytes = .ok d ∧ d.pairEntry = entry := by
    obtain ⟨d, hd, rfl⟩ := List.mem_map.mp hmem
    exact ⟨d, (h d ((Finset.mem_sort _).mp hd)).fromCanonicalBytes, rfl⟩
  refine ⟨fun entry hmem d hread => ?_, spelledTwice_eq_empty fun key hkey => ?_⟩
  · obtain ⟨d', hread', rfl⟩ := hentry hmem
    obtain rfl : d' = d := Except.ok.inj (hread'.symm.trans hread)
    rfl
  · obtain ⟨entry, hmem, rfl⟩ := List.mem_map.mp hkey
    obtain ⟨d, hread, rfl⟩ := hentry hmem
    exact (canonicalBytes_fromCanonicalBytes_iff hread).1.mp rfl

/-- The errors of the value fields are what is between these fields and the content hashes. -/
theorem sum_valueError {entries : List (Bytes × Bytes)} {ds : List Datom}
    (h : List.Forall₂ (fun entry d => Datom.fromCanonicalBytes entry.1 = .ok d) entries ds) :
    (entries.map valueError).sum =
      (entries.map fun entry => valueHash entry.2).sum + (ds.map Datom.contentHash).sum := by
  induction h with
  | nil => exact (add_zero 0).symm
  | @cons entry d entries ds hread hrest ih =>
      have hentry : valueError entry = valueHash entry.2 + d.contentHash := by
        rw [valueError, hread]
        rfl
      rw [List.map_cons, List.sum_cons, ih, List.map_cons, List.sum_cons, List.map_cons,
        List.sum_cons, hentry, add_add_add_comm]

/-- A permutation of the entries has the same error. -/
theorem fingerprintError_perm {entries entries' : List (Bytes × Bytes)}
    (h : entries.Perm entries') : fingerprintError entries = fingerprintError entries' := by
  have hspelled (negative : Bool) : (spelled negative (entries.map Prod.fst)).toFinset =
      (spelled negative (entries'.map Prod.fst)).toFinset :=
    List.toFinset_eq_of_perm _ _ ((h.map Prod.fst).filterMap _)
  rw [fingerprintError, fingerprintError, (h.map valueError).sum_eq, spelledTwice, spelledTwice,
    hspelled, hspelled]

/-- The fingerprint of a chunk is that of its datoms and the error of its entries. -/
theorem frameworkFingerprint_error {chunk : DatomPairChunk} {D : Finset Datom}
    (hkeys : (chunk.entries.map Prod.fst).Nodup) (hD : pairChunkToDatomSet chunk = .ok D) :
    frameworkFingerprint chunk = ∑ d ∈ D, d.contentHash + fingerprintError chunk.entries := by
  obtain ⟨ds, hds, rfl⟩ := pairChunkToDatomSet_eq_ok.mp hD
  have hread : List.Forall₂ (fun key d => Datom.fromCanonicalBytes key = .ok d)
      (chunk.entries.map Prod.fst) ds := List.forall₂_map_left_iff.mpr hds
  have hsum := sum_datoms hkeys hread Datom.contentHash
  -- Both sums of content hashes occur twice, and cancel.
  calc frameworkFingerprint chunk
      = (chunk.entries.map fun entry => valueHash entry.2).sum := frameworkFingerprint_eq chunk
    _ = (chunk.entries.map valueError).sum + (ds.map Datom.contentHash).sum := by
        rw [sum_valueError hds, add_assoc, hash_add_self, add_zero]
    _ = ∑ d ∈ ds.toFinset, d.contentHash + fingerprintError chunk.entries := by
        rw [hsum, fingerprintError]
        abel

namespace LeafChunk

variable {bytes : Bytes} {chunk : LeafChunk} {D : Finset Datom}

/-- The fingerprint of a chunk is that of its datoms and the error of its entries. -/
theorem fingerprint_eq (h : decode bytes = .ok chunk)
    (hD : DatomPairCodec.decode (bytes.drop 1) = .ok D) :
    chunk.fingerprint =
      computeFingerprint (D.sort (· ≤ ·)) + fingerprintError (listedEntries bytes) := by
  obtain ⟨-, hnodup, rfl⟩ := decode_eq_ok.mp h
  have hperm := @perm_sortByKey _ _ _ Prod.fst (listedEntries bytes)
  have hset : pairChunkToDatomSet ⟨sortByKey Prod.fst (listedEntries bytes)⟩ = .ok D := by
    rwa [DatomPairCodec.decode, decodePayload_of_decode h] at hD
  rw [computeFingerprint_sort, ← fingerprintError_perm hperm]
  exact frameworkFingerprint_error ((hperm.map Prod.fst).nodup_iff.mpr hnodup) hset

/-- The fingerprint of an accepted byte string is that of its datoms exactly if the errors of the
value fields and the datoms that are spelled twice cancel, as they do where there are none, and two
byte strings with the same datoms have one fingerprint exactly if they have one error. -/
theorem fingerprint_eq_iff (h : decode bytes = .ok chunk)
    (hD : DatomPairCodec.decode (bytes.drop 1) = .ok D) :
    (chunk.fingerprint = computeFingerprint (D.sort (· ≤ ·)) ↔
      fingerprintError (listedEntries bytes) = zeroHash) ∧
    (FieldsAgree (listedEntries bytes) →
      chunk.fingerprint = computeFingerprint (D.sort (· ≤ ·))) ∧
    ∀ bytes' chunk', decode bytes' = .ok chunk' →
      DatomPairCodec.decode (bytes'.drop 1) = .ok D →
      (chunk.fingerprint = chunk'.fingerprint ↔
        fingerprintError (listedEntries bytes) = fingerprintError (listedEntries bytes')) := by
  refine ⟨?_, fun hagree => ?_, fun bytes' chunk' h' hD' => ?_⟩
  · rw [fingerprint_eq h hD]
    exact add_eq_left
  · rw [fingerprint_eq h hD, hagree.fingerprintError, add_zero]
  · rw [fingerprint_eq h hD, fingerprint_eq h' hD', add_right_inj]

end LeafChunk

end Errors

namespace Sample

/-- A datom with a flag. -/
def flagged : Datom :=
  datomWith (.bool true)

/-- The byte string of one entry, with a given value field. -/
def oneEntry (value : Bytes) : Bytes :=
  (LeafChunk.datomPair ⟨[(flagged.canonicalBytes, value)]⟩).encode

/-- The sample datom is encodable. -/
theorem chunkEncodable_flagged : flagged.ChunkEncodable :=
  chunkEncodable_datomWith (by decide) nofun

/-- One sample entry with a short value fits the length fields. -/
theorem entriesFit_oneEntry {value : Bytes} (h : value.length ≤ u32Max) :
    EntriesFit [(flagged.canonicalBytes, value)] := by
  refine ⟨Nat.le_of_ble_eq_true rfl, fun entry hentry => ?_⟩
  rw [List.mem_singleton.mp hentry]
  exact ⟨Nat.le_sub_one_of_lt chunkEncodable_flagged.bytes, h⟩

/-- Whatever the value field is, the byte string is accepted. -/
theorem decode_oneEntry {value : Bytes} (h : value.length ≤ u32Max) :
    LeafChunk.decode (oneEntry value) =
        .ok (.datomPair ⟨[(flagged.canonicalBytes, value)]⟩) ∧
      DatomPairCodec.decode ((oneEntry value).drop 1) = .ok {flagged} := by
  have hpayload : DatomPairCodec.decodePayload ((oneEntry value).drop 1) =
      .ok ⟨[(flagged.canonicalBytes, value)]⟩ :=
    DatomPairCodec.decodePayload_encodePayload (entriesFit_oneEntry h)
  constructor
  · show (DatomPairCodec.decodePayload ((oneEntry value).drop 1) >>= fun chunk =>
      pure (LeafChunk.datomPair chunk)) = _
    rw [hpayload]
    rfl
  · rw [DatomPairCodec.decode, hpayload]
    exact pairChunkToDatomSet_eq_ok.mpr
      ⟨[flagged], .cons chunkEncodable_flagged.fromCanonicalBytes .nil, rfl⟩

/-- The fingerprint of a single entry is its value field. -/
theorem fingerprint_oneEntry {value : Hash} :
    (LeafChunk.datomPair ⟨[(flagged.canonicalBytes, value.val)]⟩).fingerprint = value := by
  show frameworkFingerprint _ = value
  rw [frameworkFingerprint_eq, List.map_singleton, List.sum_singleton, valueHash,
    dif_pos value.property]

/-- The chunk that the encoder makes of two numbers has the fingerprint of their set. -/
theorem fingerprint_twoNumbers :
    ∃ chunk, LeafChunk.decode (LeafChunk.datomPair (datomSetToPairChunk twoNumbers)).encode =
        .ok chunk ∧
      DatomPairCodec.decode
          ((LeafChunk.datomPair (datomSetToPairChunk twoNumbers)).encode.drop 1) =
        .ok twoNumbers ∧
      chunk.fingerprint = computeFingerprint (twoNumbers.sort (· ≤ ·)) := by
  have hcard : twoNumbers.card < 2 ^ 32 :=
    lt_of_le_of_lt (Finset.card_insert_le _ _) (by decide)
  have hencodable : ∀ d ∈ twoNumbers, d.ChunkEncodable := fun _ => chunkEncodable_twoNumbers
  have hfits := entriesFit_datomSetToPairChunk hcard hencodable
  have hset : DatomPairCodec.decode
      ((LeafChunk.datomPair (datomSetToPairChunk twoNumbers)).encode.drop 1) = .ok twoNumbers :=
    DatomPairCodec.decode_encode hcard hencodable
  have hpayload : DatomPairCodec.decodePayload
      ((LeafChunk.datomPair (datomSetToPairChunk twoNumbers)).encode.drop 1) =
        .ok ⟨sortByKey Prod.fst (datomSetToPairChunk twoNumbers).entries⟩ :=
    (DatomPairCodec.decodePayload_encodePayload hfits).trans
      (DatomPairChunk.new_eq_ok.mpr ⟨nodup_keys_datomSetToPairChunk hencodable, rfl⟩)
  have hchunk : LeafChunk.decode (LeafChunk.datomPair (datomSetToPairChunk twoNumbers)).encode =
      .ok (.datomPair ⟨sortByKey Prod.fst (datomSetToPairChunk twoNumbers).entries⟩) := by
    show (DatomPairCodec.decodePayload
      ((LeafChunk.datomPair (datomSetToPairChunk twoNumbers)).encode.drop 1) >>= fun chunk =>
        pure (LeafChunk.datomPair chunk)) = _
    rw [hpayload]
    rfl
  refine ⟨_, hchunk, hset, (LeafChunk.fingerprint_eq_iff hchunk hset).2.1 ?_⟩
  rw [listedEntries_encode hfits]
  exact fieldsAgree_datomSetToPairChunk hencodable

/-- All bits of a hash. -/
def allBits : Hash :=
  ⟨List.replicate 32 0xFF, rfl⟩

/-- A value field with the bits of the content hash flipped is accepted, and gives the chunk of one
datom another fingerprint than the set of the datom. -/
theorem fingerprint_flipped :
    LeafChunk.decode (oneEntry (xorHash flagged.contentHash allBits).val) =
        .ok (.datomPair ⟨[(flagged.canonicalBytes, (xorHash flagged.contentHash allBits).val)]⟩) ∧
      DatomPairCodec.decode ((oneEntry (xorHash flagged.contentHash allBits).val).drop 1) =
        .ok {flagged} ∧
      (LeafChunk.datomPair ⟨[(flagged.canonicalBytes,
        (xorHash flagged.contentHash allBits).val)]⟩).fingerprint ≠
          computeFingerprint (Finset.sort {flagged} (· ≤ ·)) := by
  have hlength : (xorHash flagged.contentHash allBits).val.length ≤ u32Max := by
    rw [(xorHash flagged.contentHash allBits).property]
    decide
  obtain ⟨hchunk, hset⟩ := decode_oneEntry hlength
  refine ⟨hchunk, hset, ?_⟩
  rw [fingerprint_oneEntry, computeFingerprint_sort, Finset.sum_singleton]
  intro hsame
  have hzero : allBits = zeroHash := add_eq_left.mp hsame
  exact absurd hzero (by decide)

end Sample

end Ferratomic
