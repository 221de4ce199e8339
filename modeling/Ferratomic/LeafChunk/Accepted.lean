import Ferratomic.LeafChunk

/-!
# The byte strings of a leaf chunk

`listedEntries` cuts a byte string at its count and its lengths, and `LeafChunk.decode_eq_ok` says
what decoding makes of it: the entries sorted by key, if no two of them have one key. The entries
need not stand in that order, so a chunk has a byte string for every order of its entries; the main
theorem is `LeafChunk.decode_canonical_iff`.
-/

namespace Ferratomic

open Lib

section Layout

/-- The data behind a length. -/
def countedField (bytes : Bytes) : Bytes :=
  (bytes.drop 4).take (leNat (bytes.take 4))

/-- What follows counted data. -/
def afterField (bytes : Bytes) : Bytes :=
  (bytes.drop 4).drop (leNat (bytes.take 4))

/-- A number of entries, cut at their lengths. -/
def markedEntries : Nat → Bytes → List (Bytes × Bytes)
  | 0, _ => []
  | count + 1, bytes =>
      (countedField bytes, countedField (afterField bytes)) ::
        markedEntries count (afterField (afterField bytes))

/-- The entries of a byte string in the order in which they stand in it. -/
def listedEntries (bytes : Bytes) : List (Bytes × Bytes) :=
  markedEntries (leNat ((bytes.drop 1).take 4)) (bytes.drop 5)

/-- The byte string is a tag, a count and that many entries, and nothing is missing or left over. -/
def WellFormed (bytes : Bytes) : Prop :=
  bytes = (LeafChunk.datomPair ⟨listedEntries bytes⟩).encode

instance (bytes : Bytes) : Decidable (WellFormed bytes) :=
  inferInstanceAs (Decidable (_ = _))

/-- The keys of entries ascend strictly. -/
def KeysAscend (entries : List (Bytes × Bytes)) : Prop :=
  entries.Pairwise fun a b => a.1 < b.1

/-- If the entries have different keys, they stand in the order of their keys. -/
def ListsInOrder (bytes : Bytes) : Prop :=
  WellFormed bytes → ((listedEntries bytes).map Prod.fst).Nodup → KeysAscend (listedEntries bytes)

/-- A counted field is cut out of its bytes, and the rest after it. -/
theorem countedField_countedBytes {data : Bytes} (h : data.length ≤ u32Max) (rest : Bytes) :
    countedField (countedBytes data ++ rest) = data ∧
      afterField (countedBytes data ++ rest) = rest := by
  have hlt : data.length < 256 ^ 4 := Nat.lt_succ_of_le h
  have hcount : leNat ((countedBytes data ++ rest).take 4) = data.length := by
    rw [countedBytes, min_eq_left h, List.append_assoc, List.take_left' (length_leBytes _ _),
      leNat_leBytes hlt]
  have hdata : (countedBytes data ++ rest).drop 4 = data ++ rest := by
    rw [countedBytes, List.append_assoc, List.drop_left' (length_leBytes _ _)]
  rw [countedField, afterField, hcount, hdata]
  exact ⟨List.take_left, List.drop_left⟩

/-- Cutting the bytes of entries gives back the entries. -/
theorem markedEntries_flatMap {entries : List (Bytes × Bytes)}
    (h : ∀ entry ∈ entries, entry.1.length ≤ u32Max ∧ entry.2.length ≤ u32Max) :
    markedEntries entries.length (entries.flatMap entryBytes) = entries := by
  induction entries with
  | nil => rfl
  | cons entry rest ih =>
      obtain ⟨⟨hkey, hvalue⟩, hrest⟩ := List.forall_mem_cons.mp h
      obtain ⟨hfield, hafter⟩ := countedField_countedBytes hkey
        (countedBytes entry.2 ++ rest.flatMap entryBytes)
      obtain ⟨hfield', hafter'⟩ := countedField_countedBytes hvalue (rest.flatMap entryBytes)
      rw [List.length_cons, List.flatMap_cons, entryBytes, List.append_assoc, markedEntries, hfield,
        hafter, hfield', hafter', ih hrest]

/-- The entries listed in an encoding are those encoded. -/
theorem listedEntries_encode {entries : List (Bytes × Bytes)} (h : EntriesFit entries) :
    listedEntries (LeafChunk.datomPair ⟨entries⟩).encode = entries := by
  have hlt : entries.length < 256 ^ 4 := Nat.lt_succ_of_le h.1
  show markedEntries (leNat ((DatomPairCodec.encodePayload ⟨entries⟩).take 4))
    ((DatomPairCodec.encodePayload ⟨entries⟩).drop 4) = entries
  rw [DatomPairCodec.encodePayload, min_eq_left h.1, List.take_left' (length_leBytes _ _),
    List.drop_left' (length_leBytes _ _), leNat_leBytes hlt, markedEntries_flatMap h.2]

/-- Four bytes spell a length within 32 bits. -/
theorem leNat_take_le (bytes : Bytes) : leNat (bytes.take 4) ≤ u32Max := by
  have hlt := leNat_lt (bytes.take 4)
  have hpow : 256 ^ (bytes.take 4).length ≤ 256 ^ 4 :=
    Nat.pow_le_pow_right (by decide) (List.length_take_le _ _)
  exact Nat.le_of_lt_succ (hlt.trans_le hpow)

/-- A counted field is within the length limit. -/
theorem length_countedField (bytes : Bytes) : (countedField bytes).length ≤ u32Max :=
  (List.length_take_le _ _).trans (leNat_take_le bytes)

/-- As many entries are marked as were counted. -/
theorem length_markedEntries (count : Nat) (bytes : Bytes) :
    (markedEntries count bytes).length = count := by
  induction count generalizing bytes with
  | zero => rfl
  | succ count ih => rw [markedEntries, List.length_cons, ih]

/-- The fields of every marked entry are within the length limit. -/
theorem mem_markedEntries {count : Nat} {bytes : Bytes} {entry : Bytes × Bytes}
    (h : entry ∈ markedEntries count bytes) :
    entry.1.length ≤ u32Max ∧ entry.2.length ≤ u32Max := by
  induction count generalizing bytes with
  | zero => exact absurd h List.not_mem_nil
  | succ count ih =>
      rcases List.mem_cons.mp h with rfl | h
      · exact ⟨length_countedField _, length_countedField _⟩
      · exact ih h

/-- A four-byte length marks off no more than four bytes can count. -/
theorem entriesFit_listedEntries (bytes : Bytes) : EntriesFit (listedEntries bytes) := by
  refine ⟨?_, fun entry hentry => mem_markedEntries hentry⟩
  rw [listedEntries, length_markedEntries]
  exact leNat_take_le _

end Layout

namespace LeafChunk

/-- A well-formed byte string is decoded to its entries in the order of their keys. -/
theorem decode_wellFormed {bytes : Bytes} (h : WellFormed bytes) :
    decode bytes = (DatomPairChunk.new (listedEntries bytes)).map datomPair := by
  have hpayload := DatomPairCodec.decodePayload_encodePayload (entriesFit_listedEntries bytes)
  have hbytes : bytes = DatomPairCodec.codecTag ::
      DatomPairCodec.encodePayload ⟨listedEntries bytes⟩ := h
  generalize listedEntries bytes = entries at hpayload hbytes
  rw [hbytes, decode, if_pos rfl, hpayload]
  cases DatomPairChunk.new entries <;> rfl

/-- The tag is in front of the payload. -/
theorem decodePayload_of_decode {bytes : Bytes} {chunk : DatomPairChunk}
    (h : decode bytes = .ok (datomPair chunk)) :
    DatomPairCodec.decodePayload (bytes.drop 1) = .ok chunk := by
  cases bytes with
  | nil => cases h
  | cons tag payload =>
      rw [decode] at h
      split at h
      case isFalse => cases h
      case isTrue =>
          obtain ⟨found, hpayload, hchunk⟩ := bind_eq_ok.mp h
          cases hchunk
          exact hpayload

/-- A byte string decodes exactly when it is well formed and no key is repeated. -/
theorem decode_eq_ok {bytes : Bytes} {chunk : LeafChunk} :
    decode bytes = .ok chunk ↔ WellFormed bytes ∧ ((listedEntries bytes).map Prod.fst).Nodup ∧
      chunk = datomPair ⟨sortByKey Prod.fst (listedEntries bytes)⟩ := by
  constructor
  · intro hok
    cases bytes with
    | nil => cases hok
    | cons tag payload =>
        rw [decode] at hok
        split at hok
        case isFalse => cases hok
        case isTrue htag =>
            obtain ⟨found, hpayload, hchunk⟩ := bind_eq_ok.mp hok
            obtain ⟨entries, hfits, rfl, hnew⟩ := DatomPairCodec.decodePayload_eq_ok.mp hpayload
            obtain ⟨hnodup, rfl⟩ := DatomPairChunk.new_eq_ok.mp hnew
            have hlisted :
                listedEntries (tag :: DatomPairCodec.encodePayload ⟨entries⟩) = entries := by
              rw [htag]
              exact listedEntries_encode hfits
            cases hchunk
            rw [WellFormed, hlisted, htag]
            exact ⟨rfl, hnodup, rfl⟩
  · rintro ⟨hformed, hnodup, rfl⟩
    rw [decode_wellFormed hformed, DatomPairChunk.new_eq_ok.mpr ⟨hnodup, rfl⟩]
    rfl

/-- Two entries of one key are the one fault that a well-formed byte string is rejected for. -/
theorem decode_eq_error {bytes : Bytes} (h : WellFormed bytes) :
    decode bytes = .error .nonCanonicalChunk ↔ ¬ ((listedEntries bytes).map Prod.fst).Nodup := by
  constructor
  · intro hfail hnodup
    rw [decode_eq_ok.mpr ⟨h, hnodup, rfl⟩] at hfail
    cases hfail
  · intro hrepeats
    rw [decode_wellFormed h, DatomPairChunk.new_eq_error hrepeats]
    rfl

/-- What an accepted byte string is encoded to: itself, when its entries stand in order. -/
theorem encode_decode_iff {bytes : Bytes} {chunk : LeafChunk} (h : decode bytes = .ok chunk) :
    chunk.encode = bytes ↔ KeysAscend (listedEntries bytes) := by
  obtain ⟨hformed, hnodup, rfl⟩ := decode_eq_ok.mp h
  rw [KeysAscend, ← sortByKey_eq_iff hnodup]
  constructor
  · intro hencode
    have hfits : EntriesFit (sortByKey Prod.fst (listedEntries bytes)) := by
      have hperm := @perm_sortByKey _ _ _ Prod.fst (listedEntries bytes)
      obtain ⟨hcount, hentries⟩ := entriesFit_listedEntries bytes
      exact ⟨hperm.length_eq ▸ hcount, fun entry hentry => hentries entry (hperm.mem_iff.mp hentry)⟩
    have hlisted := listedEntries_encode hfits
    rw [hencode] at hlisted
    exact hlisted.symm
  · intro hsorted
    rw [hsorted]
    exact hformed.symm

/-- Decoding a byte string and encoding the chunk gives the byte string, and entries that are out of
order are rejected, exactly if the entries stand in order or one key is there twice. Byte strings in
order are the only address of their chunk. -/
theorem decode_canonical_iff (bytes : Bytes) :
    ((∀ chunk, decode bytes = .ok chunk → chunk.encode = bytes) ↔ ListsInOrder bytes) ∧
      ((WellFormed bytes → ¬ KeysAscend (listedEntries bytes) →
        decode bytes = .error .nonCanonicalChunk) ↔ ListsInOrder bytes) ∧
      ∀ bytes' chunk, ListsInOrder bytes → ListsInOrder bytes' →
        decode bytes = .ok chunk → decode bytes' = .ok chunk → bytes = bytes' := by
  have hencode {bytes : Bytes} {chunk : LeafChunk} (horder : ListsInOrder bytes)
      (hok : decode bytes = .ok chunk) : chunk.encode = bytes := by
    obtain ⟨hformed, hnodup, -⟩ := decode_eq_ok.mp hok
    exact (encode_decode_iff hok).mpr (horder hformed hnodup)
  refine ⟨⟨fun hencoded hformed hnodup => ?_, fun horder chunk => hencode horder⟩,
    ⟨fun hrejected hformed hnodup => ?_, fun horder hformed hdisorder => ?_⟩,
    fun bytes' chunk horder horder' hok hok' => ?_⟩
  · have hok := decode_eq_ok.mpr ⟨hformed, hnodup, rfl⟩
    exact (encode_decode_iff hok).mp (hencoded _ hok)
  · by_contra hdisorder
    exact (decode_eq_error hformed).mp (hrejected hformed hdisorder) hnodup
  · exact (decode_eq_error hformed).mpr fun hnodup => hdisorder (horder hformed hnodup)
  · rw [← hencode horder hok, hencode horder' hok']

/-- The entries of two keys, the greater one first. -/
def outOfOrder : Bytes :=
  (datomPair ⟨[([1], []), ([0], [])]⟩).encode

/-- Two keys in descending order are accepted and sorted. -/
theorem outOfOrder_accepted :
    decode outOfOrder = .ok (datomPair ⟨[([0], []), ([1], [])]⟩) ∧
      (datomPair ⟨[([0], []), ([1], [])]⟩).encode ≠ outOfOrder ∧
      ¬ KeysAscend (listedEntries outOfOrder) := by
  have hfits : EntriesFit [([1], []), ([0], [])] := by decide
  have hlisted : listedEntries outOfOrder = [([1], []), ([0], [])] := listedEntries_encode hfits
  have hformed : WellFormed outOfOrder := by
    rw [WellFormed, hlisted]
    rfl
  refine ⟨decode_eq_ok.mpr ⟨hformed, ?_, ?_⟩, by decide, ?_⟩
  · rw [hlisted]
    decide
  · rw [hlisted]
    decide
  · rw [hlisted, KeysAscend]
    decide

end LeafChunk

end Ferratomic
