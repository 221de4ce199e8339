import Ferratomic.Lib.Cursor
import Ferratomic.Prolly.Accepted

/-!
# Decoding chunks by offsets

The decoders of chunks keep the whole byte string and an offset into it, which they advance field by
field after a check that the field is there. They do on every byte string what the decoders of the
rest do (`deserializeLeafChunk_eq`, `decodeChildAddrs_eq`, `decodeInternalChildren_eq`). The main
theorem, `chunk_codecs`, is about them: a leaf is accepted exactly when it is an encoding, and the
two decoders of an internal chunk agree on every byte string.
-/

namespace Ferratomic.Prolly.Offset

open Lib

section Model

/-- `read4`: the number in the four bytes at an offset. -/
def read4 (data : Bytes) (offset : Nat) : Except FerraError Nat :=
  if offset + 4 > data.length then .error .truncatedChunk
  else .ok (leNat ((data.drop offset).take 4))

/-- `check_len` -/
def checkLen (data : Bytes) (offset need : Nat) : Except FerraError Unit :=
  if offset + need > data.length then .error .truncatedChunk else .ok ()

/-- A length in four bytes and the data. -/
def readCounted (data : Bytes) (pos : Nat) : Except FerraError (Bytes × Nat) := do
  let len ← read4 data pos
  let pos := pos + 4
  checkLen data pos len
  .ok ((data.drop pos).take len, pos + len)

/-- An address, copied into an array of its length. -/
def readHash (data : Bytes) (pos : Nat) : Except FerraError (Hash × Nat) :=
  if h : pos + 32 > data.length then .error .truncatedChunk
  else .ok (⟨(data.drop pos).take 32, by rw [List.length_take, List.length_drop]; omega⟩, pos + 32)

/-- An entry of a leaf chunk. -/
def readEntry (data : Bytes) (pos : Nat) : Except FerraError (KvEntry × Nat) := do
  let (key, pos) ← readCounted data pos
  let (value, pos) ← readCounted data pos
  .ok ((key, value), pos)

/-- The address of a child; the offset goes over its separator without a check. -/
def readChildAddr (data : Bytes) (pos : Nat) : Except FerraError (Hash × Nat) := do
  let sepLen ← read4 data pos
  let pos := pos + (4 + sepLen)
  readHash data pos

/-- A child of an internal chunk. -/
def readChild (data : Bytes) (pos : Nat) : Except FerraError (Child × Nat) := do
  let (separator, pos) ← readCounted data pos
  let (hash, pos) ← readHash data pos
  .ok ((separator, hash), pos)

/-- `deserialize_leaf_chunk` -/
def deserializeLeafChunk (data : Bytes) : Except FerraError (List KvEntry) :=
  match data with
  | [] => .error .emptyChunk
  | tag :: _ =>
      if tag ≠ 0x01 then .error (.unknownCodecTag tag)
      else if data.length < 5 then .error .truncatedChunk
      else do
        let count ← read4 data 1
        let (entries, pos) ← readManyAt readEntry data count 5
        if pos ≠ data.length then .error .trailingBytes
        else if ascending entries then .ok entries
        else .error .nonCanonicalChunk

/-- The children of an internal chunk; a leaf has none. -/
def decodeChildren {α : Type} (child : Bytes → Nat → Except FerraError (α × Nat)) (data : Bytes) :
    Except FerraError (List α) :=
  match data with
  | [] => .error .emptyChunk
  | tag :: _ =>
      if tag = 0x01 then .ok []
      else if tag = 0x02 then
        if data.length < 6 then .error .truncatedChunk
        else do
          -- the level byte at offset 1 is not needed
          let count ← read4 data 2
          let (children, _) ← readManyAt child data count 6
          .ok children
      else .error (.unknownCodecTag tag)

/-- `decode_child_addrs` -/
def decodeChildAddrs (data : Bytes) : Except FerraError (List Hash) :=
  decodeChildren readChildAddr data

/-- `decode_internal_children` -/
def decodeInternalChildren (data : Bytes) : Except FerraError (List Child) :=
  decodeChildren readChild data

end Model

section Rest

/-- Four bytes read at an offset are those read from the rest. -/
theorem read4_eq {data : Bytes} {offset : Nat} (h : offset ≤ data.length) :
    Prolly.read4 (data.drop offset) =
      (read4 data offset).map fun n => (n, data.drop (offset + 4)) := by
  unfold Prolly.read4 read4
  rw [List.length_drop]
  by_cases hshort : offset + 4 > data.length
  · rw [if_pos (by omega), if_pos hshort]
    rfl
  · rw [if_neg (by omega), if_neg hshort, List.drop_drop]
    rfl

/-- Four bytes are read at an offset only within the data. -/
theorem le_of_read4 {data : Bytes} {offset n : Nat} (h : read4 data offset = .ok n) :
    offset + 4 ≤ data.length := by
  unfold read4 at h
  split at h
  case isTrue => cases h
  case isFalse hshort => omega

/-- A counted byte string read at an offset is the one read from the rest. -/
theorem tracks_readCounted : Tracks readCounted Prolly.readCounted where
  same data pos hpos := by
    unfold Prolly.readCounted readCounted
    rw [read4_eq hpos]
    cases hread : read4 data pos with
    | error e => rfl
    | ok len =>
        have hlow := le_of_read4 hread
        show readBytes len (data.drop (pos + 4)) = Except.map _
          (checkLen data (pos + 4) len >>= fun _ =>
            .ok ((data.drop (pos + 4)).take len, pos + 4 + len))
        unfold readBytes checkLen
        rw [List.length_drop]
        by_cases hshort : pos + 4 + len > data.length
        · rw [if_pos (by omega), if_pos hshort]
          rfl
        · rw [if_neg (by omega), if_neg hshort, List.drop_drop]
          rfl
  le data pos value next hpos hread := by
    unfold readCounted at hread
    obtain ⟨len, -, hread⟩ := bind_eq_ok.mp hread
    obtain ⟨_, hcheck, hread⟩ := bind_eq_ok.mp hread
    cases hread
    unfold checkLen at hcheck
    split at hcheck
    case isTrue => cases hcheck
    case isFalse hshort => omega

/-- A hash is read only within the data. -/
theorem le_of_readHash {data : Bytes} {pos next : Nat} {hash : Hash}
    (h : readHash data pos = .ok (hash, next)) : next ≤ data.length := by
  unfold readHash at h
  split at h
  case isTrue => cases h
  case isFalse hshort =>
      cases h
      omega

/-- A hash read at an offset is the one read from the rest. -/
theorem tracks_readHash : Tracks readHash Prolly.readHash where
  same data pos hpos := by
    unfold Prolly.readHash readHash
    have hlength : ((data.drop pos).take 32).length = min 32 (data.length - pos) := by
      rw [List.length_take, List.length_drop]
    by_cases hshort : pos + 32 > data.length
    · rw [dif_neg (by omega), dif_pos hshort]
      rfl
    · rw [dif_pos (by omega), dif_neg hshort, List.drop_drop]
      rfl
  le _ _ _ _ _ hread := le_of_readHash hread

/-- An address beyond a separator that is cut off is not there. -/
theorem tracks_readChildAddr : Tracks readChildAddr Prolly.readChildAddr where
  same data pos hpos := by
    unfold Prolly.readChildAddr readChildAddr
    rw [read4_eq hpos]
    cases hread : read4 data pos with
    | error e => rfl
    | ok len =>
        show Prolly.readHash ((data.drop (pos + 4)).drop len) =
          Except.map _ (readHash data (pos + (4 + len)))
        rw [List.drop_drop, Nat.add_assoc]
        -- beyond the end nothing is left, and the address is missing either way
        by_cases hpast : pos + (4 + len) ≤ data.length
        · exact tracks_readHash.same data _ hpast
        · rw [List.drop_eq_nil_of_le (by omega)]
          unfold readHash
          rw [dif_pos (by omega)]
          rfl
  le data pos value next hpos hread := by
    unfold readChildAddr at hread
    obtain ⟨len, -, hread⟩ := bind_eq_ok.mp hread
    exact le_of_readHash hread

/-- An entry read at an offset is the one read from the rest. -/
theorem tracks_readEntry : Tracks readEntry Prolly.readEntry :=
  tracks_readCounted.bind fun key => tracks_readCounted.map fun value => (key, value)

/-- A child read at an offset is the one read from the rest. -/
theorem tracks_readChild : Tracks readChild Prolly.readChild :=
  tracks_readCounted.bind fun separator => tracks_readHash.map fun hash => (separator, hash)

/-- The leaf decoder by offsets is the one of the rest. -/
theorem deserializeLeafChunk_eq (data : Bytes) :
    deserializeLeafChunk data = Prolly.deserializeLeafChunk data := by
  cases data with
  | nil => rfl
  | cons tag rest =>
      unfold deserializeLeafChunk Prolly.deserializeLeafChunk
      dsimp only
      by_cases htag : tag ≠ 0x01
      · rw [if_pos htag, if_pos htag]
      · rw [if_neg htag, if_neg htag, List.length_cons]
        by_cases hshort : rest.length + 1 < 5
        · have hread : Prolly.read4 rest = .error .truncatedChunk := if_pos (by omega)
          rw [if_pos hshort, hread]
          rfl
        · have hread : Prolly.read4 rest =
              (read4 (tag :: rest) 1).map fun n => (n, (tag :: rest).drop 5) :=
            @read4_eq (tag :: rest) 1 (by rw [List.length_cons]; omega)
          rw [if_neg hshort, hread]
          cases read4 (tag :: rest) 1 with
          | error e => rfl
          | ok count =>
              have hpos : 5 ≤ (tag :: rest).length := by
                rw [List.length_cons]
                omega
              -- the entries begin at offset 5 and have to end with the chunk
              have hmany := tracks_readEntry.many count
              have hitems := hmany.same (tag :: rest) 5 hpos
              show (readManyAt readEntry (tag :: rest) count 5 >>= _) =
                (readItems Prolly.readEntry count ((tag :: rest).drop 5) >>= _)
              rw [readItems_eq, hitems]
              cases hread : readManyAt readEntry (tag :: rest) count 5 with
              | error e => rfl
              | ok read =>
                  have hle := hmany.le (tag :: rest) 5 read.1 read.2 hpos hread
                  have hend : (tag :: rest).drop read.2 ≠ [] ↔ read.2 ≠ (tag :: rest).length := by
                    rw [ne_eq, ne_eq, List.drop_eq_nil_iff]
                    omega
                  show (if read.2 ≠ rest.length + 1 then _ else _) =
                    (if (tag :: rest).drop read.2 ≠ [] then _ else _)
                  simp only [hend, List.length_cons]
                  rfl

/-- A decoder of an internal chunk by offsets is the one of the rest. -/
theorem decodeChildren_eq {α : Type} {childAt : Bytes → Nat → Except FerraError (α × Nat)}
    {child : Bytes → Except FerraError (α × Bytes)} (h : Tracks childAt child) (data : Bytes) :
    decodeChildren childAt data = Prolly.decodeChildren child data := by
  cases data with
  | nil => rfl
  | cons tag rest =>
      unfold decodeChildren Prolly.decodeChildren
      dsimp only
      by_cases hleaf : tag = 0x01
      · rw [if_pos hleaf, if_pos hleaf]
      by_cases htag : tag = 0x02
      · rw [if_neg hleaf, if_neg hleaf, if_pos htag, if_pos htag]
        cases rest with
        | nil => rfl
        | cons level rest =>
            simp only [List.length_cons]
            by_cases hshort : rest.length + 1 + 1 < 6
            · have hread : Prolly.read4 rest = .error .truncatedChunk := if_pos (by omega)
              rw [if_pos hshort, hread]
              rfl
            · have hpos : 6 ≤ (tag :: level :: rest).length := by
                rw [List.length_cons, List.length_cons]
                omega
              have hread : Prolly.read4 rest =
                  (read4 (tag :: level :: rest) 2).map fun n =>
                    (n, (tag :: level :: rest).drop 6) :=
                @read4_eq (tag :: level :: rest) 2 (by omega)
              rw [if_neg hshort, hread]
              cases read4 (tag :: level :: rest) 2 with
              | error e => rfl
              | ok count =>
                  -- the children begin at offset 6; what follows them is not looked at
                  have hitems := (h.many count).same (tag :: level :: rest) 6 hpos
                  show (readManyAt childAt (tag :: level :: rest) count 6 >>= _) =
                    (readItems child count ((tag :: level :: rest).drop 6) >>= _)
                  rw [readItems_eq, hitems]
                  cases readManyAt childAt (tag :: level :: rest) count 6 <;> rfl
      · rw [if_neg hleaf, if_neg hleaf, if_neg htag, if_neg htag]

/-- Both decoders of child addresses agree on every byte string. -/
theorem decodeChildAddrs_eq (data : Bytes) : decodeChildAddrs data = Prolly.decodeChildAddrs data :=
  decodeChildren_eq tracks_readChildAddr data

/-- Both decoders of internal children agree on every byte string. -/
theorem decodeInternalChildren_eq (data : Bytes) :
    decodeInternalChildren data = Prolly.decodeInternalChildren data :=
  decodeChildren_eq tracks_readChild data

end Rest

/-- What the encoders and the decoders of chunks are to each other. -/
structure ChunkCodecs : Prop where
  leaf : ∀ (data : Bytes) (entries : List KvEntry), deserializeLeafChunk data = .ok entries ↔
    (entries.Pairwise fun a b => a.1 < b.1) ∧ serializeLeafChunk entries = .ok data
  encodes : ∀ (level : UInt8) (children : List Child),
    (∃ data, serializeInternalChunk level children = .ok data) ↔
      children.length < 2 ^ 32 ∧ ∀ child ∈ children, child.1.length < 2 ^ 32
  addrs : ∀ (level : UInt8) (children : List Child) (data : Bytes),
    serializeInternalChunk level children = .ok data →
      decodeChildAddrs data = .ok (children.map Prod.snd)
  children : ∀ (level : UInt8) (children : List Child) (data : Bytes),
    serializeInternalChunk level children = .ok data → decodeInternalChildren data = .ok children
  agree : ∀ data : Bytes,
    decodeChildAddrs data = (decodeInternalChildren data).map (List.map Prod.snd)

/-- A byte string is decoded as a leaf exactly when it is the encoding of entries in strictly
ascending order; the decoders of internal chunks invert the encoder and agree on every byte string.
-/
theorem chunk_codecs : ChunkCodecs where
  leaf data entries := by
    rw [deserializeLeafChunk_eq]
    exact deserializeLeafChunk_eq_ok
  encodes level children := exists_serializeInternalChunk_iff
  addrs level children data h := by
    rw [decodeChildAddrs_eq]
    exact decodeChildAddrs_ok h
  children level children data h := by
    rw [decodeInternalChildren_eq]
    exact decodeInternalChildren_ok h
  agree data := by
    rw [decodeChildAddrs_eq, decodeInternalChildren_eq]
    exact decodeChildAddrs_map data

end Ferratomic.Prolly.Offset
