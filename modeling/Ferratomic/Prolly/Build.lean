import Ferratomic.Error
import Ferratomic.Prolly.Chunk

/-!
# Building a prolly tree

The sorted entries of a map are split into leaf chunks at boundaries that the keys decide, the
leaves are grouped in the same way into internal chunks, and so on until one chunk is left: the
root. The main theorems say that the decoders invert the encoders (`deserializeLeafChunk_ok`,
`decodeInternalChildren_ok`) and that splitting keeps the items in order and makes fewer groups
than there are items (`flatten_splitAtBoundaries`, `length_splitAtBoundaries_lt`).
-/

namespace Ferratomic.Prolly

open Lib

/-- BLAKE3 in its key derivation mode. -/
class Blake3DeriveKey where
  deriveKey : String → Bytes → Hash

/-- The digest of one block under a key, with the flag of its mode. -/
def deriveBlock (key : List UInt32) (bytes : Bytes) (flag : Nat) : List UInt32 :=
  Blake3.compress key (Blake3.blockWords bytes) 0 bytes.length (1 + 2 + 8 + flag)

/-- The key derivation for a context and a key material of one block each, as the gear table
uses it. -/
instance : Blake3DeriveKey where
  deriveKey context material :=
    let key := deriveBlock Blake3.iv context.toUTF8.toList 32
    let words := deriveBlock key material 64
    ⟨((words.flatMap fun (word : UInt32) => leBytes 4 word.toNat) ++ List.replicate 32 0).take
      32, by simp⟩

section Boundary

variable [Blake3DeriveKey]

/-- `GEAR_TABLE` -/
def gearTable (byte : UInt8) : UInt64 :=
  UInt64.ofNat (leNat ((Blake3DeriveKey.deriveKey "ferratomic-gear-hash-table" [byte]).val.take 8))

/-- `rotate_left(1)` -/
def rotateLeft (word : UInt64) : UInt64 :=
  (word <<< 1) ||| (word >>> 63)

/-- `gear_hash` -/
def gearHash (key : Bytes) : UInt64 :=
  key.foldl (fun hash byte => rotateLeft hash ^^^ gearTable byte) 0

/-- `MIN_CHUNK_SIZE` -/
def minChunkSize : Nat := 32

/-- `MAX_CHUNK_SIZE` -/
def maxChunkSize : Nat := 1024

/-- `is_boundary`: never below the minimum, always from the maximum on, and else where the low
bits of the hash are all set. -/
def isBoundary (key : Bytes) (patternWidth : Fin 64) (entriesSinceLast : Nat) : Bool :=
  if entriesSinceLast < minChunkSize then false
  else if maxChunkSize ≤ entriesSinceLast then true
  else
    let mask := ((1 : UInt64) <<< UInt64.ofNat patternWidth.val) - 1
    gearHash key &&& mask == mask

/-- The split loop: the items up to a boundary form a group, and so does what is left at the
end. The last item is never tested. -/
def splitLoop {α : Type} (key : α → Bytes) (patternWidth : Fin 64) :
    List α → List α → List (List α)
  | current, [] => if current.isEmpty then [] else [current]
  | current, item :: rest =>
      if ! rest.isEmpty && isBoundary (key item) patternWidth (current ++ [item]).length then
        (current ++ [item]) :: splitLoop key patternWidth [] rest
      else splitLoop key patternWidth (current ++ [item]) rest

/-- `split_at_boundaries`, and the same loop in `build_internal_nodes`. -/
def splitAtBoundaries {α : Type} (key : α → Bytes) (patternWidth : Fin 64) (items : List α) :
    List (List α) :=
  splitLoop key patternWidth [] items

variable {α : Type} {key : α → Bytes} {patternWidth : Fin 64}

/-- The groups are the items in their order. -/
theorem flatten_splitLoop (current items : List α) :
    (splitLoop key patternWidth current items).flatten = current ++ items := by
  induction items generalizing current with
  | nil =>
      unfold splitLoop
      cases current with
      | nil => rfl
      | cons first rest => simp
  | cons item rest ih =>
      unfold splitLoop
      split
      case isTrue => rw [List.flatten_cons, ih, List.nil_append, List.append_assoc]; rfl
      case isFalse => rw [ih, List.append_assoc]; rfl

/-- Splitting keeps the items in their order. -/
theorem flatten_splitAtBoundaries (items : List α) :
    (splitAtBoundaries key patternWidth items).flatten = items :=
  flatten_splitLoop [] items

/-- No group is empty. -/
theorem ne_nil_of_mem_splitLoop {current items group : List α}
    (h : group ∈ splitLoop key patternWidth current items) : group ≠ [] := by
  induction items generalizing current with
  | nil =>
      unfold splitLoop at h
      cases current with
      | nil => exact absurd h List.not_mem_nil
      | cons first rest =>
          rw [List.mem_singleton.mp h]
          exact List.cons_ne_nil first rest
  | cons item rest ih =>
      unfold splitLoop at h
      split at h
      case isTrue =>
          rcases List.mem_cons.mp h with rfl | h
          · exact List.append_ne_nil_of_right_ne_nil current (List.cons_ne_nil item [])
          · exact ih h
      case isFalse => exact ih h

/-- No group is empty. -/
theorem ne_nil_of_mem_splitAtBoundaries {items group : List α}
    (h : group ∈ splitAtBoundaries key patternWidth items) : group ≠ [] :=
  ne_nil_of_mem_splitLoop h

/-- A boundary needs the minimum size. -/
theorem minChunkSize_le_of_isBoundary {key : Bytes} {entriesSinceLast : Nat}
    (h : isBoundary key patternWidth entriesSinceLast = true) :
    minChunkSize ≤ entriesSinceLast := by
  unfold isBoundary at h
  split at h
  case isTrue => cases h
  case isFalse hsize => omega

/-- The maximum size forces a boundary. -/
theorem lt_maxChunkSize_of_not_isBoundary {key : Bytes} {entriesSinceLast : Nat}
    (h : isBoundary key patternWidth entriesSinceLast = false) :
    entriesSinceLast < maxChunkSize := by
  unfold isBoundary at h
  split at h
  case isTrue hsize =>
      unfold minChunkSize at hsize
      unfold maxChunkSize
      omega
  case isFalse =>
      split at h
      case isTrue => cases h
      case isFalse hsize => omega

/-- No group is longer than the maximal chunk size. -/
theorem length_le_of_mem_splitLoop {current items group : List α}
    (hcurrent : current.length < maxChunkSize)
    (h : group ∈ splitLoop key patternWidth current items) : group.length ≤ maxChunkSize := by
  induction items generalizing current with
  | nil =>
      unfold splitLoop at h
      split at h
      case isTrue => exact absurd h List.not_mem_nil
      case isFalse =>
          rw [List.mem_singleton.mp h]
          exact hcurrent.le
  | cons item rest ih =>
      have hlength : (current ++ [item]).length ≤ maxChunkSize := by
        rw [List.length_append, List.length_singleton]
        omega
      unfold splitLoop at h
      split at h
      case isTrue =>
          rcases List.mem_cons.mp h with rfl | h
          · exact hlength
          · exact ih (by simp [maxChunkSize]) h
      case isFalse hsplit =>
          cases rest with
          | nil =>
              -- the last item joins its group whatever the size
              have hgroups : splitLoop key patternWidth (current ++ [item]) [] =
                  [current ++ [item]] := by
                unfold splitLoop
                simp
              rw [hgroups] at h
              rw [List.mem_singleton.mp h]
              exact hlength
          | cons next rest =>
              have hinside :
                  isBoundary (key item) patternWidth (current ++ [item]).length = false := by
                simpa using hsplit
              exact ih (lt_maxChunkSize_of_not_isBoundary hinside) h

/-- No group is longer than the maximum. -/
theorem length_le_of_mem_splitAtBoundaries {items group : List α}
    (h : group ∈ splitAtBoundaries key patternWidth items) : group.length ≤ maxChunkSize :=
  length_le_of_mem_splitLoop (by simp [maxChunkSize]) h

/-- Every group but the last uses up the minimal chunk size of the items. -/
theorem length_splitLoop_le (current items : List α) :
    minChunkSize * (splitLoop key patternWidth current items).length <
      current.length + items.length + minChunkSize := by
  have hmin : 0 < minChunkSize := by decide
  induction items generalizing current with
  | nil =>
      unfold splitLoop
      cases current with
      | nil =>
          show minChunkSize * 0 < 0 + 0 + minChunkSize
          omega
      | cons first rest =>
          show minChunkSize * 1 < rest.length + 1 + 0 + minChunkSize
          omega
  | cons item rest ih =>
      unfold splitLoop
      split
      case isTrue hsplit =>
          have hboundary := minChunkSize_le_of_isBoundary (Bool.and_eq_true_iff.mp hsplit).2
          have hrest := ih []
          rw [List.length_append, List.length_singleton] at hboundary
          rw [List.length_nil] at hrest
          rw [List.length_cons, List.length_cons, Nat.mul_add_one]
          omega
      case isFalse =>
          have hrest := ih (current ++ [item])
          rw [List.length_append, List.length_singleton] at hrest
          rw [List.length_cons]
          omega

/-- At most the minimal number of items stay in one group. -/
theorem splitLoop_small {current items : List α} (hne : current ++ items ≠ [])
    (h : (current ++ items).length ≤ minChunkSize) :
    splitLoop key patternWidth current items = [current ++ items] := by
  induction items generalizing current with
  | nil =>
      rw [List.append_nil] at hne ⊢
      unfold splitLoop
      rw [if_neg (by simpa using hne)]
  | cons item rest ih =>
      have happend : current ++ item :: rest = (current ++ [item]) ++ rest := by simp
      unfold splitLoop
      split
      case isTrue hsplit =>
          -- a boundary before the last item takes more than the minimum
          obtain ⟨hrest, hboundary⟩ := Bool.and_eq_true_iff.mp hsplit
          have hsize := minChunkSize_le_of_isBoundary hboundary
          cases rest with
          | nil => cases hrest
          | cons next rest =>
              simp only [List.length_append, List.length_cons, List.length_nil] at h hsize
              omega
      case isFalse =>
          rw [happend] at hne h ⊢
          exact ih hne h

/-- Items up to the minimum form one group. -/
theorem splitAtBoundaries_small {items : List α} (hne : items ≠ [])
    (h : items.length ≤ minChunkSize) : splitAtBoundaries key patternWidth items = [items] :=
  splitLoop_small hne h

/-- Splitting two or more items makes fewer groups than there are items. -/
theorem length_splitAtBoundaries_lt {items : List α} (h : 2 ≤ items.length) :
    (splitAtBoundaries key patternWidth items).length < items.length := by
  have hlength : minChunkSize * (splitLoop key patternWidth [] items).length <
      0 + items.length + minChunkSize := length_splitLoop_le [] items
  unfold minChunkSize at hlength
  unfold splitAtBoundaries
  omega

end Boundary

section Codecs

/-- A key and its value. -/
abbrev KvEntry := Bytes × Bytes

/-- A child of an internal chunk: its separator and its address. -/
abbrev Child := Bytes × Hash

/-- `len_u32` -/
def lenU32 (len : Nat) : Except FerraError Nat :=
  if len < 2 ^ 32 then .ok len
  else .error (.invariantViolation "INV-FERR-045"
    s!"length {len} exceeds u32::MAX for wire format")

/-- A length in four bytes and the data. -/
def serializeCounted (data : Bytes) : Except FerraError Bytes := do
  let len ← lenU32 data.length
  pure (leBytes 4 len ++ data)

/-- The loop of the encoders over the items of a chunk. -/
def serializeItems {α : Type} (item : α → Except FerraError Bytes) :
    List α → Except FerraError Bytes
  | [] => .ok []
  | first :: rest => do
      let head ← item first
      let tail ← serializeItems item rest
      pure (head ++ tail)

/-- An entry of a leaf chunk. -/
def serializeEntry (entry : KvEntry) : Except FerraError Bytes := do
  let key ← serializeCounted entry.1
  let value ← serializeCounted entry.2
  pure (key ++ value)

/-- A child of an internal chunk. -/
def serializeChild (child : Child) : Except FerraError Bytes := do
  let separator ← serializeCounted child.1
  pure (separator ++ child.2.val)

/-- `serialize_leaf_chunk` -/
def serializeLeafChunk (entries : List KvEntry) : Except FerraError Bytes := do
  let count ← lenU32 entries.length
  let items ← serializeItems serializeEntry entries
  pure (0x01 :: leBytes 4 count ++ items)

/-- `serialize_internal_chunk` -/
def serializeInternalChunk (level : UInt8) (children : List Child) : Except FerraError Bytes := do
  let count ← lenU32 children.length
  let items ← serializeItems serializeChild children
  pure (0x02 :: level :: leBytes 4 count ++ items)

/-- `read4`, as the number read and the bytes that follow. -/
def read4 (data : Bytes) : Except FerraError (Nat × Bytes) :=
  if data.length < 4 then .error .truncatedChunk else .ok (leNat (data.take 4), data.drop 4)

/-- `check_len` and the bytes it checks. -/
def readBytes (count : Nat) (data : Bytes) : Except FerraError (Bytes × Bytes) :=
  if data.length < count then .error .truncatedChunk else .ok (data.take count, data.drop count)

/-- A length in four bytes and the data. -/
def readCounted (data : Bytes) : Except FerraError (Bytes × Bytes) := do
  let (len, data) ← read4 data
  readBytes len data

/-- An address. -/
def readHash (data : Bytes) : Except FerraError (Hash × Bytes) :=
  if h : (data.take 32).length = 32 then .ok (⟨data.take 32, h⟩, data.drop 32)
  else .error .truncatedChunk

/-- The loop of the decoders over the items of a chunk. -/
def readItems {α : Type} (item : Bytes → Except FerraError (α × Bytes)) :
    Nat → Bytes → Except FerraError (List α × Bytes)
  | 0, data => .ok ([], data)
  | count + 1, data => do
      let (first, data) ← item data
      let (rest, data) ← readItems item count data
      pure (first :: rest, data)

/-- An entry of a leaf chunk. -/
def readEntry (data : Bytes) : Except FerraError (KvEntry × Bytes) := do
  let (key, data) ← readCounted data
  let (value, data) ← readCounted data
  pure ((key, value), data)

/-- A child of an internal chunk. -/
def readChild (data : Bytes) : Except FerraError (Child × Bytes) := do
  let (separator, data) ← readCounted data
  let (hash, data) ← readHash data
  pure ((separator, hash), data)

/-- The address of a child; its separator is skipped. -/
def readChildAddr (data : Bytes) : Except FerraError (Hash × Bytes) := do
  let (len, data) ← read4 data
  readHash (data.drop len)

/-- The keys are in strictly ascending order. -/
def ascending : List KvEntry → Bool
  | [] => true
  | [_] => true
  | first :: second :: rest => first.1 < second.1 && ascending (second :: rest)

/-- `deserialize_leaf_chunk` -/
def deserializeLeafChunk : Bytes → Except FerraError (List KvEntry)
  | [] => .error .emptyChunk
  | tag :: data =>
      if tag ≠ 0x01 then .error (.unknownCodecTag tag)
      else do
        let (count, data) ← read4 data
        let (entries, data) ← readItems readEntry count data
        if data ≠ [] then .error .trailingBytes
        else if ascending entries then pure entries
        else .error .nonCanonicalChunk

/-- The children of an internal chunk; a leaf has none. -/
def decodeChildren {α : Type} (child : Bytes → Except FerraError (α × Bytes)) :
    Bytes → Except FerraError (List α)
  | [] => .error .emptyChunk
  | tag :: data =>
      if tag = 0x01 then .ok []
      else if tag = 0x02 then
        match data with
        | [] => .error .truncatedChunk
        | _ :: data => do
            let (count, data) ← read4 data
            let (children, _) ← readItems child count data
            pure children
      else .error (.unknownCodecTag tag)

/-- `decode_child_addrs` -/
def decodeChildAddrs (data : Bytes) : Except FerraError (List Hash) :=
  decodeChildren readChildAddr data

/-- `decode_internal_children` -/
def decodeInternalChildren (data : Bytes) : Except FerraError (List Child) :=
  decodeChildren readChild data

/-- A length is written exactly when it fits 32 bits. -/
theorem lenU32_eq_ok {len result : Nat} :
    lenU32 len = .ok result ↔ len < 2 ^ 32 ∧ len = result := by
  unfold lenU32
  split
  case isTrue hlen =>
      rw [Except.ok.injEq]
      exact (and_iff_right hlen).symm
  case isFalse hlen =>
      refine iff_of_false (fun h => ?_) fun h => hlen h.1
      cases h

/-- A byte string that fits 32 bits is written as its length and its bytes. -/
theorem serializeCounted_eq_ok {data bytes : Bytes} :
    serializeCounted data = .ok bytes ↔
      data.length < 2 ^ 32 ∧ leBytes 4 data.length ++ data = bytes := by
  unfold serializeCounted
  rw [bind_eq_ok]
  constructor
  · rintro ⟨len, hlen, h⟩
    obtain ⟨hlt, rfl⟩ := lenU32_eq_ok.mp hlen
    cases h
    exact ⟨hlt, rfl⟩
  · rintro ⟨hlt, rfl⟩
    exact ⟨data.length, lenU32_eq_ok.mpr ⟨hlt, rfl⟩, rfl⟩

/-- A number in four bytes is read back. -/
theorem read4_leBytes {len : Nat} (h : len < 2 ^ 32) (rest : Bytes) :
    read4 (leBytes 4 len ++ rest) = .ok (len, rest) := by
  have hlength : (leBytes 4 len).length = 4 := length_leBytes 4 len
  unfold read4
  rw [if_neg (by rw [List.length_append, hlength]; omega), List.take_left' hlength,
    List.drop_left' hlength, leNat_leBytes h]

/-- `read_bytes` returns the bytes written and leaves the rest. -/
theorem readBytes_append (data rest : Bytes) :
    readBytes data.length (data ++ rest) = .ok (data, rest) := by
  unfold readBytes
  rw [if_neg (by rw [List.length_append]; omega), List.take_left, List.drop_left]

/-- A counted byte string is read back from what was written of it. -/
theorem readCounted_ok {data bytes : Bytes} (h : serializeCounted data = .ok bytes) (rest : Bytes) :
    readCounted (bytes ++ rest) = .ok (data, rest) := by
  obtain ⟨hlt, rfl⟩ := serializeCounted_eq_ok.mp h
  unfold readCounted
  rw [List.append_assoc, read4_leBytes hlt]
  exact readBytes_append data rest

/-- A hash is read back from its bytes. -/
theorem readHash_append (hash : Hash) (rest : Bytes) :
    readHash (hash.val ++ rest) = .ok (hash, rest) := by
  have htake : (hash.val ++ rest).take 32 = hash.val := List.take_left' hash.property
  unfold readHash
  rw [dif_pos (by rw [htake]; exact hash.property), List.drop_left' hash.property]
  exact congrArg Except.ok (Prod.ext (Subtype.ext htake) rfl)

/-- An entry is read back from what was written of it. -/
theorem readEntry_ok {entry : KvEntry} {bytes : Bytes} (h : serializeEntry entry = .ok bytes)
    (rest : Bytes) : readEntry (bytes ++ rest) = .ok (entry, rest) := by
  unfold serializeEntry at h
  obtain ⟨key, hkey, h⟩ := bind_eq_ok.mp h
  obtain ⟨value, hvalue, h⟩ := bind_eq_ok.mp h
  cases h
  unfold readEntry
  rw [List.append_assoc, readCounted_ok hkey]
  show (readCounted (value ++ rest) >>= _) = _
  rw [readCounted_ok hvalue]
  rfl

/-- A child is read back from what was written of it. -/
theorem readChild_ok {child : Child} {bytes : Bytes} (h : serializeChild child = .ok bytes)
    (rest : Bytes) : readChild (bytes ++ rest) = .ok (child, rest) := by
  unfold serializeChild at h
  obtain ⟨separator, hseparator, h⟩ := bind_eq_ok.mp h
  cases h
  unfold readChild
  rw [List.append_assoc, readCounted_ok hseparator]
  show (readHash (child.2.val ++ rest) >>= _) = _
  rw [readHash_append]
  rfl

/-- A child's address is read back from what was written of the child. -/
theorem readChildAddr_ok {child : Child} {bytes : Bytes} (h : serializeChild child = .ok bytes)
    (rest : Bytes) : readChildAddr (bytes ++ rest) = .ok (child.2, rest) := by
  unfold serializeChild at h
  obtain ⟨separator, hseparator, h⟩ := bind_eq_ok.mp h
  cases h
  obtain ⟨hlt, rfl⟩ := serializeCounted_eq_ok.mp hseparator
  unfold readChildAddr
  rw [List.append_assoc, List.append_assoc, read4_leBytes hlt]
  show readHash ((child.1 ++ (child.2.val ++ rest)).drop child.1.length) = _
  rw [List.drop_left, readHash_append]

/-- The item loop of a decoder inverts that of its encoder. -/
theorem readItems_ok {α β : Type} {serialize : α → Except FerraError Bytes} {view : α → β}
    {read : Bytes → Except FerraError (β × Bytes)}
    (hread : ∀ item bytes rest, serialize item = .ok bytes →
      read (bytes ++ rest) = .ok (view item, rest))
    {items : List α} {bytes : Bytes} (h : serializeItems serialize items = .ok bytes)
    (rest : Bytes) :
    readItems read items.length (bytes ++ rest) = .ok (items.map view, rest) := by
  induction items generalizing bytes with
  | nil =>
      cases h
      rfl
  | cons first items ih =>
      unfold serializeItems at h
      obtain ⟨head, hhead, h⟩ := bind_eq_ok.mp h
      obtain ⟨tail, htail, h⟩ := bind_eq_ok.mp h
      cases h
      rw [List.length_cons, List.append_assoc]
      unfold readItems
      rw [hread first head (tail ++ rest) hhead]
      show (readItems read items.length (tail ++ rest) >>= _) = _
      rw [ih htail]
      rfl

/-- The order check passes exactly on entries of strictly ascending keys. -/
theorem ascending_iff {entries : List KvEntry} :
    ascending entries = true ↔ entries.Pairwise fun a b => a.1 < b.1 := by
  rw [← List.isChain_iff_pairwise]
  fun_induction ascending entries with
  | case1 => simp
  | case2 entry => simp
  | case3 first second rest ih => simp [ih]

/-- `deserialize_leaf_chunk` inverts `serialize_leaf_chunk`. -/
theorem deserializeLeafChunk_ok {entries : List KvEntry} {data : Bytes}
    (h : serializeLeafChunk entries = .ok data)
    (hkeys : entries.Pairwise fun a b => a.1 < b.1) :
    deserializeLeafChunk data = .ok entries := by
  unfold serializeLeafChunk at h
  obtain ⟨count, hcount, h⟩ := bind_eq_ok.mp h
  obtain ⟨items, hitems, h⟩ := bind_eq_ok.mp h
  obtain ⟨hlt, rfl⟩ := lenU32_eq_ok.mp hcount
  cases h
  have hread : readItems readEntry entries.length (items ++ []) = .ok (entries.map id, []) :=
    readItems_ok (fun _ _ rest h => readEntry_ok h rest) hitems []
  rw [List.append_nil, List.map_id] at hread
  rw [List.cons_append]
  simp only [deserializeLeafChunk, ne_eq, not_true_eq_false, if_false, read4_leBytes hlt, bind,
    Except.bind, hread, ascending_iff.mpr hkeys, if_true, pure, Except.pure]

/-- The children of an internal chunk are read back as the reader views them. -/
theorem decodeChildren_ok {β : Type} {view : Child → β}
    {read : Bytes → Except FerraError (β × Bytes)}
    (hread : ∀ child bytes rest, serializeChild child = .ok bytes →
      read (bytes ++ rest) = .ok (view child, rest))
    {level : UInt8} {children : List Child} {data : Bytes}
    (h : serializeInternalChunk level children = .ok data) :
    decodeChildren read data = .ok (children.map view) := by
  unfold serializeInternalChunk at h
  obtain ⟨count, hcount, h⟩ := bind_eq_ok.mp h
  obtain ⟨items, hitems, h⟩ := bind_eq_ok.mp h
  obtain ⟨hlt, rfl⟩ := lenU32_eq_ok.mp hcount
  cases h
  have hread := readItems_ok hread hitems []
  rw [List.append_nil] at hread
  have htag : ¬ (0x02 : UInt8) = 0x01 := by decide
  rw [List.cons_append, List.cons_append]
  simp only [decodeChildren, htag, if_false, if_true, read4_leBytes hlt, bind, Except.bind, hread,
    pure, Except.pure]

/-- `decode_child_addrs` gives the addresses of an encoded chunk. -/
theorem decodeChildAddrs_ok {level : UInt8} {children : List Child} {data : Bytes}
    (h : serializeInternalChunk level children = .ok data) :
    decodeChildAddrs data = .ok (children.map Prod.snd) :=
  decodeChildren_ok (fun _ _ rest h => readChildAddr_ok h rest) h

/-- `decode_internal_children` inverts `serialize_internal_chunk`. -/
theorem decodeInternalChildren_ok {level : UInt8} {children : List Child} {data : Bytes}
    (h : serializeInternalChunk level children = .ok data) :
    decodeInternalChildren data = .ok children := by
  have hchildren : decodeChildren readChild data = .ok (children.map id) :=
    decodeChildren_ok (fun _ _ rest h => readChild_ok h rest) h
  rwa [List.map_id] at hchildren

/-- A chunk starts with its tag. -/
theorem serializeLeafChunk_tag {entries : List KvEntry} {data : Bytes}
    (h : serializeLeafChunk entries = .ok data) : ∃ rest, data = 0x01 :: rest := by
  unfold serializeLeafChunk at h
  obtain ⟨count, -, h⟩ := bind_eq_ok.mp h
  obtain ⟨items, -, h⟩ := bind_eq_ok.mp h
  cases h
  exact ⟨_, rfl⟩

/-- An internal chunk starts with its tag. -/
theorem serializeInternalChunk_tag {level : UInt8} {children : List Child} {data : Bytes}
    (h : serializeInternalChunk level children = .ok data) : ∃ rest, data = 0x02 :: rest := by
  unfold serializeInternalChunk at h
  obtain ⟨count, -, h⟩ := bind_eq_ok.mp h
  obtain ⟨items, -, h⟩ := bind_eq_ok.mp h
  cases h
  exact ⟨_, rfl⟩

/-- An entry whose key and value have a length in four bytes. -/
def Sized (entry : KvEntry) : Prop :=
  entry.1.length < 2 ^ 32 ∧ entry.2.length < 2 ^ 32

instance (entry : KvEntry) : Decidable (Sized entry) :=
  inferInstanceAs (Decidable (_ ∧ _))

/-- A list of items is written when each of them is. -/
theorem exists_serializeItems {α : Type} {serialize : α → Except FerraError Bytes}
    {items : List α} (h : ∀ item ∈ items, ∃ bytes, serialize item = .ok bytes) :
    ∃ bytes, serializeItems serialize items = .ok bytes := by
  induction items with
  | nil => exact ⟨[], rfl⟩
  | cons first rest ih =>
      obtain ⟨head, hhead⟩ := h first List.mem_cons_self
      obtain ⟨tail, htail⟩ := ih fun item hitem => h item (List.mem_cons_of_mem _ hitem)
      refine ⟨head ++ tail, ?_⟩
      unfold serializeItems
      rw [hhead, htail]
      rfl

/-- A leaf of entries within the size limits is written. -/
theorem exists_serializeLeafChunk {entries : List KvEntry} (hlength : entries.length < 2 ^ 32)
    (h : ∀ entry ∈ entries, Sized entry) : ∃ data, serializeLeafChunk entries = .ok data := by
  have hentries : ∀ entry ∈ entries, ∃ bytes, serializeEntry entry = .ok bytes := by
    intro entry hentry
    obtain ⟨hkey, hvalue⟩ := h entry hentry
    refine ⟨_, bind_eq_ok.mpr ⟨_, serializeCounted_eq_ok.mpr ⟨hkey, rfl⟩, bind_eq_ok.mpr ⟨_,
      serializeCounted_eq_ok.mpr ⟨hvalue, rfl⟩, rfl⟩⟩⟩
  obtain ⟨items, hitems⟩ := exists_serializeItems hentries
  exact ⟨_, bind_eq_ok.mpr ⟨_, lenU32_eq_ok.mpr ⟨hlength, rfl⟩, bind_eq_ok.mpr ⟨_, hitems, rfl⟩⟩⟩

/-- Each item of a list that is written is written. -/
theorem exists_of_serializeItems {α : Type} {serialize : α → Except FerraError Bytes}
    {items : List α} {bytes : Bytes} (h : serializeItems serialize items = .ok bytes) :
    ∀ item ∈ items, ∃ bytes, serialize item = .ok bytes := by
  induction items generalizing bytes with
  | nil => exact fun item hitem => absurd hitem List.not_mem_nil
  | cons first rest ih =>
      unfold serializeItems at h
      obtain ⟨head, hhead, h⟩ := bind_eq_ok.mp h
      obtain ⟨tail, htail, -⟩ := bind_eq_ok.mp h
      exact List.forall_mem_cons.mpr ⟨⟨head, hhead⟩, ih htail⟩

/-- Only entries whose lengths fit get into a leaf chunk. -/
theorem sized_of_serializeLeafChunk {entries : List KvEntry} {data : Bytes}
    (h : serializeLeafChunk entries = .ok data) : ∀ entry ∈ entries, Sized entry := by
  intro entry hentry
  unfold serializeLeafChunk at h
  obtain ⟨count, -, h⟩ := bind_eq_ok.mp h
  obtain ⟨items, hitems, -⟩ := bind_eq_ok.mp h
  obtain ⟨bytes, hbytes⟩ := exists_of_serializeItems hitems entry hentry
  unfold serializeEntry at hbytes
  obtain ⟨key, hkey, hbytes⟩ := bind_eq_ok.mp hbytes
  obtain ⟨value, hvalue, -⟩ := bind_eq_ok.mp hbytes
  exact ⟨(serializeCounted_eq_ok.mp hkey).1, (serializeCounted_eq_ok.mp hvalue).1⟩

/-- An internal chunk of children within the size limits is written. -/
theorem exists_serializeInternalChunk {level : UInt8} {children : List Child}
    (hlength : children.length < 2 ^ 32) (h : ∀ child ∈ children, child.1.length < 2 ^ 32) :
    ∃ data, serializeInternalChunk level children = .ok data := by
  have hchildren : ∀ child ∈ children, ∃ bytes, serializeChild child = .ok bytes := by
    intro child hchild
    exact ⟨_, bind_eq_ok.mpr ⟨_, serializeCounted_eq_ok.mpr ⟨h child hchild, rfl⟩, rfl⟩⟩
  obtain ⟨items, hitems⟩ := exists_serializeItems hchildren
  exact ⟨_, bind_eq_ok.mpr ⟨_, lenU32_eq_ok.mpr ⟨hlength, rfl⟩, bind_eq_ok.mpr ⟨_, hitems, rfl⟩⟩⟩

end Codecs

section Build

variable [Blake3] [Blake3DeriveKey]

/-- Encode the groups of a level and put their chunks; the separator of a group is its first
key. The second component lists the chunks that were put, in order. -/
def putGroups {α : Type} (serialize : List α → Except FerraError Bytes) (key : α → Bytes) :
    List (List α) → Except FerraError (List Child) × List Chunk
  | [] => (.ok [], [])
  | group :: rest =>
      match serialize group with
      | .error e => (.error e, [])
      | .ok data =>
          let later := putGroups serialize key rest
          (later.1.map fun children =>
              ((group.head?.map key).getD [], (Chunk.fromBytes data).addr) :: children,
            Chunk.fromBytes data :: later.2)

variable {α : Type} {serialize : List α → Except FerraError Bytes} {key : α → Bytes}

omit [Blake3DeriveKey] in
/-- There is one child for each group put. -/
theorem length_putGroups {groups : List (List α)} {children : List Child}
    (h : (putGroups serialize key groups).1 = .ok children) :
    children.length = groups.length := by
  induction groups generalizing children with
  | nil =>
      cases h
      rfl
  | cons group rest ih =>
      unfold putGroups at h
      split at h
      case h_1 => cases h
      case h_2 data hdata =>
          simp only at h
          cases hlater : (putGroups serialize key rest).1 with
          | error e =>
              rw [hlater] at h
              cases h
          | ok later =>
              rw [hlater] at h
              cases h
              rw [List.length_cons, List.length_cons, ih hlater]

omit [Blake3DeriveKey] in
/-- A level is put as a whole or fails. -/
theorem exists_of_putGroups {groups : List (List α)} {children : List Child}
    (h : (putGroups serialize key groups).1 = .ok children) :
    ∀ group ∈ groups, ∃ data, serialize group = .ok data := by
  induction groups generalizing children with
  | nil => exact fun group hgroup => absurd hgroup List.not_mem_nil
  | cons group rest ih =>
      unfold putGroups at h
      split at h
      case h_1 => cases h
      case h_2 data hdata =>
          simp only at h
          cases hlater : (putGroups serialize key rest).1 with
          | error e =>
              rw [hlater] at h
              cases h
          | ok later => exact List.forall_mem_cons.mpr ⟨⟨data, hdata⟩, ih hlater⟩

/-- A level of two or more children has a level above it, and a shorter one. -/
theorem length_putGroups_split {patternWidth : Fin 64} {items : List α} {children : List Child}
    (hne : items ≠ [])
    (h : (putGroups serialize key (splitAtBoundaries key patternWidth items)).1 = .ok children) :
    children ≠ [] ∧ (items.length ≠ 1 → children.length < items.length) := by
  have hlength := length_putGroups h
  constructor
  · rintro rfl
    have hgroups := List.length_eq_zero_iff.mp hlength.symm
    have hitems : (splitAtBoundaries key patternWidth items).flatten = items :=
      flatten_splitAtBoundaries items
    rw [hgroups] at hitems
    exact hne hitems.symm
  · intro hone
    have hpos := List.length_pos_iff.mpr hne
    rw [hlength]
    exact length_splitAtBoundaries_lt (by omega)

/-- `build_internal_nodes`, with the chunks that it puts. Each level is shorter than the one below,
so that the recursion ends in a level of one chunk. -/
def buildInternalNodes (patternWidth : Fin 64) (level : UInt8) (children : List Child)
    (hne : children ≠ []) : Except FerraError Hash × List Chunk :=
  if _ : children.length = 1 then (.ok (children.head hne).2, [])
  else
    let groups := splitAtBoundaries Prod.fst patternWidth children
    let put := putGroups (serializeInternalChunk level) Prod.fst groups
    match hput : put.1 with
    | .error e => (.error e, put.2)
    | .ok next =>
        have hnext := length_putGroups_split hne hput
        let above := buildInternalNodes patternWidth (if level = 255 then 255 else level + 1) next
          hnext.1
        (above.1, put.2 ++ above.2)
termination_by children.length
decreasing_by exact hnext.2 ‹_›

/-- A single child is the root, and nothing more is written. -/
theorem buildInternalNodes_singleton (patternWidth : Fin 64) (level : UInt8) (child : Child)
    (hne : [child] ≠ []) :
    buildInternalNodes patternWidth level [child] hne = (.ok child.2, []) := by
  rw [buildInternalNodes, dif_pos List.length_singleton]
  rfl

/-- `build_prolly_tree`, with the chunks that it puts. -/
def buildWrites (kvs : OrdMap Bytes Bytes) (patternWidth : Fin 64) :
    Except FerraError Hash × List Chunk :=
  if hempty : kvs.toList = [] then
    match serializeLeafChunk [] with
    | .error e => (.error e, [])
    | .ok data => (.ok (Chunk.fromBytes data).addr, [Chunk.fromBytes data])
  else
    let groups := splitAtBoundaries Prod.fst patternWidth kvs.toList
    let put := putGroups serializeLeafChunk Prod.fst groups
    match hput : put.1 with
    | .error e => (.error e, put.2)
    | .ok leaves =>
        let above := buildInternalNodes patternWidth 1 leaves
          (length_putGroups_split hempty hput).1
        (above.1, put.2 ++ above.2)

/-- A level of few children has one chunk above it. -/
theorem buildInternalNodes_small {patternWidth : Fin 64} {level : UInt8} {children : List Child}
    (hne : children ≠ []) (hmany : children.length ≠ 1) (hlength : children.length ≤ minChunkSize)
    {data : Bytes} (hdata : serializeInternalChunk level children = .ok data) :
    buildInternalNodes patternWidth level children hne =
      (.ok (Chunk.fromBytes data).addr, [Chunk.fromBytes data]) := by
  have hput : putGroups (serializeInternalChunk level) Prod.fst
      (splitAtBoundaries Prod.fst patternWidth children) =
      (.ok [((children.head?.map Prod.fst).getD [], (Chunk.fromBytes data).addr)],
        [Chunk.fromBytes data]) := by
    simp only [splitAtBoundaries_small hne hlength, putGroups, hdata, Except.map]
  rw [buildInternalNodes, dif_neg hmany]
  simp only [congrArg Prod.snd hput]
  split
  case h_1 e herror =>
      rw [hput] at herror
      cases herror
  case h_2 next hnext =>
      rw [hput] at hnext
      cases hnext
      rw [buildInternalNodes_singleton]
      rfl

/-- A build puts the leaves and then the levels above them. -/
theorem buildWrites_eq {kvs : OrdMap Bytes Bytes} {patternWidth : Fin 64} (hne : kvs.toList ≠ [])
    {leaves : List Child} {chunks : List Chunk} (hleaves : leaves ≠ [])
    (hput : putGroups serializeLeafChunk Prod.fst
      (splitAtBoundaries Prod.fst patternWidth kvs.toList) = (.ok leaves, chunks)) :
    buildWrites kvs patternWidth =
      ((buildInternalNodes patternWidth 1 leaves hleaves).1,
        chunks ++ (buildInternalNodes patternWidth 1 leaves hleaves).2) := by
  unfold buildWrites
  rw [dif_neg hne]
  simp only [congrArg Prod.snd hput]
  split
  case h_1 e herror =>
      rw [hput] at herror
      cases herror
  case h_2 found hfound =>
      rw [hput] at hfound
      cases hfound
      rfl

/-- A map with few entries is one leaf chunk. -/
theorem buildWrites_small {kvs : OrdMap Bytes Bytes} {patternWidth : Fin 64} {data : Bytes}
    (hlength : kvs.toList.length ≤ minChunkSize)
    (hdata : serializeLeafChunk kvs.toList = .ok data) :
    buildWrites kvs patternWidth =
      (.ok (Chunk.fromBytes data).addr, [Chunk.fromBytes data]) := by
  by_cases hempty : kvs.toList = []
  · rw [hempty] at hdata
    rw [buildWrites, dif_pos hempty, hdata]
  · have hput : putGroups serializeLeafChunk Prod.fst
        (splitAtBoundaries Prod.fst patternWidth kvs.toList) =
        (.ok [((kvs.toList.head?.map Prod.fst).getD [], (Chunk.fromBytes data).addr)],
          [Chunk.fromBytes data]) := by
      simp only [splitAtBoundaries_small hempty hlength, putGroups, hdata, Except.map]
    rw [buildWrites_eq hempty (List.cons_ne_nil _ _) hput, buildInternalNodes_singleton]
    rfl

/-- A build that returns a root has met only entries whose lengths fit. -/
theorem sized_of_buildWrites {kvs : OrdMap Bytes Bytes} {patternWidth : Fin 64} {root : Hash}
    (h : (buildWrites kvs patternWidth).1 = .ok root) : ∀ entry ∈ kvs.toList, Sized entry := by
  intro entry hentry
  unfold buildWrites at h
  split at h
  case isTrue hempty =>
      rw [hempty] at hentry
      exact absurd hentry List.not_mem_nil
  case isFalse hne =>
      simp only at h
      split at h
      case h_1 => cases h
      case h_2 leaves hleaves =>
          have hentries : (splitAtBoundaries Prod.fst patternWidth kvs.toList).flatten =
              kvs.toList := flatten_splitAtBoundaries kvs.toList
          rw [← hentries] at hentry
          obtain ⟨group, hgroup, hmem⟩ := List.mem_flatten.mp hentry
          obtain ⟨data, hdata⟩ := exists_of_putGroups hleaves group hgroup
          exact sized_of_serializeLeafChunk hdata entry hmem

/-- `build_prolly_tree` -/
def buildProllyTree (kvs : OrdMap Bytes Bytes) (store : ChunkStore) (patternWidth : Fin 64) :
    Except FerraError Hash × ChunkStore :=
  ((buildWrites kvs patternWidth).1, store.putAll (buildWrites kvs patternWidth).2)

end Build

end Ferratomic.Prolly
