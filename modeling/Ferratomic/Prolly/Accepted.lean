import Ferratomic.Lib.Reads
import Ferratomic.Prolly.Build

/-!
# What the decoders of chunks accept

The encoders are described by the bytes they write and the condition under which they do
(`serializeLeafChunk_eq_ok`, `exists_serializeInternalChunk_iff`), the decoders by the byte strings
they accept. The main theorems are `deserializeLeafChunk_eq_ok`, which says that nothing but the
encoding of entries in ascending order is accepted as a leaf, and `decodeChildAddrs_map`, which says
that the two decoders of an internal chunk agree on every byte string.
-/

namespace Ferratomic.Prolly

open Lib

section Spellings

/-- A length in four bytes in front of the data. -/
def counted (data : Bytes) : Bytes :=
  leBytes 4 data.length ++ data

/-- The bytes of an entry of a leaf chunk. -/
def entryBytes (entry : KvEntry) : Bytes :=
  counted entry.1 ++ counted entry.2

/-- The bytes of a child of an internal chunk. -/
def childBytes (child : Child) : Bytes :=
  counted child.1 ++ child.2.val

/-- A chunk is encoded item by item, and only when every item fits. -/
theorem serializeItems_eq_ok {α : Type} {serialize : α → Except FerraError Bytes}
    {fits : α → Prop} {encode : α → Bytes}
    (h : ∀ item bytes, serialize item = .ok bytes ↔ fits item ∧ encode item = bytes)
    {items : List α} {bytes : Bytes} :
    serializeItems serialize items = .ok bytes ↔
      (∀ item ∈ items, fits item) ∧ items.flatMap encode = bytes := by
  induction items generalizing bytes with
  | nil =>
      constructor
      · intro hok
        cases hok
        exact ⟨nofun, rfl⟩
      · intro hitems
        exact congrArg Except.ok hitems.2
  | cons first rest ih =>
      unfold serializeItems
      rw [bind_eq_ok, List.forall_mem_cons, List.flatMap_cons]
      constructor
      · intro hok
        obtain ⟨head, hhead, hok⟩ := hok
        obtain ⟨tail, htail, hok⟩ := bind_eq_ok.mp hok
        cases hok
        obtain ⟨hfirst, hhead⟩ := (h first head).mp hhead
        obtain ⟨hrest, htail⟩ := ih.mp htail
        rw [hhead, htail]
        exact ⟨⟨hfirst, hrest⟩, rfl⟩
      · intro hitems
        obtain ⟨⟨hfirst, hrest⟩, hbytes⟩ := hitems
        refine ⟨encode first, (h first _).mpr ⟨hfirst, rfl⟩, ?_⟩
        refine bind_eq_ok.mpr ⟨rest.flatMap encode, ih.mpr ⟨hrest, rfl⟩, ?_⟩
        exact congrArg Except.ok hbytes

/-- An entry is written exactly when its sizes fit. -/
theorem serializeEntry_eq_ok (entry : KvEntry) (bytes : Bytes) :
    serializeEntry entry = .ok bytes ↔ Sized entry ∧ entryBytes entry = bytes := by
  unfold serializeEntry
  rw [bind_eq_ok]
  constructor
  · intro hok
    obtain ⟨key, hkey, hok⟩ := hok
    obtain ⟨value, hvalue, hok⟩ := bind_eq_ok.mp hok
    cases hok
    obtain ⟨hkeyLength, rfl⟩ := serializeCounted_eq_ok.mp hkey
    obtain ⟨hvalueLength, rfl⟩ := serializeCounted_eq_ok.mp hvalue
    exact ⟨⟨hkeyLength, hvalueLength⟩, rfl⟩
  · intro hentry
    obtain ⟨⟨hkey, hvalue⟩, hbytes⟩ := hentry
    refine ⟨counted entry.1, serializeCounted_eq_ok.mpr ⟨hkey, rfl⟩, ?_⟩
    refine bind_eq_ok.mpr ⟨counted entry.2, serializeCounted_eq_ok.mpr ⟨hvalue, rfl⟩, ?_⟩
    exact congrArg Except.ok hbytes

/-- A child is written exactly when its key's length fits. -/
theorem serializeChild_eq_ok (child : Child) (bytes : Bytes) :
    serializeChild child = .ok bytes ↔ child.1.length < 2 ^ 32 ∧ childBytes child = bytes := by
  unfold serializeChild
  rw [bind_eq_ok]
  constructor
  · intro hok
    obtain ⟨separator, hseparator, hok⟩ := hok
    cases hok
    obtain ⟨hlength, rfl⟩ := serializeCounted_eq_ok.mp hseparator
    exact ⟨hlength, rfl⟩
  · intro hchild
    obtain ⟨hlength, hbytes⟩ := hchild
    exact ⟨counted child.1, serializeCounted_eq_ok.mpr ⟨hlength, rfl⟩, congrArg Except.ok hbytes⟩

/-- What `serialize_leaf_chunk` writes, and when. -/
theorem serializeLeafChunk_eq_ok {entries : List KvEntry} {data : Bytes} :
    serializeLeafChunk entries = .ok data ↔
      entries.length < 2 ^ 32 ∧ (∀ entry ∈ entries, Sized entry) ∧
        data = 0x01 :: leBytes 4 entries.length ++ entries.flatMap entryBytes := by
  unfold serializeLeafChunk
  rw [bind_eq_ok]
  constructor
  · intro hok
    obtain ⟨count, hcount, hok⟩ := hok
    obtain ⟨items, hitems, hok⟩ := bind_eq_ok.mp hok
    cases hok
    obtain ⟨hlength, rfl⟩ := lenU32_eq_ok.mp hcount
    obtain ⟨hsized, rfl⟩ := (serializeItems_eq_ok serializeEntry_eq_ok).mp hitems
    exact ⟨hlength, hsized, rfl⟩
  · intro hentries
    obtain ⟨hlength, hsized, rfl⟩ := hentries
    refine ⟨entries.length, lenU32_eq_ok.mpr ⟨hlength, rfl⟩, ?_⟩
    refine bind_eq_ok.mpr ⟨_, (serializeItems_eq_ok serializeEntry_eq_ok).mpr ⟨hsized, rfl⟩, ?_⟩
    rfl

/-- `serialize_internal_chunk` encodes the children whose count and separators fit. -/
theorem exists_serializeInternalChunk_iff {level : UInt8} {children : List Child} :
    (∃ data, serializeInternalChunk level children = .ok data) ↔
      children.length < 2 ^ 32 ∧ ∀ child ∈ children, child.1.length < 2 ^ 32 := by
  constructor
  · intro hok
    obtain ⟨data, hok⟩ := hok
    unfold serializeInternalChunk at hok
    obtain ⟨count, hcount, hok⟩ := bind_eq_ok.mp hok
    obtain ⟨items, hitems, -⟩ := bind_eq_ok.mp hok
    exact ⟨(lenU32_eq_ok.mp hcount).1, ((serializeItems_eq_ok serializeChild_eq_ok).mp hitems).1⟩
  · intro hchildren
    exact exists_serializeInternalChunk hchildren.1 hchildren.2

/-- The item loop of the decoders is the counted loop of parsers. -/
theorem readItems_eq {α : Type} (item : Bytes → Except FerraError (α × Bytes)) (count : Nat)
    (data : Bytes) : readItems item count data = readMany item count data := by
  induction count generalizing data with
  | zero => rfl
  | succ count ih =>
      unfold readItems readMany
      simp only [ih]

/-- Four bytes are the encoding of the number that they denote. -/
theorem reads_read4 :
    Reads read4 fun n spelling => n < 2 ^ 32 ∧ spelling = leBytes 4 n := by
  intro bytes n rest
  constructor
  · intro hread
    unfold read4 at hread
    split at hread
    case isTrue => cases hread
    case isFalse hlength =>
        cases hread
        have hfour : (bytes.take 4).length = 4 := List.length_take_of_le (by omega)
        have hlt := leNat_lt (bytes.take 4)
        have hback := leBytes_leNat (bytes.take 4)
        rw [hfour] at hlt hback
        exact ⟨bytes.take 4, ⟨hlt, hback.symm⟩, (List.take_append_drop 4 bytes).symm⟩
  · intro hspelling
    obtain ⟨_, ⟨hlt, rfl⟩, rfl⟩ := hspelling
    exact read4_leBytes hlt rest

/-- `read_bytes` takes the bytes it returns, as many as were asked for. -/
theorem reads_readBytes (count : Nat) :
    Reads (readBytes count) fun data spelling => data.length = count ∧ spelling = data := by
  intro bytes data rest
  constructor
  · intro hread
    unfold readBytes at hread
    split at hread
    case isTrue => cases hread
    case isFalse hlength =>
        cases hread
        exact ⟨bytes.take count, ⟨List.length_take_of_le (by omega), rfl⟩,
          (List.take_append_drop count bytes).symm⟩
  · intro hspelling
    obtain ⟨_, ⟨rfl, rfl⟩, rfl⟩ := hspelling
    exact readBytes_append _ rest

/-- `read_counted` takes a length and the bytes it returns. -/
theorem reads_readCounted :
    Reads readCounted fun data spelling =>
      data.length < 2 ^ 32 ∧ spelling = counted data := by
  refine (reads_read4.bind fun len => reads_readBytes len).congr fun data spelling => ?_
  constructor
  · intro hspelling
    obtain ⟨_, _, _, ⟨hlt, rfl⟩, ⟨rfl, rfl⟩, rfl⟩ := hspelling
    exact ⟨hlt, rfl⟩
  · intro hspelling
    obtain ⟨hlt, rfl⟩ := hspelling
    exact ⟨data.length, _, data, ⟨hlt, rfl⟩, ⟨rfl, rfl⟩, rfl⟩

/-- `read_entry` takes the bytes of the entry it returns. -/
theorem reads_readEntry :
    Reads readEntry fun entry spelling => Sized entry ∧ spelling = entryBytes entry := by
  refine (reads_readCounted.bind fun key =>
    reads_readCounted.map fun value => (key, value)).congr fun entry spelling => ?_
  constructor
  · intro hspelling
    obtain ⟨key, _, _, ⟨hkey, rfl⟩, ⟨value, rfl, hvalue, rfl⟩, rfl⟩ := hspelling
    exact ⟨⟨hkey, hvalue⟩, rfl⟩
  · intro hspelling
    obtain ⟨⟨hkey, hvalue⟩, rfl⟩ := hspelling
    exact ⟨entry.1, _, _, ⟨hkey, rfl⟩, ⟨entry.2, rfl, hvalue, rfl⟩, rfl⟩

/-- A leaf chunk is accepted exactly when it is the encoding of entries in ascending order. -/
theorem deserializeLeafChunk_eq_ok {data : Bytes} {entries : List KvEntry} :
    deserializeLeafChunk data = .ok entries ↔
      (entries.Pairwise fun a b => a.1 < b.1) ∧ serializeLeafChunk entries = .ok data := by
  constructor
  · intro hok
    cases data with
    | nil => cases hok
    | cons tag rest =>
        unfold deserializeLeafChunk at hok
        dsimp only at hok
        split at hok
        case isTrue => cases hok
        case isFalse htag =>
            -- every read is inverted, from the tag to the last entry
            obtain ⟨⟨count, items⟩, hcount, hafter⟩ := bind_eq_ok.mp hok
            obtain ⟨⟨found, last⟩, hfound, hend⟩ := bind_eq_ok.mp hafter
            rw [readItems_eq] at hfound
            obtain ⟨_, ⟨hlt, rfl⟩, rfl⟩ := (reads_read4 _ _ _).mp hcount
            obtain ⟨_, ⟨hlength, hsized, rfl⟩, hitems⟩ :=
              (reads_readEntry.many count _ _ _).mp hfound
            split at hend
            case isTrue => cases hend
            case isFalse hlast =>
                split at hend
                case isFalse => cases hend
                case isTrue hascending =>
                    cases hend
                    subst hlength
                    have hlast : last = [] := not_not.mp hlast
                    have hitems : items = found.flatMap entryBytes ++ last := hitems
                    rw [hlast, List.append_nil] at hitems
                    rw [not_not.mp htag, hitems]
                    exact ⟨ascending_iff.mp hascending,
                      serializeLeafChunk_eq_ok.mpr ⟨hlt, hsized, rfl⟩⟩
  · intro hentries
    exact deserializeLeafChunk_ok hentries.2 hentries.1

end Spellings

section Agreement

/-- Skipping a separator goes wrong exactly when reading it does: past the end there is no address.
-/
theorem readChildAddr_eq (data : Bytes) :
    readChildAddr data = (readChild data).map fun read => (read.1.2, read.2) := by
  unfold readChildAddr readChild readCounted
  cases read4 data with
  | error e => rfl
  | ok read =>
      obtain ⟨len, rest⟩ := read
      show readHash (rest.drop len) = Except.map _ (readBytes len rest >>= _)
      unfold readBytes
      by_cases hshort : rest.length < len
      · rw [if_pos hshort, List.drop_eq_nil_of_le (by omega)]
        rfl
      · rw [if_neg hshort]
        show _ = Except.map _ (readHash (rest.drop len) >>= _)
        cases readHash (rest.drop len) <;> rfl

/-- A loop over what is computed from the items computes it from the items of the loop. -/
theorem readItems_map {α β : Type} {item : Bytes → Except FerraError (α × Bytes)}
    {view : Bytes → Except FerraError (β × Bytes)} {f : α → β}
    (h : ∀ data, view data = (item data).map fun read => (f read.1, read.2)) (count : Nat)
    (data : Bytes) :
    readItems view count data =
      (readItems item count data).map fun read => (read.1.map f, read.2) := by
  induction count generalizing data with
  | zero => rfl
  | succ count ih =>
      unfold readItems
      rw [h data]
      cases item data with
      | error e => rfl
      | ok read =>
          show (readItems view count read.2 >>= _) =
            Except.map _ (readItems item count read.2 >>= _)
          rw [ih read.2]
          cases readItems item count read.2 <;> rfl

/-- The two decoders of an internal chunk give the same addresses, or the same failure. -/
theorem decodeChildAddrs_map (data : Bytes) :
    decodeChildAddrs data =
      (decodeInternalChildren data).map (List.map Prod.snd) := by
  unfold decodeChildAddrs decodeInternalChildren decodeChildren
  cases data with
  | nil => rfl
  | cons tag rest =>
      dsimp only
      by_cases hleaf : tag = 0x01
      · rw [if_pos hleaf, if_pos hleaf]
        rfl
      by_cases htag : tag = 0x02
      · rw [if_neg hleaf, if_neg hleaf, if_pos htag, if_pos htag]
        cases rest with
        | nil => rfl
        | cons level rest =>
            dsimp only
            cases read4 rest with
            | error e => rfl
            | ok read =>
                show (readItems readChildAddr read.1 read.2 >>= _) =
                  Except.map _ (readItems readChild read.1 read.2 >>= _)
                rw [readItems_map readChildAddr_eq]
                cases readItems readChild read.1 read.2 <;> rfl
      · rw [if_neg hleaf, if_neg hleaf, if_neg htag, if_neg htag]
        rfl

end Agreement

end Ferratomic.Prolly
