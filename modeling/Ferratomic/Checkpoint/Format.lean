import Ferratomic.Wire
import Ferratomic.Store.Reachable

/-!
# Checkpoint formats

A checkpoint is a header, a serialized payload and the BLAKE3 hash of both. Three layouts are
written: V3 holds the datoms in one array with their LIVE bits, V4 holds one array for each field
of the datoms, and the LIVE-first variant of V3 holds the LIVE datoms and the others apart. The
reader dispatches on the magic bytes and the version, and also reads the legacy V2 layout. The
main theorems are the round trips of the checkpoint data through each layout: `roundTrip_v3`,
`roundTrip_v4` and `roundTrip_liveFirstPartial`.
-/

namespace Ferratomic

open Lib

/-- `String::from_utf8_lossy`: every maximal invalid part becomes U+FFFD. -/
def fromUtf8Lossy : Bytes → String
  | [] => ""
  | a :: rest =>
      if a < 0x80 then String.singleton (Char.ofNat a.toNat) ++ fromUtf8Lossy rest
      else
        let continues (low high b : UInt8) : Bool := low ≤ b && b ≤ high
        let second (b : UInt8) : Bool :=
          if a = 0xE0 then continues 0xA0 0xBF b
          else if a = 0xED then continues 0x80 0x9F b
          else if a = 0xF0 then continues 0x90 0xBF b
          else if a = 0xF4 then continues 0x80 0x8F b
          else continues 0x80 0xBF b
        let width := if 0xC2 ≤ a ∧ a ≤ 0xDF then 2 else if 0xE0 ≤ a ∧ a ≤ 0xEF then 3
          else if 0xF0 ≤ a ∧ a ≤ 0xF4 then 4 else 1
        match rest with
        | [] => "\uFFFD"
        | b :: rest =>
            if width = 1 ∨ !second b then "\uFFFD" ++ fromUtf8Lossy (b :: rest)
            else if width = 2 then
              String.singleton (Char.ofNat ((a.toNat % 32) * 64 + b.toNat % 64)) ++
                fromUtf8Lossy rest
            else
              match rest with
              | [] => "\uFFFD"
              | c :: rest =>
                  if !continues 0x80 0xBF c then "\uFFFD" ++ fromUtf8Lossy (c :: rest)
                  else if width = 3 then
                    String.singleton (Char.ofNat
                      ((a.toNat % 16) * 4096 + (b.toNat % 64) * 64 + c.toNat % 64)) ++
                      fromUtf8Lossy rest
                  else
                    match rest with
                    | [] => "\uFFFD"
                    | d :: rest =>
                        if !continues 0x80 0xBF d then "\uFFFD" ++ fromUtf8Lossy (d :: rest)
                        else
                          String.singleton (Char.ofNat ((a.toNat % 8) * 262144 +
                            (b.toNat % 64) * 4096 + (c.toNat % 64) * 64 + d.toNat % 64)) ++
                            fromUtf8Lossy rest

/-- `hex_encode`: two lower-case digits for each byte. -/
def hexEncode (bytes : Bytes) : String :=
  String.join (bytes.map fun byte =>
    String.ofList [Nat.digitChar (byte.toNat / 16), Nat.digitChar (byte.toNat % 16)])

/-- `{version:#06x}` -/
def hexVersion (version : Nat) : String :=
  "0x" ++ hexEncode (leBytes 2 version).reverse

/-- Magic, version, epoch and genesis node of the V3 and V4 formats: 30 bytes. -/
def v3HeaderSize : Nat := 4 + 2 + 8 + 16

/-- The size of the trailing hash. -/
def hashSize : Nat := 32

/-- ASCII "CHKP". -/
def checkpointMagic : Bytes := [0x43, 0x48, 0x4B, 0x50]

/-- ASCII "CHK3". -/
def v3Magic : Bytes := [0x43, 0x48, 0x4B, 0x33]

/-- ASCII "CHK4". -/
def v4Magic : Bytes := [0x43, 0x48, 0x4B, 0x34]

/-- The version of the legacy format. -/
def checkpointVersion : Nat := 2

/-- The version of the standard V3 format. -/
def v3Version : Nat := 3

/-- The version of the LIVE-first V3 format. -/
def v3LiveFirstVersion : Nat := 0x0103

/-- The version of the V4 format. -/
def v4Version : Nat := 4

/-- `corrupted` -/
def corrupted {α : Type} (expected actual : String) : Except FerraError α :=
  .error (.checkpointCorrupted expected actual)

section Formats

variable [Blake3] [Bincode]

/-- The data of a LIVE-first checkpoint, with the two parts of the datoms apart. -/
structure PartialCheckpointData where
  epoch : UInt64
  genesisNode : NodeId
  schemaPairs : List (String × AttributeDef)
  liveDatoms : List Datom
  histDatoms : List Datom

/-- The header and the payload of a V3 or V4 checkpoint. -/
def checkpointContent (magic : Bytes) (version : Nat) (epoch : UInt64) (genesisNode : NodeId)
    (payload : Bytes) : Bytes :=
  magic ++ (leBytes 2 version ++ (leBytes 8 epoch.toNat ++ (genesisNode.val ++ payload)))

/-- A V3 or V4 checkpoint: the content followed by its hash. -/
def sealCheckpoint (magic : Bytes) (version : Nat) (epoch : UInt64) (genesisNode : NodeId)
    (payload : Bytes) : Bytes :=
  checkpointContent magic version epoch genesisNode payload ++
    (Blake3.hash (checkpointContent magic version epoch genesisNode payload)).val

/-- Serialize a payload and seal it. -/
def serializeSealed {α β : Type} (serde : Serde α β) (magic : Bytes) (version : Nat)
    (epoch : UInt64) (genesisNode : NodeId) (payload : α) : Except FerraError Bytes :=
  match serde.serialize payload with
  | .error message => .error (.checkpointWrite message)
  | .ok bytes => .ok (sealCheckpoint magic version epoch genesisNode bytes)

/-- `serialize_v3_bytes` -/
def serializeV3Bytes (datoms : List Datom) (schemaPairs : List (String × AttributeDef))
    (epoch : UInt64) (genesisNode : NodeId) (liveBits : List Bool) : Except FerraError Bytes :=
  serializeSealed Bincode.v3 v3Magic v3Version epoch genesisNode
    ⟨schemaPairs, datoms, liveBits⟩

/-- The datoms whose bit is set and the others, both in their order. -/
def partitionLive (datoms : List Datom) (liveBits : List Bool) : List Datom × List Datom :=
  datoms.zipIdx.foldl
    (fun parts entry =>
      if liveBits[entry.2]? = some true then (parts.1 ++ [entry.1], parts.2)
      else (parts.1, parts.2 ++ [entry.1]))
    ([], [])

/-- `serialize_v3_live_first` -/
def serializeV3LiveFirst (datoms : List Datom) (schemaPairs : List (String × AttributeDef))
    (epoch : UInt64) (genesisNode : NodeId) (liveBits : List Bool) : Except FerraError Bytes :=
  let parts := partitionLive datoms liveBits
  serializeSealed Bincode.liveFirst v3Magic v3LiveFirstVersion epoch genesisNode
    ⟨schemaPairs, parts.1, parts.2⟩

/-- `serialize_v4_bytes` -/
def serializeV4Bytes (datoms : List Datom) (schemaPairs : List (String × AttributeDef))
    (epoch : UInt64) (genesisNode : NodeId) (liveBits : List Bool) : Except FerraError Bytes :=
  serializeSealed Bincode.v4 v4Magic v4Version epoch genesisNode
    ⟨schemaPairs, datoms.map Datom.entity, datoms.map Datom.attr, datoms.map Datom.value,
      datoms.map Datom.tx, datoms.map (fun d => d.op = .assert), liveBits⟩

/-- `require_live_bits` -/
def CheckpointData.requireLiveBits (data : CheckpointData) : Except FerraError (List Bool) :=
  match data.liveBits with
  | some bits => .ok bits
  | none =>
      .error (.checkpointWrite "live_bits required for V3 serialization but absent (V2 data?)")

/-- The layouts that are written. -/
inductive CheckpointFormat where
  | v3
  | v4
  | liveFirst

/-- `serialize_checkpoint_bytes`, `serialize_v4_checkpoint_bytes` and
`serialize_live_first_bytes`. -/
def serializeCheckpointBytes (format : CheckpointFormat) (data : CheckpointData) :
    Except FerraError Bytes := do
  let liveBits ← data.requireLiveBits
  match format with
  | .v3 => serializeV3Bytes data.datoms data.schemaPairs data.epoch data.genesisNode liveBits
  | .v4 => serializeV4Bytes data.datoms data.schemaPairs data.epoch data.genesisNode liveBits
  | .liveFirst =>
      serializeV3LiveFirst data.datoms data.schemaPairs data.epoch data.genesisNode liveBits

/-- `verify_blake3`: the content of sealed bytes whose hash is right. -/
def verifyBlake3 (bytes : Bytes) (minContent : Nat) : Except FerraError Bytes :=
  if bytes.length < hashSize + minContent then
    corrupted s!"at least {hashSize + minContent} bytes" s!"{bytes.length} bytes"
  else
    let content := bytes.take (bytes.length - hashSize)
    if (Blake3.hash content).val ≠ bytes.drop (bytes.length - hashSize) then
      corrupted "valid BLAKE3 checksum" "checksum mismatch"
    else .ok content

/-- `parse_v3_header_versioned`, for a given magic and its name. -/
def parseHeaderVersioned (magic : Bytes) (name : String) (content : Bytes) :
    Except FerraError (UInt64 × NodeId × Nat) :=
  if content.take 4 ≠ magic then corrupted name (fromUtf8Lossy (content.take 4))
  else if h : ((content.drop 14).take 16).length = 16 then
    .ok (UInt64.ofNat (leNat ((content.drop 6).take 8)), ⟨(content.drop 14).take 16, h⟩,
      leNat ((content.drop 4).take 2))
  else corrupted "16-byte genesis node" "truncated"

/-- `parse_v3_header` and `parse_v4_header`: the version must be the given one. -/
def parseHeader (magic : Bytes) (name : String) (version : Nat) (content : Bytes) :
    Except FerraError (UInt64 × NodeId) :=
  match parseHeaderVersioned magic name content with
  | .error e => .error e
  | .ok (epoch, genesisNode, found) =>
      if found ≠ version then
        corrupted s!"version {version} (V{version})" s!"version {found}"
      else .ok (epoch, genesisNode)

/-- `bincode::deserialize` on the payload of a checkpoint. -/
def deserializePayload {α β : Type} (serde : Serde α β) (name : String) (payload : Bytes) :
    Except FerraError β :=
  match serde.deserialize payload with
  | .error message => corrupted name message
  | .ok value => .ok value

/-- `deserialize_v3_bytes` -/
def deserializeV3Bytes (data : Bytes) : Except FerraError CheckpointData := do
  let content ← verifyBlake3 data v3HeaderSize
  let (epoch, genesisNode) ← parseHeader v3Magic "CHK3" v3Version content
  let payload ← deserializePayload Bincode.v3 "valid V3 bincode payload"
    (content.drop v3HeaderSize)
  if payload.liveBits.length ≠ payload.datoms.length then
    corrupted s!"live_bits.len() == datoms.len() ({payload.datoms.length})"
      s!"live_bits.len() = {payload.liveBits.length}"
  else
    .ok ⟨epoch, genesisNode, payload.schemaPairs, payload.datoms.map WireDatom.intoTrusted,
      some payload.liveBits⟩

/-- `deserialize_v3_live_first_partial` -/
def deserializeV3LiveFirstPartial (data : Bytes) : Except FerraError PartialCheckpointData := do
  let content ← verifyBlake3 data v3HeaderSize
  let (epoch, genesisNode, version) ← parseHeaderVersioned v3Magic "CHK3" content
  if version ≠ v3LiveFirstVersion then
    corrupted s!"version {hexVersion v3LiveFirstVersion} (LIVE-first)"
      s!"version {hexVersion version}"
  else
    let payload ← deserializePayload Bincode.liveFirst "valid V3 LIVE-first bincode payload"
      (content.drop v3HeaderSize)
    .ok ⟨epoch, genesisNode, payload.schemaPairs, payload.liveDatoms.map WireDatom.intoTrusted,
      payload.histDatoms.map WireDatom.intoTrusted⟩

/-- `deserialize_v3_live_first_full`: merge the two parts and recompute the LIVE bits. -/
def deserializeV3LiveFirstFull (data : Bytes) : Except FerraError CheckpointData := do
  let parts ← deserializeV3LiveFirstPartial data
  let merged := mergeSortDedup parts.liveDatoms parts.histDatoms
  .ok ⟨parts.epoch, parts.genesisNode, parts.schemaPairs, merged,
    some (buildLiveBitvectorPub merged)⟩

/-- One test of `validate_column_lengths`. -/
def checkColumn (name : String) (expected found : Nat) : Except FerraError Unit :=
  if found ≠ expected then
    corrupted s!"{name}.len() == {expected}" s!"{name}.len() = {found}"
  else .ok ()

/-- `validate_column_lengths` -/
def validateColumnLengths (payload : V4PayloadRead) : Except FerraError Nat := do
  let n := payload.entities.length
  checkColumn "attributes" n payload.attributes.length
  checkColumn "values" n payload.values.length
  checkColumn "tx_ids" n payload.txIds.length
  checkColumn "ops" n payload.ops.length
  checkColumn "live_bits" n payload.liveBits.length
  pure n

/-- The columns zipped back into datoms. -/
def zipColumns (payload : V4PayloadRead) : List Datom :=
  ((((payload.entities.zip payload.attributes).zip payload.values).zip payload.txIds).zip
      payload.ops).map
    fun ((((entity, attr), value), tx), isAssert) =>
      ⟨entity.intoTrusted, attr, value.intoTrusted, tx, if isAssert then .assert else .retract⟩

/-- `deserialize_v4_bytes` -/
def deserializeV4Bytes (data : Bytes) : Except FerraError CheckpointData := do
  let content ← verifyBlake3 data v3HeaderSize
  let (epoch, genesisNode) ← parseHeader v4Magic "CHK4" v4Version content
  let payload ← deserializePayload Bincode.v4 "valid V4 bincode payload"
    (content.drop v3HeaderSize)
  let _ ← validateColumnLengths payload
  .ok ⟨epoch, genesisNode, payload.schemaPairs, zipColumns payload, some payload.liveBits⟩

/-- The header size of the legacy format. -/
def v2HeaderSize : Nat := 22

/-- `deserialize_v2_bytes`: the legacy format, which has no LIVE bits. -/
def deserializeV2Bytes (data : Bytes) : Except FerraError CheckpointData := do
  if data.length < v2HeaderSize + hashSize then
    corrupted s!"at least {v2HeaderSize + hashSize} bytes" s!"{data.length} bytes"
  else
    let content := data.take (data.length - hashSize)
    let stored := data.drop (data.length - hashSize)
    if (Blake3.hash content).val ≠ stored then
      corrupted (hexEncode (Blake3.hash content).val) (hexEncode stored)
    else if content.take 4 ≠ checkpointMagic then
      corrupted "CHKP" (fromUtf8Lossy (content.take 4))
    else if leNat ((content.drop 4).take 2) ≠ checkpointVersion then
      corrupted s!"version {checkpointVersion} (V2)"
        s!"version {leNat ((content.drop 4).take 2)}"
    else
      let payloadLen := leNat ((content.drop 14).take 8)
      let available := content.length - v2HeaderSize
      if available < payloadLen then
        corrupted s!"{payloadLen} bytes payload" s!"{available} bytes available"
      else
        let payload ← deserializePayload Bincode.v2 "valid bincode payload"
          ((content.drop v2HeaderSize).take payloadLen)
        .ok ⟨UInt64.ofNat (leNat ((content.drop 6).take 8)), payload.genesisNode, payload.schema,
          payload.datoms.map WireDatom.intoTrusted, none⟩

/-- `deserialize_checkpoint_bytes`: dispatch on the magic and the version. -/
def deserializeCheckpointBytes (data : Bytes) : Except FerraError CheckpointData :=
  if data.length < 4 then corrupted "at least 4 bytes for magic" s!"{data.length} bytes"
  else if data.take 4 = checkpointMagic then deserializeV2Bytes data
  else if data.take 4 = v3Magic then
    if data.length < 6 then corrupted "at least 6 bytes for version" s!"{data.length} bytes"
    else
      let version := leNat ((data.drop 4).take 2)
      if version = v3Version then deserializeV3Bytes data
      else if version = v3LiveFirstVersion then deserializeV3LiveFirstFull data
      else corrupted "V3 version 0x0003 or 0x0103" s!"version {hexVersion version}"
  else if data.take 4 = v4Magic then deserializeV4Bytes data
  else corrupted "CHKP, CHK3, or CHK4" (fromUtf8Lossy (data.take 4))

/-- `deserialize_checkpoint_bytes` of the store layer: the store that checkpoint bytes hold. -/
def storeFromCheckpointBytes (data : Bytes) : Except FerraError Store := do
  let checkpoint ← deserializeCheckpointBytes data
  storeFromCheckpointData checkpoint

/-- A store over the LIVE datoms and the datoms still to be loaded. -/
structure PartialStore where
  store : Store
  histDatoms : List Datom
  schemaPairs : List (String × AttributeDef)

/-- `deserialize_live_first_partial` of the store layer: every bit of the LIVE part is set. -/
def deserializeLiveFirstPartial (data : Bytes) : Except FerraError PartialStore := do
  let parts ← deserializeV3LiveFirstPartial data
  let store ← Store.fromCheckpointV3 parts.epoch parts.genesisNode parts.schemaPairs
    parts.liveDatoms (List.replicate parts.liveDatoms.length true)
  .ok ⟨store, parts.histDatoms, parts.schemaPairs⟩

/-- `load_historical`: merge the historical datoms into the LIVE store. -/
def PartialStore.loadHistorical (partialStore : PartialStore) : Except FerraError Store :=
  let merged := mergeSortDedup partialStore.store.datoms partialStore.histDatoms
  Store.fromCheckpointV3 partialStore.store.epoch partialStore.store.genesisNode
    partialStore.schemaPairs merged (buildLiveBitvectorPub merged)

end Formats

section Sealing

variable {magic : Bytes} (hmagic : magic.length = 4) (version : Nat) (epoch : UInt64)
  (genesisNode : NodeId) (payload : Bytes)

include hmagic

/-- A checkpoint is its header and its payload. -/
theorem length_checkpointContent :
    (checkpointContent magic version epoch genesisNode payload).length =
      v3HeaderSize + payload.length := by
  simp only [checkpointContent, List.length_append, length_leBytes, hmagic,
    genesisNode.property, v3HeaderSize]
  omega

/-- The hash of sealed bytes verifies. -/
theorem verifyBlake3_sealCheckpoint [Blake3] :
    verifyBlake3 (sealCheckpoint magic version epoch genesisNode payload) v3HeaderSize =
      .ok (checkpointContent magic version epoch genesisNode payload) := by
  have hlen := length_checkpointContent hmagic version epoch genesisNode payload
  have hhash := (Blake3.hash (checkpointContent magic version epoch genesisNode payload)).property
  have hsize : (sealCheckpoint magic version epoch genesisNode payload).length - hashSize =
      (checkpointContent magic version epoch genesisNode payload).length := by
    rw [sealCheckpoint, List.length_append, hhash]
    exact Nat.add_sub_cancel _ _
  have hmin : ¬ (sealCheckpoint magic version epoch genesisNode payload).length <
      hashSize + v3HeaderSize := by
    rw [sealCheckpoint, List.length_append, hhash, hlen, hashSize]
    omega
  rw [verifyBlake3, if_neg hmin]
  simp only [hsize]
  simp only [sealCheckpoint, List.take_left, List.drop_left, ne_eq, not_true_eq_false, if_false]

/-- The payload follows the header. -/
theorem drop_checkpointContent :
    (checkpointContent magic version epoch genesisNode payload).drop v3HeaderSize = payload := by
  simp [checkpointContent, List.drop_append, hmagic, v3HeaderSize, genesisNode.property,
    List.drop_eq_nil_of_le]

variable {version}

/-- The version is read back from the content, also when more bytes follow. -/
theorem version_checkpointContent (hversion : version < 2 ^ 16) (rest : Bytes) :
    leNat (((checkpointContent magic version epoch genesisNode payload ++ rest).drop 4).take 2) =
      version := by
  have hlt : version < 256 ^ 2 := hversion
  simp [checkpointContent, List.append_assoc, hmagic, leNat_leBytes hlt]

/-- The header is read back from the content. -/
theorem parseHeaderVersioned_checkpointContent (hversion : version < 2 ^ 16) (name : String) :
    parseHeaderVersioned magic name
        (checkpointContent magic version epoch genesisNode payload) =
      .ok (epoch, genesisNode, version) := by
  have hread := version_checkpointContent hmagic epoch genesisNode payload hversion []
  rw [List.append_nil] at hread
  have htake : (checkpointContent magic version epoch genesisNode payload).take 4 = magic :=
    List.take_left' hmagic
  have hepoch : ((checkpointContent magic version epoch genesisNode payload).drop 6).take 8 =
      leBytes 8 epoch.toNat := by
    simp [checkpointContent, List.drop_append, hmagic, List.drop_eq_nil_of_le]
  have hnode : ((checkpointContent magic version epoch genesisNode payload).drop 14).take 16 =
      genesisNode.val := by
    simp [checkpointContent, List.drop_append, hmagic, List.drop_eq_nil_of_le,
      genesisNode.property]
  have hlt : epoch.toNat < 256 ^ 8 := epoch.toNat_lt
  rw [parseHeaderVersioned, if_neg (not_not.mpr htake)]
  simp only [hnode, hepoch, hread, genesisNode.property, dif_pos, leNat_leBytes hlt,
    UInt64.ofNat_toNat]

/-- The header is read back from the content. -/
theorem parseHeader_checkpointContent (hversion : version < 2 ^ 16) (name : String) :
    parseHeader magic name version
        (checkpointContent magic version epoch genesisNode payload) =
      .ok (epoch, genesisNode) := by
  rw [parseHeader, parseHeaderVersioned_checkpointContent hmagic epoch genesisNode payload
    hversion]
  simp

end Sealing

section Layouts

/-- The partition keeps the order of the datoms in both parts. -/
theorem partitionLive_eq (datoms : List Datom) (liveBits : List Bool) :
    partitionLive datoms liveBits =
      ((datoms.zipIdx.filter fun entry => liveBits[entry.2]? = some true).map Prod.fst,
        (datoms.zipIdx.filter fun entry => ¬ liveBits[entry.2]? = some true).map Prod.fst) := by
  have hfold (entries : List (Datom × Nat)) (live hist : List Datom) :
      entries.foldl
          (fun parts entry =>
            if liveBits[entry.2]? = some true then (parts.1 ++ [entry.1], parts.2)
            else (parts.1, parts.2 ++ [entry.1])) (live, hist) =
        (live ++ (entries.filter fun entry => liveBits[entry.2]? = some true).map Prod.fst,
          hist ++ (entries.filter fun entry => ¬ liveBits[entry.2]? = some true).map
            Prod.fst) := by
    induction entries generalizing live hist with
    | nil => simp
    | cons entry entries ih =>
        by_cases hbit : liveBits[entry.2]? = some true
        · simp [hbit, ih]
        · simp [hbit, ih]
  exact hfold datoms.zipIdx [] []

/-- Both parts keep the order of the datoms. -/
theorem sublist_partitionLive (datoms : List Datom) (liveBits : List Bool) :
    (partitionLive datoms liveBits).1.Sublist datoms ∧
      (partitionLive datoms liveBits).2.Sublist datoms := by
  have hsub (test : Datom × Nat → Bool) :
      ((datoms.zipIdx.filter test).map Prod.fst).Sublist datoms := by
    have h := (List.filter_sublist (l := datoms.zipIdx) (p := test)).map Prod.fst
    rwa [List.zipIdx_map_fst] at h
  rw [partitionLive_eq]
  exact ⟨hsub _, hsub _⟩

/-- Merging the two parts of an ascending array gives the array. -/
theorem mergeSortDedup_partitionLive {datoms : List Datom} (sorted : datoms.Pairwise (· < ·))
    (liveBits : List Bool) :
    mergeSortDedup (partitionLive datoms liveBits).1 (partitionLive datoms liveBits).2 =
      datoms := by
  obtain ⟨hlive, hhist⟩ := sublist_partitionLive datoms liveBits
  refine eq_of_toFinset_eq (pairwise_mergeSortDedup (sorted.sublist hlive)
    (sorted.sublist hhist)) sorted ?_
  ext d
  rw [toFinset_mergeSortDedup, Finset.mem_union, List.mem_toFinset, List.mem_toFinset,
    List.mem_toFinset]
  refine ⟨fun h => h.elim (hlive.subset ·) (hhist.subset ·), fun h => ?_⟩
  obtain ⟨i, hi⟩ : ∃ i, (d, i) ∈ datoms.zipIdx := by
    obtain ⟨i, hlt, rfl⟩ := List.mem_iff_getElem.mp h
    exact ⟨i, by simp [List.mem_zipIdx_iff_getElem?]⟩
  rw [partitionLive_eq]
  by_cases hbit : liveBits[i]? = some true
  · exact .inl (List.mem_map.mpr ⟨(d, i), List.mem_filter.mpr ⟨hi, by simpa using hbit⟩, rfl⟩)
  · exact .inr (List.mem_map.mpr ⟨(d, i), List.mem_filter.mpr ⟨hi, by simpa using hbit⟩, rfl⟩)

/-- The columns of a datom array zip back to the array. -/
theorem zipColumns_toWire (datoms : List Datom) (pairs : List (String × AttributeDef))
    (bits : List Bool) :
    zipColumns (V4PayloadWrite.toWire ⟨pairs, datoms.map Datom.entity, datoms.map Datom.attr,
      datoms.map Datom.value, datoms.map Datom.tx, datoms.map (fun d => d.op = .assert),
      bits⟩) = datoms := by
  have hop (d : Datom) : (if decide (d.op = .assert) = true then Op.assert else .retract) =
      d.op := by
    cases h : d.op <;> simp
  induction datoms with
  | nil => rfl
  | cons d datoms ih =>
      simp only [zipColumns, V4PayloadWrite.toWire, List.map_cons, List.zip_cons_cons] at ih ⊢
      rw [ih, Value.intoTrusted_toWire, hop]
      rfl

end Layouts

section RoundTrip

/-- The third format's magic has four bytes. -/
theorem length_v3Magic : v3Magic.length = 4 := rfl

/-- The fourth format's magic has four bytes. -/
theorem length_v4Magic : v4Magic.length = 4 := rfl

variable [Blake3]

/-- What serializing and sealing a payload gives when the serializer is faithful at it. -/
theorem serializeSealed_eq {α β : Type} {serde : Serde α β} {wire : α → β} {accepts : α → Prop}
    (h : serde.Faithful wire accepts) (payload : α) (haccepts : accepts payload) (magic : Bytes)
    (version : Nat) (epoch : UInt64) (genesisNode : NodeId) :
    ∃ bytes, serializeSealed serde magic version epoch genesisNode payload =
        .ok (sealCheckpoint magic version epoch genesisNode bytes) ∧
      ∀ name, deserializePayload serde name bytes = .ok (wire payload) := by
  obtain ⟨bytes, hserialize, hdeserialize⟩ := h payload haccepts
  refine ⟨bytes, ?_, fun name => ?_⟩
  · rw [serializeSealed, hserialize]
  · rw [deserializePayload, hdeserialize]

variable [Bincode]

/-- Sealed V3 bytes are read by the reader of their version. -/
theorem deserializeCheckpointBytes_v3Magic {version : Nat} (hversion : version < 2 ^ 16)
    (epoch : UInt64) (genesisNode : NodeId) (payload : Bytes) :
    deserializeCheckpointBytes (sealCheckpoint v3Magic version epoch genesisNode payload) =
      if version = v3Version then
        deserializeV3Bytes (sealCheckpoint v3Magic version epoch genesisNode payload)
      else if version = v3LiveFirstVersion then
        deserializeV3LiveFirstFull (sealCheckpoint v3Magic version epoch genesisNode payload)
      else corrupted "V3 version 0x0003 or 0x0103" s!"version {hexVersion version}" := by
  have hlen : v3HeaderSize ≤
      (sealCheckpoint v3Magic version epoch genesisNode payload).length := by
    rw [sealCheckpoint, List.length_append,
      length_checkpointContent length_v3Magic version epoch genesisNode payload]
    omega
  rw [v3HeaderSize] at hlen
  have htake : (sealCheckpoint v3Magic version epoch genesisNode payload).take 4 = v3Magic := rfl
  have hread : leNat (((sealCheckpoint v3Magic version epoch genesisNode payload).drop 4).take 2)
      = version :=
    version_checkpointContent length_v3Magic epoch genesisNode payload hversion _
  rw [deserializeCheckpointBytes, if_neg (by omega), htake, if_neg (by decide), if_pos rfl,
    if_neg (by omega)]
  simp only [hread]

/-- Sealed V4 bytes are read by the V4 reader. -/
theorem deserializeCheckpointBytes_v4Magic (version : Nat) (epoch : UInt64)
    (genesisNode : NodeId) (payload : Bytes) :
    deserializeCheckpointBytes (sealCheckpoint v4Magic version epoch genesisNode payload) =
      deserializeV4Bytes (sealCheckpoint v4Magic version epoch genesisNode payload) := by
  have hlen : v3HeaderSize ≤
      (sealCheckpoint v4Magic version epoch genesisNode payload).length := by
    rw [sealCheckpoint, List.length_append,
      length_checkpointContent length_v4Magic version epoch genesisNode payload]
    omega
  rw [v3HeaderSize] at hlen
  have htake : (sealCheckpoint v4Magic version epoch genesisNode payload).take 4 = v4Magic := rfl
  rw [deserializeCheckpointBytes, if_neg (by omega), htake, if_neg (by decide),
    if_neg (by decide), if_pos rfl]

variable {data : CheckpointData} {bits : List Bool}

/-- V3 bytes read back to the data. -/
theorem roundTrip_v3 (hfaithful : Bincode.Faithful) (hbits : data.liveBits = some bits)
    (hlength : bits.length = data.datoms.length) (hattrs : ShortAttrs data.datoms) :
    ∃ bytes, serializeCheckpointBytes .v3 data = .ok bytes ∧
      deserializeCheckpointBytes bytes = .ok data := by
  obtain ⟨payload, hserialize, hpayload⟩ := serializeSealed_eq hfaithful.v3
    ⟨data.schemaPairs, data.datoms, bits⟩ hattrs v3Magic v3Version data.epoch data.genesisNode
  have hversion : v3Version < 2 ^ 16 := by decide
  refine ⟨sealCheckpoint v3Magic v3Version data.epoch data.genesisNode payload, ?_, ?_⟩
  · rw [serializeCheckpointBytes, CheckpointData.requireLiveBits, hbits]
    exact hserialize
  · rw [deserializeCheckpointBytes_v3Magic hversion, if_pos rfl, deserializeV3Bytes,
      verifyBlake3_sealCheckpoint length_v3Magic]
    simp only [bind, Except.bind, parseHeader_checkpointContent length_v3Magic _ _ _ hversion,
      drop_checkpointContent length_v3Magic, hpayload, V3PayloadWrite.toWire,
      List.length_map, hlength,
      ne_eq, not_true_eq_false, if_false, map_intoTrusted_toWire, ← hbits]

/-- V4 bytes read back to the data. -/
theorem roundTrip_v4 (hfaithful : Bincode.Faithful) (hbits : data.liveBits = some bits)
    (hlength : bits.length = data.datoms.length) :
    ∃ bytes, serializeCheckpointBytes .v4 data = .ok bytes ∧
      deserializeCheckpointBytes bytes = .ok data := by
  obtain ⟨payload, hserialize, hpayload⟩ := serializeSealed_eq hfaithful.v4
    ⟨data.schemaPairs, data.datoms.map Datom.entity, data.datoms.map Datom.attr,
      data.datoms.map Datom.value, data.datoms.map Datom.tx,
      data.datoms.map (fun d => d.op = .assert), bits⟩
    trivial v4Magic v4Version data.epoch data.genesisNode
  have hversion : v4Version < 2 ^ 16 := by decide
  refine ⟨sealCheckpoint v4Magic v4Version data.epoch data.genesisNode payload, ?_, ?_⟩
  · rw [serializeCheckpointBytes, CheckpointData.requireLiveBits, hbits]
    exact hserialize
  · rw [deserializeCheckpointBytes_v4Magic, deserializeV4Bytes,
      verifyBlake3_sealCheckpoint length_v4Magic]
    simp only [bind, Except.bind, parseHeader_checkpointContent length_v4Magic _ _ _ hversion,
      drop_checkpointContent length_v4Magic, hpayload, zipColumns_toWire]
    simp only [validateColumnLengths, V4PayloadWrite.toWire, checkColumn, List.length_map,
      hlength, ne_eq, not_true_eq_false, if_false, bind, Except.bind, pure, Except.pure, ← hbits]

/-- The two parts of LIVE-first bytes read back. -/
theorem roundTrip_liveFirstPartial (hfaithful : Bincode.Faithful)
    (hbits : data.liveBits = some bits) (hattrs : ShortAttrs data.datoms) :
    ∃ bytes, serializeCheckpointBytes .liveFirst data = .ok bytes ∧
      deserializeV3LiveFirstPartial bytes =
        .ok ⟨data.epoch, data.genesisNode, data.schemaPairs,
          (partitionLive data.datoms bits).1, (partitionLive data.datoms bits).2⟩ ∧
      deserializeCheckpointBytes bytes = deserializeV3LiveFirstFull bytes := by
  obtain ⟨hlive, hhist⟩ := sublist_partitionLive data.datoms bits
  obtain ⟨payload, hserialize, hpayload⟩ := serializeSealed_eq hfaithful.liveFirst
    ⟨data.schemaPairs, (partitionLive data.datoms bits).1, (partitionLive data.datoms bits).2⟩
    ⟨fun d hd => hattrs d (hlive.subset hd), fun d hd => hattrs d (hhist.subset hd)⟩
    v3Magic v3LiveFirstVersion data.epoch data.genesisNode
  have hversion : v3LiveFirstVersion < 2 ^ 16 := by decide
  refine ⟨sealCheckpoint v3Magic v3LiveFirstVersion data.epoch data.genesisNode payload, ?_, ?_,
    ?_⟩
  · rw [serializeCheckpointBytes, CheckpointData.requireLiveBits, hbits]
    exact hserialize
  · rw [deserializeV3LiveFirstPartial, verifyBlake3_sealCheckpoint length_v3Magic]
    simp only [bind, Except.bind,
      parseHeaderVersioned_checkpointContent length_v3Magic _ _ _ hversion,
      drop_checkpointContent length_v3Magic, hpayload, V3LiveFirstPayloadWrite.toWire, ne_eq,
      not_true_eq_false, if_false, map_intoTrusted_toWire]
  · rw [deserializeCheckpointBytes_v3Magic hversion, if_neg (by decide), if_pos rfl]

end RoundTrip

end Ferratomic
