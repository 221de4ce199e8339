import Ferratomic.Lib.File
import Ferratomic.Error

/-!
# The write-ahead log

Frames are written at the cursor of a file and parsed back from its beginning; parsing stops at the
first frame that fails a check. A write may fail after any number of the frame's bytes reached the
file, and each file operation of a recovery may fail, so the writer and the recovery take the
outcomes of the disk as an argument. The main theorems are `parseWalFramesWithPos_frames`, which
says that a sequence of whole frames followed by a torn one is parsed back to the whole ones, and
`parseWalFramesWithPos_sound`, which says that whatever is parsed stands in the file as a sequence
of whole frames.
-/

namespace Ferratomic

open Lib

/-- The frame magic, ASCII "FERR". -/
def walMagic : Bytes := [0x46, 0x45, 0x52, 0x52]

/-- The frame format version. -/
def walVersion : Nat := 1

/-- Magic, version, epoch and length: 18 bytes. -/
def headerSize : Nat := 18

/-- The checksum trailer. -/
def crcSize : Nat := 4

/-- The size of a frame without payload. -/
def minFrameSize : Nat := headerSize + crcSize

/-- The payload limit of 256 MiB. -/
def maxPayloadSize : Nat := 256 * 1024 * 1024

/-- One bit of the checksum loop. -/
def crcBit (crc : UInt32) : UInt32 :=
  if crc &&& 1 ≠ 0 then (crc >>> 1) ^^^ 0xEDB88320 else crc >>> 1

/-- `crc32_ieee`: the reflected IEEE 802.3 checksum, bit by bit. -/
def crc32Ieee (data : Bytes) : UInt32 :=
  ~~~(data.foldl (fun crc byte => crcBit^[8] (crc ^^^ byte.toUInt32)) 0xFFFFFFFF)

example : crc32Ieee [] = 0 := by decide

/-- A recovered log entry. -/
@[ext]
structure WalEntry where
  epoch : UInt64
  payload : Bytes
  deriving DecidableEq, Repr

/-- The log handle. -/
structure Wal where
  file : File
  lastSyncedEpoch : UInt64
  pendingEpoch : UInt64

/-- What the disk makes of one `write_all`: all bytes written, or an error after the first
`written` bytes reached the file. -/
inductive WriteOutcome where
  | complete
  | failed (written : Nat) (message : String)
  deriving DecidableEq, Repr

/-- What the disk makes of one `read_to_end`: all bytes read, or an error after the first `read`. -/
inductive ReadOutcome where
  | complete
  | failed (read : Nat) (message : String)
  deriving DecidableEq, Repr

/-- What the disk makes of the file operations of one recovery, in their order. -/
structure RecoverOutcome where
  seekStart : Except String Unit
  readToEnd : ReadOutcome
  setLen : Except String Unit
  syncAll : Except String Unit
  seekEnd : Except String Unit

/-- No operation fails. -/
def RecoverOutcome.complete : RecoverOutcome :=
  ⟨.ok (), .complete, .ok (), .ok (), .ok ()⟩

/-- The frame up to its payload. -/
def frameData (epoch : UInt64) (payload : Bytes) : Bytes :=
  walMagic ++ (leBytes 2 walVersion ++ (leBytes 8 epoch.toNat ++
    (leBytes 4 payload.length ++ payload)))

/-- The whole frame of an entry. -/
def frame (epoch : UInt64) (payload : Bytes) : Bytes :=
  frameData epoch payload ++ leBytes crcSize (crc32Ieee (frameData epoch payload)).toNat

namespace Wal

/-- `create`: an empty log. -/
def create : Wal := ⟨⟨[], 0⟩, 0, 0⟩

/-- `open` on an existing file: the cursor is at its start. -/
def openFile (bytes : Bytes) : Wal := ⟨⟨bytes, 0⟩, 0, 0⟩

/-- `write_frame`: check the epoch and the size, then write the frame at the cursor. -/
def writeFrame (wal : Wal) (outcome : WriteOutcome) (epoch : UInt64) (payload : Bytes) :
    Except FerraError Unit × Wal :=
  if epoch ≤ wal.pendingEpoch ∧ 0 < wal.pendingEpoch then
    (.error (.invariantViolation "INV-FERR-007"
      s!"WAL epoch monotonicity violated: epoch {epoch} <= pending {wal.pendingEpoch}"), wal)
  else if maxPayloadSize < payload.length then
    (.error (.walWrite
      s!"payload too large: {payload.length} bytes exceeds 256 MiB limit"), wal)
  else if 2 ^ 32 ≤ payload.length then
    (.error (.walWrite s!"payload too large: {payload.length} bytes exceeds u32::MAX"), wal)
  else
    match outcome with
    | .failed written message =>
        (.error (.walWrite message),
          { wal with file := wal.file.write ((frame epoch payload).take written) })
    | .complete =>
        (.ok (), { wal with
          file := wal.file.write (frame epoch payload)
          pendingEpoch := max wal.pendingEpoch epoch })

/-- `append_raw` -/
def appendRaw (wal : Wal) (outcome : WriteOutcome) (epoch : UInt64) (payload : Bytes) :
    Except FerraError Unit × Wal :=
  wal.writeFrame outcome epoch payload

/-- `fsync` -/
def fsync (wal : Wal) (outcome : Except String Unit) : Except FerraError Unit × Wal :=
  match outcome with
  | .error message => (.error (.walWrite message), wal)
  | .ok () => (.ok (), { wal with lastSyncedEpoch := max wal.lastSyncedEpoch wal.pendingEpoch })

end Wal

/-- `try_parse_frame` on the part of the buffer that starts at the frame; the second component
is the number of bytes the frame takes. -/
def tryParseFrame (buf : Bytes) : Option (WalEntry × Nat) :=
  if buf.take 4 ≠ walMagic then none
  else if leNat ((buf.drop 4).take 2) ≠ walVersion then none
  else
    let epoch := UInt64.ofNat (leNat ((buf.drop 6).take 8))
    let payloadLen := leNat ((buf.drop 14).take 4)
    if maxPayloadSize < payloadLen then none
    else
      let frameEnd := headerSize + payloadLen + crcSize
      if buf.length < frameEnd then none
      else
        let storedCrc := leNat ((buf.drop (headerSize + payloadLen)).take crcSize)
        let computedCrc := crc32Ieee (buf.take (headerSize + payloadLen))
        if storedCrc ≠ computedCrc.toNat then none
        else some (⟨epoch, (buf.drop headerSize).take payloadLen⟩, frameEnd)

/-- The loop of `parse_wal_frames_with_pos` on the unread part of the buffer. A frame has at
least one byte, so as many rounds as there are bytes are enough. -/
def parseFrames : Nat → Bytes → List WalEntry × Nat
  | 0, _ => ([], 0)
  | fuel + 1, buf =>
      if minFrameSize ≤ buf.length then
        match tryParseFrame buf with
        | some (entry, size) =>
            let rest := parseFrames fuel (buf.drop size)
            (entry :: rest.1, size + rest.2)
        | none => ([], 0)
      else ([], 0)

/-- `parse_wal_frames_with_pos`: the valid entries and the offset past the last one. -/
def parseWalFramesWithPos (buf : Bytes) : List WalEntry × Nat :=
  parseFrames buf.length buf

namespace Wal

/-- The garbage after the last valid frame is cut off, and the cut is synced. -/
def cutGarbage (wal : Wal) (outcome : RecoverOutcome) (lastValidPos bufLen : Nat) :
    Except FerraError Unit × Wal :=
  if lastValidPos < bufLen then
    match outcome.setLen with
    | .error message => (.error (.walWrite message), wal)
    | .ok () =>
        let wal := { wal with file := wal.file.setLen lastValidPos }
        match outcome.syncAll with
        | .error message => (.error (.walWrite message), wal)
        | .ok () => (.ok (), wal)
  else (.ok (), wal)

/-- The recovery of the bytes that were read: take over the epoch of the last valid frame, cut the
file after it and seek to the end. -/
def recoverRead (wal : Wal) (outcome : RecoverOutcome) (buf : Bytes) :
    Except FerraError (List WalEntry) × Wal :=
  let (entries, lastValidPos) := parseWalFramesWithPos buf
  let wal := { wal with
    lastSyncedEpoch := (entries.getLast?.map WalEntry.epoch).getD wal.lastSyncedEpoch }
  match wal.cutGarbage outcome lastValidPos buf.length with
  | (.error e, wal) => (.error e, wal)
  | (.ok (), wal) =>
      let wal := { wal with pendingEpoch := wal.lastSyncedEpoch }
      match outcome.seekEnd with
      | .error message => (.error (.walWrite message), wal)
      | .ok () => (.ok entries, { wal with file := wal.file.seekEnd })

/-- `recover`: read the file from its start, parse it and cut it after the last valid frame. A
recovery that fails leaves the cursor where it has come to, and the pending epoch as it was unless
only the last seek fails. -/
def recover (wal : Wal) (outcome : RecoverOutcome) : Except FerraError (List WalEntry) × Wal :=
  match outcome.seekStart with
  | .error message => (.error (.walRead message), wal)
  | .ok () =>
      let file := wal.file.seekStart 0
      match outcome.readToEnd with
      | .failed read message => (.error (.walRead message), { wal with file := file.readUpTo read })
      | .complete =>
          let (buf, file) := file.readToEnd
          { wal with file := file }.recoverRead outcome buf

end Wal

section Frames

/-- The data of a frame are its header and its payload. -/
@[simp]
theorem length_frameData (epoch : UInt64) (payload : Bytes) :
    (frameData epoch payload).length = headerSize + payload.length := by
  simp only [frameData, List.length_append, length_leBytes, headerSize]
  show 4 + _ = _
  omega

/-- A frame is its header, its payload and its checksum. -/
@[simp]
theorem length_frame (epoch : UInt64) (payload : Bytes) :
    (frame epoch payload).length = headerSize + payload.length + crcSize := by
  rw [frame, List.length_append, length_frameData, length_leBytes]

/-- Behind its header a frame's data are the payload. -/
theorem drop_frameData (epoch : UInt64) (payload : Bytes) :
    (frameData epoch payload).drop headerSize = payload := by
  have hmagic : walMagic.length = 4 := rfl
  simp [frameData, List.drop_append, hmagic, headerSize, List.drop_eq_nil_of_le]

/-- The frames of a list of entries. -/
def frames (entries : List WalEntry) : Bytes :=
  entries.flatMap fun entry => frame entry.epoch entry.payload

/-- No entries have no bytes. -/
@[simp]
theorem frames_nil : frames [] = [] := rfl

/-- The frames of entries follow one another. -/
@[simp]
theorem frames_cons (entry : WalEntry) (entries : List WalEntry) :
    frames (entry :: entries) = frame entry.epoch entry.payload ++ frames entries := rfl

/-- The frames of two lists of entries follow one another. -/
@[simp]
theorem frames_append (left right : List WalEntry) :
    frames (left ++ right) = frames left ++ frames right :=
  List.flatMap_append

/-- The payload is within the limit of the log. -/
def WalEntry.Fits (entry : WalEntry) : Prop :=
  entry.payload.length ≤ maxPayloadSize

/-- The fields that a buffer shows whose first bytes are a frame header. -/
structure ShowsHeader (buf : Bytes) (epoch : UInt64) (payloadLen : Nat) : Prop where
  magic : buf.take 4 = walMagic
  version : leNat ((buf.drop 4).take 2) = walVersion
  epoch : UInt64.ofNat (leNat ((buf.drop 6).take 8)) = epoch
  length : leNat ((buf.drop 14).take 4) = payloadLen

/-- A slice within the first bytes depends on these only. -/
theorem drop_take_of_take_eq {a b : Bytes} {limit start count : Nat}
    (h : a.take limit = b.take limit) (hle : start + count ≤ limit) :
    (a.drop start).take count = (b.drop start).take count := by
  have hslice (c : Bytes) :
      (c.drop start).take count = ((c.take limit).take (start + count)).drop start := by
    rw [List.take_take, Nat.min_eq_left hle, List.drop_take, Nat.add_sub_cancel_left]
  rw [hslice, hslice, h]

/-- The data of a frame that fits show its header. -/
theorem showsHeader_frameData (epoch : UInt64) {payload : Bytes}
    (hfits : payload.length ≤ maxPayloadSize) :
    ShowsHeader (frameData epoch payload) epoch payload.length := by
  have hmagic : walMagic.length = 4 := rfl
  constructor
  · simp [frameData, hmagic]
  · simp [frameData, hmagic, leNat_leBytes_mod, walVersion]
  · simp [frameData, List.drop_append, hmagic, leNat_leBytes_mod, List.drop_eq_nil_of_le]
  · have hlt : payload.length < 256 ^ 4 := by
      simp only [maxPayloadSize] at hfits
      omega
    simp [frameData, List.drop_append, hmagic, leNat_leBytes hlt, List.drop_eq_nil_of_le]

/-- A buffer with the first bytes of a frame shows the header of the frame. -/
theorem ShowsHeader.of_take {buf : Bytes} {epoch : UInt64} {payload : Bytes}
    (h : buf.take headerSize = (frameData epoch payload).take headerSize)
    (hfits : payload.length ≤ maxPayloadSize) : ShowsHeader buf epoch payload.length := by
  have hframe := showsHeader_frameData epoch hfits
  constructor
  · rw [← hframe.magic]
    exact drop_take_of_take_eq h (show 0 + 4 ≤ headerSize by decide)
  · rw [← hframe.version, drop_take_of_take_eq h (by decide)]
  · rw [← hframe.epoch, drop_take_of_take_eq h (by decide)]
  · rw [← hframe.length, drop_take_of_take_eq h (by decide)]

/-- Parsing a buffer that shows a header: the completeness and checksum tests remain. -/
theorem ShowsHeader.tryParseFrame_eq {buf : Bytes} {epoch : UInt64} {payloadLen : Nat}
    (h : ShowsHeader buf epoch payloadLen) (hfits : payloadLen ≤ maxPayloadSize) :
    tryParseFrame buf =
      if buf.length < headerSize + payloadLen + crcSize then none
      else if leNat ((buf.drop (headerSize + payloadLen)).take crcSize) ≠
          (crc32Ieee (buf.take (headerSize + payloadLen))).toNat then none
      else some (⟨epoch, (buf.drop headerSize).take payloadLen⟩,
        headerSize + payloadLen + crcSize) := by
  have hle : ¬ maxPayloadSize < payloadLen := by omega
  simp only [tryParseFrame, h.magic, h.version, h.epoch, h.length, ne_eq, not_true_eq_false,
    if_false, hle]

/-- A whole frame is parsed to its entry. -/
theorem tryParseFrame_frame {entry : WalEntry} (hfits : entry.Fits) (rest : Bytes) :
    tryParseFrame (frame entry.epoch entry.payload ++ rest) =
      some (entry, headerSize + entry.payload.length + crcSize) := by
  obtain ⟨epoch, payload⟩ := entry
  simp only [WalEntry.Fits] at hfits ⊢
  have hdata : (frame epoch payload ++ rest).take (headerSize + payload.length) =
      frameData epoch payload := by
    rw [frame, List.append_assoc, List.take_left' (length_frameData epoch payload)]
  have htrailer : (frame epoch payload ++ rest).drop (headerSize + payload.length) =
      leBytes crcSize (crc32Ieee (frameData epoch payload)).toNat ++ rest := by
    rw [frame, List.append_assoc, List.drop_left' (length_frameData epoch payload)]
  have hheader : (frame epoch payload ++ rest).take headerSize =
      (frameData epoch payload).take headerSize := by
    rw [← hdata, List.take_take, Nat.min_eq_left (by omega)]
  have hpayload : ((frame epoch payload ++ rest).drop headerSize).take payload.length =
      payload := by
    have hdrop := congrArg (List.drop headerSize) hdata
    rwa [List.drop_take, Nat.add_sub_cancel_left, drop_frameData] at hdrop
  have hcrc : (crc32Ieee (frameData epoch payload)).toNat < 256 ^ crcSize :=
    (crc32Ieee (frameData epoch payload)).toNat_lt
  rw [(ShowsHeader.of_take hheader hfits).tryParseFrame_eq hfits, hdata, htrailer, hpayload,
    List.take_left' (length_leBytes _ _), leNat_leBytes hcrc,
    if_neg (by simp), if_neg (by simp)]

/-- A frame that lost its last bytes is rejected. -/
theorem tryParseFrame_torn {entry : WalEntry} (hfits : entry.Fits) {written : Nat}
    (hheader : headerSize ≤ written)
    (htorn : written < (frame entry.epoch entry.payload).length) :
    tryParseFrame ((frame entry.epoch entry.payload).take written) = none := by
  have hlen := length_frame entry.epoch entry.payload
  have htake : ((frame entry.epoch entry.payload).take written).take headerSize =
      (frameData entry.epoch entry.payload).take headerSize := by
    rw [List.take_take, Nat.min_eq_left hheader, frame, List.take_append_of_le_length]
    rw [length_frameData]
    omega
  rw [(ShowsHeader.of_take htake hfits).tryParseFrame_eq hfits, if_pos]
  rw [List.length_take, hlen]
  omega

/-- A buffer that shows a header starts with the data part of a frame. -/
theorem ShowsHeader.take_eq {buf : Bytes} {epoch : UInt64} {payloadLen : Nat}
    (h : ShowsHeader buf epoch payloadLen) (hlen : headerSize + payloadLen ≤ buf.length) :
    buf.take (headerSize + payloadLen) =
      frameData epoch ((buf.drop headerSize).take payloadLen) := by
  have hlen' : 18 + payloadLen ≤ buf.length := hlen
  have hfield (start count : Nat) (hle : start + count ≤ buf.length) :
      leBytes count (leNat ((buf.drop start).take count)) = (buf.drop start).take count := by
    have hcount : ((buf.drop start).take count).length = count := by
      rw [List.length_take, List.length_drop]
      omega
    have := leBytes_leNat ((buf.drop start).take count)
    rwa [hcount] at this
  have hversion := hfield 4 2 (by omega)
  have hepoch := hfield 6 8 (by omega)
  have hlength := hfield 14 4 (by omega)
  have hpayload : ((buf.drop headerSize).take payloadLen).length = payloadLen := by
    rw [List.length_take, List.length_drop]
    omega
  have hbound : leNat ((buf.drop 6).take 8) < 2 ^ 64 := by
    have := leNat_lt ((buf.drop 6).take 8)
    rw [List.length_take, List.length_drop, Nat.min_eq_left (by omega)] at this
    exact this
  have htoNat : epoch.toNat = leNat ((buf.drop 6).take 8) := by
    rw [← h.epoch, UInt64.toNat_ofNat', Nat.mod_eq_of_lt hbound]
  rw [h.version] at hversion
  rw [h.length] at hlength
  rw [frameData, hpayload, ← h.magic, hversion, htoNat, hepoch, hlength]
  -- the slices of the header in their order make up the first eighteen bytes
  have hsum : headerSize + payloadLen = 4 + (2 + (8 + (4 + payloadLen))) := by
    simp only [headerSize]
    omega
  rw [hsum]
  simp only [List.take_add, List.drop_drop]
  rfl

/-- Whatever is parsed stands in the buffer as a whole frame. -/
theorem tryParseFrame_sound {buf : Bytes} {entry : WalEntry} {size : Nat}
    (h : tryParseFrame buf = some (entry, size)) :
    entry.Fits ∧ size = (frame entry.epoch entry.payload).length ∧
      buf = frame entry.epoch entry.payload ++ buf.drop size := by
  simp only [tryParseFrame, ite_not, Option.ite_none_right_eq_some,
    Option.ite_none_left_eq_some, Option.some.injEq, Prod.mk.injEq, not_lt] at h
  obtain ⟨hmagic, hversion, hfits, hend, hcrc, rfl, rfl⟩ := h
  have hheader : ShowsHeader buf _ _ := ⟨hmagic, hversion, rfl, rfl⟩
  have hpayload : ((buf.drop headerSize).take (leNat ((buf.drop 14).take 4))).length =
      leNat ((buf.drop 14).take 4) := by
    rw [List.length_take, List.length_drop]
    omega
  have hdata := hheader.take_eq (by omega)
  refine ⟨?_, ?_, ?_⟩
  · show _ ≤ _
    rw [hpayload]
    exact hfits
  · rw [length_frame, hpayload]
  · have htrailer := leBytes_leNat
      ((buf.drop (headerSize + leNat ((buf.drop 14).take 4))).take crcSize)
    rw [hcrc, List.length_take, List.length_drop, Nat.min_eq_left (by omega), hdata] at htrailer
    rw [frame, htrailer, ← hdata, ← List.take_add, List.take_append_drop]

end Frames

section Parsing

/-- More rounds than bytes change nothing. -/
theorem parseFrames_fuel {fuel fuel' : Nat} {buf : Bytes} (h : buf.length ≤ fuel)
    (h' : buf.length ≤ fuel') : parseFrames fuel buf = parseFrames fuel' buf := by
  have hshort (f : Nat) (b : Bytes) (hb : b.length ≤ 0) : parseFrames f b = ([], 0) := by
    cases f with
    | zero => rfl
    | succ f =>
        rw [parseFrames, if_neg]
        simp only [minFrameSize, headerSize, crcSize]
        omega
  induction fuel generalizing fuel' buf with
  | zero => rw [hshort _ _ h, hshort _ _ h]
  | succ fuel ih =>
      cases fuel' with
      | zero => rw [hshort _ _ h', hshort _ _ h']
      | succ fuel' =>
          rw [parseFrames, parseFrames]
          split
          case isFalse => rfl
          case isTrue hmin =>
          split
          case h_2 => rfl
          case h_1 entry size hparse =>
              have hsize := (tryParseFrame_sound hparse).2.1
              rw [length_frame, crcSize] at hsize
              have hdrop : (buf.drop size).length ≤ fuel ∧ (buf.drop size).length ≤ fuel' := by
                rw [List.length_drop]
                omega
              rw [ih hdrop.1 hdrop.2]

/-- One round of the parser. -/
theorem parseWalFramesWithPos_eq (buf : Bytes) :
    parseWalFramesWithPos buf =
      if minFrameSize ≤ buf.length then
        match tryParseFrame buf with
        | some (entry, size) =>
            (entry :: (parseWalFramesWithPos (buf.drop size)).1,
              size + (parseWalFramesWithPos (buf.drop size)).2)
        | none => ([], 0)
      else ([], 0) := by
  have hfuel : parseWalFramesWithPos buf = parseFrames (buf.length + 1) buf :=
    parseFrames_fuel le_rfl (Nat.le_succ _)
  rw [hfuel, parseFrames]
  split
  case isFalse => rfl
  case isTrue hmin =>
  split
  case h_2 => rfl
  case h_1 entry size hparse =>
      have hrest : parseFrames buf.length (buf.drop size) =
          parseWalFramesWithPos (buf.drop size) :=
        parseFrames_fuel (by rw [List.length_drop]; omega) le_rfl
      rw [hrest]

/-- A frame at the front is parsed first. -/
theorem parseWalFramesWithPos_frame {entry : WalEntry} (hfits : entry.Fits) (rest : Bytes) :
    parseWalFramesWithPos (frame entry.epoch entry.payload ++ rest) =
      (entry :: (parseWalFramesWithPos rest).1,
        (frame entry.epoch entry.payload).length + (parseWalFramesWithPos rest).2) := by
  have hmin : minFrameSize ≤ (frame entry.epoch entry.payload ++ rest).length := by
    rw [List.length_append, length_frame, minFrameSize]
    omega
  rw [parseWalFramesWithPos_eq, if_pos hmin, tryParseFrame_frame hfits,
    ← length_frame entry.epoch]
  simp only [List.drop_left]

/-- Whole frames at the front are parsed first, whatever follows them. -/
theorem parseWalFramesWithPos_frames {entries : List WalEntry}
    (hfits : ∀ entry ∈ entries, entry.Fits) (rest : Bytes) :
    parseWalFramesWithPos (frames entries ++ rest) =
      (entries ++ (parseWalFramesWithPos rest).1,
        (frames entries).length + (parseWalFramesWithPos rest).2) := by
  induction entries with
  | nil => simp
  | cons entry entries ih =>
      have hentry := hfits entry List.mem_cons_self
      have hrest := ih fun e he => hfits e (List.mem_cons_of_mem _ he)
      rw [frames_cons, List.append_assoc, parseWalFramesWithPos_frame hentry, hrest,
        List.cons_append, List.length_append, Nat.add_assoc]

/-- A frame that lost its last bytes yields nothing. -/
theorem parseWalFramesWithPos_torn {entry : WalEntry} (hfits : entry.Fits) {written : Nat}
    (htorn : written < (frame entry.epoch entry.payload).length) :
    parseWalFramesWithPos ((frame entry.epoch entry.payload).take written) = ([], 0) := by
  rw [parseWalFramesWithPos_eq]
  split
  case isFalse => rfl
  case isTrue hmin =>
      have hheader : headerSize ≤ written := by
        rw [List.length_take, minFrameSize] at hmin
        omega
      rw [tryParseFrame_torn hfits hheader htorn]

/-- Whatever is parsed stands at the front of the buffer as a sequence of whole frames. -/
theorem parseWalFramesWithPos_sound (buf : Bytes) :
    (∀ entry ∈ (parseWalFramesWithPos buf).1, entry.Fits) ∧
      buf.take (parseWalFramesWithPos buf).2 = frames (parseWalFramesWithPos buf).1 := by
  have hloop (fuel : Nat) (b : Bytes) :
      (∀ entry ∈ (parseFrames fuel b).1, entry.Fits) ∧
        b.take (parseFrames fuel b).2 = frames (parseFrames fuel b).1 := by
    fun_induction parseFrames fuel b with
    | case1 => simp
    | case2 fuel b hmin entry size hparse rest ih =>
        obtain ⟨hfits, hsize, hbuf⟩ := tryParseFrame_sound hparse
        refine ⟨?_, ?_⟩
        · simp only [List.mem_cons, forall_eq_or_imp]
          exact ⟨hfits, ih.1⟩
        · have hfront : b.take size = frame entry.epoch entry.payload := by
            rw [hbuf, hsize, List.take_left]
          rw [List.take_add, ih.2, frames_cons, hfront]
    | case3 => simp
    | case4 => simp
  exact hloop _ _

/-- Bytes appended to a file take nothing from what is parsed. -/
theorem parseWalFramesWithPos_append (file bytes : Bytes) :
    ∃ more, (parseWalFramesWithPos (file ++ bytes)).1 =
      (parseWalFramesWithPos file).1 ++ more := by
  obtain ⟨hfits, htake⟩ := parseWalFramesWithPos_sound file
  have hfile : file ++ bytes = frames (parseWalFramesWithPos file).1 ++
      (file.drop (parseWalFramesWithPos file).2 ++ bytes) := by
    rw [← htake, ← List.append_assoc, List.take_append_drop]
  refine ⟨(parseWalFramesWithPos (file.drop (parseWalFramesWithPos file).2 ++ bytes)).1, ?_⟩
  rw [hfile, parseWalFramesWithPos_frames hfits]

/-- The file ends where a frame ends. -/
def EndsWithFrame (file : Bytes) : Prop :=
  (parseWalFramesWithPos file).2 = file.length

/-- A file that ends where a frame ends is a sequence of whole frames. -/
theorem EndsWithFrame.eq_frames {file : Bytes} (h : EndsWithFrame file) :
    file = frames (parseWalFramesWithPos file).1 := by
  have htake := (parseWalFramesWithPos_sound file).2
  rwa [h, List.take_length] at htake

/-- The end of a frame that is parsed lies in the file. -/
theorem parseWalFramesWithPos_le (buf : Bytes) : (parseWalFramesWithPos buf).2 ≤ buf.length := by
  have hloop (fuel : Nat) (b : Bytes) : (parseFrames fuel b).2 ≤ b.length := by
    fun_induction parseFrames fuel b with
    | case1 => exact Nat.zero_le _
    | case2 fuel b hmin entry size hparse rest ih =>
        obtain ⟨-, hsize, hbuf⟩ := tryParseFrame_sound hparse
        have hlength := congrArg List.length hbuf
        rw [List.length_append, ← hsize] at hlength
        have hrest : rest.2 ≤ (b.drop size).length := ih
        show size + rest.2 ≤ b.length
        omega
    | case3 => exact Nat.zero_le _
    | case4 => exact Nat.zero_le _
  exact hloop _ _

/-- Nothing is parsed of an empty file. -/
theorem parseWalFramesWithPos_nil : parseWalFramesWithPos [] = ([], 0) := rfl

/-- A sequence of whole frames is parsed back and ends where a frame ends. -/
theorem parseWalFramesWithPos_frames_eq {entries : List WalEntry}
    (hfits : ∀ entry ∈ entries, entry.Fits) :
    parseWalFramesWithPos (frames entries) = (entries, (frames entries).length) := by
  have h := parseWalFramesWithPos_frames hfits []
  rwa [parseWalFramesWithPos_nil, List.append_nil, List.append_nil, Nat.add_zero] at h

/-- A sequence of whole frames ends where a frame ends. -/
theorem endsWithFrame_frames {entries : List WalEntry}
    (hfits : ∀ entry ∈ entries, entry.Fits) : EndsWithFrame (frames entries) := by
  rw [EndsWithFrame, parseWalFramesWithPos_frames_eq hfits]

end Parsing

end Ferratomic
