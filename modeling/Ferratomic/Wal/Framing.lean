import Ferratomic.Wal.Recovery

/-!
# Framing of the write-ahead log

The operations on a log handle in any order, each with the outcomes of the disk. The main theorem,
`wal_framing`, says that a file of whole frames is parsed back, that a file that was cut anywhere is
recovered to the frames that lie inside the cut, that recovery is idempotent, and that the recovered
epochs increase after every run in which a frame is appended only to a settled handle: one that has
not left bytes of a failed write behind, and whose cursor no failed recovery has moved.
-/

namespace Ferratomic

open Lib

/-- An operation on a log handle. A reopening may follow a crash in which the end of the file was
lost: the file keeps its first `kept` bytes. -/
inductive WalOp where
  | append (outcome : WriteOutcome) (epoch : UInt64) (payload : Bytes)
  | fsync (outcome : Except String Unit)
  | recover (outcome : RecoverOutcome)
  | reopen (kept : Nat)

namespace WalOp

/-- The handle after an operation. -/
def apply (wal : Wal) : WalOp → Wal
  | append outcome epoch payload => (wal.appendRaw outcome epoch payload).2
  | fsync outcome => (wal.fsync outcome).2
  | recover outcome => (wal.recover outcome).2
  | reopen kept => Wal.openFile (wal.file.bytes.take kept)

/-- The handle after operations. -/
def run (wal : Wal) (ops : List WalOp) : Wal :=
  ops.foldl apply wal

/-- The operation appends under an epoch of at least one, if it appends. -/
def Positive : WalOp → Prop
  | append _ epoch _ => 1 ≤ epoch
  | _ => True

/-- Whether the handle is unsettled afterwards: bytes of a failed write are at the end of the file,
or the cursor is where opening the file or a failed reading of it has put it. A recovery settles the
handle when all its file operations succeed. -/
def unsettles (unsettled : Bool) : WalOp → Bool
  | append (.failed written _) _ _ => unsettled || decide (0 < written)
  | append .complete _ _ => unsettled
  | fsync _ => unsettled
  | recover ⟨.ok _, .complete, .ok _, .ok _, .ok _⟩ => false
  | recover ⟨.ok _, .failed _ _, _, _, _⟩ => true
  | recover _ => unsettled
  | reopen _ => true

/-- Frames are appended to settled handles only. -/
def AppendsSettled (unsettled : Bool) : List WalOp → Prop
  | [] => True
  | op :: rest =>
      (∀ outcome epoch payload, op = append outcome epoch payload → unsettled = false) ∧
        AppendsSettled (op.unsettles unsettled) rest

/-- A recovery that fails in another operation than the read leaves the handle as settled as it
was. -/
theorem unsettles_recover {outcome : RecoverOutcome} {unsettled : Bool}
    (h : ∃ message, outcome.seekStart = .error message ∨ outcome.setLen = .error message ∨
      outcome.syncAll = .error message ∨ outcome.seekEnd = .error message) :
    unsettled = true → (recover outcome).unsettles unsettled = true := by
  rintro rfl
  obtain ⟨message, h⟩ := h
  obtain ⟨seekStart, readToEnd, setLen, syncAll, seekEnd⟩ := outcome
  cases seekStart with
  | error _ => rfl
  | ok _ =>
  cases readToEnd with
  | failed _ _ => rfl
  | complete =>
  cases setLen with
  | error _ => rfl
  | ok _ =>
  cases syncAll with
  | error _ => rfl
  | ok _ =>
  cases seekEnd with
  | error _ => rfl
  | ok _ => simp at h

end WalOp

section Runs

/-- The epochs of entries increase, from one. -/
def Ascending (entries : List WalEntry) : Prop :=
  entries.Pairwise (fun a b => a.epoch < b.epoch) ∧ ∀ entry ∈ entries, 1 ≤ entry.epoch

/-- What holds of a handle: the frames in the file have increasing epochs; and a settled handle has
its cursor at the end of the last of them and knows its epoch. -/
structure Framed (wal : Wal) (unsettled : Bool) : Prop where
  ascending : Ascending (parseWalFramesWithPos wal.file.bytes).1
  settled : unsettled = false → wal.file.AtEnd ∧ EndsWithFrame wal.file.bytes ∧
    ∀ entry ∈ (parseWalFramesWithPos wal.file.bytes).1, entry.epoch ≤ wal.pendingEpoch

/-- An entry with a greater epoch goes behind ascending ones. -/
theorem Ascending.append {entries : List WalEntry} (h : Ascending entries) {last : WalEntry}
    (hlast : ∀ entry ∈ entries, entry.epoch < last.epoch) (hpos : 1 ≤ last.epoch) :
    Ascending (entries ++ [last]) := by
  refine ⟨List.pairwise_append.mpr ⟨h.1, List.pairwise_singleton _ _, ?_⟩, ?_⟩
  · intro entry hentry other hother
    rw [List.mem_singleton.mp hother]
    exact hlast entry hentry
  · exact List.forall_mem_append.mpr ⟨h.2, List.forall_mem_singleton.mpr hpos⟩

/-- The front of ascending entries is ascending. -/
theorem Ascending.of_append {entries more : List WalEntry} (h : Ascending (entries ++ more)) :
    Ascending entries :=
  ⟨(List.pairwise_append.mp h.1).1, fun entry hentry => h.2 entry (List.mem_append_left _ hentry)⟩

/-- The file that a recovery leaves is parsed to the same entries. -/
theorem parse_recovered (wal : Wal) :
    parseWalFramesWithPos wal.recovered.2.file.bytes =
      ((parseWalFramesWithPos wal.file.bytes).1, wal.recovered.2.file.bytes.length) := by
  rw [bytes_recovered_eq_frames, parseWalFramesWithPos_frames_eq (fits_recovered wal)]
  rfl

/-- The epoch that recovery takes over is that of the last entry, the greatest. -/
theorem le_pendingEpoch_recovered {wal : Wal}
    (h : Ascending (parseWalFramesWithPos wal.file.bytes).1) :
    ∀ entry ∈ (parseWalFramesWithPos wal.file.bytes).1,
      entry.epoch ≤ wal.recovered.2.pendingEpoch := by
  intro entry hentry
  show entry.epoch ≤
    ((parseWalFramesWithPos wal.file.bytes).1.getLast?.map WalEntry.epoch).getD wal.lastSyncedEpoch
  obtain ⟨earlier, last, hsplit⟩ := List.eq_nil_or_concat'
    (parseWalFramesWithPos wal.file.bytes).1 |>.resolve_left (List.ne_nil_of_mem hentry)
  rw [hsplit] at h hentry ⊢
  rw [List.getLast?_concat]
  rcases List.mem_append.mp hentry with hearlier | hlast
  · exact ((List.pairwise_append.mp h.1).2.2 entry hearlier last List.mem_cons_self).le
  · rw [List.mem_singleton.mp hlast]
    exact le_refl _

/-- A recovery that succeeds settles the handle. -/
theorem framed_recovered {wal : Wal} (h : Ascending (parseWalFramesWithPos wal.file.bytes).1)
    (unsettled : Bool) : Framed wal.recovered.2 unsettled := by
  have hparse := parse_recovered wal
  refine ⟨?_, fun _ => ⟨rfl, ?_, ?_⟩⟩
  · rw [hparse]
    exact h
  · rw [EndsWithFrame, hparse]
  · rw [hparse]
    exact le_pendingEpoch_recovered h

/-- What any recovery leaves: only one that fails in reading the file unsettles the handle. -/
theorem Framed.recover {wal : Wal} {unsettled : Bool} (h : Framed wal unsettled)
    (outcome : RecoverOutcome) :
    Framed (wal.recover outcome).2 ((WalOp.recover outcome).unsettles unsettled) := by
  have hrecovered := framed_recovered h.ascending
  -- a handle that has garbage behind its frames is unsettled already
  have hgarbage (hnot : ¬EndsWithFrame wal.file.bytes) : unsettled = true :=
    Bool.eq_true_of_not_eq_false fun hsettled => hnot (h.settled hsettled).2.1
  rcases hrun : wal.recover outcome with ⟨result, after⟩
  have hcase := wal.recover_cases outcome
  rw [hrun] at hcase
  cases hcase with
  | done => exact hrecovered _
  | unsought message hfailed =>
      have hflag : (WalOp.recover outcome).unsettles unsettled = unsettled := by
        obtain ⟨seekStart, readToEnd, setLen, syncAll, seekEnd⟩ := outcome
        obtain rfl : seekStart = .error message := hfailed
        rfl
      rw [hflag]
      exact h
  | unread read message hseek hfailed =>
      have hflag : (WalOp.recover outcome).unsettles unsettled = true := by
        obtain ⟨seekStart, readToEnd, setLen, syncAll, seekEnd⟩ := outcome
        obtain rfl : seekStart = .ok () := hseek
        obtain rfl : readToEnd = .failed read message := hfailed
        rfl
      rw [hflag]
      exact ⟨h.ascending, fun hsettled => by cases hsettled⟩
  | uncut message hnot hfailed =>
      have hflag := WalOp.unsettles_recover ⟨message, .inr (.inl hfailed)⟩ (hgarbage hnot)
      rw [hflag]
      exact ⟨h.ascending, fun hsettled => by cases hsettled⟩
  | unsynced message hnot hfailed =>
      have hflag := WalOp.unsettles_recover ⟨message, .inr (.inr (.inl hfailed))⟩ (hgarbage hnot)
      rw [hflag]
      exact ⟨(hrecovered true).ascending, fun hsettled => by cases hsettled⟩
  | unended message hfailed =>
      refine ⟨(hrecovered true).ascending, fun hsettled => ?_⟩
      have hbefore : unsettled = false := by
        refine Bool.eq_false_of_not_eq_true fun hunsettled => ?_
        rw [WalOp.unsettles_recover ⟨message, .inr (.inr (.inr hfailed))⟩ hunsettled] at hsettled
        cases hsettled
      obtain ⟨-, hboundary, -⟩ := h.settled hbefore
      obtain ⟨-, hends, hpending⟩ := (hrecovered false).settled rfl
      refine ⟨?_, hends, hpending⟩
      -- nothing was cut off, so the cursor is where the reading has left it
      show wal.file.bytes.length = wal.recovered.2.file.bytes.length
      rw [Wal.bytes_recovered, hboundary, List.take_length]

/-- A frame behind whole frames is parsed behind them. -/
theorem parse_append_frame {bytes : Bytes} (h : EndsWithFrame bytes) {entry : WalEntry}
    (hfits : entry.Fits) :
    parseWalFramesWithPos (bytes ++ frame entry.epoch entry.payload) =
      ((parseWalFramesWithPos bytes).1 ++ [entry],
        (bytes ++ frame entry.epoch entry.payload).length) := by
  have hframes : bytes ++ frame entry.epoch entry.payload =
      frames ((parseWalFramesWithPos bytes).1 ++ [entry]) := by
    rw [frames_append, ← h.eq_frames]
    simp
  rw [hframes]
  exact parseWalFramesWithPos_frames_eq (List.forall_mem_append.mpr
    ⟨(parseWalFramesWithPos_sound bytes).1, List.forall_mem_singleton.mpr hfits⟩)

/-- A part of a frame behind whole frames is not parsed. -/
theorem parse_append_torn {bytes : Bytes} (h : EndsWithFrame bytes) {entry : WalEntry}
    (hfits : entry.Fits) {written : Nat}
    (htorn : written < (frame entry.epoch entry.payload).length) :
    (parseWalFramesWithPos (bytes ++ (frame entry.epoch entry.payload).take written)).1 =
      (parseWalFramesWithPos bytes).1 := by
  have hparse := parseWalFramesWithPos_frames (parseWalFramesWithPos_sound bytes).1
    ((frame entry.epoch entry.payload).take written)
  rw [← h.eq_frames, parseWalFramesWithPos_torn hfits htorn, List.append_nil] at hparse
  rw [hparse]

/-- An epoch that passes the check of an append is above those in the file: a handle without a
pending epoch has no entries, since their epochs are positive. -/
theorem Framed.lt_epoch {wal : Wal} (h : Framed wal false) {epoch : UInt64}
    (hepoch : ¬(epoch ≤ wal.pendingEpoch ∧ 0 < wal.pendingEpoch)) :
    ∀ entry ∈ (parseWalFramesWithPos wal.file.bytes).1, entry.epoch < epoch := by
  intro entry hentry
  have hle := (h.settled rfl).2.2 entry hentry
  have hone := h.ascending.2 entry hentry
  rw [UInt64.lt_iff_toNat_lt]
  rw [UInt64.le_iff_toNat_le] at hle hone
  rw [not_and_or, UInt64.le_iff_toNat_le, UInt64.lt_iff_toNat_lt] at hepoch
  have hzero : (0 : UInt64).toNat = 0 := rfl
  have hone' : (1 : UInt64).toNat = 1 := rfl
  omega

/-- What an append leaves in the file of a settled handle. -/
theorem Framed.append {wal : Wal} (h : Framed wal false) {epoch : UInt64} (hpos : 1 ≤ epoch)
    (outcome : WriteOutcome) (payload : Bytes) :
    Framed (wal.appendRaw outcome epoch payload).2
      ((WalOp.append outcome epoch payload).unsettles false) := by
  obtain ⟨hend, hboundary, hpending⟩ := h.settled rfl
  have hrejected : Framed wal ((WalOp.append outcome epoch payload).unsettles false) :=
    ⟨h.ascending, fun _ => ⟨hend, hboundary, hpending⟩⟩
  unfold Wal.appendRaw Wal.writeFrame
  split
  case isTrue => exact hrejected
  case isFalse hepoch =>
  split
  case isTrue => exact hrejected
  case isFalse hsize =>
  split
  case isTrue => exact hrejected
  case isFalse =>
  have hfits : WalEntry.Fits ⟨epoch, payload⟩ := Nat.le_of_not_lt hsize
  have hlast := h.lt_epoch hepoch
  have hwhole := parse_append_frame hboundary hfits
  cases outcome with
  | complete =>
      show Framed { wal with file := wal.file.write (frame epoch payload), pendingEpoch := _ } _
      rw [File.write_of_atEnd hend]
      refine ⟨?_, fun _ => ⟨(List.length_append ..).symm, ?_, ?_⟩⟩
      · rw [hwhole]
        exact h.ascending.append hlast hpos
      · rw [EndsWithFrame, hwhole]
      · rw [hwhole]
        refine List.forall_mem_append.mpr ⟨fun entry hentry => ?_, List.forall_mem_singleton.mpr ?_⟩
        · exact (hpending entry hentry).trans (le_max_left _ _)
        · exact le_max_right _ _
  | failed written message =>
      show Framed { wal with file := wal.file.write ((frame epoch payload).take written) } _
      by_cases hnone : written = 0
      · subst hnone
        exact hrejected
      · rw [File.write_of_atEnd hend]
        refine ⟨?_, fun htorn => ?_⟩
        · show Ascending
            (parseWalFramesWithPos (wal.file.bytes ++ (frame epoch payload).take written)).1
          by_cases htorn : written < (frame epoch payload).length
          · rw [@parse_append_torn _ hboundary ⟨epoch, payload⟩ hfits _ htorn]
            exact h.ascending
          · rw [List.take_of_length_le (Nat.le_of_not_lt htorn), hwhole]
            exact h.ascending.append hlast hpos
        · exact absurd (decide_eq_false_iff_not.mp htorn) (by omega)

/-- One operation, which appends to a settled handle if it appends. -/
theorem Framed.apply {wal : Wal} {unsettled : Bool} (h : Framed wal unsettled) {op : WalOp}
    (hpos : op.Positive)
    (hsettled : ∀ outcome epoch payload, op = .append outcome epoch payload →
      unsettled = false) :
    Framed (op.apply wal) (op.unsettles unsettled) := by
  cases op with
  | append outcome epoch payload =>
      obtain rfl := hsettled outcome epoch payload rfl
      exact h.append hpos outcome payload
  | fsync outcome =>
      cases outcome with
      | error message => exact h
      | ok result => exact ⟨h.ascending, h.settled⟩
  | recover outcome => exact h.recover outcome
  | reopen kept =>
      refine ⟨?_, fun hopened => by cases hopened⟩
      obtain ⟨more, hmore⟩ :=
        parseWalFramesWithPos_append (wal.file.bytes.take kept) (wal.file.bytes.drop kept)
      rw [List.take_append_drop] at hmore
      have hascending := h.ascending
      rw [hmore] at hascending
      exact hascending.of_append

/-- A run that appends to settled handles only. -/
theorem Framed.run {wal : Wal} {unsettled : Bool} (h : Framed wal unsettled) {ops : List WalOp}
    (hpos : ∀ op ∈ ops, op.Positive) (hsettled : WalOp.AppendsSettled unsettled ops) :
    ∃ unsettled, Framed (WalOp.run wal ops) unsettled := by
  induction ops generalizing wal unsettled with
  | nil => exact ⟨unsettled, h⟩
  | cons op rest ih =>
      obtain ⟨hop, hrest⟩ := List.forall_mem_cons.mp hpos
      exact ih (h.apply hop hsettled.1) hrest hsettled.2

/-- A created log is empty and settled. -/
theorem framed_create : Framed Wal.create false :=
  ⟨⟨List.Pairwise.nil, fun _ hentry => absurd hentry List.not_mem_nil⟩,
    fun _ => ⟨rfl, rfl, fun _ hentry => absurd hentry List.not_mem_nil⟩⟩

/-- Frames are parsed back; a cut is recovered to what lies inside it; a recovery whose file
operations succeed returns, recovering again changes nothing, and no other outcome of the disk makes
a recovery return anything else; and the recovered epochs increase in every state of a run from an
empty log that appends to settled handles only. -/
theorem wal_framing (ops : List WalOp) :
    (∀ entries : List WalEntry, (∀ entry ∈ entries, entry.payload.length ≤ maxPayloadSize) →
      parseWalFramesWithPos (frames entries) = (entries, (frames entries).length) ∧
      ∀ (n : Nat) (wal : Wal), wal.file.bytes = (frames entries).take n → ∃ k ≤ entries.length,
        (∀ i ≤ entries.length, (frames (entries.take i)).length ≤ n ↔ i ≤ k) ∧
        ∃ after, wal.recover .complete = (.ok (entries.take k), after) ∧
          after.file.bytes = frames (entries.take k)) ∧
    (∀ wal : Wal, ∃ entries after, wal.recover .complete = (.ok entries, after) ∧
      after.recover .complete = (.ok entries, after) ∧
      ∀ outcome others last, wal.recover outcome = (.ok others, last) →
        others = entries ∧ last = after) ∧
    ((∀ op ∈ ops, op.Positive) → WalOp.AppendsSettled false ops → ∀ outcome entries after,
      (WalOp.run .create ops).recover outcome = (.ok entries, after) →
        entries.Pairwise fun a b => a.epoch < b.epoch) := by
  refine ⟨fun entries hfits => ⟨parseWalFramesWithPos_frames_eq hfits, ?_⟩, fun wal => ?_, ?_⟩
  · intro n wal hfile
    obtain ⟨k, hk, hcount, hentries, hbytes⟩ := recovered_take hfits hfile
    refine ⟨k, hk, hcount, wal.recovered.2, ?_, hbytes⟩
    rw [Wal.recover_complete, hentries]
  · refine ⟨wal.recovered.1, wal.recovered.2, wal.recover_complete, ?_, ?_⟩
    · rw [Wal.recover_complete, recovered_recovered]
    · exact fun outcome others last hrecover => Wal.recover_ok hrecover
  · intro hpos hsettled outcome entries after hrecover
    obtain ⟨unsettled, hframed⟩ := framed_create.run hpos hsettled
    rw [(Wal.recover_ok hrecover).1]
    exact hframed.ascending.1

end Runs

section Sample

/-- A write that fails is recovered from before the next append, by the second recovery: the first
one cannot cut the file. -/
def recoveredOps : List WalOp :=
  [.append .complete 1 [], .append (.failed 5 "disk full") 2 [],
    .recover ⟨.ok (), .complete, .error "input/output error", .ok (), .ok ()⟩,
    .recover .complete, .append .complete 2 [7], .fsync (.ok ()), .reopen 100, .recover .complete]

/-- The recovered epochs increase after a run with a failed write and a failed recovery. -/
theorem wal_framing_recovered :
    parseWalFramesWithPos (frames [⟨1, []⟩]) = ([⟨1, []⟩], (frames [⟨1, []⟩]).length) ∧
      ∀ outcome entries after,
        (WalOp.run .create recoveredOps).recover outcome = (.ok entries, after) →
          entries.Pairwise fun a b => a.epoch < b.epoch := by
  refine ⟨((wal_framing recoveredOps).1 [⟨1, []⟩] (by decide)).1,
    (wal_framing recoveredOps).2.2 ?_ ?_⟩
  · simp [recoveredOps, WalOp.Positive]
  · simp [recoveredOps, WalOp.AppendsSettled, WalOp.unsettles, RecoverOutcome.complete]

/-- The header of a frame of epoch 2 with 26 payload bytes. -/
def innerHeader : Bytes :=
  walMagic ++ (leBytes 2 walVersion ++ (leBytes 8 2 ++ leBytes 4 26))

/-- A payload that completes a torn frame of epoch 9 around that header and goes on with a frame of
epoch 3. -/
def craftedPayload : Bytes :=
  leBytes crcSize (crc32Ieee (frameData 9 innerHeader)).toNat ++ frame 3 []

/-- The write of epoch 9 stops after its header, and the next append goes behind it. -/
def tornOps : List WalOp :=
  [.append .complete 1 [], .append (.failed headerSize "disk full") 9 innerHeader,
    .append .complete 2 craftedPayload]

/-- The recovery fails before it has read a byte, and the next append overwrites the first frame. -/
def unreadOps : List WalOp :=
  [.append .complete 1 [], .append .complete 2 [],
    .recover ⟨.ok (), .failed 0 "input/output error", .ok (), .ok (), .ok ()⟩,
    .append .complete 3 []]

/-- The crafted payload has the length that the inner header announces. -/
theorem length_craftedPayload : craftedPayload.length = 26 := by
  rw [craftedPayload, List.length_append, length_leBytes, length_frame]
  rfl

/-- A torn frame behind which its payload and checksum are written again is whole. -/
theorem take_frame_append (epoch : UInt64) (payload rest : Bytes) :
    (frame epoch payload).take headerSize ++ (payload ++
      (leBytes crcSize (crc32Ieee (frameData epoch payload)).toNat ++ rest)) =
      frame epoch payload ++ rest := by
  have hsplit := List.take_append_drop headerSize (frameData epoch payload)
  rw [drop_frameData] at hsplit
  have htake : (frame epoch payload).take headerSize =
      (frameData epoch payload).take headerSize := by
    rw [frame, List.take_append_of_le_length]
    rw [length_frameData]
    omega
  rw [htake, frame, ← List.append_assoc, hsplit, List.append_assoc]

/-- An append that passes the checks. -/
theorem appendRaw_of_accepted {wal : Wal} {epoch : UInt64} {payload : Bytes}
    (hepoch : ¬ (epoch ≤ wal.pendingEpoch ∧ 0 < wal.pendingEpoch))
    (hsize : payload.length ≤ maxPayloadSize) :
    (wal.appendRaw .complete epoch payload).2 = { wal with
        file := wal.file.write (frame epoch payload)
        pendingEpoch := max wal.pendingEpoch epoch } ∧
      ∀ written message, (wal.appendRaw (.failed written message) epoch payload).2 =
        { wal with file := wal.file.write ((frame epoch payload).take written) } := by
  have hlimit : ¬ 2 ^ 32 ≤ payload.length := by
    simp only [maxPayloadSize] at hsize
    omega
  unfold Wal.appendRaw Wal.writeFrame
  rw [if_neg hepoch, if_neg (Nat.not_lt.mpr hsize), if_neg hlimit]
  refine ⟨rfl, fun written message => ?_⟩
  rw [if_neg hepoch, if_neg (Nat.not_lt.mpr hsize), if_neg hlimit]

/-- An append that passes the checks, at the end of a file. -/
theorem appendRaw_atEnd {bytes : Bytes} {synced pending epoch : UInt64} {payload : Bytes}
    (hepoch : ¬ (epoch ≤ pending ∧ 0 < pending)) (hsize : payload.length ≤ maxPayloadSize) :
    (Wal.appendRaw ⟨⟨bytes, bytes.length⟩, synced, pending⟩ .complete epoch payload).2 =
        ⟨⟨bytes ++ frame epoch payload, (bytes ++ frame epoch payload).length⟩, synced,
          max pending epoch⟩ ∧
      ∀ written message, (Wal.appendRaw ⟨⟨bytes, bytes.length⟩, synced, pending⟩
          (.failed written message) epoch payload).2 =
        ⟨⟨bytes ++ (frame epoch payload).take written,
          (bytes ++ (frame epoch payload).take written).length⟩, synced, pending⟩ := by
  obtain ⟨hcomplete, hfailed⟩ :=
    @appendRaw_of_accepted ⟨⟨bytes, bytes.length⟩, synced, pending⟩ epoch payload hepoch hsize
  have hwrite (data : Bytes) : File.write ⟨bytes, bytes.length⟩ data =
      ⟨bytes ++ data, (bytes ++ data).length⟩ := by
    rw [@File.write_of_atEnd ⟨bytes, bytes.length⟩ rfl data, List.length_append]
  refine ⟨?_, fun written message => ?_⟩
  · rw [hcomplete, hwrite]
  · rw [hfailed, hwrite]

/-- The file of the torn run. -/
theorem file_run_tornOps : (WalOp.run .create tornOps).file.bytes =
    frame 1 [] ++ (frame 9 innerHeader).take headerSize ++ frame 2 craftedPayload := by
  have hcrafted : craftedPayload.length ≤ maxPayloadSize := by
    rw [length_craftedPayload]
    decide
  have hfirst : (Wal.create.appendRaw .complete 1 []).2 =
      ⟨⟨frame 1 [], (frame 1 []).length⟩, 0, 1⟩ :=
    (@appendRaw_atEnd [] 0 0 1 [] (by decide) (by decide)).1
  have hsecond := (@appendRaw_atEnd (frame 1 []) 0 1 9 innerHeader (by decide) (by decide)).2
    headerSize "disk full"
  have hthird := (@appendRaw_atEnd (frame 1 [] ++ (frame 9 innerHeader).take headerSize) 0 1
    2 craftedPayload (by decide) hcrafted).1
  rw [WalOp.run, tornOps, List.foldl_cons, List.foldl_cons, List.foldl_cons, List.foldl_nil,
    WalOp.apply, WalOp.apply, WalOp.apply, hfirst, hsecond, hthird]

/-- The bytes of the torn frame and of the next one are three frames in another division. -/
theorem file_tornOps : (WalOp.run .create tornOps).file.bytes =
    frames [⟨1, []⟩, ⟨9, innerHeader⟩, ⟨3, []⟩] ++
      leBytes crcSize (crc32Ieee (frameData 2 craftedPayload)).toNat := by
  have hdata : frameData 2 craftedPayload = innerHeader ++ craftedPayload := by
    rw [frameData, length_craftedPayload, innerHeader]
    simp only [List.append_assoc]
    rfl
  have hnext : frame 2 craftedPayload = innerHeader ++ (craftedPayload ++
      leBytes crcSize (crc32Ieee (frameData 2 craftedPayload)).toNat) := by
    rw [frame, hdata, List.append_assoc]
  have hinner := take_frame_append 9 innerHeader
    (frame 3 [] ++ leBytes crcSize (crc32Ieee (frameData 2 craftedPayload)).toNat)
  rw [← List.append_assoc (leBytes crcSize _), ← craftedPayload, ← hnext] at hinner
  rw [file_run_tornOps, List.append_assoc, hinner]
  simp only [frames_cons, frames_nil, List.append_nil, List.append_assoc]

/-- The file of the run whose recovery could not read. -/
theorem file_unreadOps :
    (WalOp.run .create unreadOps).file.bytes = frames [⟨3, []⟩, ⟨2, []⟩] := by
  have hfirst : (Wal.create.appendRaw .complete 1 []).2 =
      ⟨⟨frame 1 [], (frame 1 []).length⟩, 0, 1⟩ :=
    (@appendRaw_atEnd [] 0 0 1 [] (by decide) (by decide)).1
  have hsecond := (@appendRaw_atEnd (frame 1 []) 0 1 2 [] (by decide) (by decide)).1
  have hthird := (@appendRaw_of_accepted ⟨⟨frame 1 [] ++ frame 2 [], 0⟩, 0, 2⟩ 3 [] (by decide)
    (by decide)).1
  have hsize : (frame 3 []).length = (frame 1 []).length := by
    rw [length_frame, length_frame]
  have hne : (frame 3 []).isEmpty = false := rfl
  rw [WalOp.run, unreadOps, List.foldl_cons, List.foldl_cons, List.foldl_cons, List.foldl_cons,
    List.foldl_nil, WalOp.apply, WalOp.apply, WalOp.apply, WalOp.apply, hfirst, hsecond]
  show (Wal.appendRaw ⟨⟨frame 1 [] ++ frame 2 [], 0⟩, 0, 2⟩ .complete 3 []).2.file.bytes = _
  rw [hthird]
  show (File.write ⟨frame 1 [] ++ frame 2 [], 0⟩ (frame 3 [])).bytes = _
  rw [File.write, hne]
  show [] ++ List.replicate (0 - _) 0 ++ frame 3 [] ++
    (frame 1 [] ++ frame 2 []).drop (0 + (frame 3 []).length) = _
  rw [Nat.zero_sub, Nat.zero_add, hsize, List.drop_left]
  simp only [frames_cons, frames_nil, List.append_nil, List.replicate_zero, List.nil_append]

/-- Entries under the epochs 1, 9 and 3 are recovered of which only the first was appended; and
entries under the epochs 3 and 2 after a recovery that could not read the file. -/
theorem recovered_epochs_decrease :
    ((∀ op ∈ tornOps, op.Positive) ∧
      ∃ entries after, (WalOp.run .create tornOps).recover .complete = (.ok entries, after) ∧
        entries.map WalEntry.epoch = [1, 9, 3] ∧
        ¬ entries.Pairwise fun a b => a.epoch < b.epoch) ∧
    (∀ op ∈ unreadOps, op.Positive) ∧
      ∃ entries after, (WalOp.run .create unreadOps).recover .complete = (.ok entries, after) ∧
        entries.map WalEntry.epoch = [3, 2] ∧
        ¬ entries.Pairwise fun a b => a.epoch < b.epoch := by
  have hdecrease {entries : List WalEntry} {epochs : List UInt64}
      (hepochs : entries.map WalEntry.epoch = epochs) (hnot : ¬ epochs.Pairwise (· < ·)) :
      ¬ entries.Pairwise fun a b => a.epoch < b.epoch := fun hascending => by
    rw [← hepochs] at hnot
    exact hnot (List.pairwise_map.mpr hascending)
  have hshort : parseWalFramesWithPos
      (leBytes crcSize (crc32Ieee (frameData 2 craftedPayload)).toNat) = ([], 0) := by
    rw [parseWalFramesWithPos_eq, length_leBytes, if_neg (by decide)]
  have hfits : ∀ entry ∈ ([⟨1, []⟩, ⟨9, innerHeader⟩, ⟨3, []⟩] : List WalEntry), entry.Fits := by
    simp [WalEntry.Fits, innerHeader, walMagic, maxPayloadSize]
  have hparse := parseWalFramesWithPos_frames hfits
    (leBytes crcSize (crc32Ieee (frameData 2 craftedPayload)).toNat)
  rw [hshort, ← file_tornOps, List.append_nil] at hparse
  have htorn : (WalOp.run .create tornOps).recovered.1.map WalEntry.epoch = [1, 9, 3] := by
    rw [Wal.recovered, hparse]
    rfl
  have hfits' : ∀ entry ∈ ([⟨3, []⟩, ⟨2, []⟩] : List WalEntry), entry.Fits := by
    simp [WalEntry.Fits, maxPayloadSize]
  have hunread : (WalOp.run .create unreadOps).recovered.1.map WalEntry.epoch = [3, 2] := by
    rw [Wal.recovered, file_unreadOps, parseWalFramesWithPos_frames_eq hfits']
    rfl
  refine ⟨⟨by simp [tornOps, WalOp.Positive], _, _, Wal.recover_complete _, htorn, ?_⟩,
    by simp [unreadOps, WalOp.Positive], _, _, Wal.recover_complete _, hunread, ?_⟩
  · exact hdecrease htorn (by decide)
  · exact hdecrease hunread (by decide)

end Sample

end Ferratomic
