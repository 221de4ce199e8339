import Ferratomic.Wal

/-!
# Recovery of the write-ahead log

`Recovery` lists what a recovery may do, one case for each file operation that fails and one for
the recovery that succeeds, whose result is `Wal.recovered`. A file that was cut anywhere is
recovered to the frames that lie inside the cut (`recovered_take`), and recovering again changes
nothing (`recovered_recovered`). The handles that a database holds come from `create`, or from
`open` and a recovery that succeeded, so their cursor is at the end of the file: `Log` is such a
handle, and the theorems `toWal_appendRaw`, `toWal_fsync` and `toWal_recover` say that its
operations are those of `Wal`.
-/

namespace Ferratomic

open Lib

namespace Wal

/-- What a recovery returns that succeeds, and the handle that it leaves. -/
def recovered (wal : Wal) : List WalEntry × Wal :=
  let (entries, lastValidPos) := parseWalFramesWithPos wal.file.bytes
  let synced := (entries.getLast?.map WalEntry.epoch).getD wal.lastSyncedEpoch
  let bytes := wal.file.bytes.take lastValidPos
  (entries, ⟨⟨bytes, bytes.length⟩, synced, synced⟩)

/-- What a recovery does: a file operation fails, or all that are reached succeed. -/
inductive Recovery (wal : Wal) (outcome : RecoverOutcome) :
    Except FerraError (List WalEntry) → Wal → Prop
  | unsought (message : String) : outcome.seekStart = .error message →
      Recovery wal outcome (.error (.walRead message)) wal
  | unread (read : Nat) (message : String) : outcome.seekStart = .ok () →
      outcome.readToEnd = .failed read message →
      Recovery wal outcome (.error (.walRead message))
        { wal with file := (wal.file.seekStart 0).readUpTo read }
  | uncut (message : String) : ¬EndsWithFrame wal.file.bytes → outcome.setLen = .error message →
      Recovery wal outcome (.error (.walWrite message))
        ⟨wal.file.seekEnd, wal.recovered.2.lastSyncedEpoch, wal.pendingEpoch⟩
  | unsynced (message : String) : ¬EndsWithFrame wal.file.bytes →
      outcome.syncAll = .error message →
      Recovery wal outcome (.error (.walWrite message))
        ⟨⟨wal.recovered.2.file.bytes, wal.file.bytes.length⟩, wal.recovered.2.lastSyncedEpoch,
          wal.pendingEpoch⟩
  | unended (message : String) : outcome.seekEnd = .error message →
      Recovery wal outcome (.error (.walWrite message))
        { wal.recovered.2 with file := ⟨wal.recovered.2.file.bytes, wal.file.bytes.length⟩ }
  | done : Recovery wal outcome (.ok wal.recovered.1) wal.recovered.2

/-- The file keeps its bytes up to the end of the last valid frame. -/
theorem bytes_recovered (wal : Wal) :
    wal.recovered.2.file.bytes = wal.file.bytes.take (parseWalFramesWithPos wal.file.bytes).2 :=
  rfl

/-- What cutting off the garbage does: it fails, or it leaves the valid frames. -/
theorem recovery_cutGarbage (wal : Wal) (outcome : RecoverOutcome) {epoch : UInt64}
    (hepoch : epoch = wal.recovered.2.lastSyncedEpoch)
    {result : Except FerraError Unit} {after : Wal}
    (h : cutGarbage ⟨wal.file.seekEnd, epoch, wal.pendingEpoch⟩ outcome
      (parseWalFramesWithPos wal.file.bytes).2 wal.file.bytes.length = (result, after)) :
    (∃ e, result = .error e ∧ Recovery wal outcome (.error e) after) ∨
      (result = .ok () ∧ after = ⟨⟨wal.recovered.2.file.bytes, wal.file.bytes.length⟩,
        wal.recovered.2.lastSyncedEpoch, wal.pendingEpoch⟩) := by
  have hle := parseWalFramesWithPos_le wal.file.bytes
  subst hepoch
  unfold cutGarbage at h
  split at h
  case isTrue hgarbage =>
      have hnot : ¬EndsWithFrame wal.file.bytes := hgarbage.ne
      have hcut : (wal.file.seekEnd.setLen (parseWalFramesWithPos wal.file.bytes).2) =
          ⟨wal.recovered.2.file.bytes, wal.file.bytes.length⟩ :=
        File.ext (@File.bytes_setLen wal.file.seekEnd _ hle) rfl
      cases hset : outcome.setLen with
      | error message =>
          simp only [hset] at h
          cases h
          exact .inl ⟨_, rfl, .uncut message hnot hset⟩
      | ok _ =>
          simp only [hset, hcut] at h
          cases hsync : outcome.syncAll with
          | error message =>
              simp only [hsync] at h
              cases h
              exact .inl ⟨_, rfl, .unsynced message hnot hsync⟩
          | ok _ =>
              simp only [hsync] at h
              cases h
              exact .inr ⟨rfl, rfl⟩
  case isFalse hclean =>
      cases h
      have hwhole : wal.recovered.2.file.bytes = wal.file.bytes := by
        rw [bytes_recovered, le_antisymm hle (Nat.le_of_not_lt hclean), List.take_length]
      refine .inr ⟨rfl, ?_⟩
      rw [hwhole]
      rfl

/-- Every recovery is one of these. -/
theorem recover_cases (wal : Wal) (outcome : RecoverOutcome) :
    Recovery wal outcome (wal.recover outcome).1 (wal.recover outcome).2 := by
  unfold recover
  cases hseek : outcome.seekStart with
  | error message => exact .unsought message hseek
  | ok _ =>
      cases hread : outcome.readToEnd with
      | failed read message => exact .unread read message hseek hread
      | complete =>
          simp only [File.readToEnd_seekStart, recoverRead]
          rcases hcut : cutGarbage ⟨wal.file.seekEnd, wal.recovered.2.lastSyncedEpoch,
            wal.pendingEpoch⟩ outcome (parseWalFramesWithPos wal.file.bytes).2
            wal.file.bytes.length with ⟨result, after⟩
          have hcases := recovery_cutGarbage wal outcome rfl hcut
          simp only [recovered] at hcut
          simp only [hcut]
          rcases hcases with ⟨e, rfl, hfailed⟩ | ⟨rfl, rfl⟩
          · exact hfailed
          · cases hend : outcome.seekEnd with
            | error message => exact .unended message hend
            | ok _ => exact .done

/-- A recovery that succeeds has read all valid frames. -/
theorem recover_ok {wal after : Wal} {outcome : RecoverOutcome} {entries : List WalEntry}
    (h : wal.recover outcome = (.ok entries, after)) :
    entries = wal.recovered.1 ∧ after = wal.recovered.2 := by
  have hcases := wal.recover_cases outcome
  rw [h] at hcases
  cases hcases
  exact ⟨rfl, rfl⟩

/-- A recovery succeeds whose file operations do. -/
theorem recover_complete (wal : Wal) :
    wal.recover .complete = (.ok wal.recovered.1, wal.recovered.2) := by
  have hcases := wal.recover_cases .complete
  have hok {result : Except FerraError (List WalEntry)} {after : Wal}
      (h : Recovery wal .complete result after) :
      (result, after) = (.ok wal.recovered.1, wal.recovered.2) := by
    cases h with
    | done => rfl
    | unsought message hfailed => cases hfailed
    | unread read message hseek hfailed => cases hfailed
    | uncut message hnot hfailed => cases hfailed
    | unsynced message hnot hfailed => cases hfailed
    | unended message hfailed => cases hfailed
  exact hok hcases

end Wal

section Cuts

/-- A cut of a sequence of frames is parsed to the frames that lie inside it. -/
theorem parseWalFramesWithPos_take {entries : List WalEntry} (hfits : ∀ entry ∈ entries, entry.Fits)
    (n : Nat) :
    ∃ k ≤ entries.length,
      (∀ i ≤ entries.length, (frames (entries.take i)).length ≤ n ↔ i ≤ k) ∧
      parseWalFramesWithPos ((frames entries).take n) =
        (entries.take k, (frames (entries.take k)).length) ∧
      ((frames entries).take n).take (frames (entries.take k)).length =
        frames (entries.take k) := by
  induction entries generalizing n with
  | nil =>
      refine ⟨0, le_refl _, fun i hi => ?_, ?_, rfl⟩
      · rw [Nat.le_zero.mp hi]
        simp
      · rw [frames_nil, List.take_nil]
        rfl
  | cons entry rest ih =>
      obtain ⟨hentry, hrest⟩ := List.forall_mem_cons.mp hfits
      by_cases hinside : (frame entry.epoch entry.payload).length ≤ n
      · -- the first frame lies inside, and the rest is cut further on
        obtain ⟨k, hk, hcount, hparse, htake⟩ :=
          ih hrest (n - (frame entry.epoch entry.payload).length)
        have hcut : (frames (entry :: rest)).take n = frame entry.epoch entry.payload ++
            (frames rest).take (n - (frame entry.epoch entry.payload).length) := by
          rw [frames_cons, List.take_append, List.take_of_length_le hinside]
        refine ⟨k + 1, Nat.succ_le_succ hk, fun i hi => ?_, ?_, ?_⟩
        · cases i with
          | zero => simp
          | succ i =>
              have hi' := hcount i (Nat.succ_le_succ_iff.mp hi)
              rw [List.take_succ_cons, frames_cons, List.length_append]
              omega
        · rw [hcut, parseWalFramesWithPos_frame hentry, hparse, List.take_succ_cons, frames_cons,
            List.length_append]
        · rw [hcut, List.take_succ_cons, frames_cons, List.length_append, List.take_append,
            List.take_of_length_le (by omega), Nat.add_sub_cancel_left, htake]
      · -- the first frame is torn
        have htorn : n < (frame entry.epoch entry.payload).length := Nat.lt_of_not_le hinside
        have hcut : (frames (entry :: rest)).take n = (frame entry.epoch entry.payload).take n := by
          rw [frames_cons, List.take_append_of_le_length htorn.le]
        refine ⟨0, Nat.zero_le _, fun i hi => ?_, ?_, rfl⟩
        · cases i with
          | zero => simp
          | succ i =>
              rw [List.take_succ_cons, frames_cons, List.length_append]
              omega
        · rw [hcut, parseWalFramesWithPos_torn hentry htorn]
          rfl

/-- Recovery of a cut file returns the entries whose frames lie inside the cut and cuts the file
after the last of them. -/
theorem recovered_take {entries : List WalEntry} (hfits : ∀ entry ∈ entries, entry.Fits)
    {wal : Wal} {n : Nat} (hfile : wal.file.bytes = (frames entries).take n) :
    ∃ k ≤ entries.length,
      (∀ i ≤ entries.length, (frames (entries.take i)).length ≤ n ↔ i ≤ k) ∧
      wal.recovered.1 = entries.take k ∧
        wal.recovered.2.file.bytes = frames (entries.take k) := by
  obtain ⟨k, hk, hcount, hparse, htake⟩ := parseWalFramesWithPos_take hfits n
  refine ⟨k, hk, hcount, ?_, ?_⟩
  · rw [Wal.recovered, hfile, hparse]
  · rw [Wal.recovered, hfile, hparse]
    exact htake

/-- The file that a recovery leaves is made of the frames that it has read. -/
theorem bytes_recovered_eq_frames (wal : Wal) :
    wal.recovered.2.file.bytes = frames wal.recovered.1 :=
  (parseWalFramesWithPos_sound wal.file.bytes).2

/-- The recovered entries have payloads within the limit. -/
theorem fits_recovered (wal : Wal) : ∀ entry ∈ wal.recovered.1, entry.Fits :=
  (parseWalFramesWithPos_sound wal.file.bytes).1

/-- Recovering again changes nothing. -/
theorem recovered_recovered (wal : Wal) : wal.recovered.2.recovered = wal.recovered := by
  have hparse : parseWalFramesWithPos wal.recovered.2.file.bytes =
      (wal.recovered.1, wal.recovered.2.file.bytes.length) := by
    rw [bytes_recovered_eq_frames, parseWalFramesWithPos_frames_eq (fits_recovered wal)]
  have hsynced : (wal.recovered.1.getLast?.map WalEntry.epoch).getD
      wal.recovered.2.lastSyncedEpoch = wal.recovered.2.lastSyncedEpoch := by
    show ((parseWalFramesWithPos wal.file.bytes).1.getLast?.map WalEntry.epoch).getD
      (((parseWalFramesWithPos wal.file.bytes).1.getLast?.map WalEntry.epoch).getD _) =
        ((parseWalFramesWithPos wal.file.bytes).1.getLast?.map WalEntry.epoch).getD _
    cases (parseWalFramesWithPos wal.file.bytes).1.getLast? with
    | none => rfl
    | some last => rfl
  rw [Wal.recovered, hparse]
  simp only [List.take_length, hsynced]
  rfl

end Cuts

/-- A log whose cursor is at the end of its file. -/
structure Log where
  file : Bytes
  lastSyncedEpoch : UInt64
  pendingEpoch : UInt64

namespace Log

/-- The handle of the log. -/
def toWal (log : Log) : Wal :=
  ⟨⟨log.file, log.file.length⟩, log.lastSyncedEpoch, log.pendingEpoch⟩

/-- The log of a handle. -/
def ofWal (wal : Wal) : Log :=
  ⟨wal.file.bytes, wal.lastSyncedEpoch, wal.pendingEpoch⟩

/-- `create` -/
def create : Log :=
  ofWal Wal.create

/-- `append_raw` -/
def appendRaw (log : Log) (outcome : WriteOutcome) (epoch : UInt64) (payload : Bytes) :
    Except FerraError Unit × Log :=
  let appended := log.toWal.appendRaw outcome epoch payload
  (appended.1, ofWal appended.2)

/-- `fsync` -/
def fsync (log : Log) (outcome : Except String Unit) : Except FerraError Unit × Log :=
  let synced := log.toWal.fsync outcome
  (synced.1, ofWal synced.2)

/-- `open` followed by a `recover` whose file operations succeed. -/
def recover (file : Bytes) : List WalEntry × Log :=
  let recovered := (Wal.openFile file).recovered
  (recovered.1, ofWal recovered.2)

/-- A created log stands at the end of its file. -/
theorem toWal_create : create.toWal = Wal.create :=
  rfl

/-- An append: the checks, and then the bytes that reach the end of the file. -/
theorem appendRaw_eq (log : Log) (outcome : WriteOutcome) (epoch : UInt64) (payload : Bytes) :
    log.appendRaw outcome epoch payload =
      if epoch ≤ log.pendingEpoch ∧ 0 < log.pendingEpoch then
        (.error (.invariantViolation "INV-FERR-007"
          s!"WAL epoch monotonicity violated: epoch {epoch} <= pending {log.pendingEpoch}"), log)
      else if maxPayloadSize < payload.length then
        (.error (.walWrite
          s!"payload too large: {payload.length} bytes exceeds 256 MiB limit"), log)
      else if 2 ^ 32 ≤ payload.length then
        (.error (.walWrite s!"payload too large: {payload.length} bytes exceeds u32::MAX"), log)
      else
        match outcome with
        | .failed written message =>
            (.error (.walWrite message),
              { log with file := log.file ++ (frame epoch payload).take written })
        | .complete =>
            (.ok (), { log with
              file := log.file ++ frame epoch payload
              pendingEpoch := max log.pendingEpoch epoch }) := by
  have hend : log.toWal.file.AtEnd := rfl
  have hpending : log.toWal.pendingEpoch = log.pendingEpoch := rfl
  simp only [appendRaw, Wal.appendRaw, Wal.writeFrame, File.write_of_atEnd hend, hpending]
  by_cases hepoch : epoch ≤ log.pendingEpoch ∧ 0 < log.pendingEpoch
  · simp only [if_pos hepoch]
    rfl
  · by_cases hlarge : maxPayloadSize < payload.length
    · simp only [if_neg hepoch, if_pos hlarge]
      rfl
    · by_cases hu32 : 2 ^ 32 ≤ payload.length
      · simp only [if_neg hepoch, if_neg hlarge, if_pos hu32]
        rfl
      · simp only [if_neg hepoch, if_neg hlarge, if_neg hu32]
        cases outcome with
        | complete => rfl
        | failed written message => rfl

/-- A sync: the epochs written so far count as synced. -/
theorem fsync_eq (log : Log) (outcome : Except String Unit) :
    log.fsync outcome =
      match outcome with
      | .error message => (.error (.walWrite message), log)
      | .ok () =>
          (.ok (), { log with lastSyncedEpoch := max log.lastSyncedEpoch log.pendingEpoch }) := by
  cases outcome with
  | error message => rfl
  | ok _ => rfl

/-- After an append, the handle is at the end of its file again. -/
theorem toWal_appendRaw (log : Log) (outcome : WriteOutcome) (epoch : UInt64) (payload : Bytes) :
    log.toWal.appendRaw outcome epoch payload =
      ((log.appendRaw outcome epoch payload).1, (log.appendRaw outcome epoch payload).2.toWal) := by
  have hend : log.toWal.file.AtEnd := rfl
  have htoWal {wal : Wal} (h : wal.file.AtEnd) : (ofWal wal).toWal = wal := by
    obtain ⟨⟨bytes, cursor⟩, synced, pending⟩ := wal
    obtain rfl : cursor = bytes.length := h
    rfl
  refine Prod.ext rfl (htoWal ?_).symm
  unfold Wal.appendRaw Wal.writeFrame
  split
  case isTrue => exact hend
  case isFalse =>
  split
  case isTrue => exact hend
  case isFalse =>
  split
  case isTrue => exact hend
  case isFalse =>
      cases outcome with
      | complete => exact File.atEnd_write hend _
      | failed written message => exact File.atEnd_write hend _

/-- A sync leaves the file and its cursor. -/
theorem toWal_fsync (log : Log) (outcome : Except String Unit) :
    log.toWal.fsync outcome = ((log.fsync outcome).1, (log.fsync outcome).2.toWal) := by
  cases outcome with
  | error message => rfl
  | ok _ => rfl

/-- Opening a file and recovering it gives a handle at the end of the file. -/
theorem toWal_recover (file : Bytes) :
    (Wal.openFile file).recover .complete =
      (.ok (Log.recover file).1, (Log.recover file).2.toWal) :=
  Wal.recover_complete _

/-- A recovery that fails gives no log. -/
theorem recover_of_ok {file : Bytes} {outcome : RecoverOutcome} {entries : List WalEntry}
    {wal : Wal} (h : (Wal.openFile file).recover outcome = (.ok entries, wal)) :
    Log.recover file = (entries, ofWal wal) ∧ (ofWal wal).toWal = wal := by
  obtain ⟨rfl, rfl⟩ := Wal.recover_ok h
  exact ⟨rfl, rfl⟩

/-- The file ends where a frame ends. -/
def AtBoundary (log : Log) : Prop :=
  EndsWithFrame log.file

/-- A log of whole frames ends where a frame ends. -/
theorem atBoundary_of_file_eq {log : Log} {entries : List WalEntry}
    (h : log.file = frames entries) (hfits : ∀ entry ∈ entries, entry.Fits) :
    log.AtBoundary := by
  rw [AtBoundary, h]
  exact endsWithFrame_frames hfits

/-- A log that ends where a frame ends is a sequence of whole frames. -/
theorem AtBoundary.file_eq {log : Log} (h : log.AtBoundary) :
    log.file = frames (parseWalFramesWithPos log.file).1 :=
  h.eq_frames

/-- Recovery of a cut log file. -/
theorem recover_take {entries : List WalEntry} (hfits : ∀ entry ∈ entries, entry.Fits)
    {file : Bytes} {n : Nat} (hfile : file = (frames entries).take n) :
    ∃ k ≤ entries.length,
      (∀ i ≤ entries.length, (frames (entries.take i)).length ≤ n ↔ i ≤ k) ∧
      (Log.recover file).1 = entries.take k ∧
        (Log.recover file).2.file = frames (entries.take k) :=
  @recovered_take entries hfits (Wal.openFile file) n hfile

end Log

end Ferratomic
