import Ferratomic.Blake3
import Ferratomic.Bincode
import Ferratomic.Db.Recover

/-!
# Durability under failing writes

What a database keeps of its acknowledged transactions when the disk fails. A failing write may
leave any part of a frame in the file, and the writer neither removes it nor starts a new file,
so whether a later entry can be recovered depends on whether the file ended at a frame boundary
when it was written. `acked_recovered` is the durability theorem for the runs in which every
call that the disk completes starts at a frame boundary, and `torn_write_loses_commit` is a run
that loses an acknowledged transaction because one does not.
-/

namespace Ferratomic

open Lib

/-- The disk completes the first writes of a call and their syncs. -/
def Env.Works (env : Env) (count : Nat) : Prop :=
  ∀ i < count, env.write i = .complete ∧ env.sync i = .ok ()

section Recovered

/-- The entries that recovering the log file returns. -/
def recoveredEntries (wal : Log) : List WalEntry :=
  (Log.recover wal.file).1

/-- Every recoverable entry fits a frame. -/
theorem fits_recoveredEntries (wal : Log) : ∀ entry ∈ recoveredEntries wal, entry.Fits :=
  (parseWalFramesWithPos_sound wal.file).1

/-- Bytes added to the file take nothing from what recovery returns. -/
theorem recoveredEntries_grows {wal wal' : Log} {bytes : Bytes}
    (hfile : wal'.file = wal.file ++ bytes) :
    ∃ more, recoveredEntries wal' = recoveredEntries wal ++ more := by
  obtain ⟨more, hmore⟩ := parseWalFramesWithPos_append wal.file bytes
  refine ⟨more, ?_⟩
  show (parseWalFramesWithPos wal'.file).1 = (parseWalFramesWithPos wal.file).1 ++ more
  rw [hfile, hmore]

/-- Bytes after a frame boundary are parsed on their own. -/
theorem recoveredEntries_of_atBoundary {wal wal' : Log} (hboundary : wal.AtBoundary)
    {bytes : Bytes} (hfile : wal'.file = wal.file ++ bytes) :
    recoveredEntries wal' = recoveredEntries wal ++ (parseWalFramesWithPos bytes).1 := by
  have hfits := (parseWalFramesWithPos_sound wal.file).1
  show (parseWalFramesWithPos wal'.file).1 = (parseWalFramesWithPos wal.file).1 ++ _
  rw [hfile]
  nth_rewrite 1 [hboundary.file_eq]
  rw [parseWalFramesWithPos_frames hfits]

/-- Whole frames after a frame boundary are recovered, and end at one. -/
theorem recoveredEntries_frames {wal wal' : Log} (hboundary : wal.AtBoundary)
    {entries : List WalEntry} (hfits : ∀ entry ∈ entries, entry.Fits)
    (hfile : wal'.file = wal.file ++ frames entries) :
    recoveredEntries wal' = recoveredEntries wal ++ entries ∧ wal'.AtBoundary := by
  have hentries : recoveredEntries wal' = recoveredEntries wal ++ entries := by
    rw [recoveredEntries_of_atBoundary hboundary hfile, parseWalFramesWithPos_frames_eq hfits]
  refine ⟨hentries, Log.atBoundary_of_file_eq ?_ (fits_recoveredEntries wal')⟩
  have hbefore : wal.file = frames (recoveredEntries wal) := hboundary.file_eq
  rw [hfile, hentries, frames_append, ← hbefore]

end Recovered

section Runs

variable [Bincode]

/-- Every receipt is logged by an entry. -/
theorem exists_logs {receipts : List TxReceipt} {entries : List WalEntry}
    (h : List.Forall₂ Database.Logs receipts entries) {receipt : TxReceipt}
    (hreceipt : receipt ∈ receipts) : ∃ entry ∈ entries, Database.Logs receipt entry := by
  induction h with
  | nil => exact absurd hreceipt List.not_mem_nil
  | cons hlogs _ ih =>
      rcases List.mem_cons.mp hreceipt with rfl | hreceipt
      · exact ⟨_, List.mem_cons_self, hlogs⟩
      · obtain ⟨entry, hentry, hlogs⟩ := ih hreceipt
        exact ⟨entry, List.mem_cons_of_mem _ hentry, hlogs⟩

/-- A receipt has an entry among those that recovery returns. -/
def Recovered (wal : Log) (receipt : TxReceipt) : Prop :=
  ∃ entry ∈ recoveredEntries wal, Database.Logs receipt entry

/-- What is recoverable stays so when the file grows. -/
theorem Recovered.grows {wal wal' : Log} {receipt : TxReceipt} {bytes : Bytes}
    (h : Recovered wal receipt) (hfile : wal'.file = wal.file ++ bytes) :
    Recovered wal' receipt := by
  obtain ⟨entry, hentry, hlogs⟩ := h
  obtain ⟨more, hmore⟩ := recoveredEntries_grows hfile
  refine ⟨entry, ?_, hlogs⟩
  rw [hmore]
  exact List.mem_append_left _ hentry

namespace Database

/-- Writing an entry only adds bytes to the file. -/
theorem WriteCase.file_eq {wal wal' : Log} {write : WriteOutcome} {sync : Except String Unit}
    {receipt : TxReceipt} {result : Except FerraError Unit}
    (h : WriteCase wal write sync receipt result wal') :
    ∃ bytes, wal'.file = wal.file ++ bytes := by
  cases h with
  | refused => exact ⟨[], (List.append_nil _).symm⟩
  | torn => exact ⟨_, rfl⟩
  | unsynced => exact ⟨_, rfl⟩
  | done => exact ⟨_, rfl⟩

/-- The entry of a receipt is within the size limit of the log. -/
def Fitting (receipt : TxReceipt) : Prop :=
  ∃ entry, Logs receipt entry ∧ entry.Fits

instance (receipt : TxReceipt) : Decidable (Fitting receipt) :=
  match hserialize : Bincode.datoms.serialize receipt.datoms with
  | .error _ => isFalse fun ⟨_, hlogs, _⟩ => nomatch hserialize.symm.trans hlogs.2
  | .ok payload =>
      if hfits : payload.length ≤ maxPayloadSize then
        isTrue ⟨⟨receipt.epoch, payload⟩, ⟨rfl, hserialize⟩, hfits⟩
      else
        isFalse fun ⟨_, hlogs, hentry⟩ => hfits
          (Except.ok.inj (hserialize.symm.trans hlogs.2) ▸ hentry)

/-- What a loop that wrote every entry did: the disk completed every write, and the file now
ends with the frames of the receipts. -/
structure Wrote (env : Env) (index : Nat) (receipts : List TxReceipt) (wal wal' : Log)
    (entries : List WalEntry) : Prop where
  works : ∀ i < receipts.length, env.write (index + i) = .complete ∧
    env.sync (index + i) = .ok ()
  logs : List.Forall₂ Logs receipts entries
  fits : ∀ entry ∈ entries, entry.Fits
  file : wal'.file = wal.file ++ frames entries
  pending : wal'.pendingEpoch = receipts.foldl (fun e r => max e r.epoch) wal.pendingEpoch

/-- Where the log was written every operation on it worked. -/
theorem Wrote.envWorks {env : Env} {receipts : List TxReceipt} {wal wal' : Log}
    {entries : List WalEntry} (h : Wrote env 0 receipts wal wal' entries) :
    env.Works receipts.length := by
  intro i hi
  have hworks := h.works i hi
  rwa [Nat.zero_add] at hworks

variable [Blake3]

/-- Writing entries only adds bytes to the file. -/
theorem writeWalAll_grows (db : Database) {wal : Log} (hwal : db.wal = some wal) (env : Env)
    (index : Nat) (receipts : List TxReceipt) :
    ∃ result wal' bytes,
      db.writeWalAll env index receipts = (result, { db with wal := some wal' }) ∧
      wal'.file = wal.file ++ bytes := by
  induction receipts generalizing db wal index with
  | nil =>
      refine ⟨.ok (), wal, [], ?_, (List.append_nil _).symm⟩
      rw [writeWalAll, ← hwal]
  | cons receipt rest ih =>
      obtain ⟨result, wal₁, hwrite, hcase⟩ :=
        writeWal_cases hwal (env.write index) (env.sync index) receipt
      obtain ⟨bytes₁, hfile₁⟩ := hcase.file_eq
      rw [writeWalAll, hwrite]
      cases result with
      | error e => exact ⟨.error e, wal₁, bytes₁, rfl, hfile₁⟩
      | ok _ =>
          obtain ⟨result, wal₂, bytes₂, hrest, hfile₂⟩ :=
            ih { db with wal := some wal₁ } rfl (index + 1)
          refine ⟨result, wal₂, bytes₁ ++ bytes₂, hrest, ?_⟩
          rw [hfile₂, hfile₁, List.append_assoc]

/-- A log written without an error has an entry for each receipt. -/
theorem writeWalAll_ok {db : Database} {wal : Log} (hwal : db.wal = some wal) {env : Env}
    {index : Nat} {receipts : List TxReceipt} {db' : Database}
    (h : db.writeWalAll env index receipts = (.ok (), db')) :
    ∃ wal' entries, db' = { db with wal := some wal' } ∧
      Wrote env index receipts wal wal' entries := by
  induction receipts generalizing db wal index with
  | nil =>
      cases h
      refine ⟨wal, [], ?_, ?_, .nil, ?_, ?_, rfl⟩
      · rw [← hwal]
      · intro i hi
        exact absurd hi (Nat.not_lt_zero i)
      · intro entry hentry
        exact absurd hentry List.not_mem_nil
      · rw [frames_nil, List.append_nil]
  | cons receipt rest ih =>
      obtain ⟨result, wal₁, hwrite, hcase⟩ :=
        writeWal_cases hwal (env.write index) (env.sync index) receipt
      rw [writeWalAll, hwrite] at h
      -- only a write that was synced lets the loop go on
      cases hcase with
      | refused => cases h
      | torn => cases h
      | unsynced => cases h
      | done entry synced hlogs hfits hcomplete hsync =>
          obtain ⟨wal', entries, hdb', hrest⟩ := ih rfl h
          refine ⟨wal', entry :: entries, hdb', ?_, .cons hlogs hrest.logs, ?_, ?_, ?_⟩
          · intro i hi
            cases i with
            | zero => exact ⟨hcomplete, hsync⟩
            | succ i =>
                have hlater := hrest.works i (Nat.lt_of_succ_lt_succ hi)
                rwa [Nat.add_assoc, Nat.add_comm 1 i] at hlater
          · exact List.forall_mem_cons.mpr ⟨hfits, hrest.fits⟩
          · rw [hrest.file, frames_cons, List.append_assoc]
          · rw [hrest.pending, List.foldl_cons, hlogs.1]

/-- A working disk accepts entries with new epochs that are within the size limit. -/
theorem writeWalAll_accepts {epoch epoch' : UInt64} {schema schema' : Schema}
    {receipts : List TxReceipt} (hstamps : Stamps epoch schema receipts epoch' schema')
    (db : Database) {wal : Log} (hwal : db.wal = some wal) (hpending : wal.pendingEpoch = epoch)
    {env : Env} (index : Nat)
    (hworks : ∀ i < receipts.length, env.write (index + i) = .complete ∧
      env.sync (index + i) = .ok ())
    (hfitting : ∀ receipt ∈ receipts, Fitting receipt) :
    (db.writeWalAll env index receipts).1 = .ok () := by
  induction hstamps generalizing db wal index with
  | nil => rfl
  | cons order hnext _ _ ih =>
      obtain ⟨⟨entry, hlogs, hfits⟩, hfitting⟩ := List.forall_mem_cons.mp hfitting
      have hlt := lt_of_checkedSucc hnext
      obtain ⟨hwrite, hsync⟩ := hworks 0 (Nat.succ_pos _)
      rw [Nat.add_zero] at hwrite hsync
      have hepoch := hlt
      rw [← hpending] at hepoch
      rw [writeWalAll, hwrite, hsync, writeWal_complete hwal hlogs hfits hepoch]
      refine ih _ rfl ?_ (index + 1) ?_ hfitting
      · show max wal.pendingEpoch entry.epoch = _
        rw [hpending, hlogs.1, max_eq_right hlt.le]
      · intro i hi
        have hlater := hworks (i + 1) (Nat.succ_lt_succ hi)
        rwa [Nat.add_comm i 1, ← Nat.add_assoc] at hlater

/-- A working disk accepts every call on a log whose pending epoch is the published one. -/
theorem step_accepts {db : Database} {wal : Log} (hwal : db.wal = some wal)
    (hpending : wal.pendingEpoch = db.current.epoch) {call : Call} {env : Env} {staged : Staged}
    {clock : HybridClock} (hstage : db.stage env call = (.ok staged, clock))
    (hworks : env.Works staged.receipts.length)
    (hfitting : ∀ receipt ∈ staged.receipts, Fitting receipt) :
    (db.step call env).1 = .ok staged.receipts := by
  obtain ⟨epoch, schema, hstamps, -⟩ := (stage_ok hstage).commits
  have haccepted := writeWalAll_accepts hstamps { db with clock := clock } hwal hpending 0
    (fun i hi => by rw [Nat.zero_add]; exact hworks i hi) hfitting
  rw [step_eq, hstage]
  simp only [commitStaged]
  rcases hwrite : ({ db with clock := clock } : Database).writeWalAll env 0 staged.receipts
    with ⟨e | _, db'⟩
  · rw [hwrite] at haccepted
    cases haccepted
  · rfl

/-- The receipts of the calls that succeeded. -/
def acked (results : List (Except FerraError (List TxReceipt))) : List TxReceipt :=
  results.flatMap fun
    | .ok receipts => receipts
    | .error _ => []

/-- Every call whose entries the disk writes whole starts with a log file that ends at a frame
boundary. -/
def CleanWrites (db : Database) : List (Call × Env) → Prop
  | [] => True
  | (call, env) :: rest =>
      (∀ staged clock wal, db.stage env call = (.ok staged, clock) → db.wal = some wal →
        env.Works staged.receipts.length → wal.AtBoundary) ∧
      (db.step call env).2.CleanWrites rest

/-- What a successful call did: it staged its transactions, wrote all their entries and published
the staged store. -/
theorem step_ok {db : Database} {wal : Log} (hwal : db.wal = some wal) {call : Call} {env : Env}
    {receipts : List TxReceipt} (hok : (db.step call env).1 = .ok receipts) :
    ∃ staged clock wal' entries, db.stage env call = (.ok staged, clock) ∧
      receipts = staged.receipts ∧ Wrote env 0 receipts wal wal' entries ∧
      (db.step call env).2 = ⟨staged.store, some wal', clock, staged.frontier⟩ := by
  rw [step_eq] at hok ⊢
  rcases hstage : db.stage env call with ⟨e | staged, clock⟩
  · rw [hstage] at hok
    cases hok
  · have hwal' : ({ db with clock := clock } : Database).wal = some wal := hwal
    rw [hstage] at hok
    simp only [commitStaged] at hok ⊢
    rcases hwrite : ({ db with clock := clock } : Database).writeWalAll env 0 staged.receipts
      with ⟨e | _, db'⟩
    · rw [hwrite] at hok
      cases hok
    · rw [hwrite] at hok
      cases hok
      obtain ⟨wal', entries, rfl, hwrote⟩ := writeWalAll_ok hwal' hwrite
      exact ⟨staged, clock, wal', entries, rfl, rfl, hwrote, rfl⟩

/-- A call only adds bytes to the file. -/
theorem step_grows {db : Database} {wal : Log} (hwal : db.wal = some wal) (call : Call)
    (env : Env) :
    ∃ wal' bytes, (db.step call env).2.wal = some wal' ∧ wal'.file = wal.file ++ bytes := by
  rw [step_eq]
  rcases db.stage env call with ⟨e | staged, clock⟩
  · exact ⟨wal, [], hwal, (List.append_nil _).symm⟩
  · obtain ⟨result, wal', bytes, hwrite, hfile⟩ :=
      writeWalAll_grows { db with clock := clock } hwal env 0 staged.receipts
    refine ⟨wal', bytes, ?_, hfile⟩
    simp only [commitStaged, hwrite]
    cases result <;> rfl

/-- Calls only add bytes to the file. -/
theorem run_grows {db : Database} {wal : Log} (hwal : db.wal = some wal)
    (calls : List (Call × Env)) :
    ∃ wal' bytes, (db.run calls).2.wal = some wal' ∧ wal'.file = wal.file ++ bytes := by
  induction calls generalizing db wal with
  | nil => exact ⟨wal, [], hwal, (List.append_nil _).symm⟩
  | cons head rest ih =>
      obtain ⟨wal₁, bytes₁, hwal₁, hfile₁⟩ := step_grows hwal head.1 head.2
      obtain ⟨wal₂, bytes₂, hwal₂, hfile₂⟩ := ih hwal₁
      refine ⟨wal₂, bytes₁ ++ bytes₂, hwal₂, ?_⟩
      rw [hfile₂, hfile₁, List.append_assoc]

/-- The receipts of a call that starts at a frame boundary are recovered right after it. -/
theorem step_recovered {db : Database} {wal wal' : Log} (hwal : db.wal = some wal) {call : Call}
    {env : Env} (hwal' : (db.step call env).2.wal = some wal') {receipts : List TxReceipt}
    (hok : (db.step call env).1 = .ok receipts)
    (hclean : ∀ staged clock wal, db.stage env call = (.ok staged, clock) → db.wal = some wal →
      env.Works staged.receipts.length → wal.AtBoundary) :
    ∀ receipt ∈ receipts, Recovered wal' receipt := by
  obtain ⟨staged, clock, wal'', entries, hstage, rfl, hwrote, hdb⟩ := step_ok hwal hok
  obtain rfl : wal' = wal'' := by
    rw [hdb] at hwal'
    exact (Option.some.inj hwal').symm
  have hboundary := hclean staged clock wal hstage hwal hwrote.envWorks
  have hentries := (recoveredEntries_frames hboundary hwrote.fits hwrote.file).1
  intro receipt hreceipt
  obtain ⟨entry, hentry, hlogs⟩ := exists_logs hwrote.logs hreceipt
  refine ⟨entry, ?_, hlogs⟩
  rw [hentries]
  exact List.mem_append_right _ hentry

/-- Durability: in a run in which every call whose entries the disk writes whole starts at a
frame boundary, whatever fails in between, every acknowledged transaction is recovered. -/
theorem acked_recovered {db : Database} {wal : Log} (hwal : db.wal = some wal)
    (calls : List (Call × Env)) (hclean : db.CleanWrites calls) :
    ∃ wal', (db.run calls).2.wal = some wal' ∧
      ∀ receipt ∈ acked (db.run calls).1, Recovered wal' receipt := by
  induction calls generalizing db wal with
  | nil => exact ⟨wal, hwal, fun receipt h => absurd h List.not_mem_nil⟩
  | cons head rest ih =>
      obtain ⟨call, env⟩ := head
      obtain ⟨hfirst, hrest⟩ := hclean
      obtain ⟨wal₁, -, hwal₁, -⟩ := step_grows hwal call env
      obtain ⟨wal₂, hwal₂, hlater⟩ := ih hwal₁ hrest
      obtain ⟨wal₂', bytes, hsame, hfile⟩ := run_grows hwal₁ rest
      obtain rfl : wal₂ = wal₂' := Option.some.inj (hwal₂.symm.trans hsame)
      refine ⟨wal₂, hwal₂, ?_⟩
      intro receipt hreceipt
      rcases List.mem_append.mp hreceipt with hnow | hthen
      · cases hresult : (db.step call env).1 with
        | error e =>
            rw [hresult] at hnow
            exact absurd hnow List.not_mem_nil
        | ok receipts =>
            rw [hresult] at hnow
            exact (step_recovered hwal hwal₁ hresult hfirst receipt hnow).grows hfile
      · exact hlater receipt hthen

end Database

end Runs

namespace Sample

/-- A transaction that asserts a documentation text. -/
def document : Transaction :=
  ⟨NodeId.zero, [⟨EntityId.fromContent [1], "db/doc", .string "x", ⟨0, 0, NodeId.zero⟩, .assert⟩]⟩

/-- The document transaction has short attributes. -/
theorem shortAttrs_document : ShortAttrs document.datoms := by
  intro d hd
  rw [List.mem_singleton.mp hd]
  show (utf8Bytes "db/doc").length ≤ maxAttributeBytes
  decide +kernel

/-- An environment with one clock reading, one outcome of all writes and one of all syncs. -/
def envAt (now : UInt64) (write : WriteOutcome) (sync : Except String Unit) : Env :=
  ⟨fun _ _ => now, fun _ => .arrival, fun _ => write, fun _ => sync⟩

/-- The disk is full after some bytes of the first transaction and has room for the second. -/
def fullDisk (written : Nat) : List (Call × Env) :=
  [(.transact document, envAt 1 (.failed written "disk full") (.ok ())),
    (.transact document, envAt 2 .complete (.ok ()))]

end Sample

open Sample

namespace Database

/-- A failed write that leaves nothing in the file does no harm to the next transaction. -/
theorem acked_recovered_fullDisk :
    genesisWithWal.CleanWrites (fullDisk 0) ∧
      ∃ wal, (genesisWithWal.run (fullDisk 0)).2.wal = some wal ∧
        ∀ receipt ∈ acked (genesisWithWal.run (fullDisk 0)).1, Recovered wal receipt := by
  have hempty {db : Database} (h : db.wal.map Log.file = some []) {wal : Log}
      (hwal : db.wal = some wal) : wal.AtBoundary := by
    rw [hwal] at h
    have hfile : wal.file = frames [] := Option.some.inj h
    exact Log.atBoundary_of_file_eq hfile fun entry hentry => absurd hentry List.not_mem_nil
  have hclean : genesisWithWal.CleanWrites (fullDisk 0) := by
    refine ⟨fun _ _ wal _ hwal _ => hempty rfl hwal,
      fun _ _ wal _ hwal _ => hempty ?_ hwal, trivial⟩
    decide +kernel
  exact ⟨hclean, acked_recovered rfl (fullDisk 0) hclean⟩

/-- A single byte of a failed write hides the next transaction, which was acknowledged, from
recovery. -/
theorem torn_write_loses_commit :
    ∃ wal receipt, (genesisWithWal.run (fullDisk 1)).2.wal = some wal ∧
      receipt ∈ acked (genesisWithWal.run (fullDisk 1)).1 ∧ ¬Recovered wal receipt := by
  have hwal : (genesisWithWal.run (fullDisk 1)).2.wal.map recoveredEntries = some [] := by
    decide +kernel
  have hacked : (acked (genesisWithWal.run (fullDisk 1)).1).length = 1 := by
    decide +kernel
  obtain ⟨wal, hfinal, hentries⟩ := Option.map_eq_some_iff.mp hwal
  obtain ⟨receipt, hreceipt⟩ := List.length_eq_one_iff.mp hacked
  refine ⟨wal, receipt, hfinal, ?_, ?_⟩
  · rw [hreceipt]
    exact List.mem_singleton.mpr rfl
  · rintro ⟨entry, hentry, -⟩
    rw [hentries] at hentry
    exact absurd hentry List.not_mem_nil

end Database

end Ferratomic
