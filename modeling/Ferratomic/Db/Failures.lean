import Ferratomic.Db.Equivalence

/-!
# What a failed call leaves behind

A call that fails while it writes the log publishes nothing, but its bytes stay in the file and
a completed write has already raised the pending epoch of the log. `Traceless` names the calls
that leave no trace, and the main theorem, `failed_calls_traceless`, says that along every run
of such calls the log recovers exactly the published store and the next call that the disk
completes is accepted. `unsynced_write_traced` is a
run that one failed sync ends for good.
-/

namespace Ferratomic

open Lib

section Runs

variable [Bincode]

namespace Database

/-- The calls that leave no trace when they fail, by what they find in the log and what the disk
does: nothing is written; the first entry is over the size limit; the first write fails before
its first byte; it fails before its last byte, at a frame boundary; or nothing fails, at a frame
boundary and with attribute names that recovery can read. -/
inductive Traceless (wal : Log) (env : Env) (transactions : List Transaction) :
    List TxReceipt → Prop
  | nothing : Traceless wal env transactions []
  | refused {receipt : TxReceipt} {rest : List TxReceipt} : ¬Fitting receipt →
      Traceless wal env transactions (receipt :: rest)
  | unwritten {receipt : TxReceipt} {rest : List TxReceipt} {message : String} :
      env.write 0 = .failed 0 message → Traceless wal env transactions (receipt :: rest)
  | torn {receipt : TxReceipt} {rest : List TxReceipt} {written : Nat} {message : String} :
      wal.AtBoundary → env.write 0 = .failed written message →
      (∀ entry, Logs receipt entry → written < (frame entry.epoch entry.payload).length) →
      Traceless wal env transactions (receipt :: rest)
  | whole {receipts : List TxReceipt} : wal.AtBoundary → env.Works receipts.length →
      (∀ receipt ∈ receipts, Fitting receipt) →
      (∀ transaction ∈ transactions, ShortAttrs transaction.datoms) →
      Traceless wal env transactions receipts

variable [Blake3]

/-- Every call of the run that stages something leaves no trace when it fails. -/
def TracelessRun (db : Database) : List (Call × Env) → Prop
  | [] => True
  | (call, env) :: rest =>
      (∀ staged clock wal, db.stage env call = (.ok staged, clock) → db.wal = some wal →
        Traceless wal env call.transactions staged.receipts) ∧
      (db.step call env).2.TracelessRun rest

/-- A failed first write of a call leaves the recoverable entries and the pending epoch. -/
theorem writeWal_traceless {db : Database} {wal : Log} (hwal : db.wal = some wal) {env : Env}
    {transactions : List Transaction} {receipt : TxReceipt} {rest : List TxReceipt}
    (h : Traceless wal env transactions (receipt :: rest))
    (hnot : ¬ (env.write 0 = .complete ∧ Fitting receipt)) :
    ∃ e wal', db.writeWal (env.write 0) (env.sync 0) receipt =
        (.error e, { db with wal := some wal' }) ∧
      recoveredEntries wal' = recoveredEntries wal ∧ wal'.pendingEpoch = wal.pendingEpoch := by
  obtain ⟨result, wal', hwrite, hcase⟩ :=
    writeWal_cases hwal (env.write 0) (env.sync 0) receipt
  cases hcase with
  | refused e => exact ⟨e, wal, hwrite, rfl, rfl⟩
  | unsynced _ entry _ hlogs hfits hcomplete => exact absurd ⟨hcomplete, entry, hlogs, hfits⟩ hnot
  | done entry _ hlogs hfits hcomplete => exact absurd ⟨hcomplete, entry, hlogs, hfits⟩ hnot
  | torn e entry written message hlogs hfits hfailed =>
      refine ⟨e, _, hwrite, ?_, rfl⟩
      cases h with
      | refused hlarge => exact absurd ⟨entry, hlogs, hfits⟩ hlarge
      | unwritten hzero =>
          rw [hfailed] at hzero
          cases hzero
          show (parseWalFramesWithPos (wal.file ++ List.take 0 _)).1 = _
          rw [List.take_zero, List.append_nil]
          rfl
      | torn hboundary hshort hlength =>
          rw [hfailed] at hshort
          cases hshort
          rw [recoveredEntries_of_atBoundary hboundary rfl,
            parseWalFramesWithPos_torn hfits (hlength entry hlogs), List.append_nil]
      | whole _ hworks =>
          have hcomplete := (hworks 0 (Nat.succ_pos _)).1
          rw [hfailed] at hcomplete
          cases hcomplete

/-- A call that stages nothing keeps the agreement. -/
theorem Agrees.step_nothing {P : List Datom → Prop} {db : Database} {wal : Log}
    {receipts : List TxReceipt} (h : Agrees P db wal receipts) {call : Call} {env : Env}
    {store : Store} {frontier : Frontier} {clock : HybridClock}
    (hstage : db.stage env call = (.ok ⟨[], store, frontier⟩, clock)) :
    Agrees P (db.step call env).2 wal receipts := by
  have hcommits := h.commits.append (stage_ok hstage).commits
  have hpending : wal.pendingEpoch = store.epoch := by
    obtain ⟨epoch, schema, hstamps, hobs⟩ := (stage_ok hstage).commits
    cases hstamps
    exact h.pending.trans (congrArg Observation.epoch hobs).symm
  rw [List.append_nil] at hcommits
  rw [step_eq, hstage]
  exact ⟨h.attached, hcommits, h.logs, hpending, h.datoms⟩

/-- A call whose first write fails without a trace keeps the agreement. -/
theorem Agrees.step_failed {P : List Datom → Prop} {db : Database} {wal : Log}
    {receipts : List TxReceipt} (h : Agrees P db wal receipts) {call : Call} {env : Env}
    {receipt : TxReceipt} {rest : List TxReceipt} {store : Store} {frontier : Frontier}
    {clock : HybridClock}
    (hstage : db.stage env call = (.ok ⟨receipt :: rest, store, frontier⟩, clock))
    (htraceless : Traceless wal env call.transactions (receipt :: rest))
    (hnot : ¬ (env.write 0 = .complete ∧ Fitting receipt)) :
    ∃ wal', Agrees P (db.step call env).2 wal' receipts := by
  have hwal : ({ db with clock := clock } : Database).wal = some wal := h.attached
  obtain ⟨e, wal', hwrite, hentries, hpending⟩ := writeWal_traceless hwal htraceless hnot
  have hstep : (db.step call env).2 = { db with wal := some wal', clock := clock } := by
    rw [step_eq, hstage]
    simp only [commitStaged, writeWalAll, hwrite]
  refine ⟨wal', ?_⟩
  rw [hstep]
  exact ⟨rfl, h.commits, by rw [hentries]; exact h.logs, hpending.trans h.pending, h.datoms⟩

/-- A call that leaves no trace keeps the agreement, whether it succeeds or fails. -/
theorem Agrees.step_traceless {db : Database} {wal : Log} {receipts : List TxReceipt}
    (h : Agrees ShortAttrs db wal receipts) {call : Call} {env : Env}
    (htraceless : ∀ staged clock wal, db.stage env call = (.ok staged, clock) →
      db.wal = some wal → Traceless wal env call.transactions staged.receipts) :
    ∃ wal' receipts', Agrees ShortAttrs (db.step call env).2 wal' receipts' := by
  rcases hstage : db.stage env call with ⟨e | ⟨new, store, frontier⟩, clock⟩
  · rw [step_eq, hstage]
    exact ⟨wal, receipts, h.attached, h.commits, h.logs, h.pending, h.datoms⟩
  have hcall : Traceless wal env call.transactions new :=
    htraceless _ clock wal hstage h.attached
  have hfailed {receipt : TxReceipt} {rest : List TxReceipt} (hnew : new = receipt :: rest)
      (hnot : ¬ (env.write 0 = .complete ∧ Fitting receipt)) :
      ∃ wal' receipts', Agrees ShortAttrs (db.step call env).2 wal' receipts' := by
    subst hnew
    obtain ⟨wal', hagrees⟩ := h.step_failed hstage hcall hnot
    exact ⟨wal', receipts, hagrees⟩
  cases hcall with
  | nothing => exact ⟨wal, receipts, h.step_nothing hstage⟩
  | refused hlarge => exact hfailed rfl fun hboth => hlarge hboth.2
  | unwritten hzero =>
      refine hfailed rfl fun hboth => ?_
      rw [hzero] at hboth
      exact nomatch hboth.1
  | torn hboundary hwrite hlength =>
      refine hfailed rfl fun hboth => ?_
      rw [hwrite] at hboth
      exact nomatch hboth.1
  | whole hboundary hworks hfitting hshort =>
      have hok := step_accepts h.attached h.pending hstage hworks hfitting
      obtain ⟨wal', hagrees, -⟩ := h.step_ok hboundary hok
        fun transaction ht receipt hs => (hshort transaction ht).of_stamped hs
      exact ⟨wal', _, hagrees⟩

/-- An entry that was written whole at a frame boundary is recovered although its sync failed: the
log agrees with the store that the call did not publish. -/
theorem Agrees.step_unsynced {P : List Datom → Prop} {db : Database} {wal : Log}
    {receipts : List TxReceipt} (h : Agrees P db wal receipts) (hboundary : wal.AtBoundary)
    {call : Call} {env : Env} {receipt : TxReceipt} {store : Store} {frontier : Frontier}
    {clock : HybridClock} (hstage : db.stage env call = (.ok ⟨[receipt], store, frontier⟩, clock))
    (hfitting : Fitting receipt) (hwrite : env.write 0 = .complete) {message : String}
    (hsync : env.sync 0 = .error message) (hP : P receipt.datoms) :
    ∃ wal', (db.step call env).2 = { db with wal := some wal', clock := clock } ∧
      Agrees P { db with current := store, wal := some wal' } wal' (receipts ++ [receipt]) := by
  obtain ⟨entry, hlogs, hfits⟩ := hfitting
  obtain ⟨epoch, schema, hstamps, hobs⟩ := (stage_ok hstage).commits
  have hlt : wal.pendingEpoch < receipt.epoch := by
    rw [h.pending]
    exact (hstamps.epoch_mem (List.mem_singleton.mpr rfl)).1
  have hwal : ({ db with clock := clock } : Database).wal = some wal := h.attached
  -- the frame is in the file although the call reports a failure
  have hfile : (appended wal entry).file = wal.file ++ frames [entry] := by
    rw [frames_cons, frames_nil, List.append_nil]
    rfl
  have hentries := (recoveredEntries_frames hboundary
    (fun e he => List.mem_singleton.mp he ▸ hfits) hfile).1
  refine ⟨appended wal entry, ?_, rfl, ?_, ?_, ?_, ?_⟩
  · rw [step_eq, hstage]
    simp only [commitStaged, writeWalAll, hwrite, hsync, writeWal_complete hwal hlogs hfits hlt,
      Log.fsync_eq]
  · exact h.commits.append (stage_ok hstage).commits
  · rw [hentries]
    exact List.rel_append h.logs (.cons hlogs .nil)
  · show max wal.pendingEpoch entry.epoch = store.epoch
    rw [hlogs.1, h.pending]
    exact hstamps.foldl_max.trans (congrArg Observation.epoch hobs).symm
  · intro other hother
    rcases List.mem_append.mp hother with hold | hnew
    · exact h.datoms other hold
    · rw [List.mem_singleton.mp hnew]
      exact hP

/-- A run of one call leaves the database that the call leaves. -/
theorem snd_run_singleton (db : Database) (call : Call) (env : Env) :
    (db.run [(call, env)]).2 = (db.step call env).2 := rfl

/-- A run of calls that leave no trace keeps the agreement. -/
theorem Agrees.run_traceless {db : Database} {wal : Log} {receipts : List TxReceipt}
    (h : Agrees ShortAttrs db wal receipts) {calls : List (Call × Env)}
    (htraceless : db.TracelessRun calls) :
    ∃ wal' receipts', Agrees ShortAttrs (db.run calls).2 wal' receipts' := by
  induction calls generalizing db wal receipts with
  | nil => exact ⟨wal, receipts, h⟩
  | cons head rest ih =>
      obtain ⟨wal₁, receipts₁, hagrees⟩ := h.step_traceless htraceless.1
      exact ih hagrees htraceless.2

/-- After every run of calls that leave no trace when they fail, the log recovers the datoms and
the epoch of the published store, and a call whose entries are within the size limit succeeds as
soon as the disk works. -/
theorem failed_calls_traceless (hfaithful : Bincode.Faithful) {calls : List (Call × Env)}
    (htraceless : genesisWithWal.TracelessRun calls) :
    ∃ wal, (genesisWithWal.run calls).2.wal = some wal ∧
      (∀ orders, ∃ recovered, recoverFromWal orders wal.file = .ok recovered ∧
        recovered.current.datomSet = (genesisWithWal.run calls).2.current.datomSet ∧
        recovered.current.epoch = (genesisWithWal.run calls).2.current.epoch) ∧
      ∀ call env staged clock,
        (genesisWithWal.run calls).2.stage env call = (.ok staged, clock) →
        env.Works staged.receipts.length → (∀ receipt ∈ staged.receipts, Fitting receipt) →
        ((genesisWithWal.run calls).2.step call env).1 = .ok staged.receipts := by
  obtain ⟨wal, receipts, hagrees⟩ :=
    (agrees_genesisWithWal ShortAttrs).run_traceless htraceless
  refine ⟨wal, hagrees.attached, fun orders => ?_, fun call env staged clock hstage => ?_⟩
  · obtain ⟨recovered, schema, hrecover, hobs, -⟩ :=
      hagrees.recoverFromWal hfaithful (fun _ h => h) orders
    exact ⟨recovered, hrecover, congrArg Observation.datomSet hobs,
      congrArg Observation.epoch hobs⟩
  · exact step_accepts hagrees.attached hagrees.pending hstage

end Database

end Runs

namespace Sample

/-- The first write fails after five bytes. -/
def tornOnce : List (Call × Env) :=
  [(.transact document, envAt 1 (.failed 5 "disk full") (.ok ()))]

/-- The write of a transaction is completed and its sync fails. -/
def unsynced : List (Call × Env) :=
  [(.transact document, envAt 1 .complete (.error "input/output error"))]

/-- The second write of a batch fails before its first byte. -/
def halfBatch : List (Call × Env) :=
  [(.batchTransact [document, document],
    { envAt 1 .complete (.ok ()) with
      write := fun i => if i = 0 then .complete else .failed 0 "disk full" })]

end Sample

open Sample

namespace Database

/-- A write that fails within the first frame leaves no trace. -/
theorem failed_calls_traceless_tornOnce :
    genesisWithWal.TracelessRun tornOnce ∧
      ∃ wal, (genesisWithWal.run tornOnce).2.wal = some wal ∧
        (∀ orders, ∃ recovered, recoverFromWal orders wal.file = .ok recovered ∧
          recovered.current.datomSet = (genesisWithWal.run tornOnce).2.current.datomSet ∧
          recovered.current.epoch = (genesisWithWal.run tornOnce).2.current.epoch) ∧
        ∀ call env staged clock,
          (genesisWithWal.run tornOnce).2.stage env call = (.ok staged, clock) →
          env.Works staged.receipts.length → (∀ receipt ∈ staged.receipts, Fitting receipt) →
          ((genesisWithWal.run tornOnce).2.step call env).1 = .ok staged.receipts := by
  have htraceless : genesisWithWal.TracelessRun tornOnce := by
    refine ⟨fun staged clock wal _ hwal => ?_, trivial⟩
    cases hwal
    cases staged.receipts with
    | nil => exact .nothing
    | cons receipt rest =>
        refine .torn rfl rfl fun entry _ => ?_
        rw [length_frame, headerSize]
        omega
  exact ⟨htraceless, failed_calls_traceless Bincode.faithful_reference htraceless⟩

/-- A failed sync leaves an entry that recovery replays although the call failed; and after it,
or after a failure within a batch, the log refuses the next transaction of the working disk. -/
theorem unsynced_write_traced :
    (∃ wal, (genesisWithWal.run unsynced).2.wal = some wal ∧
      ∀ orders, ∃ recovered, recoverFromWal orders wal.file = .ok recovered ∧
        recovered.current.epoch ≠ (genesisWithWal.run unsynced).2.current.epoch) ∧
      ∀ calls ∈ [unsynced, halfBatch],
        ((genesisWithWal.run calls).2.step (.transact document)
            (envAt 2 .complete (.ok ()))).1.map (fun receipts => receipts.length) =
          .error (.invariantViolation "INV-FERR-007"
            "WAL epoch monotonicity violated: epoch 1 <= pending 1") := by
  refine ⟨?_, by decide +kernel⟩
  have hstaged : (genesisWithWal.stage (envAt 1 .complete (.error "input/output error"))
      (.transact document)).1.toOption.any (fun staged => staged.receipts.length = 1 ∧
        staged.store.epoch = 1 ∧ ∀ receipt ∈ staged.receipts, Fitting receipt) := by
    decide +kernel
  have hshort : ShortAttrs document.datoms := by
    intro d hd
    rw [List.mem_singleton.mp hd]
    show (utf8Bytes "db/doc").length ≤ maxAttributeBytes
    decide +kernel
  rcases hstage : genesisWithWal.stage (envAt 1 .complete (.error "input/output error"))
    (.transact document) with ⟨e | ⟨receipts, store, frontier⟩, clock⟩
  · rw [hstage] at hstaged
    cases hstaged
  rw [hstage] at hstaged
  obtain ⟨hlength, hepoch, hfitting⟩ := of_decide_eq_true hstaged
  obtain ⟨receipt, rfl⟩ := List.length_eq_one_iff.mp hlength
  obtain ⟨transaction, ht, hstamped⟩ :=
    (stage_ok hstage).stamped receipt (List.mem_singleton.mpr rfl)
  rw [List.mem_singleton.mp ht] at hstamped
  obtain ⟨wal, hstep, hagrees⟩ := (agrees_genesisWithWal ShortAttrs).step_unsynced rfl hstage
    (hfitting receipt (List.mem_singleton.mpr rfl)) rfl rfl (hshort.of_stamped hstamped)
  have hrun : (genesisWithWal.run unsynced).2 =
      { genesisWithWal with wal := some wal, clock := clock } := by
    rw [unsynced, snd_run_singleton, hstep]
  rw [hrun]
  refine ⟨wal, rfl, fun orders => ?_⟩
  obtain ⟨recovered, schema, hrecover, hobs, -⟩ :=
    hagrees.recoverFromWal Bincode.faithful_reference (fun _ h => h) orders
  refine ⟨recovered, hrecover, ?_⟩
  have hsame : recovered.current.epoch = store.epoch := congrArg Observation.epoch hobs
  rw [hsame, hepoch]
  show (1 : UInt64) ≠ 0
  decide

end Database

end Ferratomic
