import Ferratomic.Db.ColdStart
import Ferratomic.Db.Ticks

/-!
# The signed state commitment

A signed transaction commits to the store that it is applied to: the signing message holds the
fingerprint of the store, the exclusive or of the content hashes of its datoms. Only a contiguous
store carries a fingerprint, and a write-active one is signed as if it were empty. Publishing a
transaction always leaves a contiguous store, but replaying a log entry leaves a write-active one.
The main theorem, `signed_commitment`, says when the fingerprint is the commitment, and that it is
in every state of the runs that `Served` names; `recovered_log_commitment` is a recovery after which
it is not.
-/

namespace Ferratomic

open Lib

section Representation

variable [Blake3]

namespace Store

/-- The contiguous representation. -/
def IsPositional (store : Store) : Prop :=
  ∃ ps, store.repr = .positional ps

/-- The commitment to a store: the exclusive or of the content hashes of all its datoms. -/
def commitment (store : Store) : Hash :=
  (store.datoms.map Datom.contentHash).foldl xorHash zeroHash

/-- The commitment is the fingerprint of the datoms. -/
theorem commitment_eq (store : Store) : store.commitment = computeFingerprint store.datoms :=
  List.foldl_map

/-- A store of ordered maps is not positional. -/
theorem IsOrdMap.not_isPositional {store : Store} (h : store.IsOrdMap) : ¬store.IsPositional := by
  obtain ⟨datoms, indexes, hord⟩ := h
  rintro ⟨ps, hpositional⟩
  rw [hord] at hpositional
  cases hpositional

/-- A demoted store is positional. -/
theorem isPositional_demote (store : Store) : store.demote.IsPositional := by
  unfold demote
  split
  case h_1 ps h => exact ⟨ps, h⟩
  case h_2 => exact ⟨_, rfl⟩

/-- Publishing datoms leaves a contiguous store, whatever it was before. -/
theorem isPositional_applyDatoms (store : Store) (datoms : List Datom) :
    (store.applyDatoms datoms).IsPositional := by
  unfold applyDatoms
  split
  case h_1 ps h =>
      simp only [spliceTransactBatch, h, foldl_liveApply]
      exact ⟨_, rfl⟩
  case h_2 => exact isPositional_demote _

/-- A successful `transact` leaves a positional store. -/
theorem isPositional_transact {order : IterOrder} {store next : Store}
    {transaction : Transaction} {ctx : TransactContext} {receipt : TxReceipt}
    (h : transact order store transaction ctx = (.ok receipt, next)) : next.IsPositional := by
  unfold transact at h
  split at h
  case isTrue => cases h
  case isFalse =>
      split at h
      case h_1 => cases h
      case h_2 epoch _ =>
          simp only at h
          split at h
          case h_1 => cases h
          case h_2 =>
              cases h
              exact isPositional_applyDatoms _ _

/-- A successful batch that is not empty leaves a positional store. -/
theorem isPositional_batchSpliceTransact {orders : Nat → IterOrder} {store next : Store}
    {batches : List (List Datom × TxId)} {receipts : List TxReceipt} (hne : batches ≠ [])
    (h : batchSpliceTransact orders store batches = (.ok receipts, next)) :
    next.IsPositional := by
  unfold batchSpliceTransact at h
  rw [if_neg (fun hempty => hne (List.isEmpty_iff.mp hempty))] at h
  split at h
  case h_1 => cases h
  case h_2 =>
      cases h
      exact isPositional_applyDatoms _ _

/-- A loaded checkpoint is a contiguous store. -/
theorem isPositional_storeFromCheckpointBytes [Bincode] {bytes : Bytes} {store : Store}
    (h : storeFromCheckpointBytes bytes = .ok store) : store.IsPositional := by
  rw [storeFromCheckpointBytes] at h
  cases hread : deserializeCheckpointBytes bytes with
  | error e =>
      rw [hread] at h
      cases h
  | ok data =>
      rw [hread] at h
      change storeFromCheckpointData data = .ok store at h
      unfold storeFromCheckpointData at h
      split at h
      · obtain ⟨ps, rfl, -⟩ := fromCheckpointV3_ok h
        exact ⟨ps, rfl⟩
      · cases h
        exact ⟨_, rfl⟩

/-- Insertions keep a store in ordered maps. -/
theorem IsOrdMap.foldl_insert {store : Store} (h : store.IsOrdMap) (datoms : List Datom) :
    (datoms.foldl insert store).IsOrdMap := by
  induction datoms generalizing store with
  | nil => exact h
  | cons d rest ih => exact ih (store.isOrdMap_promote.insertOrdMap d)

/-- Replaying an entry keeps the representation when it has no datoms and is write-active
otherwise. -/
theorem isOrdMap_replayEntry (order : IterOrder) (store : Store) (epoch : UInt64)
    {datoms : List Datom} (hne : datoms ≠ []) :
    (replayEntry order store epoch datoms).2.IsOrdMap := by
  obtain ⟨d, rest, rfl⟩ := List.exists_cons_of_ne_nil hne
  exact (store.isOrdMap_promote.insertOrdMap d).foldl_insert rest

end Store

namespace Database

/-- The fingerprint that is signed is the commitment to the store exactly when the store carries
one or its datoms cancel out. -/
theorem storeFingerprint_eq_iff (db : Database) :
    db.storeFingerprint = db.current.commitment ↔
      db.current.IsPositional ∨ db.current.commitment = zeroHash := by
  rw [storeFingerprint]
  split
  case h_1 ps h =>
      refine ⟨fun _ => .inl ⟨ps, h⟩, fun _ => ?_⟩
      have hdatoms : db.current.datoms = ps.canonical := by
        rw [Store.datoms, h]
        rfl
      rw [Store.commitment_eq, hdatoms]
      exact ps.fingerprint_eq
  case h_2 datoms indexes h =>
      have hord : db.current.IsOrdMap := ⟨datoms, indexes, h⟩
      exact ⟨fun heq => .inr heq.symm,
        fun hor => (hor.resolve_left hord.not_isPositional).symm⟩

/-- A staged call that has receipts has a contiguous store; one without them has staged the
published store. -/
theorem stage_isPositional {db : Database} {env : Env} {call : Call} {staged : Staged}
    {clock : HybridClock} (h : db.stage env call = (.ok staged, clock)) :
    staged.store.IsPositional ∨ (staged.receipts = [] ∧ staged.store = db.current) := by
  have htransact {transaction : Transaction} {sign : TxId → Option (TxSignature × TxSigner)}
      (h : db.stageTransact env transaction sign = (.ok staged, clock)) :
      staged.store.IsPositional := by
    unfold stageTransact at h
    split at h
    case h_1 => cases h
    case h_2 =>
        split at h
        case h_1 => cases h
        case h_2 receipt store hstore =>
            cases h
            exact Store.isPositional_transact hstore
  cases call with
  | transact transaction => exact .inl (htransact h)
  | transactSigned transaction key => exact .inl (htransact h)
  | batchTransact transactions =>
      change db.stageBatch env transactions = (.ok staged, clock) at h
      unfold stageBatch at h
      split at h
      case isTrue =>
          cases h
          exact .inr ⟨rfl, rfl⟩
      case isFalse hne =>
          split at h
          case h_1 => cases h
          case h_2 batches clock' hticks =>
              split at h
              case h_1 => cases h
              case h_2 receipts store hstore =>
                  cases h
                  refine .inl (Store.isPositional_batchSpliceTransact ?_ hstore)
                  rintro rfl
                  have hmap := map_fst_tickBatches (congrArg Prod.fst hticks)
                  exact hne (List.isEmpty_iff.mpr (List.map_eq_nil_iff.mp hmap.symm))

variable [Bincode]

/-- A call publishes a contiguous store or leaves the published one. -/
theorem step_isPositional (db : Database) (call : Call) (env : Env) :
    ((db.step call env).2.current.IsPositional) ∨
      ((db.step call env).2.current = db.current ∧
        ∀ receipts, (db.step call env).1 = .ok receipts → receipts = []) := by
  rcases step_cases db call env with ⟨e, attached, hstep⟩ | ⟨staged, attached, hstage, hstep⟩
  · rw [hstep]
    refine .inr ⟨rfl, fun receipts h => ?_⟩
    cases h
  · rw [hstep]
    have hsame : db.stage env call = (.ok staged, (db.stage env call).2) := Prod.ext hstage rfl
    rcases stage_isPositional hsame with hpositional | ⟨hnil, hstore⟩
    · exact .inl hpositional
    · refine .inr ⟨hstore, fun receipts h => ?_⟩
      cases h
      exact hnil

end Database

end Representation

section Openings

variable [Blake3] [Bincode]

/-- The entry holds no datom. -/
def WalEntry.AddsNothing (entry : WalEntry) : Prop :=
  ∀ wireDatoms, Bincode.datoms.deserialize entry.payload = .ok wireDatoms → wireDatoms = []

/-- No entry of the log holds a datom, except those that a checkpoint covers. -/
def LogAddsNothing (checkpoint : Option Bytes) (wal : Bytes) : Prop :=
  ∀ entry ∈ recoverWalFromReader wal,
    (∀ bytes store, checkpoint = some bytes → storeFromCheckpointBytes bytes = .ok store →
      store.epoch < entry.epoch) → entry.AddsNothing

/-- The checkpoint that a backend stores, if there is one that can be read. -/
def StorageBackend.storedCheckpoint (backend : StorageBackend) : Option Bytes :=
  if backend.checkpointExists then backend.readCheckpoint.toOption else none

/-- Replaying entries without datoms keeps a contiguous store. -/
theorem Database.isPositional_replayWal {orders : Nat → IterOrder} {index : Nat}
    {store replayed : Store} {entries : List WalEntry}
    (h : replayWal orders index store entries = .ok replayed) (hstore : store.IsPositional)
    (hentries : ∀ entry ∈ entries, entry.AddsNothing) : replayed.IsPositional := by
  induction entries generalizing index store with
  | nil =>
      cases h
      exact hstore
  | cons entry rest ih =>
      obtain ⟨hentry, hrest⟩ := List.forall_mem_cons.mp hentries
      rcases replayWal_cons orders index store entry rest with
        ⟨-, message, heq⟩ | ⟨-, -, attr, expected, got, heq⟩ |
          ⟨-, wireDatoms, next, hread, hreplay, heq⟩
      · rw [heq] at h
        cases h
      · rw [heq] at h
        cases h
      · rw [heq] at h
        refine ih h ?_ hrest
        rw [hentry wireDatoms hread] at hreplay
        obtain ⟨ps, hps⟩ := hstore
        have hnext : _ = next := congrArg Prod.snd hreplay
        rw [← hnext]
        exact ⟨ps, hps⟩

namespace LogAddsNothing

variable {checkpoint : Option Bytes} {wal : Bytes}

/-- The log alone adds nothing when no checkpoint covers any of it. -/
theorem all (h : LogAddsNothing checkpoint wal)
    (hnone : ∀ bytes store, checkpoint = some bytes →
      storeFromCheckpointBytes bytes ≠ .ok store) :
    ∀ entry ∈ recoverWalFromReader wal, entry.AddsNothing := by
  intro entry hentry
  refine h entry hentry fun bytes store hbytes hload => ?_
  exact absurd hload (hnone bytes store hbytes)

/-- The entries after the checkpoint add nothing. -/
theorem after {bytes : Bytes} {store : Store} (h : LogAddsNothing (some bytes) wal)
    (hload : storeFromCheckpointBytes bytes = .ok store) :
    ∀ entry ∈ (recoverWalFromReader wal).filter fun entry => store.epoch < entry.epoch,
      entry.AddsNothing := by
  intro entry hentry
  obtain ⟨hmem, hafter⟩ := List.mem_filter.mp hentry
  refine h entry hmem fun bytes' store' hbytes hload' => ?_
  cases hbytes
  rw [hload] at hload'
  cases hload'
  exact of_decide_eq_true hafter

end LogAddsNothing

namespace Database

/-- A log that adds nothing is recovered into a positional store. -/
theorem isPositional_recoverFromWal {orders : Nat → IterOrder} {file : Bytes} {db : Database}
    (h : recoverFromWal orders file = .ok db)
    (hlog : ∀ entry ∈ recoverWalFromReader file, entry.AddsNothing) : db.current.IsPositional := by
  unfold recoverFromWal at h
  simp only at h
  split at h
  case h_1 => cases h
  case h_2 store hreplay =>
      cases h
      exact isPositional_replayWal hreplay ⟨_, rfl⟩ hlog

/-- A checkpoint with a log that adds nothing is recovered into a positional store. -/
theorem isPositional_recover {orders : Nat → IterOrder} {checkpoint file : Bytes} {db : Database}
    (h : recover orders checkpoint file = .ok db)
    (hlog : LogAddsNothing (some checkpoint) file) : db.current.IsPositional := by
  unfold recover at h
  split at h
  case h_1 => cases h
  case h_2 store hload =>
      simp only at h
      split at h
      case h_1 => cases h
      case h_2 replayed hreplay =>
          cases h
          exact isPositional_replayWal hreplay (Store.isPositional_storeFromCheckpointBytes hload)
            (hlog.after hload)

/-- When the whole log can be replayed, so can its entries after a checkpoint. -/
theorem recover_of_recoverFromWal (orders : Nat → IterOrder) {orders' : Nat → IterOrder}
    {checkpoint file : Bytes} {store : Store} {db : Database}
    (hload : storeFromCheckpointBytes checkpoint = .ok store)
    (h : recoverFromWal orders' file = .ok db) :
    ∃ recovered, recover orders checkpoint file = .ok recovered := by
  have hall : ∀ entry ∈ recoverWalFromReader file, entry.Replayable := by
    unfold recoverFromWal at h
    simp only at h
    split at h
    case h_1 => cases h
    case h_2 replayed hreplay => exact replayWal_ok_iff.mp ⟨replayed, hreplay⟩
  obtain ⟨replayed, hreplay⟩ := (replayWal_ok_iff.mpr fun entry hentry =>
    hall entry (List.mem_of_mem_filter hentry) :
      ∃ replayed, replayWal orders 0 store
        ((recoverWalFromReader file).filter fun entry => store.epoch < entry.epoch) = .ok replayed)
  refine ⟨build replayed (some (Log.recover file).2), ?_⟩
  have hreplay' : replayWal orders 0 store ((Log.recover file).1.filter fun entry =>
      store.epoch < entry.epoch) = .ok replayed := hreplay
  rw [recover, hload]
  simp only [hreplay']

end Database

namespace StorageBackend

omit [Bincode] in
/-- A result of the cascade is the level's, or the next level's after an error. -/
theorem orElseOn_ok {fallThrough : FerraError → Bool}
    {level next : Except FerraError ColdStartResult} {result : ColdStartResult}
    (h : orElseOn fallThrough level next = .ok result) :
    level = .ok result ∨ ((∃ e, level = .error e) ∧ next = .ok result) := by
  unfold orElseOn at h
  split at h
  case h_1 => exact .inl h
  case h_2 e =>
      split at h
      · exact .inr ⟨⟨e, rfl⟩, h⟩
      · cases h

/-- The log-only level returns what the log gives, or the genesis database. -/
theorem coldStartWalOnly_ok {backend : StorageBackend} {orders : Nat → IterOrder}
    {result : ColdStartResult} (h : backend.coldStartWalOnly orders = .ok result) :
    (backend.walExists = true ∧ backend.recoverWalOnly orders = .ok result) ∨
      result = ⟨Database.genesis, .genesis⟩ := by
  unfold coldStartWalOnly at h
  simp only at h
  split at h
  case isTrue hlog =>
      rcases orElseOn_ok h with hlevel | ⟨-, hgenesis⟩
      · exact .inl ⟨hlog, hlevel⟩
      · cases hgenesis
        exact .inr rfl
  case isFalse =>
      cases h
      exact .inr rfl

/-- The first level replays the log it read over the checkpoint it read. -/
theorem recoverCheckpointPlusWal_ok {backend : StorageBackend} {orders : Nat → IterOrder}
    {result : ColdStartResult} (h : backend.recoverCheckpointPlusWal orders = .ok result) :
    ∃ bytes wal store replayed, backend.readCheckpoint = .ok bytes ∧ backend.readWal = .ok wal ∧
      storeFromCheckpointBytes bytes = .ok store ∧
      Database.replayWal orders 0 store ((recoverWalFromReader wal).filter fun entry =>
        store.epoch < entry.epoch) = .ok replayed ∧
      result = ⟨Database.fromStore replayed, .checkpointPlusWal⟩ := by
  obtain ⟨bytes, hread, h⟩ := bind_eq_ok.mp h
  obtain ⟨store, hload, h⟩ := bind_eq_ok.mp h
  obtain ⟨wal, hwal, h⟩ := bind_eq_ok.mp h
  obtain ⟨replayed, hreplay, h⟩ := bind_eq_ok.mp h
  cases h
  exact ⟨bytes, wal, store, replayed, hread, hwal, hload, hreplay, rfl⟩

/-- The second level returns the store of the checkpoint it read. -/
theorem recoverCheckpointOnly_ok {backend : StorageBackend} {result : ColdStartResult}
    (h : backend.recoverCheckpointOnly = .ok result) :
    ∃ bytes store, backend.readCheckpoint = .ok bytes ∧
      storeFromCheckpointBytes bytes = .ok store ∧
      result = ⟨Database.fromStore store, .checkpointOnly⟩ := by
  obtain ⟨bytes, hread, h⟩ := bind_eq_ok.mp h
  obtain ⟨store, hload, h⟩ := bind_eq_ok.mp h
  cases h
  exact ⟨bytes, store, hread, hload, rfl⟩

/-- The third level replays the log it read over the genesis store. -/
theorem recoverWalOnly_ok {backend : StorageBackend} {orders : Nat → IterOrder}
    {result : ColdStartResult} (h : backend.recoverWalOnly orders = .ok result) :
    ∃ wal replayed, backend.readWal = .ok wal ∧
      Database.replayWal orders 0 Store.genesis (recoverWalFromReader wal) = .ok replayed ∧
      result = ⟨Database.fromStore replayed, .walOnly⟩ := by
  obtain ⟨wal, hwal, h⟩ := bind_eq_ok.mp h
  obtain ⟨replayed, hreplay, h⟩ := bind_eq_ok.mp h
  cases h
  exact ⟨wal, replayed, hwal, hreplay, rfl⟩

/-- The log alone is recovered only when there is no checkpoint that can be read: with one, the
first level replays a part of what this level replays. -/
theorem not_readable_of_recoverWalOnly {backend : StorageBackend} {orders orders' : Nat → IterOrder}
    {result : ColdStartResult} (hwalOnly : backend.recoverWalOnly orders' = .ok result)
    (hfirst : backend.checkpointExists = true →
      ∃ e, backend.recoverCheckpointPlusWal orders = .error e)
    (bytes : Bytes) (store : Store) (hbytes : backend.storedCheckpoint = some bytes) :
    storeFromCheckpointBytes bytes ≠ .ok store := by
  intro hload
  unfold storedCheckpoint at hbytes
  split at hbytes
  case isFalse => cases hbytes
  case isTrue hexists =>
      obtain ⟨e, herr⟩ := hfirst hexists
      obtain ⟨wal, replayed, hwal, hreplay, -⟩ := recoverWalOnly_ok hwalOnly
      have hread : backend.readCheckpoint = .ok bytes := by
        cases hread : backend.readCheckpoint with
        | error e =>
            rw [hread] at hbytes
            cases hbytes
        | ok other =>
            rw [hread] at hbytes
            cases hbytes
            rfl
      have hall := Database.replayWal_ok_iff.mp ⟨replayed, hreplay⟩
      obtain ⟨after, hafter⟩ := (Database.replayWal_ok_iff.mpr fun entry hentry =>
        hall entry (List.mem_of_mem_filter hentry) :
          ∃ after, Database.replayWal orders 0 store ((recoverWalFromReader wal).filter fun entry =>
            store.epoch < entry.epoch) = .ok after)
      rw [recoverCheckpointPlusWal_eq hread hload hwal, hafter] at herr
      cases herr

/-- A cold start over a log that adds nothing opens a contiguous store. -/
theorem isPositional_coldStartWithBackend {backend : StorageBackend}
    {orders orders' : Nat → IterOrder} {result : ColdStartResult}
    (h : backend.coldStartWithBackend orders orders' = .ok result)
    (hlog : ∀ wal, backend.readWal = .ok wal → LogAddsNothing backend.storedCheckpoint wal) :
    result.database.current.IsPositional := by
  have hrest (hwalOnly : backend.coldStartWalOnly orders' = .ok result)
      (hfirst : backend.checkpointExists = true → backend.walExists = true →
        ∃ e, backend.recoverCheckpointPlusWal orders = .error e) :
      result.database.current.IsPositional := by
    rcases coldStartWalOnly_ok hwalOnly with ⟨hexists, hlevel⟩ | rfl
    · obtain ⟨wal, replayed, hwal, hreplay, rfl⟩ := recoverWalOnly_ok hlevel
      refine Database.isPositional_replayWal hreplay ⟨_, rfl⟩ ((hlog wal hwal).all ?_)
      exact not_readable_of_recoverWalOnly hlevel fun hcheckpoint => hfirst hcheckpoint hexists
    · exact ⟨_, rfl⟩
  unfold coldStartWithBackend at h
  cases hdirs : backend.createDirs with
  | error e =>
      rw [hdirs] at h
      cases h
  | ok _ =>
      rw [hdirs] at h
      change (if _ then _ else _) = _ at h
      split at h
      case isTrue hboth =>
          rcases orElseOn_ok h with hlevel | ⟨herr, hnext⟩
          · obtain ⟨bytes, wal, store, replayed, hread, hwal, hload, hreplay, rfl⟩ :=
              recoverCheckpointPlusWal_ok hlevel
            have hstored : backend.storedCheckpoint = some bytes := by
              rw [storedCheckpoint, if_pos hboth.1, hread]
              rfl
            have hadds := hlog wal hwal
            rw [hstored] at hadds
            exact Database.isPositional_replayWal hreplay
              (Store.isPositional_storeFromCheckpointBytes hload) (hadds.after hload)
          · exact hrest hnext fun _ _ => herr
      case isFalse hnotBoth =>
          have hfirst : backend.checkpointExists = true → backend.walExists = true →
              ∃ e, backend.recoverCheckpointPlusWal orders = .error e := fun hcheckpoint hwal =>
            absurd ⟨hcheckpoint, hwal⟩ hnotBoth
          split at h
          case isTrue =>
              rcases orElseOn_ok h with hlevel | ⟨-, hnext⟩
              · obtain ⟨bytes, store, -, hload, rfl⟩ := recoverCheckpointOnly_ok hlevel
                exact Store.isPositional_storeFromCheckpointBytes hload
              · exact hrest hnext hfirst
          case isFalse => exact hrest h hfirst

end StorageBackend

omit [Bincode] in
/-- A wrapped result comes from an outcome that is one. -/
theorem exists_of_toOption_map {α : Type} {outcome : Except FerraError α}
    {wrap : α → ColdStartResult} {result : ColdStartResult}
    (h : outcome.toOption.map wrap = some result) :
    ∃ found, outcome = .ok found ∧ result = wrap found := by
  cases outcome with
  | error e => cases h
  | ok found =>
      cases h
      exact ⟨found, rfl, rfl⟩

/-- A log that adds nothing is cold started into a positional store. -/
theorem isPositional_tryWalOnly {orders : Nat → IterOrder} {wal : Bytes}
    {result : ColdStartResult} (h : tryWalOnly orders wal = some result)
    (hlog : ∀ entry ∈ recoverWalFromReader wal, entry.AddsNothing) :
    result.database.current.IsPositional := by
  obtain ⟨db, hrecover, rfl⟩ := exists_of_toOption_map h
  exact Database.isPositional_recoverFromWal hrecover hlog

/-- The same over a data directory. -/
theorem isPositional_coldStart {dir : DataDir} {orders orders' : Nat → IterOrder}
    {result : ColdStartResult} (h : coldStart orders orders' dir = .ok result)
    (hlog : ∀ wal, dir.wal = some wal → LogAddsNothing dir.checkpoint wal) :
    result.database.current.IsPositional := by
  unfold coldStart at h
  obtain ⟨_, -, h⟩ := bind_eq_ok.mp h
  dsimp only at h
  split at h
  case h_1 found hfound =>
      cases h
      split at hfound
      case h_1 checkpoint wal hcheckpoint hwal =>
          have hadds := hlog wal hwal
          rw [hcheckpoint] at hadds
          rcases Option.or_eq_some_iff.mp hfound with hfirst | ⟨hnone, hnext⟩
          · obtain ⟨db, hrecover, rfl⟩ := exists_of_toOption_map hfirst
            exact Database.isPositional_recover hrecover hadds
          · refine isPositional_tryWalOnly hnext (hadds.all fun bytes store hbytes hload => ?_)
            cases hbytes
            obtain ⟨db, hrecover, -⟩ := exists_of_toOption_map hnext
            obtain ⟨recovered, hok⟩ :=
              Database.recover_of_recoverFromWal orders hload hrecover
            rw [tryCheckpointPlusWal, hok] at hnone
            cases hnone
      case h_2 checkpoint hcheckpoint hwal =>
          obtain ⟨store, hload, rfl⟩ := exists_of_toOption_map hfound
          split
          · exact Store.isPositional_storeFromCheckpointBytes hload
          · exact Store.isPositional_storeFromCheckpointBytes hload
      case h_3 wal hcheckpoint hwal =>
          refine isPositional_tryWalOnly hfound ((hlog wal hwal).all fun bytes _ hbytes => ?_)
          rw [hcheckpoint] at hbytes
          cases hbytes
      case h_4 => cases hfound
  case h_2 =>
      cases hcreate : dir.createWal with
      | error e =>
          rw [hcreate] at h
          cases h
      | ok _ =>
          rw [hcreate] at h
          cases h
          exact ⟨_, rfl⟩

namespace Database

/-- Recovery from a log with one entry whose datoms define no attribute: the store holds them and is
write-active. -/
theorem recoverFromWal_single (orders : Nat → IterOrder) {file payload : Bytes} {epoch : UInt64}
    {datoms : List Datom} (hentries : recoverWalFromReader file = [⟨epoch, payload⟩])
    (hread : Bincode.datoms.deserialize payload = .ok (datoms.map Datom.toWire))
    (hne : datoms ≠ []) (hinert : ∀ d ∈ datoms, Inert d) :
    ∃ db, recoverFromWal orders file = .ok db ∧ db.current.IsOrdMap ∧
      db.current.datomSet = datoms.toFinset := by
  have hok : Store.replayEntry (orders 0) Store.genesis epoch datoms =
      (.ok (), (Store.replayEntry (orders 0) Store.genesis epoch datoms).2) :=
    Prod.ext ((Store.fst_replayEntry _ _ _ _).trans (evolveSchema_inert hinert _ _)) rfl
  have hreplay : replayWal orders 0 Store.genesis [⟨epoch, payload⟩] =
      .ok (Store.replayEntry (orders 0) Store.genesis epoch datoms).2 := by
    rw [replayWal, hread]
    simp only [map_intoTrusted_toWire]
    rw [hok]
    rfl
  refine ⟨build (Store.replayEntry (orders 0) Store.genesis epoch datoms).2
    (some (Log.recover file).2), ?_, Store.isOrdMap_replayEntry _ _ _ hne, ?_⟩
  · have hlog : (Log.recover file).1 = [⟨epoch, payload⟩] := hentries
    rw [recoverFromWal]
    simp only [hlog, hreplay]
  · have hobs := Store.obs_replayEntry (orders 0) Store.genesis epoch datoms
    have hset := congrArg Observation.datomSet hobs
    refine hset.trans ?_
    show (Store.genesis.obs.addDatoms datoms).datomSet = _
    rw [Observation.datomSet_addDatoms]
    show Store.genesis.datomSet ∪ _ = _
    rw [Store.datomSet_genesis, Finset.empty_union]

/-- The states of the runs in which every write is signed over a contiguous store: the database was
opened over a contiguous store or over a log that adds nothing to its checkpoint, or some call has
published a transaction since it was opened. -/
inductive Served : Database → Prop
  | genesis : Served Database.genesis
  | genesisWithWal : Served Database.genesisWithWal
  | fromStore {store : Store} : store.IsPositional → Served (Database.fromStore store)
  | fromStoreWithWal {store : Store} :
      store.IsPositional → Served (Database.fromStoreWithWal store)
  | recoverFromWal {orders : Nat → IterOrder} {file : Bytes} {db : Database} :
      Database.recoverFromWal orders file = .ok db → LogAddsNothing none file → Served db
  | recover {orders : Nat → IterOrder} {checkpoint file : Bytes} {db : Database} :
      Database.recover orders checkpoint file = .ok db → LogAddsNothing (some checkpoint) file →
      Served db
  | coldStartWithBackend {orders orders' : Nat → IterOrder} {backend : StorageBackend}
      {result : ColdStartResult} : backend.coldStartWithBackend orders orders' = .ok result →
      (∀ wal, backend.readWal = .ok wal → LogAddsNothing backend.storedCheckpoint wal) →
      Served result.database
  | coldStart {orders orders' : Nat → IterOrder} {dir : DataDir} {result : ColdStartResult} :
      Ferratomic.coldStart orders orders' dir = .ok result →
      (∀ wal, dir.wal = some wal → LogAddsNothing dir.checkpoint wal) → Served result.database
  | stepped {db : Database} (call : Call) (env : Env) : Served db → Served (db.step call env).2
  | published {db : Database} {call : Call} {env : Env} {receipts : List TxReceipt} :
      (db.step call env).1 = .ok receipts → receipts ≠ [] → Served (db.step call env).2

/-- The store of a served database is positional. -/
theorem Served.isPositional {db : Database} (h : Served db) : db.current.IsPositional := by
  induction h with
  | genesis => exact ⟨_, rfl⟩
  | genesisWithWal => exact ⟨_, rfl⟩
  | fromStore hstore => exact hstore
  | fromStoreWithWal hstore => exact hstore
  | recoverFromWal hrecover hlog =>
      refine isPositional_recoverFromWal hrecover (hlog.all fun bytes _ hbytes => ?_)
      cases hbytes
  | recover hrecover hlog => exact isPositional_recover hrecover hlog
  | coldStartWithBackend hstart hlog =>
      exact StorageBackend.isPositional_coldStartWithBackend hstart hlog
  | coldStart hstart hlog => exact isPositional_coldStart hstart hlog
  | @stepped db call env _ ih =>
      rcases step_isPositional db call env with hpositional | ⟨hsame, -⟩
      · exact hpositional
      · rw [hsame]
        exact ih
  | @published db call env receipts hok hne =>
      rcases step_isPositional db call env with hpositional | ⟨-, hnil⟩
      · exact hpositional
      · exact absurd (hnil receipts hok) hne

/-- The fingerprint that `transact_signed` signs is the commitment to the store exactly when the
store is contiguous or its datoms cancel out, and it is in every state of the runs of `Served`. -/
theorem signed_commitment (db : Database) :
    (db.storeFingerprint = db.current.commitment ↔
      db.current.IsPositional ∨ db.current.commitment = zeroHash) ∧
      (Served db → db.storeFingerprint = db.current.commitment) :=
  ⟨storeFingerprint_eq_iff db, fun h => (storeFingerprint_eq_iff db).mpr (.inl h.isPositional)⟩

end Database

end Openings

namespace Sample

/-- The payload of a log entry that holds one assertion. -/
def assertedPayload : Bytes :=
  Bincode.datom.list.encode [asserted.toWire]

/-- A log with one entry that holds one assertion. -/
def assertedLog : Bytes :=
  frames [⟨1, assertedPayload⟩]

/-- The payload of the sample log reads as its one datom. -/
theorem deserialize_assertedPayload :
    Bincode.datoms.deserialize assertedPayload = .ok ([asserted].map Datom.toWire) := by
  have hattrs : ShortAttrs [asserted] := by
    intro d hd
    have hlength : (utf8Bytes "db/doc").length ≤ maxAttributeBytes := by decide +kernel
    rw [List.mem_singleton.mp hd]
    exact hlength
  obtain ⟨bytes, hserialize, hread⟩ := Bincode.faithful_reference.datoms [asserted] hattrs
  obtain rfl : assertedPayload = bytes := Except.ok.inj hserialize
  exact hread

/-- The sample log has one entry. -/
theorem recoverWalFromReader_assertedLog :
    recoverWalFromReader assertedLog = [⟨1, assertedPayload⟩] := by
  have hfits : ∀ entry ∈ [(⟨1, assertedPayload⟩ : WalEntry)], entry.Fits := by
    intro entry hentry
    have hlength : assertedPayload.length ≤ maxPayloadSize := by decide +kernel
    rw [List.mem_singleton.mp hentry]
    exact hlength
  rw [recoverWalFromReader, assertedLog, parseWalFramesWithPos_frames_eq hfits]

/-- The sample datom changes the fingerprint of the empty store. -/
theorem xorHash_asserted : xorHash zeroHash asserted.contentHash ≠ zeroHash := by
  decide +kernel

/-- A write-active store with one assertion commits to the content hash of the assertion. -/
theorem commitment_of_asserted {store : Store}
    (hset : store.datomSet = [asserted].toFinset) :
    store.commitment = xorHash zeroHash asserted.contentHash := by
  have hdatoms : store.datoms = [asserted] := by
    refine eq_of_toFinset_eq store.repr.pairwise_datoms (List.pairwise_singleton _ _) ?_
    rw [Store.toFinset_datoms, hset]
  rw [Store.commitment, hdatoms]
  rfl

end Sample

open Sample

namespace Database

/-- A database over a contiguous store with one assertion signs the commitment to the store, which
is not that of an empty store. -/
theorem signed_commitment_asserted :
    Served (Database.fromStore (Store.fromDatoms {asserted})) ∧
      (Database.fromStore (Store.fromDatoms {asserted})).storeFingerprint =
        (Database.fromStore (Store.fromDatoms {asserted})).current.commitment ∧
      (Database.fromStore (Store.fromDatoms {asserted})).storeFingerprint ≠ zeroHash := by
  have hserved : Served (Database.fromStore (Store.fromDatoms {asserted})) := .fromStore ⟨_, rfl⟩
  have hsigned := (signed_commitment (Database.fromStore (Store.fromDatoms {asserted}))).2 hserved
  refine ⟨hserved, hsigned, ?_⟩
  rw [hsigned]
  have hcommitment : (Database.fromStore (Store.fromDatoms {asserted})).current.commitment =
      xorHash zeroHash asserted.contentHash :=
    commitment_of_asserted (Store.datomSet_fromDatoms {asserted})
  rw [hcommitment]
  exact xorHash_asserted

/-- A database that is recovered from a log with one assertion signs a fingerprint that is not the
commitment to its store. -/
theorem recovered_log_commitment :
    ∃ db, recoverFromWal (fun _ => .arrival) assertedLog = .ok db ∧
      db.storeFingerprint ≠ db.current.commitment := by
  have hinert : ∀ d ∈ [asserted], Inert d := by
    intro d hd
    rw [List.mem_singleton.mp hd]
    show "db/doc" ≠ "db/ident" ∧ "db/doc" ≠ "db/valueType" ∧ "db/doc" ≠ "db/cardinality"
    decide
  obtain ⟨db, hrecover, hord, hset⟩ := recoverFromWal_single (fun _ => .arrival)
    recoverWalFromReader_assertedLog deserialize_assertedPayload (List.cons_ne_nil _ _) hinert
  refine ⟨db, hrecover, fun hsigned => ?_⟩
  have hzero := ((storeFingerprint_eq_iff db).mp hsigned).resolve_left hord.not_isPositional
  rw [commitment_of_asserted hset] at hzero
  exact xorHash_asserted hzero

end Database

end Ferratomic
