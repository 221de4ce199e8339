import Ferratomic.Checkpoint.LiveFirst
import Ferratomic.Db.Recover

/-!
# Cold start

A cold start tries the checkpoint with the log, then the checkpoint alone, then the log alone, and
opens an empty database when nothing is left. `cold_start_with_backend` decides by the kind of the
error whether to try the next level, and it treats an undecodable log entry as if there were no
checkpoint. The main theorem, `cold_start_keeps_iff`, says exactly when a checkpoint that can be
read survives; `cold_start_drops_checkpoint` is a log that loses one.
-/

namespace Ferratomic

open Lib

section Replay

variable [Blake3] [Bincode]

/-- The payload of an entry cannot be read. -/
def WalEntry.Undecodable (entry : WalEntry) : Prop :=
  ∃ message, Bincode.datoms.deserialize entry.payload = .error message

/-- The payload can be read, and so can the attributes that its entities define. -/
def WalEntry.Replayable (entry : WalEntry) : Prop :=
  ∃ wireDatoms, Bincode.datoms.deserialize entry.payload = .ok wireDatoms ∧
    ∀ group ∈ groupByEntity (wireDatoms.map WireDatom.intoTrusted),
      ∃ found, extractAttributeDef group = .ok found

/-- The first entry that cannot be replayed is one that cannot be read. -/
inductive StopsUndecodable : List WalEntry → Prop
  | here {entry : WalEntry} {rest : List WalEntry} :
      entry.Undecodable → StopsUndecodable (entry :: rest)
  | there {entry : WalEntry} {rest : List WalEntry} :
      entry.Replayable → StopsUndecodable rest → StopsUndecodable (entry :: rest)

omit [Blake3] in
/-- An entry that does not decode is not replayed. -/
theorem WalEntry.Undecodable.not_replayable {entry : WalEntry} (h : entry.Undecodable) :
    ¬entry.Replayable := by
  obtain ⟨message, hbad⟩ := h
  rintro ⟨wireDatoms, hread, -⟩
  rw [hbad] at hread
  cases hread

omit [Blake3] in
/-- A log that stops at such an entry has one. -/
theorem StopsUndecodable.exists_undecodable {entries : List WalEntry}
    (h : StopsUndecodable entries) : ∃ entry ∈ entries, entry.Undecodable := by
  induction h with
  | here hbad => exact ⟨_, List.mem_cons_self, hbad⟩
  | there _ _ ih =>
      obtain ⟨entry, hentry, hbad⟩ := ih
      exact ⟨entry, List.mem_cons_of_mem _ hentry, hbad⟩

namespace Database

/-- What the first entry decides: it cannot be read, it breaks the schema, or it is replayed. -/
theorem replayWal_cons (orders : Nat → IterOrder) (index : Nat) (store : Store) (entry : WalEntry)
    (rest : List WalEntry) :
    (entry.Undecodable ∧
        ∃ message, replayWal orders index store (entry :: rest) = .error (.walRead message)) ∨
      (¬entry.Undecodable ∧ ¬entry.Replayable ∧ ∃ attr expected got,
        replayWal orders index store (entry :: rest) =
          .error (.schemaViolation attr expected got)) ∨
      (entry.Replayable ∧ ∃ wireDatoms next,
        Bincode.datoms.deserialize entry.payload = .ok wireDatoms ∧
          Store.replayEntry (orders index) store entry.epoch
            (wireDatoms.map WireDatom.intoTrusted) = (.ok (), next) ∧
          replayWal orders index store (entry :: rest) =
            replayWal orders (index + 1) next rest) := by
  rw [replayWal]
  -- the payload is decoded first, and the schema evolves before any datom is inserted
  cases hread : Bincode.datoms.deserialize entry.payload with
  | error message => exact .inl ⟨⟨message, hread⟩, message, rfl⟩
  | ok wireDatoms =>
      simp only
      rcases hreplay : Store.replayEntry (orders index) store entry.epoch
          (wireDatoms.map WireDatom.intoTrusted) with ⟨outcome, next⟩
      have hfst := Store.fst_replayEntry (orders index) store entry.epoch
        (wireDatoms.map WireDatom.intoTrusted)
      rw [hreplay] at hfst
      cases outcome with
      | ok _ =>
          refine .inr (.inr ⟨⟨wireDatoms, hread, evolveSchema_ok_iff.mp hfst.symm⟩, ?_⟩)
          exact ⟨wireDatoms, next, rfl, hreplay, rfl⟩
      | error e =>
          obtain ⟨attr, expected, got, rfl⟩ := evolveSchema_error hfst.symm
          refine .inr (.inl ⟨?_, ?_, attr, expected, got, rfl⟩)
          · rintro ⟨message, hbad⟩
            rw [hread] at hbad
            cases hbad
          · rintro ⟨other, hother, hgroups⟩
            rw [hread] at hother
            cases hother
            rw [evolveSchema_ok_iff.mpr hgroups] at hfst
            cases hfst

/-- Replay gives up with a read error exactly at an undecodable entry. -/
theorem replayWal_walRead (orders : Nat → IterOrder) (index : Nat) (store : Store)
    (entries : List WalEntry) :
    (∃ message, replayWal orders index store entries = .error (.walRead message)) ↔
      StopsUndecodable entries := by
  induction entries generalizing index store with
  | nil =>
      constructor
      · rintro ⟨message, h⟩
        cases h
      · rintro ⟨⟩
  | cons entry rest ih =>
      rcases replayWal_cons orders index store entry rest with
        ⟨hbad, herr⟩ | ⟨hread, hnot, attr, expected, got, heq⟩ | ⟨hentry, _, next, -, -, heq⟩
      · exact ⟨fun _ => .here hbad, fun _ => herr⟩
      · rw [heq]
        constructor
        · rintro ⟨message, h⟩
          cases h
        · rintro (hhere | ⟨hentry, -⟩)
          · exact absurd hhere hread
          · exact absurd hentry hnot
      · rw [heq, ih]
        constructor
        · exact .there hentry
        · rintro (hhere | ⟨-, hrest⟩)
          · exact absurd hentry hhere.not_replayable
          · exact hrest

/-- The errors of replay: an undecodable entry or a schema violation. -/
theorem replayWal_error {orders : Nat → IterOrder} {index : Nat} {store : Store}
    {entries : List WalEntry} {e : FerraError}
    (h : replayWal orders index store entries = .error e) :
    (∃ message, e = .walRead message) ∨
      ∃ attr expected got, e = .schemaViolation attr expected got := by
  induction entries generalizing index store with
  | nil => cases h
  | cons entry rest ih =>
      rcases replayWal_cons orders index store entry rest with
        ⟨-, message, heq⟩ | ⟨-, -, attr, expected, got, heq⟩ | ⟨-, _, next, -, -, heq⟩
      · rw [heq] at h
        cases h
        exact .inl ⟨message, rfl⟩
      · rw [heq] at h
        cases h
        exact .inr ⟨attr, expected, got, rfl⟩
      · rw [heq] at h
        exact ih h

/-- Replay succeeds exactly when every entry can be replayed, whatever the store. -/
theorem replayWal_ok_iff {orders : Nat → IterOrder} {index : Nat} {store : Store}
    {entries : List WalEntry} :
    (∃ replayed, replayWal orders index store entries = .ok replayed) ↔
      ∀ entry ∈ entries, entry.Replayable := by
  induction entries generalizing index store with
  | nil => exact ⟨fun _ entry hentry => absurd hentry List.not_mem_nil, fun _ => ⟨store, rfl⟩⟩
  | cons entry rest ih =>
      rw [List.forall_mem_cons]
      rcases replayWal_cons orders index store entry rest with
        ⟨hbad, message, heq⟩ | ⟨-, hnot, attr, expected, got, heq⟩ | ⟨hentry, _, next, -, -, heq⟩
      · rw [heq]
        refine ⟨fun ⟨_, h⟩ => ?_, fun h => absurd h.1 hbad.not_replayable⟩
        cases h
      · rw [heq]
        refine ⟨fun ⟨_, h⟩ => ?_, fun h => absurd h.1 hnot⟩
        cases h
      · rw [heq, ih]
        exact ⟨fun hrest => ⟨hentry, hrest⟩, fun h => h.2⟩

/-- Replaying entries after an epoch keeps the datoms and never goes below the epoch. -/
theorem replayWal_grows {orders : Nat → IterOrder} {index : Nat} {store replayed : Store}
    {entries : List WalEntry} (h : replayWal orders index store entries = .ok replayed)
    {bound : UInt64} (hstore : bound ≤ store.epoch)
    (hentries : ∀ entry ∈ entries, bound ≤ entry.epoch) :
    store.datomSet ⊆ replayed.datomSet ∧ bound ≤ replayed.epoch := by
  induction entries generalizing index store with
  | nil =>
      cases h
      exact ⟨Finset.Subset.refl _, hstore⟩
  | cons entry rest ih =>
      obtain ⟨hentry, hrest⟩ := List.forall_mem_cons.mp hentries
      rcases replayWal_cons orders index store entry rest with
        ⟨-, message, heq⟩ | ⟨-, -, attr, expected, got, heq⟩ |
          ⟨-, wireDatoms, next, -, hreplay, heq⟩
      · rw [heq] at h
        cases h
      · rw [heq] at h
        cases h
      · rw [heq] at h
        have hobs := Store.obs_replayEntry (orders index) store entry.epoch
          (wireDatoms.map WireDatom.intoTrusted)
        rw [hreplay] at hobs
        have hepoch : next.epoch = entry.epoch := congrArg Observation.epoch hobs
        have hset : next.datomSet = _ := congrArg Observation.datomSet hobs
        obtain ⟨hsub, hbound⟩ := ih h (hepoch.symm ▸ hentry) hrest
        refine ⟨subset_trans ?_ hsub, hbound⟩
        rw [hset]
        show store.obs.datomSet ⊆ (store.obs.addDatoms _).datomSet
        rw [Observation.datomSet_addDatoms]
        exact Finset.subset_union_left

end Database

end Replay

section Cascade

variable [Blake3] [Bincode]

/-- `StorageBackend`, as what its methods answer during a cold start: whether the files exist and
what opening and reading them to the end gives. -/
structure StorageBackend where
  createDirs : Except FerraError Unit
  checkpointExists : Bool
  readCheckpoint : Except FerraError Bytes
  walExists : Bool
  readWal : Except FerraError Bytes

/-- `RecoveryLevel` -/
inductive RecoveryLevel where
  | checkpointPlusWal
  | checkpointOnly
  | walOnly
  | genesis
  deriving DecidableEq, Repr

/-- `ColdStartResult` -/
structure ColdStartResult where
  database : Database
  level : RecoveryLevel

/-- `recover_wal_from_reader` on an opened log. -/
def recoverWalFromReader (bytes : Bytes) : List WalEntry :=
  (parseWalFramesWithPos bytes).1

namespace StorageBackend

/-- `recover_checkpoint_plus_wal` -/
def recoverCheckpointPlusWal (orders : Nat → IterOrder) (backend : StorageBackend) :
    Except FerraError ColdStartResult := do
  let store ← storeFromCheckpointBytes (← backend.readCheckpoint)
  let entries := recoverWalFromReader (← backend.readWal)
  let store ← Database.replayWal orders 0 store
    (entries.filter fun entry => store.epoch < entry.epoch)
  return ⟨Database.fromStore store, .checkpointPlusWal⟩

/-- `recover_checkpoint_only` -/
def recoverCheckpointOnly (backend : StorageBackend) : Except FerraError ColdStartResult := do
  let store ← storeFromCheckpointBytes (← backend.readCheckpoint)
  return ⟨Database.fromStore store, .checkpointOnly⟩

/-- `recover_wal_only` -/
def recoverWalOnly (orders : Nat → IterOrder) (backend : StorageBackend) :
    Except FerraError ColdStartResult := do
  let entries := recoverWalFromReader (← backend.readWal)
  let store ← Database.replayWal orders 0 Store.genesis entries
  return ⟨Database.fromStore store, .walOnly⟩

/-- A level of the cascade: only the listed errors try the next one. -/
def orElseOn (fallThrough : FerraError → Bool) (level : Except FerraError ColdStartResult)
    (next : Except FerraError ColdStartResult) : Except FerraError ColdStartResult :=
  match level with
  | .ok result => .ok result
  | .error e => if fallThrough e then next else .error e

/-- `FerraError::CheckpointCorrupted` -/
def isCheckpointCorrupted : FerraError → Bool
  | .checkpointCorrupted _ _ => true
  | _ => false

/-- `FerraError::WalRead` -/
def isWalRead : FerraError → Bool
  | .walRead _ => true
  | _ => false

/-- The last levels of the cascade: the log alone, then an empty database. -/
def coldStartWalOnly (orders : Nat → IterOrder) (backend : StorageBackend) :
    Except FerraError ColdStartResult :=
  let genesis : Except FerraError ColdStartResult := .ok ⟨Database.genesis, .genesis⟩
  if backend.walExists then orElseOn isWalRead (backend.recoverWalOnly orders) genesis
  else genesis

/-- `cold_start_with_backend`: the cascade. The two replays iterate their hash maps in orders of
their own. -/
def coldStartWithBackend (orders orders' : Nat → IterOrder) (backend : StorageBackend) :
    Except FerraError ColdStartResult := do
  backend.createDirs
  if backend.checkpointExists ∧ backend.walExists then
    orElseOn (fun e => isCheckpointCorrupted e || isWalRead e)
      (backend.recoverCheckpointPlusWal orders) (backend.coldStartWalOnly orders')
  else if backend.checkpointExists ∧ ! backend.walExists then
    orElseOn isCheckpointCorrupted backend.recoverCheckpointOnly
      (backend.coldStartWalOnly orders')
  else backend.coldStartWalOnly orders'

end StorageBackend

/-- A data directory, as what a cold start finds there: the two files, and what creating the
directory and a new log gives. A log is never created over another one. -/
structure DataDir where
  createDirAll : Except FerraError Unit
  checkpoint : Option Bytes
  wal : Option Bytes
  createWal : Except FerraError Unit
  createNew : wal.isSome → createWal ≠ .ok ()

/-- `try_checkpoint_plus_wal` -/
def tryCheckpointPlusWal (orders : Nat → IterOrder) (checkpoint wal : Bytes) :
    Option ColdStartResult :=
  (Database.recover orders checkpoint wal).toOption.map fun db => ⟨db, .checkpointPlusWal⟩

/-- `try_checkpoint_only`: without a new log the database has none. -/
def tryCheckpointOnly (createWal : Except FerraError Unit) (checkpoint : Bytes) :
    Option ColdStartResult :=
  (storeFromCheckpointBytes checkpoint).toOption.map fun store =>
    match createWal with
    | .ok () => ⟨Database.fromStoreWithWal store, .checkpointOnly⟩
    | .error _ => ⟨Database.fromStore store, .checkpointOnly⟩

/-- `try_wal_only` -/
def tryWalOnly (orders : Nat → IterOrder) (wal : Bytes) : Option ColdStartResult :=
  (Database.recoverFromWal orders wal).toOption.map fun db => ⟨db, .walOnly⟩

/-- `cold_start`: the cascade over a data directory, in which every error of a level tries the
next one. -/
def coldStart (orders orders' : Nat → IterOrder) (dir : DataDir) :
    Except FerraError ColdStartResult := do
  dir.createDirAll
  let found :=
    match dir.checkpoint, dir.wal with
    | some checkpoint, some wal =>
        (tryCheckpointPlusWal orders checkpoint wal).or (tryWalOnly orders' wal)
    | some checkpoint, none => tryCheckpointOnly dir.createWal checkpoint
    | none, some wal => tryWalOnly orders' wal
    | none, none => none
  match found with
  | some result => return result
  | none =>
      dir.createWal
      return ⟨Database.genesisWithWal, .genesis⟩

/-- The outcome of a cold start loses nothing of a checkpoint: it is an error, or a database with
all its datoms and an epoch that is not below its. -/
def KeepsCheckpoint (checkpoint : Store) (outcome : Except FerraError ColdStartResult) : Prop :=
  ∀ result, outcome = .ok result →
    checkpoint.datomSet ⊆ result.database.current.datomSet ∧
      checkpoint.epoch ≤ result.database.current.epoch

omit [Bincode] in
/-- An error loses nothing of the checkpoint. -/
theorem keepsCheckpoint_error (checkpoint : Store) (e : FerraError) :
    KeepsCheckpoint checkpoint (.error e) := by
  intro result h
  cases h

omit [Bincode] in
/-- A result keeps the checkpoint when it has its datoms and reaches its epoch. -/
theorem keepsCheckpoint_ok {checkpoint : Store} {result : ColdStartResult} :
    KeepsCheckpoint checkpoint (.ok result) ↔
      checkpoint.datomSet ⊆ result.database.current.datomSet ∧
        checkpoint.epoch ≤ result.database.current.epoch := by
  constructor
  · intro h
    exact h result rfl
  · rintro h _ ⟨⟩
    exact h

omit [Bincode] in
/-- An empty database keeps only a checkpoint that holds nothing. -/
theorem keepsCheckpoint_genesis {checkpoint : Store} :
    KeepsCheckpoint checkpoint (.ok ⟨Database.genesis, .genesis⟩) ↔
      checkpoint.datomSet = ∅ ∧ checkpoint.epoch = 0 := by
  rw [keepsCheckpoint_ok]
  show checkpoint.datomSet ⊆ Store.genesis.datomSet ∧ checkpoint.epoch ≤ 0 ↔ _
  rw [Store.datomSet_genesis, Finset.subset_empty]
  refine and_congr_right fun _ => ⟨fun hle => ?_, fun hzero => hzero.le⟩
  have hnat : checkpoint.epoch.toNat ≤ 0 := UInt64.le_iff_toNat_le.mp hle
  exact UInt64.toNat_inj.mp (Nat.le_zero.mp hnat)

namespace StorageBackend

variable {backend : StorageBackend} {bytes wal : Bytes} {checkpoint : Store}

/-- The checkpoint with the log, when both files can be read. -/
theorem recoverCheckpointPlusWal_eq (hread : backend.readCheckpoint = .ok bytes)
    (hload : storeFromCheckpointBytes bytes = .ok checkpoint)
    (hwal : backend.readWal = .ok wal) (orders : Nat → IterOrder) :
    backend.recoverCheckpointPlusWal orders =
      (Database.replayWal orders 0 checkpoint ((recoverWalFromReader wal).filter fun entry =>
        checkpoint.epoch < entry.epoch)).map fun store =>
          ⟨Database.fromStore store, .checkpointPlusWal⟩ := by
  rw [recoverCheckpointPlusWal, hread]
  show (storeFromCheckpointBytes bytes >>= _) = _
  rw [hload, hwal]
  rfl

/-- The checkpoint alone, when it can be read. -/
theorem recoverCheckpointOnly_eq (hread : backend.readCheckpoint = .ok bytes)
    (hload : storeFromCheckpointBytes bytes = .ok checkpoint) :
    backend.recoverCheckpointOnly = .ok ⟨Database.fromStore checkpoint, .checkpointOnly⟩ := by
  rw [recoverCheckpointOnly, hread]
  show (storeFromCheckpointBytes bytes >>= _) = _
  rw [hload]
  rfl

/-- The log-only level replays the log over the genesis store. -/
theorem recoverWalOnly_eq (hwal : backend.readWal = .ok wal) (orders : Nat → IterOrder) :
    backend.recoverWalOnly orders =
      (Database.replayWal orders 0 Store.genesis (recoverWalFromReader wal)).map fun store =>
        ⟨Database.fromStore store, .walOnly⟩ := by
  rw [recoverWalOnly, hwal]
  rfl

/-- A log that holds an undecodable entry is never recovered: the levels below give an empty
database or an error. -/
theorem coldStartWalOnly_undecodable (hexists : backend.walExists = true)
    (hwal : backend.readWal = .ok wal) {entry : WalEntry}
    (hentry : entry ∈ recoverWalFromReader wal) (hbad : entry.Undecodable)
    (orders : Nat → IterOrder) :
    (StopsUndecodable (recoverWalFromReader wal) ∧
        backend.coldStartWalOnly orders = .ok ⟨Database.genesis, .genesis⟩) ∨
      (¬StopsUndecodable (recoverWalFromReader wal) ∧
        ∃ e, backend.coldStartWalOnly orders = .error e) := by
  simp only [coldStartWalOnly, hexists, if_true, recoverWalOnly_eq hwal]
  cases hreplay : Database.replayWal orders 0 Store.genesis (recoverWalFromReader wal) with
  | ok store =>
      have hreplayable := Database.replayWal_ok_iff.mp ⟨store, hreplay⟩ entry hentry
      exact absurd hreplayable hbad.not_replayable
  | error e =>
      rcases Database.replayWal_error hreplay with ⟨message, rfl⟩ | ⟨attr, expected, got, rfl⟩
      · exact .inl ⟨(Database.replayWal_walRead ..).mp ⟨message, hreplay⟩, rfl⟩
      · refine .inr ⟨fun hstops => ?_, _, rfl⟩
        obtain ⟨message, herr⟩ :=
          (Database.replayWal_walRead orders 0 Store.genesis _).mpr hstops
        rw [hreplay] at herr
        cases herr

/-- An undecodable entry after the checkpoint sends the cascade to the log alone. -/
theorem coldStartWithBackend_undecodable (hdirs : backend.createDirs = .ok ())
    (hexists : backend.checkpointExists = true) (hread : backend.readCheckpoint = .ok bytes)
    (hload : storeFromCheckpointBytes bytes = .ok checkpoint) (hlog : backend.walExists = true)
    (hwal : backend.readWal = .ok wal)
    (hafter : StopsUndecodable ((recoverWalFromReader wal).filter fun entry =>
      checkpoint.epoch < entry.epoch)) (orders orders' : Nat → IterOrder) :
    backend.coldStartWithBackend orders orders' = backend.coldStartWalOnly orders' := by
  obtain ⟨message, herr⟩ := (Database.replayWal_walRead orders 0 checkpoint _).mpr hafter
  have hlevel : backend.recoverCheckpointPlusWal orders = .error (.walRead message) := by
    rw [recoverCheckpointPlusWal_eq hread hload hwal, herr]
    rfl
  rw [coldStartWithBackend, hdirs]
  simp only [hexists, hlog, hlevel]
  rfl

/-- Without an undecodable entry after it, the checkpoint survives. -/
theorem keepsCheckpoint_of_not_undecodable (hexists : backend.checkpointExists = true)
    (hread : backend.readCheckpoint = .ok bytes)
    (hload : storeFromCheckpointBytes bytes = .ok checkpoint)
    (hwal : backend.walExists = true → backend.readWal = .ok wal)
    (hnot : ¬(backend.createDirs = .ok () ∧ backend.walExists = true ∧
      StopsUndecodable ((recoverWalFromReader wal).filter fun entry =>
        checkpoint.epoch < entry.epoch))) (orders orders' : Nat → IterOrder) :
    KeepsCheckpoint checkpoint (backend.coldStartWithBackend orders orders') := by
  unfold coldStartWithBackend
  cases hdirs : backend.createDirs with
  | error e => exact keepsCheckpoint_error checkpoint e
  | ok _ =>
      simp only [hexists]
      cases hlog : backend.walExists with
      | false =>
          show KeepsCheckpoint checkpoint (orElseOn _ backend.recoverCheckpointOnly _)
          rw [recoverCheckpointOnly_eq hread hload]
          exact keepsCheckpoint_ok.mpr ⟨Finset.Subset.refl _, le_refl _⟩
      | true =>
          show KeepsCheckpoint checkpoint (orElseOn _ (backend.recoverCheckpointPlusWal orders)
            (backend.coldStartWalOnly orders'))
          rw [recoverCheckpointPlusWal_eq hread hload (hwal hlog)]
          cases hreplay : Database.replayWal orders 0 checkpoint
              ((recoverWalFromReader wal).filter fun entry => checkpoint.epoch < entry.epoch) with
          | ok store =>
              refine keepsCheckpoint_ok.mpr (Database.replayWal_grows hreplay (le_refl _) ?_)
              intro entry hentry
              exact (of_decide_eq_true (List.mem_filter.mp hentry).2).le
          | error e =>
              -- the recovery goes on without the checkpoint only at an undecodable entry
              rcases Database.replayWal_error hreplay with
                ⟨message, rfl⟩ | ⟨attr, expected, got, rfl⟩
              · exact absurd ⟨hdirs, hlog, (Database.replayWal_walRead ..).mp ⟨message, hreplay⟩⟩
                  hnot
              · exact keepsCheckpoint_error _ _

/-- A checkpoint that can be read survives the cold start exactly when no undecodable entry of the
log sends the cascade past it, or there is nothing in it. -/
theorem cold_start_keeps_iff (orders orders' : Nat → IterOrder)
    (hexists : backend.checkpointExists = true) (hread : backend.readCheckpoint = .ok bytes)
    (hload : storeFromCheckpointBytes bytes = .ok checkpoint)
    (hwal : backend.walExists = true → backend.readWal = .ok wal) :
    KeepsCheckpoint checkpoint (backend.coldStartWithBackend orders orders') ↔
      (backend.createDirs = .ok () → backend.walExists = true →
        StopsUndecodable ((recoverWalFromReader wal).filter fun entry =>
          checkpoint.epoch < entry.epoch) →
        StopsUndecodable (recoverWalFromReader wal) →
        checkpoint.datomSet = ∅ ∧ checkpoint.epoch = 0) := by
  by_cases hundecodable : backend.createDirs = .ok () ∧ backend.walExists = true ∧
      StopsUndecodable ((recoverWalFromReader wal).filter fun entry =>
        checkpoint.epoch < entry.epoch)
  · obtain ⟨hdirs, hlog, hafter⟩ := hundecodable
    obtain ⟨entry, hentry, hbad⟩ := hafter.exists_undecodable
    rw [coldStartWithBackend_undecodable hdirs hexists hread hload hlog (hwal hlog) hafter]
    rcases coldStartWalOnly_undecodable hlog (hwal hlog) (List.mem_of_mem_filter hentry) hbad
        orders' with ⟨hall, heq⟩ | ⟨hnot, e, heq⟩
    · rw [heq, keepsCheckpoint_genesis]
      exact ⟨fun h _ _ _ _ => h, fun h => h hdirs hlog hafter hall⟩
    · rw [heq]
      exact ⟨fun _ _ _ _ hall => absurd hall hnot, fun _ => keepsCheckpoint_error _ e⟩
  · refine ⟨fun _ hdirs hlog hafter => absurd ⟨hdirs, hlog, hafter⟩ hundecodable, fun _ => ?_⟩
    exact keepsCheckpoint_of_not_undecodable hexists hread hload hwal hundecodable orders orders'

end StorageBackend

end Cascade

namespace Sample

/-- A log with one whole frame whose payload is no list of datoms. -/
def undecodableLog (epoch : UInt64) : Bytes :=
  frames [⟨epoch, []⟩]

/-- A backend that holds a checkpoint and a log. -/
def holding (bytes wal : Bytes) : StorageBackend :=
  ⟨.ok (), true, .ok bytes, true, .ok wal⟩

/-- The sample log has one entry, without a payload. -/
theorem recoverWalFromReader_undecodableLog (epoch : UInt64) :
    recoverWalFromReader (undecodableLog epoch) = [⟨epoch, []⟩] := by
  have hfits : ∀ entry ∈ [(⟨epoch, []⟩ : WalEntry)], entry.Fits := by
    intro entry hentry
    rw [List.mem_singleton.mp hentry]
    exact Nat.zero_le _
  rw [recoverWalFromReader, undecodableLog, parseWalFramesWithPos_frames_eq hfits]

/-- An entry without a payload does not decode. -/
theorem undecodable_nil (epoch : UInt64) : (⟨epoch, []⟩ : WalEntry).Undecodable :=
  ⟨_, rfl⟩

/-- The checkpoint of a store with one assertion is written and read. -/
theorem exists_checkpoint :
    ∃ bytes, serializeCheckpointBytes .v3 (extractCheckpointData (Store.fromDatoms {asserted})) =
        .ok bytes ∧
      storeFromCheckpointBytes bytes = .ok (Store.fromDatoms {asserted}).reloaded := by
  have hattr : ∀ d ∈ ({asserted} : Finset Datom), d.attr = "db/doc" := by
    intro d hd
    rw [Finset.mem_singleton.mp hd]
    rfl
  refine Store.storeFromCheckpointBytes_eq Bincode.faithful_reference
    (Store.Reachable.fromDatoms {asserted}).exact (Store.shortAttrs_fromDatoms hattr) ?_ .v3
  rw [Store.datomSet_fromDatoms, Finset.card_singleton]
  decide

end Sample

open Sample

namespace StorageBackend

/-- An undecodable entry that the checkpoint covers does no harm. -/
theorem cold_start_keeps_covered :
    ∃ bytes, serializeCheckpointBytes .v3 (extractCheckpointData (Store.fromDatoms {asserted})) =
        .ok bytes ∧
      storeFromCheckpointBytes bytes = .ok (Store.fromDatoms {asserted}).reloaded ∧
      ∀ orders orders', KeepsCheckpoint (Store.fromDatoms {asserted}).reloaded
        ((holding bytes (undecodableLog 0)).coldStartWithBackend orders orders') := by
  obtain ⟨bytes, hserialize, hload⟩ := exists_checkpoint
  refine ⟨bytes, hserialize, hload, fun orders orders' => ?_⟩
  refine (cold_start_keeps_iff orders orders' rfl rfl hload fun _ => rfl).mpr ?_
  intro _ _ hafter
  rw [recoverWalFromReader_undecodableLog] at hafter
  cases hafter

/-- An undecodable entry after the checkpoint: the cold start succeeds and the assertion of the
checkpoint is gone. -/
theorem cold_start_drops_checkpoint :
    ∃ bytes, serializeCheckpointBytes .v3 (extractCheckpointData (Store.fromDatoms {asserted})) =
        .ok bytes ∧
      storeFromCheckpointBytes bytes = .ok (Store.fromDatoms {asserted}).reloaded ∧
      ∀ orders orders', ¬KeepsCheckpoint (Store.fromDatoms {asserted}).reloaded
        ((holding bytes (undecodableLog 1)).coldStartWithBackend orders orders') := by
  obtain ⟨bytes, hserialize, hload⟩ := exists_checkpoint
  refine ⟨bytes, hserialize, hload, fun orders orders' => ?_⟩
  have hentries := recoverWalFromReader_undecodableLog 1
  have hafter : StopsUndecodable ((recoverWalFromReader (undecodableLog 1)).filter fun entry =>
      (Store.fromDatoms {asserted}).reloaded.epoch < entry.epoch) := by
    rw [hentries]
    exact .here (undecodable_nil 1)
  rw [coldStartWithBackend_undecodable rfl rfl rfl hload rfl rfl hafter]
  have hmem : (⟨1, []⟩ : WalEntry) ∈ recoverWalFromReader (undecodableLog 1) := by
    rw [hentries]
    exact List.mem_cons_self
  have hlog : (holding bytes (undecodableLog 1)).walExists = true := rfl
  rcases coldStartWalOnly_undecodable hlog rfl hmem (undecodable_nil 1) orders' with
    ⟨-, heq⟩ | ⟨hnot, -⟩
  · rw [heq, keepsCheckpoint_genesis, Store.datomSet_reloaded, Store.datomSet_fromDatoms]
    exact fun h => Finset.singleton_ne_empty asserted h.1
  · rw [hentries] at hnot
    exact absurd (.here (undecodable_nil 1)) hnot

end StorageBackend

end Ferratomic
