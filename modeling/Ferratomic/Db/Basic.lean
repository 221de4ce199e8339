import Ferratomic.Clock
import Ferratomic.Wal.Recovery
import Ferratomic.Wire
import Ferratomic.Store.Reachable
import Ferratomic.Store.Stamped

/-!
# The database

A database publishes a store and, when it has a log, writes every transaction to it before
publishing. A call stages its transactions on a copy of the published store, writes one log
entry for each of them and then publishes the copy. The model is that of one caller at a time,
so the write lock and the backpressure limiter never refuse; observers, which are notified after
the commit, are left out.

What the outside world contributes to a call is its `Env`: the readings of the wall clock, the
iteration orders of the hash maps and the outcomes of the disk. The main theorems say what the
staging of a call prepares (`stage_ok`) and what writing an entry of the log can do
(`writeWal_cases`).
-/

namespace Ferratomic

open Lib

/-- `Frontier::advance`: keep the greater identifier of a node. -/
def Frontier.advance (frontier : Frontier) (node : NodeId) (txId : TxId) : Frontier :=
  match frontier[node]? with
  | none => frontier.insert node txId
  | some known => if known < txId then frontier.insert node txId else frontier

/-- An Ed25519 signing key, as the verifying key and the signatures it makes. -/
structure SigningKey where
  verifyingKey : TxSigner
  sign : Bytes → TxSignature

/-- What the outside world contributes to one call: the wall clock readings of each clock tick,
the hash map iteration order of each transaction, and the outcomes of the writes and syncs of
the log in order. -/
structure Env where
  now : Nat → Nat → UInt64
  order : Nat → IterOrder
  write : Nat → WriteOutcome
  sync : Nat → Except String Unit

section Signing

variable [Blake3]

/-- `SigningComponents` -/
structure SigningComponents where
  datoms : List Datom
  txId : TxId
  predecessorEntityIds : List EntityId
  storeFingerprint : Hash

/-- `signing_message`: the hash of the sorted user datoms, the transaction identifier, the sorted
predecessors, the fingerprint and the signer. -/
def signingMessage (components : SigningComponents) (signerPk : TxSigner) : Bytes :=
  let user := (components.datoms.filter fun d => ! d.attr.startsWith "tx/").insertionSort (· ≤ ·)
  let preds := components.predecessorEntityIds.insertionSort (· ≤ ·)
  (Blake3.hash (user.flatMap Datom.signingFields ++ components.txId.canonicalBytes ++
    preds.flatMap (fun eid => eid.val) ++ components.storeFingerprint.val ++ signerPk.val)).val

/-- `sign_transaction` -/
def signTransaction (components : SigningComponents) (key : SigningKey) :
    TxSignature × TxSigner :=
  (key.sign (signingMessage components key.verifyingKey), key.verifyingKey)

end Signing

/-- A call of the write interface. -/
inductive Call where
  | transact (transaction : Transaction)
  | transactSigned (transaction : Transaction) (key : SigningKey)
  | batchTransact (transactions : List Transaction)

/-- The transactions of a call. -/
def Call.transactions : Call → List Transaction
  | transact transaction => [transaction]
  | transactSigned transaction _ => [transaction]
  | batchTransact transactions => transactions

variable [Blake3]

/-- The database. -/
structure Database where
  current : Store
  wal : Option Log
  clock : HybridClock
  frontier : Frontier

/-- What a call has prepared before it writes the log: the receipts, the store to publish and
the frontier afterwards. -/
structure Staged where
  receipts : List TxReceipt
  store : Store
  frontier : Frontier

namespace Database

/-- `build`: a database over a store, with a fresh clock and an empty frontier. -/
def build (store : Store) (wal : Option Log) : Database :=
  ⟨store, wal, HybridClock.new store.genesisNode, ∅⟩

/-- `genesis`: a genesis store without a log. -/
def genesis : Database :=
  build Store.genesis none

/-- `from_store`: an existing store without a log. -/
def fromStore (store : Store) : Database :=
  build store none

/-- `genesis_with_wal` -/
def genesisWithWal : Database :=
  build Store.genesis (some Log.create)

/-- `from_store_with_wal` -/
def fromStoreWithWal (store : Store) : Database :=
  build store (some Log.create)

/-- The fingerprint of the published store; a write-active store has none. -/
def storeFingerprint (db : Database) : Hash :=
  match db.current.repr with
  | .positional ps => ps.fingerprint
  | .ordMap _ _ => zeroHash

/-- The first half of `transact` and `transact_signed`: tick the clock and apply the transaction
to a copy of the store. The signature is made from the identifier that the tick issued. -/
def stageTransact (db : Database) (env : Env) (transaction : Transaction)
    (sign : TxId → Option (TxSignature × TxSigner)) : Except FerraError Staged × HybridClock :=
  match db.clock.tick (env.now 0) with
  | (.error e, clock) => (.error e, clock)
  | (.ok txId, clock) =>
      match Store.transact (env.order 0) db.current transaction
        ⟨txId, some db.frontier, sign txId, .observed⟩ with
      | (.error e, _) => (.error e, clock)
      | (.ok receipt, store) =>
          (.ok ⟨[receipt], store, db.frontier.advance txId.node txId⟩, clock)

/-- The signature of `transact_signed`. -/
def signFor (db : Database) (transaction : Transaction) (key : SigningKey) (txId : TxId) :
    Option (TxSignature × TxSigner) :=
  let preds := db.frontier.toList.map fun entry => txEntityFromTxid entry.2
  some (signTransaction ⟨transaction.datoms, txId, preds, db.storeFingerprint⟩ key)

/-- The clock ticks of `batch_transact`, one for each transaction. -/
def tickBatches (clock : HybridClock) (env : Env) (index : Nat) :
    List Transaction → Except FerraError (List (List Datom × TxId)) × HybridClock
  | [] => (.ok [], clock)
  | transaction :: rest =>
      match clock.tick (env.now index) with
      | (.error e, clock) => (.error e, clock)
      | (.ok txId, clock) =>
          match tickBatches clock env (index + 1) rest with
          | (.error e, clock) => (.error e, clock)
          | (.ok batches, clock) => (.ok ((transaction.datoms, txId) :: batches), clock)

/-- The first half of `batch_transact`; an empty batch does nothing. The frontier stays as it
is. -/
def stageBatch (db : Database) (env : Env) (transactions : List Transaction) :
    Except FerraError Staged × HybridClock :=
  if transactions.isEmpty then (.ok ⟨[], db.current, db.frontier⟩, db.clock)
  else
    match tickBatches db.clock env 0 transactions with
    | (.error e, clock) => (.error e, clock)
    | (.ok batches, clock) =>
        match Store.batchSpliceTransact env.order db.current batches with
        | (.error e, _) => (.error e, clock)
        | (.ok receipts, store) => (.ok ⟨receipts, store, db.frontier⟩, clock)

variable [Bincode]

/-- `write_wal`: append an entry and sync. -/
def writeWal (db : Database) (write : WriteOutcome) (sync : Except String Unit)
    (receipt : TxReceipt) : Except FerraError Unit × Database :=
  match db.wal with
  | none => (.ok (), db)
  | some wal =>
      match Bincode.datoms.serialize receipt.datoms with
      | .error message => (.error (.walWrite message), db)
      | .ok payload =>
          match wal.appendRaw write receipt.epoch payload with
          | (.error e, wal) => (.error e, { db with wal := some wal })
          | (.ok (), wal) =>
              let synced := wal.fsync sync
              (synced.1, { db with wal := some synced.2 })

/-- The loop that writes an entry for each receipt and stops at the first failure. -/
def writeWalAll (db : Database) (env : Env) (index : Nat) :
    List TxReceipt → Except FerraError Unit × Database
  | [] => (.ok (), db)
  | receipt :: rest =>
      match db.writeWal (env.write index) (env.sync index) receipt with
      | (.error e, db) => (.error e, db)
      | (.ok (), db) => db.writeWalAll env (index + 1) rest

/-- The second half of every call: write the log, then publish. -/
def commitStaged (db : Database) (env : Env) (staged : Except FerraError Staged × HybridClock) :
    Except FerraError (List TxReceipt) × Database :=
  match staged with
  | (.error e, clock) => (.error e, { db with clock := clock })
  | (.ok staged, clock) =>
      match ({ db with clock := clock } : Database).writeWalAll env 0 staged.receipts with
      | (.error e, db) => (.error e, db)
      | (.ok (), db) =>
          (.ok staged.receipts, { db with current := staged.store, frontier := staged.frontier })

/-- `transact`; the receipt is returned in a list. -/
def transact (db : Database) (env : Env) (transaction : Transaction) :
    Except FerraError (List TxReceipt) × Database :=
  db.commitStaged env (db.stageTransact env transaction fun _ => none)

/-- `transact_signed`; the receipt is returned in a list. -/
def transactSigned (db : Database) (env : Env) (transaction : Transaction) (key : SigningKey) :
    Except FerraError (List TxReceipt) × Database :=
  db.commitStaged env (db.stageTransact env transaction (db.signFor transaction key))

/-- `batch_transact` -/
def batchTransact (db : Database) (env : Env) (transactions : List Transaction) :
    Except FerraError (List TxReceipt) × Database :=
  db.commitStaged env (db.stageBatch env transactions)

/-- The staging of a call. -/
def stage (db : Database) (env : Env) : Call → Except FerraError Staged × HybridClock
  | .transact transaction => db.stageTransact env transaction fun _ => none
  | .transactSigned transaction key => db.stageTransact env transaction (db.signFor transaction key)
  | .batchTransact transactions => db.stageBatch env transactions

/-- One call. -/
def step (db : Database) (call : Call) (env : Env) :
    Except FerraError (List TxReceipt) × Database :=
  match call with
  | .transact transaction => db.transact env transaction
  | .transactSigned transaction key => db.transactSigned env transaction key
  | .batchTransact transactions => db.batchTransact env transactions

/-- A sequence of calls, with the result of each. -/
def run (db : Database) : List (Call × Env) → List (Except FerraError (List TxReceipt)) × Database
  | [] => ([], db)
  | (call, env) :: rest =>
      let stepped := db.step call env
      let later := stepped.2.run rest
      (stepped.1 :: later.1, later.2)

end Database

/-- What the staging of a call prepares. -/
structure Staged.Of (staged : Staged) (db : Database) (transactions : List Transaction) : Prop where
  stamped : ∀ receipt ∈ staged.receipts, ∃ transaction ∈ transactions, Stamped transaction receipt
  commits : Commits db.current.obs staged.receipts staged.store.obs
  reachable : Store.Reachable db.current → Store.Reachable staged.store

namespace Database

variable {db : Database} {env : Env}

/-- A staged transaction is staged of the published store. -/
theorem stageTransact_ok {transaction : Transaction}
    {sign : TxId → Option (TxSignature × TxSigner)} {staged : Staged} {clock : HybridClock}
    (h : db.stageTransact env transaction sign = (.ok staged, clock)) :
    staged.Of db [transaction] := by
  unfold stageTransact at h
  split at h
  case h_1 => cases h
  case h_2 txId clock' htick =>
      split at h
      case h_1 => cases h
      case h_2 receipt store htransact =>
          cases h
          obtain ⟨hdatoms, hcommits⟩ := Store.transact_ok (congrArg Prod.fst htransact)
          rw [htransact] at hcommits
          refine ⟨?_, hcommits, fun hreachable => ?_⟩
          · intro other hother
            rw [List.mem_singleton.mp hother]
            exact ⟨transaction, List.mem_singleton.mpr rfl, txId, _, hdatoms,
              fun d hd => attr_mem_metadataAttributes hd⟩
          · have hreached := hreachable.transact (env.order 0) transaction
              ⟨txId, some db.frontier, sign txId, .observed⟩
            rwa [htransact] at hreached

omit [Blake3] in
/-- The batches are the datoms of the transactions with the identifiers that the ticks issued. -/
theorem map_fst_tickBatches {clock : HybridClock} {index : Nat}
    {transactions : List Transaction} {batches : List (List Datom × TxId)}
    (h : (tickBatches clock env index transactions).1 = .ok batches) :
    batches.map Prod.fst = transactions.map Transaction.datoms := by
  fun_induction tickBatches clock env index transactions generalizing batches with
  | case1 =>
      cases h
      rfl
  | case2 => cases h
  | case3 => cases h
  | case4 clock index transaction rest txId clock' htick batches' clock'' hrest ih =>
      cases h
      rw [List.map_cons, List.map_cons, ih (by rw [hrest])]

/-- A staged batch is staged of the published store. -/
theorem stageBatch_ok {transactions : List Transaction} {staged : Staged} {clock : HybridClock}
    (h : db.stageBatch env transactions = (.ok staged, clock)) : staged.Of db transactions := by
  unfold stageBatch at h
  split at h
  case isTrue =>
      cases h
      exact ⟨fun receipt hreceipt => absurd hreceipt List.not_mem_nil, .refl _, id⟩
  case isFalse =>
      split at h
      case h_1 => cases h
      case h_2 batches clock' hticks =>
          split at h
          case h_1 => cases h
          case h_2 receipts store hsplice =>
              cases h
              obtain ⟨hdatoms, hcommits⟩ :=
                Store.batchSpliceTransact_ok (congrArg Prod.fst hsplice)
              rw [hsplice] at hcommits
              refine ⟨?_, hcommits, fun hreachable => ?_⟩
              · intro receipt hreceipt
                have hmem : receipt.datoms ∈ receipts.map TxReceipt.datoms :=
                  List.mem_map_of_mem hreceipt
                rw [hdatoms] at hmem
                obtain ⟨batch, hbatch, heq⟩ := List.mem_map.mp hmem
                have hfst : batch.1 ∈ transactions.map Transaction.datoms := by
                  rw [← map_fst_tickBatches (congrArg Prod.fst hticks)]
                  exact List.mem_map_of_mem hbatch
                obtain ⟨transaction, htransaction, hsame⟩ := List.mem_map.mp hfst
                refine ⟨transaction, htransaction, batch.2,
                  transactMetadata batch.2.node (batchContext batch.2), ?_,
                  fun d hd => attr_mem_metadataAttributes hd⟩
                rw [← heq, hsame, stampAndAppendMetadata]
              · have hreached := hreachable.batchSpliceTransact env.order batches
                rwa [hsplice] at hreached

/-- What the staging of a call prepares. -/
theorem stage_ok {call : Call} {staged : Staged} {clock : HybridClock}
    (h : db.stage env call = (.ok staged, clock)) : staged.Of db call.transactions := by
  cases call with
  | transact transaction => exact stageTransact_ok h
  | transactSigned transaction key => exact stageTransact_ok h
  | batchTransact transactions => exact stageBatch_ok h

variable [Bincode]

/-- Every call writes the log for what it staged and then publishes it. -/
theorem step_eq (db : Database) (call : Call) (env : Env) :
    db.step call env = db.commitStaged env (db.stage env call) := by
  cases call <;> rfl

/-- The entry that the log holds for a receipt. -/
def Logs (receipt : TxReceipt) (entry : WalEntry) : Prop :=
  entry.epoch = receipt.epoch ∧ Bincode.datoms.serialize receipt.datoms = .ok entry.payload

/-- The outcomes of writing one entry: refused before anything is written, failed in the write,
failed in the sync, and done. -/
inductive WriteCase (wal : Log) (write : WriteOutcome) (sync : Except String Unit)
    (receipt : TxReceipt) : Except FerraError Unit → Log → Prop
  | refused (e : FerraError) : WriteCase wal write sync receipt (.error e) wal
  | torn (e : FerraError) (entry : WalEntry) (written : Nat) (message : String) :
      Logs receipt entry → entry.Fits → write = .failed written message →
      WriteCase wal write sync receipt (.error e)
        { wal with file := wal.file ++ (frame entry.epoch entry.payload).take written }
  | unsynced (e : FerraError) (entry : WalEntry) (message : String) :
      Logs receipt entry → entry.Fits → write = .complete → sync = .error message →
      WriteCase wal write sync receipt (.error e)
        { wal with
          file := wal.file ++ frame entry.epoch entry.payload
          pendingEpoch := max wal.pendingEpoch entry.epoch }
  | done (entry : WalEntry) (synced : UInt64) :
      Logs receipt entry → entry.Fits → write = .complete → sync = .ok () →
      WriteCase wal write sync receipt (.ok ())
        ⟨wal.file ++ frame entry.epoch entry.payload, synced, max wal.pendingEpoch entry.epoch⟩

/-- What writing an entry does. -/
theorem writeWal_cases {wal : Log} (hwal : db.wal = some wal) (write : WriteOutcome)
    (sync : Except String Unit) (receipt : TxReceipt) :
    ∃ result wal', db.writeWal write sync receipt = (result, { db with wal := some wal' }) ∧
      WriteCase wal write sync receipt result wal' := by
  have hsame : { db with wal := some wal } = db := by
    rw [← hwal]
  unfold writeWal
  rw [hwal]
  simp only
  cases hserialize : Bincode.datoms.serialize receipt.datoms with
  | error message =>
      refine ⟨.error (.walWrite message), wal, ?_, .refused _⟩
      rw [hsame]
  | ok payload =>
      have hlogs : Logs receipt ⟨receipt.epoch, payload⟩ := ⟨rfl, hserialize⟩
      simp only [Log.appendRaw_eq]
      -- the checks in the order of the source: the epoch, then the size, and only then the file
      by_cases hepoch : receipt.epoch ≤ wal.pendingEpoch ∧ 0 < wal.pendingEpoch
      · simp only [if_pos hepoch]
        exact ⟨_, wal, rfl, .refused _⟩
      · simp only [if_neg hepoch]
        by_cases hlarge : maxPayloadSize < payload.length
        · simp only [if_pos hlarge]
          exact ⟨_, wal, rfl, .refused _⟩
        · have hfits : WalEntry.Fits ⟨receipt.epoch, payload⟩ := Nat.le_of_not_lt hlarge
          have hu32 : ¬ 2 ^ 32 ≤ payload.length := by
            simp only [maxPayloadSize] at hlarge
            omega
          simp only [if_neg hlarge, if_neg hu32]
          cases write with
          | failed written message =>
              exact ⟨_, _, rfl, .torn _ ⟨receipt.epoch, payload⟩ written message hlogs hfits rfl⟩
          | complete =>
              cases sync with
              | error message =>
                  exact ⟨_, _, rfl,
                    .unsynced _ ⟨receipt.epoch, payload⟩ message hlogs hfits rfl rfl⟩
              | ok _ =>
                  exact ⟨_, _, rfl, .done ⟨receipt.epoch, payload⟩ _ hlogs hfits rfl rfl⟩

/-- The log after an entry was appended and before it is synced. -/
def appended (wal : Log) (entry : WalEntry) : Log :=
  { wal with
    file := wal.file ++ frame entry.epoch entry.payload
    pendingEpoch := max wal.pendingEpoch entry.epoch }

/-- An entry with a new epoch and a payload within the limit is appended by a disk that completes
the write, and the result is that of the sync. -/
theorem writeWal_complete {wal : Log} (hwal : db.wal = some wal) {receipt : TxReceipt}
    {entry : WalEntry} (hlogs : Logs receipt entry) (hfits : entry.Fits)
    (hepoch : wal.pendingEpoch < receipt.epoch) (sync : Except String Unit) :
    db.writeWal .complete sync receipt = (((appended wal entry).fsync sync).1,
      { db with wal := some ((appended wal entry).fsync sync).2 }) := by
  obtain ⟨epoch, payload⟩ := entry
  obtain ⟨rfl, hserialize⟩ := hlogs
  have hnew : ¬ (receipt.epoch ≤ wal.pendingEpoch ∧ 0 < wal.pendingEpoch) := fun h =>
    absurd h.1 (not_le.mpr hepoch)
  have hlarge : ¬ maxPayloadSize < payload.length := Nat.not_lt.mpr hfits
  have hu32 : ¬ 2 ^ 32 ≤ payload.length := by
    simp only [maxPayloadSize] at hlarge
    omega
  simp only [writeWal, hwal, hserialize, Log.appendRaw_eq, if_neg hnew,
    if_neg hlarge, if_neg hu32, appended]

end Database

end Ferratomic
