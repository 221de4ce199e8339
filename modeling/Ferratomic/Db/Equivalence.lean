import Ferratomic.Checkpoint.Agreement
import Ferratomic.Db.Durability

/-!
# Recovery gives back the published store

The log of a database agrees with the store it publishes when its recoverable entries are those
of the transactions that lead from the genesis store to the published one. A successful call on
a log that ends at a frame boundary keeps both facts, so they hold along every run of successful
calls from `genesisWithWal`. The main theorem, `recover_eq_published`, says that recovering
from the whole log, or from a checkpoint of any state of the run and the whole log, gives back
the published store.
-/

namespace Ferratomic

open Lib

section Staging

variable [Blake3]

namespace Database

/-- A batch of one transaction that defines no attribute is applied. -/
theorem batchSpliceTransact_inert (orders : Nat → IterOrder) (store : Store)
    {datoms : List Datom} {txId : TxId} (hne : datoms.isEmpty = false) {epoch : UInt64}
    (hsucc : checkedSucc store.epoch = some epoch)
    (h : ∀ d ∈ stampAndAppendMetadata datoms txId, Inert d) :
    ∃ store', Store.batchSpliceTransact orders store [(datoms, txId)] =
      (.ok [⟨epoch, stampAndAppendMetadata datoms txId⟩], store') := by
  have hevolve := evolveSchema_inert h (orders 0) store.schema
  simp only [Store.batchSpliceTransact, Store.stampBatches, List.isEmpty_cons, hne,
    Bool.false_eq_true, if_false, hsucc, hevolve]
  exact ⟨_, rfl⟩

/-- Staging a batch of one transaction that defines no attribute. -/
theorem stageBatch_inert (db : Database) (env : Env) {transaction : Transaction}
    (htick : db.clock.physical < env.now 0 0) (hne : transaction.datoms.isEmpty = false)
    {epoch : UInt64} (hsucc : checkedSucc db.current.epoch = some epoch)
    (h : ∀ d ∈ stampAndAppendMetadata transaction.datoms ⟨env.now 0 0, 0, db.clock.node⟩,
      Inert d) :
    ∃ store, db.stage env (.batchTransact [transaction]) =
      (.ok ⟨[⟨epoch, stampAndAppendMetadata transaction.datoms
        ⟨env.now 0 0, 0, db.clock.node⟩⟩], store, db.frontier⟩,
        { db.clock with physical := env.now 0 0, logical := 0 }) := by
  obtain ⟨store, hsplice⟩ := batchSpliceTransact_inert env.order db.current hne hsucc h
  refine ⟨store, ?_⟩
  show db.stageBatch env [transaction] = _
  simp only [stageBatch, List.isEmpty_cons, Bool.false_eq_true, if_false,
    tickBatches, HybridClock.tick, if_pos htick, hsplice]

end Database

end Staging

section Runs

variable [Bincode]

namespace Database

/-- The entries after an epoch are those of the receipts after it. -/
theorem filter_logs {receipts : List TxReceipt} {entries : List WalEntry}
    (h : List.Forall₂ Logs receipts entries) (epoch : UInt64) :
    List.Forall₂ Logs (receipts.filter fun receipt => epoch < receipt.epoch)
      (entries.filter fun entry => epoch < entry.epoch) := by
  refine List.rel_filter ?_ h
  intro receipt entry hlogs
  show decide (epoch < receipt.epoch) = true ↔ decide (epoch < entry.epoch) = true
  rw [hlogs.1]

variable [Blake3]

/-- The recoverable entries of the log are those of the transactions that lead from genesis to
the published store, and the datoms of each transaction satisfy `P`. -/
structure Agrees (P : List Datom → Prop) (db : Database) (wal : Log)
    (receipts : List TxReceipt) : Prop where
  attached : db.wal = some wal
  commits : Commits Store.genesis.obs receipts db.current.obs
  logs : List.Forall₂ Logs receipts (recoveredEntries wal)
  pending : wal.pendingEpoch = db.current.epoch
  datoms : ∀ receipt ∈ receipts, P receipt.datoms

/-- The genesis database agrees with its empty log. -/
theorem agrees_genesisWithWal (P : List Datom → Prop) :
    Agrees P genesisWithWal Log.create [] where
  attached := rfl
  commits := .refl _
  logs := .nil
  pending := rfl
  datoms _ h := absurd h List.not_mem_nil

/-- A log that agrees with the published store recovers it, but for the order in which one
transaction defines its attributes. -/
theorem Agrees.recoverFromWal (hfaithful : Bincode.Faithful) {P : List Datom → Prop}
    (hP : ∀ datoms, P datoms → ShortAttrs datoms) {db : Database} {wal : Log}
    {receipts : List TxReceipt} (h : Agrees P db wal receipts) (orders : Nat → IterOrder) :
    ∃ recovered schema, Database.recoverFromWal orders wal.file = .ok recovered ∧
      recovered.current.obs = { db.current.obs with schema := schema } ∧
      ((∀ datoms, P datoms → DistinctIdents datoms) → schema = db.current.schema) := by
  obtain ⟨epoch, schema, hstamps, hobs⟩ := h.commits
  obtain ⟨replayed, schema'', hreplay, hreplayed, hschema⟩ :=
    replayWal_stamps hfaithful hstamps (fun receipt hr => hP _ (h.datoms receipt hr)) h.logs
      orders 0 Store.genesis rfl
  refine ⟨build replayed (some (Log.recover wal.file).2), schema'', ?_, ?_, ?_⟩
  · have hentries : replayWal orders 0 Store.genesis (Log.recover wal.file).1 =
        .ok replayed := hreplay
    unfold Database.recoverFromWal
    dsimp only
    rw [hentries]
  · show replayed.obs = _
    rw [hreplayed, hobs]
    rfl
  · intro hdistinct
    have hsame := hschema (fun receipt hr => hdistinct _ (h.datoms receipt hr)) rfl
    rw [hsame]
    exact (congrArg Observation.schema hobs).symm

/-- A successful call at a frame boundary keeps the agreement and ends at a frame boundary. -/
theorem Agrees.step_ok {P : List Datom → Prop} {db : Database} {wal : Log}
    {receipts new : List TxReceipt} (h : Agrees P db wal receipts) (hboundary : wal.AtBoundary)
    {call : Call} {env : Env} (hok : (db.step call env).1 = .ok new)
    (hP : ∀ transaction ∈ call.transactions, ∀ receipt, Stamped transaction receipt →
      P receipt.datoms) :
    ∃ wal', Agrees P (db.step call env).2 wal' (receipts ++ new) ∧ wal'.AtBoundary ∧
      (Store.Reachable db.current → Store.Reachable (db.step call env).2.current) ∧
      Commits db.current.obs new (db.step call env).2.current.obs := by
  obtain ⟨staged, clock, wal', entries, hstage, rfl, hwrote, hdb⟩ := Database.step_ok h.attached hok
  have hstaged := stage_ok hstage
  obtain ⟨hentries, hboundary'⟩ := recoveredEntries_frames hboundary hwrote.fits hwrote.file
  refine ⟨wal', ⟨?_, ?_, ?_, ?_, ?_⟩, hboundary', ?_, ?_⟩
  · rw [hdb]
  · rw [hdb]
    exact h.commits.append hstaged.commits
  · rw [hentries]
    exact List.rel_append h.logs hwrote.logs
  · obtain ⟨epoch, schema, hstamps, hobs⟩ := hstaged.commits
    rw [hdb, hwrote.pending, h.pending]
    exact hstamps.foldl_max.trans (congrArg Observation.epoch hobs).symm
  · intro receipt hreceipt
    rcases List.mem_append.mp hreceipt with hold | hnew
    · exact h.datoms receipt hold
    · obtain ⟨transaction, htransaction, hstamped⟩ := hstaged.stamped receipt hnew
      exact hP transaction htransaction receipt hstamped
  · rw [hdb]
    exact hstaged.reachable
  · rw [hdb]
    exact hstaged.commits

/-- Every call of the run succeeded. -/
def AllOk (results : List (Except FerraError (List TxReceipt))) : Prop :=
  ∀ result ∈ results, ∃ receipts, result = .ok receipts

/-- What a run of successful calls keeps, and that it only appends to the receipts. -/
theorem Agrees.run_ok {P : List Datom → Prop} {db : Database} {wal : Log}
    {receipts : List TxReceipt} (h : Agrees P db wal receipts) (hboundary : wal.AtBoundary)
    (hreachable : Store.Reachable db.current) {calls : List (Call × Env)}
    (hok : AllOk (db.run calls).1)
    (hP : ∀ call ∈ calls, ∀ transaction ∈ call.1.transactions, ∀ receipt,
      Stamped transaction receipt → P receipt.datoms) :
    ∃ wal' new, Agrees P (db.run calls).2 wal' (receipts ++ new) ∧ wal'.AtBoundary ∧
      Store.Reachable (db.run calls).2.current ∧
      Commits db.current.obs new (db.run calls).2.current.obs := by
  induction calls generalizing db wal receipts with
  | nil =>
      refine ⟨wal, [], ?_, hboundary, hreachable, .refl _⟩
      rwa [List.append_nil]
  | cons head rest ih =>
      obtain ⟨call, env⟩ := head
      obtain ⟨⟨first, hfirst⟩, hrest⟩ := List.forall_mem_cons.mp hok
      obtain ⟨hPfirst, hPrest⟩ := List.forall_mem_cons.mp hP
      obtain ⟨wal₁, hagrees, hboundary₁, hreach, hcommits⟩ := h.step_ok hboundary hfirst hPfirst
      obtain ⟨wal₂, new, hagrees₂, hboundary₂, hreachable₂, hcommits₂⟩ :=
        ih hagrees hboundary₁ (hreach hreachable) hrest hPrest
      rw [List.append_assoc] at hagrees₂
      exact ⟨wal₂, first ++ new, hagrees₂, hboundary₂, hreachable₂, hcommits.append hcommits₂⟩

/-- A run in two parts is one part after the other. -/
theorem run_append (db : Database) (before after : List (Call × Env)) :
    db.run (before ++ after) = ((db.run before).1 ++ ((db.run before).2.run after).1,
      ((db.run before).2.run after).2) := by
  induction before generalizing db with
  | nil => rfl
  | cons head before ih =>
      rw [List.cons_append, run, run, ih]
      rfl

/-- The attribute names of a published store are those of its transactions. -/
theorem Agrees.shortAttrs {P : List Datom → Prop} (hP : ∀ datoms, P datoms → ShortAttrs datoms)
    {db : Database} {wal : Log} {receipts : List TxReceipt} (h : Agrees P db wal receipts) :
    ShortAttrs db.current.datoms := by
  obtain ⟨epoch, schema, -, hobs⟩ := h.commits
  have hset : db.current.datomSet = (receipts.flatMap TxReceipt.datoms).toFinset := by
    have hgenesis : Store.genesis.obs.datomSet = ∅ := Store.datomSet_genesis
    have hcommitted := congrArg Observation.datomSet hobs
    rwa [Observation.commit, Observation.datomSet_addDatoms, hgenesis, Finset.empty_union]
      at hcommitted
  intro d hd
  rw [← List.mem_toFinset, Store.toFinset_datoms, hset, List.mem_toFinset, List.mem_flatMap] at hd
  obtain ⟨receipt, hreceipt, hd⟩ := hd
  exact hP _ (h.datoms receipt hreceipt) d hd

/-- A checkpoint of an earlier state and the log of a later one recover the later one. -/
theorem Agrees.recover (hfaithful : Bincode.Faithful) {P : List Datom → Prop}
    (hshort : ∀ datoms, P datoms → ShortAttrs datoms)
    (hdistinct : ∀ datoms, P datoms → DistinctIdents datoms) {middle final : Database}
    {wal wal' : Log} {receipts new : List TxReceipt} (hmiddle : Agrees P middle wal receipts)
    (hfinal : Agrees P final wal' (receipts ++ new))
    (hcommits : Commits middle.current.obs new final.current.obs) {bytes : Bytes}
    (hload : storeFromCheckpointBytes bytes = .ok middle.current.reloaded)
    (orders : Nat → IterOrder) :
    ∃ recovered, Database.recover orders bytes wal'.file = .ok recovered ∧
      recovered.current.datomSet = final.current.datomSet ∧
      recovered.current.epoch = final.current.epoch ∧
      recovered.current.schema = final.current.schema := by
  -- the entries after the checkpoint are those of the receipts committed since
  have hlogs := filter_logs hfinal.logs middle.current.obs.epoch
  rw [hmiddle.commits.filter_epoch hcommits] at hlogs
  obtain ⟨epoch, schema, hstamps, hobs⟩ := hcommits
  have hdatoms : ∀ receipt ∈ new, P receipt.datoms := fun receipt hr =>
    hfinal.datoms receipt (List.mem_append_right _ hr)
  obtain ⟨replayed, schema'', hreplay, hreplayed, hschema⟩ :=
    replayWal_stamps hfaithful hstamps (fun receipt hr => hshort _ (hdatoms receipt hr)) hlogs
      orders 0 middle.current.reloaded rfl
  refine ⟨build replayed (some (Log.recover wal'.file).2), ?_, ?_, ?_, ?_⟩
  · have hentries : replayWal orders 0 middle.current.reloaded
        ((Log.recover wal'.file).1.filter fun entry =>
          middle.current.reloaded.epoch < entry.epoch) = .ok replayed := hreplay
    rw [Database.recover, hload]
    dsimp only
    rw [hentries]
  · have hleft := congrArg Observation.datomSet hreplayed
    have hright := congrArg Observation.datomSet hobs
    rw [Observation.commit, Observation.datomSet_addDatoms] at hleft hright
    refine hleft.trans (Eq.trans ?_ hright.symm)
    exact congrArg (· ∪ _) middle.current.datomSet_reloaded
  · exact (congrArg Observation.epoch hreplayed).trans (congrArg Observation.epoch hobs).symm
  · have hsame := hschema (fun receipt hr => hdistinct _ (hdatoms receipt hr)) rfl
    rw [hsame] at hreplayed
    exact (congrArg Observation.schema hreplayed).trans (congrArg Observation.schema hobs).symm

/-- Recovery equivalence: after a run of successful calls, replaying the whole log gives back
all that can be observed of the published store; and a checkpoint of any state of the run that
is within the position space, in any format, together with the whole log gives back the datoms,
the epoch and the schema. -/
theorem recover_eq_published (hfaithful : Bincode.Faithful) {before after : List (Call × Env)}
    (hok : AllOk (genesisWithWal.run (before ++ after)).1)
    (hdistinct : ∀ call ∈ before ++ after, ∀ transaction ∈ call.1.transactions,
      DistinctIdents transaction.datoms)
    (hshort : ∀ call ∈ before ++ after, ∀ transaction ∈ call.1.transactions,
      ShortAttrs transaction.datoms) :
    ∃ wal, (genesisWithWal.run (before ++ after)).2.wal = some wal ∧
      (∀ orders, ∃ recovered, recoverFromWal orders wal.file = .ok recovered ∧
        recovered.current.obs = (genesisWithWal.run (before ++ after)).2.current.obs) ∧
      ((genesisWithWal.run before).2.current.datomSet.card ≤ u32Max → ∀ format, ∃ bytes,
        serializeCheckpointBytes format
          (extractCheckpointData (genesisWithWal.run before).2.current) = .ok bytes ∧
        ∀ orders, ∃ recovered, recover orders bytes wal.file = .ok recovered ∧
          recovered.current.datomSet =
            (genesisWithWal.run (before ++ after)).2.current.datomSet ∧
          recovered.current.epoch = (genesisWithWal.run (before ++ after)).2.current.epoch ∧
          recovered.current.schema = (genesisWithWal.run (before ++ after)).2.current.schema) := by
  let P (datoms : List Datom) := ShortAttrs datoms ∧ DistinctIdents datoms
  have hP : ∀ call ∈ before ++ after, ∀ transaction ∈ call.1.transactions, ∀ receipt,
      Stamped transaction receipt → P receipt.datoms := fun call hcall transaction ht receipt hs =>
    ⟨(hshort call hcall transaction ht).of_stamped hs,
      (hdistinct call hcall transaction ht).of_stamped hs⟩
  rw [run_append] at hok
  obtain ⟨hokBefore, hokAfter⟩ := List.forall_mem_append.mp hok
  obtain ⟨hPBefore, hPAfter⟩ := List.forall_mem_append.mp hP
  have hcreate : Log.create.AtBoundary := rfl
  -- the checkpoint is taken between the two parts of the run
  obtain ⟨wal₁, receipts, hmiddle, hboundary, hreachable, -⟩ :=
    (agrees_genesisWithWal P).run_ok hcreate .genesis hokBefore hPBefore
  rw [List.nil_append] at hmiddle
  obtain ⟨wal₂, new, hfinal, -, -, hcommits⟩ :=
    hmiddle.run_ok hboundary hreachable hokAfter hPAfter
  rw [run_append]
  refine ⟨wal₂, hfinal.attached, fun orders => ?_, fun hcard format => ?_⟩
  · obtain ⟨recovered, schema, hrecover, hobs, hschema⟩ :=
      hfinal.recoverFromWal hfaithful (fun _ h => h.1) orders
    refine ⟨recovered, hrecover, ?_⟩
    rw [hobs, hschema fun _ h => h.2]
    rfl
  · obtain ⟨bytes, hserialize, hload⟩ := Store.storeFromCheckpointBytes_eq hfaithful
      hreachable.exact (hmiddle.shortAttrs fun _ h => h.1) hcard format
    exact ⟨bytes, hserialize, hmiddle.recover hfaithful (fun _ h => h.1) (fun _ h => h.2) hfinal
      hcommits hload⟩

end Database

end Runs

namespace Bincode

/-- An encoded identifier has 28 bytes. -/
theorem length_encode_txId (tx : TxId) : (txId.encode tx).length = 28 := by
  obtain ⟨physical, logical, node⟩ := tx
  have hnode : ((Codec.bytes 16).encode node).length = 16 := node.property
  show (leBytes 8 physical.toNat ++
    (leBytes 4 logical.toNat ++ (Codec.bytes 16).encode node)).length = 28
  rw [List.length_append, List.length_append, length_leBytes, length_leBytes, hnode]

/-- The fields of fixed size of a datom take 64 bytes. -/
theorem length_encode_datom (d : Datom) :
    (datom.encode d.toWire).length =
      64 + (Codec.string.encode d.attr).length + (value.encode d.toWire.value).length := by
  have hentity : (entityId.encode d.toWire.entity).length = 32 := d.entity.property
  have hop : (op.encode d.op).length = 4 := length_leBytes _ _
  show (entityId.encode d.toWire.entity ++ (Codec.string.encode d.attr ++
    (value.encode d.toWire.value ++ (txId.encode d.tx ++ op.encode d.op)))).length = _
  simp only [List.length_append, hentity, hop, length_encode_txId]
  omega

/-- An encoded instant has 12 bytes. -/
theorem length_encode_instant (millis : SignedInt 64) :
    (value.encode (.instant millis)).length = 12 := by
  show (leBytes 4 5 ++ leBytes 8 _).length = 12
  rw [List.length_append, length_leBytes, length_leBytes]

/-- An encoded reference has 36 bytes. -/
theorem length_encode_ref (entity : EntityId) :
    (value.encode (.ref ⟨entity⟩)).length = 36 := by
  show (leBytes 4 8 ++ entity.val).length = 36
  rw [List.length_append, length_leBytes, entity.property]

end Bincode

namespace Sample

/-- The datoms of the sample transaction once it is stamped. -/
def documented (txId : TxId) : List Datom :=
  stampAndAppendMetadata document.datoms txId

/-- A datom of the document transaction encodes to at most 200 bytes. -/
theorem length_encode_documented (txId : TxId) :
    ∀ d ∈ documented txId, (Bincode.datom.encode d.toWire).length ≤ 200 := by
  have hdoc : (Codec.string.encode "db/doc").length +
      (Bincode.value.encode (.string "x")).length ≤ 100 := by decide +kernel
  have htime : (Codec.string.encode "tx/time").length ≤ 20 := by decide +kernel
  have horigin : (Codec.string.encode "tx/origin").length ≤ 20 := by decide +kernel
  have hprovenance : (Codec.string.encode "tx/provenance").length +
      (Bincode.value.encode (.keyword ProvenanceType.observed.asKeyword)).length ≤ 100 := by
    decide +kernel
  intro d hd
  rw [Bincode.length_encode_datom]
  simp only [documented, stampAndAppendMetadata, stampDatoms, document, transactMetadata,
    createTxMetadata, createFederationMetadata, batchContext, List.map_cons, List.map_nil,
    List.nil_append, List.append_nil, List.cons_append, List.mem_cons, List.not_mem_nil,
    or_false] at hd
  rcases hd with rfl | rfl | rfl | rfl
  · show 64 + (Codec.string.encode "db/doc").length +
      (Bincode.value.encode (.string "x")).length ≤ 200
    omega
  · show 64 + (Codec.string.encode "tx/time").length +
      (Bincode.value.encode (.instant (physicalMillis txId))).length ≤ 200
    rw [Bincode.length_encode_instant]
    omega
  · show 64 + (Codec.string.encode "tx/origin").length +
      (Bincode.value.encode (.ref ⟨EntityId.fromContent txId.node.val⟩)).length ≤ 200
    rw [Bincode.length_encode_ref]
    omega
  · show 64 + (Codec.string.encode "tx/provenance").length +
      (Bincode.value.encode (.keyword ProvenanceType.observed.asKeyword)).length ≤ 200
    omega

/-- The document transaction fits a frame. -/
theorem length_payload (txId : TxId) :
    (Bincode.datom.list.encode ((documented txId).map Datom.toWire)).length ≤ maxPayloadSize := by
  have hcount : (Codec.length.encode ((documented txId).map Datom.toWire).length).length = 8 := by
    show (Codec.length.encode 4).length = 8
    decide +kernel
  have hsum : (((documented txId).map Datom.toWire).flatMap Bincode.datom.encode).length ≤
      4 * 200 := by
    rw [List.length_flatMap, List.map_map]
    refine le_trans (List.sum_le_card_nsmul _ 200 ?_) (le_of_eq ?_)
    · intro size hsize
      obtain ⟨d, hd, rfl⟩ := List.mem_map.mp hsize
      exact length_encode_documented txId d hd
    · rw [List.length_map]
      rfl
  show (Codec.length.encode _ ++ List.flatMap _ _).length ≤ _
  rw [List.length_append, hcount, maxPayloadSize]
  omega

/-- A number of transactions, each asserting the same text. -/
def documentRun (count : Nat) : List (Call × Env) :=
  (List.range count).map fun i =>
    (.batchTransact [document], envAt (UInt64.ofNat (i + 1)) .complete (.ok ()))

/-- The second transaction of the run. -/
def secondDocument : List (Call × Env) :=
  [(.batchTransact [document], envAt 2 .complete (.ok ()))]

/-- What that many accepted transactions leave. -/
structure Documented (count : Nat) (db : Database) : Prop where
  epoch : db.current.epoch.toNat = count
  physical : db.clock.physical.toNat = count
  node : db.clock.node = NodeId.zero
  facts : numberedUpTo (count + 1) ⊆ insert (numbered 0) db.current.datomSet

/-- The identifier of a transaction of the run. -/
def runTx (count : Nat) : TxId := ⟨UInt64.ofNat count, 0, NodeId.zero⟩

/-- No attribute definition is read from the document transaction. -/
theorem inert_documented (txId : TxId) : ∀ d ∈ documented txId, Inert d := by
  intro d hd
  rcases List.mem_append.mp hd with hd | hd
  · rw [stampDatoms, document, List.map_singleton, List.mem_singleton] at hd
    rw [hd]
    show "db/doc" ≠ "db/ident" ∧ "db/doc" ≠ "db/valueType" ∧ "db/doc" ≠ "db/cardinality"
    decide
  · exact inert_of_metadata (attr_mem_metadataAttributes hd)

/-- The next document transaction stages with the next epoch and identifier. -/
theorem Documented.stage {count : Nat} {db : Database} (h : Documented count db)
    (hcount : count + 1 < 2 ^ 64) :
    ∃ store clock, db.stage (envAt (UInt64.ofNat (count + 1)) .complete (.ok ()))
        (.batchTransact [document]) =
      (.ok ⟨[⟨db.current.epoch + 1, documented (runTx (count + 1))⟩], store, db.frontier⟩, clock) ∧
      clock.physical.toNat = count + 1 ∧ clock.node = NodeId.zero := by
  have hnow : (UInt64.ofNat (count + 1)).toNat = count + 1 := by
    rw [UInt64.toNat_ofNat', Nat.mod_eq_of_lt hcount]
  have htick : db.clock.physical < UInt64.ofNat (count + 1) := by
    rw [UInt64.lt_iff_toNat_lt, h.physical, hnow]
    omega
  have hsucc : checkedSucc db.current.epoch = some (db.current.epoch + 1) := by
    rw [checkedSucc, if_pos]
    rw [h.epoch]
    omega
  have hinert : ∀ d ∈ stampAndAppendMetadata document.datoms
      ⟨UInt64.ofNat (count + 1), 0, db.clock.node⟩, Inert d := inert_documented _
  obtain ⟨store, hstage⟩ := Database.stageBatch_inert db
    (envAt (UInt64.ofNat (count + 1)) .complete (.ok ())) htick rfl hsucc hinert
  refine ⟨store, { db.clock with physical := UInt64.ofNat (count + 1), logical := 0 },
    hstage.trans ?_, hnow, h.node⟩
  rw [h.node]
  rfl

/-- One more transaction of the run is accepted. -/
theorem Documented.step {count : Nat} {db : Database} (h : Documented count db) {wal : Log}
    (hwal : db.wal = some wal) (hpending : wal.pendingEpoch = db.current.epoch)
    (hcount : count + 1 < 2 ^ 64) :
    ∃ receipts, (db.step (.batchTransact [document])
        (envAt (UInt64.ofNat (count + 1)) .complete (.ok ()))).1 = .ok receipts ∧
      Documented (count + 1) (db.step (.batchTransact [document])
        (envAt (UInt64.ofNat (count + 1)) .complete (.ok ()))).2 := by
  -- the batch is staged, fits into the log and is then published
  obtain ⟨store, clock, hstage, hphysical, hnode⟩ := h.stage hcount
  have hfitting : Database.Fitting ⟨db.current.epoch + 1, documented (runTx (count + 1))⟩ :=
    ⟨⟨_, _⟩, ⟨rfl, rfl⟩, length_payload _⟩
  have hok := Database.step_accepts hwal hpending hstage (fun _ _ => ⟨rfl, rfl⟩)
    (List.forall_mem_singleton.mpr hfitting)
  obtain ⟨staged, clock', wal', entries, hstage', -, -, hdb⟩ := Database.step_ok hwal hok
  rw [hstage] at hstage'
  cases hstage'
  obtain ⟨epoch, schema, hstamps, hobs⟩ := (Database.stage_ok hstage).commits
  refine ⟨_, hok, ?_⟩
  rw [hdb]
  have hset : store.datomSet = db.current.datomSet ∪
      (documented (runTx (count + 1))).toFinset := by
    have hcommitted := congrArg Observation.datomSet hobs
    rw [Observation.commit, Observation.datomSet_addDatoms, List.flatMap_singleton]
      at hcommitted
    exact hcommitted
  refine ⟨?_, hphysical, hnode, ?_⟩
  · cases hstamps with
    | cons order hnext _ hrest =>
        cases hrest
        have hlast : store.epoch = db.current.epoch + 1 := congrArg Observation.epoch hobs
        show store.epoch.toNat = count + 1
        rw [hlast, checkedSucc_eq_some hnext]
        exact congrArg (· + 1) h.epoch
  · show numberedUpTo (count + 1 + 1) ⊆ insert (numbered 0) store.datomSet
    have hnew : numbered (count + 1) ∈ documented (runTx (count + 1)) := List.mem_cons_self
    rw [numberedUpTo, Finset.range_add_one, Finset.image_insert, hset, Finset.insert_subset_iff]
    refine ⟨Finset.mem_insert_of_mem (Finset.mem_union_right _ (List.mem_toFinset.mpr hnew)), ?_⟩
    refine h.facts.trans (Finset.insert_subset_insert _ ?_)
    exact Finset.subset_union_left

/-- Any number of transactions of the run is accepted. -/
theorem documentRun_ok {count : Nat} (hcount : count < 2 ^ 64) :
    Database.AllOk (Database.genesisWithWal.run (documentRun count)).1 ∧
      Documented count (Database.genesisWithWal.run (documentRun count)).2 ∧
      ∃ wal receipts, Database.Agrees ShortAttrs
        (Database.genesisWithWal.run (documentRun count)).2 wal receipts ∧ wal.AtBoundary ∧
        Store.Reachable (Database.genesisWithWal.run (documentRun count)).2.current := by
  induction count with
  | zero =>
      refine ⟨fun result h => absurd h List.not_mem_nil, ⟨rfl, rfl, rfl, ?_⟩, Log.create, [],
        Database.agrees_genesisWithWal _, rfl, .genesis⟩
      rw [numberedUpTo, Finset.range_one, Finset.image_singleton]
      exact Finset.singleton_subset_iff.mpr (Finset.mem_insert_self _ _)
  | succ count ih =>
      obtain ⟨hall, hdocumented, wal, receipts, hagrees, hboundary, hreachable⟩ :=
        ih (by omega)
      obtain ⟨new, hok, hnext⟩ := hdocumented.step hagrees.attached hagrees.pending hcount
      obtain ⟨wal', hagrees', hboundary', hreach, -⟩ := hagrees.step_ok hboundary hok
        fun transaction ht receipt hs => by
          rw [List.mem_singleton.mp ht] at hs
          exact shortAttrs_document.of_stamped hs
      have hrun : documentRun (count + 1) = documentRun count ++ [(.batchTransact [document],
          envAt (UInt64.ofNat (count + 1)) .complete (.ok ()))] := by
        rw [documentRun, List.range_succ, List.map_append]
        rfl
      rw [hrun, Database.run_append]
      refine ⟨?_, hnext, wal', _, hagrees', hboundary', hreach hreachable⟩
      exact List.forall_mem_append.mpr ⟨hall, List.forall_mem_singleton.mpr ⟨new, hok⟩⟩

/-- A database has at least as many datoms as documents were committed. -/
theorem Documented.le_card {count : Nat} {db : Database} (h : Documented count db)
    (hcount : count + 1 ≤ 2 ^ 64) : count ≤ db.current.datomSet.card := by
  have hfacts := Finset.card_le_card h.facts
  have hinsert := Finset.card_insert_le (numbered 0) db.current.datomSet
  rw [card_numberedUpTo hcount] at hfacts
  omega

/-- The document transaction defines no attribute twice. -/
theorem distinctIdents_document : DistinctIdents document.datoms := by
  intro e₁ e₂ attr d₁ d₂ h₁
  have hinert : ∀ d ∈ document.datoms.filter (·.entity = e₁), Inert d := by
    intro d hd
    rw [List.mem_singleton.mp (List.mem_filter.mp hd).1]
    show "db/doc" ≠ "db/ident" ∧ "db/doc" ≠ "db/valueType" ∧ "db/doc" ≠ "db/cardinality"
    decide
  rw [extractAttributeDef_inert hinert] at h₁
  cases h₁

/-- Every transaction of the run defines no attribute twice and has short attributes. -/
theorem transactions_documentRun (count : Nat) :
    ∀ call ∈ documentRun count, ∀ transaction ∈ call.1.transactions,
      DistinctIdents transaction.datoms ∧ ShortAttrs transaction.datoms := by
  intro call hcall transaction ht
  obtain ⟨i, -, rfl⟩ := List.mem_map.mp hcall
  rw [List.mem_singleton.mp ht]
  exact ⟨distinctIdents_document, shortAttrs_document⟩

/-- A checkpoint of more transactions than the position space holds is not loaded. -/
theorem recover_documentRun {count : Nat} (hcount : count + 1 ≤ 2 ^ 64) (hover : u32Max < count) :
    ∃ bytes, serializeCheckpointBytes .v3 (extractCheckpointData
        (Database.genesisWithWal.run (documentRun count)).2.current) = .ok bytes ∧
      ∀ orders file, (Database.recover orders bytes file).toOption.isNone := by
  obtain ⟨-, hdocumented, wal, receipts, hagrees, -, hreachable⟩ := documentRun_ok hcount
  obtain ⟨bytes, hserialize, hload⟩ := Store.storeFromCheckpointBytes_over
    Bincode.faithful_reference hreachable.exact (hagrees.shortAttrs fun _ h => h)
    (hover.trans_le (hdocumented.le_card hcount))
  refine ⟨bytes, hserialize, fun orders file => ?_⟩
  rw [Database.recover, hload]
  rfl

end Sample

open Sample

namespace Database

/-- Recovery after two transactions, from the log and from any checkpoint of the state between them.
-/
theorem recover_eq_published_documents :
    AllOk (genesisWithWal.run (documentRun 1 ++ secondDocument)).1 ∧
      (genesisWithWal.run (documentRun 1)).2.current.datomSet.card = 4 ∧
      ∃ wal, (genesisWithWal.run (documentRun 1 ++ secondDocument)).2.wal = some wal ∧
        (∀ orders, ∃ recovered, recoverFromWal orders wal.file = .ok recovered ∧
          recovered.current.obs =
            (genesisWithWal.run (documentRun 1 ++ secondDocument)).2.current.obs) ∧
        ∀ format, ∃ bytes, serializeCheckpointBytes format
            (extractCheckpointData (genesisWithWal.run (documentRun 1)).2.current) = .ok bytes ∧
          ∀ orders, ∃ recovered, recover orders bytes wal.file = .ok recovered ∧
            recovered.current.datomSet =
              (genesisWithWal.run (documentRun 1 ++ secondDocument)).2.current.datomSet := by
  have hok : AllOk (genesisWithWal.run (documentRun 1 ++ secondDocument)).1 :=
    (documentRun_ok (show 2 < 2 ^ 64 by omega)).1
  have hcard : (genesisWithWal.run (documentRun 1)).2.current.datomSet.card = 4 := by
    decide +kernel
  have hcalls : ∀ call ∈ documentRun 1 ++ secondDocument, ∀ transaction ∈ call.1.transactions,
      DistinctIdents transaction.datoms ∧ ShortAttrs transaction.datoms :=
    transactions_documentRun 2
  obtain ⟨wal, hwal, hlog, hcheckpoint⟩ := recover_eq_published Bincode.faithful_reference hok
    (fun call hcall transaction ht => (hcalls call hcall transaction ht).1)
    (fun call hcall transaction ht => (hcalls call hcall transaction ht).2)
  refine ⟨hok, hcard, wal, hwal, hlog, fun format => ?_⟩
  have hfits : (genesisWithWal.run (documentRun 1)).2.current.datomSet.card ≤ u32Max := by
    rw [hcard]
    decide
  obtain ⟨bytes, hserialize, hrecover⟩ := hcheckpoint hfits format
  refine ⟨bytes, hserialize, fun orders => ?_⟩
  obtain ⟨recovered, hrecovered, hset, -, -⟩ := hrecover orders
  exact ⟨recovered, hrecovered, hset⟩

/-- After 2^32 successful transactions the checkpoint of the published store is not loaded. -/
theorem recover_over_limit :
    AllOk (genesisWithWal.run (documentRun (2 ^ 32))).1 ∧
      (∀ call ∈ documentRun (2 ^ 32), ∀ transaction ∈ call.1.transactions,
        DistinctIdents transaction.datoms ∧ ShortAttrs transaction.datoms) ∧
      ∃ bytes, serializeCheckpointBytes .v3 (extractCheckpointData
          (genesisWithWal.run (documentRun (2 ^ 32))).2.current) = .ok bytes ∧
        ∀ orders file, (recover orders bytes file).toOption.isNone := by
  have hcount : 2 ^ 32 + 1 ≤ 2 ^ 64 := by omega
  have hover : u32Max < 2 ^ 32 := by
    rw [u32Max]
    omega
  exact ⟨(documentRun_ok hcount).1, transactions_documentRun (2 ^ 32),
    recover_documentRun hcount hover⟩

end Database

end Ferratomic
