import Ferratomic.Store.Basic

/-!
# Transaction application and replay

The mutating operations of the store. Each returns its result together with the store it leaves
behind, because a failing call can leave a changed one: the epoch and part of the schema are
assigned before schema evolution can fail.

The main theorems relate every operation to the abstract store: `obs_applyDatoms`,
`transact_ok` and `replayEntry_ok` say what a successful call leaves, in either representation.
-/

namespace Ferratomic

open Lib

/-- A committed transaction. -/
structure Transaction where
  node : NodeId
  datoms : List Datom

/-- The greatest transaction id seen from each node. -/
abbrev Frontier := OrdMap NodeId TxId

/-- An Ed25519 signature. -/
abbrev TxSignature := FixedBytes 64

/-- An Ed25519 verifying key. -/
abbrev TxSigner := FixedBytes 32

/-- The epistemic confidence of a transaction. -/
inductive ProvenanceType where
  | hypothesized
  | inferred
  | derived
  | observed
  deriving DecidableEq, Repr

/-- `as_keyword` -/
def ProvenanceType.asKeyword : ProvenanceType → String
  | .hypothesized => "provenance/hypothesized"
  | .inferred => "provenance/inferred"
  | .derived => "provenance/derived"
  | .observed => "provenance/observed"

/-- The metadata the database layer gives a transaction. -/
structure TransactContext where
  txId : TxId
  frontier : Option Frontier
  signing : Option (TxSignature × TxSigner)
  provenance : ProvenanceType

/-- The epoch and the stamped datoms of an applied transaction. -/
@[ext]
structure TxReceipt where
  epoch : UInt64
  datoms : List Datom

section Metadata

variable [Blake3]

/-- `stamp_datoms`: replace the placeholder transaction id. -/
def stampDatoms (datoms : List Datom) (txId : TxId) : List Datom :=
  datoms.map fun d => { d with tx := txId }

/-- `tx_entity_from_txid`: the entity of a transaction. -/
def txEntityFromTxid (txId : TxId) : EntityId :=
  EntityId.fromContent txId.canonicalBytes

/-- `i64::try_from(physical).unwrap_or(i64::MAX)` -/
def physicalMillis (txId : TxId) : SignedInt 64 :=
  ⟨min txId.physical.toNat (2 ^ 63 - 1), by omega⟩

/-- `create_tx_metadata`: the time and origin of a transaction. -/
def createTxMetadata (txEntity : EntityId) (node : NodeId) (txId : TxId) : List Datom :=
  [⟨txEntity, "tx/time", .instant (physicalMillis txId), txId, .assert⟩,
   ⟨txEntity, "tx/origin", .ref (EntityId.fromContent node.val), txId, .assert⟩]

/-- `create_federation_metadata`: predecessors, provenance and signature of a transaction. -/
def createFederationMetadata (txEntity : EntityId) (txId : TxId) (frontier : Option Frontier)
    (signing : Option (TxSignature × TxSigner)) (provenance : ProvenanceType) : List Datom :=
  (match frontier with
    | some known => known.toList.map fun entry =>
        (⟨txEntity, "tx/predecessor", .ref (txEntityFromTxid entry.2), txId, .assert⟩ : Datom)
    | none => []) ++
  [⟨txEntity, "tx/provenance", .keyword provenance.asKeyword, txId, .assert⟩] ++
  (match signing with
    | some (signature, signer) =>
        [⟨txEntity, "tx/signature", .bytes signature.val, txId, .assert⟩,
         ⟨txEntity, "tx/signer", .bytes signer.val, txId, .assert⟩]
    | none => [])

/-- The metadata datoms that `Store::transact` appends. -/
def transactMetadata (node : NodeId) (ctx : TransactContext) : List Datom :=
  createTxMetadata (txEntityFromTxid ctx.txId) node ctx.txId ++
    createFederationMetadata (txEntityFromTxid ctx.txId) ctx.txId ctx.frontier ctx.signing
      ctx.provenance

/-- The context of the batch path: no frontier, no signature, observed. -/
def batchContext (txId : TxId) : TransactContext :=
  ⟨txId, none, none, .observed⟩

/-- `stamp_and_append_metadata`: the datoms of one transaction of a batch. -/
def stampAndAppendMetadata (datoms : List Datom) (txId : TxId) : List Datom :=
  stampDatoms datoms txId ++ transactMetadata txId.node (batchContext txId)

end Metadata

/-- `checked_add(1)` on an epoch. -/
def checkedSucc (epoch : UInt64) : Option UInt64 :=
  if epoch.toNat + 1 < 2 ^ 64 then some (epoch + 1) else none

/-- A successor that is there is the next number. -/
theorem checkedSucc_eq_some {epoch next : UInt64} (h : checkedSucc epoch = some next) :
    next.toNat = epoch.toNat + 1 := by
  unfold checkedSucc at h
  split at h
  case isTrue hlt =>
      cases h
      rw [UInt64.toNat_add]
      exact Nat.mod_eq_of_lt hlt
  case isFalse => cases h

/-- A successor is above the epoch. -/
theorem lt_of_checkedSucc {epoch next : UInt64} (h : checkedSucc epoch = some next) :
    epoch < next := by
  have hnext := checkedSucc_eq_some h
  rw [UInt64.lt_iff_toNat_lt]
  omega

namespace Store

variable [Blake3]

/-- Insert a datom into the write-active representation and the LIVE maps. -/
def insertOrdMap (store : Store) (d : Datom) : Store :=
  match store.repr with
  | .ordMap datoms indexes =>
      { store with repr := .ordMap (Insert.insert d datoms) (indexes.insert d) }.liveApply d
  | .positional _ => store.liveApply d

/-- `insert`: promote, then insert one datom. -/
def insert (store : Store) (d : Datom) : Store :=
  store.promote.insertOrdMap d

/-- `splice_transact_batch`: merge sorted new datoms into the array and update the LIVE maps in
the order of arrival. -/
def spliceTransactBatch (store : Store) (newDatoms : List Datom) : Store :=
  match store.repr with
  | .positional ps =>
      let merged := mergeSortDedup ps.canonical (sortDedup newDatoms)
      newDatoms.foldl liveApply
        { store with
          repr := .positional (PositionalStore.fromSortedCanonical merged
            (pairwise_mergeSortDedup ps.sorted (pairwise_sortDedup newDatoms))) }
  | .ordMap _ _ => store

/-- Apply stamped datoms in the way of the active representation. -/
def applyDatoms (store : Store) (newDatoms : List Datom) : Store :=
  match store.repr with
  | .positional _ => store.spliceTransactBatch newDatoms
  | .ordMap _ _ => (newDatoms.foldl insertOrdMap store).demote

/-- `transact`: apply a committed transaction. -/
def transact (order : IterOrder) (store : Store) (transaction : Transaction)
    (ctx : TransactContext) : Except FerraError TxReceipt × Store :=
  if transaction.datoms.isEmpty then (.error .emptyTransaction, store)
  else
    match checkedSucc store.epoch with
    | none =>
        (.error (.invariantViolation "INV-FERR-007" "epoch counter overflow"), store)
    | some epoch =>
        let allDatoms := stampDatoms transaction.datoms ctx.txId ++
          transactMetadata transaction.node ctx
        let evolved := evolveSchema order store.schema allDatoms
        let store := { store with epoch := epoch, schema := evolved.2 }
        match evolved.1 with
        | .error e => (.error e, store)
        | .ok () => (.ok ⟨epoch, allDatoms⟩, store.applyDatoms allDatoms)

/-- The loop of `batch_splice_transact` that stamps the transactions and evolves the schema. -/
def stampBatches (orders : Nat → IterOrder) (index : Nat) (store : Store) :
    List (List Datom × TxId) → Except FerraError (List TxReceipt) × Store
  | [] => (.ok [], store)
  | (datoms, txId) :: rest =>
      if datoms.isEmpty then (.error .emptyTransaction, store)
      else
        match checkedSucc store.epoch with
        | none =>
            (.error (.invariantViolation "INV-FERR-007" "epoch counter overflow in batch"), store)
        | some epoch =>
            let txDatoms := stampAndAppendMetadata datoms txId
            let evolved := evolveSchema (orders index) store.schema txDatoms
            let store := { store with epoch := epoch, schema := evolved.2 }
            match evolved.1 with
            | .error e => (.error e, store)
            | .ok () =>
                match stampBatches orders (index + 1) store rest with
                | (.ok receipts, store) => (.ok (⟨epoch, txDatoms⟩ :: receipts), store)
                | (.error e, store) => (.error e, store)

/-- `batch_splice_transact`: apply several transactions with one merge. -/
def batchSpliceTransact (orders : Nat → IterOrder) (store : Store)
    (batches : List (List Datom × TxId)) : Except FerraError (List TxReceipt) × Store :=
  if batches.isEmpty then (.ok [], store)
  else
    match stampBatches orders 0 store batches with
    | (.error e, store) => (.error e, store)
    | (.ok receipts, store) =>
        (.ok receipts, store.applyDatoms (receipts.flatMap TxReceipt.datoms))

/-- `replay_entry`: insert the datoms of a log entry, set its epoch and evolve the schema. -/
def replayEntry (order : IterOrder) (store : Store) (epoch : UInt64) (datoms : List Datom) :
    Except FerraError Unit × Store :=
  let inserted := datoms.foldl insert store
  let evolved := evolveSchema order inserted.schema datoms
  (evolved.1, { inserted with epoch := epoch, schema := evolved.2 })

/-- The loop of `batch_replay` over the entries. -/
def replayEntries (orders : Nat → IterOrder) (index : Nat) (store : Store) :
    List (UInt64 × List Datom) → Except FerraError Unit × Store
  | [] => (.ok (), store)
  | (epoch, datoms) :: rest =>
      let inserted := datoms.foldl insertOrdMap store
      let evolved := evolveSchema (orders index) inserted.schema datoms
      let store := { inserted with epoch := epoch, schema := evolved.2 }
      match evolved.1 with
      | .error e => (.error e, store)
      | .ok () => replayEntries orders (index + 1) store rest

/-- `batch_replay`: promote once, replay every entry, demote once. -/
def batchReplay (orders : Nat → IterOrder) (store : Store)
    (entries : List (UInt64 × List Datom)) : Except FerraError Unit × Store :=
  if entries.isEmpty then (.ok (), store)
  else
    match replayEntries orders 0 store.promote entries with
    | (.error e, store) => (.error e, store)
    | (.ok (), store) => (.ok (), store.demote)

section Observations

/-- The write-active representation. -/
def IsOrdMap (store : Store) : Prop :=
  ∃ datoms indexes, store.repr = .ordMap datoms indexes

/-- A promoted store is one of ordered maps. -/
theorem isOrdMap_promote (store : Store) : store.promote.IsOrdMap := by
  unfold promote
  split
  case h_1 ps h => exact ⟨_, _, rfl⟩
  case h_2 datoms indexes h => exact ⟨datoms, indexes, h⟩

/-- Insertion keeps the write-active representation. -/
theorem IsOrdMap.insertOrdMap {store : Store} (h : store.IsOrdMap) (d : Datom) :
    (store.insertOrdMap d).IsOrdMap := by
  obtain ⟨datoms, indexes, hrepr⟩ := h
  refine ⟨Insert.insert d datoms, indexes.insert d, ?_⟩
  simp [Store.insertOrdMap, hrepr, liveApply]

/-- Insertion into the write-active representation adds the datom. -/
theorem obs_insertOrdMap {store : Store} (h : store.IsOrdMap) (d : Datom) :
    (store.insertOrdMap d).obs = store.obs.addDatom d := by
  obtain ⟨datoms, indexes, hrepr⟩ := h
  simp [insertOrdMap, hrepr, obs, liveApply, Observation.addDatom, datomSet, StoreRepr.datomSet]

/-- Insertions into ordered maps add their datoms, and nothing else that a client sees. -/
theorem obs_foldl_insertOrdMap {store : Store} (h : store.IsOrdMap) (items : List Datom) :
    (items.foldl insertOrdMap store).obs = store.obs.addDatoms items ∧
      (items.foldl insertOrdMap store).IsOrdMap := by
  induction items generalizing store with
  | nil => exact ⟨rfl, h⟩
  | cons d items ih =>
      rw [List.foldl_cons, Observation.addDatoms_cons, ← obs_insertOrdMap h d]
      exact ih (h.insertOrdMap d)

/-- Insertion adds the datom, in either representation. -/
theorem obs_insert (store : Store) (d : Datom) :
    (store.insert d).obs = store.obs.addDatom d := by
  rw [insert, obs_insertOrdMap store.isOrdMap_promote, obs_promote]

/-- Insertions add their datoms, and nothing else that a client sees. -/
theorem obs_foldl_insert (store : Store) (items : List Datom) :
    (items.foldl insert store).obs = store.obs.addDatoms items := by
  induction items generalizing store with
  | nil => rfl
  | cons d items ih =>
      rw [List.foldl_cons, Observation.addDatoms_cons, ← obs_insert, ih]

/-- Folding the LIVE update changes the LIVE maps only. -/
theorem foldl_liveApply (store : Store) (items : List Datom) :
    items.foldl liveApply store =
      { store with
        liveCausal := (liveApplyAll (store.liveCausal, store.liveSet) items).1
        liveSet := (liveApplyAll (store.liveCausal, store.liveSet) items).2 } := by
  induction items generalizing store with
  | nil => rfl
  | cons d items ih =>
      rw [List.foldl_cons, ih]
      rfl

/-- Applying stamped datoms adds them, in either representation. -/
theorem obs_applyDatoms (store : Store) (items : List Datom) :
    (store.applyDatoms items).obs = store.obs.addDatoms items := by
  cases hrepr : store.repr with
  | positional ps =>
      rw [Observation.addDatoms_eq]
      simp [applyDatoms, spliceTransactBatch, hrepr, foldl_liveApply, obs, datomSet,
        StoreRepr.datomSet]
  | ordMap datoms indexes =>
      have hord : store.IsOrdMap := ⟨datoms, indexes, hrepr⟩
      simp only [applyDatoms, hrepr, obs_demote]
      exact (obs_foldl_insertOrdMap hord items).1

end Observations

end Store

section Commits

/-- The epochs and schemas that a sequence of receipts passes through. -/
inductive Stamps : UInt64 → Schema → List TxReceipt → UInt64 → Schema → Prop
  | nil (epoch : UInt64) (schema : Schema) : Stamps epoch schema [] epoch schema
  | cons {epoch : UInt64} {schema next : Schema} {receipt : TxReceipt}
      {receipts : List TxReceipt} {epoch' : UInt64} {schema' : Schema} (order : IterOrder) :
      checkedSucc epoch = some receipt.epoch →
      evolveSchema order schema receipt.datoms = (.ok (), next) →
      Stamps receipt.epoch next receipts epoch' schema' →
      Stamps epoch schema (receipt :: receipts) epoch' schema'

/-- The abstract store after a sequence of committed transactions. -/
def Commits (before : Observation) (receipts : List TxReceipt) (after : Observation) : Prop :=
  ∃ epoch schema, Stamps before.epoch before.schema receipts epoch schema ∧
    after = before.commit epoch schema (receipts.flatMap TxReceipt.datoms)

/-- Stamped receipts in turn are stamped together. -/
theorem Stamps.append {epoch epoch' epoch'' : UInt64} {schema schema' schema'' : Schema}
    {left right : List TxReceipt} (hl : Stamps epoch schema left epoch' schema')
    (hr : Stamps epoch' schema' right epoch'' schema'') :
    Stamps epoch schema (left ++ right) epoch'' schema'' := by
  induction hl with
  | nil => exact hr
  | cons order hepoch hevolve _ ih => exact .cons order hepoch hevolve (ih hr)

/-- Epochs do not decrease along receipts. -/
theorem Stamps.epoch_le {epoch epoch' : UInt64} {schema schema' : Schema}
    {receipts : List TxReceipt} (h : Stamps epoch schema receipts epoch' schema') :
    epoch ≤ epoch' := by
  induction h with
  | nil => exact le_refl _
  | cons order hepoch _ _ ih => exact le_trans (lt_of_checkedSucc hepoch).le ih

/-- The epochs of the receipts lie after the first and up to the last. -/
theorem Stamps.epoch_mem {epoch epoch' : UInt64} {schema schema' : Schema}
    {receipts : List TxReceipt} (h : Stamps epoch schema receipts epoch' schema')
    {receipt : TxReceipt} (hreceipt : receipt ∈ receipts) :
    epoch < receipt.epoch ∧ receipt.epoch ≤ epoch' := by
  induction h with
  | nil => exact absurd hreceipt List.not_mem_nil
  | cons order hepoch _ hrest ih =>
      have hlt := lt_of_checkedSucc hepoch
      rcases List.mem_cons.mp hreceipt with rfl | hreceipt
      · exact ⟨hlt, hrest.epoch_le⟩
      · obtain ⟨hafter, hupto⟩ := ih hreceipt
        exact ⟨hlt.trans hafter, hupto⟩

/-- The last epoch is the greatest of the receipts'. -/
theorem Stamps.foldl_max {epoch epoch' : UInt64} {schema schema' : Schema}
    {receipts : List TxReceipt} (h : Stamps epoch schema receipts epoch' schema') :
    receipts.foldl (fun e r => max e r.epoch) epoch = epoch' := by
  induction h with
  | nil => rfl
  | cons order hepoch _ _ ih =>
      rw [List.foldl_cons, max_eq_right (lt_of_checkedSucc hepoch).le, ih]

/-- The last of some receipts has the last epoch. -/
theorem Stamps.epoch_getLast {epoch epoch' : UInt64} {schema schema' : Schema}
    {receipts : List TxReceipt} (h : Stamps epoch schema receipts epoch' schema')
    (hne : receipts ≠ []) : (receipts.getLast hne).epoch = epoch' := by
  induction h with
  | nil => exact absurd rfl hne
  | cons order _ _ hrest ih =>
      cases hrest with
      | nil => rfl
      | cons order' hepoch' hevolve' hrest' =>
          rw [List.getLast_cons (List.cons_ne_nil _ _)]
          exact ih (List.cons_ne_nil _ _)

/-- The first of some receipts has the least epoch. -/
theorem Stamps.epoch_head_le {epoch epoch' : UInt64} {schema schema' : Schema}
    {receipts : List TxReceipt} (h : Stamps epoch schema receipts epoch' schema')
    (hne : receipts ≠ []) {receipt : TxReceipt} (hreceipt : receipt ∈ receipts) :
    (receipts.head hne).epoch ≤ receipt.epoch := by
  cases h with
  | nil => exact absurd rfl hne
  | cons order _ _ hrest =>
      rcases List.mem_cons.mp hreceipt with rfl | hmem
      · exact le_refl _
      · exact (hrest.epoch_mem hmem).1.le

/-- The epochs of the receipts are consecutive. -/
theorem Stamps.map_epoch {epoch epoch' : UInt64} {schema schema' : Schema}
    {receipts : List TxReceipt} (h : Stamps epoch schema receipts epoch' schema') :
    receipts.map (fun receipt => receipt.epoch.toNat) =
      List.range' (epoch.toNat + 1) receipts.length := by
  induction h with
  | nil => rfl
  | cons order hepoch _ _ ih =>
      rw [List.map_cons, ih, checkedSucc_eq_some hepoch, List.length_cons, List.range'_succ]

/-- No receipt commits nothing. -/
theorem Commits.refl (o : Observation) : Commits o [] o :=
  ⟨o.epoch, o.schema, .nil _ _, rfl⟩

/-- Sequences of committed transactions compose. -/
theorem Commits.append {a b c : Observation} {left right : List TxReceipt}
    (hl : Commits a left b) (hr : Commits b right c) : Commits a (left ++ right) c := by
  obtain ⟨epoch, schema, hstamps, rfl⟩ := hl
  obtain ⟨epoch', schema', hstamps', rfl⟩ := hr
  refine ⟨epoch', schema', hstamps.append hstamps', ?_⟩
  rw [List.flatMap_append, Observation.commit_commit]

/-- The receipts after the epoch of a state of the run are those of the calls after it. -/
theorem Commits.filter_epoch {start middle final : Observation} {receipts new : List TxReceipt}
    (hbefore : Commits start receipts middle) (hafter : Commits middle new final) :
    (receipts ++ new).filter (fun receipt => middle.epoch < receipt.epoch) = new := by
  obtain ⟨epoch, schema, hstamps, rfl⟩ := hbefore
  obtain ⟨epoch', schema', hstamps', -⟩ := hafter
  have hold : receipts.filter (fun receipt => epoch < receipt.epoch) = [] := by
    refine List.filter_eq_nil_iff.mpr fun receipt hreceipt => ?_
    rw [decide_eq_true_eq, not_lt]
    exact (hstamps.epoch_mem hreceipt).2
  have hnew : new.filter (fun receipt => epoch < receipt.epoch) = new := by
    refine List.filter_eq_self.mpr fun receipt hreceipt => ?_
    rw [decide_eq_true_eq]
    exact (hstamps'.epoch_mem hreceipt).1
  show (receipts ++ new).filter (fun receipt => epoch < receipt.epoch) = new
  rw [List.filter_append, hold, hnew, List.nil_append]

/-- The datoms afterwards are the earlier ones and those of the receipts. -/
theorem Commits.mem_datomSet {before after : Observation} {receipts : List TxReceipt}
    (h : Commits before receipts after) {d : Datom} :
    d ∈ after.datomSet ↔ d ∈ before.datomSet ∨ ∃ receipt ∈ receipts, d ∈ receipt.datoms := by
  obtain ⟨epoch, schema, -, rfl⟩ := h
  rw [Observation.commit, Observation.datomSet_addDatoms, Finset.mem_union, List.mem_toFinset,
    List.mem_flatMap]

namespace Store

variable [Blake3]

/-- What a successful transaction does. -/
theorem transact_ok {order : IterOrder} {store : Store} {transaction : Transaction}
    {ctx : TransactContext} {receipt : TxReceipt}
    (h : (transact order store transaction ctx).1 = .ok receipt) :
    receipt.datoms = stampDatoms transaction.datoms ctx.txId ++
        transactMetadata transaction.node ctx ∧
      Commits store.obs [receipt] (transact order store transaction ctx).2.obs := by
  unfold transact at h ⊢
  split at h
  case isTrue => cases h
  case isFalse hne =>
      rw [if_neg hne]
      split at h
      case h_1 => cases h
      case h_2 epoch hepoch =>
          simp only at h ⊢
          split at h
          case h_1 => cases h
          case h_2 hevolve =>
              cases h
              refine ⟨rfl, epoch, _, .cons order hepoch (Prod.ext hevolve rfl) (.nil _ _), ?_⟩
              simp only [obs_applyDatoms, List.flatMap_cons, List.flatMap_nil, List.append_nil]
              exact Observation.addDatoms_with store.obs _ _ _

/-- The stores that differ from a given one in epoch and schema only. -/
def SameBody (store other : Store) : Prop :=
  other = { store with epoch := other.epoch, schema := other.schema }

/-- Stores of the same body look alike but for the epoch. -/
theorem SameBody.obs_eq {store other : Store} (h : store.SameBody other) :
    other.obs = { store.obs with epoch := other.epoch, schema := other.schema } := by
  rw [h]
  rfl

/-- The stamping loop changes the epoch and the schema only, also when it fails. -/
theorem sameBody_stampBatches (orders : Nat → IterOrder) (index : Nat) (store : Store)
    (batches : List (List Datom × TxId)) :
    store.SameBody (stampBatches orders index store batches).2 := by
  fun_induction stampBatches orders index store batches with
  | case1 => rfl
  | case2 => rfl
  | case3 => rfl
  | case4 => rfl
  | case5 index store datoms txId rest hne epoch hepoch txDatoms evolved store₁ hok receipts
      store₂ hrest ih =>
      rw [hrest] at ih
      rw [SameBody] at ih ⊢
      rw [ih]
  | case6 index store datoms txId rest hne epoch hepoch txDatoms evolved store₁ hok e store₂
      hrest ih =>
      rw [hrest] at ih
      rw [SameBody] at ih ⊢
      rw [ih]

/-- What the first transaction of a stamping loop that succeeds does. -/
theorem stampBatches_cons_ok {orders : Nat → IterOrder} {index : Nat} {store : Store}
    {datoms : List Datom} {txId : TxId} {rest : List (List Datom × TxId)}
    {receipts : List TxReceipt}
    (h : (stampBatches orders index store ((datoms, txId) :: rest)).1 = .ok receipts) :
    ∃ epoch schema more, datoms ≠ [] ∧ checkedSucc store.epoch = some epoch ∧
      evolveSchema (orders index) store.schema (stampAndAppendMetadata datoms txId) =
        (.ok (), schema) ∧
      (stampBatches orders (index + 1) { store with epoch := epoch, schema := schema } rest).1 =
        .ok more ∧
      receipts = ⟨epoch, stampAndAppendMetadata datoms txId⟩ :: more := by
  unfold stampBatches at h
  split at h
  case isTrue => cases h
  case isFalse hne =>
      split at h
      case h_1 => cases h
      case h_2 epoch hepoch =>
          rcases hevolve : evolveSchema (orders index) store.schema
            (stampAndAppendMetadata datoms txId) with ⟨_ | _, schema⟩
          · simp only [hevolve] at h
            cases h
          · simp only [hevolve] at h
            split at h
            case h_1 more stamped hrest =>
                cases h
                refine ⟨epoch, schema, more, fun hnil => hne (List.isEmpty_iff.mpr hnil),
                  hepoch, rfl,
                  ?_, rfl⟩
                rw [hrest]
            case h_2 => cases h

/-- One transaction of a stamping loop. -/
theorem stampBatches_cons {orders : Nat → IterOrder} {index : Nat} {store : Store}
    {datoms : List Datom} {txId : TxId} {rest : List (List Datom × TxId)} {epoch : UInt64}
    {schema : Schema} {more : List TxReceipt}
    (hne : datoms ≠ []) (hepoch : checkedSucc store.epoch = some epoch)
    (hevolve : evolveSchema (orders index) store.schema (stampAndAppendMetadata datoms txId) =
      (.ok (), schema))
    (hrest : (stampBatches orders (index + 1)
      { store with epoch := epoch, schema := schema } rest).1 = .ok more) :
    stampBatches orders index store ((datoms, txId) :: rest) =
      (.ok (⟨epoch, stampAndAppendMetadata datoms txId⟩ :: more),
        (stampBatches orders
          (index + 1) { store with epoch := epoch, schema := schema } rest).2) := by
  rw [stampBatches, if_neg fun hempty => hne (List.isEmpty_iff.mp hempty), hepoch]
  simp only [hevolve]
  rcases hstamped : stampBatches orders (index + 1)
    { store with epoch := epoch, schema := schema } rest with ⟨result, stamped⟩
  rw [hstamped] at hrest
  simp only at hrest
  subst hrest
  rfl

/-- What a successful stamping loop does. -/
theorem stampBatches_ok {orders : Nat → IterOrder} {index : Nat} {store : Store}
    {batches : List (List Datom × TxId)} {receipts : List TxReceipt}
    (h : (stampBatches orders index store batches).1 = .ok receipts) :
    receipts.map TxReceipt.datoms =
        batches.map (fun batch => stampAndAppendMetadata batch.1 batch.2) ∧
      Stamps store.epoch store.schema receipts (stampBatches orders index store batches).2.epoch
        (stampBatches orders index store batches).2.schema := by
  induction batches generalizing index store receipts with
  | nil =>
      cases h
      exact ⟨rfl, .nil _ _⟩
  | cons batch rest ih =>
      obtain ⟨epoch, schema, more, hne, hepoch, hevolve, hrest, rfl⟩ := stampBatches_cons_ok h
      obtain ⟨hdatoms, hstamps⟩ := ih hrest
      rw [stampBatches_cons hne hepoch hevolve hrest]
      refine ⟨?_, .cons (orders index) hepoch hevolve hstamps⟩
      rw [List.map_cons, List.map_cons, hdatoms]

/-- What a successful batch does. -/
theorem batchSpliceTransact_ok {orders : Nat → IterOrder} {store : Store}
    {batches : List (List Datom × TxId)} {receipts : List TxReceipt}
    (h : (batchSpliceTransact orders store batches).1 = .ok receipts) :
    receipts.map TxReceipt.datoms =
        batches.map (fun batch => stampAndAppendMetadata batch.1 batch.2) ∧
      Commits store.obs receipts (batchSpliceTransact orders store batches).2.obs := by
  unfold batchSpliceTransact at h ⊢
  split at h
  case isTrue hempty =>
      cases h
      rw [if_pos hempty, List.isEmpty_iff.mp hempty]
      exact ⟨rfl, Commits.refl _⟩
  case isFalse hne =>
      rw [if_neg hne]
      have hbody := sameBody_stampBatches orders 0 store batches
      split at h
      case h_1 => cases h
      case h_2 receipts' store' hstamp =>
          cases h
          obtain ⟨hdatoms, hstamps⟩ := stampBatches_ok (by rw [hstamp])
          rw [hstamp] at hstamps hbody
          refine ⟨hdatoms, store'.epoch, store'.schema, hstamps, ?_⟩
          simp only [obs_applyDatoms, hbody.obs_eq]
          exact Observation.addDatoms_with store.obs _ _ _

end Store

end Commits

end Ferratomic
