import Ferratomic.Store.Orders

/-!
# A batch and its transactions one by one

A batch of a store stamps its transactions in turn and merges all their datoms at once. It leaves
what the transactions leave one after the other, up to the iteration orders of schema evolution: the
main theorem, `batch_eq_sequential_iff`, says when the two agree whatever these orders are.
-/

namespace Ferratomic

open Lib

section Batches

variable [Blake3]

/-- Every list of a batch as a transaction of its own, without frontier and signature. -/
def Store.transactAll (orders : Nat → IterOrder) (index : Nat) (store : Store) :
    List (List Datom × TxId) → Except FerraError (List TxReceipt) × Store
  | [] => (.ok [], store)
  | (datoms, txId) :: rest =>
      match store.transact (orders index) ⟨txId.node, datoms⟩ (batchContext txId) with
      | (.error e, store) => (.error e, store)
      | (.ok receipt, store) =>
          match transactAll orders (index + 1) store rest with
          | (.error e, store) => (.error e, store)
          | (.ok receipts, store) => (.ok (receipt :: receipts), store)

/-- The datoms of the transactions of a batch. -/
def stampedLists (batches : List (List Datom × TxId)) : List (List Datom) :=
  batches.map fun batch => stampAndAppendMetadata batch.1 batch.2

section Definitions

omit [Blake3] in
/-- A definition is that of an entity. -/
theorem mem_definitions_iff {datoms : List Datom} {pair : Attribute × AttributeDef} :
    pair ∈ definitions datoms ↔
      ∃ entity, extractAttributeDef (datoms.filter (·.entity = entity)) = .ok (some pair) := by
  rw [mem_definitions]
  constructor
  · rintro ⟨group, hgroup, hdef⟩
    obtain ⟨d, -, rfl⟩ := mem_groupByEntity.mp hgroup
    exact ⟨d.entity, hdef⟩
  · rintro ⟨entity, hdef⟩
    obtain ⟨d, hd, rfl⟩ := exists_of_extractAttributeDef hdef
    exact ⟨_, mem_groupByEntity.mpr ⟨d, hd, rfl⟩, hdef⟩

/-- Stamping and metadata define nothing. -/
theorem mem_definitions_stamped (batch : List Datom × TxId) (pair : Attribute × AttributeDef) :
    pair ∈ definitions (stampAndAppendMetadata batch.1 batch.2) ↔ pair ∈ definitions batch.1 := by
  have hstamped : Stamped ⟨batch.2.node, batch.1⟩
      ⟨0, stampAndAppendMetadata batch.1 batch.2⟩ :=
    ⟨batch.2, _, rfl, fun d hd => attr_mem_metadataAttributes hd⟩
  rw [mem_definitions_iff, mem_definitions_iff]
  simp only [extractAttributeDef_stamped hstamped]

end Definitions

section Runs

namespace Store

variable {orders : Nat → IterOrder} {index : Nat} {store : Store} {datoms : List Datom}
  {txId : TxId} {rest batches : List (List Datom × TxId)} {receipts : List TxReceipt}

/-- A stamping loop that succeeds can read every transaction and evolves the schema through them;
one from another store of the same epoch, in other orders, returns the same and ends in the same
epoch. -/
theorem stampBatches_other
    (h : (stampBatches orders index store batches).1 = .ok receipts) :
    (∀ datoms ∈ stampedLists batches, Readable datoms) ∧
      ∀ (others : Nat → IterOrder) (other : Store), other.epoch = store.epoch →
        (stampBatches others index other batches).1 = .ok receipts ∧
        (stampBatches others index other batches).2.epoch =
          (stampBatches orders index store batches).2.epoch ∧
        (stampBatches others index other batches).2.schema =
          evolveAll others index other.schema (stampedLists batches) := by
  induction batches generalizing index store receipts with
  | nil =>
      cases h
      exact ⟨fun datoms hdatoms => absurd hdatoms List.not_mem_nil,
        fun others other hepoch => ⟨rfl, hepoch, rfl⟩⟩
  | cons batch rest ih =>
      obtain ⟨datoms, txId⟩ := batch
      obtain ⟨epoch, schema, more, hne, hsucc, hevolve, hrest, rfl⟩ := stampBatches_cons_ok h
      -- whether the schema evolves depends on the datoms alone, not on the order or the schema
      obtain ⟨hread, hother⟩ := ih hrest
      have hfirst : Readable (stampAndAppendMetadata datoms txId) :=
        evolveSchema_ok_iff.mp (congrArg Prod.fst hevolve)
      refine ⟨List.forall_mem_cons.mpr ⟨hfirst, hread⟩, fun others other hepoch => ?_⟩
      obtain ⟨schema', hevolve'⟩ : ∃ schema', evolveSchema (others index) other.schema
          (stampAndAppendMetadata datoms txId) = (.ok (), schema') :=
        ⟨_, Prod.ext (evolveSchema_ok_iff.mpr hfirst) rfl⟩
      obtain ⟨hresult, hlast, hschema⟩ :=
        hother others { other with epoch := epoch, schema := schema' } rfl
      have hsucc' : checkedSucc other.epoch = some epoch := by rw [hepoch, hsucc]
      rw [stampBatches_cons hne hsucc' hevolve' hresult, stampBatches_cons hne hsucc hevolve hrest]
      refine ⟨rfl, hlast, hschema.trans ?_⟩
      show _ = evolveAll others (index + 1) (evolveSchema (others index) other.schema _).2 _
      rw [hevolve']
      rfl

/-- A transaction whose definitions can be installed. -/
theorem transact_of_evolve {order : IterOrder} {transaction : Transaction} {ctx : TransactContext}
    {epoch : UInt64} {schema : Schema} (hne : transaction.datoms ≠ [])
    (hsucc : checkedSucc store.epoch = some epoch)
    (hevolve : evolveSchema order store.schema (stampDatoms transaction.datoms ctx.txId ++
      transactMetadata transaction.node ctx) = (.ok (), schema)) :
    store.transact order transaction ctx =
      (.ok ⟨epoch,
        stampDatoms transaction.datoms ctx.txId ++ transactMetadata transaction.node ctx⟩,
        { store with epoch := epoch, schema := schema }.applyDatoms
          (stampDatoms transaction.datoms ctx.txId ++ transactMetadata transaction.node ctx)) := by
  rw [transact, if_neg fun hempty => hne (List.isEmpty_iff.mp hempty), hsucc]
  simp only [hevolve]

/-- Transactions one by one from a store with the epoch and the schema of a stamping loop. -/
theorem transactAll_of_stampBatches {other : Store}
    (h : (stampBatches orders index store batches).1 = .ok receipts)
    (hepoch : other.epoch = store.epoch) (hschema : other.schema = store.schema) :
    (transactAll orders index other batches).1 = .ok receipts ∧
      (transactAll orders index other batches).2.obs =
        other.obs.commit (stampBatches orders index store batches).2.epoch
          (stampBatches orders index store batches).2.schema
          (receipts.flatMap TxReceipt.datoms) := by
  induction batches generalizing index store other receipts with
  | nil =>
      cases h
      refine ⟨rfl, ?_⟩
      show other.obs = { other.obs with epoch := store.epoch, schema := store.schema }
      rw [← hepoch, ← hschema]
      rfl
  | cons batch rest ih =>
      obtain ⟨datoms, txId⟩ := batch
      -- the stamps depend on the epoch and the schema alone, and before every batch both stores
      -- have the same
      obtain ⟨epoch, schema, more, hne, hsucc, hevolve, hrest, rfl⟩ := stampBatches_cons_ok h
      rw [stampBatches_cons hne hsucc hevolve hrest]
      let applied : Store := { other with epoch := epoch, schema := schema }.applyDatoms
        (stampAndAppendMetadata datoms txId)
      have hobs : applied.obs =
          other.obs.commit epoch schema (stampAndAppendMetadata datoms txId) := by
        rw [obs_applyDatoms]
        exact Observation.addDatoms_with other.obs _ _ _
      have htransact : other.transact (orders index) ⟨txId.node, datoms⟩ (batchContext txId) =
          (.ok ⟨epoch, stampAndAppendMetadata datoms txId⟩, applied) := by
        rw [← hschema] at hevolve
        rw [← hepoch] at hsucc
        exact transact_of_evolve hne hsucc hevolve
      obtain ⟨hresult, hfinal⟩ := @ih (index + 1) _ more applied hrest
        (congrArg Observation.epoch hobs) (congrArg Observation.schema hobs)
      rcases hall : transactAll orders (index + 1) applied rest with ⟨result, final⟩
      rw [hall] at hresult hfinal
      simp only at hresult
      subst hresult
      rw [transactAll, htransact]
      simp only [hall]
      refine ⟨trivial, ?_⟩
      rw [hfinal, hobs, Observation.commit_commit, List.flatMap_cons]

/-- A batch that succeeds and its transactions one by one, in any orders: they return the same and
leave the same but for the schema, which is that of the orders. -/
theorem batchSpliceTransact_transactAll
    (h : (batchSpliceTransact orders store batches).1 = .ok receipts) :
    (∀ datoms ∈ stampedLists batches, Readable datoms) ∧ ∃ epoch, ∀ others : Nat → IterOrder,
      let after := store.obs.commit epoch
        (evolveAll others 0 store.schema (stampedLists batches)) (receipts.flatMap TxReceipt.datoms)
      ((batchSpliceTransact others store batches).1 = .ok receipts ∧
        (batchSpliceTransact others store batches).2.obs = after) ∧
      (transactAll others 0 store batches).1 = .ok receipts ∧
        (transactAll others 0 store batches).2.obs = after := by
  by_cases hempty : batches = []
  · subst hempty
    cases h
    exact ⟨fun datoms hdatoms => absurd hdatoms List.not_mem_nil, store.epoch,
      fun others => ⟨⟨rfl, rfl⟩, rfl, rfl⟩⟩
  · have hne : ¬ batches.isEmpty = true := fun hnil => hempty (List.isEmpty_iff.mp hnil)
    have hstamp : (stampBatches orders 0 store batches).1 = .ok receipts := by
      rw [batchSpliceTransact, if_neg hne] at h
      split at h
      case h_1 => cases h
      case h_2 receipts' stamped hstamp =>
          cases h
          rw [hstamp]
    -- the stamps are the same in every order, and the batch is their one splice
    obtain ⟨hread, hother⟩ := stampBatches_other hstamp
    refine ⟨hread, (stampBatches orders 0 store batches).2.epoch, fun others => ?_⟩
    obtain ⟨hresult, hepoch, hschema⟩ := hother others store rfl
    obtain ⟨hall, hobs⟩ := transactAll_of_stampBatches hresult rfl rfl
    rw [hepoch, hschema] at hobs
    refine ⟨?_, hall, hobs⟩
    have hbody := sameBody_stampBatches others 0 store batches
    rcases hstamped : stampBatches others 0 store batches with ⟨result, stamped⟩
    rw [hstamped] at hresult hepoch hschema hbody
    simp only at hresult
    subst hresult
    rw [batchSpliceTransact, if_neg hne, hstamped]
    refine ⟨rfl, ?_⟩
    show (stamped.applyDatoms (receipts.flatMap TxReceipt.datoms)).obs = _
    rw [obs_applyDatoms, hbody.obs_eq, ← hepoch, ← hschema]
    exact Observation.addDatoms_with store.obs _ _ _

/-- A batch that succeeds returns and leaves what its transactions do one by one, whatever the
iteration orders of the two runs are, if and only if the last transaction that defines an attribute
defines it in one way. -/
theorem batch_eq_sequential_iff
    (h : ∃ orders receipts, (batchSpliceTransact orders store batches).1 = .ok receipts) :
    (∀ orders others,
      (batchSpliceTransact orders store batches).1 = (transactAll others 0 store batches).1 ∧
      (batchSpliceTransact orders store batches).2.obs =
        (transactAll others 0 store batches).2.obs) ↔
    ∀ attr d d', LastDefines (batches.map Prod.fst) attr d →
      LastDefines (batches.map Prod.fst) attr d' → d = d' := by
  obtain ⟨orders₀, receipts, hok⟩ := h
  obtain ⟨hread, epoch, hruns⟩ := batchSpliceTransact_transactAll hok
  have hlast {attr : Attribute} {d : AttributeDef} :
      LastDefines (batches.map Prod.fst) attr d ↔ LastDefines (stampedLists batches) attr d :=
    lastDefines_map fun batch pair => (mem_definitions_stamped batch pair).symm
  simp only [hlast]
  rw [← evolveAll_eq_iff hread 0 store.schema]
  constructor
  · intro hsame orders others
    obtain ⟨⟨-, hbatch⟩, -⟩ := hruns orders
    obtain ⟨-, -, hsequential⟩ := hruns others
    have hobs := (hsame orders others).2
    rw [hbatch, hsequential] at hobs
    exact congrArg Observation.schema hobs
  · intro hschema orders others
    obtain ⟨⟨hresult, hbatch⟩, -⟩ := hruns orders
    obtain ⟨-, hresult', hsequential⟩ := hruns others
    rw [hresult, hresult', hbatch, hsequential, hschema orders others]
    exact ⟨rfl, rfl⟩

end Store

end Runs

end Batches

namespace Sample

/-- A batch of two transactions that define nothing. -/
def inertBatch : List (List Datom × TxId) :=
  [([asserted], tx), ([retracted], tx)]

/-- The sample batch commits. -/
theorem batch_inertBatch : ∃ orders receipts,
    (Store.batchSpliceTransact orders .genesis inertBatch).1 = .ok receipts := by
  have hok : (Store.batchSpliceTransact (fun _ => .arrival) .genesis inertBatch).1.isOk = true := by
    decide +kernel
  cases hresult : (Store.batchSpliceTransact (fun _ => .arrival) .genesis inertBatch).1 with
  | error e =>
      rw [hresult] at hok
      cases hok
  | ok receipts => exact ⟨fun _ => .arrival, receipts, hresult⟩

/-- The sample batch defines no attribute. -/
theorem definitions_inertBatch :
    ∀ datoms ∈ inertBatch.map Prod.fst, definitions datoms = [] := by
  decide +kernel

end Sample

open Sample

namespace Store

/-- Two transactions without definitions, in the orders of first and of last arrival. -/
theorem batch_eq_sequential_inert :
    (∃ orders receipts, (batchSpliceTransact orders genesis inertBatch).1 = .ok receipts) ∧
      (batchSpliceTransact (fun _ => .arrival) genesis inertBatch).1 =
        (transactAll (fun _ => lastArrival) 0 genesis inertBatch).1 ∧
      (batchSpliceTransact (fun _ => .arrival) genesis inertBatch).2.obs =
        (transactAll (fun _ => lastArrival) 0 genesis inertBatch).2.obs := by
  refine ⟨batch_inertBatch, (batch_eq_sequential_iff batch_inertBatch).mpr ?_ _ _⟩
  intro attr d d' hd
  obtain ⟨last, hlast, hmem⟩ := hd.exists_mem
  rw [definitions_inertBatch last hlast] at hmem
  exact absurd hmem List.not_mem_nil

/-- Two entities of one transaction define one attribute: batch and transaction succeed and leave
different schemas when their hash maps visit the entities in different orders. -/
theorem batch_ne_sequential :
    (batchSpliceTransact (fun _ => .arrival) genesis [(defineTwice.datoms, tx)]).1.isOk = true ∧
      (batchSpliceTransact (fun _ => .arrival) genesis [(defineTwice.datoms, tx)]).2.schema ≠
        (transactAll (fun _ => lastArrival) 0 genesis [(defineTwice.datoms, tx)]).2.schema := by
  have hok : (batchSpliceTransact (fun _ => .arrival) genesis
      [(defineTwice.datoms, tx)]).1.isOk = true := by decide +kernel
  have hlong : (batchSpliceTransact (fun _ => .arrival) genesis
      [(defineTwice.datoms, tx)]).2.schema["user/name"]? = some ⟨.long, .one, .lww, none⟩ := by
    decide +kernel
  have hstring : (transactAll (fun _ => lastArrival) 0 genesis
      [(defineTwice.datoms, tx)]).2.schema["user/name"]? = some ⟨.string, .one, .lww, none⟩ := by
    decide +kernel
  refine ⟨hok, fun heq => ?_⟩
  rw [heq, hstring] at hlong
  exact absurd (Option.some.inj hlong) (by decide)

end Store

end Ferratomic
