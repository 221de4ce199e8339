import Ferratomic.Lib.BinarySearch
import Ferratomic.Store.Convergence

/-!
# Representation independence

Every operation branches on the representation of the store: a contiguous array is spliced, a
write-active tree is inserted into and demoted. `StoreOp.observe` is the operation on abstract
stores, and `obs_apply` says that the operation refines it in both representations. What is left is
the iteration order of the hash map in `evolve_schema`, which differs from run to run. The main
theorem, `representation_independent`, says that two runs over the two representations of a store
agree in everything a client sees when no step depends on that order; `order_splits_runs` is a
transaction that does.
-/

namespace Ferratomic

open Lib

section Independence

variable [Blake3]

/-- An operation on a store. A merge takes another store, on its right or on its left. -/
inductive StoreOp where
  | transact (transaction : Transaction) (ctx : TransactContext)
  | batchSpliceTransact (batches : List (List Datom × TxId))
  | insert (d : Datom)
  | replayEntry (epoch : UInt64) (datoms : List Datom)
  | batchReplay (entries : List (UInt64 × List Datom))
  | fromMerge (other : Store)
  | mergeInto (other : Store)

/-- What an operation returns. -/
inductive Outcome where
  | receipt (result : Except FerraError TxReceipt)
  | receipts (result : Except FerraError (List TxReceipt))
  | done (result : Except FerraError Unit)

namespace Observation

/-- `transact` on an abstract store. -/
def transact (order : IterOrder) (o : Observation) (transaction : Transaction)
    (ctx : TransactContext) : Except FerraError TxReceipt × Observation :=
  if transaction.datoms.isEmpty then (.error .emptyTransaction, o)
  else
    match checkedSucc o.epoch with
    | none => (.error (.invariantViolation "INV-FERR-007" "epoch counter overflow"), o)
    | some epoch =>
        let allDatoms := stampDatoms transaction.datoms ctx.txId ++
          transactMetadata transaction.node ctx
        let evolved := evolveSchema order o.schema allDatoms
        match evolved.1 with
        | .error e => (.error e, { o with epoch := epoch, schema := evolved.2 })
        | .ok () => (.ok ⟨epoch, allDatoms⟩, o.commit epoch evolved.2 allDatoms)

/-- The stamping loop of `batch_splice_transact` on an abstract store. -/
def stampBatches (orders : Nat → IterOrder) (index : Nat) (o : Observation) :
    List (List Datom × TxId) → Except FerraError (List TxReceipt) × Observation
  | [] => (.ok [], o)
  | (datoms, txId) :: rest =>
      if datoms.isEmpty then (.error .emptyTransaction, o)
      else
        match checkedSucc o.epoch with
        | none =>
            (.error (.invariantViolation "INV-FERR-007" "epoch counter overflow in batch"), o)
        | some epoch =>
            let txDatoms := stampAndAppendMetadata datoms txId
            let evolved := evolveSchema (orders index) o.schema txDatoms
            let o := { o with epoch := epoch, schema := evolved.2 }
            match evolved.1 with
            | .error e => (.error e, o)
            | .ok () =>
                match stampBatches orders (index + 1) o rest with
                | (.ok receipts, o) => (.ok (⟨epoch, txDatoms⟩ :: receipts), o)
                | (.error e, o) => (.error e, o)

/-- `batch_splice_transact` on an abstract store. -/
def batchSpliceTransact (orders : Nat → IterOrder) (o : Observation)
    (batches : List (List Datom × TxId)) : Except FerraError (List TxReceipt) × Observation :=
  match stampBatches orders 0 o batches with
  | (.error e, o) => (.error e, o)
  | (.ok receipts, o) => (.ok receipts, o.addDatoms (receipts.flatMap TxReceipt.datoms))

/-- `replay_entry` on an abstract store. -/
def replayEntry (order : IterOrder) (o : Observation) (epoch : UInt64) (datoms : List Datom) :
    Except FerraError Unit × Observation :=
  let evolved := evolveSchema order o.schema datoms
  (evolved.1, o.commit epoch evolved.2 datoms)

/-- `batch_replay` on an abstract store. -/
def batchReplay (orders : Nat → IterOrder) (index : Nat) (o : Observation) :
    List (UInt64 × List Datom) → Except FerraError Unit × Observation
  | [] => (.ok (), o)
  | (epoch, datoms) :: rest =>
      match o.replayEntry (orders index) epoch datoms with
      | (.error e, o) => (.error e, o)
      | (.ok (), o) => batchReplay orders (index + 1) o rest

end Observation

namespace StoreOp

/-- The operation on a store. -/
def apply (orders : Nat → IterOrder) (store : Store) : StoreOp → Outcome × Store
  | transact transaction ctx =>
      let applied := Store.transact (orders 0) store transaction ctx
      (.receipt applied.1, applied.2)
  | batchSpliceTransact batches =>
      let applied := Store.batchSpliceTransact orders store batches
      (.receipts applied.1, applied.2)
  | insert d => (.done (.ok ()), store.insert d)
  | replayEntry epoch datoms =>
      let applied := Store.replayEntry (orders 0) store epoch datoms
      (.done applied.1, applied.2)
  | batchReplay entries =>
      let applied := Store.batchReplay orders store entries
      (.done applied.1, applied.2)
  | fromMerge other => (.done (.ok ()), Store.fromMerge store other)
  | mergeInto other => (.done (.ok ()), Store.fromMerge other store)

/-- The operation on an abstract store. -/
def observe (orders : Nat → IterOrder) (o : Observation) : StoreOp → Outcome × Observation
  | transact transaction ctx =>
      let applied := o.transact (orders 0) transaction ctx
      (.receipt applied.1, applied.2)
  | batchSpliceTransact batches =>
      let applied := o.batchSpliceTransact orders batches
      (.receipts applied.1, applied.2)
  | insert d => (.done (.ok ()), o.addDatom d)
  | replayEntry epoch datoms =>
      let applied := o.replayEntry (orders 0) epoch datoms
      (.done applied.1, applied.2)
  | batchReplay entries =>
      let applied := o.batchReplay orders 0 entries
      (.done applied.1, applied.2)
  | fromMerge other => (.done (.ok ()), o.merge other.obs)
  | mergeInto other => (.done (.ok ()), other.obs.merge o)

end StoreOp

section Refinement

namespace Store

/-- A client sees the epoch of the store. -/
@[simp]
theorem obs_epoch (store : Store) : store.obs.epoch = store.epoch := rfl

/-- A client sees the schema of the store. -/
@[simp]
theorem obs_schema (store : Store) : store.obs.schema = store.schema := rfl

/-- A store that only moves its epoch and its schema. -/
theorem obs_with (store : Store) (epoch : UInt64) (schema : Schema) :
    ({ store with epoch := epoch, schema := schema } : Store).obs =
      { store.obs with epoch := epoch, schema := schema } := rfl

/-- `transact` computes on stores what it computes on observations. -/
theorem transact_refines (order : IterOrder) (store : Store) (transaction : Transaction)
    (ctx : TransactContext) :
    store.obs.transact order transaction ctx =
      ((transact order store transaction ctx).1, (transact order store transaction ctx).2.obs) := by
  simp only [transact, Observation.transact, obs_epoch, obs_schema]
  split
  case isTrue => rfl
  case isFalse =>
      cases checkedSucc store.epoch with
      | none => rfl
      | some epoch =>
          simp only
          rcases evolveSchema order store.schema (stampDatoms transaction.datoms ctx.txId ++
            transactMetadata transaction.node ctx) with ⟨_ | _, schema⟩
          · rfl
          · simp only [obs_applyDatoms, obs_with, Observation.addDatoms_with]

/-- `stamp_batches` computes on stores what it computes on observations. -/
theorem stampBatches_refines (orders : Nat → IterOrder) (index : Nat) (store : Store)
    (batches : List (List Datom × TxId)) :
    store.obs.stampBatches orders index batches =
      ((stampBatches orders index store batches).1,
        (stampBatches orders index store batches).2.obs) := by
  induction batches generalizing index store with
  | nil => rfl
  | cons batch rest ih =>
      obtain ⟨datoms, txId⟩ := batch
      simp only [stampBatches, Observation.stampBatches, obs_epoch, obs_schema]
      split
      case isTrue => rfl
      case isFalse =>
          cases checkedSucc store.epoch with
          | none => rfl
          | some epoch =>
              simp only
              rcases evolveSchema (orders index) store.schema
                (stampAndAppendMetadata datoms txId) with ⟨_ | _, schema⟩
              · rfl
              · simp only [← obs_with, ih]
                rcases stampBatches orders (index + 1)
                  { store with epoch := epoch, schema := schema } rest with ⟨_ | _, stamped⟩
                · rfl
                · rfl

/-- The batch splice computes on stores what it computes on observations. -/
theorem batchSpliceTransact_refines (orders : Nat → IterOrder) (store : Store)
    (batches : List (List Datom × TxId)) :
    store.obs.batchSpliceTransact orders batches =
      ((batchSpliceTransact orders store batches).1,
        (batchSpliceTransact orders store batches).2.obs) := by
  rw [Observation.batchSpliceTransact, stampBatches_refines, batchSpliceTransact]
  by_cases hempty : batches.isEmpty = true
  · rw [if_pos hempty, List.isEmpty_iff.mp hempty]
    rfl
  · rw [if_neg hempty]
    rcases stampBatches orders 0 store batches with ⟨_ | receipts, stamped⟩
    · rfl
    · simp only [obs_applyDatoms]

/-- The replay of an entry computes on stores what it computes on observations. -/
theorem replayEntry_refines (order : IterOrder) (store : Store) (epoch : UInt64)
    (datoms : List Datom) :
    store.obs.replayEntry order epoch datoms =
      ((replayEntry order store epoch datoms).1, (replayEntry order store epoch datoms).2.obs) := by
  rw [fst_replayEntry, obs_replayEntry]
  rfl

/-- The entry loop of a batch replay, in the write-active representation. -/
theorem replayEntries_refines (orders : Nat → IterOrder) (index : Nat) {store : Store}
    (hord : store.IsOrdMap) (entries : List (UInt64 × List Datom)) :
    store.obs.batchReplay orders index entries =
      ((replayEntries orders index store entries).1,
        (replayEntries orders index store entries).2.obs) := by
  induction entries generalizing index store with
  | nil => rfl
  | cons entry rest ih =>
      obtain ⟨epoch, datoms⟩ := entry
      obtain ⟨hobs, hord'⟩ := obs_foldl_insertOrdMap hord datoms
      have hschema : (datoms.foldl insertOrdMap store).schema = store.schema := by
        have h := congrArg Observation.schema hobs
        rwa [Observation.addDatoms_eq] at h
      have hnext (schema : Schema) :
          store.obs.commit epoch schema datoms =
            ({ datoms.foldl insertOrdMap store with epoch := epoch, schema := schema } :
              Store).obs := by
        show _ = { (datoms.foldl insertOrdMap store).obs with epoch := epoch, schema := schema }
        rw [hobs]
        rfl
      simp only [replayEntries, Observation.batchReplay, Observation.replayEntry, obs_schema,
        hschema, hnext]
      rcases evolveSchema (orders index) store.schema datoms with ⟨_ | _, schema⟩
      · rfl
      · exact ih (index + 1) hord'

/-- The batch replay computes on stores what it computes on observations. -/
theorem batchReplay_refines (orders : Nat → IterOrder) (store : Store)
    (entries : List (UInt64 × List Datom)) :
    store.obs.batchReplay orders 0 entries =
      ((batchReplay orders store entries).1, (batchReplay orders store entries).2.obs) := by
  rw [batchReplay]
  split
  case isTrue hempty =>
      rw [List.isEmpty_iff.mp hempty]
      rfl
  case isFalse =>
      rw [← obs_promote, replayEntries_refines orders 0 store.isOrdMap_promote]
      rcases replayEntries orders 0 store.promote entries with ⟨_ | _, replayed⟩
      · rfl
      · simp only [obs_demote]

/-- Every operation refines the operation on abstract stores, in either representation. -/
theorem obs_apply (orders : Nat → IterOrder) (store : Store) (op : StoreOp) :
    op.observe orders store.obs = ((op.apply orders store).1, (op.apply orders store).2.obs) := by
  cases op with
  | transact transaction ctx => simp only [StoreOp.observe, StoreOp.apply, transact_refines]
  | batchSpliceTransact batches =>
      simp only [StoreOp.observe, StoreOp.apply, batchSpliceTransact_refines]
  | insert d => simp only [StoreOp.observe, StoreOp.apply, obs_insert]
  | replayEntry epoch datoms => simp only [StoreOp.observe, StoreOp.apply, replayEntry_refines]
  | batchReplay entries => simp only [StoreOp.observe, StoreOp.apply, batchReplay_refines]
  | fromMerge other => simp only [StoreOp.observe, StoreOp.apply, obs_fromMerge]
  | mergeInto other => simp only [StoreOp.observe, StoreOp.apply, obs_fromMerge]

end Store

end Refinement

section Orders

/-- Installing the attributes that the datoms define gives the same in every iteration order. -/
def EvolvesAlike (schema : Schema) (datoms : List Datom) : Prop :=
  ∀ order other, evolveSchema order schema datoms = evolveSchema other schema datoms

omit [Blake3] in
/-- Datoms that can be read and in which no two entities define one attribute. -/
theorem evolvesAlike_of_distinctIdents {schema : Schema} {datoms : List Datom}
    (hdistinct : DistinctIdents datoms)
    (hread : ∀ group ∈ groupByEntity datoms, ∃ found, extractAttributeDef group = .ok found) :
    EvolvesAlike schema datoms := fun order _ =>
  evolveSchema_order_irrel hdistinct (evolveSchema_ok_iff.mpr hread) order

/-- The transactions of a batch that are reached evolve the schema alike in every order. -/
def StampsAlike (epoch : UInt64) (schema : Schema) : List (List Datom × TxId) → Prop
  | [] => True
  | (datoms, txId) :: rest =>
      datoms ≠ [] → ∀ next, checkedSucc epoch = some next →
        EvolvesAlike schema (stampAndAppendMetadata datoms txId) ∧
          ∀ schema', evolveSchema .arrival schema (stampAndAppendMetadata datoms txId) =
            (.ok (), schema') → StampsAlike next schema' rest

omit [Blake3] in
/-- The entries of a replay that are reached evolve the schema alike in every order. -/
def ReplaysAlike (schema : Schema) : List (UInt64 × List Datom) → Prop
  | [] => True
  | (_, datoms) :: rest =>
      EvolvesAlike schema datoms ∧
        ∀ schema', evolveSchema .arrival schema datoms = (.ok (), schema') →
          ReplaysAlike schema' rest

/-- No iteration order matters to an operation on an abstract store. -/
def StoreOp.OrderFree (o : Observation) : StoreOp → Prop
  | transact transaction ctx =>
      transaction.datoms ≠ [] → (checkedSucc o.epoch).isSome →
        EvolvesAlike o.schema (stampDatoms transaction.datoms ctx.txId ++
          transactMetadata transaction.node ctx)
  | batchSpliceTransact batches => StampsAlike o.epoch o.schema batches
  | insert _ => True
  | replayEntry _ datoms => EvolvesAlike o.schema datoms
  | batchReplay entries => ReplaysAlike o.schema entries
  | fromMerge _ => True
  | mergeInto _ => True

namespace Observation

/-- A transaction that does not depend on the order commits alike under any two. -/
theorem transact_orderFree {o : Observation} {transaction : Transaction} {ctx : TransactContext}
    (h : (StoreOp.transact transaction ctx).OrderFree o) (order other : IterOrder) :
    o.transact order transaction ctx = o.transact other transaction ctx := by
  unfold transact
  split
  case isTrue => rfl
  case isFalse hne =>
      cases hsucc : checkedSucc o.epoch with
      | none => rfl
      | some epoch =>
          have halike := h (fun hnil => hne (List.isEmpty_iff.mpr hnil)) (by rw [hsucc]; rfl)
          simp only [halike order other]

/-- Batches that stamp alike are stamped alike under any two orders. -/
theorem stampBatches_orderFree {o : Observation} {batches : List (List Datom × TxId)}
    (h : StampsAlike o.epoch o.schema batches) (orders others : Nat → IterOrder) (index : Nat) :
    o.stampBatches orders index batches = o.stampBatches others index batches := by
  induction batches generalizing o index with
  | nil => rfl
  | cons batch rest ih =>
      obtain ⟨datoms, txId⟩ := batch
      unfold stampBatches
      split
      case isTrue => rfl
      case isFalse hne =>
          cases hsucc : checkedSucc o.epoch with
          | none => rfl
          | some epoch =>
              obtain ⟨halike, hrest⟩ :=
                h (fun hnil => hne (List.isEmpty_iff.mpr hnil)) epoch hsucc
              have horder := halike (orders index) .arrival
              have hother := halike (others index) .arrival
              rcases hevolve : evolveSchema .arrival o.schema
                (stampAndAppendMetadata datoms txId) with ⟨_ | _, schema⟩
              · simp only [horder, hother, hevolve]
              · have hnext := @ih { o with epoch := epoch, schema := schema }
                  (hrest schema hevolve) (index + 1)
                simp only [horder, hother, hevolve, hnext]

omit [Blake3] in
/-- Entries that replay alike are replayed alike under any two orders. -/
theorem batchReplay_orderFree {o : Observation} {entries : List (UInt64 × List Datom)}
    (h : ReplaysAlike o.schema entries) (orders others : Nat → IterOrder) (index : Nat) :
    o.batchReplay orders index entries = o.batchReplay others index entries := by
  induction entries generalizing o index with
  | nil => rfl
  | cons entry rest ih =>
      obtain ⟨epoch, datoms⟩ := entry
      obtain ⟨halike, hrest⟩ := h
      have horder := halike (orders index) .arrival
      have hother := halike (others index) .arrival
      rcases hevolve : evolveSchema .arrival o.schema datoms with ⟨_ | _, schema⟩
      · simp only [batchReplay, replayEntry, horder, hother, hevolve]
      · have hnext := @ih (o.commit epoch schema datoms) (hrest schema hevolve) (index + 1)
        simp only [batchReplay, replayEntry, horder, hother, hevolve, hnext]

end Observation

/-- An operation that no iteration order matters to. -/
theorem StoreOp.OrderFree.observe_eq {op : StoreOp} {o : Observation} (h : op.OrderFree o)
    (orders others : Nat → IterOrder) : op.observe orders o = op.observe others o := by
  cases op with
  | transact transaction ctx =>
      simp only [observe, Observation.transact_orderFree h (orders 0) (others 0)]
  | batchSpliceTransact batches =>
      simp only [observe, Observation.batchSpliceTransact,
        Observation.stampBatches_orderFree h orders others]
  | insert d => rfl
  | replayEntry epoch datoms =>
      simp only [observe, Observation.replayEntry, h (orders 0) (others 0)]
  | batchReplay entries => simp only [observe, Observation.batchReplay_orderFree h orders others]
  | fromMerge other => rfl
  | mergeInto other => rfl

end Orders

section Runs

/-- A sequence of operations, with what each returns. The orders are those of each operation. -/
def runOps (orders : Nat → Nat → IterOrder) (index : Nat) (store : Store) :
    List StoreOp → List Outcome × Store
  | [] => ([], store)
  | op :: rest =>
      let applied := op.apply (orders index) store
      let later := runOps orders (index + 1) applied.2 rest
      (applied.1 :: later.1, later.2)

/-- No iteration order matters to any operation of the sequence, in the state that it finds. -/
def OrderFreeRun (o : Observation) : List StoreOp → Prop
  | [] => True
  | op :: rest => op.OrderFree o ∧ OrderFreeRun (op.observe (fun _ => .arrival) o).2 rest

/-- Two runs from stores that show the same return the same and show the same. -/
theorem runOps_agree {a b : Store} (hsame : a.obs = b.obs) {ops : List StoreOp}
    (h : OrderFreeRun a.obs ops) (orders others : Nat → Nat → IterOrder) (index : Nat) :
    (runOps orders index a ops).1 = (runOps others index b ops).1 ∧
      (runOps orders index a ops).2.obs = (runOps others index b ops).2.obs := by
  induction ops generalizing a b index with
  | nil => exact ⟨rfl, hsame⟩
  | cons op rest ih =>
      obtain ⟨hfree, hrest⟩ := h
      have ha := Store.obs_apply (orders index) a op
      have hb := Store.obs_apply (others index) b op
      rw [hfree.observe_eq _ fun _ => .arrival] at ha
      rw [← hsame, hfree.observe_eq _ fun _ => .arrival] at hb
      obtain ⟨houtcome, hobs⟩ := Prod.mk.inj (ha.symm.trans hb)
      rw [ha] at hrest
      obtain ⟨hresults, hfinal⟩ := ih hobs hrest (index + 1)
      refine ⟨?_, hfinal⟩
      show (op.apply (orders index) a).1 :: _ = (op.apply (others index) b).1 :: _
      rw [hresults, houtcome]

/-- The start of a run that does not depend on the order does not either. -/
theorem OrderFreeRun.take {o : Observation} {ops : List StoreOp} (h : OrderFreeRun o ops)
    (count : Nat) : OrderFreeRun o (ops.take count) := by
  induction ops generalizing o count with
  | nil => simpa using h
  | cons op rest ih =>
      cases count with
      | zero => trivial
      | succ count => exact ⟨h.1, ih h.2 count⟩

end Runs

section Views

/-- `DatomSetView`: the datom set as a sorted slice or as a tree. -/
inductive DatomSetView where
  | slice (datoms : List Datom)
  | ordSet (datoms : Finset Datom)

namespace DatomSetView

/-- `contains` -/
def contains (view : DatomSetView) (d : Datom) : Bool :=
  match view with
  | slice datoms => (binarySearchBy datoms fun item => compare item d).isOk
  | ordSet datoms => d ∈ datoms

/-- `len` -/
def len : DatomSetView → Nat
  | slice datoms => datoms.length
  | ordSet datoms => datoms.card

/-- `is_empty` -/
def isEmpty : DatomSetView → Bool
  | slice datoms => datoms.isEmpty
  | ordSet datoms => datoms = ∅

/-- `iter`: the datoms in the order of iteration. -/
def iter : DatomSetView → List Datom
  | slice datoms => datoms
  | ordSet datoms => datoms.sort (· ≤ ·)

end DatomSetView

omit [Blake3] in
/-- The search of a strictly ascending slice finds exactly its elements. -/
theorem isOk_binarySearchBy {datoms : List Datom} (sorted : datoms.Pairwise (· < ·)) (d : Datom) :
    (binarySearchBy datoms fun item => compare item d).isOk = decide (d ∈ datoms.toFinset) := by
  have hfound {target : Nat} :
      binarySearchBy datoms (fun item => compare item d) = .ok target ↔
        ∃ item, datoms[target]? = some item ∧ compare item d = .eq :=
    binarySearchBy_eq_ok (@ascends_compare _ _ _ id _ sorted d)
  by_cases hd : d ∈ datoms
  · obtain ⟨target, hlt, hget⟩ := List.mem_iff_getElem.mp hd
    have hok : binarySearchBy datoms (fun item => compare item d) = .ok target :=
      hfound.mpr ⟨d, List.getElem?_eq_some_iff.mpr ⟨hlt, hget⟩, compare_eq_iff_eq.mpr rfl⟩
    rw [hok, decide_eq_true (List.mem_toFinset.mpr hd)]
    rfl
  · rw [decide_eq_false fun h => hd (List.mem_toFinset.mp h)]
    cases hsearch : binarySearchBy datoms fun item => compare item d with
    | error position => rfl
    | ok target =>
        obtain ⟨item, hget, heq⟩ := hfound.mp hsearch
        rw [compare_eq_iff_eq.mp heq] at hget
        exact absurd (List.mem_of_getElem? hget) hd

namespace Store

/-- `datom_set`: the view of the active representation. -/
def datomSetView (store : Store) : DatomSetView :=
  match store.repr with
  | .positional ps => .slice ps.canonical
  | .ordMap datoms _ => .ordSet datoms

/-- The view shows the datom set of the store, whatever its representation. -/
theorem datomSetView_eq (store : Store) :
    (∀ d, store.datomSetView.contains d = decide (d ∈ store.datomSet)) ∧
      store.datomSetView.len = store.datomSet.card ∧
      store.datomSetView.isEmpty = decide (store.datomSet = ∅) ∧
      store.datomSetView.iter = store.datomSet.sort (· ≤ ·) := by
  cases hrepr : store.repr with
  | ordMap datoms indexes =>
      simp only [datomSetView, datomSet, StoreRepr.datomSet, hrepr]
      exact ⟨fun _ => rfl, rfl, rfl, rfl⟩
  | positional ps =>
      simp only [datomSetView, datomSet, StoreRepr.datomSet, hrepr]
      refine ⟨fun d => ?_, ?_, ?_, ?_⟩
      · exact isOk_binarySearchBy ps.sorted d
      · exact (List.toFinset_card_of_nodup (ps.sorted.imp ne_of_lt)).symm
      · cases hcanonical : ps.canonical <;> simp [DatomSetView.isEmpty]
      · refine eq_of_toFinset_eq ps.sorted (Finset.sortedLT_sort _).pairwise ?_
        rw [Finset.sort_toFinset]
        rfl

/-- Two stores that a client cannot tell apart: they show the same, their views of the datom set
answer alike, and the arrays of those that have one ascend strictly. -/
structure Twins (a b : Store) : Prop where
  datomSet : a.datomSet = b.datomSet
  schema : a.schema = b.schema
  epoch : a.epoch = b.epoch
  genesisNode : a.genesisNode = b.genesisNode
  liveCausal : a.liveCausal = b.liveCausal
  liveSet : a.liveSet = b.liveSet
  sorted : ∀ ps, a.repr = .positional ps ∨ b.repr = .positional ps →
    ps.canonical.Pairwise (· < ·)
  contains : ∀ d, a.datomSetView.contains d = b.datomSetView.contains d
  len : a.datomSetView.len = b.datomSetView.len
  isEmpty : a.datomSetView.isEmpty = b.datomSetView.isEmpty
  iter : a.datomSetView.iter = b.datomSetView.iter

/-- Two stores that look alike to a client are twins. -/
theorem twins_of_obs_eq {a b : Store} (h : a.obs = b.obs) : Twins a b := by
  have hset : a.datomSet = b.datomSet := congrArg Observation.datomSet h
  obtain ⟨hcontains, hlen, hempty, hiter⟩ := a.datomSetView_eq
  obtain ⟨hcontains', hlen', hempty', hiter'⟩ := b.datomSetView_eq
  exact {
    datomSet := hset
    schema := congrArg Observation.schema h
    epoch := congrArg Observation.epoch h
    genesisNode := congrArg Observation.genesisNode h
    liveCausal := congrArg Observation.liveCausal h
    liveSet := congrArg Observation.liveSet h
    sorted := fun ps _ => ps.sorted
    contains := fun d => by rw [hcontains, hcontains', hset]
    len := by rw [hlen, hlen', hset]
    isEmpty := by rw [hempty, hempty', hset]
    iter := by rw [hiter, hiter', hset] }

/-- A run on a store and the same run on its promotion, each in its own iteration orders: they
return the same and show the same after every operation, when no operation depends on the order in
which it visits the entities of a transaction. -/
theorem representation_independent {store : Store} {ops : List StoreOp}
    (h : OrderFreeRun store.obs ops) (orders others : Nat → Nat → IterOrder) :
    (runOps orders 0 store ops).1 = (runOps others 0 store.promote ops).1 ∧
      ∀ count, Twins (runOps orders 0 store (ops.take count)).2
        (runOps others 0 store.promote (ops.take count)).2 := by
  have hsame : store.obs = store.promote.obs := store.obs_promote.symm
  refine ⟨(runOps_agree hsame h orders others 0).1, fun count => ?_⟩
  exact twins_of_obs_eq (runOps_agree hsame (h.take count) orders others 0).2

end Store

end Views

end Independence

namespace Sample

/-- The entity of a second definition. -/
def otherEntity : EntityId := EntityId.fromContent [2]

/-- Two entities of one transaction define `user/name`, as a text and as a number. -/
def defineTwice : Transaction :=
  ⟨NodeId.zero,
    [⟨entity, "db/ident", .keyword "user/name", tx, .assert⟩,
     ⟨entity, "db/valueType", .keyword "db.type/string", tx, .assert⟩,
     ⟨entity, "db/cardinality", .keyword "db.cardinality/one", tx, .assert⟩,
     ⟨otherEntity, "db/ident", .keyword "user/name", tx, .assert⟩,
     ⟨otherEntity, "db/valueType", .keyword "db.type/long", tx, .assert⟩,
     ⟨otherEntity, "db/cardinality", .keyword "db.cardinality/one", tx, .assert⟩]⟩

/-- The order of last arrival. -/
def lastArrival : IterOrder :=
  ⟨List.reverse, fun _ => List.reverse_perm _⟩

/-- An insertion, a replay of the same datom and a merge. -/
def inertOps : List StoreOp :=
  [.insert asserted, .replayEntry 1 [asserted], .fromMerge (.fromDatoms {retracted})]

/-- The sample run does not depend on the order. -/
theorem orderFreeRun_inertOps : OrderFreeRun Store.genesis.obs inertOps := by
  have hread : ∀ group ∈ groupByEntity [asserted], extractAttributeDef group = .ok none := by
    decide +kernel
  refine ⟨trivial, evolvesAlike_of_distinctIdents ?_ fun group hgroup => ⟨none, hread group hgroup⟩,
    trivial, trivial⟩
  intro e₁ e₂ attr d₁ d₂ h₁
  obtain ⟨d, hd, rfl⟩ := exists_of_extractAttributeDef h₁
  rw [hread _ (mem_groupByEntity.mpr ⟨d, hd, rfl⟩)] at h₁
  cases h₁

/-- Two iteration orders give the twice defined attribute two types. -/
theorem schema_defineTwice :
    (runOps (fun _ _ => .arrival) 0 .genesis
        [.transact defineTwice (batchContext tx)]).2.schema["user/name"]? =
        some ⟨.long, .one, .lww, none⟩ ∧
      (runOps (fun _ _ => lastArrival) 0 Store.genesis.promote
        [.transact defineTwice (batchContext tx)]).2.schema["user/name"]? =
        some ⟨.string, .one, .lww, none⟩ := by
  decide +kernel

end Sample

open Sample

namespace Store

/-- A run without definitions over both representations of the genesis store. -/
theorem representation_independent_inert :
    OrderFreeRun genesis.obs inertOps ∧
      (runOps (fun _ _ => .arrival) 0 genesis inertOps).1 =
        (runOps (fun _ _ => lastArrival) 0 genesis.promote inertOps).1 ∧
      ∀ count, Twins (runOps (fun _ _ => .arrival) 0 genesis (inertOps.take count)).2
        (runOps (fun _ _ => lastArrival) 0 genesis.promote (inertOps.take count)).2 :=
  ⟨orderFreeRun_inertOps, representation_independent orderFreeRun_inertOps _ _⟩

/-- A transaction in which two entities define one attribute: the schemas of the two runs depend on
which entity the hash map visits last. -/
theorem order_splits_runs :
    Reachable genesis ∧
      (runOps (fun _ _ => .arrival) 0 genesis
          [.transact defineTwice (batchContext tx)]).2.schema ≠
        (runOps (fun _ _ => lastArrival) 0 genesis.promote
          [.transact defineTwice (batchContext tx)]).2.schema := by
  obtain ⟨hfirst, hlast⟩ := schema_defineTwice
  refine ⟨.genesis, fun heq => ?_⟩
  rw [heq, hlast] at hfirst
  exact absurd (Option.some.inj hfirst) (by decide)

end Store

end Ferratomic
