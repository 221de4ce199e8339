import Ferratomic.Store.Merge

/-!
# Reachable stores

`Store.Reachable` is the set of stores that the operations of the engine can produce, including
the stores that a failing call leaves behind, and `Store.Operated` is the larger set in which a
checkpoint may hold anything. The LIVE maps describe the datom set in all of them
(`Operated.valid`), and the LIVE positions of a reachable contiguous store are those of the scan
over its array (`Reachable.exact`).
-/

namespace Ferratomic

open Lib

variable [Blake3]

/-- The data of a checkpoint. -/
structure CheckpointData where
  epoch : UInt64
  genesisNode : NodeId
  schemaPairs : List (Attribute × AttributeDef)
  datoms : List Datom
  liveBits : Option (List Bool)

/-- `extract_checkpoint_data`: the data of a store, with its definitions sorted by name. -/
def extractCheckpointData (store : Store) : CheckpointData where
  epoch := store.epoch
  genesisNode := store.genesisNode
  schemaPairs := store.schema.toList
  datoms := store.datoms
  liveBits := some (match store.repr with
    | .positional ps => ps.liveBitsClone
    | .ordMap _ _ => buildLiveBitvectorPub store.datoms)

/-- `store_from_checkpoint_data`: the store that checkpoint data describes. -/
def storeFromCheckpointData (data : CheckpointData) : Except FerraError Store :=
  match data.liveBits with
  | some liveBits =>
      Store.fromCheckpointV3 data.epoch data.genesisNode data.schemaPairs data.datoms liveBits
  | none =>
      .ok (Store.fromCheckpoint data.epoch data.genesisNode data.schemaPairs data.datoms)

namespace Store

/-- `ensure_indexes_sorted`: sort the secondary indexes of a write-active store. -/
def ensureIndexesSorted (store : Store) : Store :=
  match store.repr with
  | .ordMap datoms indexes => { store with repr := .ordMap datoms indexes.sortAll }
  | .positional _ => store

/-- The stores that the operations of the engine produce. -/
inductive Reachable : Store → Prop
  | genesis : Reachable genesis
  | fromDatoms (datoms : Finset Datom) : Reachable (fromDatoms datoms)
  | fromCheckpoint (epoch : UInt64) (genesisNode : NodeId)
      (schemaAttrs : List (Attribute × AttributeDef)) (datoms : List Datom) :
      Reachable (fromCheckpoint epoch genesisNode schemaAttrs datoms)
  | reload {store loaded : Store} : Reachable store →
      storeFromCheckpointData (extractCheckpointData store) = .ok loaded → Reachable loaded
  | transact {store : Store} (order : IterOrder) (transaction : Transaction)
      (ctx : TransactContext) :
      Reachable store → Reachable (transact order store transaction ctx).2
  | batchSpliceTransact {store : Store} (orders : Nat → IterOrder)
      (batches : List (List Datom × TxId)) :
      Reachable store → Reachable (batchSpliceTransact orders store batches).2
  | insert {store : Store} (d : Datom) : Reachable store → Reachable (store.insert d)
  | replayEntry {store : Store} (order : IterOrder) (epoch : UInt64) (datoms : List Datom) :
      Reachable store → Reachable (replayEntry order store epoch datoms).2
  | batchReplay {store : Store} (orders : Nat → IterOrder)
      (entries : List (UInt64 × List Datom)) :
      Reachable store → Reachable (batchReplay orders store entries).2
  | promote {store : Store} : Reachable store → Reachable store.promote
  | ensureIndexesSorted {store : Store} : Reachable store → Reachable store.ensureIndexesSorted
  | fromMerge {a b : Store} : Reachable a → Reachable b → Reachable (fromMerge a b)
  | selectiveMerge {a b : Store} (filter : DatomFilter) (source : String) :
      Reachable a → Reachable b → Reachable (selectiveMerge a b filter source).1

/-- The stores that the operations produce when the checkpoints that are loaded may hold anything,
also LIVE bits that no engine has written. -/
inductive Operated : Store → Prop
  | genesis : Operated genesis
  | fromDatoms (datoms : Finset Datom) : Operated (fromDatoms datoms)
  | load {loaded : Store} (data : CheckpointData) :
      storeFromCheckpointData data = .ok loaded → Operated loaded
  | transact {store : Store} (order : IterOrder) (transaction : Transaction)
      (ctx : TransactContext) :
      Operated store → Operated (transact order store transaction ctx).2
  | batchSpliceTransact {store : Store} (orders : Nat → IterOrder)
      (batches : List (List Datom × TxId)) :
      Operated store → Operated (batchSpliceTransact orders store batches).2
  | insert {store : Store} (d : Datom) : Operated store → Operated (store.insert d)
  | replayEntry {store : Store} (order : IterOrder) (epoch : UInt64) (datoms : List Datom) :
      Operated store → Operated (replayEntry order store epoch datoms).2
  | batchReplay {store : Store} (orders : Nat → IterOrder)
      (entries : List (UInt64 × List Datom)) :
      Operated store → Operated (batchReplay orders store entries).2
  | promote {store : Store} : Operated store → Operated store.promote
  | ensureIndexesSorted {store : Store} : Operated store → Operated store.ensureIndexesSorted
  | fromMerge {a b : Store} : Operated a → Operated b → Operated (fromMerge a b)
  | selectiveMerge {a b : Store} (filter : DatomFilter) (source : String) :
      Operated a → Operated b → Operated (selectiveMerge a b filter source).1

/-- A reachable store is an operated one. -/
theorem Reachable.operated {store : Store} (h : Reachable store) : Operated store := by
  induction h with
  | genesis => exact .genesis
  | fromDatoms datoms => exact .fromDatoms datoms
  | fromCheckpoint epoch genesisNode schemaAttrs datoms =>
      exact .load ⟨epoch, genesisNode, schemaAttrs, datoms, none⟩ rfl
  | reload _ hload _ => exact .load _ hload
  | transact order transaction ctx _ ih => exact .transact order transaction ctx ih
  | batchSpliceTransact orders batches _ ih => exact .batchSpliceTransact orders batches ih
  | insert d _ ih => exact .insert d ih
  | replayEntry order epoch datoms _ ih => exact .replayEntry order epoch datoms ih
  | batchReplay orders entries _ ih => exact .batchReplay orders entries ih
  | promote _ ih => exact .promote ih
  | ensureIndexesSorted _ ih => exact .ensureIndexesSorted ih
  | fromMerge _ _ iha ihb => exact .fromMerge iha ihb
  | selectiveMerge filter source _ _ iha ihb => exact .selectiveMerge filter source iha ihb

section Valid

/-- Sorting the indexes changes nothing that a client sees. -/
theorem obs_ensureIndexesSorted (store : Store) : store.ensureIndexesSorted.obs = store.obs := by
  cases hrepr : store.repr <;>
    simp [ensureIndexesSorted, obs, datomSet, StoreRepr.datomSet, hrepr]

/-- A store with the same datoms and LIVE maps keeps the invariant. -/
theorem valid_of_sameBody {store other : Store} (h : store.SameBody other)
    (hvalid : store.obs.Valid) : other.obs.Valid where
  causal := by
    rw [h.obs_eq]
    exact hvalid.causal
  live := by
    rw [h.obs_eq]
    exact hvalid.live

/-- A transaction leaves the store as it is up to epoch and schema, or commits. -/
theorem transact_snd_cases (order : IterOrder) (store : Store) (transaction : Transaction)
    (ctx : TransactContext) :
    store.SameBody (transact order store transaction ctx).2 ∨
      ∃ other newDatoms, store.SameBody other ∧
        (transact order store transaction ctx).2 = other.applyDatoms newDatoms := by
  unfold transact
  split
  case isTrue => exact .inl rfl
  case isFalse =>
      split
      case h_1 => exact .inl rfl
      case h_2 epoch hepoch =>
          simp only
          split
          case h_1 => exact .inl rfl
          case h_2 =>
              refine .inr ⟨_, _, ?_, rfl⟩
              exact rfl

/-- A batch leaves the store as it is up to epoch and schema, or commits. -/
theorem batchSpliceTransact_snd_cases (orders : Nat → IterOrder) (store : Store)
    (batches : List (List Datom × TxId)) :
    store.SameBody (batchSpliceTransact orders store batches).2 ∨
      ∃ other newDatoms, store.SameBody other ∧
        (batchSpliceTransact orders store batches).2 = other.applyDatoms newDatoms := by
  have hbody := sameBody_stampBatches orders 0 store batches
  unfold batchSpliceTransact
  split
  case isTrue => exact .inl rfl
  case isFalse =>
      split
      case h_1 e other hstamp =>
          rw [hstamp] at hbody
          exact .inl hbody
      case h_2 receipts other hstamp =>
          rw [hstamp] at hbody
          exact .inr ⟨other, _, hbody, rfl⟩

/-- `apply_datoms` keeps what a client sees valid. -/
theorem valid_applyDatoms {store : Store} (h : store.obs.Valid) (newDatoms : List Datom) :
    (store.applyDatoms newDatoms).obs.Valid := by
  rw [obs_applyDatoms]
  exact h.addDatoms newDatoms

/-- Insertions leave the schema as it is. -/
theorem schema_foldl_insert (store : Store) (datoms : List Datom) :
    (datoms.foldl insert store).schema = store.schema := by
  have h := congrArg Observation.schema (obs_foldl_insert store datoms)
  rwa [Observation.addDatoms_eq] at h

/-- Replaying an entry succeeds when the schema evolves. -/
theorem fst_replayEntry (order : IterOrder) (store : Store) (epoch : UInt64)
    (datoms : List Datom) :
    (replayEntry order store epoch datoms).1 = (evolveSchema order store.schema datoms).1 := by
  rw [← schema_foldl_insert store datoms]
  rfl

/-- Replaying an entry adds its datoms and evolves the schema. -/
theorem obs_replayEntry (order : IterOrder) (store : Store) (epoch : UInt64)
    (datoms : List Datom) :
    (replayEntry order store epoch datoms).2.obs =
      store.obs.commit epoch (evolveSchema order store.schema datoms).2 datoms := by
  rw [Observation.commit, ← obs_foldl_insert, ← schema_foldl_insert store datoms]
  rfl

/-- The entry loop of a batch replay keeps the invariant and the representation. -/
theorem valid_replayEntries (orders : Nat → IterOrder) (index : Nat) {store : Store}
    (hord : store.IsOrdMap) (hvalid : store.obs.Valid) (entries : List (UInt64 × List Datom)) :
    (replayEntries orders index store entries).2.obs.Valid := by
  induction entries generalizing index store with
  | nil => exact hvalid
  | cons entry rest ih =>
      obtain ⟨hobs, hkept⟩ := obs_foldl_insertOrdMap hord entry.2
      have hinserted : (entry.2.foldl insertOrdMap store).obs.Valid := by
        rw [hobs]
        exact hvalid.addDatoms entry.2
      rw [replayEntries]
      split
      · exact ⟨hinserted.causal, hinserted.live⟩
      · exact ih _ hkept ⟨hinserted.causal, hinserted.live⟩

/-- A batch replay keeps what a client sees valid. -/
theorem valid_batchReplay (orders : Nat → IterOrder) {store : Store} (hvalid : store.obs.Valid)
    (entries : List (UInt64 × List Datom)) : (batchReplay orders store entries).2.obs.Valid := by
  have hrun := valid_replayEntries orders 0 store.isOrdMap_promote
    (by rw [obs_promote]; exact hvalid) entries
  unfold batchReplay
  split
  case isTrue => exact hvalid
  case isFalse =>
      split
      case h_1 e other h =>
          rw [h] at hrun
          exact hrun
      case h_2 other h =>
          rw [h] at hrun
          rw [obs_demote]
          exact hrun

/-- What loading from sorted datoms and dense bits gives. -/
theorem fromCheckpointV3_ok {epoch : UInt64} {genesisNode : NodeId}
    {schemaAttrs : List (Attribute × AttributeDef)} {sortedDatoms : List Datom}
    {liveBits : List Bool} {store : Store}
    (h : fromCheckpointV3 epoch genesisNode schemaAttrs sortedDatoms liveBits = .ok store) :
    ∃ ps, store = ofPositional ps (Schema.ofPairs schemaAttrs) epoch genesisNode [] ∧
      ps.canonical = sortedDatoms ∧ ps.liveBits = (iterOnes liveBits).toFinset := by
  unfold fromCheckpointV3 at h
  cases hps : PositionalStore.fromSortedWithLive sortedDatoms liveBits with
  | error e =>
      rw [hps] at h
      cases h
  | ok ps =>
      rw [hps] at h
      cases h
      refine ⟨ps, rfl, ?_⟩
      unfold PositionalStore.fromSortedWithLive at hps
      split_ifs at hps
      cases hps
      exact ⟨rfl, rfl⟩

/-- What a client sees of a loaded store is valid. -/
theorem valid_storeFromCheckpointData {data : CheckpointData} {store : Store}
    (h : storeFromCheckpointData data = .ok store) : store.obs.Valid := by
  unfold storeFromCheckpointData at h
  split at h
  · obtain ⟨ps, rfl, -⟩ := fromCheckpointV3_ok h
    exact valid_ofPositional ps _ _ _ _
  · cases h
    exact valid_ofPositional _ _ _ _ _

/-- Whatever was loaded, the LIVE maps describe the datom set. -/
theorem Operated.valid {store : Store} (h : Operated store) : store.obs.Valid := by
  induction h with
  | genesis => exact valid_genesis
  | fromDatoms datoms => exact valid_ofPositional _ _ _ _ _
  | load data hload => exact valid_storeFromCheckpointData hload
  | transact order transaction ctx _ ih =>
      rename_i store _
      -- a failure may leave another epoch or schema behind, but the same datoms
      rcases transact_snd_cases order store transaction ctx with hbody | ⟨_, _, hbody, heq⟩
      · exact valid_of_sameBody hbody ih
      · rw [heq]
        exact valid_applyDatoms (valid_of_sameBody hbody ih) _
  | batchSpliceTransact orders batches _ ih =>
      rename_i store _
      rcases batchSpliceTransact_snd_cases orders store batches with hbody | ⟨_, _, hbody, heq⟩
      · exact valid_of_sameBody hbody ih
      · rw [heq]
        exact valid_applyDatoms (valid_of_sameBody hbody ih) _
  | insert d _ ih =>
      rw [obs_insert]
      exact ih.addDatom d
  | replayEntry order epoch datoms _ ih =>
      rw [obs_replayEntry]
      exact ih.commit _ _ _
  | batchReplay orders entries _ ih => exact valid_batchReplay orders ih entries
  | promote _ ih =>
      rw [obs_promote]
      exact ih
  | ensureIndexesSorted _ ih =>
      rw [obs_ensureIndexesSorted]
      exact ih
  | fromMerge _ _ iha ihb =>
      rw [obs_fromMerge]
      exact iha.merge ihb
  | selectiveMerge filter source _ _ iha ihb => exact valid_ofPositional _ _ _ _ _

/-- In every reachable store the LIVE maps describe the datom set. -/
theorem Reachable.valid {store : Store} (h : Reachable store) : store.obs.Valid :=
  h.operated.valid

end Valid

section Exact

/-- The LIVE positions of a contiguous store are those of the scan over its array. -/
def Exact (store : Store) : Prop :=
  ∀ ps, store.repr = .positional ps → ps.liveBits = buildLiveRoaring ps.canonical

/-- A positional store of rebuilt LIVE bits is exact. -/
theorem exact_of_repr {store : Store} {ps : PositionalStore} (h : store.repr = .positional ps)
    (hlive : ps.liveBits = buildLiveRoaring ps.canonical) : store.Exact := by
  intro ps' hps'
  rw [h] at hps'
  cases hps'
  exact hlive

/-- A store of ordered maps is exact. -/
theorem IsOrdMap.exact {store : Store} (h : store.IsOrdMap) : store.Exact := by
  intro ps hps
  obtain ⟨datoms, indexes, hrepr⟩ := h
  rw [hrepr] at hps
  cases hps

/-- Being exact depends on the datoms and indexes of a store only. -/
theorem exact_of_sameBody {store other : Store} (h : store.SameBody other)
    (hexact : store.Exact) : other.Exact := by
  rw [h]
  exact hexact

/-- A store of ordered maps is demoted to an exact one. -/
theorem IsOrdMap.exact_demote {store : Store} (h : store.IsOrdMap) : store.demote.Exact := by
  obtain ⟨datoms, indexes, hrepr⟩ := h
  have hdemoted : store.demote.repr =
      .positional (PositionalStore.fromDatoms (datoms.sort (· ≤ ·))) := by
    simp only [demote, hrepr]
  exact exact_of_repr hdemoted rfl

/-- A store is exact after `apply_datoms`. -/
theorem exact_applyDatoms (store : Store) (newDatoms : List Datom) :
    (store.applyDatoms newDatoms).Exact := by
  cases hrepr : store.repr with
  | positional ps =>
      have hspliced : (store.applyDatoms newDatoms).repr =
          .positional (PositionalStore.fromSortedCanonical
            (mergeSortDedup ps.canonical (sortDedup newDatoms))
            (pairwise_mergeSortDedup ps.sorted (pairwise_sortDedup newDatoms))) := by
        simp only [applyDatoms, spliceTransactBatch, hrepr, foldl_liveApply]
      exact exact_of_repr hspliced rfl
  | ordMap datoms indexes =>
      simp only [applyDatoms, hrepr]
      exact (obs_foldl_insertOrdMap ⟨datoms, indexes, hrepr⟩ newDatoms).2.exact_demote

/-- Insertions keep a store exact. -/
theorem exact_foldl_insert {store : Store} (h : store.Exact) (items : List Datom) :
    (items.foldl insert store).Exact := by
  induction items generalizing store with
  | nil => exact h
  | cons d items ih => exact ih (store.isOrdMap_promote.insertOrdMap d).exact

/-- The replay of a log leaves a store in ordered maps. -/
theorem isOrdMap_replayEntries (orders : Nat → IterOrder) (index : Nat) {store : Store}
    (h : store.IsOrdMap) (entries : List (UInt64 × List Datom)) :
    (replayEntries orders index store entries).2.IsOrdMap := by
  induction entries generalizing index store with
  | nil => exact h
  | cons entry rest ih =>
      have hkept := (obs_foldl_insertOrdMap h entry.2).2
      rw [replayEntries]
      split
      · exact hkept
      · exact ih _ hkept

/-- A batch replay keeps a store exact. -/
theorem exact_batchReplay (orders : Nat → IterOrder) {store : Store} (h : store.Exact)
    (entries : List (UInt64 × List Datom)) : (batchReplay orders store entries).2.Exact := by
  have hrun := isOrdMap_replayEntries orders 0 store.isOrdMap_promote entries
  unfold batchReplay
  split
  case isTrue => exact h
  case isFalse =>
      split
      case h_1 e other heq =>
          rw [heq] at hrun
          exact hrun.exact
      case h_2 other heq =>
          rw [heq] at hrun
          exact hrun.exact_demote

/-- Sorting the indexes keeps a store exact. -/
theorem exact_ensureIndexesSorted {store : Store} (h : store.Exact) :
    store.ensureIndexesSorted.Exact := by
  cases hrepr : store.repr with
  | positional ps =>
      have hsame : store.ensureIndexesSorted = store := by
        simp only [ensureIndexesSorted, hrepr]
      rw [hsame]
      exact h
  | ordMap datoms indexes =>
      refine IsOrdMap.exact ⟨datoms, indexes.sortAll, ?_⟩
      simp only [ensureIndexesSorted, hrepr]

/-- A merge rebuilds the LIVE bits of the merged datoms. -/
theorem liveBits_mergeRepr (a b : StoreRepr) :
    (mergeRepr a b).liveBits = buildLiveRoaring (mergeRepr a b).canonical := by
  cases a <;> cases b <;> rfl

/-- The dense bits that a store hands to a checkpoint mark the scan's positions. -/
theorem iterOnes_liveBits {store : Store} (h : store.Exact) :
    ∃ bits, (extractCheckpointData store).liveBits = some bits ∧
      bits.length = store.datoms.length ∧
      (iterOnes bits).toFinset = buildLiveRoaring store.datoms := by
  cases hrepr : store.repr with
  | positional ps =>
      refine ⟨ps.liveBitsClone, ?_, ?_, ?_⟩
      · simp only [extractCheckpointData, hrepr]
      · simp only [datoms, hrepr]
        exact length_bitsOfPositions _ _
      · simp only [datoms, hrepr]
        exact toFinset_iterOnes_bitsOfPositions (by rw [Finset.sort_toFinset, h ps hrepr])
  | ordMap datoms indexes =>
      refine ⟨buildLiveBitvectorPub store.datoms, ?_, ?_, ?_⟩
      · simp only [extractCheckpointData, hrepr]
      · exact length_bitsOfPositions _ _
      · exact toFinset_iterOnes_bitsOfPositions rfl

/-- An exact store is loaded from its checkpoint data as an exact one. -/
theorem exact_reload {store loaded : Store} (h : store.Exact)
    (hload : storeFromCheckpointData (extractCheckpointData store) = .ok loaded) :
    loaded.Exact := by
  obtain ⟨bits, hbits, -, hones⟩ := iterOnes_liveBits h
  rw [storeFromCheckpointData, hbits] at hload
  obtain ⟨ps, rfl, hcanonical, hlive⟩ := fromCheckpointV3_ok hload
  intro ps' hps'
  cases hps'
  rw [hlive, hones, hcanonical]
  rfl

/-- In every reachable store the LIVE positions are those of the scan. -/
theorem Reachable.exact {store : Store} (h : Reachable store) : store.Exact := by
  induction h with
  | genesis => exact exact_of_repr rfl rfl
  | fromDatoms datoms => exact exact_of_repr rfl rfl
  | fromCheckpoint epoch genesisNode schemaAttrs datoms => exact exact_of_repr rfl rfl
  | reload _ hload ih => exact exact_reload ih hload
  | transact order transaction ctx _ ih =>
      rename_i store _
      rcases transact_snd_cases order store transaction ctx with hbody | ⟨_, _, hbody, heq⟩
      · exact exact_of_sameBody hbody ih
      · rw [heq]
        exact exact_applyDatoms _ _
  | batchSpliceTransact orders batches _ ih =>
      rename_i store _
      rcases batchSpliceTransact_snd_cases orders store batches with hbody | ⟨_, _, hbody, heq⟩
      · exact exact_of_sameBody hbody ih
      · rw [heq]
        exact exact_applyDatoms _ _
  | insert d _ _ => exact (isOrdMap_promote _ |>.insertOrdMap d).exact
  | replayEntry order epoch datoms _ ih => exact exact_foldl_insert ih datoms
  | batchReplay orders entries _ ih => exact exact_batchReplay orders ih entries
  | promote _ _ => exact (isOrdMap_promote _).exact
  | ensureIndexesSorted _ ih => exact exact_ensureIndexesSorted ih
  | fromMerge _ _ _ _ => exact exact_of_repr rfl (liveBits_mergeRepr _ _)
  | selectiveMerge filter source _ _ _ _ => exact exact_of_repr rfl rfl

end Exact

end Store

end Ferratomic
