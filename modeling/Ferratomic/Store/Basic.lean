import Ferratomic.Index
import Ferratomic.Positional
import Ferratomic.SchemaEvolution
import Ferratomic.Store.Live

/-!
# The store

A store holds a set of datoms in one of two representations, the schema, the epoch, the genesis
node and the LIVE maps. This module has the type, the constructors that build a store from
datoms, and the conversions between the representations.

`Observation` is the abstract store: what a client can observe, without the representation.
`Store.obs` maps a store to it, the conversions are invisible there (`Store.obs_promote`,
`Store.obs_demote`), and `Observation.Valid` is the invariant that every reachable store keeps:
the causal map is a causal map of the datom set, and the LIVE set is its projection.
-/

namespace Ferratomic

open Lib

/-- A conflict between two schemas that a merge resolved. -/
structure SchemaConflict where
  attr : Attribute
  kept : AttributeDef
  discarded : AttributeDef

/-- The observable state of a store: everything but the representation of its datom set and the
audit trail of schema conflicts. -/
@[ext]
structure Observation where
  datomSet : Finset Datom
  schema : Schema
  epoch : UInt64
  genesisNode : NodeId
  liveCausal : LiveCausal
  liveSet : LiveSet

namespace Observation

/-- The invariant of reachable stores: the LIVE maps describe the datom set. -/
structure Valid (o : Observation) : Prop where
  causal : CausalOf o.datomSet o.liveCausal
  live : o.liveSet = deriveLiveSet o.liveCausal

/-- Add one datom to the set and to the LIVE maps. -/
def addDatom (o : Observation) (d : Datom) : Observation :=
  { o with
    datomSet := insert d o.datomSet
    liveCausal := (liveApply o.liveCausal o.liveSet d).1
    liveSet := (liveApply o.liveCausal o.liveSet d).2 }

/-- Add datoms one by one. -/
def addDatoms (o : Observation) (datoms : List Datom) : Observation :=
  datoms.foldl addDatom o

/-- Adding a datom keeps an observation valid. -/
theorem Valid.addDatom {o : Observation} (h : o.Valid) (d : Datom) : (o.addDatom d).Valid where
  causal := by
    show CausalOf (insert d o.datomSet) (liveApply o.liveCausal o.liveSet d).1
    rw [liveApply_fst]
    exact h.causal.recordEvent d
  live := by
    show (liveApply o.liveCausal o.liveSet d).2 =
      deriveLiveSet (liveApply o.liveCausal o.liveSet d).1
    rw [h.live]
    exact liveApply_snd o.liveCausal d

/-- Adding datoms keeps an observation valid. -/
theorem Valid.addDatoms {o : Observation} (h : o.Valid) (datoms : List Datom) :
    (o.addDatoms datoms).Valid := by
  induction datoms generalizing o with
  | nil => exact h
  | cons d datoms ih => exact ih (h.addDatom d)

/-- Adding no datom changes nothing. -/
@[simp]
theorem addDatoms_nil (o : Observation) : o.addDatoms [] = o := rfl

/-- Datoms are added one after another. -/
@[simp]
theorem addDatoms_cons (o : Observation) (d : Datom) (datoms : List Datom) :
    o.addDatoms (d :: datoms) = (o.addDatom d).addDatoms datoms := rfl

/-- Adding two lists in turn is adding their concatenation. -/
theorem addDatoms_append (o : Observation) (left right : List Datom) :
    o.addDatoms (left ++ right) = (o.addDatoms left).addDatoms right :=
  List.foldl_append

/-- Adding datoms is a union of the sets and a pass over the LIVE maps. -/
theorem addDatoms_eq (o : Observation) (datoms : List Datom) :
    o.addDatoms datoms =
      { o with
        datomSet := o.datomSet ∪ datoms.toFinset
        liveCausal := (liveApplyAll (o.liveCausal, o.liveSet) datoms).1
        liveSet := (liveApplyAll (o.liveCausal, o.liveSet) datoms).2 } := by
  induction datoms generalizing o with
  | nil => simp [liveApplyAll]
  | cons d datoms ih =>
      rw [addDatoms_cons, ih]
      simp [addDatom, liveApplyAll, Finset.insert_union, Finset.union_insert]

/-- The datoms added join the datoms of the observation. -/
@[simp]
theorem datomSet_addDatoms (o : Observation) (datoms : List Datom) :
    (o.addDatoms datoms).datomSet = o.datomSet ∪ datoms.toFinset := by
  rw [addDatoms_eq]

/-- Advance the epoch and the schema and add the datoms of a transaction. -/
def commit (o : Observation) (epoch : UInt64) (schema : Schema) (datoms : List Datom) :
    Observation :=
  { o.addDatoms datoms with epoch := epoch, schema := schema }

/-- The epoch and the schema play no part in adding datoms. -/
theorem addDatoms_with (o : Observation) (epoch : UInt64) (schema : Schema)
    (datoms : List Datom) :
    ({ o with epoch := epoch, schema := schema } : Observation).addDatoms datoms =
      o.commit epoch schema datoms := by
  simp only [commit, addDatoms_eq]

/-- Commits compose. -/
theorem commit_commit (o : Observation) (epoch epoch' : UInt64) (schema schema' : Schema)
    (datoms datoms' : List Datom) :
    (o.commit epoch schema datoms).commit epoch' schema' datoms' =
      o.commit epoch' schema' (datoms ++ datoms') := by
  simp only [commit, addDatoms_append]
  simp only [addDatoms_eq]

/-- A commit keeps an observation valid. -/
theorem Valid.commit {o : Observation} (h : o.Valid) (epoch : UInt64) (schema : Schema)
    (datoms : List Datom) : (o.commit epoch schema datoms).Valid where
  causal := (h.addDatoms datoms).causal
  live := (h.addDatoms datoms).live

/-- Adding datoms records their events one by one. -/
theorem liveCausal_addDatoms (o : Observation) (datoms : List Datom) :
    (o.addDatoms datoms).liveCausal = datoms.foldl recordEvent o.liveCausal := by
  induction datoms generalizing o with
  | nil => rfl
  | cons d datoms ih =>
      rw [addDatoms_cons, ih, List.foldl_cons, addDatom, liveApply_fst]

end Observation

variable [Blake3]

/-- The two representations of the datom set. -/
inductive StoreRepr where
  | positional (ps : PositionalStore)
  | ordMap (datoms : Finset Datom) (indexes : SortedVecIndexes)

namespace StoreRepr

/-- The datoms in the order of iteration, which is EAVT for both representations. -/
def datoms : StoreRepr → List Datom
  | positional ps => ps.canonical
  | ordMap datoms _ => datoms.sort (· ≤ ·)

/-- The datom set. -/
def datomSet : StoreRepr → Finset Datom
  | positional ps => ps.canonical.toFinset
  | ordMap datoms _ => datoms

/-- A representation enumerates its datoms in ascending order. -/
theorem pairwise_datoms (repr : StoreRepr) : repr.datoms.Pairwise (· < ·) := by
  cases repr with
  | positional ps => exact ps.sorted
  | ordMap datoms _ => exact (Finset.sortedLT_sort datoms).pairwise

/-- A representation enumerates exactly its datoms. -/
@[simp]
theorem toFinset_datoms (repr : StoreRepr) : repr.datoms.toFinset = repr.datomSet := by
  cases repr with
  | positional ps => rfl
  | ordMap datoms _ => exact Finset.sort_toFinset _ _

end StoreRepr

/-- The store. -/
structure Store where
  repr : StoreRepr
  schema : Schema
  epoch : UInt64
  genesisNode : NodeId
  liveCausal : LiveCausal
  liveSet : LiveSet
  schemaConflicts : List SchemaConflict

namespace Store

/-- `datoms`: iterate over all datoms. -/
def datoms (store : Store) : List Datom :=
  store.repr.datoms

/-- `datom_set`: the primary datom set. -/
def datomSet (store : Store) : Finset Datom :=
  store.repr.datomSet

/-- `live_values`: the LIVE values of an entity and attribute. -/
def liveValues (store : Store) (entity : EntityId) (attr : Attribute) : Option (Finset Value) :=
  store.liveSet[(toLex (entity, attr) : Datom.LiveKey)]?

/-- `select_latest_live_value`: the asserted value with the greatest transaction, ties broken by
the value. -/
def selectLatestLiveValue (entries : OrdMap Value LiveEvent) : Option Value :=
  ((entries.toList.filter fun entry => (ofLex entry.2).2 = .assert).argmax fun entry =>
    (toLex ((ofLex entry.2).1, entry.1) : TxId ×ₗ Value)).map Prod.fst

/-- `live_resolve`: the single LIVE value of an entity and attribute. -/
def liveResolve (store : Store) (entity : EntityId) (attr : Attribute) : Option Value :=
  store.liveCausal[(toLex (entity, attr) : Datom.LiveKey)]?.bind selectLatestLiveValue

/-- The store over a positional store, with the LIVE maps rebuilt from its array. -/
def ofPositional (ps : PositionalStore) (schema : Schema) (epoch : UInt64)
    (genesisNode : NodeId) (conflicts : List SchemaConflict) : Store where
  repr := .positional ps
  schema := schema
  epoch := epoch
  genesisNode := genesisNode
  liveCausal := buildLiveCausal ps.canonical
  liveSet := deriveLiveSet (buildLiveCausal ps.canonical)
  schemaConflicts := conflicts

/-- `from_datoms`: a store over a datom set, with an empty schema. -/
def fromDatoms (datoms : Finset Datom) : Store :=
  ofPositional (PositionalStore.fromDatoms (datoms.sort (· ≤ ·))) ∅ 0 NodeId.zero []

/-- `from_checkpoint`: a store from checkpoint data without LIVE bits. -/
def fromCheckpoint (epoch : UInt64) (genesisNode : NodeId)
    (schemaAttrs : List (Attribute × AttributeDef)) (datoms : List Datom) : Store :=
  ofPositional (PositionalStore.fromDatoms datoms) (Schema.ofPairs schemaAttrs) epoch
    genesisNode []

/-- `from_checkpoint_v3`: a store from sorted datoms and given LIVE bits. -/
def fromCheckpointV3 (epoch : UInt64) (genesisNode : NodeId)
    (schemaAttrs : List (Attribute × AttributeDef)) (sortedDatoms : List Datom)
    (liveBits : List Bool) : Except FerraError Store := do
  let ps ← PositionalStore.fromSortedWithLive sortedDatoms liveBits
  pure (ofPositional ps (Schema.ofPairs schemaAttrs) epoch genesisNode [])

/-- `genesis`: the empty store with the meta-schema. -/
def genesis : Store where
  repr := .positional (PositionalStore.fromDatoms [])
  schema := genesisSchema
  epoch := 0
  genesisNode := NodeId.zero
  liveCausal := ∅
  liveSet := ∅
  schemaConflicts := []

/-- `promote`: switch to the write-active representation. -/
def promote (store : Store) : Store :=
  match store.repr with
  | .positional ps =>
      let ordSet := ps.canonical.toFinset
      { store with
        repr := .ordMap ordSet (SortedVecIndexes.fromDatoms (ordSet.sort (· ≤ ·))).sortAll }
  | .ordMap _ _ => store

/-- `demote`: switch to the contiguous representation. -/
def demote (store : Store) : Store :=
  match store.repr with
  | .positional _ => store
  | .ordMap datoms _ =>
      { store with repr := .positional (PositionalStore.fromDatoms (datoms.sort (· ≤ ·))) }

/-- `live_apply`: update the LIVE maps for one datom. -/
def liveApply (store : Store) (d : Datom) : Store :=
  let updated := Ferratomic.liveApply store.liveCausal store.liveSet d
  { store with liveCausal := updated.1, liveSet := updated.2 }

/-- What a client can observe of the store, whatever its representation. -/
def obs (store : Store) : Observation where
  datomSet := store.datomSet
  schema := store.schema
  epoch := store.epoch
  genesisNode := store.genesisNode
  liveCausal := store.liveCausal
  liveSet := store.liveSet

/-- A store enumerates exactly its datoms. -/
@[simp]
theorem toFinset_datoms (store : Store) : store.datoms.toFinset = store.datomSet :=
  store.repr.toFinset_datoms

/-- A store enumerates as many datoms as it has. -/
theorem length_datoms (store : Store) : store.datoms.length = store.datomSet.card := by
  rw [← toFinset_datoms]
  exact (List.toFinset_card_of_nodup (store.repr.pairwise_datoms.imp ne_of_lt)).symm

/-- What a client sees of a store built over a positional one is valid. -/
theorem valid_ofPositional (ps : PositionalStore) (schema : Schema) (epoch : UInt64)
    (genesisNode : NodeId) (conflicts : List SchemaConflict) :
    (ofPositional ps schema epoch genesisNode conflicts).obs.Valid where
  causal := causalOf_buildLiveCausal ps.canonical
  live := rfl

/-- A store built from datoms has exactly these. -/
@[simp]
theorem datomSet_fromDatoms (datoms : Finset Datom) : (fromDatoms datoms).datomSet = datoms := by
  have h := PositionalStore.toFinset_fromDatoms (datoms.sort (· ≤ ·))
  rwa [Finset.sort_toFinset] at h

/-- The genesis store is empty. -/
@[simp]
theorem datomSet_genesis : genesis.datomSet = ∅ :=
  PositionalStore.toFinset_fromDatoms []

/-- What a client sees of the genesis store is valid. -/
theorem valid_genesis : genesis.obs.Valid where
  causal := by
    have h : genesis.obs.datomSet = ∅ := datomSet_genesis
    rw [h]
    exact causalOf_empty
  live := by
    refine OrdMap.ext fun key => ?_
    have hempty : liveAt ∅ key = ∅ := by
      ext value
      simp [mem_liveAt]
    simp [obs, genesis, getElem?_deriveLiveSet, hempty]

/-- Promotion is not observable. -/
@[simp]
theorem obs_promote (store : Store) : store.promote.obs = store.obs := by
  cases hrepr : store.repr <;>
    simp [promote, obs, datomSet, StoreRepr.datomSet, hrepr]

/-- Demotion is not observable. -/
@[simp]
theorem obs_demote (store : Store) : store.demote.obs = store.obs := by
  cases hrepr : store.repr <;>
    simp [demote, obs, datomSet, StoreRepr.datomSet, hrepr]

end Store

end Ferratomic
