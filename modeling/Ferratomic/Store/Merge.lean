import Ferratomic.Filter
import Ferratomic.Store.Apply

/-!
# Merging stores

`fromMerge` joins two stores component by component: the datom arrays by a sorted merge, the
causal maps by a nested union with the greater event, the schemas by keeping the smaller
definition, the epochs by their maximum and the genesis nodes by their minimum.

`Observation.merge` is the same join on abstract stores; `obs_fromMerge` says that `fromMerge`
computes it in all four combinations of representations, and `Observation.merge_comm`,
`Observation.merge_assoc` and `Observation.Valid.merge_self` are its semilattice laws.
-/

namespace Ferratomic

open Lib

/-- One iteration of `merge_schemas`: keep the definition that sorts first and record a
conflict. -/
def mergeSchemaStep (merged : Schema × List SchemaConflict) (entry : Attribute × AttributeDef) :
    Schema × List SchemaConflict :=
  match merged.1[entry.1]? with
  | none => (merged.1.define entry.1 entry.2, merged.2)
  | some existing =>
      if entry.2 = existing then merged
      else if entry.2 < existing then
        (merged.1.define entry.1 entry.2, merged.2 ++ [⟨entry.1, entry.2, existing⟩])
      else (merged.1, merged.2 ++ [⟨entry.1, existing, entry.2⟩])

/-- `merge_schemas`: fold both schemas into an empty one. -/
def mergeSchemas (a b : Schema) : Schema × List SchemaConflict :=
  (a.toList ++ b.toList).foldl mergeSchemaStep (∅, [])

section Schemas

/-- Every step keeps the smaller definition of its own attribute. -/
theorem getElem?_mergeSchemaStep (merged : Schema × List SchemaConflict)
    (entry : Attribute × AttributeDef) (probe : Attribute) :
    (mergeSchemaStep merged entry).1[probe]? =
      if entry.1 = probe then Option.merge min merged.1[probe]? (some entry.2)
      else merged.1[probe]? := by
  unfold mergeSchemaStep
  by_cases hkey : entry.1 = probe
  · subst hkey
    rw [if_pos rfl]
    cases hfind : merged.1[entry.1]? with
    | none => simp [Schema.getElem?_define]
    | some existing =>
        simp only [Option.merge_some_some]
        by_cases heq : entry.2 = existing
        · rw [if_pos heq, hfind, heq, min_self]
        · rw [if_neg heq]
          by_cases hlt : entry.2 < existing
          · rw [if_pos hlt, Schema.getElem?_define, if_pos rfl, min_eq_right hlt.le]
          · rw [if_neg hlt, min_eq_left (not_lt.mp hlt), hfind]
  · rw [if_neg hkey]
    split
    · rw [Schema.getElem?_define, if_neg hkey]
    · split
      · rfl
      · split
        · rw [Schema.getElem?_define, if_neg hkey]
        · rfl

/-- Folding the entries of a schema keeps the smaller definitions. -/
theorem fst_foldl_mergeSchemaStep (merged : Schema × List SchemaConflict) (schema : Schema) :
    (schema.toList.foldl mergeSchemaStep merged).1 = OrdMap.unionWith min merged.1 schema := by
  rw [OrdMap.unionWith, Std.ExtTreeMap.foldl_eq_foldl_toList]
  generalize schema.toList = entries
  induction entries generalizing merged with
  | nil => rfl
  | cons entry entries ih =>
      rw [List.foldl_cons, List.foldl_cons, ih]
      congr 1
      refine OrdMap.ext fun probe => ?_
      rw [getElem?_mergeSchemaStep, OrdMap.getElem?_unionStep]

/-- The merged schema has the smaller definition of every attribute. -/
theorem fst_mergeSchemas (a b : Schema) :
    (mergeSchemas a b).1 = OrdMap.unionWith min a b := by
  rw [mergeSchemas, List.foldl_append, fst_foldl_mergeSchemaStep, fst_foldl_mergeSchemaStep]
  congr 1
  refine OrdMap.ext fun probe => ?_
  simp [OrdMap.getElem?_unionWith]

end Schemas

namespace Observation

/-- The join of two abstract stores. -/
def merge (a b : Observation) : Observation where
  datomSet := a.datomSet ∪ b.datomSet
  schema := OrdMap.unionWith min a.schema b.schema
  epoch := max a.epoch b.epoch
  genesisNode := min a.genesisNode b.genesisNode
  liveCausal := mergeCausal a.liveCausal b.liveCausal
  liveSet := deriveLiveSet (mergeCausal a.liveCausal b.liveCausal)

/-- The merge of observations commutes. -/
theorem merge_comm (a b : Observation) : a.merge b = b.merge a := by
  simp only [merge, mergeCausal, OrdMap.unionWith_comm _ a.liveCausal,
    OrdMap.unionWith_comm _ a.schema, Finset.union_comm a.datomSet, max_comm a.epoch,
    min_comm a.genesisNode]

/-- The merge of observations is associative. -/
theorem merge_assoc (a b c : Observation) : (a.merge b).merge c = a.merge (b.merge c) := by
  simp only [merge, mergeCausal, OrdMap.unionWith_assoc, Finset.union_assoc, max_assoc,
    min_assoc]

/-- Merging a store that keeps the invariant with itself changes nothing. -/
theorem Valid.merge_self {o : Observation} (h : o.Valid) : o.merge o = o := by
  simp only [merge, mergeCausal, OrdMap.unionWith_self, Finset.union_self, max_self, min_self,
    ← h.live]

/-- A merge of valid observations is valid. -/
theorem Valid.merge {a b : Observation} (ha : a.Valid) (hb : b.Valid) : (a.merge b).Valid where
  causal := ha.causal.mergeCausal hb.causal
  live := rfl

end Observation

variable [Blake3]

/-- `merge_repr`: merge the datoms of two representations into a contiguous one. -/
def mergeRepr (a b : StoreRepr) : PositionalStore :=
  match a, b with
  | .positional pa, .positional pb => PositionalStore.mergePositional pa pb
  | .positional pa, .ordMap db _ =>
      PositionalStore.fromSortedCanonical (mergeSortDedup pa.canonical (db.sort (· ≤ ·)))
        (pairwise_mergeSortDedup pa.sorted (Finset.sortedLT_sort db).pairwise)
  | .ordMap da _, .positional pb =>
      PositionalStore.fromSortedCanonical (mergeSortDedup (da.sort (· ≤ ·)) pb.canonical)
        (pairwise_mergeSortDedup (Finset.sortedLT_sort da).pairwise pb.sorted)
  | .ordMap da _, .ordMap db _ =>
      PositionalStore.fromSortedCanonical (mergeSortDedup (da.sort (· ≤ ·)) (db.sort (· ≤ ·)))
        (pairwise_mergeSortDedup (Finset.sortedLT_sort da).pairwise
          (Finset.sortedLT_sort db).pairwise)

/-- The merged array holds the union of the datom sets. -/
theorem toFinset_mergeRepr (a b : StoreRepr) :
    (mergeRepr a b).canonical.toFinset = a.datomSet ∪ b.datomSet := by
  cases a <;> cases b <;> simp [mergeRepr, StoreRepr.datomSet]

namespace Store

/-- `from_merge`: join two stores. -/
def fromMerge (a b : Store) : Store where
  repr := .positional (mergeRepr a.repr b.repr)
  schema := (mergeSchemas a.schema b.schema).1
  epoch := max a.epoch b.epoch
  genesisNode := min a.genesisNode b.genesisNode
  liveCausal := mergeCausal a.liveCausal b.liveCausal
  liveSet := deriveLiveSet (mergeCausal a.liveCausal b.liveCausal)
  schemaConflicts := (mergeSchemas a.schema b.schema).2

/-- The counts and descriptions that a selective merge reports. -/
structure MergeReceipt where
  source : String
  filterDescription : String
  transferred : Nat
  filteredOut : Nat
  alreadyPresent : Nat

/-- `filter_remote`: the remote datoms that match, and how many were transferred, filtered out
and already present. -/
def filterRemote (localStore remote : Store) (filter : DatomFilter) :
    List Datom × Nat × Nat × Nat :=
  remote.datoms.foldl
    (fun (accepted, transferred, filteredOut, alreadyPresent) d =>
      if filter.matchesDatom d then
        if d ∈ localStore.datomSet then
          (accepted ++ [d], transferred, filteredOut, alreadyPresent + 1)
        else (accepted ++ [d], transferred + 1, filteredOut, alreadyPresent)
      else (accepted, transferred, filteredOut + 1, alreadyPresent))
    ([], 0, 0, 0)

/-- `selective_merge`: merge the matching remote datoms into the local store. -/
def selectiveMerge (localStore remote : Store) (filter : DatomFilter) (source : String) :
    Store × MergeReceipt :=
  let selected := filterRemote localStore remote filter
  let ps := PositionalStore.fromSortedCanonical
    (mergeSortDedup localStore.datoms (sortDedup selected.1))
    (pairwise_mergeSortDedup localStore.repr.pairwise_datoms (pairwise_sortDedup selected.1))
  let schemas := mergeSchemas localStore.schema remote.schema
  (ofPositional ps schemas.1 (max localStore.epoch remote.epoch)
      (min localStore.genesisNode remote.genesisNode) schemas.2,
    ⟨source, filter.serialize, selected.2.1, selected.2.2.1, selected.2.2.2⟩)

/-- A merge of stores is the join of what they show, in every combination of
representations. -/
theorem obs_fromMerge (a b : Store) : (fromMerge a b).obs = a.obs.merge b.obs := by
  simp only [fromMerge, obs, Observation.merge, datomSet, StoreRepr.datomSet,
    toFinset_mergeRepr, fst_mergeSchemas]

end Store

end Ferratomic
