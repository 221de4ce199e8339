import Ferratomic.Store.Merge

/-!
# Selective merge

A selective merge takes those remote datoms that a filter matches. `filterRemote_eq` says what one
pass over the remote datoms collects and counts; the main theorem, `selectiveMerge_spec`, says which
datoms the result has, that the counts of the receipt add up, and how selective merges compose.
-/

namespace Ferratomic

open Lib

namespace Store

variable [Blake3]

/-- The datoms that a filter matches. -/
def matching (store : Store) (filter : DatomFilter) : Finset Datom :=
  store.datomSet.filter fun d => filter.matchesDatom d

/-- One pass over the remote datoms counts them in three classes and collects two of them. -/
theorem filterRemote_eq (localStore remote : Store) (filter : DatomFilter) :
    filterRemote localStore remote filter =
      (remote.datoms.filter fun d => filter.matchesDatom d,
        remote.datoms.countP fun d => filter.matchesDatom d ∧ d ∉ localStore.datomSet,
        remote.datoms.countP fun d => filter.matchesDatom d = false,
        remote.datoms.countP fun d => filter.matchesDatom d ∧ d ∈ localStore.datomSet) := by
  unfold filterRemote
  generalize remote.datoms = datoms
  induction datoms using List.reverseRecOn with
  | nil => rfl
  | append_singleton datoms d ih =>
      rw [List.foldl_append, ih, List.foldl_cons, List.foldl_nil]
      simp only [List.filter_append, List.countP_append, List.countP_singleton]
      cases hmatch : filter.matchesDatom d with
      | false => simp [hmatch]
      | true =>
          by_cases hlocal : d ∈ localStore.datomSet
          · simp [hmatch, hlocal]
          · simp [hmatch, hlocal]

/-- Every remote datom is in one of the three classes. -/
theorem count_filterRemote (localStore remote : Store) (filter : DatomFilter) :
    (filterRemote localStore remote filter).2.1 + (filterRemote localStore remote filter).2.2.1 +
      (filterRemote localStore remote filter).2.2.2 = remote.datoms.length := by
  rw [filterRemote_eq]
  show List.countP _ _ + List.countP _ _ + List.countP _ _ = _
  induction remote.datoms with
  | nil => rfl
  | cons d datoms ih =>
      rw [List.length_cons, ← ih]
      simp only [List.countP_cons]
      cases hmatch : filter.matchesDatom d with
      | false => simp; omega
      | true =>
          by_cases hlocal : d ∈ localStore.datomSet
          · simp [hlocal]; omega
          · simp [hlocal]; omega

/-- The transferred datoms are those that match and that the local store does not have. -/
theorem transferred_eq_card (localStore remote : Store) (filter : DatomFilter) :
    (filterRemote localStore remote filter).2.1 =
      (remote.matching filter \ localStore.datomSet).card := by
  rw [filterRemote_eq]
  show List.countP _ _ = _
  have hnodup : remote.datoms.Nodup := remote.repr.pairwise_datoms.imp ne_of_lt
  rw [List.countP_eq_length_filter, ← List.toFinset_card_of_nodup (hnodup.filter _)]
  congr 1
  ext d
  rw [List.mem_toFinset, List.mem_filter, Finset.mem_sdiff, matching, Finset.mem_filter,
    ← toFinset_datoms remote, List.mem_toFinset, decide_eq_true_iff, and_assoc]

/-- The result has the local datoms and the remote datoms that match. -/
theorem datomSet_selectiveMerge (localStore remote : Store) (filter : DatomFilter)
    (source : String) :
    (selectiveMerge localStore remote filter source).1.datomSet =
      localStore.datomSet ∪ remote.matching filter := by
  show (mergeSortDedup localStore.datoms
    (sortDedup (filterRemote localStore remote filter).1)).toFinset = _
  rw [toFinset_mergeSortDedup, toFinset_sortDedup, filterRemote_eq, toFinset_datoms,
    List.toFinset_filter, toFinset_datoms]
  rfl

/-- The receipt counts the matching datoms that were not there. -/
theorem transferred_selectiveMerge (localStore remote : Store) (filter : DatomFilter)
    (source : String) :
    (selectiveMerge localStore remote filter source).2.transferred =
      (remote.matching filter \ localStore.datomSet).card :=
  transferred_eq_card localStore remote filter

/-- Stores of the same datoms enumerate them alike. -/
theorem datoms_eq_of_datomSet_eq {a b : Store} (h : a.datomSet = b.datomSet) :
    a.datoms = b.datoms := by
  refine eq_of_toFinset_eq a.repr.pairwise_datoms b.repr.pairwise_datoms ?_
  exact (toFinset_datoms a).trans (h.trans (toFinset_datoms b).symm)

/-- A disjunction of two filters matches what one of them matches. -/
theorem matching_or (store : Store) (f g : DatomFilter) :
    store.matching (.or [f, g]) = store.matching f ∪ store.matching g := by
  rw [matching, matching, matching, ← Finset.filter_or]
  refine Finset.filter_congr fun d _ => ?_
  simp [DatomFilter.matchesDatom, DatomFilter.anyMatch]

/-- The filter that takes all matches every datom. -/
theorem matching_all (store : Store) : store.matching .all = store.datomSet := by
  refine Finset.filter_true_of_mem fun d _ => ?_
  simp [DatomFilter.matchesDatom]

/-- A selective merge adds the remote datoms that match to the local ones. The counts of the
receipt add up to the remote datoms, and those that were transferred are new. Merging again
transfers nothing, two filters one after the other act as their disjunction, and without a filter
the result is that of `fromMerge`. -/
theorem selectiveMerge_spec (localStore remote : Store) (f g : DatomFilter)
    (source source' source'' : String) :
    let merged := selectiveMerge localStore remote f source
    merged.1.datomSet =
      localStore.datomSet ∪ remote.datomSet.filter (fun d => f.matchesDatom d) ∧
    merged.2.transferred + merged.2.filteredOut + merged.2.alreadyPresent =
      remote.datoms.length ∧
    merged.1.datoms.length = localStore.datoms.length + merged.2.transferred ∧
    (selectiveMerge merged.1 remote f source').2.transferred = 0 ∧
    (selectiveMerge merged.1 remote f source').1.datoms = merged.1.datoms ∧
    (selectiveMerge merged.1 remote g source').1.datomSet =
      (selectiveMerge localStore remote (.or [f, g]) source'').1.datomSet ∧
    (selectiveMerge localStore remote .all source).1.datomSet =
      (fromMerge localStore remote).datomSet ∧
    (selectiveMerge localStore remote .all source).1.schema =
      (fromMerge localStore remote).schema ∧
    (selectiveMerge localStore remote .all source).1.epoch =
      (fromMerge localStore remote).epoch ∧
    (selectiveMerge localStore remote .all source).1.genesisNode =
      (fromMerge localStore remote).genesisNode := by
  intro merged
  have hset : merged.1.datomSet = localStore.datomSet ∪ remote.matching f :=
    datomSet_selectiveMerge localStore remote f source
  refine ⟨hset, count_filterRemote localStore remote f, ?_, ?_, ?_, ?_, ?_, rfl, rfl, rfl⟩
  · rw [length_datoms, length_datoms, hset, transferred_selectiveMerge, Finset.union_comm,
      Finset.card_union, Finset.card_sdiff]
    have hle := Finset.card_le_card
      (Finset.inter_subset_right : localStore.datomSet ∩ remote.matching f ⊆ _)
    rw [Finset.inter_comm (remote.matching f)]
    omega
  · rw [transferred_selectiveMerge, hset, Finset.card_eq_zero, Finset.sdiff_eq_empty_iff_subset]
    exact Finset.subset_union_right
  · refine datoms_eq_of_datomSet_eq ?_
    rw [datomSet_selectiveMerge merged.1, hset, Finset.union_assoc, Finset.union_self]
  · rw [datomSet_selectiveMerge merged.1, hset, datomSet_selectiveMerge, matching_or,
      Finset.union_assoc]
  · rw [datomSet_selectiveMerge, matching_all]
    exact (toFinset_mergeRepr localStore.repr remote.repr).symm

end Store

end Ferratomic
