import Ferratomic.Lib.BinarySearch
import Ferratomic.Store.Convergence

/-!
# The four indexes and the primary set

The write-active representation keeps four sorted vectors beside the primary datom set. Insertion
appends to them, repeated datoms included, and sorting drops the repetitions. `Lists` says what a
vector holds between two sorts, in any order and any number of times: one entry for each datom of
the primary set. It is kept by every operation, and a sort turns it into the bijection that the
lookups rely on (`Lists.exact_sort`). The main theorem is `indexes_bijection`.
-/

namespace Ferratomic

open Lib

namespace SortedVecBackend

variable {K V : Type} [LinearOrder K]

/-- `backend_get`: binary search, and nothing on a vector that is not sorted. -/
def get (backend : SortedVecBackend K V) (key : K) : Option V :=
  if backend.sorted then
    match binarySearchBy backend.entries fun entry => compare entry.1 key with
    | .ok index => backend.entries[index]?.map Prod.snd
    | .error _ => none
  else none

/-- `backend_values`: the values in the order of the vector. -/
def values (backend : SortedVecBackend K V) : List V :=
  backend.entries.map Prod.snd

section Dedup

/-- Where equal keys have equal entries, deduplication keeps every entry. -/
theorem mem_dedupByKey {entries : List (K × V)}
    (h : ∀ x ∈ entries, ∀ y ∈ entries, x.1 = y.1 → x = y) {entry : K × V} :
    entry ∈ dedupByKey entries ↔ entry ∈ entries := by
  fun_induction dedupByKey entries with
  | case1 => rfl
  | case2 => rfl
  | case3 x y rest heq ih =>
      have hxy : x = y := h x List.mem_cons_self y (List.mem_cons_of_mem _ List.mem_cons_self) heq
      have hsub : ∀ z ∈ x :: rest, z ∈ x :: y :: rest := by
        intro z hz
        rcases List.mem_cons.mp hz with rfl | hrest
        · exact List.mem_cons_self
        · exact List.mem_cons_of_mem _ (List.mem_cons_of_mem _ hrest)
      rw [ih fun a ha b hb => h a (hsub a ha) b (hsub b hb)]
      simp [← hxy]
  | case4 x y rest hne ih =>
      rw [List.mem_cons, List.mem_cons, ih fun a ha b hb =>
        h a (List.mem_cons_of_mem _ ha) b (List.mem_cons_of_mem _ hb)]

/-- Deduplication by key only leaves out entries. -/
theorem mem_of_mem_dedupByKey {entries : List (K × V)} {entry : K × V}
    (h : entry ∈ dedupByKey entries) : entry ∈ entries := by
  fun_induction dedupByKey entries with
  | case1 => exact h
  | case2 => exact h
  | case3 x y rest heq ih =>
      rcases List.mem_cons.mp (ih h) with rfl | hrest
      · exact List.mem_cons_self
      · exact List.mem_cons_of_mem _ (List.mem_cons_of_mem _ hrest)
  | case4 x y rest hne ih =>
      rcases List.mem_cons.mp h with rfl | hrest
      · exact List.mem_cons_self
      · exact List.mem_cons_of_mem _ (ih hrest)

/-- Deduplication of an ascending vector leaves strictly ascending keys. -/
theorem pairwise_dedupByKey {entries : List (K × V)}
    (h : entries.Pairwise fun x y => x.1 ≤ y.1) :
    (dedupByKey entries).Pairwise fun x y => x.1 < y.1 := by
  fun_induction dedupByKey entries with
  | case1 => exact List.Pairwise.nil
  | case2 x => exact List.pairwise_singleton _ x
  | case3 x y rest heq ih =>
      obtain ⟨hx, htail⟩ := List.pairwise_cons.mp h
      refine ih (List.pairwise_cons.mpr ⟨fun z hz => hx z (List.mem_cons_of_mem _ hz), ?_⟩)
      exact (List.pairwise_cons.mp htail).2
  | case4 x y rest hne ih =>
      obtain ⟨hx, htail⟩ := List.pairwise_cons.mp h
      refine List.pairwise_cons.mpr ⟨fun z hz => ?_, ih htail⟩
      have hxy : x.1 < y.1 := lt_of_le_of_ne (hx y List.mem_cons_self) hne
      rcases List.mem_cons.mp (mem_of_mem_dedupByKey hz) with rfl | hrest
      · exact hxy
      · exact lt_of_lt_of_le hxy ((List.pairwise_cons.mp htail).1 z hrest)

end Dedup

/-- The vector holds one entry for each datom of the set, in any order and any number of times
until it is sorted. -/
structure Lists (backend : SortedVecBackend K Datom) (key : Datom → K) (datoms : Finset Datom) :
    Prop where
  mem : ∀ entry, entry ∈ backend.entries ↔ ∃ d ∈ datoms, entry = (key d, d)
  ascending : backend.sorted = true → backend.entries.Pairwise fun x y => x.1 < y.1

/-- The empty backend lists the empty set. -/
theorem lists_empty (key : Datom → K) :
    (empty : SortedVecBackend K Datom).Lists key ∅ where
  mem entry := by simp [empty]
  ascending _ := List.Pairwise.nil

/-- An insertion adds its datom to what the backend lists. -/
theorem Lists.insert {backend : SortedVecBackend K Datom} {key : Datom → K}
    {datoms : Finset Datom} (h : backend.Lists key datoms) (d : Datom) :
    (backend.insert (key d) d).Lists key (Insert.insert d datoms) where
  mem entry := by
    simp only [SortedVecBackend.insert, List.mem_append, List.mem_singleton, h.mem,
      Finset.mem_insert, exists_eq_or_imp]
    exact Or.comm
  ascending hsorted := by cases hsorted

/-- A vector that lists the set and is sorted: each datom once, by ascending key. -/
structure Exact (backend : SortedVecBackend K Datom) (key : Datom → K) (datoms : Finset Datom) :
    Prop extends backend.Lists key datoms where
  sorted : backend.sorted = true

/-- Under an injective key two listed entries of one key are equal. -/
theorem Lists.eq_of_key_eq {backend : SortedVecBackend K Datom} {key : Datom → K}
    {datoms : Finset Datom} (h : backend.Lists key datoms) (hkey : Function.Injective key)
    {x y : K × Datom} (hx : x ∈ backend.entries) (hy : y ∈ backend.entries) (heq : x.1 = y.1) :
    x = y := by
  obtain ⟨d, _, rfl⟩ := (h.mem x).mp hx
  obtain ⟨d', _, rfl⟩ := (h.mem y).mp hy
  rw [hkey heq]

/-- Sorting leaves each datom once. -/
theorem Lists.exact_sort {backend : SortedVecBackend K Datom} {key : Datom → K}
    {datoms : Finset Datom} (h : backend.Lists key datoms) (hkey : Function.Injective key) :
    backend.sort.Exact key datoms := by
  rw [sort]
  split
  next hsorted => exact ⟨h, hsorted⟩
  next hsorted =>
    have htotal : Std.Total fun x y : K × Datom => x.1 ≤ y.1 := ⟨fun x y => le_total x.1 y.1⟩
    have htrans : IsTrans (K × Datom) fun x y => x.1 ≤ y.1 := ⟨fun _ _ _ => le_trans⟩
    have hmem (entry : K × Datom) :
        entry ∈ backend.entries.insertionSort (fun x y => x.1 ≤ y.1) ↔ entry ∈ backend.entries :=
      List.mem_insertionSort _
    -- an entry is determined by its key, so a dropped entry is equal to one that is kept
    have hdetermined : ∀ x ∈ backend.entries.insertionSort (fun x y => x.1 ≤ y.1),
        ∀ y ∈ backend.entries.insertionSort (fun x y => x.1 ≤ y.1), x.1 = y.1 → x = y := by
      intro x hx y hy
      exact h.eq_of_key_eq hkey ((hmem x).mp hx) ((hmem y).mp hy)
    refine ⟨⟨fun entry => ?_, fun _ => ?_⟩, rfl⟩
    · rw [mem_dedupByKey hdetermined, hmem, h.mem]
    · exact pairwise_dedupByKey (List.pairwise_insertionSort _ _)

/-- The index as an ordered map over the set: every datom once, by ascending key, and found under
its key. -/
structure EnumeratesOnce (backend : SortedVecBackend K Datom) (key : Datom → K)
    (datoms : Finset Datom) : Prop where
  perm : backend.values.Perm datoms.toList
  ascending : (backend.values.map key).Pairwise (· < ·)
  get : ∀ d, backend.get (key d) = if d ∈ datoms then some d else none

/-- An exact backend's values are the datoms of the set. -/
theorem Exact.mem_values {backend : SortedVecBackend K Datom} {key : Datom → K}
    {datoms : Finset Datom} (h : backend.Exact key datoms) {d : Datom} :
    d ∈ backend.values ↔ d ∈ datoms := by
  simp only [values, List.mem_map, h.mem]
  constructor
  · rintro ⟨_, ⟨d', hd', rfl⟩, rfl⟩
    exact hd'
  · intro hd
    exact ⟨(key d, d), ⟨d, hd, rfl⟩, rfl⟩

/-- An exact backend's values ascend strictly by key. -/
theorem Exact.ascending_values {backend : SortedVecBackend K Datom} {key : Datom → K}
    {datoms : Finset Datom} (h : backend.Exact key datoms) :
    (backend.values.map key).Pairwise (· < ·) := by
  have hkeys : backend.values.map key = backend.entries.map Prod.fst := by
    rw [values, List.map_map]
    refine List.map_congr_left fun entry hentry => ?_
    obtain ⟨d, _, rfl⟩ := (h.mem entry).mp hentry
    rfl
  rw [hkeys, List.pairwise_map]
  exact h.ascending h.sorted

/-- A key is found when an entry has it. -/
theorem Exact.get_eq_some {backend : SortedVecBackend K Datom} {key : Datom → K}
    {datoms : Finset Datom} (h : backend.Exact key datoms) (hkey : Function.Injective key)
    {d d' : Datom} : backend.get (key d) = some d' ↔ d ∈ datoms ∧ d' = d := by
  have hsearch (index : Nat) :=
    @binarySearchBy_eq_ok _ _ _ (ascends_compare (h.ascending h.sorted) (key d)) index
  rw [SortedVecBackend.get, if_pos h.sorted]
  constructor
  · intro hget
    split at hget
    · next index hfound =>
        obtain ⟨entry, hentry, heq⟩ := (hsearch index).mp hfound
        obtain ⟨found, hmem, rfl⟩ := (h.mem entry).mp (List.mem_of_getElem? hentry)
        have hd : found = d := hkey (compare_eq_iff_eq.mp heq)
        rw [hentry, hd] at hget
        cases hget
        exact ⟨hd ▸ hmem, rfl⟩
    · cases hget
  · rintro ⟨hmem, rfl⟩
    obtain ⟨index, hindex⟩ := List.mem_iff_getElem?.mp ((h.mem (key d', d')).mpr ⟨d', hmem, rfl⟩)
    rw [(hsearch index).mpr ⟨_, hindex, compare_eq_iff_eq.mpr rfl⟩]
    simp only [hindex, Option.map_some]

/-- Under an injective key an exact backend enumerates every datom once, in key order. -/
theorem Exact.enumeratesOnce {backend : SortedVecBackend K Datom} {key : Datom → K}
    {datoms : Finset Datom} (h : backend.Exact key datoms) (hkey : Function.Injective key) :
    backend.EnumeratesOnce key datoms where
  perm := by
    have hnodup : backend.values.Nodup := by
      have hkeys := h.ascending_values.imp fun hlt => ne_of_lt hlt
      exact List.Nodup.of_map key hkeys
    refine (List.perm_ext_iff_of_nodup hnodup datoms.nodup_toList).mpr fun d => ?_
    rw [h.mem_values, Finset.mem_toList]
  ascending := h.ascending_values
  get d := by
    split
    next hmem => exact (h.get_eq_some hkey).mpr ⟨hmem, rfl⟩
    next hmem =>
      refine Option.eq_none_iff_forall_ne_some.mpr fun d' hget => hmem ?_
      exact ((h.get_eq_some hkey).mp hget).1

end SortedVecBackend

namespace SortedVecIndexes

/-- `verify_bijection`: the four indexes hold the same number of entries and the same datoms. -/
def verifyBijection (indexes : SortedVecIndexes) : Bool :=
  decide (indexes.aevt.entries.length = indexes.eavt.entries.length ∧
    indexes.vaet.entries.length = indexes.eavt.entries.length ∧
    indexes.avet.entries.length = indexes.eavt.entries.length) &&
  decide (indexes.eavt.values.toFinset = indexes.aevt.values.toFinset ∧
    indexes.eavt.values.toFinset = indexes.vaet.values.toFinset ∧
    indexes.eavt.values.toFinset = indexes.avet.values.toFinset)

/-- All four indexes list the set. -/
structure Lists (indexes : SortedVecIndexes) (datoms : Finset Datom) : Prop where
  eavt : indexes.eavt.Lists EavtKey.fromDatom datoms
  aevt : indexes.aevt.Lists AevtKey.fromDatom datoms
  vaet : indexes.vaet.Lists VaetKey.fromDatom datoms
  avet : indexes.avet.Lists AvetKey.fromDatom datoms

/-- All four indexes are ordered maps over the set. -/
structure EnumerateOnce (indexes : SortedVecIndexes) (datoms : Finset Datom) : Prop where
  eavt : indexes.eavt.EnumeratesOnce EavtKey.fromDatom datoms
  aevt : indexes.aevt.EnumeratesOnce AevtKey.fromDatom datoms
  vaet : indexes.vaet.EnumeratesOnce VaetKey.fromDatom datoms
  avet : indexes.avet.EnumeratesOnce AvetKey.fromDatom datoms

/-- An insertion adds its datom to what the four indexes list. -/
theorem Lists.insert {indexes : SortedVecIndexes} {datoms : Finset Datom}
    (h : indexes.Lists datoms) (d : Datom) :
    (indexes.insert d).Lists (Insert.insert d datoms) :=
  ⟨h.eavt.insert d, h.aevt.insert d, h.vaet.insert d, h.avet.insert d⟩

/-- Insertions one after another add their datoms to what the four indexes list. -/
theorem Lists.foldl_insert {indexes : SortedVecIndexes} {datoms : Finset Datom}
    (h : indexes.Lists datoms) (items : List Datom) :
    (items.foldl SortedVecIndexes.insert indexes).Lists (datoms ∪ items.toFinset) := by
  induction items generalizing indexes datoms with
  | nil =>
      rw [List.toFinset_nil, Finset.union_empty]
      exact h
  | cons d items ih =>
      have hrest := ih (h.insert d)
      rwa [Finset.insert_union, ← Finset.union_insert, ← List.toFinset_cons] at hrest

/-- The indexes built from a list of datoms list exactly these. -/
theorem lists_fromDatoms (items : List Datom) : (fromDatoms items).Lists items.toFinset := by
  have hempty : (⟨.empty, .empty, .empty, .empty⟩ : SortedVecIndexes).Lists ∅ :=
    ⟨SortedVecBackend.lists_empty _, SortedVecBackend.lists_empty _,
      SortedVecBackend.lists_empty _, SortedVecBackend.lists_empty _⟩
  have hall := hempty.foldl_insert items
  rwa [Finset.empty_union] at hall

/-- Sorted indexes enumerate every datom of the set once, each in its own order. -/
theorem Lists.enumerateOnce_sortAll {indexes : SortedVecIndexes} {datoms : Finset Datom}
    (h : indexes.Lists datoms) : indexes.sortAll.EnumerateOnce datoms where
  eavt := (h.eavt.exact_sort EavtKey.fromDatom_injective).enumeratesOnce
    EavtKey.fromDatom_injective
  aevt := (h.aevt.exact_sort AevtKey.fromDatom_injective).enumeratesOnce
    AevtKey.fromDatom_injective
  vaet := (h.vaet.exact_sort VaetKey.fromDatom_injective).enumeratesOnce
    VaetKey.fromDatom_injective
  avet := (h.avet.exact_sort AvetKey.fromDatom_injective).enumeratesOnce
    AvetKey.fromDatom_injective

/-- Sorting leaves what the four indexes list as it is. -/
theorem Lists.sortAll {indexes : SortedVecIndexes} {datoms : Finset Datom}
    (h : indexes.Lists datoms) : indexes.sortAll.Lists datoms :=
  ⟨(h.eavt.exact_sort EavtKey.fromDatom_injective).toLists,
    (h.aevt.exact_sort AevtKey.fromDatom_injective).toLists,
    (h.vaet.exact_sort VaetKey.fromDatom_injective).toLists,
    (h.avet.exact_sort AvetKey.fromDatom_injective).toLists⟩

/-- Ordered maps over one set agree. -/
theorem EnumerateOnce.verifyBijection {indexes : SortedVecIndexes} {datoms : Finset Datom}
    (h : indexes.EnumerateOnce datoms) : indexes.verifyBijection = true := by
  have hlength {K : Type} [LinearOrder K] {backend : SortedVecBackend K Datom} {key : Datom → K}
      (hb : backend.EnumeratesOnce key datoms) : backend.entries.length = datoms.card := by
    rw [← Finset.length_toList, ← hb.perm.length_eq, SortedVecBackend.values, List.length_map]
  have hset {K : Type} [LinearOrder K] {backend : SortedVecBackend K Datom} {key : Datom → K}
      (hb : backend.EnumeratesOnce key datoms) : backend.values.toFinset = datoms := by
    rw [List.toFinset_eq_of_perm _ _ hb.perm, Finset.toList_toFinset]
  simp only [SortedVecIndexes.verifyBijection, hlength h.eavt, hlength h.aevt, hlength h.vaet,
    hlength h.avet, hset h.eavt, hset h.aevt, hset h.vaet, hset h.avet, and_self, decide_true,
    Bool.and_self]

end SortedVecIndexes

namespace Store

section Runs

variable [Blake3]

/-- The indexes of a write-active store list its primary set. -/
def Indexed (store : Store) : Prop :=
  ∀ datoms indexes, store.repr = .ordMap datoms indexes → indexes.Lists datoms

/-- A positional store needs no sorted indexes. -/
theorem indexed_of_positional {store : Store} (ps : PositionalStore)
    (h : store.repr = .positional ps) : store.Indexed := by
  intro datoms indexes hrepr
  rw [h] at hrepr
  cases hrepr

/-- A store of ordered maps is indexed when its indexes list its datoms. -/
theorem indexed_of_ordMap {store : Store} {datoms : Finset Datom} {indexes : SortedVecIndexes}
    (h : store.repr = .ordMap datoms indexes) (hlists : indexes.Lists datoms) :
    store.Indexed := by
  intro datoms' indexes' hrepr
  rw [h] at hrepr
  cases hrepr
  exact hlists

/-- Being indexed depends on the datoms and indexes of a store only. -/
theorem Indexed.of_sameBody {store other : Store} (h : store.Indexed)
    (hbody : store.SameBody other) : other.Indexed := by
  rw [hbody]
  exact h

/-- Promotion to ordered maps keeps a store indexed. -/
theorem Indexed.promote {store : Store} (h : store.Indexed) : store.promote.Indexed := by
  cases hrepr : store.repr with
  | positional ps =>
      have hlists := SortedVecIndexes.lists_fromDatoms (ps.canonical.toFinset.sort (· ≤ ·))
      rw [Finset.sort_toFinset] at hlists
      refine indexed_of_ordMap ?_ hlists.sortAll
      simp only [Store.promote, hrepr]
  | ordMap datoms indexes =>
      have hsame : store.promote = store := by simp only [Store.promote, hrepr]
      rw [hsame]
      exact h

/-- An insertion into the ordered maps keeps a store indexed. -/
theorem Indexed.insertOrdMap {store : Store} (h : store.Indexed) (d : Datom) :
    (store.insertOrdMap d).Indexed := by
  cases hrepr : store.repr with
  | positional ps =>
      refine indexed_of_positional ps ?_
      simp only [Store.insertOrdMap, hrepr, Store.liveApply]
  | ordMap datoms indexes =>
      refine indexed_of_ordMap ?_ ((h datoms indexes hrepr).insert d)
      simp only [Store.insertOrdMap, hrepr, Store.liveApply]

/-- Insertions one after another keep a store indexed. -/
theorem Indexed.foldl_insertOrdMap {store : Store} (h : store.Indexed) (items : List Datom) :
    (items.foldl Store.insertOrdMap store).Indexed := by
  induction items generalizing store with
  | nil => exact h
  | cons d items ih => exact ih (h.insertOrdMap d)

/-- `insert` keeps a store indexed. -/
theorem Indexed.insert {store : Store} (h : store.Indexed) (d : Datom) :
    (store.insert d).Indexed :=
  h.promote.insertOrdMap d

/-- The replay of one entry keeps a store indexed. -/
theorem Indexed.replayEntry {store : Store} (h : store.Indexed) (order : IterOrder)
    (epoch : UInt64) (datoms : List Datom) : (replayEntry order store epoch datoms).2.Indexed := by
  have hinserted : (datoms.foldl Store.insert store).Indexed := by
    induction datoms generalizing store with
    | nil => exact h
    | cons d datoms ih => exact ih (h.insert d)
  exact hinserted

/-- The replay of a log keeps a store indexed. -/
theorem Indexed.replayEntries {store : Store} (h : store.Indexed) (orders : Nat → IterOrder)
    (index : Nat) (entries : List (UInt64 × List Datom)) :
    (replayEntries orders index store entries).2.Indexed := by
  induction entries generalizing index store with
  | nil => exact h
  | cons entry rest ih =>
      have hinserted := h.foldl_insertOrdMap entry.2
      rw [Store.replayEntries]
      split
      · exact hinserted
      · refine ih ?_ (index + 1)
        exact hinserted

/-- A demoted store is indexed. -/
theorem indexed_demote (store : Store) : store.demote.Indexed := by
  cases hrepr : store.repr with
  | positional ps =>
      have hsame : store.demote = store := by simp only [demote, hrepr]
      rw [hsame]
      exact indexed_of_positional ps hrepr
  | ordMap datoms indexes =>
      refine indexed_of_positional (PositionalStore.fromDatoms (datoms.sort (· ≤ ·))) ?_
      simp only [demote, hrepr]

/-- A batch replay keeps a store indexed. -/
theorem Indexed.batchReplay {store : Store} (h : store.Indexed) (orders : Nat → IterOrder)
    (entries : List (UInt64 × List Datom)) : (batchReplay orders store entries).2.Indexed := by
  have hrun := h.promote.replayEntries orders 0 entries
  unfold Store.batchReplay
  split
  case isTrue => exact h
  case isFalse =>
      split
      case h_1 e other heq =>
          rw [heq] at hrun
          exact hrun
      case h_2 other heq => exact indexed_demote other

/-- A store is indexed after `apply_datoms`. -/
theorem indexed_applyDatoms (store : Store) (newDatoms : List Datom) :
    (store.applyDatoms newDatoms).Indexed := by
  cases hrepr : store.repr with
  | positional ps =>
      refine indexed_of_positional (PositionalStore.fromSortedCanonical
        (mergeSortDedup ps.canonical (sortDedup newDatoms))
        (pairwise_mergeSortDedup ps.sorted (pairwise_sortDedup newDatoms))) ?_
      simp only [applyDatoms, spliceTransactBatch, hrepr, foldl_liveApply]
  | ordMap datoms indexes =>
      simp only [applyDatoms, hrepr]
      exact indexed_demote _

/-- Sorting the indexes keeps a store indexed. -/
theorem Indexed.ensureIndexesSorted {store : Store} (h : store.Indexed) :
    store.ensureIndexesSorted.Indexed := by
  cases hrepr : store.repr with
  | positional ps =>
      have hsame : store.ensureIndexesSorted = store := by
        simp only [Store.ensureIndexesSorted, hrepr]
      rw [hsame]
      exact h
  | ordMap datoms indexes =>
      refine indexed_of_ordMap ?_ (h datoms indexes hrepr).sortAll
      simp only [Store.ensureIndexesSorted, hrepr]

/-- In every reachable write-active store the indexes list the primary set. -/
theorem Reachable.indexed {store : Store} (h : Reachable store) : store.Indexed := by
  induction h with
  | genesis => exact indexed_of_positional _ rfl
  | fromDatoms datoms => exact indexed_of_positional _ rfl
  | fromCheckpoint epoch genesisNode schemaAttrs datoms => exact indexed_of_positional _ rfl
  | reload _ hload ih =>
      obtain ⟨ps, rfl, -⟩ := fromCheckpointV3_ok hload
      exact indexed_of_positional _ rfl
  | transact order transaction ctx _ ih =>
      rename_i store _
      rcases transact_snd_cases order store transaction ctx with hbody | ⟨_, _, hbody, heq⟩
      · exact ih.of_sameBody hbody
      · rw [heq]
        exact indexed_applyDatoms _ _
  | batchSpliceTransact orders batches _ ih =>
      rename_i store _
      rcases batchSpliceTransact_snd_cases orders store batches with hbody | ⟨_, _, hbody, heq⟩
      · exact ih.of_sameBody hbody
      · rw [heq]
        exact indexed_applyDatoms _ _
  | insert d _ ih => exact ih.insert d
  | replayEntry order epoch datoms _ ih => exact ih.replayEntry order epoch datoms
  | batchReplay orders entries _ ih => exact ih.batchReplay orders entries
  | promote _ ih => exact ih.promote
  | ensureIndexesSorted _ ih => exact ih.ensureIndexesSorted
  | fromMerge _ _ _ _ => exact indexed_of_positional _ rfl
  | selectiveMerge filter source _ _ _ _ => exact indexed_of_positional _ rfl

/-- The operations on a store in the write-active representation. -/
inductive IndexOp where
  | promote
  | insert (d : Datom)
  | replayEntry (order : IterOrder) (epoch : UInt64) (datoms : List Datom)
  | ensureIndexesSorted

/-- The store that an operation leaves, also when its schema evolution fails. -/
def indexStep (store : Store) : IndexOp → Store
  | .promote => store.promote
  | .insert d => store.insert d
  | .replayEntry order epoch datoms => (replayEntry order store epoch datoms).2
  | .ensureIndexesSorted => store.ensureIndexesSorted

/-- Every operation on the indexes keeps a store indexed. -/
theorem Indexed.indexStep {store : Store} (h : store.Indexed) (op : IndexOp) :
    (store.indexStep op).Indexed := by
  cases op with
  | promote => exact h.promote
  | insert d => exact h.insert d
  | replayEntry order epoch datoms => exact h.replayEntry order epoch datoms
  | ensureIndexesSorted => exact h.ensureIndexesSorted

/-- Every operation on the indexes keeps a store in ordered maps. -/
theorem IsOrdMap.indexStep {store : Store} (h : store.IsOrdMap) (op : IndexOp) :
    (store.indexStep op).IsOrdMap := by
  cases op with
  | promote => exact isOrdMap_promote store
  | insert d => exact (isOrdMap_promote store).insertOrdMap d
  | replayEntry order epoch datoms =>
      have hinserted : (datoms.foldl Store.insert store).IsOrdMap := by
        induction datoms generalizing store with
        | nil => exact h
        | cons d datoms ih => exact ih ((isOrdMap_promote store).insertOrdMap d)
      exact hinserted
  | ensureIndexesSorted =>
      obtain ⟨datoms, indexes, hrepr⟩ := h
      refine ⟨datoms, indexes.sortAll, ?_⟩
      simp only [Store.indexStep, Store.ensureIndexesSorted, hrepr]

/-- After any run of the operations and a final sort, each index is an ordered map over the primary
set. -/
theorem indexes_bijection {store : Store} (h : Reachable store) (hord : store.IsOrdMap)
    (ops : List IndexOp) :
    ∃ datoms indexes,
      (ops.foldl indexStep store).ensureIndexesSorted.repr = .ordMap datoms indexes ∧
        indexes.EnumerateOnce datoms ∧ indexes.verifyBijection = true := by
  have hrun : (ops.foldl indexStep store).Indexed ∧ (ops.foldl indexStep store).IsOrdMap := by
    have hindexed := h.indexed
    clear h
    induction ops generalizing store with
    | nil => exact ⟨hindexed, hord⟩
    | cons op ops ih => exact ih (hord.indexStep op) (hindexed.indexStep op)
  obtain ⟨hindexed, datoms, indexes, hrepr⟩ := hrun
  have honce := (hindexed datoms indexes hrepr).enumerateOnce_sortAll
  refine ⟨datoms, indexes.sortAll, ?_, honce, honce.verifyBijection⟩
  simp only [ensureIndexesSorted, hrepr]

end Runs

/-- A datom that is inserted twice is listed once. -/
theorem indexes_bijection_asserted :
    ∃ datoms indexes,
      ([.insert Sample.asserted, .ensureIndexesSorted, .insert Sample.asserted].foldl indexStep
        genesis.promote).ensureIndexesSorted.repr = .ordMap datoms indexes ∧
        indexes.EnumerateOnce datoms ∧ indexes.verifyBijection = true :=
  indexes_bijection (.promote .genesis) (isOrdMap_promote _) _

end Store

end Ferratomic
