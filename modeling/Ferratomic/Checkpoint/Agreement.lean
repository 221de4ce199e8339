import Ferratomic.Blake3
import Ferratomic.Bincode
import Ferratomic.Checkpoint.Format

/-!
# Agreement of the checkpoint formats

Every layout of a checkpoint reads back to one and the same store: the contiguous store over the
datoms of the original, with the LIVE positions of the scan. The reader refuses more datoms than
the position space of `u32` holds, so this is a theorem about stores within it, and
`checkpoint_over_limit` exhibits a store that no layout reads back.
-/

namespace Ferratomic

open Lib

namespace Store

section Reload

variable [Blake3]

/-- The contiguous store over the same datoms, schema, epoch and genesis node. -/
def reloaded (store : Store) : Store :=
  ofPositional (PositionalStore.fromSortedCanonical store.datoms store.repr.pairwise_datoms)
    store.schema store.epoch store.genesisNode []

/-- Loading the datoms of a store with dense bits that mark the scan's positions. -/
theorem fromCheckpointV3_datoms (store : Store) {bits : List Bool}
    (hlength : bits.length = store.datoms.length)
    (hones : (iterOnes bits).toFinset = buildLiveRoaring store.datoms)
    (hlen : store.datomSet.card ≤ u32Max) :
    fromCheckpointV3 store.epoch store.genesisNode store.schema.toList store.datoms bits =
      .ok store.reloaded := by
  rw [← length_datoms] at hlen
  have hload : PositionalStore.fromSortedWithLive store.datoms bits =
      .ok (PositionalStore.fromSortedCanonical store.datoms store.repr.pairwise_datoms) :=
    PositionalStore.fromSortedWithLive_eq store.repr.pairwise_datoms hlength hones hlen
  rw [fromCheckpointV3, hload, Schema.ofPairs_toList]
  rfl

/-- A reloaded store has the datoms of the store. -/
theorem datomSet_reloaded (store : Store) : store.reloaded.datomSet = store.datomSet :=
  store.toFinset_datoms

end Reload

section Agreement

variable [Blake3] [Bincode]

/-- Every layout of a store within the position space reads back to the reloaded store. -/
theorem storeFromCheckpointBytes_eq (hfaithful : Bincode.Faithful) {store : Store}
    (hexact : store.Exact) (hattrs : ShortAttrs store.datoms)
    (hlen : store.datomSet.card ≤ u32Max) (format : CheckpointFormat) :
    ∃ bytes, serializeCheckpointBytes format (extractCheckpointData store) = .ok bytes ∧
      storeFromCheckpointBytes bytes = .ok store.reloaded := by
  obtain ⟨bits, hbits, hlength, hones⟩ := iterOnes_liveBits hexact
  have hstore : storeFromCheckpointData (extractCheckpointData store) = .ok store.reloaded := by
    rw [storeFromCheckpointData, hbits]
    exact store.fromCheckpointV3_datoms hlength hones hlen
  cases format with
  | v3 =>
      obtain ⟨bytes, hserialize, hread⟩ := roundTrip_v3 hfaithful hbits hlength hattrs
      refine ⟨bytes, hserialize, ?_⟩
      rw [storeFromCheckpointBytes, hread]
      exact hstore
  | v4 =>
      obtain ⟨bytes, hserialize, hread⟩ := roundTrip_v4 hfaithful hbits hlength
      refine ⟨bytes, hserialize, ?_⟩
      rw [storeFromCheckpointBytes, hread]
      exact hstore
  | liveFirst =>
      obtain ⟨bytes, hserialize, hpartial, hdispatch⟩ :=
        roundTrip_liveFirstPartial hfaithful hbits hattrs
      refine ⟨bytes, hserialize, ?_⟩
      -- the bits are recomputed from the merged array, which is the original one
      have hmerged : mergeSortDedup (partitionLive store.datoms bits).1
          (partitionLive store.datoms bits).2 = store.datoms :=
        mergeSortDedup_partitionLive store.repr.pairwise_datoms bits
      rw [storeFromCheckpointBytes, hdispatch, deserializeV3LiveFirstFull, hpartial]
      simp only [bind, Except.bind]
      show storeFromCheckpointData ⟨store.epoch, store.genesisNode, store.schema.toList,
        mergeSortDedup (partitionLive store.datoms bits).1 (partitionLive store.datoms bits).2,
        some (buildLiveBitvectorPub (mergeSortDedup (partitionLive store.datoms bits).1
          (partitionLive store.datoms bits).2))⟩ = _
      rw [hmerged]
      exact store.fromCheckpointV3_datoms (length_bitsOfPositions _ _)
        (toFinset_iterOnes_bitsOfPositions rfl) hlen

/-- Loading the historical part of LIVE-first bytes gives the reloaded store. -/
theorem loadHistorical_eq (hfaithful : Bincode.Faithful) {store : Store} (hexact : store.Exact)
    (hattrs : ShortAttrs store.datoms) (hlen : store.datomSet.card ≤ u32Max) {bytes : Bytes}
    (hserialize : serializeCheckpointBytes .liveFirst (extractCheckpointData store) =
      .ok bytes) :
    ∃ partialStore, deserializeLiveFirstPartial bytes = .ok partialStore ∧
      partialStore.loadHistorical = .ok store.reloaded := by
  obtain ⟨bits, hbits, hlength, hones⟩ := iterOnes_liveBits hexact
  obtain ⟨bytes', hserialize', hpartial, -⟩ := roundTrip_liveFirstPartial hfaithful hbits hattrs
  obtain rfl : bytes' = bytes := by
    rw [hserialize'] at hserialize
    exact Except.ok.inj hserialize
  obtain ⟨hsub, -⟩ := sublist_partitionLive store.datoms bits
  have hsublen : (partitionLive store.datoms bits).1.length ≤ u32Max := by
    rw [← length_datoms] at hlen
    exact hsub.length_le.trans hlen
  obtain ⟨ps, hps, hcanonical⟩ := PositionalStore.exists_fromSortedWithLive
    (store.repr.pairwise_datoms.sublist hsub) List.length_replicate hsublen
  have hmerged : mergeSortDedup ps.canonical (partitionLive store.datoms bits).2 =
      store.datoms := by
    rw [hcanonical]
    exact mergeSortDedup_partitionLive store.repr.pairwise_datoms bits
  refine ⟨⟨ofPositional ps (Schema.ofPairs store.schema.toList) store.epoch store.genesisNode [],
    (partitionLive store.datoms bits).2, store.schema.toList⟩, ?_, ?_⟩
  · have hlive : fromCheckpointV3 store.epoch store.genesisNode store.schema.toList
        (partitionLive store.datoms bits).1
        (List.replicate (partitionLive store.datoms bits).1.length true) =
        .ok (ofPositional ps (Schema.ofPairs store.schema.toList) store.epoch store.genesisNode
          []) := by
      rw [fromCheckpointV3, hps]
      rfl
    rw [deserializeLiveFirstPartial, hpartial]
    exact congrArg (Except.map fun loaded => (⟨loaded, (partitionLive store.datoms bits).2,
      store.schema.toList⟩ : PartialStore)) hlive
  · show fromCheckpointV3 store.epoch store.genesisNode store.schema.toList
      (mergeSortDedup ps.canonical (partitionLive store.datoms bits).2)
      (buildLiveBitvectorPub (mergeSortDedup ps.canonical (partitionLive store.datoms bits).2)) =
        _
    rw [hmerged]
    exact store.fromCheckpointV3_datoms (length_bitsOfPositions _ _)
      (toFinset_iterOnes_bitsOfPositions rfl) hlen

/-- Every layout of a reachable store within the position space reads back to one store, with
the datoms, epoch, genesis node and schema of the original and the LIVE positions of the scan;
and loading the historical part of the LIVE-first layout is the same as reading it whole. -/
theorem checkpoint_formats_agree (hfaithful : Bincode.Faithful) {store : Store}
    (hreachable : Reachable store) (hattrs : ShortAttrs store.datoms)
    (hlen : store.datomSet.card ≤ u32Max) :
    ∃ loaded ps,
      (∀ format, ∃ bytes,
        serializeCheckpointBytes format (extractCheckpointData store) = .ok bytes ∧
          storeFromCheckpointBytes bytes = .ok loaded) ∧
      loaded.datomSet = store.datomSet ∧ loaded.epoch = store.epoch ∧
      loaded.genesisNode = store.genesisNode ∧ loaded.schema = store.schema ∧
      loaded.repr = .positional ps ∧ ps.liveBits = (livePositionsKernel ps.canonical).toFinset ∧
      ∀ bytes, serializeCheckpointBytes .liveFirst (extractCheckpointData store) = .ok bytes →
        ∃ partialStore, deserializeLiveFirstPartial bytes = .ok partialStore ∧
          partialStore.loadHistorical = storeFromCheckpointBytes bytes := by
  have hexact := hreachable.exact
  have hread := storeFromCheckpointBytes_eq hfaithful hexact hattrs hlen
  refine ⟨store.reloaded, _, hread, store.datomSet_reloaded, rfl, rfl, rfl, rfl, rfl, ?_⟩
  intro bytes hserialize
  obtain ⟨partialStore, hpartial, hload⟩ := loadHistorical_eq hfaithful hexact hattrs hlen
    hserialize
  obtain ⟨bytes', hserialize', hstore⟩ := hread .liveFirst
  rw [hserialize'] at hserialize
  cases hserialize
  exact ⟨partialStore, hpartial, hload.trans hstore.symm⟩

end Agreement

section Limit

/-- A store beyond the position space is refused, whatever its bits. -/
theorem fromCheckpointV3_over [Blake3] (store : Store) {bits : List Bool}
    (hlength : bits.length = store.datoms.length) (hlen : u32Max < store.datomSet.card) :
    fromCheckpointV3 store.epoch store.genesisNode store.schema.toList store.datoms bits =
      .error (.invariantViolation "INV-FERR-076"
        "canonical array exceeds u32 position space") := by
  rw [← length_datoms] at hlen
  rw [fromCheckpointV3, datoms, PositionalStore.fromSortedWithLive_over
    store.repr.pairwise_datoms hlength hlen]
  rfl

/-- A checkpoint of more than 2^32 - 1 datoms is written but refused when it is loaded. -/
theorem storeFromCheckpointBytes_over [Blake3] [Bincode] (hfaithful : Bincode.Faithful)
    {store : Store} (hexact : store.Exact) (hattrs : ShortAttrs store.datoms)
    (hlen : u32Max < store.datomSet.card) :
    ∃ bytes, serializeCheckpointBytes .v3 (extractCheckpointData store) = .ok bytes ∧
      storeFromCheckpointBytes bytes = .error (.invariantViolation "INV-FERR-076"
        "canonical array exceeds u32 position space") := by
  obtain ⟨bits, hbits, hlength, -⟩ := iterOnes_liveBits hexact
  obtain ⟨bytes, hserialize, hread⟩ := roundTrip_v3 hfaithful hbits hlength hattrs
  refine ⟨bytes, hserialize, ?_⟩
  rw [storeFromCheckpointBytes, hread]
  simp only [bind, Except.bind, storeFromCheckpointData, hbits]
  exact store.fromCheckpointV3_over hlength hlen

end Limit

end Store

namespace Sample

/-- A fact that is asserted by a transaction of its own for every number. -/
def numbered (number : Nat) : Datom :=
  ⟨EntityId.fromContent [1], "db/doc", .string "x", ⟨UInt64.ofNat number, 0, NodeId.zero⟩,
    .assert⟩

/-- The first facts. -/
def numberedUpTo (count : Nat) : Finset Datom :=
  (Finset.range count).image numbered

/-- There are as many sample datoms as counted. -/
theorem card_numberedUpTo {count : Nat} (h : count ≤ 2 ^ 64) :
    (numberedUpTo count).card = count := by
  rw [numberedUpTo, Finset.card_image_of_injOn, Finset.card_range]
  intro a ha b hb hab
  simp only [Finset.coe_range, Set.mem_Iio] at ha hb
  simp only [numbered, Datom.mk.injEq, TxId.mk.injEq, true_and, and_true] at hab
  have hnat := congrArg UInt64.toNat hab
  rwa [UInt64.toNat_ofNat', UInt64.toNat_ofNat', Nat.mod_eq_of_lt (by omega),
    Nat.mod_eq_of_lt (by omega)] at hnat

/-- The sample store has short attributes. -/
theorem shortAttrs_numberedUpTo (count : Nat) :
    ShortAttrs (Store.fromDatoms (numberedUpTo count)).datoms := by
  intro d hd
  rw [← List.mem_toFinset, Store.toFinset_datoms, Store.datomSet_fromDatoms, numberedUpTo,
    Finset.mem_image] at hd
  obtain ⟨number, -, rfl⟩ := hd
  show (utf8Bytes "db/doc").length ≤ maxAttributeBytes
  decide +kernel

end Sample

open Sample

namespace Store

/-- The layouts of a store with three facts agree. -/
theorem checkpoint_formats_agree_numbered :
    ∃ loaded, (∀ format, ∃ bytes,
      serializeCheckpointBytes format (extractCheckpointData (fromDatoms (numberedUpTo 3))) =
          .ok bytes ∧
        storeFromCheckpointBytes bytes = .ok loaded) ∧
      loaded.datomSet = numberedUpTo 3 := by
  obtain ⟨loaded, ps, hread, hset, -⟩ := checkpoint_formats_agree Bincode.faithful_reference
    (.fromDatoms (numberedUpTo 3)) (shortAttrs_numberedUpTo 3) (by
      rw [datomSet_fromDatoms, card_numberedUpTo (by decide)]
      decide)
  exact ⟨loaded, hread, by rw [hset, datomSet_fromDatoms]⟩

/-- A store with one datom more than the position space holds is written and not read back. -/
theorem checkpoint_over_limit :
    Reachable (fromDatoms (numberedUpTo (2 ^ 32))) ∧
      ShortAttrs (fromDatoms (numberedUpTo (2 ^ 32))).datoms ∧
      ∃ bytes,
        serializeCheckpointBytes .v3 (extractCheckpointData (fromDatoms (numberedUpTo (2 ^ 32))))
          = .ok bytes ∧
        storeFromCheckpointBytes bytes = .error (.invariantViolation "INV-FERR-076"
          "canonical array exceeds u32 position space") := by
  have hreachable : Reachable (fromDatoms (numberedUpTo (2 ^ 32))) := .fromDatoms _
  have hattrs := shortAttrs_numberedUpTo (2 ^ 32)
  have hcard : u32Max < (fromDatoms (numberedUpTo (2 ^ 32))).datomSet.card := by
    rw [datomSet_fromDatoms, card_numberedUpTo (by decide), u32Max]
    decide
  exact ⟨hreachable, hattrs,
    storeFromCheckpointBytes_over Bincode.faithful_reference hreachable.exact hattrs hcard⟩

end Store

end Ferratomic
