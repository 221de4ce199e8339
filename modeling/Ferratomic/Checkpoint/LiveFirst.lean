import Ferratomic.Checkpoint.Agreement
import Ferratomic.Store.LiveState

/-!
# LIVE-first checkpoints

A LIVE-first checkpoint stores the datoms at the LIVE positions in front of the others, so that a
reader can answer queries about the current state before it loads the history. `live_first_iff`
says when the store over the LIVE part answers them like the whole store: the part is chosen by
position, where a transaction that both asserts and retracts a fact counts as a retraction, and the
whole store rebuilds its causal map, where it counts as an assertion.
-/

namespace Ferratomic

open Lib Datom

section Partition

/-- The LIVE part holds the datoms whose bit is set. -/
theorem mem_partitionLive {datoms : List Datom} {bits : List Bool} {d : Datom} :
    d ∈ (partitionLive datoms bits).1 ↔ ∃ i ∈ iterOnes bits, datoms[i]? = some d := by
  have hbit (i : Nat) : i ∈ iterOnes bits ↔ bits[i]? = some true := by
    rw [iterOnes, List.mem_filter, List.mem_range, decide_eq_true_eq]
    refine and_iff_right_of_imp fun h => ?_
    exact (List.getElem?_eq_some_iff.mp h).1
  rw [partitionLive_eq]
  simp only [List.mem_map, List.mem_filter, decide_eq_true_eq, Prod.exists,
    List.mem_zipIdx_iff_getElem?, hbit]
  constructor
  · rintro ⟨_, i, ⟨hget, hset⟩, rfl⟩
    exact ⟨i, hset, hget⟩
  · rintro ⟨i, hset, hget⟩
    exact ⟨d, i, ⟨hget, hset⟩, rfl⟩

/-- The LIVE part of an ascending array holds the assertions that are last in their triple. -/
theorem mem_partitionLive_iff {datoms : List Datom} (hsorted : datoms.Pairwise (· < ·))
    (hbound : datoms.length ≤ u32Max + 1) {bits : List Bool}
    (hones : (iterOnes bits).toFinset = buildLiveRoaring datoms) {key : LiveKey} {value : Value}
    {tx : TxId} {op : Op} :
    factOf key value tx op ∈ (partitionLive datoms bits).1 ↔
      op = .assert ∧ AssertsLast datoms.toFinset key value tx := by
  have hmem (i : Nat) : i ∈ iterOnes bits ↔ i ∈ buildLiveRoaring datoms := by
    rw [← hones, List.mem_toFinset]
  simp only [mem_partitionLive, hmem, live_position_iff hsorted hbound, assertsLast_iff,
    List.mem_toFinset]
  constructor
  · rintro ⟨i, ⟨d, hd, hop, hmax⟩, hi⟩
    rw [hd] at hi
    cases hi
    obtain rfl : op = .assert := hop
    exact ⟨rfl, List.mem_of_getElem? hd, hmax⟩
  · rintro ⟨rfl, hmem, hmax⟩
    obtain ⟨i, hi⟩ := List.mem_iff_getElem?.mp hmem
    exact ⟨i, ⟨_, hi, rfl, hmax⟩, hi⟩

/-- The causal map over the LIVE part records exactly the assertions that are last in their
triple. -/
theorem get₂_partitionLive {datoms : List Datom} (hsorted : datoms.Pairwise (· < ·))
    (hbound : datoms.length ≤ u32Max + 1) {bits : List Bool}
    (hones : (iterOnes bits).toFinset = buildLiveRoaring datoms) {key : LiveKey} {value : Value}
    {tx : TxId} :
    OrdMap.get₂ (buildLiveCausal (partitionLive datoms bits).1) key value =
        some (toLex (tx, .assert)) ↔ AssertsLast datoms.toFinset key value tx := by
  have hcausal := causalOf_buildLiveCausal (partitionLive datoms bits).1
  constructor
  · intro hget
    have hfact := (hcausal.event_spec hget).1
    rw [List.mem_toFinset, mem_partitionLive_iff hsorted hbound hones] at hfact
    exact hfact.2
  · intro hlast
    have hfact := (mem_partitionLive_iff hsorted hbound hones).mpr ⟨rfl, hlast⟩
    have hlatest : Latest (partitionLive datoms bits).1.toFinset key value tx := by
      intro d hd
      refine hlast.2.1 d (List.mem_toFinset.mpr ?_)
      exact (sublist_partitionLive datoms bits).1.subset (List.mem_toFinset.mp hd)
    obtain ⟨op, hget⟩ := hcausal.event_of_latest (List.mem_toFinset.mpr hfact) hlatest
    have hop := (hcausal.event_spec hget).1
    rw [List.mem_toFinset, mem_partitionLive_iff hsorted hbound hones] at hop
    rw [hget, show op = .assert from hop.1]

end Partition

namespace Store

section Queries

variable [Blake3]

/-- Stores with the same recorded assertions answer queries about the current state alike. -/
theorem queries_eq_of_assertions {a b : Store} (ha : a.obs.Valid) (hb : b.obs.Valid)
    (h : ∀ key value tx, OrdMap.get₂ a.liveCausal key value = some (toLex (tx, .assert)) ↔
      OrdMap.get₂ b.liveCausal key value = some (toLex (tx, .assert)))
    (entity : EntityId) (attr : Attribute) :
    a.liveValues entity attr = b.liveValues entity attr ∧
      a.liveResolve entity attr = b.liveResolve entity attr := by
  have hlive : liveAt a.liveCausal (toLex (entity, attr)) =
      liveAt b.liveCausal (toLex (entity, attr)) := by
    ext value
    rw [mem_liveAt_iff, mem_liveAt_iff]
    exact exists_congr fun tx => h _ value tx
  have hseta : a.liveSet = deriveLiveSet a.liveCausal := ha.live
  have hsetb : b.liveSet = deriveLiveSet b.liveCausal := hb.live
  constructor
  · rw [liveValues, liveValues, hseta, hsetb, getElem?_deriveLiveSet, getElem?_deriveLiveSet, hlive]
  · refine Option.ext fun value => ?_
    rw [liveResolve_eq_some, liveResolve_eq_some]
    simp only [IsLatestAssertion, h]

end Queries

section Bytes

variable [Blake3] [Bincode]

/-- What the two readers make of the LIVE-first bytes of a store. -/
theorem liveFirst_ok (hfaithful : Bincode.Faithful) {store : Store} (hexact : store.Exact)
    (hattrs : ShortAttrs store.datoms) {bytes : Bytes} {partialStore : PartialStore}
    {full : Store}
    (hserialize : serializeCheckpointBytes .liveFirst (extractCheckpointData store) = .ok bytes)
    (hfirst : deserializeLiveFirstPartial bytes = .ok partialStore)
    (hfull : storeFromCheckpointBytes bytes = .ok full) :
    ∃ bits, (iterOnes bits).toFinset = buildLiveRoaring store.datoms ∧
      store.datoms.length ≤ u32Max ∧
      partialStore.store.liveCausal = buildLiveCausal (partitionLive store.datoms bits).1 ∧
      partialStore.store.obs.Valid ∧
      full.liveCausal = buildLiveCausal store.datoms ∧ full.obs.Valid := by
  obtain ⟨bits, hbits, hlength, hones⟩ := iterOnes_liveBits hexact
  obtain ⟨bytes', hserialize', hread, hdispatch⟩ :=
    roundTrip_liveFirstPartial hfaithful hbits hattrs
  obtain rfl : bytes' = bytes := by
    rw [hserialize'] at hserialize
    exact Except.ok.inj hserialize
  have hmerged : mergeSortDedup (partitionLive store.datoms bits).1
      (partitionLive store.datoms bits).2 = store.datoms :=
    mergeSortDedup_partitionLive store.repr.pairwise_datoms bits
  -- the whole store is that of the merged array, which is the original one
  have hload : fromCheckpointV3 store.epoch store.genesisNode store.schema.toList store.datoms
      (buildLiveBitvectorPub store.datoms) = .ok full := by
    rw [storeFromCheckpointBytes, hdispatch, deserializeV3LiveFirstFull, hread] at hfull
    simp only [bind, Except.bind] at hfull
    rw [← hfull]
    show _ = storeFromCheckpointData ⟨store.epoch, store.genesisNode, store.schema.toList,
      mergeSortDedup (partitionLive store.datoms bits).1 (partitionLive store.datoms bits).2,
      some (buildLiveBitvectorPub (mergeSortDedup (partitionLive store.datoms bits).1
        (partitionLive store.datoms bits).2))⟩
    rw [hmerged]
    rfl
  have hcard : store.datoms.length ≤ u32Max := by
    by_contra hover
    rw [length_datoms] at hover
    have hrefused := store.fromCheckpointV3_over
      (length_bitsOfPositions _ (livePositionsKernel store.datoms)) (Nat.lt_of_not_le hover)
    rw [buildLiveBitvectorPub, hrefused] at hload
    cases hload
  obtain ⟨ps, rfl, hcanonical, -⟩ := fromCheckpointV3_ok hload
  have hlive : fromCheckpointV3 store.epoch store.genesisNode store.schema.toList
      (partitionLive store.datoms bits).1
      (List.replicate (partitionLive store.datoms bits).1.length true) =
        .ok partialStore.store := by
    rw [deserializeLiveFirstPartial, hread] at hfirst
    simp only [bind, Except.bind] at hfirst
    split at hfirst
    · cases hfirst
    next loaded hloaded =>
      cases hfirst
      exact hloaded
  obtain ⟨ps', hstore, hcanonical', -⟩ := fromCheckpointV3_ok hlive
  rw [hstore]
  refine ⟨bits, hones, hcard, ?_, valid_ofPositional _ _ _ _ _, ?_, valid_ofPositional _ _ _ _ _⟩
  · rw [← hcanonical']
    rfl
  · rw [← hcanonical]
    rfl

/-- The two stores that are read from LIVE-first bytes, by the triples they show as LIVE. -/
theorem liveFirst_causal (hfaithful : Bincode.Faithful) {store : Store} (hexact : store.Exact)
    (hattrs : ShortAttrs store.datoms) {bytes : Bytes} {partialStore : PartialStore}
    {full : Store}
    (hserialize : serializeCheckpointBytes .liveFirst (extractCheckpointData store) = .ok bytes)
    (hfirst : deserializeLiveFirstPartial bytes = .ok partialStore)
    (hfull : storeFromCheckpointBytes bytes = .ok full) :
    partialStore.store.obs.Valid ∧ full.obs.Valid ∧
      (∀ key value tx,
        OrdMap.get₂ partialStore.store.liveCausal key value = some (toLex (tx, .assert)) ↔
          AssertsLast store.datomSet key value tx) ∧
      full.liveCausal = buildOf store.datomSet := by
  obtain ⟨bits, hones, hcard, hcausal, hvalid, hcausal', hvalid'⟩ :=
    liveFirst_ok hfaithful hexact hattrs hserialize hfirst hfull
  have hsorted := store.repr.pairwise_datoms
  refine ⟨hvalid, hvalid', fun key value tx => ?_, ?_⟩
  · rw [hcausal, ← store.toFinset_datoms]
    exact get₂_partitionLive hsorted (Nat.le_succ_of_le hcard) hones
  · rw [hcausal', buildOf, ← store.toFinset_datoms]
    exact congrArg buildLiveCausal (eq_sort_toFinset hsorted)

omit [Bincode] in
/-- The rebuilt map takes the assertion of a tie, and no LIVE datom has the triple. -/
theorem liveFirst_tied {store partialStore full : Store} (hvalid : partialStore.obs.Valid)
    (hvalid' : full.obs.Valid)
    (hlast : ∀ key value tx,
      OrdMap.get₂ partialStore.liveCausal key value = some (toLex (tx, .assert)) ↔
        AssertsLast store.datomSet key value tx)
    (hcausal : full.liveCausal = buildOf store.datomSet) {key : LiveKey} {value : Value}
    (htied : LatestTied store.datomSet key value) :
    partialStore.liveValues (ofLex key).1 (ofLex key).2 ≠
      full.liveValues (ofLex key).1 (ofLex key).2 := by
  intro hsame
  obtain ⟨tx, hlatest, hassert, -⟩ := id htied
  have hget : OrdMap.get₂ full.liveCausal (toLex ((ofLex key).1, (ofLex key).2)) value =
      some (toLex (tx, .assert)) := by
    rw [hcausal]
    exact buildOf_of_assert hassert hlatest
  have hvalue := (mem_liveValues hvalid').mpr ⟨tx, hget⟩
  rw [← hsame, mem_liveValues hvalid] at hvalue
  obtain ⟨tx', hget'⟩ := hvalue
  exact htied.not_assertsLast tx' ((hlast key value tx').mp hget')

/-- The store over the LIVE part of a checkpoint answers queries about the current state like the
whole store exactly when no latest transaction both asserts and retracts a triple. -/
theorem live_first_iff (hfaithful : Bincode.Faithful) {store : Store} (hreach : Reachable store)
    (hattrs : ShortAttrs store.datoms) {bytes : Bytes} {partialStore : PartialStore}
    {full : Store}
    (hserialize : serializeCheckpointBytes .liveFirst (extractCheckpointData store) = .ok bytes)
    (hfirst : deserializeLiveFirstPartial bytes = .ok partialStore)
    (hfull : storeFromCheckpointBytes bytes = .ok full) :
    (∀ entity attr,
      partialStore.store.liveValues entity attr = full.liveValues entity attr ∧
        partialStore.store.liveResolve entity attr = full.liveResolve entity attr) ↔
      ∀ key value, ¬ LatestTied store.datomSet key value := by
  obtain ⟨hvalid, hvalid', hlast, hcausal⟩ :=
    liveFirst_causal hfaithful hreach.exact hattrs hserialize hfirst hfull
  constructor
  · intro hsame key value htied
    exact liveFirst_tied hvalid hvalid' hlast hcausal htied (hsame _ _).1
  · intro htied
    refine queries_eq_of_assertions hvalid hvalid' fun key value tx => ?_
    rw [hlast, hcausal, (causalOf_buildOf store.datomSet).assertsLast (htied key value)]

end Bytes

open Sample

/-- A store of documentation datoms has short attributes. -/
theorem shortAttrs_fromDatoms {datoms : Finset Datom} (h : ∀ d ∈ datoms, d.attr = "db/doc") :
    ShortAttrs (fromDatoms datoms).datoms := by
  intro d hd
  rw [← List.mem_toFinset, toFinset_datoms, datomSet_fromDatoms] at hd
  have hlength : (utf8Bytes "db/doc").length ≤ maxAttributeBytes := by decide +kernel
  rw [h d hd]
  exact hlength

/-- The bytes of a small store are written and read by both readers. -/
theorem exists_liveFirst {datoms : Finset Datom} (h : ∀ d ∈ datoms, d.attr = "db/doc")
    (hcard : datoms.card ≤ u32Max) :
    ∃ bytes partialStore full,
      serializeCheckpointBytes .liveFirst (extractCheckpointData (fromDatoms datoms)) = .ok bytes ∧
        deserializeLiveFirstPartial bytes = .ok partialStore ∧
        storeFromCheckpointBytes bytes = .ok full := by
  have hreach : Reachable (fromDatoms datoms) := .fromDatoms datoms
  have hcard' : (fromDatoms datoms).datomSet.card ≤ u32Max := by rwa [datomSet_fromDatoms]
  have hattrs := shortAttrs_fromDatoms h
  obtain ⟨bytes, hserialize, hfull⟩ := storeFromCheckpointBytes_eq Bincode.faithful_reference
    hreach.exact hattrs hcard' .liveFirst
  obtain ⟨partialStore, hlive, -⟩ := loadHistorical_eq Bincode.faithful_reference hreach.exact
    hattrs hcard' hserialize
  exact ⟨bytes, partialStore, _, hserialize, hlive, hfull⟩

/-- The LIVE part of a checkpoint with texts that are retracted and asserted again. -/
theorem live_first_revised :
    ∃ bytes partialStore full,
      serializeCheckpointBytes .liveFirst (extractCheckpointData (fromDatoms revised)) =
          .ok bytes ∧
        deserializeLiveFirstPartial bytes = .ok partialStore ∧
        storeFromCheckpointBytes bytes = .ok full ∧
        ∀ entity attr,
          partialStore.store.liveValues entity attr = full.liveValues entity attr ∧
            partialStore.store.liveResolve entity attr = full.liveResolve entity attr := by
  have hattr : ∀ d ∈ revised, d.attr = "db/doc" := by decide +kernel
  obtain ⟨bytes, partialStore, full, hserialize, hlive, hfull⟩ :=
    exists_liveFirst hattr (Finset.card_le_five.trans (by decide))
  refine ⟨bytes, partialStore, full, hserialize, hlive, hfull, ?_⟩
  refine (live_first_iff Bincode.faithful_reference (.fromDatoms revised)
    (shortAttrs_fromDatoms hattr) hserialize hlive hfull).mpr ?_
  rw [datomSet_fromDatoms]
  exact not_tied_of_op op_revised

/-- A transaction that asserts and retracts one fact: the whole store shows it, the LIVE part does
not. -/
theorem live_first_counterexample :
    Reachable (fromDatoms {asserted, retracted}) ∧
      ∃ bytes partialStore full,
        serializeCheckpointBytes .liveFirst
            (extractCheckpointData (fromDatoms {asserted, retracted})) = .ok bytes ∧
          deserializeLiveFirstPartial bytes = .ok partialStore ∧
          storeFromCheckpointBytes bytes = .ok full ∧
          partialStore.store.liveValues (ofLex asserted.liveKey).1 (ofLex asserted.liveKey).2 ≠
            full.liveValues (ofLex asserted.liveKey).1 (ofLex asserted.liveKey).2 := by
  have hattr : ∀ d ∈ ({asserted, retracted} : Finset Datom), d.attr = "db/doc" := by
    intro d hd
    rcases Finset.mem_insert.mp hd with rfl | hd
    · rfl
    · rw [Finset.mem_singleton.mp hd]
      rfl
  have hreach : Reachable (fromDatoms {asserted, retracted}) := .fromDatoms _
  obtain ⟨bytes, partialStore, full, hserialize, hlive, hfull⟩ :=
    exists_liveFirst hattr (Finset.card_le_two.trans (by decide))
  obtain ⟨hvalid, hvalid', hlast, hcausal⟩ := liveFirst_causal Bincode.faithful_reference
    hreach.exact (shortAttrs_fromDatoms hattr) hserialize hlive hfull
  have htied : LatestTied (fromDatoms {asserted, retracted}).datomSet asserted.liveKey
      (.string "x") := by
    rw [datomSet_fromDatoms]
    exact tied_retracted
  exact ⟨hreach, bytes, partialStore, full, hserialize, hlive, hfull,
    liveFirst_tied hvalid hvalid' hlast hcausal htied⟩

end Store

end Ferratomic
