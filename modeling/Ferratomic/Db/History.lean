import Ferratomic.Db.ColdStart
import Ferratomic.Db.Crash
import Ferratomic.Db.Equivalence

/-!
# Stores that carry a history

A store carries a history of receipts if it is what the history makes of an empty store. Commits
extend the history, a checkpoint that can be loaded keeps it, and replaying the entries behind a
checkpoint completes it. The main theorem, `coldStart_carries`, says that a cold start on the log of
a history and a checkpoint of an early part of it gives a store that carries the whole history.
-/

namespace Ferratomic

open Lib

section Histories

/-- Chains of receipts compose, and a chain of a composed list is one of each part. -/
theorem Stamps.of_append {epoch epoch' : UInt64} {schema schema' : Schema}
    {left right : List TxReceipt} (h : Stamps epoch schema (left ++ right) epoch' schema') :
    ∃ middle schema'', Stamps epoch schema left middle schema'' ∧
      Stamps middle schema'' right epoch' schema' := by
  induction left generalizing epoch schema with
  | nil => exact ⟨epoch, schema, .nil _ _, h⟩
  | cons receipt left ih =>
      cases h with
      | cons order hchecked hevolve hrest =>
          obtain ⟨middle, schema'', hleft, hright⟩ := ih hrest
          exact ⟨middle, schema'', .cons order hchecked hevolve hleft, hright⟩

/-- Chains of the same receipts end at the same epoch, whatever the schemas. -/
theorem Stamps.epoch_unique {epoch last last' : UInt64} {schema schema' next next' : Schema}
    {receipts : List TxReceipt} (h : Stamps epoch schema receipts last next)
    (hother : Stamps epoch schema' receipts last' next') : last = last' := by
  induction h generalizing schema' with
  | nil =>
      cases hother
      rfl
  | cons order hchecked hevolve _ ih =>
      cases hother with
      | cons order' hchecked' hevolve' hrest => exact ih hrest

variable [Blake3]

/-- A store is what a history of receipts makes of an empty one; only its LIVE maps may be those of
a scan over its datoms. -/
structure Carries (history : List TxReceipt) (store : Store) : Prop where
  stamps : Stamps Store.genesis.epoch Store.genesis.schema history store.epoch store.schema
  datoms : ∀ d, d ∈ store.datomSet ↔ ∃ receipt ∈ history, d ∈ receipt.datoms
  genesisNode : store.genesisNode = Store.genesis.genesisNode
  reachable : store.Reachable

/-- The genesis store carries the empty history. -/
theorem carries_genesis : Carries [] Store.genesis where
  stamps := .nil _ _
  datoms d := by
    rw [Store.datomSet_genesis]
    exact ⟨fun h => absurd h (Finset.notMem_empty d),
      fun ⟨_, hmem, _⟩ => absurd hmem List.not_mem_nil⟩
  genesisNode := rfl
  reachable := .genesis

/-- What is committed on a store that carries a history. -/
theorem Carries.commits {history receipts : List TxReceipt} {store next : Store}
    (h : Carries history store) (hcommits : Commits store.obs receipts next.obs)
    (hreachable : next.Reachable) : Carries (history ++ receipts) next := by
  have hmem (d : Datom) := hcommits.mem_datomSet (d := d)
  obtain ⟨epoch, schema, hstamps, hobs⟩ := hcommits
  have hepoch : next.epoch = epoch := congrArg Observation.epoch hobs
  have hschema : next.schema = schema := congrArg Observation.schema hobs
  have hnode : next.genesisNode = store.genesisNode := by
    rw [Observation.commit, Observation.addDatoms_eq] at hobs
    exact congrArg Observation.genesisNode hobs
  refine ⟨?_, fun d => ?_, hnode.trans h.genesisNode, hreachable⟩
  · rw [hepoch, hschema]
    exact h.stamps.append hstamps
  · show d ∈ next.obs.datomSet ↔ _
    rw [hmem d]
    show d ∈ store.datomSet ∨ _ ↔ _
    simp only [h.datoms d, List.mem_append, or_and_right, exists_or]

/-- A store has short attributes when its history has. -/
theorem Carries.shortAttrs {history : List TxReceipt} {store : Store} (h : Carries history store)
    (hattrs : ∀ receipt ∈ history, ShortAttrs receipt.datoms) : ShortAttrs store.datoms := by
  intro d hd
  rw [← List.mem_toFinset, Store.toFinset_datoms, h.datoms d] at hd
  obtain ⟨receipt, hreceipt, hd⟩ := hd
  exact hattrs receipt hreceipt d hd

variable [Bincode]

/-- A checkpoint that can be loaded gives back a store that carries the same history. -/
theorem Carries.load (hfaithful : Bincode.Faithful) {history : List TxReceipt}
    {store loaded : Store}
    (h : Carries history store) (hattrs : ∀ receipt ∈ history, ShortAttrs receipt.datoms)
    {bytes : Bytes}
    (hserialize : serializeCheckpointBytes .v3 (extractCheckpointData store) = .ok bytes)
    (hload : storeFromCheckpointBytes bytes = .ok loaded) : Carries history loaded := by
  have hexact := h.reachable.exact
  have hshort := h.shortAttrs hattrs
  by_cases hlen : store.datomSet.card ≤ u32Max
  · obtain ⟨bytes', hserialize', hread⟩ :=
      Store.storeFromCheckpointBytes_eq hfaithful hexact hshort hlen .v3
    rw [hserialize] at hserialize'
    cases hserialize'
    rw [hload] at hread
    cases hread
    refine ⟨h.stamps, fun d => ?_, h.genesisNode, .reload h.reachable ?_⟩
    · rw [store.datomSet_reloaded]
      exact h.datoms d
    · obtain ⟨bits, hbits, hlength, hones⟩ := Store.iterOnes_liveBits hexact
      rw [storeFromCheckpointData, hbits]
      exact store.fromCheckpointV3_datoms hlength hones hlen
  · obtain ⟨bytes', hserialize', hread⟩ :=
      Store.storeFromCheckpointBytes_over hfaithful hexact hshort (Nat.lt_of_not_le hlen)
    rw [hserialize] at hserialize'
    cases hserialize'
    rw [hload] at hread
    cases hread

/-- A replay of a log leads from a reachable store to one. -/
theorem Database.reachable_replayWal {orders : Nat → IterOrder} {index : Nat}
    {store replayed : Store} {entries : List WalEntry} (hstore : store.Reachable)
    (h : replayWal orders index store entries = .ok replayed) : replayed.Reachable := by
  induction entries generalizing index store with
  | nil =>
      cases h
      exact hstore
  | cons entry rest ih =>
      rw [replayWal] at h
      split at h
      · cases h
      · rename_i wireDatoms _
        have hnext := hstore.replayEntry (orders index) entry.epoch
          (wireDatoms.map WireDatom.intoTrusted)
        split at h
        · cases h
        · rename_i next hreplay
          rw [hreplay] at hnext
          exact ih hnext h

/-- Replaying the later part of a history on a store that carries the earlier one. -/
theorem Carries.replay (hfaithful : Bincode.Faithful) {early later : List TxReceipt} {store : Store}
    (h : Carries early store) {schema schema' : Schema} {epoch : UInt64}
    (hstamps : Stamps store.epoch schema later epoch schema')
    (hattrs : ∀ receipt ∈ later, ShortAttrs receipt.datoms) {entries : List WalEntry}
    (hlogs : List.Forall₂ Database.Logs later entries) (orders : Nat → IterOrder) :
    ∃ replayed, Database.replayWal orders 0 store entries = .ok replayed ∧
      Carries (early ++ later) replayed := by
  obtain ⟨replayed, hreplay, hcommits⟩ :=
    Database.replayWal_commits hfaithful hstamps hattrs hlogs orders 0 store rfl
  exact ⟨replayed, hreplay,
    h.commits hcommits (Database.reachable_replayWal h.reachable hreplay)⟩

/-- The entries behind a checkpoint are those of the later part of the history. -/
theorem Carries.filter_entries {early later : List TxReceipt} {store : Store}
    (h : Carries early store) {epoch : UInt64} {schema : Schema}
    (hstamps : Stamps Store.genesis.epoch Store.genesis.schema (early ++ later) epoch schema)
    {entries : List WalEntry} (hlogs : List.Forall₂ Database.Logs (early ++ later) entries) :
    (∃ schema', Stamps store.epoch schema' later epoch schema) ∧
      List.Forall₂ Database.Logs later
        (entries.filter fun entry => store.epoch < entry.epoch) := by
  obtain ⟨middle, schema', hearly, hlater⟩ := hstamps.of_append
  obtain rfl := h.stamps.epoch_unique hearly
  refine ⟨⟨schema', hlater⟩, ?_⟩
  have hfilter := Database.filter_logs hlogs store.epoch
  have hbefore : Commits Store.genesis.obs early
      (Store.genesis.obs.commit store.epoch schema' (early.flatMap TxReceipt.datoms)) :=
    ⟨_, _, hearly, rfl⟩
  have hnew := hbefore.filter_epoch ⟨_, _, hlater, rfl⟩
  rwa [show (early ++ later).filter (fun receipt => store.epoch < receipt.epoch) = later from hnew]
    at hfilter

/-- A checkpoint that can be loaded carries an early part of a history. -/
def Checkpointed (history : List TxReceipt) (bytes : Bytes) : Prop :=
  ∀ loaded, storeFromCheckpointBytes bytes = .ok loaded →
    ∃ early later, history = early ++ later ∧ Carries early loaded

/-- A checkpoint of a history is one of every longer history. -/
theorem Checkpointed.append {history : List TxReceipt} {bytes : Bytes}
    (h : Checkpointed history bytes) (more : List TxReceipt) :
    Checkpointed (history ++ more) bytes := by
  intro loaded hload
  obtain ⟨early, later, rfl, hcarries⟩ := h loaded hload
  exact ⟨early, later ++ more, List.append_assoc _ _ _, hcarries⟩

/-- A cold start on a log that holds the entries of a history and a checkpoint of an early part of
it: the checkpoint is the base if it can be loaded, and the log alone gives the same otherwise. -/
theorem coldStart_carries (hfaithful : Bincode.Faithful) {history : List TxReceipt}
    {epoch : UInt64} {schema : Schema}
    (hstamps : Stamps Store.genesis.epoch Store.genesis.schema history epoch schema)
    (hattrs : ∀ receipt ∈ history, ShortAttrs receipt.datoms) {dir : DataDir} {file : Bytes}
    (hcreate : dir.createDirAll = .ok ()) (hwal : dir.wal = some file)
    (hlogs : List.Forall₂ Database.Logs history (Log.recover file).1)
    (hcheckpoint : ∀ bytes, dir.checkpoint = some bytes → Checkpointed history bytes)
    (orders orders' : Nat → IterOrder) :
    ∃ result, coldStart orders orders' dir = .ok result ∧ result.level ≠ .genesis ∧
      result.database.wal = some (Log.recover file).2 ∧
      Carries history result.database.current := by
  obtain ⟨replayed, hreplay, hcarries⟩ :=
    carries_genesis.replay hfaithful hstamps hattrs hlogs orders'
  have hwalOnly : tryWalOnly orders' file =
      some ⟨Database.build replayed (some (Log.recover file).2), .walOnly⟩ := by
    rw [tryWalOnly, Database.recoverFromWal]
    simp only [hreplay]
    rfl
  rw [List.nil_append] at hcarries
  have hlevel : RecoveryLevel.walOnly ≠ .genesis := by decide
  rw [coldStart, hcreate, hwal]
  cases hfound : dir.checkpoint with
  | none =>
      simp only [hwalOnly]
      exact ⟨_, rfl, hlevel, rfl, hcarries⟩
  | some bytes =>
      cases hload : storeFromCheckpointBytes bytes with
      | error e =>
          have hfails : tryCheckpointPlusWal orders bytes file = none := by
            rw [tryCheckpointPlusWal, Database.recover, hload]
            rfl
          simp only [hfails, hwalOnly, Option.none_or]
          exact ⟨_, rfl, hlevel, rfl, hcarries⟩
      | ok loaded =>
          obtain ⟨early, later, rfl, hearly⟩ := hcheckpoint bytes hfound loaded hload
          obtain ⟨⟨schema', hlater⟩, hbehind⟩ := hearly.filter_entries hstamps hlogs
          obtain ⟨whole, hwhole, hall⟩ := hearly.replay hfaithful hlater
            (fun receipt hreceipt => hattrs receipt (List.mem_append_right _ hreceipt))
            hbehind orders
          have hrecovers : tryCheckpointPlusWal orders bytes file = some
              ⟨Database.build whole (some (Log.recover file).2), .checkpointPlusWal⟩ := by
            rw [tryCheckpointPlusWal, Database.recover, hload]
            simp only [hwhole]
            rfl
          simp only [hrecovers, Option.some_or]
          exact ⟨_, rfl, show RecoveryLevel.checkpointPlusWal ≠ .genesis by decide, rfl, hall⟩

/-- A cold start on an empty directory. -/
theorem coldStart_empty {dir : DataDir} (hcreate : dir.createDirAll = .ok ())
    (hcheckpoint : dir.checkpoint = none) (hwal : dir.wal = none) (hlog : dir.createWal = .ok ())
    (orders orders' : Nat → IterOrder) :
    coldStart orders orders' dir = .ok ⟨Database.genesisWithWal, .genesis⟩ := by
  rw [coldStart, hcreate, hcheckpoint, hwal, hlog]
  rfl

end Histories

end Ferratomic
