import Ferratomic.Checkpoint.Format
import Ferratomic.Db.Basic

/-!
# Recovery

A database is recovered by replaying its log into a genesis store, or by loading a checkpoint
and replaying the entries after its epoch. The main theorem, `replayWal_stamps`, says that
replaying the entries of a sequence of committed transactions succeeds and adds what they added;
when no transaction defines an attribute twice, it also leaves the schema that they left.
-/

namespace Ferratomic

open Lib

/-- A stamped transaction has short attributes when the one written has. -/
theorem ShortAttrs.of_stamped {transaction : Transaction} {receipt : TxReceipt}
    (hattrs : ShortAttrs transaction.datoms) (h : Stamped transaction receipt) :
    ShortAttrs receipt.datoms := by
  obtain ⟨txId, metadata, hdatoms, hmetadata⟩ := h
  intro d hd
  rw [hdatoms, List.mem_append, stampDatoms, List.mem_map] at hd
  rcases hd with ⟨original, horiginal, rfl⟩ | hd
  · exact hattrs original horiginal
  · have hmem := hmetadata d hd
    have hall : ∀ attr ∈ metadataAttributes, (utf8Bytes attr).length ≤ maxAttributeBytes := by
      decide +kernel
    exact hall d.attr hmem

variable [Blake3] [Bincode]

namespace Database

/-- The replay loop of the recovery constructors: deserialize, cross the trust boundary, replay. -/
def replayWal (orders : Nat → IterOrder) (index : Nat) (store : Store) :
    List WalEntry → Except FerraError Store
  | [] => .ok store
  | entry :: rest =>
      match Bincode.datoms.deserialize entry.payload with
      | .error message => .error (.walRead message)
      | .ok wireDatoms =>
          match Store.replayEntry (orders index) store entry.epoch
            (wireDatoms.map WireDatom.intoTrusted) with
          | (.error e, _) => .error e
          | (.ok (), store) => replayWal orders (index + 1) store rest

/-- `recover_from_wal`: replay the log of a file into a genesis store. An error of the file
operations is passed on; the model is of a disk on which they succeed. -/
def recoverFromWal (orders : Nat → IterOrder) (file : Bytes) : Except FerraError Database :=
  let recovered := Log.recover file
  match replayWal orders 0 Store.genesis recovered.1 with
  | .error e => .error e
  | .ok store => .ok (build store (some recovered.2))

/-- `recover`: load a checkpoint and replay the entries after its epoch. -/
def recover (orders : Nat → IterOrder) (checkpoint file : Bytes) : Except FerraError Database :=
  match storeFromCheckpointBytes checkpoint with
  | .error e => .error e
  | .ok store =>
      let recovered := Log.recover file
      match replayWal orders 0 store (recovered.1.filter fun entry => store.epoch < entry.epoch)
        with
      | .error e => .error e
      | .ok store => .ok (build store (some recovered.2))

/-- Replaying the entries of committed transactions succeeds and adds their datoms; with
distinct identifiers it also leaves their schema, whatever the iteration orders. -/
theorem replayWal_stamps (hfaithful : Bincode.Faithful) {epoch epoch' : UInt64}
    {schema schema' : Schema} {receipts : List TxReceipt}
    (hstamps : Stamps epoch schema receipts epoch' schema')
    (hattrs : ∀ receipt ∈ receipts, ShortAttrs receipt.datoms) {entries : List WalEntry}
    (hlogs : List.Forall₂ Logs receipts entries) (orders : Nat → IterOrder) (index : Nat)
    (store : Store) (hepoch : store.epoch = epoch) :
    ∃ replayed schema'', replayWal orders index store entries = .ok replayed ∧
      replayed.obs = store.obs.commit epoch' schema'' (receipts.flatMap TxReceipt.datoms) ∧
      ((∀ receipt ∈ receipts, DistinctIdents receipt.datoms) → store.schema = schema →
        schema'' = schema') := by
  induction hstamps generalizing entries index store with
  | nil epoch schema =>
      cases hlogs
      subst hepoch
      exact ⟨store, store.schema, rfl, rfl, fun _ h => h⟩
  | cons order hnext hevolve _ ih =>
      rename_i epoch schema next receipt receipts epoch' schema' _
      obtain ⟨entry, entries, hlog, hrestLogs, rfl⟩ := List.forall₂_cons_left_iff.mp hlogs
      obtain ⟨hattr, hattrs⟩ := List.forall_mem_cons.mp hattrs
      obtain ⟨bytes, hserialize, hdeserialize⟩ := hfaithful.datoms receipt.datoms hattr
      obtain rfl : bytes = entry.payload := by
        rw [hlog.2] at hserialize
        exact (Except.ok.inj hserialize).symm
      -- evolution succeeded when the transaction was applied, so it succeeds in every order
      have hok : (evolveSchema (orders index) store.schema receipt.datoms).1 = .ok () :=
        evolveSchema_ok_iff.mpr (evolveSchema_ok_iff.mp (congrArg Prod.fst hevolve))
      have hreplay : Store.replayEntry (orders index) store entry.epoch receipt.datoms =
          (.ok (), (Store.replayEntry (orders index) store entry.epoch receipt.datoms).2) :=
        Prod.ext ((Store.fst_replayEntry _ _ _ _).trans hok) rfl
      obtain ⟨replayed, schema'', hrest, hobs, hschema⟩ := ih hattrs hrestLogs (index + 1)
        (Store.replayEntry (orders index) store entry.epoch receipt.datoms).2 hlog.1
      refine ⟨replayed, schema'', ?_, ?_, ?_⟩
      · rw [replayWal, hdeserialize]
        simp only [map_intoTrusted_toWire]
        rw [hreplay]
        exact hrest
      · rw [hobs, Store.obs_replayEntry, Observation.commit_commit, List.flatMap_cons]
      · intro hdistinct hsame
        obtain ⟨hdistinct, hdistincts⟩ := List.forall_mem_cons.mp hdistinct
        refine hschema hdistincts ?_
        have hentry : (Store.replayEntry (orders index) store entry.epoch receipt.datoms).2.schema =
            (evolveSchema (orders index) store.schema receipt.datoms).2 :=
          congrArg Observation.schema
            (Store.obs_replayEntry (orders index) store entry.epoch receipt.datoms)
        rw [hentry, hsame, evolveSchema_order_irrel hdistinct (congrArg Prod.fst hevolve), hevolve]

end Database

end Ferratomic
