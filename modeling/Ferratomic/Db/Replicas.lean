import Ferratomic.Db.Lifetimes
import Ferratomic.Validate

/-!
# Databases created independently

`genesis`, `genesis_with_wal` and `genesis_with_identity` create a store that did not exist before.
The last derives a node from the public key and writes two signed transactions in its name, but
the clock is built around the genesis store, whose node is zero, in all three. The main theorem,
`created_share_txId`, says that any two databases created so issue the same identifier in some of
their runs.
-/

namespace Ferratomic

open Lib

section Identity

variable [Blake3]

/-- `define_schema_attr`: the datoms that define an attribute. -/
def defineSchemaAttr (transaction : Transaction) (ident valueType : String) : Transaction :=
  ((transaction.assertDatom (EntityId.fromContent (utf8Bytes ident)) "db/ident"
      (.keyword ident)).assertDatom (EntityId.fromContent (utf8Bytes ident)) "db/valueType"
      (.keyword valueType)).assertDatom (EntityId.fromContent (utf8Bytes ident)) "db/cardinality"
    (.keyword "db.cardinality/one")

/-- The transaction of `build_identity_schema_tx` before it is committed. -/
def identitySchemaTx (node : NodeId) : Transaction :=
  defineSchemaAttr (defineSchemaAttr (.new node) "store/public-key" "db.type/bytes")
    "store/created" "db.type/instant"

/-- `build_identity_schema_tx`: define the attributes of the identity. -/
def buildIdentitySchemaTx (node : NodeId) (schema : Schema) :
    Except TxValidationError Transaction :=
  (identitySchemaTx node).commit schema

/-- `i64::try_from(millis).unwrap_or(i64::MAX)` -/
def instantMillis (millis : Nat) : SignedInt 64 :=
  ⟨min millis (2 ^ 63 - 1), by omega⟩

/-- The transaction of `build_identity_value_tx` before it is committed. -/
def identityValueTx (node : NodeId) (pubkey : TxSigner) (millis : Nat) : Transaction :=
  ((Transaction.new node).assertDatom (EntityId.fromContent pubkey.val) "store/public-key"
      (.bytes pubkey.val)).assertDatom (EntityId.fromContent pubkey.val) "store/created"
    (.instant (instantMillis millis))

/-- `build_identity_value_tx`: assert the public key and the time of creation. -/
def buildIdentityValueTx (node : NodeId) (pubkey : TxSigner) (millis : Nat) (schema : Schema) :
    Except TxValidationError Transaction :=
  (identityValueTx node pubkey millis).commit schema

/-- The node of an identity: the first 16 bytes of the hash of the public key. -/
def identityNode (pubkey : TxSigner) : NodeId :=
  ⟨(Blake3.hash pubkey.val).val.take 16, by
    rw [List.length_take, (Blake3.hash pubkey.val).property]
    rfl⟩

variable [Bincode]

/-- `genesis_with_identity`: a genesis database with the two signed transactions of its identity.
The environments are those of the two calls, `millis` is the reading for the time of creation and
`debug` gives the texts of the values in validation errors. -/
def Database.genesisWithIdentity (debug : Value → String) (env : Nat → Env) (millis : Nat)
    (key : SigningKey) : Except FerraError Database :=
  match buildIdentitySchemaTx (identityNode key.verifyingKey) genesis.current.schema with
  | .error e => .error (e.toFerraError debug)
  | .ok schemaTx =>
      match genesis.transactSigned (env 0) schemaTx key with
      | (.error e, _) => .error e
      | (.ok _, db) =>
          match buildIdentityValueTx (identityNode key.verifyingKey) key.verifyingKey millis
            db.current.schema with
          | .error e => .error (e.toFerraError debug)
          | .ok valueTx =>
              match db.transactSigned (env 1) valueTx key with
              | (.error e, _) => .error e
              | (.ok _, db) => .ok db

end Identity

section Success

variable [Blake3]

/-- Applying a transaction succeeds when its entities can be read and the epoch is not the last. -/
theorem Store.transact_succeeds {store : Store} {transaction : Transaction}
    (hne : transaction.datoms ≠ []) {epoch : UInt64} (hepoch : checkedSucc store.epoch = some epoch)
    (hgroups : ∀ entity, ∃ found,
      extractAttributeDef (transaction.datoms.filter (·.entity = entity)) = .ok found)
    (order : IterOrder) (ctx : TransactContext) :
    ∃ receipt, (Store.transact order store transaction ctx).1 = .ok receipt := by
  let allDatoms := stampDatoms transaction.datoms ctx.txId ++ transactMetadata transaction.node ctx
  have hstamped : Stamped transaction ⟨epoch, allDatoms⟩ :=
    ⟨ctx.txId, _, rfl, fun d hd => attr_mem_metadataAttributes hd⟩
  have hevolve : (evolveSchema order store.schema allDatoms).1 = .ok () := by
    refine evolveSchema_ok_iff.mpr fun group hgroup => ?_
    obtain ⟨d, -, rfl⟩ := mem_groupByEntity.mp hgroup
    rw [extractAttributeDef_stamped hstamped]
    exact hgroups d.entity
  have hempty : ¬transaction.datoms.isEmpty = true := fun h => hne (List.isEmpty_iff.mp h)
  refine ⟨⟨epoch, allDatoms⟩, ?_⟩
  rw [Store.transact, if_neg hempty]
  simp only [hepoch]
  rw [show (evolveSchema order store.schema (stampDatoms transaction.datoms ctx.txId ++
    transactMetadata transaction.node ctx)).1 = .ok () from hevolve]

namespace Database

/-- Staging such a transaction succeeds when the clock is behind the wall clock. -/
theorem stageTransact_succeeds {db : Database} {env : Env} {transaction : Transaction}
    (hclock : db.clock.physical < env.now 0 0) (hne : transaction.datoms ≠ [])
    {epoch : UInt64} (hepoch : checkedSucc db.current.epoch = some epoch)
    (hgroups : ∀ entity, ∃ found,
      extractAttributeDef (transaction.datoms.filter (·.entity = entity)) = .ok found)
    (sign : TxId → Option (TxSignature × TxSigner)) :
    ∃ staged, db.stageTransact env transaction sign =
      (.ok staged, ⟨env.now 0 0, 0, db.clock.node⟩) := by
  obtain ⟨receipt, htransact⟩ := Store.transact_succeeds hne hepoch hgroups (env.order 0)
    ⟨⟨env.now 0 0, 0, db.clock.node⟩, some db.frontier,
      sign ⟨env.now 0 0, 0, db.clock.node⟩, .observed⟩
  unfold stageTransact
  rw [HybridClock.tick_of_lt hclock]
  simp only
  split
  case h_1 e _ herror =>
      rw [herror] at htransact
      cases htransact
  case h_2 => exact ⟨_, rfl⟩

variable [Bincode]

/-- Without a log nothing is written. -/
theorem writeWalAll_none {db : Database} (hwal : db.wal = none) (env : Env) (index : Nat)
    (receipts : List TxReceipt) : db.writeWalAll env index receipts = (.ok (), db) := by
  induction receipts generalizing index with
  | nil => rfl
  | cons receipt rest ih =>
      rw [writeWalAll]
      simp only [writeWal, hwal]
      exact ih (index + 1)

/-- Without a log, a call publishes what it staged. -/
theorem commitStaged_none {db : Database} (hwal : db.wal = none) (env : Env) (staged : Staged)
    (clock : HybridClock) :
    db.commitStaged env (.ok staged, clock) =
      (.ok staged.receipts, ⟨staged.store, none, clock, staged.frontier⟩) := by
  have hnone : ({ db with clock := clock } : Database).wal = none := hwal
  have hwrite := writeWalAll_none hnone env 0 staged.receipts
  unfold commitStaged
  simp only [hwrite]
  rw [hwal]

/-- What a single transaction without a log publishes when it succeeds as above. -/
theorem transact_succeeds (db : Database) (hwal : db.wal = none) (env : Env)
    (transaction : Transaction) (hclock : db.clock.physical < env.now 0 0)
    (hne : transaction.datoms ≠ []) {epoch : UInt64}
    (hepoch : checkedSucc db.current.epoch = some epoch)
    (hgroups : ∀ entity, ∃ found,
      extractAttributeDef (transaction.datoms.filter (·.entity = entity)) = .ok found)
    (sign : TxId → Option (TxSignature × TxSigner)) :
    ∃ (store : Store) (frontier : Frontier) (receipt : TxReceipt) (order : IterOrder),
      db.commitStaged env (db.stageTransact env transaction sign) = (.ok [receipt],
        ⟨store, none, ⟨env.now 0 0, 0, db.clock.node⟩, frontier⟩) ∧
      (∃ d ∈ receipt.datoms, d.tx = ⟨env.now 0 0, 0, db.clock.node⟩) ∧
      Stamped transaction receipt ∧ store.epoch = epoch ∧
      evolveSchema order db.current.schema receipt.datoms = (.ok (), store.schema) := by
  -- without a log the commit of what was staged cannot fail
  obtain ⟨staged, hstaged⟩ := stageTransact_succeeds hclock hne hepoch hgroups sign
  have hfst : (db.stageTransact env transaction sign).1 = .ok staged := by rw [hstaged]
  obtain ⟨txId, receipt, hreceipts, htick, hdatoms, -⟩ := stageTransact_receipt hfst
  obtain ⟨hstamped, hcommits, -⟩ := stageTransact_ok hstaged
  have htx : txId = ⟨env.now 0 0, 0, db.clock.node⟩ := by
    rw [HybridClock.tick_of_lt hclock] at htick
    exact (Except.ok.inj (congrArg Prod.fst htick)).symm
  rw [hreceipts] at hstamped hcommits
  obtain ⟨only, hone, hreceipt⟩ := hstamped receipt List.mem_cons_self
  rw [List.mem_singleton.mp hone] at hreceipt
  obtain ⟨last, schema, hstamps, hobs⟩ := hcommits
  cases hstamps with
  | cons order hnext hevolve hrest =>
      cases hrest
      have hsucc : receipt.epoch = epoch := Option.some.inj (hnext.symm.trans hepoch)
      refine ⟨staged.store, staged.frontier, receipt, order, ?_, ?_, hreceipt, ?_, ?_⟩
      · rw [hstaged, commitStaged_none hwal, hreceipts]
      · obtain ⟨hnonempty, hall⟩ := stampedWith_of_datoms
          ⟨txId, some db.frontier, sign txId, .observed⟩ hdatoms
        obtain ⟨d, hd⟩ := List.exists_mem_of_ne_nil _ hnonempty
        exact ⟨d, hd, (hall d hd).trans htx⟩
      · rw [← hsucc]
        exact congrArg Observation.epoch hobs
      · have hschema : staged.store.schema = schema := congrArg Observation.schema hobs
        rw [hschema]
        exact hevolve

end Database

end Success

section Creation

variable [Blake3] [Bincode]

/-- The ways to create a store that did not exist before. -/
inductive Creation where
  | genesis
  | genesisWithWal
  | genesisWithIdentity (key : SigningKey)

/-- The database that a creation gives. -/
def Creation.create (debug : Value → String) (env : Nat → Env) (millis : Nat) :
    Creation → Except FerraError Database
  | genesis => .ok Database.genesis
  | genesisWithWal => .ok Database.genesisWithWal
  | genesisWithIdentity key => Database.genesisWithIdentity debug env millis key

/-- In no runs of two databases created so do transactions of both carry the same identifier. -/
def ShareNoTxId (left right : Creation) : Prop :=
  ∀ debug env env' millis millis' db db' calls calls',
    left.create debug env millis = .ok db → right.create debug env' millis' = .ok db' →
    ∀ receipt ∈ Database.acked (db.run calls).1, ∀ receipt' ∈ Database.acked (db'.run calls').1,
      ∀ d ∈ receipt.datoms, ∀ d' ∈ receipt'.datoms, d.tx ≠ d'.tx

end Creation

open Sample

section Created

/-- The entity that defines an attribute of the identity. -/
def identEntity (ident : String) : EntityId :=
  EntityId.fromContent (utf8Bytes ident)

/-- What the two entities of the identity schema define. -/
theorem extractAttributeDef_identEntity (node : NodeId) :
    extractAttributeDef ((identitySchemaTx node).datoms.filter
        (·.entity = identEntity "store/public-key")) =
      .ok (some ("store/public-key", ⟨.bytes, .one, .lww, none⟩)) ∧
    extractAttributeDef ((identitySchemaTx node).datoms.filter
        (·.entity = identEntity "store/created")) =
      .ok (some ("store/created", ⟨.instant, .one, .lww, none⟩)) := by
  -- the node is no part of the datoms
  show extractAttributeDef ((identitySchemaTx NodeId.zero).datoms.filter
      (·.entity = identEntity "store/public-key")) = _ ∧
    extractAttributeDef ((identitySchemaTx NodeId.zero).datoms.filter
      (·.entity = identEntity "store/created")) = _
  decide +kernel

/-- The identity schema is about two attributes. -/
theorem entity_identitySchemaTx {node : NodeId} {d : Datom}
    (h : d ∈ (identitySchemaTx node).datoms) :
    d.entity = identEntity "store/public-key" ∨ d.entity = identEntity "store/created" := by
  simp only [identitySchemaTx, defineSchemaAttr, Transaction.assertDatom, Transaction.new,
    List.nil_append, List.cons_append, List.mem_cons, List.not_mem_nil, or_false] at h
  rcases h with rfl | rfl | rfl | rfl | rfl | rfl
  · exact .inl rfl
  · exact .inl rfl
  · exact .inl rfl
  · exact .inr rfl
  · exact .inr rfl
  · exact .inr rfl

/-- Every entity of the identity schema can be read. -/
theorem exists_extractAttributeDef_identity (node : NodeId) (entity : EntityId) :
    ∃ found, extractAttributeDef ((identitySchemaTx node).datoms.filter (·.entity = entity)) =
      .ok found := by
  obtain ⟨hkey, hcreated⟩ := extractAttributeDef_identEntity node
  by_cases hfirst : entity = identEntity "store/public-key"
  · subst hfirst
    exact ⟨_, hkey⟩
  · by_cases hsecond : entity = identEntity "store/created"
    · subst hsecond
      exact ⟨_, hcreated⟩
    · have hempty : (identitySchemaTx node).datoms.filter (·.entity = entity) = [] := by
        refine List.filter_eq_nil_iff.mpr fun d hd hentity => ?_
        have hsame : d.entity = entity := of_decide_eq_true hentity
        rcases entity_identitySchemaTx hd with h | h
        · exact hfirst (hsame.symm.trans h)
        · exact hsecond (hsame.symm.trans h)
      rw [hempty]
      exact ⟨none, rfl⟩

/-- The identity schema defines no attribute twice. -/
theorem distinctIdents_identity (node : NodeId) :
    DistinctIdents (identitySchemaTx node).datoms := by
  obtain ⟨hkey, hcreated⟩ := extractAttributeDef_identEntity node
  have hdefines {entity : EntityId} {attr : Attribute} {d : AttributeDef}
      (h : extractAttributeDef ((identitySchemaTx node).datoms.filter (·.entity = entity)) =
        .ok (some (attr, d))) :
      entity = identEntity attr := by
    obtain ⟨datom, hdatom, rfl⟩ := exists_of_extractAttributeDef h
    rcases entity_identitySchemaTx hdatom with hentity | hentity
    · rw [hentity] at h ⊢
      rw [hkey] at h
      cases h
      rfl
    · rw [hentity] at h ⊢
      rw [hcreated] at h
      cases h
      rfl
  intro e₁ e₂ attr d₁ d₂ h₁ h₂
  rw [hdefines h₁, hdefines h₂]

/-- The identity schema is well typed in the genesis schema. -/
theorem wellTyped_identitySchemaTx (node : NodeId) :
    WellTyped genesisSchema (identitySchemaTx node).datoms := by
  have hok : (validateDatoms genesisSchema (identitySchemaTx NodeId.zero).datoms).isOk = true := by
    decide +kernel
  cases hvalidate : validateDatoms genesisSchema (identitySchemaTx NodeId.zero).datoms with
  | error e =>
      rw [hvalidate] at hok
      cases hok
  | ok _ => exact (validateDatoms_ok_iff genesisSchema _).mp hvalidate

/-- The values of the identity are well typed in every schema that its attributes were installed
in. -/
theorem wellTyped_identityValueTx {schema : Schema}
    (hkey : schema["store/public-key"]? = some ⟨.bytes, .one, .lww, none⟩)
    (hcreated : schema["store/created"]? = some ⟨.instant, .one, .lww, none⟩) (node : NodeId)
    (pubkey : TxSigner) (millis : Nat) :
    WellTyped schema (identityValueTx node pubkey millis).datoms := by
  intro d hd
  simp only [identityValueTx, Transaction.assertDatom, Transaction.new, List.nil_append,
    List.cons_append, List.mem_cons, List.not_mem_nil, or_false] at hd
  rcases hd with rfl | rfl
  · exact ⟨_, hkey, rfl⟩
  · exact ⟨_, hcreated, rfl⟩

/-- No attribute definition is read from the identity values. -/
theorem inert_identityValueTx {node : NodeId} {pubkey : TxSigner} {millis : Nat} {d : Datom}
    (h : d ∈ (identityValueTx node pubkey millis).datoms) : Inert d := by
  simp only [identityValueTx, Transaction.assertDatom, Transaction.new, List.nil_append,
    List.cons_append, List.mem_cons, List.not_mem_nil, or_false] at h
  rcases h with rfl | rfl
  · show "store/public-key" ≠ "db/ident" ∧ "store/public-key" ≠ "db/valueType" ∧
      "store/public-key" ≠ "db/cardinality"
    decide
  · show "store/created" ≠ "db/ident" ∧ "store/created" ≠ "db/valueType" ∧
      "store/created" ≠ "db/cardinality"
    decide

/-- Inert datoms are read without an error. -/
theorem exists_extractAttributeDef_inert {items : List Datom} (h : ∀ d ∈ items, Inert d)
    (entity : EntityId) :
    ∃ found, extractAttributeDef (items.filter (·.entity = entity)) = .ok found :=
  ⟨none, extractAttributeDef_inert fun d hd => h d (List.mem_filter.mp hd).1⟩

/-- The clock reads one for the first transaction of an identity and two for the second. -/
def identityEnv (index : Nat) : Env :=
  working (if index = 0 then 1 else 2)

/-- The schema transaction of an identity installs the attributes of the identity. -/
theorem getElem?_identity {node : NodeId} {receipt : TxReceipt}
    (hstamped : Stamped (identitySchemaTx node) receipt) {order : IterOrder}
    {schema next : Schema} (hevolve : evolveSchema order schema receipt.datoms = (.ok (), next)) :
    next["store/public-key"]? = some ⟨.bytes, .one, .lww, none⟩ ∧
      next["store/created"]? = some ⟨.instant, .one, .lww, none⟩ := by
  obtain ⟨hkey, hcreated⟩ := extractAttributeDef_identEntity node
  rw [← extractAttributeDef_stamped hstamped] at hkey hcreated
  have hdistinct := (distinctIdents_identity node).of_stamped hstamped
  have hok : (evolveSchema order schema receipt.datoms).1 = .ok () := by rw [hevolve]
  have hinstalled := getElem?_evolveSchema hdistinct hok hkey
  have hinstalled' := getElem?_evolveSchema hdistinct hok hcreated
  rw [hevolve] at hinstalled hinstalled'
  exact ⟨hinstalled, hinstalled'⟩

/-- A database with any identity is created, and its clock has the node zero. -/
theorem genesisWithIdentity_ok (debug : Value → String) (key : SigningKey) :
    ∃ db, Database.genesisWithIdentity debug identityEnv 0 key = .ok db ∧ db.wal = none ∧
      db.clock = ⟨2, 0, NodeId.zero⟩ ∧ db.current.epoch = 2 := by
  have hcommit : buildIdentitySchemaTx (identityNode key.verifyingKey)
      Database.genesis.current.schema = .ok (identitySchemaTx (identityNode key.verifyingKey)) :=
    Transaction.commit_ok_iff.mpr ⟨rfl, wellTyped_identitySchemaTx _⟩
  unfold Database.genesisWithIdentity
  rw [hcommit]
  generalize identityNode key.verifyingKey = node
  -- the first transaction, at one
  have hfirst : checkedSucc Database.genesis.current.epoch = some 1 := by
    show checkedSucc 0 = some 1
    decide
  have hclock : Database.genesis.clock.physical < (identityEnv 0).now 0 0 := by
    show (0 : UInt64) < 1
    decide
  obtain ⟨store, frontier, receipt, order, hcall, -, hstamped, hepoch, hevolve⟩ :=
    Database.transact_succeeds Database.genesis rfl (identityEnv 0) (identitySchemaTx node) hclock
      (List.cons_ne_nil _ _) hfirst (exists_extractAttributeDef_identity node)
      (Database.genesis.signFor (identitySchemaTx node) key)
  obtain ⟨hkey, hcreated⟩ := getElem?_identity hstamped hevolve
  have hstep : Database.genesis.transactSigned (identityEnv 0) (identitySchemaTx node) key =
      (.ok [receipt], ⟨store, none, ⟨1, 0, NodeId.zero⟩, frontier⟩) := hcall
  have hvalue : buildIdentityValueTx node key.verifyingKey 0 store.schema =
      .ok (identityValueTx node key.verifyingKey 0) :=
    Transaction.commit_ok_iff.mpr ⟨rfl, wellTyped_identityValueTx hkey hcreated _ _ _⟩
  -- the second transaction, at two
  have hsecond : checkedSucc store.epoch = some 2 := by
    rw [hepoch]
    decide
  have hclock' : (1 : UInt64) < (identityEnv 1).now 0 0 := by
    show (1 : UInt64) < 2
    decide
  obtain ⟨store', frontier', receipt', -, hcall', -, -, hepoch', -⟩ :=
    Database.transact_succeeds ⟨store, none, ⟨1, 0, NodeId.zero⟩, frontier⟩ rfl (identityEnv 1)
      (identityValueTx node key.verifyingKey 0) hclock' (List.cons_ne_nil _ _) hsecond
      (exists_extractAttributeDef_inert fun d hd => inert_identityValueTx hd)
      (Database.signFor ⟨store, none, ⟨1, 0, NodeId.zero⟩, frontier⟩
        (identityValueTx node key.verifyingKey 0) key)
  have hstep' : (⟨store, none, ⟨1, 0, NodeId.zero⟩, frontier⟩ : Database).transactSigned
      (identityEnv 1) (identityValueTx node key.verifyingKey 0) key =
        (.ok [receipt'], ⟨store', none, ⟨2, 0, NodeId.zero⟩, frontier'⟩) := hcall'
  simp only [hstep, hvalue, hstep']
  exact ⟨_, rfl, rfl, rfl, hepoch'⟩

/-- A run of one call acknowledges the call's receipts. -/
theorem acked_run_singleton {db : Database} {call : Call} {env : Env} {receipts : List TxReceipt}
    (h : (db.step call env).1 = .ok receipts) :
    Database.acked (db.run [(call, env)]).1 = receipts := by
  show Database.acked [(db.step call env).1] = receipts
  rw [h]
  exact List.append_nil receipts

/-- A database without a log whose clock has the node zero and is behind the wall clock issues the
identifier of that time, counter zero and node zero. -/
theorem exists_issued {db : Database} (hwal : db.wal = none) (hnode : db.clock.node = NodeId.zero)
    {now : UInt64} (hclock : db.clock.physical < now) {epoch : UInt64}
    (hepoch : checkedSucc db.current.epoch = some epoch) :
    ∃ calls, ∃ receipt ∈ Database.acked (db.run calls).1, ∃ d ∈ receipt.datoms,
      d.tx = ⟨now, 0, NodeId.zero⟩ := by
  have hinert : ∀ d ∈ document.datoms, Inert d := by
    intro d hd
    rw [List.mem_singleton.mp hd]
    show "db/doc" ≠ "db/ident" ∧ "db/doc" ≠ "db/valueType" ∧ "db/doc" ≠ "db/cardinality"
    decide
  obtain ⟨store, frontier, receipt, -, hcall, ⟨d, hd, htx⟩, -⟩ :=
    db.transact_succeeds hwal (working now) document hclock (List.cons_ne_nil _ _) hepoch
      (exists_extractAttributeDef_inert hinert) fun _ => none
  have hok : (db.step (.transact document) (working now)).1 = .ok [receipt] :=
    congrArg Prod.fst hcall
  refine ⟨[(.transact document, working now)], receipt, ?_, d, hd, ?_⟩
  · rw [acked_run_singleton hok]
    exact List.mem_cons_self
  · rw [htx, hnode]
    rfl

/-- Every kind of database is created in some environment and then issues the identifier of time
ten, counter zero and node zero. -/
theorem exists_created (debug : Value → String) (creation : Creation) :
    ∃ db calls, creation.create debug identityEnv 0 = .ok db ∧
      ∃ receipt ∈ Database.acked (db.run calls).1, ∃ d ∈ receipt.datoms,
        d.tx = ⟨10, 0, NodeId.zero⟩ := by
  cases creation with
  | genesis =>
      have hepoch : checkedSucc Database.genesis.current.epoch = some 1 := by
        show checkedSucc 0 = some 1
        decide
      have hclock : Database.genesis.clock.physical < 10 := by
        show (0 : UInt64) < 10
        decide
      obtain ⟨calls, hissued⟩ := exists_issued rfl rfl hclock hepoch
      exact ⟨Database.genesis, calls, rfl, hissued⟩
  | genesisWithWal =>
      have hlength : (Database.genesisWithWal.step (.transact document)
          (working 10)).1.toOption.map List.length = some 1 := by
        decide +kernel
      obtain ⟨receipts, hok, -⟩ := Database.exists_ok_of_length hlength
      have hne : (Call.transact document).transactions ≠ [] := List.cons_ne_nil _ _
      have hnow : (0 : UInt64) < 10 := by decide
      obtain ⟨receipt, hreceipt, d, hd, -, htx⟩ := Database.exists_published rfl hne hnow hok
      refine ⟨Database.genesisWithWal, [(.transact document, working 10)], rfl, receipt, ?_, d, hd,
        htx⟩
      rw [acked_run_singleton hok]
      exact hreceipt
  | genesisWithIdentity key =>
      obtain ⟨db, hcreate, hwal, hclock, hepoch⟩ := genesisWithIdentity_ok debug key
      have hnode : db.clock.node = NodeId.zero := by rw [hclock]
      have hbehind : db.clock.physical < 10 := by
        rw [hclock]
        show (2 : UInt64) < 10
        decide
      have hsucc : checkedSucc db.current.epoch = some 3 := by
        rw [hepoch]
        decide
      obtain ⟨calls, hissued⟩ := exists_issued hwal hnode hbehind hsucc
      exact ⟨db, calls, hcreate, hissued⟩

/-- Whatever the two constructors and keys, two databases created independently stamp transactions
with the same identifier in some of their runs. -/
theorem created_share_txId (left right : Creation) : ¬ShareNoTxId left right := by
  intro h
  obtain ⟨db, calls, hcreate, receipt, hreceipt, d, hd, htx⟩ := exists_created (fun _ => "") left
  obtain ⟨db', calls', hcreate', receipt', hreceipt', d', hd', htx'⟩ :=
    exists_created (fun _ => "") right
  refine h (fun _ => "") identityEnv identityEnv 0 0 db db' calls calls' hcreate hcreate' receipt
    hreceipt receipt' hreceipt' d hd d' hd' ?_
  rw [htx, htx']

/-- Two genesis databases that are written at the same time stamp both transactions with one
identifier, so the two transactions have one entity. -/
theorem genesis_pair_shares_txId :
    ¬ShareNoTxId .genesis .genesisWithWal ∧
      ∃ receipts receipts',
        (Database.genesis.step (.transact document) (working 10)).1 = .ok receipts ∧
        (Database.genesisWithWal.step (.transact document) (working 10)).1 = .ok receipts' ∧
        ∃ receipt ∈ receipts, ∃ receipt' ∈ receipts', ∃ d ∈ receipt.datoms,
          ∃ d' ∈ receipt'.datoms, d.tx = d'.tx ∧
            txEntityFromTxid d.tx = txEntityFromTxid d'.tx := by
  have hleft : (Database.genesis.step (.transact document) (working 10)).1.toOption.map
      List.length = some 1 := by
    decide +kernel
  have hright : (Database.genesisWithWal.step (.transact document) (working 10)).1.toOption.map
      List.length = some 1 := by
    decide +kernel
  obtain ⟨receipts, hok, -⟩ := Database.exists_ok_of_length hleft
  obtain ⟨receipts', hok', -⟩ := Database.exists_ok_of_length hright
  have hne : (Call.transact document).transactions ≠ [] := List.cons_ne_nil _ _
  have hnow : (0 : UInt64) < 10 := by decide
  obtain ⟨receipt, hreceipt, d, hd, -, htx⟩ := Database.exists_published rfl hne hnow hok
  obtain ⟨receipt', hreceipt', d', hd', -, htx'⟩ := Database.exists_published rfl hne hnow hok'
  have hsame : d.tx = d'.tx := htx.trans htx'.symm
  refine ⟨fun h => ?_, receipts, receipts', hok, hok', receipt, hreceipt, receipt', hreceipt', d,
    hd, d', hd', hsame, by rw [hsame]⟩
  refine h (fun _ => "") identityEnv identityEnv 0 0 Database.genesis Database.genesisWithWal
    [(.transact document, working 10)] [(.transact document, working 10)] rfl rfl receipt ?_
    receipt' ?_ d hd d' hd' hsame
  · rw [acked_run_singleton hok]
    exact hreceipt
  · rw [acked_run_singleton hok']
    exact hreceipt'

end Created

end Ferratomic
