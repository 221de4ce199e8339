import Ferratomic.Db.Bundle

/-!
# Which bundles verify

The bundle of a transaction is made from what the store holds under its identifier. The main
theorem, `bundle_verifies_iff`, says when it gives back what was signed: no user datom is repeated,
nothing else is stored under the identifier, and no datom that the user wrote with an attribute of
transaction metadata is read in place of the engine's own or beside it.
-/

namespace Ferratomic

open Lib

section Frontier

variable [Blake3] [Bincode]

/-- Every database that a store can pass through. -/
abbrev Database.AnyLife (db : Database) : Prop :=
  Lives (fun _ => True) (fun _ _ _ => True) db

omit [Blake3] [Bincode] in
/-- Advancing the frontier at one node leaves the entries of the others. -/
theorem Frontier.getElem?_advance_of_ne {frontier : Frontier} {node other : NodeId} {txId : TxId}
    (h : node ≠ other) : (frontier.advance node txId)[other]? = frontier[other]? := by
  have hinsert : (frontier.insert node txId)[other]? = frontier[other]? := by
    rw [OrdMap.getElem?_insert_eq, if_neg h]
  unfold Frontier.advance
  split
  case h_1 => exact hinsert
  case h_2 =>
      split
      case isTrue => exact hinsert
      case isFalse => rfl

omit [Blake3] [Bincode] in
/-- A call advances the frontier at the clock's node only. -/
theorem Call.getElem?_advances {frontier : Frontier} {call : Call} {txIds : List TxId}
    {node other : NodeId} (hnode : ∀ txId ∈ txIds, txId.node = node) (hother : other ≠ node) :
    (call.advances frontier txIds)[other]? = frontier[other]? := by
  have hfold : (txIds.foldl (fun known txId => known.advance txId.node txId) frontier)[other]? =
      frontier[other]? := by
    induction txIds generalizing frontier with
    | nil => rfl
    | cons txId rest ih =>
        rw [List.foldl_cons, ih fun tx htx => hnode tx (List.mem_cons_of_mem _ htx)]
        refine Frontier.getElem?_advance_of_ne ?_
        rw [hnode txId List.mem_cons_self]
        exact hother.symm
  cases call with
  | transact transaction => exact hfold
  | transactSigned transaction key => exact hfold
  | batchTransact transactions => rfl

/-- The frontier of a database knows the clock's own node only. -/
theorem Database.frontier_of_anyLife {db : Database} (h : db.AnyLife) {node : NodeId}
    (hnode : node ≠ db.clock.node) : db.frontier[node]? = none := by
  induction h with
  | opened hopening _ =>
      obtain ⟨store, attached, rfl⟩ := Opening.database_ok hopening
      rfl
  | @stepped db call env _ _ ih =>
      cases hresult : (db.step call env).1 with
      | error e =>
          obtain ⟨txIds, hticks, -⟩ := stage_ticks db env call
          rw [← clock_step] at hticks
          rw [hticks.node.1] at hnode
          rw [(step_error hresult).2]
          exact ih hnode
      | ok receipts =>
          obtain ⟨txIds, hpublished⟩ := step_published hresult
          obtain ⟨hclock, hissued⟩ := hpublished.ticks.node
          rw [hclock] at hnode
          rw [hpublished.frontier, Call.getElem?_advances hissued hnode]
          exact ih hnode

/-- So it names at most one predecessor. -/
theorem Database.nodup_predecessors {db : Database} (h : db.AnyLife) :
    (db.frontier.toList.map fun entry => txEntityFromTxid entry.2).Nodup := by
  have hkeys : ∀ entry ∈ db.frontier.toList, entry.1 = db.clock.node := by
    intro entry hentry
    by_contra hother
    have hlookup := OrdMap.mem_toList.mp (show (entry.1, entry.2) ∈ db.frontier.toList from hentry)
    rw [Database.frontier_of_anyLife h hother] at hlookup
    cases hlookup
  have hpairwise := OrdMap.pairwise_keys_toList db.frontier
  generalize db.frontier.toList = entries at hkeys hpairwise
  cases entries with
  | nil => exact List.nodup_nil
  | cons first rest =>
      cases rest with
      | nil => exact List.nodup_singleton _
      | cons second rest =>
          -- two entries would have two keys
          have hlt := (List.pairwise_cons.mp hpairwise).1 second List.mem_cons_self
          rw [hkeys first List.mem_cons_self,
            hkeys second (List.mem_cons_of_mem _ List.mem_cons_self)] at hlt
          exact absurd hlt (lt_irrefl _)

end Frontier

section Metadata

variable [Blake3]

/-- The signature datom of the engine. -/
def signatureDatom (txId : TxId) (signature : TxSignature) : Datom :=
  ⟨txEntityFromTxid txId, "tx/signature", .bytes signature.val, txId, .assert⟩

/-- The signer datom of the engine. -/
def signerDatom (txId : TxId) (signer : TxSigner) : Datom :=
  ⟨txEntityFromTxid txId, "tx/signer", .bytes signer.val, txId, .assert⟩

/-- A predecessor datom of the engine. -/
def predecessorDatom (txId known : TxId) : Datom :=
  ⟨txEntityFromTxid txId, "tx/predecessor", .ref (txEntityFromTxid known), txId, .assert⟩

/-- The metadata of a signed transaction. -/
def signedMetadata (node : NodeId) (txId : TxId) (frontier : Frontier)
    (made : TxSignature × TxSigner) : List Datom :=
  transactMetadata node ⟨txId, some frontier, some made, .observed⟩

omit [Blake3] in
/-- Bytes of the right number are read as the field they are. -/
theorem fixedBytes_val {width : Nat} (bytes : FixedBytes width) :
    fixedBytes width bytes.val = some bytes :=
  dif_pos bytes.property

/-- A signature is read back from its datom. -/
theorem readSignature_signatureDatom (txId : TxId) (signature : TxSignature) :
    readSignature (signatureDatom txId signature) = some signature := by
  rw [readSignature]
  exact (if_pos rfl).trans (fixedBytes_val signature)

/-- A signer is read back from its datom. -/
theorem readSigner_signerDatom (txId : TxId) (signer : TxSigner) :
    readSigner (signerDatom txId signer) = some signer := by
  rw [readSigner]
  exact (if_pos rfl).trans (fixedBytes_val signer)

variable {node : NodeId} {txId : TxId} {frontier : Frontier} {made : TxSignature × TxSigner}

/-- The metadata of a signed transaction, datom by datom. -/
theorem mem_signedMetadata {d : Datom} (h : d ∈ signedMetadata node txId frontier made) :
    d = signatureDatom txId made.1 ∨ d = signerDatom txId made.2 ∨
      (∃ entry ∈ frontier.toList, d = predecessorDatom txId entry.2) ∨
      d.attr = "tx/time" ∨ d.attr = "tx/origin" ∨ d.attr = "tx/provenance" := by
  simp only [signedMetadata, transactMetadata, createTxMetadata, createFederationMetadata,
    List.mem_append, List.mem_cons, List.not_mem_nil, or_false, List.mem_map] at h
  rcases h with (rfl | rfl) | (⟨entry, hentry, rfl⟩ | rfl) | rfl | rfl
  · exact .inr (.inr (.inr (.inl rfl)))
  · exact .inr (.inr (.inr (.inr (.inl rfl))))
  · exact .inr (.inr (.inl ⟨entry, hentry, rfl⟩))
  · exact .inr (.inr (.inr (.inr (.inr rfl))))
  · exact .inl rfl
  · exact .inr (.inl rfl)

/-- The metadata of a signed transaction hold its signature. -/
theorem signatureDatom_mem :
    signatureDatom txId made.1 ∈ signedMetadata node txId frontier made := by
  simp [signedMetadata, transactMetadata, createFederationMetadata, signatureDatom]

/-- The metadata of a signed transaction hold its signer. -/
theorem signerDatom_mem : signerDatom txId made.2 ∈ signedMetadata node txId frontier made := by
  simp [signedMetadata, transactMetadata, createFederationMetadata, signerDatom]

/-- The metadata of a signed transaction hold every entry of the frontier. -/
theorem predecessorDatom_mem {entry : NodeId × TxId} (h : entry ∈ frontier.toList) :
    predecessorDatom txId entry.2 ∈ signedMetadata node txId frontier made := by
  simp only [signedMetadata, transactMetadata, createFederationMetadata, List.mem_append,
    List.mem_map]
  exact .inr (.inl (.inl ⟨entry, h, rfl⟩))

/-- Only the signature datom of the engine's metadata gives a bundle a signature. -/
theorem eq_signatureDatom {d : Datom} (h : d ∈ signedMetadata node txId frontier made)
    (hread : (readSignature d).isSome) : d = signatureDatom txId made.1 := by
  rcases mem_signedMetadata h with rfl | rfl | ⟨entry, -, rfl⟩ | hattr | hattr | hattr
  · rfl
  · simp [readSignature, signerDatom] at hread
  · simp [readSignature, predecessorDatom] at hread
  · simp [readSignature, hattr] at hread
  · simp [readSignature, hattr] at hread
  · simp [readSignature, hattr] at hread

/-- Only the signer's datom of the metadata is read as a signer. -/
theorem eq_signerDatom {d : Datom} (h : d ∈ signedMetadata node txId frontier made)
    (hread : (readSigner d).isSome) : d = signerDatom txId made.2 := by
  rcases mem_signedMetadata h with rfl | rfl | ⟨entry, -, rfl⟩ | hattr | hattr | hattr
  · simp [readSigner, signatureDatom] at hread
  · rfl
  · simp [readSigner, predecessorDatom] at hread
  · simp [readSigner, hattr] at hread
  · simp [readSigner, hattr] at hread
  · simp [readSigner, hattr] at hread

/-- The predecessors read from the metadata are the identifiers of the frontier. -/
theorem filterMap_readPredecessor :
    (signedMetadata node txId frontier made).filterMap readPredecessor =
      frontier.toList.map fun entry => txEntityFromTxid entry.2 := by
  have hpredecessor (entry : NodeId × TxId) :
      readPredecessor (predecessorDatom txId entry.2) = some (txEntityFromTxid entry.2) := by
    rw [readPredecessor]
    exact if_pos rfl
  have hpredecessors : (frontier.toList.map fun entry => predecessorDatom txId entry.2).filterMap
      readPredecessor = frontier.toList.map fun entry => txEntityFromTxid entry.2 := by
    rw [List.filterMap_map, ← List.filterMap_eq_map']
    exact List.filterMap_congr fun entry _ => hpredecessor entry
  -- the other attributes are read as something else
  rw [signedMetadata, transactMetadata, createTxMetadata, createFederationMetadata,
    List.filterMap_append, List.filterMap_append, List.filterMap_append]
  show _ ++ ((frontier.toList.map fun entry => predecessorDatom txId entry.2).filterMap
    readPredecessor ++ _ ++ _) = _
  rw [hpredecessors]
  simp [readPredecessor]

/-- The engine's metadata is not signed. -/
theorem isUser_signedMetadata {d : Datom} (h : d ∈ signedMetadata node txId frontier made) :
    d.isUser = false := by
  have hall : ∀ attr ∈ metadataAttributes, isTxMetadata attr = true := by
    decide +kernel
  rw [Datom.isUser, hall d.attr (attr_mem_metadataAttributes h)]
  rfl

end Metadata

namespace Database

section Verifies

variable [Blake3]

/-- What `transact_signed` signs: the datoms before they are stamped, the identifier of the tick,
the frontier and the fingerprint of the store before the transaction. -/
def signingComponents (db : Database) (transaction : Transaction) (txId : TxId) :
    SigningComponents :=
  ⟨transaction.datoms, txId, db.frontier.toList.map fun entry => txEntityFromTxid entry.2,
    db.storeFingerprint⟩

/-- The signature and the signer that `transact_signed` stores. -/
def signature (db : Database) (transaction : Transaction) (key : SigningKey) (txId : TxId) :
    TxSignature × TxSigner :=
  signTransaction (db.signingComponents transaction txId) key

/-- The datoms under an identifier that the engine does not add itself: those that the store held
before and those of the transaction. -/
def Written (db : Database) (transaction : Transaction) (txId : TxId) (d : Datom) : Prop :=
  (d ∈ db.current.datomSet ∧ d.tx = txId) ∨ d ∈ stampDatoms transaction.datoms txId

/-- The bundle will give back what is signed. -/
structure BundleFaithful (db : Database) (transaction : Transaction) (key : SigningKey)
    (txId : TxId) : Prop where
  /-- No user datom is repeated. -/
  distinct : (transaction.datoms.filter Datom.isUser).Nodup
  /-- The store holds no other user datom under the identifier. -/
  alone : ∀ d ∈ db.current.datomSet, d.tx = txId → d.isUser = true →
    d ∈ stampDatoms transaction.datoms txId
  /-- No other predecessor is written under the identifier. -/
  predecessors : ∀ d, db.Written transaction txId d → (readPredecessor d).isSome →
    ∃ entry ∈ db.frontier.toList, d = predecessorDatom txId entry.2
  /-- No other signature is read in place of the engine's. -/
  signature : Unshadowed readSignature
    (signatureDatom txId (db.signature transaction key txId).1) (db.Written transaction txId)
  /-- No other signer is read in place of the engine's. -/
  signer : Unshadowed readSigner
    (signerDatom txId (db.signature transaction key txId).2) (db.Written transaction txId)

variable [Bincode]

/-- The bundle of a signed transaction, from the published store. -/
def signedBundle (db : Database) (env : Env) (transaction : Transaction) (key : SigningKey)
    (txId : TxId) : SignedTransactionBundle :=
  (db.transactSigned env transaction key).2.current.bundle txId

/-- The bundle of a signed transaction gives back the signature, the signer and what was signed,
and it verifies. -/
structure BundleVerifies (ed25519 : Ed25519) (db : Database) (env : Env)
    (transaction : Transaction) (key : SigningKey) (txId : TxId) : Prop where
  signing : (db.signedBundle env transaction key txId).signing =
    some (db.signature transaction key txId)
  tuple : ((db.signedBundle env transaction key txId).components db.storeFingerprint).tuple
      key.verifyingKey = (db.signingComponents transaction txId).tuple key.verifyingKey
  message : signingMessage
      ((db.signedBundle env transaction key txId).components db.storeFingerprint)
      key.verifyingKey = signingMessage (db.signingComponents transaction txId) key.verifyingKey
  verified : verifySignature ed25519
      ((db.signedBundle env transaction key txId).components db.storeFingerprint)
      (db.signature transaction key txId).1 (db.signature transaction key txId).2 = .ok ()

variable {db : Database} {env : Env} {transaction : Transaction} {key : SigningKey} {txId : TxId}

/-- The datoms that the published store holds under the identifier of a signed transaction. -/
def stored (db : Database) (env : Env) (transaction : Transaction) (key : SigningKey)
    (txId : TxId) : List Datom :=
  (db.transactSigned env transaction key).2.current.datoms.filter fun d => d.tx = txId

/-- The datoms of a signed transaction are stored in ascending order. -/
theorem pairwise_stored : (db.stored env transaction key txId).Pairwise (· < ·) :=
  (StoreRepr.pairwise_datoms _).filter _

/-- The datoms of a signed transaction are stored under its identifier. -/
theorem tx_stored {d : Datom} (h : d ∈ db.stored env transaction key txId) : d.tx = txId := by
  have htx := (List.mem_filter.mp h).2
  rwa [decide_eq_true_eq] at htx

/-- They are the written ones and the engine's metadata. -/
theorem mem_stored {receipts : List TxReceipt}
    (hok : (db.transactSigned env transaction key).1 = .ok receipts)
    (htick : (db.clock.tick (env.now 0)).1 = .ok txId) {d : Datom} :
    d ∈ db.stored env transaction key txId ↔ db.Written transaction txId d ∨
      d ∈ signedMetadata transaction.node txId db.frontier
        (db.signature transaction key txId) := by
  have hstored : d ∈ db.stored env transaction key txId ↔
      d ∈ (db.step (.transactSigned transaction key) env).2.current.datomSet ∧ d.tx = txId := by
    rw [stored, List.mem_filter, decide_eq_true_eq, ← List.mem_toFinset, Store.toFinset_datoms]
    rfl
  rcases step_cases db (.transactSigned transaction key) env with
    ⟨e, attached, hstep⟩ | ⟨staged, attached, hstage, hstep⟩
  · have herror : (db.transactSigned env transaction key).1 = .error e := congrArg Prod.fst hstep
    rw [herror] at hok
    cases hok
  · obtain ⟨issued, receipt, hreceipts, hissued, hdatoms, -⟩ := stageTransact_receipt hstage
    rw [hissued] at htick
    cases htick
    obtain ⟨-, hcommits, -⟩ := stage_ok (Prod.ext hstage rfl)
    have hmem : d ∈ staged.store.datomSet ↔
        d ∈ db.current.datomSet ∨ ∃ receipt ∈ staged.receipts, d ∈ receipt.datoms :=
      hcommits.mem_datomSet
    -- the datoms of a transaction are older ones of its identifier, its own, or its metadata
    rw [hstored, hstep]
    show d ∈ staged.store.datomSet ∧ d.tx = txId ↔ _
    rw [hmem, hreceipts]
    simp only [List.mem_singleton, exists_eq_left]
    rw [hdatoms, List.mem_append, Written]
    constructor
    · rintro ⟨hold | hstamped | hmetadata, htx⟩
      · exact .inl (.inl ⟨hold, htx⟩)
      · exact .inl (.inr hstamped)
      · exact .inr hmetadata
    · rintro ((⟨hold, htx⟩ | hstamped) | hmetadata)
      · exact ⟨.inl hold, htx⟩
      · exact ⟨.inr (.inl hstamped), tx_stampDatoms hstamped⟩
      · exact ⟨.inr (.inr hmetadata), tx_transactMetadata hmetadata⟩

/-- The signature and the signer of the bundle are the engine's if they are not shadowed. -/
theorem signing_iff {receipts : List TxReceipt}
    (hok : (db.transactSigned env transaction key).1 = .ok receipts)
    (htick : (db.clock.tick (env.now 0)).1 = .ok txId) :
    (db.signedBundle env transaction key txId).signing =
        some (db.signature transaction key txId) ↔
      Unshadowed readSignature (signatureDatom txId (db.signature transaction key txId).1)
          (db.Written transaction txId) ∧
        Unshadowed readSigner (signerDatom txId (db.signature transaction key txId).2)
          (db.Written transaction txId) := by
  have hsignature := getLast?_iff_unshadowed pairwise_stored
    ((mem_stored hok htick).mpr (.inr signatureDatom_mem))
    (readSignature_signatureDatom txId (db.signature transaction key txId).1)
    (fun d hd hread => ((mem_stored hok htick).mp hd).imp_right fun h =>
      eq_signatureDatom h hread)
    (fun d hd => (mem_stored hok htick).mpr (.inl hd))
  have hsigner := getLast?_iff_unshadowed pairwise_stored
    ((mem_stored hok htick).mpr (.inr signerDatom_mem))
    (readSigner_signerDatom txId (db.signature transaction key txId).2)
    (fun d hd hread => ((mem_stored hok htick).mp hd).imp_right fun h => eq_signerDatom h hread)
    (fun d hd => (mem_stored hok htick).mpr (.inl hd))
  have hsigning := (SignedTransactionBundle.fromStoreDatoms_eq
    (db.stored env transaction key txId) txId).2.2.1
  rw [← hsignature, ← hsigner, ← zipOption_eq_some, ← hsigning]
  rfl

/-- The user datoms of the bundle, in the order of the store. -/
theorem userDatoms_signedBundle :
    ((db.signedBundle env transaction key txId).components db.storeFingerprint).userDatoms =
      (db.stored env transaction key txId).filter Datom.isUser := by
  have hordered : ((db.stored env transaction key txId).filter Datom.isUser).Pairwise (· ≤ ·) :=
    (pairwise_stored.imp le_of_lt).filter _
  have hbundle : (db.signedBundle env transaction key txId).datoms =
      (db.stored env transaction key txId).filter Datom.isUser :=
    (SignedTransactionBundle.fromStoreDatoms_eq (db.stored env transaction key txId) txId).2.1
  show ((db.signedBundle env transaction key txId).datoms.filter Datom.isUser).insertionSort
    (· ≤ ·) = _
  rw [hbundle, List.filter_filter]
  simp only [Bool.and_self]
  exact hordered.insertionSort_eq

/-- The bundle gives back the user datoms if none was repeated and none was there before. -/
theorem userDatoms_iff {receipts : List TxReceipt} (hbuilt : transaction.Built)
    (hok : (db.transactSigned env transaction key).1 = .ok receipts)
    (htick : (db.clock.tick (env.now 0)).1 = .ok txId) :
    ((db.signedBundle env transaction key txId).components db.storeFingerprint).userDatoms.map
        Datom.signed = (db.signingComponents transaction txId).userDatoms.map Datom.signed ↔
      (transaction.datoms.filter Datom.isUser).Nodup ∧
        ∀ d ∈ db.current.datomSet, d.tx = txId → d.isUser = true →
          d ∈ stampDatoms transaction.datoms txId := by
  have hstored (d : Datom) (huser : d.isUser = true) :
      d ∈ db.stored env transaction key txId ↔
        (d ∈ db.current.datomSet ∧ d.tx = txId) ∨ d ∈ stampDatoms transaction.datoms txId := by
    rw [mem_stored hok htick]
    constructor
    · rintro (hwritten | hmetadata)
      · exact hwritten
      · rw [isUser_signedMetadata hmetadata] at huser
        cases huser
    · exact .inl
  rw [userDatoms_signedBundle]
  refine (map_signed_iff pairwise_stored (fun d hd => tx_stored hd) hbuilt.tx hstored).trans ?_
  simp only [and_imp]

/-- The bundle gives back the predecessors if no other was written. -/
theorem sortedPreds_iff {receipts : List TxReceipt} (hdb : db.AnyLife)
    (hok : (db.transactSigned env transaction key).1 = .ok receipts)
    (htick : (db.clock.tick (env.now 0)).1 = .ok txId) :
    ((db.signedBundle env transaction key txId).components db.storeFingerprint).sortedPreds =
        (db.signingComponents transaction txId).sortedPreds ↔
      ∀ d, db.Written transaction txId d → (readPredecessor d).isSome →
        ∃ entry ∈ db.frontier.toList, d = predecessorDatom txId entry.2 := by
  have hpredecessors : (db.signedBundle env transaction key txId).predecessors =
      (db.stored env transaction key txId).filterMap readPredecessor :=
    (SignedTransactionBundle.fromStoreDatoms_eq (db.stored env transaction key txId) txId).2.2.2
  have hnodup : ((signedMetadata transaction.node txId db.frontier
      (db.signature transaction key txId)).filterMap readPredecessor).Nodup := by
    rw [filterMap_readPredecessor]
    exact nodup_predecessors hdb
  have hdistinct : (db.stored env transaction key txId).Nodup :=
    pairwise_stored.imp ne_of_lt
  have hperm := perm_filterMap_iff hdistinct
    (fun d hd => (mem_stored hok htick).mpr (.inr hd)) hnodup
  rw [filterMap_readPredecessor, ← hpredecessors] at hperm
  -- sorted, two lists are equal when they are permutations of each other
  refine insertionSort_eq_iff.trans (hperm.trans ?_)
  constructor
  · intro h d hwritten hread
    have hmetadata := h d ((mem_stored hok htick).mpr (.inl hwritten)) hread
    rcases mem_signedMetadata hmetadata with rfl | rfl | hentry | hattr | hattr | hattr
    · simp [readPredecessor, signatureDatom] at hread
    · simp [readPredecessor, signerDatom] at hread
    · exact hentry
    · simp [readPredecessor, hattr] at hread
    · simp [readPredecessor, hattr] at hread
    · simp [readPredecessor, hattr] at hread
  · intro h d hd hread
    rcases (mem_stored hok htick).mp hd with hwritten | hmetadata
    · obtain ⟨entry, hentry, rfl⟩ := h d hwritten hread
      exact predecessorDatom_mem hentry
    · exact hmetadata

/-- The bundle of a signed transaction verifies exactly if the transaction repeats no user datom,
nothing else is stored under its identifier and no metadata that the user wrote is read in place
of the engine's. -/
theorem bundle_verifies_iff {ed25519 : Ed25519} {receipts : List TxReceipt} (hdb : db.AnyLife)
    (hbuilt : transaction.Built) (hcorrect : ed25519.Correct key)
    (hok : (db.transactSigned env transaction key).1 = .ok receipts)
    (htick : (db.clock.tick (env.now 0)).1 = .ok txId) :
    db.BundleVerifies ed25519 env transaction key txId ↔
      db.BundleFaithful transaction key txId := by
  have huser := userDatoms_iff hbuilt hok htick
  have hpreds := sortedPreds_iff hdb hok htick
  have hsigning := signing_iff hok htick
  constructor
  · rintro ⟨hbundle, htuple, -, -⟩
    obtain ⟨hdistinct, halone⟩ := huser.mp (congrArg SigningTuple.datoms htuple)
    obtain ⟨hsignature, hsigner⟩ := hsigning.mp hbundle
    exact ⟨hdistinct, halone, hpreds.mp (congrArg SigningTuple.predecessors htuple), hsignature,
      hsigner⟩
  · rintro ⟨hdistinct, halone, hpredecessors, hsignature, hsigner⟩
    have htuple : ((db.signedBundle env transaction key txId).components
        db.storeFingerprint).tuple key.verifyingKey =
          (db.signingComponents transaction txId).tuple key.verifyingKey :=
      SigningTuple.ext (huser.mpr ⟨hdistinct, halone⟩) rfl (hpreds.mpr hpredecessors) rfl rfl
    have hmessage : signingMessage
        ((db.signedBundle env transaction key txId).components db.storeFingerprint)
        key.verifyingKey =
          signingMessage (db.signingComponents transaction txId) key.verifyingKey := by
      rw [signingMessage_eq, signingMessage_eq, signingPreimage_eq, signingPreimage_eq, htuple]
    refine ⟨hsigning.mpr ⟨hsignature, hsigner⟩, htuple, hmessage, ?_⟩
    obtain ⟨verifyingKey, hkey, hverify⟩ := hcorrect
    show verifySignature ed25519 _ (key.sign _) key.verifyingKey = .ok ()
    rw [verifySignature, hkey]
    simp only
    rw [hmessage, hverify]

end Verifies

end Database

namespace Sample

/-- A signature scheme in which the signature of a message is the message. -/
def echo : Ed25519 :=
  ⟨Unit, fun _ => .ok (), fun _ message signature =>
    if signature.val = (message ++ List.replicate 64 0).take 64 then .ok ()
    else .error "signature error"⟩

/-- A key of the scheme. -/
def echoKey : SigningKey :=
  ⟨signer, fun message => ⟨(message ++ List.replicate 64 0).take 64, by simp⟩⟩

/-- The echo scheme verifies what it signs. -/
theorem correct_echo : echo.Correct echoKey :=
  ⟨(), rfl, fun _ => if_pos rfl⟩

/-- The scheme rejects the signature of another message. -/
theorem echo_rejects [Blake3] {a b : SigningComponents}
    (h : signingMessage a signer ≠ signingMessage b signer) :
    verifySignature echo a (echoKey.sign (signingMessage b signer)) signer ≠ .ok () := by
  have hfirst (components : SigningComponents) :
      ((signingMessage components signer ++ List.replicate 64 0).take 64).take 32 =
        signingMessage components signer := by
    rw [List.take_take, signingMessage_eq]
    exact List.take_left' (Blake3.hash _).property
  have hdiffer : ¬ (signingMessage b signer ++ List.replicate 64 0).take 64 =
      (signingMessage a signer ++ List.replicate 64 0).take 64 := by
    intro hsame
    have htake := congrArg (List.take 32) hsame
    rw [hfirst, hfirst] at htake
    exact h htake.symm
  have hverify : echo.verify () (signingMessage a signer)
      (echoKey.sign (signingMessage b signer)) = .error "signature error" :=
    if_neg hdiffer
  have hkey : echo.fromBytes signer = .ok () := rfl
  rw [verifySignature, hkey]
  simp only [hverify]
  exact fun h => (nomatch h)

/-- The document with its datom written twice. -/
def twice : Transaction :=
  document.assertDatom (EntityId.fromContent [1]) "db/doc" (.string "x")

/-- The document transaction is one the builder returns. -/
theorem built_document : document.Built :=
  .assertDatom (EntityId.fromContent [1]) "db/doc" (.string "x") (.new NodeId.zero)

/-- The transaction with a repeated datom is one the builder returns. -/
theorem built_twice : twice.Built :=
  .assertDatom _ _ _ built_document

/-- The genesis database starts a life. -/
theorem anyLife_genesis : Database.genesis.AnyLife :=
  .opened (show Opening.genesis.database = .ok Database.genesis from rfl) trivial

/-- The first identifier of the genesis database at time 1. -/
theorem tick_genesis :
    (Database.genesis.clock.tick ((working 1).now 0)).1 = .ok ⟨1, 0, NodeId.zero⟩ := by
  rfl

/-- Both sample transactions commit on the genesis database. -/
theorem committed_samples :
    (Database.genesis.transactSigned (working 1) document echoKey).1.toOption.map List.length =
        some 1 ∧
      (Database.genesis.transactSigned (working 1) twice echoKey).1.toOption.map List.length =
        some 1 := by
  decide +kernel

end Sample

open Sample

namespace Database

/-- User datoms on a store without datoms give a bundle no metadata. -/
theorem readNone_of_empty {db : Database} (hempty : db.current.datomSet = ∅)
    {transaction : Transaction} (huser : ∀ d ∈ transaction.datoms, d.isUser = true) {txId : TxId}
    {d : Datom} (hd : db.Written transaction txId d) :
    readSignature d = none ∧ readSigner d = none ∧ readPredecessor d = none := by
  rcases hd with ⟨hold, -⟩ | hstamped
  · rw [hempty] at hold
    exact absurd hold (Finset.notMem_empty d)
  · obtain ⟨original, horiginal, rfl⟩ := List.mem_map.mp hstamped
    have hattr := huser original horiginal
    rw [Datom.isUser, Bool.not_eq_true'] at hattr
    exact readNone_of_user hattr

/-- A transaction of distinct user datoms on a store without datoms. -/
theorem bundleFaithful_of_empty {db : Database} (hempty : db.current.datomSet = ∅)
    {transaction : Transaction} (hdistinct : transaction.datoms.Nodup)
    (huser : ∀ d ∈ transaction.datoms, d.isUser = true) (key : SigningKey) (txId : TxId) :
    db.BundleFaithful transaction key txId := by
  have hread (d : Datom) (hd : db.Written transaction txId d) :=
    readNone_of_empty hempty huser hd
  refine ⟨hdistinct.filter _, fun d hd => ?_, fun d hd hsome => ?_, fun d hd hsome => ?_,
    fun d hd hsome => ?_⟩
  · rw [hempty] at hd
    exact absurd hd (Finset.notMem_empty d)
  · rw [(hread d hd).2.2] at hsome
    cases hsome
  · rw [(hread d hd).1] at hsome
    cases hsome
  · rw [(hread d hd).2.1] at hsome
    cases hsome

/-- The bundle of the document transaction verifies. -/
theorem bundle_verifies_iff_document :
    genesis.BundleVerifies echo (working 1) document echoKey ⟨1, 0, NodeId.zero⟩ := by
  obtain ⟨receipts, hok, -⟩ := exists_ok_of_length committed_samples.1
  refine (bundle_verifies_iff anyLife_genesis built_document correct_echo hok tick_genesis).mpr ?_
  refine bundleFaithful_of_empty Store.datomSet_genesis (List.nodup_singleton _) ?_ _ _
  intro d hd
  rw [List.mem_singleton.mp hd]
  decide +kernel

section Repeated

variable {db : Database} {env : Env} {transaction : Transaction} {key : SigningKey} {txId : TxId}

/-- The user datoms that an empty store holds after a transaction. -/
theorem filter_stored_of_empty (hempty : db.current.datomSet = ∅) {receipts : List TxReceipt}
    (hok : (db.transactSigned env transaction key).1 = .ok receipts)
    (htick : (db.clock.tick (env.now 0)).1 = .ok txId) :
    (db.stored env transaction key txId).filter Datom.isUser =
      sortDedup ((stampDatoms transaction.datoms txId).filter Datom.isUser) := by
  refine eq_of_toFinset_eq (pairwise_stored.filter _) (pairwise_sortDedup _) ?_
  ext d
  rw [toFinset_sortDedup, List.mem_toFinset, List.mem_toFinset, List.mem_filter, List.mem_filter,
    mem_stored hok htick, Written, hempty]
  constructor
  · rintro ⟨((⟨hold, -⟩ | hstamped) | hmetadata), huser⟩
    · exact absurd hold (Finset.notMem_empty d)
    · exact ⟨hstamped, huser⟩
    · rw [isUser_signedMetadata hmetadata] at huser
      cases huser
  · rintro ⟨hstamped, huser⟩
    exact ⟨.inl (.inr hstamped), huser⟩

/-- The signing message of the bundle of a transaction of user datoms on an empty store. -/
theorem signingMessage_of_empty (hdb : db.AnyLife) (hempty : db.current.datomSet = ∅)
    (huser : ∀ d ∈ transaction.datoms, d.isUser = true) {receipts : List TxReceipt}
    (hok : (db.transactSigned env transaction key).1 = .ok receipts)
    (htick : (db.clock.tick (env.now 0)).1 = .ok txId) :
    signingMessage ((db.signedBundle env transaction key txId).components db.storeFingerprint)
        key.verifyingKey =
      (Blake3.hash (SigningTuple.stream
        ⟨(sortDedup ((stampDatoms transaction.datoms txId).filter Datom.isUser)).map Datom.signed,
          txId, (db.signingComponents transaction txId).sortedPreds, db.storeFingerprint,
          key.verifyingKey⟩)).val := by
  have hpreds := (sortedPreds_iff hdb hok htick).mpr fun d hd hsome => by
    rw [(readNone_of_empty hempty huser hd).2.2] at hsome
    cases hsome
  have hdatoms : ((db.signedBundle env transaction key txId).components
      db.storeFingerprint).userDatoms.map Datom.signed =
        (sortDedup ((stampDatoms transaction.datoms txId).filter Datom.isUser)).map
          Datom.signed := by
    rw [userDatoms_signedBundle, filter_stored_of_empty hempty hok htick]
  have htuple : ((db.signedBundle env transaction key txId).components
      db.storeFingerprint).tuple key.verifyingKey = ⟨_, _, _, _, _⟩ :=
    SigningTuple.ext hdatoms rfl hpreds rfl rfl
  rw [signingMessage_eq, signingPreimage_eq, htuple]
  rfl

end Repeated

/-- Every datom of the samples is the user's. -/
theorem isUser_samples :
    (∀ d ∈ document.datoms, d.isUser = true) ∧ ∀ d ∈ twice.datoms, d.isUser = true := by
  decide +kernel

/-- The message of the repeated datom's bundle is not the one that was signed. -/
theorem message_twice :
    (Blake3.hash (SigningTuple.stream
        ⟨(sortDedup ((stampDatoms twice.datoms ⟨1, 0, NodeId.zero⟩).filter Datom.isUser)).map
          Datom.signed, ⟨1, 0, NodeId.zero⟩,
          (genesis.signingComponents twice ⟨1, 0, NodeId.zero⟩).sortedPreds,
          genesis.storeFingerprint, echoKey.verifyingKey⟩)).val ≠
      signingMessage (genesis.signingComponents twice ⟨1, 0, NodeId.zero⟩)
        echoKey.verifyingKey := by
  decide +kernel

/-- A transaction that repeats a datom is signed with both copies and stored with one, so its
signature does not verify. -/
theorem repeated_datom_unverified :
    genesis.AnyLife ∧ twice.Built ∧
      validateDatoms genesis.current.schema twice.datoms = .ok () ∧ echo.Correct echoKey ∧
      (∃ receipts, (genesis.transactSigned (working 1) twice echoKey).1 = .ok receipts) ∧
      (genesis.clock.tick ((working 1).now 0)).1 = .ok ⟨1, 0, NodeId.zero⟩ ∧
      verifySignature echo
        ((genesis.signedBundle (working 1) twice echoKey ⟨1, 0, NodeId.zero⟩).components
          genesis.storeFingerprint)
        (genesis.signature twice echoKey ⟨1, 0, NodeId.zero⟩).1
        (genesis.signature twice echoKey ⟨1, 0, NodeId.zero⟩).2 ≠ .ok () := by
  obtain ⟨receipts, hok, -⟩ := exists_ok_of_length committed_samples.2
  have hmessage := signingMessage_of_empty anyLife_genesis Store.datomSet_genesis
    isUser_samples.2 hok tick_genesis
  refine ⟨anyLife_genesis, built_twice, rfl, correct_echo, ⟨receipts, hok⟩, tick_genesis, ?_⟩
  have hdiffer := message_twice
  rw [← hmessage] at hdiffer
  exact echo_rejects hdiffer

end Database

end Ferratomic
