import Ferratomic.Db.Lifetimes
import Ferratomic.Db.Signing
import Ferratomic.Validate

/-!
# Signed transaction bundles

A transaction is signed as a list of datoms before it is stored, and verified from the set of
datoms that the store holds under its identifier. The bundle takes the user datoms from this set
and reads the signature, the signer and the predecessors off the attributes of the others.
`bundleLoop_spec` says what the loop collects, and the last two sections say when the collected
readings and user datoms are those of what was signed.
-/

namespace Ferratomic

open Lib

/-- `ProvenanceType::from_keyword` -/
def ProvenanceType.fromKeyword (keyword : String) : Option ProvenanceType :=
  if keyword = "provenance/hypothesized" then some .hypothesized
  else if keyword = "provenance/inferred" then some .inferred
  else if keyword = "provenance/derived" then some .derived
  else if keyword = "provenance/observed" then some .observed
  else none

/-- `SignedTransactionBundle` -/
structure SignedTransactionBundle where
  txId : TxId
  datoms : List Datom
  signing : Option (TxSignature × TxSigner)
  predecessors : List EntityId
  provenance : Option ProvenanceType

/-- `is_tx_metadata` -/
def isTxMetadata (attr : Attribute) : Bool :=
  attr.startsWith "tx/"

/-- The slots that `extract_metadata` fills. -/
structure MetadataSlots where
  signature : Option TxSignature
  signer : Option TxSigner
  provenance : Option ProvenanceType
  predecessors : List EntityId

/-- `<[u8; N]>::try_from`: the blob, if it has the length. -/
def fixedBytes (width : Nat) (blob : Bytes) : Option (FixedBytes width) :=
  if h : blob.length = width then some ⟨blob, h⟩ else none

/-- `extract_metadata` -/
def extractMetadata (slots : MetadataSlots) (d : Datom) : MetadataSlots :=
  if d.attr = "tx/signature" then
    match d.value with
    | .bytes blob =>
        match fixedBytes 64 blob with
        | some signature => { slots with signature := some signature }
        | none => slots
    | _ => slots
  else if d.attr = "tx/signer" then
    match d.value with
    | .bytes blob =>
        match fixedBytes 32 blob with
        | some signer => { slots with signer := some signer }
        | none => slots
    | _ => slots
  else if d.attr = "tx/provenance" then
    match d.value with
    | .keyword keyword => { slots with provenance := ProvenanceType.fromKeyword keyword }
    | _ => slots
  else if d.attr = "tx/predecessor" then
    match d.value with
    | .ref entity => { slots with predecessors := slots.predecessors ++ [entity] }
    | _ => slots
  else slots

/-- `Option::zip` -/
def zipOption {α β : Type} : Option α → Option β → Option (α × β)
  | some a, some b => some (a, b)
  | _, _ => none

/-- A pair is there exactly when both parts are. -/
theorem zipOption_eq_some {α β : Type} {a : Option α} {b : Option β} {pair : α × β} :
    zipOption a b = some pair ↔ a = some pair.1 ∧ b = some pair.2 := by
  cases a with
  | none => simp [zipOption]
  | some a =>
      cases b with
      | none => simp [zipOption]
      | some b => simp [zipOption, Prod.ext_iff]

/-- The loop of `from_store_datoms`. -/
def bundleLoop (collected : List Datom × MetadataSlots) :
    List Datom → List Datom × MetadataSlots
  | [] => collected
  | d :: rest =>
      if isTxMetadata d.attr then bundleLoop (collected.1, extractMetadata collected.2 d) rest
      else bundleLoop (collected.1 ++ [d], collected.2) rest

/-- `SignedTransactionBundle::from_store_datoms` -/
def SignedTransactionBundle.fromStoreDatoms (datoms : List Datom) (txId : TxId) :
    SignedTransactionBundle :=
  let collected := bundleLoop ([], ⟨none, none, none, []⟩) datoms
  ⟨txId, collected.1, zipOption collected.2.signature collected.2.signer,
    collected.2.predecessors, collected.2.provenance⟩

/-- An implementation of Ed25519: the verifying key of a signer and the verification of a
signature, with the texts of their errors. -/
structure Ed25519 where
  VerifyingKey : Type
  fromBytes : TxSigner → Except String VerifyingKey
  verify : VerifyingKey → Bytes → TxSignature → Except String Unit

/-- The signatures that a key makes verify under its verifying key. -/
def Ed25519.Correct (ed25519 : Ed25519) (key : SigningKey) : Prop :=
  ∃ verifyingKey, ed25519.fromBytes key.verifyingKey = .ok verifyingKey ∧
    ∀ message, ed25519.verify verifyingKey message (key.sign message) = .ok ()

section Verification

variable [Blake3]

/-- `verify_signature` -/
def verifySignature (ed25519 : Ed25519) (components : SigningComponents)
    (signature : TxSignature) (signer : TxSigner) : Except FerraError Unit :=
  match ed25519.fromBytes signer with
  | .error e => .error (.signatureInvalid ("invalid signer public key: " ++ e))
  | .ok verifyingKey =>
      match ed25519.verify verifyingKey (signingMessage components signer) signature with
      | .error e => .error (.signatureInvalid ("Ed25519 verification failed: " ++ e))
      | .ok () => .ok ()

/-- The components to verify a bundle with, given the fingerprint that was signed. -/
def SignedTransactionBundle.components (bundle : SignedTransactionBundle)
    (storeFingerprint : Hash) : SigningComponents :=
  ⟨bundle.datoms, bundle.txId, bundle.predecessors, storeFingerprint⟩

/-- The bundle of a transaction, from all datoms that the store holds under its identifier. -/
def Store.bundle (store : Store) (txId : TxId) : SignedTransactionBundle :=
  .fromStoreDatoms (store.datoms.filter fun d => d.tx = txId) txId

end Verification

section Loop

/-- The signature that a datom gives a bundle. -/
def readSignature (d : Datom) : Option TxSignature :=
  if d.attr = "tx/signature" then
    match d.value with
    | .bytes blob => fixedBytes 64 blob
    | _ => none
  else none

/-- The signer that a datom gives a bundle. -/
def readSigner (d : Datom) : Option TxSigner :=
  if d.attr = "tx/signer" then
    match d.value with
    | .bytes blob => fixedBytes 32 blob
    | _ => none
  else none

/-- The predecessor that a datom gives a bundle. -/
def readPredecessor (d : Datom) : Option EntityId :=
  if d.attr = "tx/predecessor" then
    match d.value with
    | .ref entity => some entity
    | _ => none
  else none

/-- A datom with an attribute that the bundle does not read. -/
theorem readNone_of_attr {d : Datom} (hsignature : d.attr ≠ "tx/signature")
    (hsigner : d.attr ≠ "tx/signer") (hpredecessor : d.attr ≠ "tx/predecessor") :
    readSignature d = none ∧ readSigner d = none ∧ readPredecessor d = none :=
  ⟨if_neg hsignature, if_neg hsigner, if_neg hpredecessor⟩

/-- What a metadata datom gives a bundle: the last signature and signer count, and every
predecessor. -/
theorem extractMetadata_reads (slots : MetadataSlots) (d : Datom) :
    (extractMetadata slots d).signature = (readSignature d).or slots.signature ∧
      (extractMetadata slots d).signer = (readSigner d).or slots.signer ∧
      (extractMetadata slots d).predecessors =
        slots.predecessors ++ (readPredecessor d).toList := by
  unfold extractMetadata
  -- one attribute after the other, as the source matches them; at most one slot changes
  by_cases hsignature : d.attr = "tx/signature"
  · have hsigner : readSigner d = none := by simp [readSigner, hsignature]
    have hpredecessor : readPredecessor d = none := by simp [readPredecessor, hsignature]
    rw [if_pos hsignature, hsigner, hpredecessor, readSignature, if_pos hsignature]
    cases d.value with
    | bytes blob => cases hfixed : fixedBytes 64 blob <;> simp [hfixed]
    | _ => simp
  · rw [if_neg hsignature]
    by_cases hsigner : d.attr = "tx/signer"
    · have hnone : readSignature d = none := by simp [readSignature, hsigner]
      have hpredecessor : readPredecessor d = none := by simp [readPredecessor, hsigner]
      rw [if_pos hsigner, hnone, hpredecessor, readSigner, if_pos hsigner]
      cases d.value with
      | bytes blob => cases hfixed : fixedBytes 32 blob <;> simp [hfixed]
      | _ => simp
    · rw [if_neg hsigner]
      by_cases hprovenance : d.attr = "tx/provenance"
      · have hpredecessor : d.attr ≠ "tx/predecessor" := by simp [hprovenance]
        obtain ⟨hread, hread', hread''⟩ := readNone_of_attr hsignature hsigner hpredecessor
        rw [if_pos hprovenance, hread, hread', hread'']
        cases d.value <;> simp
      · rw [if_neg hprovenance]
        by_cases hpredecessor : d.attr = "tx/predecessor"
        · have hnone : readSignature d = none := by simp [readSignature, hpredecessor]
          have hnone' : readSigner d = none := by simp [readSigner, hpredecessor]
          rw [if_pos hpredecessor, hnone, hnone', readPredecessor, if_pos hpredecessor]
          cases d.value <;> simp
        · obtain ⟨hread, hread', hread''⟩ := readNone_of_attr hsignature hsigner hpredecessor
          rw [if_neg hpredecessor, hread, hread', hread'']
          simp

/-- A user datom gives a bundle no metadata. -/
theorem readNone_of_user {d : Datom} (h : isTxMetadata d.attr = false) :
    readSignature d = none ∧ readSigner d = none ∧ readPredecessor d = none := by
  have hprefixed : isTxMetadata "tx/signature" = true ∧ isTxMetadata "tx/signer" = true ∧
      isTxMetadata "tx/predecessor" = true := by
    decide +kernel
  refine readNone_of_attr ?_ ?_ ?_
  · intro hattr
    rw [hattr, hprefixed.1] at h
    cases h
  · intro hattr
    rw [hattr, hprefixed.2.1] at h
    cases h
  · intro hattr
    rw [hattr, hprefixed.2.2] at h
    cases h

/-- The loop collects the user datoms, the last of each singular field and every predecessor. -/
theorem bundleLoop_spec (collected : List Datom × MetadataSlots) (datoms : List Datom) :
    (bundleLoop collected datoms).1 =
        collected.1 ++ datoms.filter (fun d => ! isTxMetadata d.attr) ∧
      (bundleLoop collected datoms).2.signature =
        (datoms.filterMap readSignature).getLast?.or collected.2.signature ∧
      (bundleLoop collected datoms).2.signer =
        (datoms.filterMap readSigner).getLast?.or collected.2.signer ∧
      (bundleLoop collected datoms).2.predecessors =
        collected.2.predecessors ++ datoms.filterMap readPredecessor := by
  -- a later reading replaces an earlier one
  have hlast {α : Type} (read first : Option α) (rest : List α) :
      rest.getLast?.or (read.or first) = (read.toList ++ rest).getLast?.or first := by
    rw [List.getLast?_append, Option.or_assoc]
    cases read <;> rfl
  have hread {α : Type} (read : Datom → Option α) (d : Datom) (rest : List Datom) :
      (d :: rest).filterMap read = (read d).toList ++ rest.filterMap read := by
    cases h : read d <;> simp [h]
  induction datoms generalizing collected with
  | nil => simp [bundleLoop]
  | cons d rest ih =>
      unfold bundleLoop
      rw [hread readSignature, hread readSigner, hread readPredecessor]
      by_cases hmetadata : isTxMetadata d.attr = true
      · obtain ⟨hsignature, hsigner, hpredecessors⟩ := extractMetadata_reads collected.2 d
        obtain ⟨ihdatoms, ihsignature, ihsigner, ihpredecessors⟩ :=
          ih (collected.1, extractMetadata collected.2 d)
        rw [if_pos hmetadata, List.filter_cons_of_neg (by simp [hmetadata])]
        refine ⟨ihdatoms, ?_, ?_, ?_⟩
        · rw [ihsignature, ← hlast, ← hsignature]
        · rw [ihsigner, ← hlast, ← hsigner]
        · rw [ihpredecessors, hpredecessors, List.append_assoc]
      · have huser : isTxMetadata d.attr = false := Bool.eq_false_iff.mpr hmetadata
        obtain ⟨hsignature, hsigner, hpredecessor⟩ := readNone_of_user huser
        rw [if_neg hmetadata, hsignature, hsigner, hpredecessor,
          List.filter_cons_of_pos (by simp [huser])]
        obtain ⟨ihdatoms, ihsignature, ihsigner, ihpredecessors⟩ :=
          ih (collected.1 ++ [d], collected.2)
        refine ⟨?_, ihsignature, ihsigner, ihpredecessors⟩
        rw [ihdatoms, List.append_assoc, List.singleton_append]

/-- A bundle in terms of the datoms that it is built from. -/
theorem SignedTransactionBundle.fromStoreDatoms_eq (datoms : List Datom) (txId : TxId) :
    (fromStoreDatoms datoms txId).txId = txId ∧
      (fromStoreDatoms datoms txId).datoms = datoms.filter (fun d => ! isTxMetadata d.attr) ∧
      (fromStoreDatoms datoms txId).signing =
        zipOption (datoms.filterMap readSignature).getLast?
          (datoms.filterMap readSigner).getLast? ∧
      (fromStoreDatoms datoms txId).predecessors = datoms.filterMap readPredecessor := by
  obtain ⟨hdatoms, hsignature, hsigner, hpredecessors⟩ :=
    bundleLoop_spec ([], ⟨none, none, none, []⟩) datoms
  simp only [Option.or_none, List.nil_append] at hdatoms hsignature hsigner hpredecessors
  refine ⟨rfl, hdatoms, ?_, hpredecessors⟩
  rw [fromStoreDatoms, hsignature, hsigner]

end Loop

section Readings

/-- The last reading of a stored list is the engine's own, unless the greatest of the written
datoms above it reads differently. -/
def Unshadowed {α : Type} (read : Datom → Option α) (own : Datom) (written : Datom → Prop) :
    Prop :=
  ∀ d, written d → (read d).isSome → own < d →
    (∀ other, written other → (read other).isSome → other ≤ d) → read d = read own

/-- The engine's own datom is read last exactly when nothing written shadows it. -/
theorem getLast?_iff_unshadowed {α : Type} {read : Datom → Option α} {own : Datom}
    {written : Datom → Prop} {stored : List Datom} (hsorted : stored.Pairwise (· < ·))
    (hown : own ∈ stored) {value : α} (hread : read own = some value)
    (hstored : ∀ d ∈ stored, (read d).isSome → written d ∨ d = own)
    (hwritten : ∀ d, written d → d ∈ stored) :
    (stored.filterMap read).getLast? = some value ↔ Unshadowed read own written := by
  -- the greatest stored datom with a reading decides
  have hcandidate : own ∈ (stored.filter fun d => (read d).isSome).toFinset := by
    rw [List.mem_toFinset, List.mem_filter, hread]
    exact ⟨hown, rfl⟩
  obtain ⟨last, hlast, hmax⟩ := Finset.exists_max_image _ (fun d : Datom => d) ⟨own, hcandidate⟩
  rw [List.mem_toFinset, List.mem_filter] at hlast
  obtain ⟨hmem, hsome⟩ := hlast
  have hmax' : ∀ d ∈ stored, (read d).isSome → d ≤ last := by
    intro d hd hd'
    exact hmax d (List.mem_toFinset.mpr (List.mem_filter.mpr ⟨hd, hd'⟩))
  obtain ⟨final, hfinal⟩ := Option.isSome_iff_exists.mp hsome
  rw [getLast?_filterMap hsorted hmem hfinal hmax', Option.some.injEq]
  constructor
  · rintro rfl d hd hread' hlt habove
    rcases hstored last hmem hsome with hlastWritten | hlastOwn
    · have hlast : d = last :=
        le_antisymm (hmax' d (hwritten d hd) hread') (habove last hlastWritten hsome)
      rw [hlast, hfinal, hread]
    · rw [hlastOwn] at hmax'
      exact absurd hlt (not_lt.mpr (hmax' d (hwritten d hd) hread'))
  · intro hunshadowed
    rcases hstored last hmem hsome with hlastWritten | hlastOwn
    · have hle := hmax' own hown (by rw [hread]; rfl)
      rcases hle.lt_or_eq with hlt | hsame
      · have hsame := hunshadowed last hlastWritten hsome hlt
          fun other hother hread' => hmax' other (hwritten other hother) hread'
        rw [hfinal, hread] at hsame
        exact Option.some.inj hsame
      · rw [← hsame, hread] at hfinal
        exact (Option.some.inj hfinal).symm
    · rw [hlastOwn, hread] at hfinal
      exact (Option.some.inj hfinal).symm

/-- The readings of a stored list are those of its part if no other datom has one. -/
theorem perm_filterMap_iff {α β : Type} [DecidableEq α] {read : α → Option β}
    {stored own : List α} (hstored : stored.Nodup) (hsubset : own ⊆ stored)
    (hown : (own.filterMap read).Nodup) :
    (stored.filterMap read).Perm (own.filterMap read) ↔
      ∀ d ∈ stored, (read d).isSome → d ∈ own := by
  have hfilter (items : List α) :
      (items.filter fun d => (read d).isSome).map read = (items.filterMap read).map some := by
    induction items with
    | nil => rfl
    | cons d rest ih => cases hread : read d <;> simp [hread, ih]
  have hnodup : (own.filter fun d => (read d).isSome).Nodup := by
    refine List.Nodup.of_map read ?_
    rw [hfilter]
    exact hown.map (Option.some_injective _)
  have hsub : (own.filter fun d => (read d).isSome) ⊆ stored.filter fun d => (read d).isSome :=
    List.filter_subset _ hsubset
  have hlength (items : List α) :
      (items.filter fun d => (read d).isSome).length = (items.filterMap read).length := by
    have h := congrArg List.length (hfilter items)
    rwa [List.length_map, List.length_map] at h
  constructor
  · intro hperm d hd hread
    -- the readable items of `own` are among those of `stored`, and as many
    have hpermFilter := (List.subperm_of_subset hnodup hsub).perm_of_length_le
      (by rw [hlength, hlength, hperm.length_eq])
    have hmem := hpermFilter.mem_iff.mpr (List.mem_filter.mpr ⟨hd, hread⟩)
    exact (List.mem_filter.mp hmem).1
  · intro hall
    have hpermFilter : (stored.filter fun d => (read d).isSome).Perm
        (own.filter fun d => (read d).isSome) := by
      refine (List.perm_ext_iff_of_nodup (hstored.filter _) hnodup).mpr fun d => ?_
      rw [List.mem_filter, List.mem_filter]
      exact ⟨fun h => ⟨hall d h.1 h.2, h.2⟩, fun h => ⟨hsubset h.1, h.2⟩⟩
    have hmap := hpermFilter.map read
    rw [hfilter, hfilter] at hmap
    exact (List.map_perm_map_iff (Option.some_injective _)).mp hmap

end Readings

section UserDatoms

/-- A datom that is signed. -/
def Datom.isUser (d : Datom) : Bool :=
  ! isTxMetadata d.attr

/-- The datom as it is stored. -/
def stampDatom (txId : TxId) (d : Datom) : Datom :=
  { d with tx := txId }

/-- Datoms with one timestamp keep their order under stamping. -/
theorem stampDatom_le {txId : TxId} {a b : Datom} (h : a.tx = b.tx) :
    a ≤ b ↔ stampDatom txId a ≤ stampDatom txId b := by
  show a.sortKey ≤ b.sortKey ↔ (stampDatom txId a).sortKey ≤ (stampDatom txId b).sortKey
  simp only [Datom.sortKey, stampDatom, Prod.Lex.toLex_le_toLex, h, lt_self_iff_false, true_and,
    false_or]

/-- Datoms of one transaction that are stamped alike are equal. -/
theorem stampDatom_injOn {txId : TxId} {a b : Datom} (h : a.tx = b.tx)
    (heq : stampDatom txId a = stampDatom txId b) : a = b := by
  have hback (d : Datom) : stampDatom d.tx (stampDatom txId d) = d := rfl
  rw [← hback a, ← hback b, heq, h]

/-- A list of datoms with one timestamp is known from the signed fields. -/
theorem eq_of_map_signed {txId : TxId} {left right : List Datom}
    (hleft : ∀ d ∈ left, d.tx = txId) (hright : ∀ d ∈ right, d.tx = txId)
    (h : left.map Datom.signed = right.map Datom.signed) : left = right := by
  have hback (items : List Datom) (hitems : ∀ d ∈ items, d.tx = txId) :
      (items.map Datom.signed).map (fun fields : SignedFields =>
        (⟨fields.1, fields.2.1, fields.2.2.1, txId, fields.2.2.2⟩ : Datom)) = items := by
    rw [List.map_map]
    refine (List.map_congr_left fun d hd => ?_).trans (List.map_id _)
    show (⟨d.entity, d.attr, d.value, txId, d.op⟩ : Datom) = d
    rw [← hitems d hd]
  rw [← hback left hleft, ← hback right hright, h]

/-- The stored user datoms are the signed ones if none was repeated and no other was stored. -/
theorem map_signed_iff {written stored : List Datom} {placeholder txId : TxId}
    {old : Datom → Prop} (hsorted : stored.Pairwise (· < ·)) (htx : ∀ d ∈ stored, d.tx = txId)
    (hplaceholder : ∀ d ∈ written, d.tx = placeholder)
    (hstored : ∀ d, d.isUser = true → (d ∈ stored ↔ old d ∨ d ∈ stampDatoms written txId)) :
    (stored.filter Datom.isUser).map Datom.signed =
        ((written.filter Datom.isUser).insertionSort (· ≤ ·)).map Datom.signed ↔
      (written.filter Datom.isUser).Nodup ∧
        ∀ d, old d → d.isUser = true → d ∈ stampDatoms written txId := by
  -- the signed datoms as they are stored
  have htimestamps : ∀ a ∈ written.filter Datom.isUser, ∀ b ∈ written.filter Datom.isUser,
      a.tx = b.tx := by
    intro a ha b hb
    rw [hplaceholder a (List.mem_filter.mp ha).1, hplaceholder b (List.mem_filter.mp hb).1]
  have hsort : ((written.filter Datom.isUser).insertionSort (· ≤ ·)).map (stampDatom txId) =
      ((written.filter Datom.isUser).map (stampDatom txId)).insertionSort (· ≤ ·) :=
    List.map_insertionSort _ _ _ _ fun a ha b hb => stampDatom_le (htimestamps a ha b hb)
  have hsigned : ((written.filter Datom.isUser).insertionSort (· ≤ ·)).map Datom.signed =
      (((written.filter Datom.isUser).map (stampDatom txId)).insertionSort (· ≤ ·)).map
        Datom.signed := by
    rw [← hsort, List.map_map]
    rfl
  have hmem (d : Datom) : d ∈ (written.filter Datom.isUser).map (stampDatom txId) ↔
      d ∈ stampDatoms written txId ∧ d.isUser = true := by
    constructor
    · intro h
      obtain ⟨original, horiginal, rfl⟩ := List.mem_map.mp h
      obtain ⟨hwritten, huser⟩ := List.mem_filter.mp horiginal
      exact ⟨List.mem_map_of_mem hwritten, huser⟩
    · rintro ⟨h, huser⟩
      obtain ⟨original, horiginal, rfl⟩ := List.mem_map.mp h
      exact List.mem_map.mpr ⟨original, List.mem_filter.mpr ⟨horiginal, huser⟩, rfl⟩
  have hnodup : ((written.filter Datom.isUser).map (stampDatom txId)).Nodup ↔
      (written.filter Datom.isUser).Nodup :=
    ⟨List.Nodup.of_map _, fun h => h.map_on fun a ha b hb heq =>
      stampDatom_injOn (htimestamps a ha b hb) heq⟩
  have hstoredNodup : (stored.filter Datom.isUser).Nodup :=
    (hsorted.imp ne_of_lt).filter _
  rw [hsigned, ← hnodup]
  constructor
  · intro h
    have heq := eq_of_map_signed (fun d hd => htx d (List.mem_filter.mp hd).1) (fun d hd => ?_) h
    · have hperm : (stored.filter Datom.isUser).Perm
          ((written.filter Datom.isUser).map (stampDatom txId)) := by
        rw [heq]
        exact List.perm_insertionSort _ _
      refine ⟨hperm.nodup_iff.mp hstoredNodup, fun d hold huser => ?_⟩
      have hd : d ∈ stored.filter Datom.isUser :=
        List.mem_filter.mpr ⟨(hstored d huser).mpr (.inl hold), huser⟩
      exact ((hmem d).mp (hperm.mem_iff.mp hd)).1
    · exact tx_stampDatoms ((hmem d).mp ((List.mem_insertionSort _).mp hd)).1
  · rintro ⟨hwritten, hold⟩
    have hperm : (stored.filter Datom.isUser).Perm
        ((written.filter Datom.isUser).map (stampDatom txId)) := by
      refine (List.perm_ext_iff_of_nodup hstoredNodup hwritten).mpr fun d => ?_
      rw [hmem, List.mem_filter]
      constructor
      · rintro ⟨hd, huser⟩
        rcases (hstored d huser).mp hd with hd | hd
        · exact ⟨hold d hd huser, huser⟩
        · exact ⟨hd, huser⟩
      · rintro ⟨hd, huser⟩
        exact ⟨(hstored d huser).mpr (.inr hd), huser⟩
    have hordered : (stored.filter Datom.isUser).Pairwise (· ≤ ·) :=
      (hsorted.imp le_of_lt).filter _
    rw [← insertionSort_eq_iff.mpr hperm, hordered.insertionSort_eq]

end UserDatoms

end Ferratomic
