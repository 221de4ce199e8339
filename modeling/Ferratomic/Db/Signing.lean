import Ferratomic.Canonical
import Ferratomic.Db.Basic

/-!
# What a signature binds

The signing message of a transaction is the hash of its user datoms, its identifier, its
predecessors, the fingerprint of the store and the signer, one after the other. The datoms can be
told apart, but neither their number nor that of the predecessors is part of the stream. So two
different transactions can have the same message: one whose last datoms, read as bytes, are the
identifier and the predecessors of the other. The main theorem, `distinguished_iff`, says that
there is no other way.
-/

namespace Ferratomic

open Lib

/-- What a signature is made for: the sorted user datoms without their timestamps, the
identifier, the sorted predecessors, the fingerprint and the signer. -/
@[ext]
structure SigningTuple where
  datoms : List SignedFields
  txId : TxId
  predecessors : List EntityId
  storeFingerprint : Hash
  signer : TxSigner

/-- The user datoms in order. -/
def SigningComponents.userDatoms (components : SigningComponents) : List Datom :=
  (components.datoms.filter fun d => ! d.attr.startsWith "tx/").insertionSort (· ≤ ·)

/-- The predecessors in order. -/
def SigningComponents.sortedPreds (components : SigningComponents) : List EntityId :=
  components.predecessorEntityIds.insertionSort (· ≤ ·)

/-- The tuple that the components and a signer stand for. -/
def SigningComponents.tuple (components : SigningComponents) (signerPk : TxSigner) :
    SigningTuple :=
  ⟨components.userDatoms.map Datom.signed, components.txId, components.sortedPreds,
    components.storeFingerprint, signerPk⟩

/-- The bytes that `signing_message` feeds to the hash. -/
def signingPreimage (components : SigningComponents) (signerPk : TxSigner) : Bytes :=
  components.userDatoms.flatMap Datom.signingFields ++ components.txId.canonicalBytes ++
    components.sortedPreds.flatMap (fun eid => eid.val) ++ components.storeFingerprint.val ++
    signerPk.val

/-- The message is the hash of the preimage. -/
theorem signingMessage_eq [Blake3] (components : SigningComponents) (signerPk : TxSigner) :
    signingMessage components signerPk = (Blake3.hash (signingPreimage components signerPk)).val :=
  rfl

/-- The user datoms fit the canonical layout. -/
def SigningComponents.Encodable (components : SigningComponents) : Prop :=
  ∀ d ∈ components.userDatoms, d.signed.Encodable

/-- The stream of a tuple. -/
def SigningTuple.stream (tuple : SigningTuple) : Bytes :=
  tuple.datoms.flatMap signingBytes ++ tuple.txId.canonicalBytes ++
    tuple.predecessors.flatMap (fun eid => eid.val) ++ tuple.storeFingerprint.val ++
    tuple.signer.val

/-- The preimage is the stream of the signed tuple. -/
theorem signingPreimage_eq (components : SigningComponents) (signerPk : TxSigner) :
    signingPreimage components signerPk = (components.tuple signerPk).stream := by
  rw [SigningTuple.stream, SigningComponents.tuple, List.flatMap_map]
  rfl

/-- The streams of two transactions that differ are different. -/
def Distinguished (a b : SigningComponents) (signerA signerB : TxSigner) : Prop :=
  a.tuple signerA ≠ b.tuple signerB →
    signingPreimage a signerA ≠ signingPreimage b signerB

/-- The first transaction has the datoms of the second and more, and these, followed by its
identifier and predecessors, are the bytes of the identifier and predecessors of the second. -/
def SigningTuple.Aliases (a b : SigningTuple) : Prop :=
  a.storeFingerprint = b.storeFingerprint ∧ a.signer = b.signer ∧
    ∃ extra, extra ≠ [] ∧ a.datoms = b.datoms ++ extra ∧
      extra.flatMap signingBytes ++ a.txId.canonicalBytes ++
          a.predecessors.flatMap (fun eid => eid.val) =
        b.txId.canonicalBytes ++ b.predecessors.flatMap (fun eid => eid.val)

section Streams

/-- An identifier has 28 canonical bytes. -/
theorem TxId.length_canonicalBytes (tx : TxId) : tx.canonicalBytes.length = 28 := by
  rw [TxId.canonicalBytes, List.length_append, List.length_append, length_leBytes, length_leBytes,
    tx.node.property]

/-- Identifiers of the same canonical bytes are equal. -/
theorem TxId.canonicalBytes_injective : Function.Injective TxId.canonicalBytes := by
  intro a b h
  have hbytes (tx : TxId) : Bincode.txId.encode tx = tx.canonicalBytes :=
    (List.append_assoc _ _ _).symm
  have hread := Bincode.txId.selfDelimiting a b ⟨trivial, trivial, trivial⟩
    ⟨trivial, trivial, trivial⟩ [] []
  rw [hbytes, hbytes, h] at hread
  exact (hread rfl).1

/-- The predecessors are told apart by their width. -/
theorem flatMap_val_injective :
    Function.Injective fun preds : List EntityId => preds.flatMap fun eid => eid.val := by
  -- whichever list goes on, its bytes would be none
  have hne (extra : List EntityId) (hextra : extra ≠ []) :
      extra.flatMap (fun eid => eid.val) ++ [] ≠ [] := by
    obtain ⟨eid, rest, rfl⟩ := List.exists_cons_of_ne_nil hextra
    intro hnil
    have hlength := congrArg List.length hnil
    rw [List.append_nil, List.flatMap_cons, List.length_append, eid.property,
      List.length_nil] at hlength
    omega
  intro left right h
  have heq : left.flatMap (Codec.bytes 32).encode ++ [] =
      right.flatMap (Codec.bytes 32).encode ++ [] := by
    rw [List.append_nil, List.append_nil]
    exact h
  rcases (Codec.bytes 32).selfDelimiting.flatMap_cases (fun _ _ => trivial) (fun _ _ => trivial)
    heq with ⟨hsame, -⟩ | ⟨extra, hextra, -, hrest⟩ | ⟨extra, hextra, -, hrest⟩
  · exact hsame
  · exact absurd hrest (hne extra hextra)
  · exact absurd hrest (hne extra hextra)

/-- The fingerprint and the signer end the stream. -/
theorem SigningTuple.stream_inj {a b : SigningTuple} (h : a.stream = b.stream) :
    a.datoms.flatMap signingBytes ++ (a.txId.canonicalBytes ++
        a.predecessors.flatMap (fun eid => eid.val)) =
      b.datoms.flatMap signingBytes ++ (b.txId.canonicalBytes ++
        b.predecessors.flatMap (fun eid => eid.val)) ∧
      a.storeFingerprint = b.storeFingerprint ∧ a.signer = b.signer := by
  obtain ⟨hfront, hsigner⟩ := List.append_inj' h (by rw [a.signer.property, b.signer.property])
  obtain ⟨hbody, hfingerprint⟩ := List.append_inj' hfront
    (by rw [a.storeFingerprint.property, b.storeFingerprint.property])
  rw [List.append_assoc, List.append_assoc] at hbody
  exact ⟨hbody, Subtype.ext hfingerprint, Subtype.ext hsigner⟩

/-- A transaction has the stream of the one it aliases, and differs from it. -/
theorem SigningTuple.Aliases.stream_eq {a b : SigningTuple} (h : a.Aliases b) :
    a.stream = b.stream ∧ a ≠ b := by
  obtain ⟨hfingerprint, hsigner, extra, hne, hdatoms, hbytes⟩ := h
  constructor
  · unfold SigningTuple.stream
    rw [hfingerprint, hsigner, hdatoms, List.flatMap_append, List.append_assoc _ _
      (b.predecessors.flatMap _), ← hbytes]
    simp only [List.append_assoc]
  · rintro rfl
    exact hne (List.self_eq_append_right.mp hdatoms)

/-- Tuples with the same stream are the same, or one aliases the other. -/
theorem SigningTuple.eq_or_aliases {a b : SigningTuple}
    (ha : ∀ fields ∈ a.datoms, SignedFields.Encodable fields)
    (hb : ∀ fields ∈ b.datoms, SignedFields.Encodable fields) (h : a.stream = b.stream) :
    a = b ∨ a.Aliases b ∨ b.Aliases a := by
  obtain ⟨hbody, hfingerprint, hsigner⟩ := SigningTuple.stream_inj h
  rcases selfDelimiting_signingBytes.flatMap_cases ha hb hbody with
    ⟨hdatoms, hrest⟩ | ⟨extra, hne, hdatoms, hrest⟩ | ⟨extra, hne, hdatoms, hrest⟩
  · obtain ⟨htx, hpreds⟩ := List.append_inj hrest
      (by rw [TxId.length_canonicalBytes, TxId.length_canonicalBytes])
    exact .inl (SigningTuple.ext hdatoms (TxId.canonicalBytes_injective htx)
      (flatMap_val_injective hpreds) hfingerprint hsigner)
  · rw [← List.append_assoc] at hrest
    exact .inr (.inl ⟨hfingerprint, hsigner, extra, hne, hdatoms, hrest⟩)
  · rw [← List.append_assoc] at hrest
    exact .inr (.inr ⟨hfingerprint.symm, hsigner.symm, extra, hne, hdatoms, hrest⟩)

/-- A transaction that aliases another has more datoms and fewer predecessors. -/
theorem SigningTuple.Aliases.lengths {a b : SigningTuple} (h : a.Aliases b) :
    b.datoms.length < a.datoms.length ∧ a.predecessors.length < b.predecessors.length := by
  obtain ⟨-, -, extra, hne, hdatoms, hbytes⟩ := h
  have hwidth (preds : List EntityId) :
      (preds.flatMap fun eid => eid.val).length = 32 * preds.length := by
    induction preds with
    | nil => rfl
    | cons eid preds ih =>
        rw [List.flatMap_cons, List.length_append, ih, eid.property, List.length_cons]
        omega
  have hpos : 0 < (extra.flatMap signingBytes).length := by
    obtain ⟨fields, rest, rfl⟩ := List.exists_cons_of_ne_nil hne
    rw [List.flatMap_cons, List.length_append, signingBytes, List.length_append]
    exact Nat.add_pos_left (Nat.succ_pos _) _
  have hlength := congrArg List.length hbytes
  rw [List.length_append, List.length_append, List.length_append, TxId.length_canonicalBytes,
    TxId.length_canonicalBytes, hwidth, hwidth] at hlength
  rw [hdatoms, List.length_append]
  have hextra := List.length_pos_of_ne_nil hne
  omega

end Streams

/-- The streams of two transactions differ whenever the transactions do, exactly if neither
aliases the other. -/
theorem distinguished_iff {a b : SigningComponents} (signerA signerB : TxSigner)
    (ha : a.Encodable) (hb : b.Encodable) :
    Distinguished a b signerA signerB ↔
      ¬ (a.tuple signerA).Aliases (b.tuple signerB) ∧
        ¬ (b.tuple signerB).Aliases (a.tuple signerA) := by
  have hencodable {components : SigningComponents} (h : components.Encodable)
      (signer : TxSigner) :
      ∀ fields ∈ (components.tuple signer).datoms, SignedFields.Encodable fields := by
    intro fields hfields
    obtain ⟨d, hd, rfl⟩ := List.mem_map.mp hfields
    exact h d hd
  unfold Distinguished
  rw [signingPreimage_eq, signingPreimage_eq]
  constructor
  · intro h
    constructor
    · intro haliases
      obtain ⟨hstream, hne⟩ := haliases.stream_eq
      exact h hne hstream
    · intro haliases
      obtain ⟨hstream, hne⟩ := haliases.stream_eq
      exact h hne.symm hstream.symm
  · rintro ⟨hleft, hright⟩ hne hstream
    rcases SigningTuple.eq_or_aliases (hencodable ha signerA) (hencodable hb signerB) hstream with
      hsame | haliases | haliases
    · exact hne hsame
    · exact hleft haliases
    · exact hright haliases

namespace Sample

/-- The entity of the documents below. -/
def documentEntity : EntityId :=
  ⟨List.replicate 32 7, List.length_replicate⟩

/-- The author of a document. -/
def author : Datom :=
  ⟨documentEntity, "document/author", .bool true, ⟨0, 0, NodeId.zero⟩, .assert⟩

/-- A second datom of the document, of 64 bytes. -/
def description : Datom :=
  ⟨documentEntity, "document/description", .long ⟨2 ^ 43, by decide⟩, ⟨0, 0, NodeId.zero⟩,
    .assert⟩

/-- A signer. -/
def signer : TxSigner :=
  ⟨List.replicate 32 1, List.length_replicate⟩

/-- A transaction of both datoms, without predecessors. -/
def twoDatoms : SigningComponents :=
  ⟨[author, description], ⟨0, 0, NodeId.zero⟩, [], zeroHash⟩

/-- A transaction of the first datom, whose identifier and predecessors are the bytes of the
second and of the identifier of the other transaction. -/
def oneDatom : SigningComponents :=
  ⟨[author], ⟨0x0707070707070707, 0x07070707, ⟨List.replicate 16 7, List.length_replicate⟩⟩,
    [⟨(signingBytes description.signed).drop 28 |>.take 32, by decide +kernel⟩,
      ⟨(signingBytes description.signed).drop 60 ++ List.replicate 28 0, by decide +kernel⟩],
    zeroHash⟩

/-- A transaction of the first datom, without predecessors. -/
def firstDatom : SigningComponents :=
  ⟨[author], ⟨0, 0, NodeId.zero⟩, [], zeroHash⟩

/-- The user datoms and predecessors of the samples. -/
theorem userDatoms_samples :
    twoDatoms.userDatoms = [author, description] ∧ oneDatom.userDatoms = [author] ∧
      firstDatom.userDatoms = [author] ∧
      oneDatom.sortedPreds = oneDatom.predecessorEntityIds := by
  decide +kernel

/-- The author datom is encodable. -/
theorem encodable_author : author.signed.Encodable :=
  ⟨by decide +kernel, trivial⟩

/-- The components with two datoms are encodable. -/
theorem encodable_twoDatoms : twoDatoms.Encodable := by
  intro d hd
  rw [userDatoms_samples.1] at hd
  rcases List.mem_pair.mp hd with rfl | rfl
  · exact encodable_author
  · exact ⟨by decide +kernel, trivial⟩

/-- Components whose only user datom is the author are encodable. -/
theorem encodable_of_author {components : SigningComponents}
    (h : components.userDatoms = [author]) : components.Encodable := by
  intro d hd
  rw [h] at hd
  rw [List.mem_singleton.mp hd]
  exact encodable_author

end Sample

/-- Two datoms and one of them are distinguished by their messages. -/
theorem distinguished_iff_firstDatom :
    Distinguished Sample.twoDatoms Sample.firstDatom Sample.signer Sample.signer := by
  refine (distinguished_iff Sample.signer Sample.signer Sample.encodable_twoDatoms
    (Sample.encodable_of_author Sample.userDatoms_samples.2.2.1)).mpr ⟨fun h => ?_, fun h => ?_⟩
  -- neither has predecessors
  · exact absurd h.lengths.2 (by decide +kernel)
  · exact absurd h.lengths.2 (by decide +kernel)

/-- Two transactions that differ in their datoms, identifiers and predecessors and share their
stream. -/
theorem transactions_share_stream :
    Sample.twoDatoms.Encodable ∧ Sample.oneDatom.Encodable ∧
      Sample.twoDatoms.userDatoms = [Sample.author, Sample.description] ∧
      Sample.oneDatom.userDatoms = [Sample.author] ∧
      Sample.oneDatom.sortedPreds = Sample.oneDatom.predecessorEntityIds ∧
      ¬ Distinguished Sample.twoDatoms Sample.oneDatom Sample.signer Sample.signer := by
  obtain ⟨htwo, hone, -, hpreds⟩ := Sample.userDatoms_samples
  have hstream : signingPreimage Sample.twoDatoms Sample.signer =
      signingPreimage Sample.oneDatom Sample.signer := by
    decide +kernel
  refine ⟨Sample.encodable_twoDatoms, Sample.encodable_of_author hone, htwo, hone, hpreds,
    fun h => h ?_ hstream⟩
  intro hsame
  have hlength := congrArg (fun tuple : SigningTuple => tuple.datoms.length) hsame
  simp only [SigningComponents.tuple, List.length_map, htwo, hone] at hlength
  cases hlength

end Ferratomic
