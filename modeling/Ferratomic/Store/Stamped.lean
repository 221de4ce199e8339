import Ferratomic.Store.Apply

/-!
# Stamped datoms

A receipt holds the datoms of its transaction under the transaction's identifier, and metadata. The
main result, `extractAttributeDef_stamped`, says that the attributes that the receipt defines are
those that the transaction defines.
-/

namespace Ferratomic

open Lib

section Metadata

variable [Blake3]

/-- The attributes of transaction metadata. -/
def metadataAttributes : List Attribute :=
  ["tx/time", "tx/origin", "tx/predecessor", "tx/provenance", "tx/signature", "tx/signer"]

/-- Metadata datoms have the attributes of metadata. -/
theorem attr_mem_metadataAttributes {node : NodeId} {ctx : TransactContext} {d : Datom}
    (h : d ∈ transactMetadata node ctx) : d.attr ∈ metadataAttributes := by
  simp only [transactMetadata, createTxMetadata, createFederationMetadata, List.mem_append,
    List.mem_cons, List.not_mem_nil, or_false] at h
  rcases h with (rfl | rfl) | (h | rfl) | h
  · simp [metadataAttributes]
  · simp [metadataAttributes]
  · cases hfrontier : ctx.frontier with
    | none => simp [hfrontier] at h
    | some known =>
        simp only [hfrontier, List.mem_map] at h
        obtain ⟨entry, -, rfl⟩ := h
        simp [metadataAttributes]
  · simp [metadataAttributes]
  · cases hsigning : ctx.signing with
    | none => simp [hsigning] at h
    | some signing =>
        simp only [hsigning, List.mem_cons, List.not_mem_nil, or_false] at h
        rcases h with rfl | rfl
        · simp [metadataAttributes]
        · simp [metadataAttributes]

/-- The datoms of a receipt are those of a transaction, stamped, and metadata. -/
def Stamped (transaction : Transaction) (receipt : TxReceipt) : Prop :=
  ∃ txId metadata, receipt.datoms = stampDatoms transaction.datoms txId ++ metadata ∧
    ∀ d ∈ metadata, d.attr ∈ metadataAttributes

end Metadata

section Inert

/-- A datom that no attribute definition is read from. -/
def Inert (d : Datom) : Prop :=
  d.attr ≠ "db/ident" ∧ d.attr ≠ "db/valueType" ∧ d.attr ≠ "db/cardinality"

/-- No attribute definition is read from metadata. -/
theorem inert_of_metadata {d : Datom} (h : d.attr ∈ metadataAttributes) : Inert d := by
  simp only [metadataAttributes, List.mem_cons, List.not_mem_nil, or_false] at h
  rcases h with h | h | h | h | h | h <;> rw [Inert, h] <;> decide

/-- An inert datom leaves what was read of a definition. -/
theorem extractStep_inert {d : Datom} (h : Inert d) (seen : PartialDef) :
    extractStep seen d = .ok seen := by
  obtain ⟨hident, htype, hcard⟩ := h
  unfold extractStep
  split
  case h_1 => rfl
  case h_2 => rw [if_neg hident, if_neg htype, if_neg hcard]

/-- Inert datoms leave what was read of a definition. -/
theorem foldlM_extractStep_inert {items : List Datom} (h : ∀ d ∈ items, Inert d)
    (seen : PartialDef) : items.foldlM extractStep seen = .ok seen := by
  induction items with
  | nil => rfl
  | cons d items ih =>
      rw [List.foldlM_cons, extractStep_inert (h d List.mem_cons_self)]
      exact ih fun d hd => h d (List.mem_cons_of_mem _ hd)

/-- Inert datoms define no attribute. -/
theorem extractAttributeDef_inert {items : List Datom} (h : ∀ d ∈ items, Inert d) :
    extractAttributeDef items = .ok none := by
  rw [extractAttributeDef, foldlM_extractStep_inert h]
  rfl

/-- Datoms that define no attribute pass evolution. -/
theorem evolveSchema_inert {items : List Datom} (h : ∀ d ∈ items, Inert d) (order : IterOrder)
    (schema : Schema) : (evolveSchema order schema items).1 = .ok () := by
  refine evolveSchema_ok_iff.mpr fun group hgroup => ⟨none, extractAttributeDef_inert ?_⟩
  obtain ⟨first, -, rfl⟩ := mem_groupByEntity.mp hgroup
  intro d hd
  exact h d (List.mem_filter.mp hd).1

/-- Stamping changes nothing that definitions are read from. -/
theorem foldlM_extractStep_stampDatoms (items : List Datom) (txId : TxId) (seen : PartialDef) :
    (stampDatoms items txId).foldlM extractStep seen = items.foldlM extractStep seen := by
  rw [stampDatoms, List.foldlM_map]
  rfl

/-- The identifier and the metadata of a transaction play no part in the attributes it defines. -/
theorem extractAttributeDef_stamped {transaction : Transaction} {receipt : TxReceipt}
    (h : Stamped transaction receipt) (entity : EntityId) :
    extractAttributeDef (receipt.datoms.filter (·.entity = entity)) =
      extractAttributeDef (transaction.datoms.filter (·.entity = entity)) := by
  obtain ⟨txId, metadata, hdatoms, hmetadata⟩ := h
  have hfilter : (stampDatoms transaction.datoms txId).filter (·.entity = entity) =
      stampDatoms (transaction.datoms.filter (·.entity = entity)) txId := by
    rw [stampDatoms, stampDatoms, List.filter_map]
    rfl
  have hinert : ∀ d ∈ metadata.filter (·.entity = entity), Inert d := fun d hd =>
    inert_of_metadata (hmetadata d (List.mem_of_mem_filter hd))
  have hfold (seen : PartialDef) :
      (receipt.datoms.filter (·.entity = entity)).foldlM extractStep seen =
        (transaction.datoms.filter (·.entity = entity)).foldlM extractStep seen := by
    rw [hdatoms, List.filter_append, hfilter, List.foldlM_append,
      foldlM_extractStep_stampDatoms]
    simp only [foldlM_extractStep_inert hinert]
    exact bind_pure _
  rw [extractAttributeDef, extractAttributeDef, hfold]

/-- A stamped transaction defines no attribute twice when the one written does not. -/
theorem DistinctIdents.of_stamped {transaction : Transaction} {receipt : TxReceipt}
    (hdistinct : DistinctIdents transaction.datoms) (h : Stamped transaction receipt) :
    DistinctIdents receipt.datoms := by
  intro e₁ e₂ attr d₁ d₂ h₁ h₂
  rw [extractAttributeDef_stamped h] at h₁ h₂
  exact hdistinct e₁ e₂ attr d₁ d₂ h₁ h₂

end Inert

end Ferratomic
