import Ferratomic.Datom

/-!
# Secondary indexes

The sorted-vector backend that the write-active representation keeps for each of the four sort
orders. Insertion appends and marks the vector unsorted; sorting is deferred and drops entries
with a repeated key.
-/

namespace Ferratomic

open Lib

/-- An index backed by a vector of entries that is sorted on demand. -/
structure SortedVecBackend (K V : Type) where
  entries : List (K × V)
  sorted : Bool

namespace SortedVecBackend

variable {K V : Type} [LinearOrder K]

/-- The empty backend, which counts as sorted. -/
def empty : SortedVecBackend K V := ⟨[], true⟩

/-- `backend_insert`: append an entry. -/
def insert (backend : SortedVecBackend K V) (key : K) (value : V) : SortedVecBackend K V :=
  ⟨backend.entries ++ [(key, value)], false⟩

/-- `dedup_by` on the keys: keep the first entry of each run of equal keys. -/
def dedupByKey : List (K × V) → List (K × V)
  | [] => []
  | [x] => [x]
  | x :: y :: rest => if x.1 = y.1 then dedupByKey (x :: rest) else x :: dedupByKey (y :: rest)
termination_by entries => entries.length

/-- `sort`: sort by key and drop repeated keys, unless already sorted. -/
def sort (backend : SortedVecBackend K V) : SortedVecBackend K V :=
  if backend.sorted then backend
  else ⟨dedupByKey (backend.entries.insertionSort fun x y => x.1 ≤ y.1), true⟩

end SortedVecBackend

/-- Entity, attribute, value, transaction, operation. -/
abbrev EavtKey := EntityId ×ₗ Attribute ×ₗ Value ×ₗ TxId ×ₗ Op

/-- Attribute, entity, value, transaction, operation. -/
abbrev AevtKey := Attribute ×ₗ EntityId ×ₗ Value ×ₗ TxId ×ₗ Op

/-- Value, attribute, entity, transaction, operation. -/
abbrev VaetKey := Value ×ₗ Attribute ×ₗ EntityId ×ₗ TxId ×ₗ Op

/-- Attribute, value, entity, transaction, operation. -/
abbrev AvetKey := Attribute ×ₗ Value ×ₗ EntityId ×ₗ TxId ×ₗ Op

/-- `EavtKey::from_datom` -/
def EavtKey.fromDatom (d : Datom) : EavtKey :=
  toLex (d.entity, toLex (d.attr, toLex (d.value, toLex (d.tx, d.op))))

/-- `AevtKey::from_datom` -/
def AevtKey.fromDatom (d : Datom) : AevtKey :=
  toLex (d.attr, toLex (d.entity, toLex (d.value, toLex (d.tx, d.op))))

/-- `VaetKey::from_datom` -/
def VaetKey.fromDatom (d : Datom) : VaetKey :=
  toLex (d.value, toLex (d.attr, toLex (d.entity, toLex (d.tx, d.op))))

/-- `AvetKey::from_datom` -/
def AvetKey.fromDatom (d : Datom) : AvetKey :=
  toLex (d.attr, toLex (d.value, toLex (d.entity, toLex (d.tx, d.op))))

/-- Datoms of the same EAVT key are equal. -/
theorem EavtKey.fromDatom_injective : Function.Injective EavtKey.fromDatom := by
  intro a b h
  simp only [EavtKey.fromDatom, EmbeddingLike.apply_eq_iff_eq, Prod.mk.injEq] at h
  obtain ⟨hentity, hattr, hvalue, htx, hop⟩ := h
  exact Datom.ext hentity hattr hvalue htx hop

/-- Datoms of the same AEVT key are equal. -/
theorem AevtKey.fromDatom_injective : Function.Injective AevtKey.fromDatom := by
  intro a b h
  simp only [AevtKey.fromDatom, EmbeddingLike.apply_eq_iff_eq, Prod.mk.injEq] at h
  obtain ⟨hattr, hentity, hvalue, htx, hop⟩ := h
  exact Datom.ext hentity hattr hvalue htx hop

/-- Datoms of the same VAET key are equal. -/
theorem VaetKey.fromDatom_injective : Function.Injective VaetKey.fromDatom := by
  intro a b h
  simp only [VaetKey.fromDatom, EmbeddingLike.apply_eq_iff_eq, Prod.mk.injEq] at h
  obtain ⟨hvalue, hattr, hentity, htx, hop⟩ := h
  exact Datom.ext hentity hattr hvalue htx hop

/-- Datoms of the same AVET key are equal. -/
theorem AvetKey.fromDatom_injective : Function.Injective AvetKey.fromDatom := by
  intro a b h
  simp only [AvetKey.fromDatom, EmbeddingLike.apply_eq_iff_eq, Prod.mk.injEq] at h
  obtain ⟨hattr, hvalue, hentity, htx, hop⟩ := h
  exact Datom.ext hentity hattr hvalue htx hop

/-- The four secondary indexes. -/
structure SortedVecIndexes where
  eavt : SortedVecBackend EavtKey Datom
  aevt : SortedVecBackend AevtKey Datom
  vaet : SortedVecBackend VaetKey Datom
  avet : SortedVecBackend AvetKey Datom

namespace SortedVecIndexes

/-- `insert`: add a datom to every index. -/
def insert (indexes : SortedVecIndexes) (d : Datom) : SortedVecIndexes :=
  ⟨indexes.eavt.insert (EavtKey.fromDatom d) d, indexes.aevt.insert (AevtKey.fromDatom d) d,
    indexes.vaet.insert (VaetKey.fromDatom d) d, indexes.avet.insert (AvetKey.fromDatom d) d⟩

/-- `from_datoms`: insert every datom into empty indexes. -/
def fromDatoms (datoms : List Datom) : SortedVecIndexes :=
  datoms.foldl insert ⟨.empty, .empty, .empty, .empty⟩

/-- `sort_all`: sort every index. -/
def sortAll (indexes : SortedVecIndexes) : SortedVecIndexes :=
  ⟨indexes.eavt.sort, indexes.aevt.sort, indexes.vaet.sort, indexes.avet.sort⟩

end SortedVecIndexes

end Ferratomic
