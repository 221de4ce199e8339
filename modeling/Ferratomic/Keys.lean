import Ferratomic.Index
import Ferratomic.Lib.BinarySearch

/-!
# Comparing keys with datoms

A key is compared with the fields of a datom one by one, without building the key of the datom. The
main theorems say that this is the comparison with that key (`EavtKey.cmpDatom_eq` and its
siblings).
-/

namespace Ferratomic

open Lib

/-- `Ord::cmp` of the order of a type. -/
def ordCmp {α : Type} [LinearOrder α] (a b : α) : Ordering :=
  compare a b

/-- `EavtKey::cmp_datom` -/
def EavtKey.cmpDatom (key : EavtKey) (d : Datom) : Ordering :=
  let (entity, rest) := ofLex key
  let (attr, rest) := ofLex rest
  let (value, rest) := ofLex rest
  let (tx, op) := ofLex rest
  (ordCmp entity d.entity).then ((ordCmp attr d.attr).then ((ordCmp value d.value).then
    ((ordCmp tx d.tx).then (ordCmp op d.op))))

/-- `EavtKey::entity` -/
def EavtKey.entity (key : EavtKey) : EntityId :=
  (ofLex key).1

/-- `AevtKey::cmp_datom` -/
def AevtKey.cmpDatom (key : AevtKey) (d : Datom) : Ordering :=
  let (attr, rest) := ofLex key
  let (entity, rest) := ofLex rest
  let (value, rest) := ofLex rest
  let (tx, op) := ofLex rest
  (ordCmp attr d.attr).then ((ordCmp entity d.entity).then ((ordCmp value d.value).then
    ((ordCmp tx d.tx).then (ordCmp op d.op))))

/-- `VaetKey::cmp_datom` -/
def VaetKey.cmpDatom (key : VaetKey) (d : Datom) : Ordering :=
  let (value, rest) := ofLex key
  let (attr, rest) := ofLex rest
  let (entity, rest) := ofLex rest
  let (tx, op) := ofLex rest
  (ordCmp value d.value).then ((ordCmp attr d.attr).then ((ordCmp entity d.entity).then
    ((ordCmp tx d.tx).then (ordCmp op d.op))))

/-- `AvetKey::cmp_datom` -/
def AvetKey.cmpDatom (key : AvetKey) (d : Datom) : Ordering :=
  let (attr, rest) := ofLex key
  let (value, rest) := ofLex rest
  let (entity, rest) := ofLex rest
  let (tx, op) := ofLex rest
  (ordCmp attr d.attr).then ((ordCmp value d.value).then ((ordCmp entity d.entity).then
    ((ordCmp tx d.tx).then (ordCmp op d.op))))

/-- Comparing pairs field by field is comparing the pairs. -/
theorem then_ordCmp {α β : Type} [LinearOrder α] [LinearOrder β] (a c : α) (b d : β) :
    (ordCmp a c).then (ordCmp b d) = ordCmp (toLex (a, b)) (toLex (c, d)) := by
  unfold ordCmp
  rcases lt_trichotomy a c with hlt | rfl | hgt
  · have hpair : toLex (a, b) < toLex (c, d) := Prod.Lex.toLex_lt_toLex.mpr (.inl hlt)
    rw [compare_lt_iff_lt.mpr hlt, compare_lt_iff_lt.mpr hpair]
    rfl
  · rw [compare_eq_iff_eq.mpr (rfl : a = a), Ordering.eq_then]
    rcases lt_trichotomy b d with hlt | rfl | hgt
    · have hpair : toLex (a, b) < toLex (a, d) := Prod.Lex.toLex_lt_toLex.mpr (.inr ⟨rfl, hlt⟩)
      rw [compare_lt_iff_lt.mpr hlt, compare_lt_iff_lt.mpr hpair]
    · rw [compare_eq_iff_eq.mpr (rfl : b = b),
        compare_eq_iff_eq.mpr (rfl : toLex (a, b) = toLex (a, b))]
    · have hpair : toLex (a, d) < toLex (a, b) := Prod.Lex.toLex_lt_toLex.mpr (.inr ⟨rfl, hgt⟩)
      rw [compare_gt_iff_gt.mpr hgt, compare_gt_iff_gt.mpr hpair]
  · have hpair : toLex (c, d) < toLex (a, b) := Prod.Lex.toLex_lt_toLex.mpr (.inl hgt)
    rw [compare_gt_iff_gt.mpr hgt, compare_gt_iff_gt.mpr hpair]
    rfl

/-- Comparing the other way around. -/
theorem swap_ordCmp {α : Type} [LinearOrder α] (a b : α) : (ordCmp a b).swap = ordCmp b a := by
  unfold ordCmp
  rcases lt_trichotomy a b with hlt | rfl | hgt
  · rw [compare_lt_iff_lt.mpr hlt, compare_gt_iff_gt.mpr hlt]
    rfl
  · rw [compare_eq_iff_eq.mpr (rfl : a = a)]
    rfl
  · rw [compare_gt_iff_gt.mpr hgt, compare_lt_iff_lt.mpr hgt]
    rfl

/-- A reversed comparison accepts exactly the key itself. -/
theorem swap_ordCmp_eq_iff {α : Type} [LinearOrder α] {a b : α} :
    (ordCmp a b).swap = .eq ↔ b = a := by
  rw [swap_ordCmp]
  exact compare_eq_iff_eq

/-- Items whose keys ascend strictly ascend past every key. -/
theorem ascends_ordCmp {α κ : Type} [LinearOrder κ] {read : α → κ} {items : List α}
    (h : items.Pairwise fun x y => read x < read y) (key : κ) :
    Ascends (fun item => (ordCmp key (read item)).swap) items := by
  simp only [swap_ordCmp]
  exact ascends_compare h key

/-- Comparing with a datom is comparing with its EAVT key. -/
theorem EavtKey.cmpDatom_eq (key : EavtKey) (d : Datom) :
    key.cmpDatom d = ordCmp key (EavtKey.fromDatom d) := by
  simp only [cmpDatom, then_ordCmp]
  rfl

/-- Comparing with a datom is comparing with its AEVT key. -/
theorem AevtKey.cmpDatom_eq (key : AevtKey) (d : Datom) :
    key.cmpDatom d = ordCmp key (AevtKey.fromDatom d) := by
  simp only [cmpDatom, then_ordCmp]
  rfl

/-- Comparing with a datom is comparing with its VAET key. -/
theorem VaetKey.cmpDatom_eq (key : VaetKey) (d : Datom) :
    key.cmpDatom d = ordCmp key (VaetKey.fromDatom d) := by
  simp only [cmpDatom, then_ordCmp]
  rfl

/-- Comparing with a datom is comparing with its AVET key. -/
theorem AvetKey.cmpDatom_eq (key : AvetKey) (d : Datom) :
    key.cmpDatom d = ordCmp key (AvetKey.fromDatom d) := by
  simp only [cmpDatom, then_ordCmp]
  rfl

end Ferratomic
