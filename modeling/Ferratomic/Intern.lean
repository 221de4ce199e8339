import Ferratomic.Lib.OrdMap
import Ferratomic.Lib.SortedList
import Ferratomic.Datom
import Ferratomic.Error

/-!
# Interned attributes

A table that numbers attribute names with 16-bit identifiers, in the order of the names. The main
theorem, `fromAttributes_spec`, says that the two directions of a table are inverse to each other,
so that different attributes have different identifiers.
-/

namespace Ferratomic

open Lib

/-- The largest `u16`. -/
def u16Max : Nat := 2 ^ 16 - 1

/-- `AttributeId`: the identifier of an interned attribute. -/
@[ext]
structure AttributeId where
  raw : UInt16
  deriving DecidableEq, Repr

/-- `AttributeIntern`: the identifiers of attribute names, and the names by identifier. -/
structure AttributeIntern where
  toId : OrdMap Attribute AttributeId
  toName : List String

namespace AttributeIntern

/-- `id_of` -/
def idOf (intern : AttributeIntern) (attr : Attribute) : Option AttributeId :=
  intern.toId[attr]?

/-- `resolve` -/
def resolve (intern : AttributeIntern) (id : AttributeId) : Option String :=
  intern.toName[id.raw.toNat]?

/-- Give an attribute the identifier of index `i`. -/
def assign (intern : AttributeIntern) (i : Nat) (attr : Attribute) : AttributeIntern :=
  ⟨intern.toId.insert attr ⟨UInt16.ofNat i⟩, intern.toName ++ [attr]⟩

/-- The loop of `from_attributes` over the attributes from index `i` on. -/
def assignAll (i : Nat) (intern : AttributeIntern) :
    List Attribute → Except FerraError AttributeIntern
  | [] => .ok intern
  | attr :: rest =>
      if i ≤ u16Max then assignAll (i + 1) (intern.assign i attr) rest
      else .error (.invariantViolation "ADR-FERR-030" "attribute index exceeds u16 range")

/-- `from_attributes` -/
def fromAttributes (attrs : List Attribute) : Except FerraError AttributeIntern :=
  let sorted := sortDedup attrs
  if sorted.length > u16Max + 1 then
    .error (.invariantViolation "ADR-FERR-030"
      s!"attribute count {sorted.length} exceeds u16 capacity (max 65536)")
  else assignAll 0 ⟨∅, []⟩ sorted

/-- The identifiers and the names are inverse to each other. -/
def Inverse (intern : AttributeIntern) : Prop :=
  ∀ attr id, intern.idOf attr = some id ↔ intern.resolve id = some attr

variable {intern table : AttributeIntern} {i : Nat} {attr : Attribute} {attrs : List Attribute}

/-- Different attributes have different identifiers. -/
theorem Inverse.idOf_inj (h : intern.Inverse) {attr attr' : Attribute} {id : AttributeId}
    (hattr : intern.idOf attr = some id) (hattr' : intern.idOf attr' = some id) : attr = attr' := by
  rw [h] at hattr hattr'
  exact Option.some.inj (hattr.symm.trans hattr')

/-- An assignment gives its attribute the position, and leaves the others. -/
theorem idOf_assign (intern : AttributeIntern) (i : Nat) (attr probe : Attribute) :
    (intern.assign i attr).idOf probe =
      if attr = probe then some ⟨UInt16.ofNat i⟩ else intern.idOf probe :=
  OrdMap.getElem?_insert_eq intern.toId attr probe _

/-- The empty table has no attribute. -/
theorem idOf_empty (attr : Attribute) : idOf ⟨∅, []⟩ attr = none :=
  Std.ExtTreeMap.getElem?_empty

/-- A new attribute with the next identifier keeps the table inverse. -/
theorem Inverse.assign (h : intern.Inverse) (hlength : intern.toName.length = i) (hi : i ≤ u16Max)
    (hnew : intern.idOf attr = none) : (intern.assign i attr).Inverse := by
  intro probe id
  have hraw : (UInt16.ofNat i).toNat = i := by
    have hsize : i < UInt16.size := by
      unfold u16Max at hi
      unfold UInt16.size
      omega
    exact UInt16.toNat_ofNat_of_lt' hsize
  have hresolve : (intern.assign i attr).resolve id =
      if id.raw.toNat = i then some attr else intern.resolve id := by
    rw [resolve, AttributeIntern.assign, List.getElem?_append, hlength]
    -- an identifier given earlier, the one given now, or one that no name has
    rcases Nat.lt_trichotomy id.raw.toNat i with hlt | heq | hgt
    · rw [if_pos hlt, if_neg hlt.ne]
      rfl
    · rw [if_neg (Nat.not_lt.mpr heq.ge), if_pos heq, heq, Nat.sub_self]
      rfl
    · have hnone : [attr][id.raw.toNat - i]? = none :=
        List.getElem?_eq_none (by rw [List.length_singleton]; omega)
      have hnone' : intern.toName[id.raw.toNat]? = none := List.getElem?_eq_none (by omega)
      rw [if_neg (Nat.not_lt.mpr hgt.le), if_neg hgt.ne', hnone, resolve, hnone']
  rw [idOf_assign, hresolve]
  by_cases hattr : attr = probe
  · subst hattr
    rw [if_pos rfl]
    by_cases hid : id.raw.toNat = i
    · rw [if_pos hid]
      refine iff_of_true (congrArg some ?_) rfl
      exact AttributeId.ext (UInt16.toNat_inj.mp (hraw.trans hid.symm))
    · rw [if_neg hid, ← h, hnew]
      refine iff_of_false (fun hsome => hid ?_) nofun
      rw [← Option.some.inj hsome, hraw]
  · rw [if_neg hattr]
    by_cases hid : id.raw.toNat = i
    · rw [if_pos hid, h, resolve, List.getElem?_eq_none (by omega)]
      exact iff_of_false nofun fun hsome => hattr (Option.some.inj hsome)
    · rw [if_neg hid]
      exact h probe id

/-- The loop numbers new attributes in their order and keeps the table inverse. -/
theorem assignAll_spec (h : intern.Inverse) (hlength : intern.toName.length = i)
    (hsorted : attrs.Pairwise (· < ·)) (hnew : ∀ attr ∈ attrs, intern.idOf attr = none)
    (hrun : assignAll i intern attrs = .ok table) :
    table.Inverse ∧ table.toName = intern.toName ++ attrs := by
  induction attrs generalizing i intern with
  | nil =>
      cases hrun
      exact ⟨h, (List.append_nil _).symm⟩
  | cons attr rest ih =>
      obtain ⟨hattr, hrest⟩ := List.forall_mem_cons.mp hnew
      obtain ⟨hfirst, hsorted⟩ := List.pairwise_cons.mp hsorted
      rw [assignAll] at hrun
      split at hrun
      case isTrue hi =>
          obtain ⟨hinverse, hnames⟩ := ih (h.assign hlength hi hattr)
            (by rw [AttributeIntern.assign, List.length_append, hlength]; rfl) hsorted
            (fun other hother => by
              rw [idOf_assign, if_neg (hfirst other hother).ne]
              exact hrest other hother) hrun
          refine ⟨hinverse, hnames.trans ?_⟩
          rw [AttributeIntern.assign, List.append_assoc]
          rfl
      case isFalse => cases hrun

/-- A table numbers its attributes in the order of their names, and its two directions are inverse
to each other. -/
theorem fromAttributes_spec (h : fromAttributes attrs = .ok intern) :
    intern.Inverse ∧ intern.toName = sortDedup attrs := by
  rw [fromAttributes] at h
  split at h
  case isTrue => cases h
  case isFalse =>
      have hempty : Inverse ⟨∅, []⟩ := fun attr id => by
        rw [idOf_empty]
        exact iff_of_false nofun nofun
      exact assignAll_spec hempty rfl (pairwise_sortDedup attrs) (fun attr _ => idOf_empty attr) h

/-- The index is within range when the number of attributes is. -/
theorem exists_assignAll (intern : AttributeIntern) (h : i + attrs.length ≤ u16Max + 1) :
    ∃ table, assignAll i intern attrs = .ok table := by
  induction attrs generalizing i intern with
  | nil => exact ⟨intern, rfl⟩
  | cons attr rest ih =>
      rw [List.length_cons] at h
      rw [assignAll, if_pos (by omega)]
      exact ih _ (by omega)

/-- A table is built for as many attributes as there are identifiers. -/
theorem exists_fromAttributes (h : (sortDedup attrs).length ≤ u16Max + 1) :
    ∃ intern, fromAttributes attrs = .ok intern := by
  rw [fromAttributes, if_neg (Nat.not_lt.mpr h)]
  exact exists_assignAll _ (by omega)

end AttributeIntern

end Ferratomic
