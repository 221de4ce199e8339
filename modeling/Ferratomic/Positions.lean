import Ferratomic.Positional

/-!
# Positions

Positions in an array of datoms are `u32` numbers, and an index that has no position gets the
largest one. `linkedUpTo` is an array of any length, in particular one that is longer than there are
positions.
-/

namespace Ferratomic

open Lib

/-- `u32::try_from(i).unwrap_or(u32::MAX)` -/
def saturate (i : Nat) : Nat :=
  min i u32Max

/-- Saturation never raises a position. -/
theorem saturate_le (i : Nat) : saturate i ≤ i :=
  Nat.min_le_left i u32Max

/-- A saturated position fits 32 bits. -/
theorem saturate_le_max (i : Nat) : saturate i ≤ u32Max :=
  Nat.min_le_right i u32Max

/-- An index of an array within the position space is a position. -/
theorem saturate_eq {i length : Nat} (hlength : length ≤ u32Max + 1) (h : i < length) :
    saturate i = i :=
  Nat.min_eq_left (by omega)

namespace Sample

/-- An entity for every number. -/
def numberedEntity (number : Nat) : EntityId :=
  ⟨leBytes 32 number, length_leBytes 32 number⟩

/-- Entities of two numbers within the width differ. -/
theorem numberedEntity_inj {a b : Nat} (ha : a < 256 ^ 32) (hb : b < 256 ^ 32)
    (h : numberedEntity a = numberedEntity b) : a = b :=
  leBytes_inj ha hb (Subtype.ext_iff.mp h)

/-- The entity of a number refers to the one of zero. -/
def linked (number : Nat) : Datom :=
  ⟨numberedEntity number, "link", .ref (numberedEntity 0), ⟨1, 0, NodeId.zero⟩, .assert⟩

/-- The first references in order. -/
def linkedUpTo (count : Nat) : List Datom :=
  ((Finset.range count).image linked).sort (· ≤ ·)

/-- The sample datoms are those of the numbers below the count. -/
theorem mem_linkedUpTo {count : Nat} {d : Datom} :
    d ∈ linkedUpTo count ↔ ∃ number < count, linked number = d := by
  rw [linkedUpTo, Finset.mem_sort, Finset.mem_image]
  simp only [Finset.mem_range]

/-- The sample datoms ascend. -/
theorem sorted_linkedUpTo (count : Nat) : (linkedUpTo count).Pairwise (· < ·) :=
  (Finset.sortedLT_sort _).pairwise

/-- There are as many sample datoms as counted. -/
theorem length_linkedUpTo {count : Nat} (h : count ≤ 256 ^ 32) :
    (linkedUpTo count).length = count := by
  rw [linkedUpTo, Finset.length_sort, Finset.card_image_of_injOn, Finset.card_range]
  intro a ha b hb hab
  simp only [Finset.coe_range, Set.mem_Iio] at ha hb
  exact numberedEntity_inj (by omega) (by omega) (congrArg Datom.entity hab)

/-- The references have entities of their own. -/
theorem nodup_entity_linkedUpTo {count : Nat} (h : count ≤ 256 ^ 32) :
    ((linkedUpTo count).map Datom.entity).Nodup := by
  have hnodup : (linkedUpTo count).Nodup := (sorted_linkedUpTo count).imp fun hlt => hlt.ne
  refine List.Nodup.map_on ?_ hnodup
  intro d hd d' hd' heq
  obtain ⟨a, ha, rfl⟩ := mem_linkedUpTo.mp hd
  obtain ⟨b, hb, rfl⟩ := mem_linkedUpTo.mp hd'
  rw [numberedEntity_inj (by omega) (by omega) heq]

end Sample

end Ferratomic
