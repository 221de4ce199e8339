import Ferratomic.Bloom
import Ferratomic.Mph
import Ferratomic.Search

/-!
# Entity lookup

The position of an entity is read from a perfect hash and its existence is decided with a Bloom
filter. The main theorem is `entity_lookup_eq`: for an array in order the lookup is the binary
search for the first datom of the entity, whether the perfect hash was built or not, and within the
position space an entity exists exactly when a datom has it.
-/

namespace Ferratomic

open Lib

section Model

/-- `partition_point`: the index of the first item that does not satisfy a predicate. -/
def partitionPoint {α : Type} (pred : α → Bool) (items : List α) : Nat :=
  items.findIdx fun item => !pred item

/-- The entities and their first positions in the part of the array that was read. -/
structure EntityScan where
  keys : List EntityId
  positions : List Nat
  prev : Option EntityId

/-- Read one more datom. -/
def EntityScan.read (scan : EntityScan) (entry : Datom × Nat) : EntityScan :=
  let eid := entry.1.entity
  if scan.prev = some eid then scan
  else ⟨scan.keys ++ [eid], scan.positions ++ [saturate entry.2], some eid⟩

/-- `unique_entities_with_positions` -/
def uniqueEntitiesWithPositions (canonical : List Datom) : List EntityId × List Nat :=
  let scan := canonical.zipIdx.foldl EntityScan.read ⟨[], [], none⟩
  (scan.keys, scan.positions)

/-- `unique_entity_ids` -/
def uniqueEntityIds (canonical : List Datom) : List EntityId :=
  (uniqueEntitiesWithPositions canonical).1

/-- `first_datom_position_for_entity` -/
def firstDatomPositionForEntity (canonical : List Datom) (eid : EntityId) : Option Nat :=
  let pos := partitionPoint (fun d => d.entity < eid) canonical
  match canonical[pos]? with
  | some d => if d.entity = eid ∧ pos ≤ u32Max then some pos else none
  | none => none

/-- `entity_lookup` -/
def entityLookup (sort : UnstableSort) (canonical : List Datom) (eid : EntityId) : Option Nat :=
  let unique := uniqueEntitiesWithPositions canonical
  match Mph.build sort unique.1 unique.2 with
  | some mph => mph.entityPosition eid canonical
  | none => firstDatomPositionForEntity canonical eid

/-- `entity_exists` -/
def entityExists (canonical : List Datom) (eid : EntityId) : Bool :=
  let bloom := EntityBloom.build (uniqueEntityIds canonical)
  if !bloom.maybeContains eid then false
  else (firstDatomPositionForEntity canonical eid).isSome

end Model

section First

variable {canonical : List Datom} {eid : EntityId}

/-- The index of the first datom of an entity. -/
def firstIndex (canonical : List Datom) (eid : EntityId) : Option Nat :=
  canonical.findIdx? fun d => d.entity = eid

/-- The first index of an entity is its first position. -/
theorem firstIndex_eq_some {i : Nat} :
    firstIndex canonical eid = some i ↔
      ∃ h : i < canonical.length, canonical[i].entity = eid ∧
        ∀ j (hj : j < i), canonical[j].entity ≠ eid := by
  simp only [firstIndex, List.findIdx?_eq_some_iff_getElem, decide_eq_true_eq]

/-- An entity has no first index exactly when no datom has it. -/
theorem firstIndex_eq_none : firstIndex canonical eid = none ↔ ∀ d ∈ canonical, d.entity ≠ eid := by
  simp only [firstIndex, List.findIdx?_eq_none_iff, decide_eq_false_iff_not, ne_eq]

/-- The binary search finds the first datom of the entity, if it has a position. -/
theorem firstDatomPositionForEntity_eq (hsorted : canonical.Pairwise (· < ·)) (eid : EntityId) :
    firstDatomPositionForEntity canonical eid =
      (firstIndex canonical eid).filter fun pos => pos ≤ u32Max := by
  cases hfirst : firstIndex canonical eid with
  | none =>
      rw [firstIndex_eq_none] at hfirst
      simp only [firstDatomPositionForEntity]
      split
      case h_1 d hget =>
        exact if_neg fun h => hfirst d (List.mem_of_getElem? hget) h.1
      case h_2 => rfl
  | some i =>
      obtain ⟨hlt, heq, hbefore⟩ := firstIndex_eq_some.mp hfirst
      have hpoint : partitionPoint (fun d => d.entity < eid) canonical = i := by
        refine (List.findIdx_eq hlt).mpr ⟨?_, fun j hj => ?_⟩
        · simp only [heq, lt_irrefl, decide_false, Bool.not_false]
        · have hle :=
            Datom.entity_le (List.pairwise_iff_getElem.mp hsorted j i (hj.trans hlt) hlt hj).le
          rw [heq] at hle
          simp only [lt_of_le_of_ne hle (hbefore j hj), decide_true, Bool.not_true]
      simp only [firstDatomPositionForEntity, hpoint, List.getElem?_eq_getElem hlt, heq, true_and,
        Option.filter_some, decide_eq_true_eq]

/-- The saturated position of the first datom passes the verification if it is its position. -/
theorem verify_saturate {pos : Nat} (hfirst : firstIndex canonical eid = some pos) :
    (if canonical[saturate pos]?.map Datom.entity = some eid then some (saturate pos) else none) =
      (some pos).filter fun pos => pos ≤ u32Max := by
  obtain ⟨hlt, heq, hbefore⟩ := firstIndex_eq_some.mp hfirst
  rw [Option.filter_some]
  by_cases hmax : pos ≤ u32Max
  · have hsaturate : saturate pos = pos := Nat.min_eq_left hmax
    rw [hsaturate, List.getElem?_eq_getElem hlt, Option.map_some, heq, if_pos rfl,
      if_pos (decide_eq_true hmax)]
  · have hsaturate : saturate pos = u32Max := Nat.min_eq_right (Nat.le_of_not_le hmax)
    have hearlier := hbefore u32Max (Nat.lt_of_not_le hmax)
    have hget : canonical[u32Max]? = some canonical[u32Max] := List.getElem?_eq_getElem (by omega)
    rw [hsaturate, hget, Option.map_some, if_neg fun h => hearlier (Option.some_inj.mp h),
      decide_eq_false hmax, if_neg Bool.false_ne_true]

end First

namespace EntityScan

/-- What a scan holds after reading datoms. -/
structure Of (scan : EntityScan) (datoms : List Datom) : Prop where
  prev : scan.prev = datoms.getLast?.map Datom.entity
  length : scan.positions.length = scan.keys.length
  position : ∀ (i : Nat) (eid : EntityId), scan.keys[i]? = some eid →
    ∃ pos, firstIndex datoms eid = some pos ∧ scan.positions[i]? = some (saturate pos)
  complete : ∀ d ∈ datoms, d.entity ∈ scan.keys

/-- The first index of an entity stays when datoms are appended. -/
theorem firstIndex_append {datoms : List Datom} {eid : EntityId} {pos : Nat}
    (h : firstIndex datoms eid = some pos) (d : Datom) :
    firstIndex (datoms ++ [d]) eid = some pos := by
  rw [firstIndex] at h ⊢
  rw [List.findIdx?_append, h, Option.some_or]

/-- In an array in order an entity that differs from the last one is new. -/
theorem firstIndex_append_new {datoms : List Datom} {d : Datom}
    (hsorted : (datoms ++ [d]).Pairwise (· < ·))
    (hlast : datoms.getLast?.map Datom.entity ≠ some d.entity) :
    firstIndex (datoms ++ [d]) d.entity = some datoms.length := by
  have hnew : ∀ d' ∈ datoms, d'.entity ≠ d.entity := by
    intro d' hd' heq
    rcases List.eq_nil_or_concat' datoms with rfl | ⟨front, last, rfl⟩
    · cases hd'
    · rw [List.getLast?_concat, Option.map_some] at hlast
      obtain ⟨hbefore, -, hafter⟩ := List.pairwise_append.mp hsorted
      have hlastMem : last ∈ front ++ [last] := List.mem_append_right _ (List.mem_singleton.mpr rfl)
      have hle : d'.entity ≤ last.entity := by
        rcases List.mem_append.mp hd' with hfront | hsingle
        · exact Datom.entity_le
            ((List.pairwise_append.mp hbefore).2.2 d' hfront last (List.mem_singleton.mpr rfl)).le
        · rw [List.mem_singleton.mp hsingle]
      have hle' : last.entity ≤ d.entity :=
        Datom.entity_le (hafter last hlastMem d (List.mem_singleton.mpr rfl)).le
      rw [heq] at hle
      exact hlast (congrArg some (le_antisymm hle' hle))
  have hnone : firstIndex datoms d.entity = none := firstIndex_eq_none.mpr hnew
  rw [firstIndex] at hnone ⊢
  rw [List.findIdx?_append, hnone, Option.none_or, List.findIdx?_singleton, decide_eq_true rfl,
    if_pos rfl, Option.map_some, Nat.zero_add]

/-- Reading the next datom keeps the invariant. -/
theorem read_of {scan : EntityScan} {datoms : List Datom} {d : Datom}
    (hsorted : (datoms ++ [d]).Pairwise (· < ·)) (h : scan.Of datoms) :
    (scan.read (d, datoms.length)).Of (datoms ++ [d]) := by
  have hprev : (datoms ++ [d]).getLast?.map Datom.entity = some d.entity := by
    rw [List.getLast?_concat, Option.map_some]
  simp only [read]
  split
  case isTrue hsame =>
    -- the entity of the datom before: nothing is recorded
    refine ⟨hsame.trans hprev.symm, h.length, fun i eid hkey => ?_, fun d' hd' => ?_⟩
    · obtain ⟨pos, hfirst, hpos⟩ := h.position i eid hkey
      exact ⟨pos, firstIndex_append hfirst d, hpos⟩
    · rcases List.mem_append.mp hd' with hd' | hd'
      · exact h.complete d' hd'
      · rw [h.prev] at hsame
        obtain ⟨last, hlast, heq⟩ := Option.map_eq_some_iff.mp hsame
        rw [List.mem_singleton.mp hd', ← heq]
        exact h.complete last (List.mem_of_getLast? hlast)
  case isFalse hnew =>
    rw [h.prev] at hnew
    -- another entity: by the order it cannot have occurred earlier
    refine ⟨hprev.symm, ?_, fun i eid hkey => ?_, fun d' hd' => ?_⟩
    · rw [List.length_append, List.length_append, h.length]
      rfl
    · rcases Nat.lt_or_ge i scan.keys.length with hlt | hge
      · rw [List.getElem?_append_left hlt] at hkey
        obtain ⟨pos, hfirst, hpos⟩ := h.position i eid hkey
        refine ⟨pos, firstIndex_append hfirst d, ?_⟩
        rwa [List.getElem?_append_left (by rw [h.length]; exact hlt)]
      · rw [List.getElem?_append_right hge] at hkey
        have hzero : i - scan.keys.length = 0 := by
          by_contra hne
          rw [List.getElem?_singleton, if_neg hne] at hkey
          cases hkey
        rw [hzero] at hkey
        cases hkey
        refine ⟨datoms.length, firstIndex_append_new hsorted hnew, ?_⟩
        rw [List.getElem?_append_right (by rw [h.length]; exact hge), h.length, hzero]
        rfl
    · rcases List.mem_append.mp hd' with hd' | hd'
      · exact List.mem_append_left _ (h.complete d' hd')
      · rw [List.mem_singleton.mp hd']
        exact List.mem_append_right _ (List.mem_singleton.mpr rfl)

/-- The scan collects the positions of every entity. -/
theorem scan_of {canonical : List Datom} (hsorted : canonical.Pairwise (· < ·)) :
    (canonical.zipIdx.foldl read ⟨[], [], none⟩).Of canonical := by
  induction canonical using List.reverseRecOn with
  | nil =>
      refine ⟨rfl, rfl, fun i eid h => ?_, fun d hd => absurd hd List.not_mem_nil⟩
      rw [List.zipIdx_nil, List.foldl_nil, List.getElem?_nil] at h
      cases h
  | append_singleton datoms d ih =>
      rw [List.zipIdx_append, List.foldl_append, Nat.zero_add]
      exact read_of hsorted (ih (List.pairwise_append.mp hsorted).1)

end EntityScan

section Lookup

variable {canonical : List Datom}

/-- Every entity of the array went into the Bloom filter. -/
theorem mem_uniqueEntityIds (hsorted : canonical.Pairwise (· < ·)) {d : Datom}
    (hd : d ∈ canonical) : d.entity ∈ uniqueEntityIds canonical :=
  (EntityScan.scan_of hsorted).complete d hd

/-- A perfect hash that was built gives the position of the first datom of the entity. -/
theorem entityPosition_eq {sort : UnstableSort} {mph : Mph} (hsorted : canonical.Pairwise (· < ·))
    (hbuild : Mph.build sort (uniqueEntitiesWithPositions canonical).1
      (uniqueEntitiesWithPositions canonical).2 = some mph) (eid : EntityId) :
    mph.entityPosition eid canonical =
      (firstIndex canonical eid).filter fun pos => pos ≤ u32Max := by
  obtain ⟨backend, hbackend, hmph⟩ := Option.bind_eq_some_iff.mp hbuild
  cases hmph
  have hscan := EntityScan.scan_of hsorted
  cases hfirst : firstIndex canonical eid with
  | none =>
      -- an entity that does not occur may be given a position, but the datom there is another one
      rw [Option.filter_none, Option.eq_none_iff_forall_ne_some]
      intro pos hpos
      rw [firstIndex_eq_none] at hfirst
      unfold Mph.entityPosition at hpos
      split at hpos
      case isTrue => cases hpos
      case isFalse =>
        obtain ⟨keyIdx, -, hpos⟩ := Option.bind_eq_some_iff.mp hpos
        obtain ⟨found, -, hpos⟩ := Option.bind_eq_some_iff.mp hpos
        split at hpos
        case isTrue hverified =>
          obtain ⟨d, hd, heq⟩ := Option.map_eq_some_iff.mp hverified
          exact hfirst d (List.mem_of_getElem? hd) heq
        case isFalse => cases hpos
  | some pos =>
      obtain ⟨hlt, heq, -⟩ := firstIndex_eq_some.mp hfirst
      have hmem : eid ∈ (uniqueEntitiesWithPositions canonical).1 := by
        rw [← heq]
        exact hscan.complete _ (List.getElem_mem hlt)
      obtain ⟨i, hi, hkey⟩ := List.getElem_of_mem hmem
      -- the function is perfect on the entities it was built from
      have hlookup := ChdBackend.reverseLookup_lookup hbackend ⟨i, hi⟩
      obtain ⟨pos', hfirst', hpos⟩ :=
        hscan.position i eid ((List.getElem?_eq_getElem hi).trans (congrArg some hkey))
      rw [hfirst] at hfirst'
      cases hfirst'
      have hne : (uniqueEntitiesWithPositions canonical).2 ≠ [] := by
        intro hnil
        rw [show (canonical.zipIdx.foldl EntityScan.read ⟨[], [], none⟩).positions = [] from hnil]
          at hpos
        cases hpos
      have hkeyIdx : backend.reverseLookup (backend.lookup eid) = some i := hkey ▸ hlookup
      have hread : (uniqueEntitiesWithPositions canonical).2[i]? = some (saturate pos) := hpos
      rw [← verify_saturate hfirst, Mph.entityPosition, if_neg hne]
      simp only [hkeyIdx, hread, Option.bind_eq_bind, Option.bind_some]

/-- The lookup of an entity is the binary search for its first datom, with or without a perfect
hash, and within the position space an entity exists exactly when a datom has it. -/
theorem entity_lookup_eq (hsorted : canonical.Pairwise (· < ·)) :
    (∀ sort eid, entityLookup sort canonical eid = firstDatomPositionForEntity canonical eid) ∧
      (canonical.length ≤ u32Max + 1 →
        ∀ eid, entityExists canonical eid = true ↔ ∃ d ∈ canonical, d.entity = eid) := by
  have hexists (eid : EntityId) : (∃ d ∈ canonical, d.entity = eid) ↔
      ∃ pos, firstIndex canonical eid = some pos := by
    rw [← Option.isSome_iff_exists, ← not_iff_not, Option.not_isSome_iff_eq_none,
      firstIndex_eq_none]
    simp only [not_exists, not_and, ne_eq]
  refine ⟨fun sort eid => ?_, fun hlength eid => ?_⟩
  · rw [entityLookup]
    cases hbuild : Mph.build sort (uniqueEntitiesWithPositions canonical).1
        (uniqueEntitiesWithPositions canonical).2 with
    | none => rfl
    | some mph =>
        rw [firstDatomPositionForEntity_eq hsorted]
        exact entityPosition_eq hsorted hbuild eid
  · rw [hexists, entityExists, firstDatomPositionForEntity_eq hsorted]
    constructor
    · intro h
      split at h
      case isTrue => cases h
      case isFalse =>
        obtain ⟨pos, hpos⟩ := Option.isSome_iff_exists.mp h
        exact ⟨pos, (Option.filter_eq_some_iff.mp hpos).1⟩
    · rintro ⟨pos, hfirst⟩
      obtain ⟨hlt, heq, -⟩ := firstIndex_eq_some.mp hfirst
      -- the filter has no false negatives
      have hbloom := EntityBloom.maybeContains_build
        (mem_uniqueEntityIds hsorted (List.getElem_mem hlt))
      have hmax : decide (pos ≤ u32Max) = true := decide_eq_true (by omega)
      rw [heq] at hbloom
      rw [hbloom, Bool.not_true, if_neg Bool.false_ne_true, hfirst, Option.filter_some, if_pos hmax,
        Option.isSome_some]

end Lookup

open Sample

/-- Two entities in an array of three and one that is not in it. -/
theorem entity_lookup_linked :
    entityLookup .stable (linkedUpTo 3) (numberedEntity 2) =
        firstDatomPositionForEntity (linkedUpTo 3) (numberedEntity 2) ∧
      entityExists (linkedUpTo 3) (numberedEntity 2) = true ∧
      entityExists (linkedUpTo 3) (numberedEntity 3) = false := by
  have hlength : (linkedUpTo 3).length ≤ u32Max + 1 := by
    rw [length_linkedUpTo (by decide)]
    decide
  obtain ⟨hlookup, hexists⟩ := entity_lookup_eq (sorted_linkedUpTo 3)
  refine ⟨hlookup .stable _, ?_, ?_⟩
  · exact (hexists hlength _).mpr ⟨linked 2, mem_linkedUpTo.mpr ⟨2, by decide, rfl⟩, rfl⟩
  · rw [← Bool.not_eq_true, hexists hlength]
    rintro ⟨d, hd, heq⟩
    obtain ⟨number, hlt, rfl⟩ := mem_linkedUpTo.mp hd
    have hnumber := numberedEntity_inj (by omega) (by decide) heq
    omega

/-- Beyond the position space the entity of a datom does not exist. -/
theorem entityExists_beyond :
    (linkedUpTo (u32Max + 2)).Pairwise (· < ·) ∧
      ∃ d ∈ linkedUpTo (u32Max + 2), entityExists (linkedUpTo (u32Max + 2)) d.entity = false := by
  have hsorted := sorted_linkedUpTo (u32Max + 2)
  have hcount : u32Max + 2 ≤ 256 ^ 32 := by decide
  have hlast : u32Max + 1 < (linkedUpTo (u32Max + 2)).length := by
    rw [length_linkedUpTo hcount]
    omega
  refine ⟨hsorted, (linkedUpTo (u32Max + 2)).get ⟨u32Max + 1, hlast⟩, List.get_mem _ _, ?_⟩
  have hfirst : firstIndex (linkedUpTo (u32Max + 2))
      ((linkedUpTo (u32Max + 2)).get ⟨u32Max + 1, hlast⟩).entity = some (u32Max + 1) := by
    have hdistinct := List.pairwise_map.mp (nodup_entity_linkedUpTo hcount)
    exact firstIndex_eq_some.mpr ⟨hlast, rfl, fun j hj =>
      List.pairwise_iff_getElem.mp hdistinct j (u32Max + 1) (hj.trans hlast) hlast hj⟩
  have hmax : ¬ decide (u32Max + 1 ≤ u32Max) = true := by
    rw [decide_eq_true_eq]
    omega
  rw [entityExists, firstDatomPositionForEntity_eq hsorted, hfirst, Option.filter_some, if_neg hmax,
    Option.isSome_none, ite_self]

end Ferratomic
