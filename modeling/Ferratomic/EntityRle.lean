import Ferratomic.Lib.Runs
import Ferratomic.Search.Entities

/-!
# Run-length encoded entities

The entity column is stored as runs of equal entities with the array of their prefix sums, in which
the group of a position is searched. `EntityRle.Encodes` says what an encoding is of a column, and
`encodes_fromEntities` that the scanner makes one. The main theorem, `fromEntities_exact`, is about
the queries: a column within the position space is read back at every position, and its groups
partition the positions.
-/

namespace Ferratomic

open Lib

section Model

/-- `saturating_add` of `u32` -/
def saturatingAdd (a b : Nat) : Nat :=
  min (a + b) u32Max

/-- `EntityRle`: the runs with one prefix sum more than there are runs. -/
structure EntityRle where
  runs : List (EntityId × Nat)
  prefixSums : List Nat
  length_eq : prefixSums.length = runs.length + 1

/-- The state of the scan: what was collected, and the run in progress. -/
structure RleScan where
  runs : List (EntityId × Nat)
  prefixSums : List Nat
  currentEntity : EntityId
  runLen : Nat
  length_eq : prefixSums.length = runs.length + 1

/-- Flush the run in progress. -/
def RleScan.flush (scan : RleScan) : EntityRle where
  runs := scan.runs ++ [(scan.currentEntity, scan.runLen)]
  prefixSums := scan.prefixSums ++ [saturatingAdd (scan.prefixSums.getLast?.getD 0) scan.runLen]
  length_eq := by
    rw [List.length_append, List.length_append, scan.length_eq]
    rfl

/-- Read one more entity. -/
def RleScan.read (scan : RleScan) (entity : EntityId) : RleScan :=
  if entity = scan.currentEntity then { scan with runLen := saturatingAdd scan.runLen 1 }
  else
    let flushed := scan.flush
    ⟨flushed.runs, flushed.prefixSums, entity, 1, flushed.length_eq⟩

namespace EntityRle

/-- `from_entities` -/
def fromEntities : List EntityId → EntityRle
  | [] => ⟨[], [0], rfl⟩
  | first :: rest => (rest.foldl RleScan.read ⟨[], [0], first, 1, rfl⟩).flush

/-- `group_count` -/
def groupCount (rle : EntityRle) : Nat :=
  rle.runs.length

/-- `total_datoms` -/
def totalDatoms (rle : EntityRle) : Nat :=
  rle.prefixSums.getLast?.getD 0

/-- `group_of` -/
def groupOf (rle : EntityRle) (position : Nat) : Option Nat :=
  if u32Max < position then none
  else if rle.totalDatoms ≤ position then none
  else some (partitionPoint (fun sum => sum ≤ position) rle.prefixSums - 1)

/-- `group_range` -/
def groupRange (rle : EntityRle) (groupIdx : Nat) : Option (Nat × Nat) :=
  if h : rle.runs.length ≤ groupIdx then none
  else
    have hlength := rle.length_eq
    some (rle.prefixSums[groupIdx], rle.prefixSums[groupIdx + 1])

/-- `entity_at_group` -/
def entityAtGroup (rle : EntityRle) (groupIdx : Nat) : Option EntityId :=
  rle.runs[groupIdx]?.map Prod.fst

/-- `entity_at_position` -/
def entityAtPosition (rle : EntityRle) (pos : Nat) : Option EntityId := do
  let groupIdx ← rle.groupOf pos
  rle.entityAtGroup groupIdx

end EntityRle

end Model

section Scan

/-- What was read is what was collected and the run in progress. -/
structure RleScan.Reads (scan : RleScan) (entities : List EntityId) : Prop where
  maximal : Maximal (scan.runs ++ [(scan.currentEntity, scan.runLen)]) entities
  sums : scan.prefixSums = starts scan.runs

/-- The encoding of a column. -/
structure EntityRle.Encodes (rle : EntityRle) (entities : List EntityId) : Prop where
  maximal : Maximal rle.runs entities
  sums : rle.prefixSums = starts rle.runs

namespace RleScan

variable {scan : RleScan} {entities : List EntityId}

/-- The runs read so far are as long as the entities read. -/
theorem Reads.length (h : scan.Reads entities) :
    (expand scan.runs).length + scan.runLen = entities.length := by
  rw [← h.maximal.expand_eq, expand_append, expand_singleton, List.length_append,
    List.length_replicate]

/-- Within the position space no sum saturates. -/
theorem Reads.flush (h : scan.Reads entities) (hlength : entities.length ≤ u32Max) :
    scan.flush.Encodes entities where
  maximal := h.maximal
  sums := by
    have hsum : (expand scan.runs).length + scan.runLen ≤ u32Max := by
      rw [h.length]
      exact hlength
    show scan.prefixSums ++ [saturatingAdd (scan.prefixSums.getLast?.getD 0) scan.runLen] =
      starts (scan.runs ++ [(scan.currentEntity, scan.runLen)])
    rw [starts_append, h.sums, getLast?_starts, Option.getD_some, saturatingAdd, min_eq_left hsum]

/-- One more entity extends the run in progress or begins another one. -/
theorem Reads.read (h : scan.Reads entities) {entity : EntityId}
    (hlength : (entities ++ [entity]).length ≤ u32Max) :
    (scan.read entity).Reads (entities ++ [entity]) := by
  rw [List.length_append, List.length_singleton] at hlength
  unfold RleScan.read
  split
  case isTrue hsame =>
      -- the run in progress goes on; its length is bounded by what was read
      have hsum := h.length
      have hlen : saturatingAdd scan.runLen 1 = scan.runLen + 1 := min_eq_left (by omega)
      constructor
      · show Maximal (scan.runs ++ [(scan.currentEntity, saturatingAdd scan.runLen 1)]) _
        rw [hlen, hsame]
        exact h.maximal.extend
      · exact h.sums
  case isFalse hother =>
      -- the run is flushed, and the other entity begins the next one
      exact ⟨h.maximal.push (Ne.symm hother), (h.flush (by omega)).sums⟩

/-- The scan goes on over the rest of the entities. -/
theorem Reads.foldl (rest : List EntityId) (h : scan.Reads entities)
    (hlength : (entities ++ rest).length ≤ u32Max) :
    (rest.foldl RleScan.read scan).Reads (entities ++ rest) := by
  -- the invariant is carried from entity to entity, with the bound for the whole column
  induction rest generalizing scan entities with
  | nil =>
      rw [List.append_nil]
      exact h
  | cons entity rest ih =>
      have happend : entities ++ entity :: rest = (entities ++ [entity]) ++ rest := by
        rw [List.append_assoc]
        rfl
      rw [happend] at hlength ⊢
      rw [List.foldl_cons]
      have hshort : (entities ++ [entity]).length ≤ u32Max := by
        rw [List.length_append] at hlength
        omega
      exact ih (h.read hshort) hlength

end RleScan

/-- The scan encodes every column within the position space. -/
theorem EntityRle.encodes_fromEntities {entities : List EntityId}
    (h : entities.length ≤ u32Max) : (fromEntities entities).Encodes entities := by
  cases entities with
  | nil => exact ⟨Maximal.nil, rfl⟩
  | cons first rest =>
      have hfirst : RleScan.Reads ⟨[], [0], first, 1, rfl⟩ [first] :=
        ⟨Maximal.singleton first, rfl⟩
      exact (RleScan.Reads.foldl rest hfirst h).flush h

end Scan

section Queries

namespace EntityRle

variable {rle : EntityRle} {entities : List EntityId}

/-- A position lies in the range of a group. -/
def InGroup (rle : EntityRle) (groupIdx position : Nat) : Prop :=
  ∃ range, rle.groupRange groupIdx = some range ∧ range.1 ≤ position ∧ position < range.2

/-- The range of a group is that of its run. -/
theorem Encodes.groupRange_eq (h : rle.Encodes entities) {groupIdx : Nat}
    (hgroup : groupIdx < rle.groupCount) :
    rle.groupRange groupIdx = some (start rle.runs groupIdx, start rle.runs (groupIdx + 1)) := by
  have hlength := rle.length_eq
  have hlow : rle.prefixSums[groupIdx]? = some (start rle.runs groupIdx) := by
    rw [h.sums]
    exact getElem?_starts hgroup.le
  have hhigh : rle.prefixSums[groupIdx + 1]? = some (start rle.runs (groupIdx + 1)) := by
    rw [h.sums]
    exact getElem?_starts hgroup
  unfold groupRange
  rw [dif_neg (show ¬ rle.runs.length ≤ groupIdx from Nat.not_le_of_lt hgroup)]
  exact congrArg some (Prod.ext ((List.getElem_eq_iff _).mpr hlow)
    ((List.getElem_eq_iff _).mpr hhigh))

/-- A group has no range exactly when it is beyond the count. -/
theorem groupRange_eq_none {groupIdx : Nat} :
    rle.groupRange groupIdx = none ↔ rle.groupCount ≤ groupIdx := by
  unfold groupRange groupCount
  split
  case isTrue hgroup => exact iff_of_true rfl hgroup
  case isFalse hgroup => exact iff_of_false (Option.some_ne_none _) hgroup

/-- The range of a group is from the start of its run to that of the next. -/
theorem Encodes.groupRange_eq_some (h : rle.Encodes entities) {groupIdx : Nat} {range : Nat × Nat} :
    rle.groupRange groupIdx = some range ↔ groupIdx < rle.runs.length ∧
      range = (start rle.runs groupIdx, start rle.runs (groupIdx + 1)) := by
  by_cases hgroup : groupIdx < rle.groupCount
  · rw [h.groupRange_eq hgroup, Option.some.injEq, eq_comm]
    exact (and_iff_right hgroup).symm
  · rw [groupRange_eq_none.mpr (Nat.le_of_not_lt hgroup)]
    exact iff_of_false nofun fun hrange => hgroup hrange.1

/-- A position is in a group exactly when it lies in the run's range. -/
theorem Encodes.inGroup_iff (h : rle.Encodes entities) {groupIdx position : Nat} :
    rle.InGroup groupIdx position ↔ groupIdx < rle.runs.length ∧
      start rle.runs groupIdx ≤ position ∧ position < start rle.runs (groupIdx + 1) := by
  unfold InGroup
  constructor
  · intro hrange
    obtain ⟨range, hrange, hposition⟩ := hrange
    obtain ⟨hgroup, rfl⟩ := h.groupRange_eq_some.mp hrange
    exact ⟨hgroup, hposition⟩
  · intro hrange
    exact ⟨_, h.groupRange_eq_some.mpr ⟨hrange.1, rfl⟩, hrange.2⟩

/-- The total is the number of entities. -/
theorem Encodes.totalDatoms_eq (h : rle.Encodes entities) : rle.totalDatoms = entities.length := by
  unfold totalDatoms
  rw [h.sums, getLast?_starts, Option.getD_some, h.maximal.expand_eq]

/-- The search in the prefix sums finds the group of a position. -/
theorem Encodes.groupOf_eq_some (h : rle.Encodes entities) (hlength : entities.length ≤ u32Max)
    {groupIdx position : Nat} :
    rle.groupOf position = some groupIdx ↔ rle.InGroup groupIdx position := by
  have hexpand : (expand rle.runs).length = entities.length := by rw [h.maximal.expand_eq]
  rw [h.inGroup_iff]
  unfold groupOf
  rw [h.totalDatoms_eq]
  -- inside the column the search finds the run; past its end no group has the position
  by_cases hposition : position < entities.length
  · obtain ⟨index, hindex, hlow, hhigh⟩ := exists_run (hexpand.symm ▸ hposition)
    have hpoint :
        partitionPoint (fun sum => decide (sum ≤ position)) rle.prefixSums = index + 1 := by
      unfold partitionPoint
      rw [h.sums]
      exact findIdx_starts hindex hlow hhigh
    rw [if_neg (by omega), if_neg (by omega), hpoint, Nat.add_sub_cancel, Option.some.injEq]
    constructor
    · intro heq
      rw [← heq]
      exact ⟨hindex, hlow, hhigh⟩
    · intro hgroup
      exact run_unique hlow hhigh hgroup.2.1 hgroup.2.2
  · refine iff_of_false ?_ ?_
    · split
      case isTrue => exact Option.some_ne_none _ ∘ Eq.symm
      case isFalse =>
          rw [if_pos (by omega)]
          exact Option.some_ne_none _ ∘ Eq.symm
    · intro hgroup
      have hle := start_le_length rle.runs (groupIdx + 1)
      omega

/-- Every position is read back. -/
theorem Encodes.entityAtPosition_eq (h : rle.Encodes entities)
    (hlength : entities.length ≤ u32Max) (pos : Nat) :
    rle.entityAtPosition pos = entities[pos]? := by
  unfold entityAtPosition
  cases hgroup : rle.groupOf pos with
  | none =>
      have hpast : ¬ pos < entities.length := by
        intro hpos
        rw [← h.maximal.expand_eq] at hpos
        obtain ⟨index, hindex⟩ := exists_run hpos
        have hsome := (h.groupOf_eq_some hlength).mpr (h.inGroup_iff.mpr hindex)
        rw [hgroup] at hsome
        cases hsome
      exact (List.getElem?_eq_none (by omega)).symm
  | some index =>
      obtain ⟨hindex, hlow, hhigh⟩ := h.inGroup_iff.mp ((h.groupOf_eq_some hlength).mp hgroup)
      have hrun : rle.runs[index]? = some rle.runs[index] := List.getElem?_eq_getElem hindex
      show rle.runs[index]?.map Prod.fst = entities[pos]?
      rw [← h.maximal.expand_eq, getElem?_expand hrun hlow hhigh, hrun]
      rfl

/-- Neighbouring groups have different entities. -/
theorem Encodes.entityAtGroup_ne (h : rle.Encodes entities) {groupIdx : Nat} {a b : EntityId}
    (ha : rle.entityAtGroup groupIdx = some a) (hb : rle.entityAtGroup (groupIdx + 1) = some b) :
    a ≠ b := by
  unfold entityAtGroup at ha hb
  obtain ⟨run, hrun, rfl⟩ := Option.map_eq_some_iff.mp ha
  obtain ⟨next, hnext, rfl⟩ := Option.map_eq_some_iff.mp hb
  obtain ⟨hlt, rfl⟩ := List.getElem?_eq_some_iff.mp hrun
  obtain ⟨hlt', rfl⟩ := List.getElem?_eq_some_iff.mp hnext
  exact List.isChain_iff_getElem.mp h.maximal.differ groupIdx hlt'

/-- An encoding that answers every query about a column as the column does. -/
structure Exact (rle : EntityRle) (entities : List EntityId) : Prop where
  entity_at_position : ∀ pos, rle.entityAtPosition pos = entities[pos]?
  count : ∀ groupIdx, rle.groupRange groupIdx = none ↔ rle.groupCount ≤ groupIdx
  first : ∀ range, rle.groupRange 0 = some range → range.1 = 0
  contiguous : ∀ groupIdx range next, rle.groupRange groupIdx = some range →
    rle.groupRange (groupIdx + 1) = some next → range.2 = next.1
  nonempty : ∀ groupIdx range, rle.groupRange groupIdx = some range → range.1 < range.2
  cover : ∀ position, position < entities.length ↔ ∃! groupIdx, rle.InGroup groupIdx position
  differ : ∀ groupIdx a b, rle.entityAtGroup groupIdx = some a →
    rle.entityAtGroup (groupIdx + 1) = some b → a ≠ b
  group_of : ∀ position groupIdx, rle.groupOf position = some groupIdx ↔
    rle.InGroup groupIdx position
  expand_eq : expand rle.runs = entities

/-- A column within the position space is encoded exactly. -/
theorem fromEntities_exact {entities : List EntityId} (h : entities.length ≤ u32Max) :
    (fromEntities entities).Exact entities := by
  have hencodes := encodes_fromEntities h
  constructor
  case entity_at_position => exact hencodes.entityAtPosition_eq h
  case count => exact fun groupIdx => groupRange_eq_none
  case first =>
      intro range hfirst
      obtain ⟨-, rfl⟩ := hencodes.groupRange_eq_some.mp hfirst
      rfl
  case contiguous =>
      intro groupIdx range next hgroup hnext
      obtain ⟨-, rfl⟩ := hencodes.groupRange_eq_some.mp hgroup
      obtain ⟨-, rfl⟩ := hencodes.groupRange_eq_some.mp hnext
      rfl
  case nonempty =>
      intro groupIdx range hgroup
      obtain ⟨hlt, rfl⟩ := hencodes.groupRange_eq_some.mp hgroup
      exact start_lt_start hencodes.maximal.pos (Nat.lt_succ_self groupIdx) hlt
  case cover =>
      intro position
      have hlength : (expand (fromEntities entities).runs).length = entities.length := by
        rw [hencodes.maximal.expand_eq]
      simp only [hencodes.inGroup_iff]
      rw [← hlength]
      exact exists_run_iff
  case differ => exact fun groupIdx a b => hencodes.entityAtGroup_ne
  case group_of => exact fun position groupIdx => hencodes.groupOf_eq_some h
  case expand_eq => exact hencodes.maximal.expand_eq

/-- A column in which an entity comes back after another one. -/
def sampleColumn : List EntityId :=
  [Sample.numberedEntity 1, Sample.numberedEntity 1, Sample.numberedEntity 2,
    Sample.numberedEntity 1]

/-- The encoding of the sample column is exact. -/
theorem fromEntities_exact_sampleColumn :
    sampleColumn.length ≤ u32Max ∧ (fromEntities sampleColumn).Exact sampleColumn :=
  ⟨by decide, fromEntities_exact (by decide)⟩

example : (fromEntities sampleColumn).prefixSums = [0, 2, 3, 4] := by decide +kernel

end EntityRle

end Queries

end Ferratomic
