import Ferratomic.Error
import Ferratomic.Lib.Machine
import Ferratomic.Lib.Smallest
import Ferratomic.Blake3
import Ferratomic.Positions

/-!
# Store sketches

A sketch holds the smallest content hashes of a datom set. `compute_spec` says that the bounded heap
gives the first hashes of the sorted list. The main theorem is `sketch_homomorphism`: where the heap
can be reserved, the merge of two sketches holds the hashes of the sketch of the union, and merging
is commutative, associative and idempotent on the hashes. `compute_refused` says that a capacity
from 2 ^ 58 - 1 on panics.
-/

namespace Ferratomic

open Lib

/-- A `StoreSketch`: the smallest content hashes in order, the number of datoms and the capacity. -/
@[ext]
structure StoreSketch where
  minHashes : List Hash
  count : Nat
  capacity : Nat
  sorted : minHashes.Pairwise (· ≤ ·)
  bounded : minHashes.length ≤ capacity

namespace StoreSketch

section Merge

variable (profile : Profile)

/-- `merge` -/
def merge (a b : StoreSketch) : Except Fault (Except FerraError StoreSketch) :=
  if a.capacity ≠ b.capacity then
    .ok (.error (.invariantViolation "bd-wows"
      s!"sketch capacity mismatch: {a.capacity} vs {b.capacity}"))
  else do
    let merged := (mergeSortDedup a.minHashes b.minHashes).take a.capacity
    let count ← profile.add 64 a.count b.count
    pure (.ok ⟨merged, count, a.capacity,
      (pairwise_le_mergeSortDedup a.sorted b.sorted).sublist (List.take_sublist _ _),
      List.length_take_le _ _⟩)

variable [Blake3]

/-- `BinaryHeap::with_capacity` in `compute`: room for one hash of 32 bytes more than the capacity.
-/
def reserveHeap (capacity : Nat) : Except Fault Unit := do
  let room ← profile.add 64 capacity 1
  reserve 32 room

/-- The loop of `compute` over the datoms: the heap of the smallest hashes and the count. -/
def collect (capacity : Nat) : List Datom → { heap : List Hash // heap.length ≤ capacity } → Nat →
    Except Fault ({ heap : List Hash // heap.length ≤ capacity } × Nat)
  | [], heap, count => .ok (heap, count)
  | d :: datoms, heap, count => do
      let count ← profile.add 64 count 1
      let heap := ⟨offer capacity heap.val d.contentHash, length_offer heap.property _⟩
      collect capacity datoms heap count

/-- `compute` -/
def compute (datoms : List Datom) (capacity : Nat) : Except Fault (Except FerraError StoreSketch) :=
  if capacity = 0 then
    .ok (.error (.invariantViolation "bd-wows" "sketch capacity must be > 0"))
  else do
    reserveHeap profile capacity
    let (heap, count) ← collect profile capacity datoms ⟨[], Nat.zero_le capacity⟩ 0
    pure (.ok ⟨heap.val.insertionSort (· ≤ ·), count, capacity, List.pairwise_insertionSort _ _,
      (List.length_insertionSort _ _).trans_le heap.property⟩)

end Merge

variable {profile : Profile}

section Reserve

/-- The heap of `compute` can be reserved: it is below the largest allocation, or the capacity wraps
around to no room at all. -/
def Reservable (profile : Profile) (capacity : Nat) : Prop :=
  capacity < 2 ^ 58 - 1 ∨ profile = .wrapping ∧ capacity = 2 ^ 64 - 1

/-- A reservable capacity is reserved. -/
theorem reserveHeap_eq {capacity : Nat} (hroom : Reservable profile capacity) :
    reserveHeap profile capacity = .ok () := by
  rw [reserveHeap]
  rcases hroom with hlt | ⟨rfl, rfl⟩
  · have hrange : capacity + 1 < 2 ^ 64 := by omega
    rw [Profile.add_eq hrange, ok_bind]
    refine reserve_eq ?_
    rw [maxAllocation]
    omega
  · -- the sum is 0, and the heap grows as hashes are pushed
    rw [Profile.wrapping_add, ok_bind]
    exact reserve_eq (Nat.zero_le maxAllocation)

/-- A capacity whose heap is larger than any allocation panics before a datom is read. -/
theorem reserveHeap_refused {capacity : Nat} (hroom : ¬Reservable profile capacity)
    (hlt : capacity < 2 ^ 64) : ∃ fault, reserveHeap profile capacity = .error fault := by
  rw [Reservable, not_or, not_and] at hroom
  obtain ⟨hlarge, hwraps⟩ := hroom
  rw [reserveHeap]
  by_cases hrange : capacity + 1 < 2 ^ 64
  · refine ⟨.capacityOverflow, ?_⟩
    rw [Profile.add_eq hrange, ok_bind]
    refine reserve_over ?_
    rw [maxAllocation]
    omega
  · refine ⟨.overflow, ?_⟩
    cases profile with
    | checked =>
        rw [Profile.checked_add_over (Nat.le_of_not_lt hrange)]
        rfl
    | wrapping => exact absurd (by omega) (hwraps rfl)

end Reserve

section Compute

variable [Blake3]

/-- The loop keeps the smallest hashes of the datoms that it has read. -/
theorem collect_eq {capacity : Nat} {datoms : List Datom}
    (heap : { heap : List Hash // heap.length ≤ capacity }) {count : Nat}
    (hfits : profile.Fits 64 (count + datoms.length)) :
    ∃ heap', collect profile capacity datoms heap (count % 2 ^ 64) =
        .ok (heap', (count + datoms.length) % 2 ^ 64) ∧
      heap'.val = (datoms.map Datom.contentHash).foldl (offer capacity) heap.val := by
  induction datoms generalizing heap count with
  | nil => exact ⟨heap, rfl, rfl⟩
  | cons d datoms ih =>
      have hlength : count + (d :: datoms).length = count + 1 + datoms.length := by
        rw [List.length_cons]
        omega
      rw [hlength] at hfits ⊢
      have hle : count % 2 ^ 64 + 1 ≤ count + 1 + datoms.length := by
        have := Nat.mod_le count (2 ^ 64)
        omega
      have hstep : profile.add 64 (count % 2 ^ 64) 1 = .ok ((count + 1) % 2 ^ 64) := by
        rw [(hfits.mono hle).add, Nat.mod_add_mod]
      obtain ⟨heap', hcollect, hheap⟩ :=
        ih ⟨offer capacity heap.val d.contentHash, length_offer heap.property _⟩ hfits
      refine ⟨heap', ?_, hheap⟩
      rw [collect, hstep, ok_bind]
      exact hcollect

/-- The sketch of datoms holds the first of their sorted hashes. -/
theorem compute_spec {datoms : List Datom} {capacity : Nat} (hpos : 0 < capacity)
    (hroom : Reservable profile capacity) (hfits : profile.Fits 64 datoms.length) :
    ∃ sketch, compute profile datoms capacity = .ok (.ok sketch) ∧
      sketch.minHashes =
        ((datoms.map Datom.contentHash).insertionSort (· ≤ ·)).take capacity ∧
      sketch.count = datoms.length % 2 ^ 64 ∧ sketch.capacity = capacity := by
  rw [← Nat.zero_add datoms.length] at hfits
  obtain ⟨heap, hcollect, hheap⟩ := collect_eq ⟨[], Nat.zero_le capacity⟩ hfits
  rw [Nat.zero_mod, Nat.zero_add] at hcollect
  rw [compute, if_neg (Nat.ne_of_gt hpos), reserveHeap_eq hroom, ok_bind, hcollect, ok_bind]
  refine ⟨_, rfl, ?_, rfl, rfl⟩
  rw [← sort_foldl_offer, ← hheap]

/-- Where the heap cannot be reserved, no datoms have a sketch. -/
theorem compute_refused {datoms : List Datom} {capacity : Nat}
    (hroom : ¬Reservable profile capacity) (hpos : 0 < capacity) (hlt : capacity < 2 ^ 64) :
    ∃ fault, compute profile datoms capacity = .error fault := by
  obtain ⟨fault, hfault⟩ := reserveHeap_refused hroom hlt
  refine ⟨fault, ?_⟩
  rw [compute, if_neg (Nat.ne_of_gt hpos), hfault]
  rfl

/-- The content hashes of a set in order. -/
def sortedHashes (datoms : Finset Datom) : List Hash :=
  (datoms.image Datom.contentHash).sort (· ≤ ·)

/-- The hashes of an enumeration of a set, in order, are those of the set. -/
theorem sort_map_contentHash {datoms : List Datom} (hnodup : datoms.Nodup)
    (hinj : Set.InjOn Datom.contentHash (datoms.toFinset : Set Datom)) :
    (datoms.map Datom.contentHash).insertionSort (· ≤ ·) = sortedHashes datoms.toFinset := by
  have hhashes : (datoms.map Datom.contentHash).Nodup := by
    refine hnodup.map_on fun d hd d' hd' heq => hinj ?_ ?_ heq
    · exact List.mem_toFinset.mpr hd
    · exact List.mem_toFinset.mpr hd'
  have hsorted : ((datoms.map Datom.contentHash).insertionSort (· ≤ ·)).Pairwise (· < ·) := by
    have hnodup' := (List.perm_insertionSort (· ≤ ·) (datoms.map Datom.contentHash)).nodup_iff.mpr
      hhashes
    exact ((List.pairwise_insertionSort _ _).and hnodup').imp fun h => lt_of_le_of_ne h.1 h.2
  refine hsorted.eq_of_mem_iff (Finset.sortedLT_sort _).pairwise fun hash => ?_
  rw [List.mem_insertionSort, sortedHashes, Finset.mem_sort, List.mem_map, Finset.mem_image]
  simp only [List.mem_toFinset]

/-- The sketch of a set with different hashes holds the smallest of them. -/
theorem compute_minHashes {datoms : Finset Datom} {enum : List Datom} {capacity : Nat}
    (hinj : Set.InjOn Datom.contentHash (datoms : Set Datom)) (hpos : 0 < capacity)
    (hroom : Reservable profile capacity) (hfits : profile.Fits 64 datoms.card)
    (hnodup : enum.Nodup) (henum : enum.toFinset = datoms) :
    ∃ sketch, compute profile enum capacity = .ok (.ok sketch) ∧
      sketch.minHashes = (sortedHashes datoms).take capacity ∧
      sketch.count = datoms.card % 2 ^ 64 ∧ sketch.capacity = capacity := by
  subst henum
  rw [List.toFinset_card_of_nodup hnodup] at hfits ⊢
  rw [← sort_map_contentHash hnodup hinj]
  exact compute_spec hpos hroom hfits

end Compute

section Laws

/-- A merge does not depend on the order of the sketches. -/
theorem merge_comm {a b : StoreSketch} (hcapacity : a.capacity = b.capacity) :
    merge profile a b = merge profile b a := by
  rw [merge, merge, if_neg (not_not.mpr hcapacity), if_neg (not_not.mpr hcapacity.symm)]
  simp only [mergeSortDedup_comm a.minHashes, profile.add_comm 64 a.count, hcapacity]

/-- Sketches of one capacity merge if their counts add up. -/
theorem merge_spec {a b : StoreSketch} (hcapacity : a.capacity = b.capacity)
    (hfits : profile.Fits 64 (a.count + b.count)) :
    ∃ merged, merge profile a b = .ok (.ok merged) ∧
      merged.minHashes = (mergeSortDedup a.minHashes b.minHashes).take a.capacity ∧
      merged.count = (a.count + b.count) % 2 ^ 64 ∧ merged.capacity = a.capacity := by
  rw [merge, if_neg (not_not.mpr hcapacity), hfits.add, ok_bind]
  exact ⟨_, rfl, rfl, rfl, rfl⟩

/-- What a merge that returns a sketch holds. -/
theorem merge_eq_ok {a b merged : StoreSketch} (h : merge profile a b = .ok (.ok merged)) :
    a.capacity = b.capacity ∧ profile.add 64 a.count b.count = .ok merged.count ∧
      merged.minHashes = (mergeSortDedup a.minHashes b.minHashes).take a.capacity ∧
      merged.capacity = a.capacity := by
  unfold merge at h
  split at h
  case isTrue => cases h
  case isFalse hcapacity =>
    cases hcount : profile.add 64 a.count b.count with
    | error fault =>
        rw [hcount] at h
        cases h
    | ok count =>
        rw [hcount, ok_bind] at h
        cases h
        exact ⟨not_not.mp hcapacity, rfl, rfl, rfl⟩

/-- Merges of three sketches do not depend on which two are merged first. -/
theorem merge_assoc {a b c ab abc : StoreSketch} (hleft : merge profile a b = .ok (.ok ab))
    (h : merge profile ab c = .ok (.ok abc)) :
    ∃ bc, merge profile b c = .ok (.ok bc) ∧ merge profile a bc = .ok (.ok abc) := by
  obtain ⟨hab, hcount, hhashes, hcapacity⟩ := merge_eq_ok hleft
  obtain ⟨habc, hcount', hhashes', hcapacity'⟩ := merge_eq_ok h
  obtain ⟨count, hright, htotal⟩ := Profile.add_assoc hcount hcount'
  have hbc : b.capacity = c.capacity := by rw [← hab, ← hcapacity, habc]
  obtain ⟨bc, hmerge, hbcHashes, hbcCount, hbcCapacity⟩ :=
    merge_spec hbc (Profile.add_eq_ok hright).1
  have hsum : bc.count = count := hbcCount.trans (Profile.add_eq_ok hright).2.symm
  have ha : a.capacity = bc.capacity := hab.trans hbcCapacity.symm
  obtain ⟨result, hresult, hresultHashes, hresultCount, hresultCapacity⟩ :=
    merge_spec ha (Profile.add_eq_ok (hsum ▸ htotal)).1
  have heq : result = abc := by
    refine StoreSketch.ext ?_ ?_ ?_
    · rw [hresultHashes, hbcHashes, hhashes', hhashes, hcapacity, ← hab,
        take_mergeSortDedup_assoc _ a.sorted b.sorted c.sorted]
    · rw [hresultCount, hsum, (Profile.add_eq_ok htotal).2]
    · rw [hresultCapacity, hcapacity', hcapacity]
  rw [← heq]
  exact ⟨bc, hmerge, hresult⟩

/-- Merging a sketch with itself keeps its hashes. -/
theorem minHashes_merge_self {a merged : StoreSketch} (h : merge profile a a = .ok (.ok merged)) :
    merged.minHashes = a.minHashes := by
  obtain ⟨-, -, hmerged, -⟩ := merge_eq_ok h
  rw [hmerged, mergeSortDedup_self, List.take_of_length_le a.bounded]

end Laws

section Homomorphism

variable [Blake3]

/-- The hashes of a union are the merge of the hashes. -/
theorem sortedHashes_union (A B : Finset Datom) :
    sortedHashes (A ∪ B) = mergeSortDedup (sortedHashes A) (sortedHashes B) := by
  have hsorted (datoms : Finset Datom) : (sortedHashes datoms).Pairwise (· < ·) :=
    (Finset.sortedLT_sort _).pairwise
  refine (hsorted _).eq_of_mem_iff (pairwise_mergeSortDedup (hsorted A) (hsorted B)) fun hash => ?_
  rw [mem_mergeSortDedup, sortedHashes, sortedHashes, sortedHashes, Finset.mem_sort,
    Finset.mem_sort, Finset.mem_sort, Finset.image_union, Finset.mem_union]

/-- For a capacity whose heap can be reserved, the merge of two sketches has the hashes of the
sketch of the union, whatever the orders of iteration. Merging is commutative, associative and
idempotent on the hashes. -/
theorem sketch_homomorphism {A B : Finset Datom} {capacity : Nat} {as bs cs : List Datom}
    (hinj : Set.InjOn Datom.contentHash ((A ∪ B : Finset Datom) : Set Datom))
    (hpos : 0 < capacity) (hroom : Reservable profile capacity)
    (hfits : profile.Fits 64 (A.card + B.card))
    (has : as.Nodup ∧ as.toFinset = A) (hbs : bs.Nodup ∧ bs.toFinset = B)
    (hcs : cs.Nodup ∧ cs.toFinset = A ∪ B) :
    (∃ a b c merged, compute profile as capacity = .ok (.ok a) ∧
      compute profile bs capacity = .ok (.ok b) ∧ compute profile cs capacity = .ok (.ok c) ∧
      merge profile a b = .ok (.ok merged) ∧ merged.minHashes = c.minHashes ∧
      c.minHashes = (((A ∪ B).image Datom.contentHash).sort (· ≤ ·)).take capacity) ∧
    (∀ {a b : StoreSketch}, a.capacity = b.capacity → merge profile a b = merge profile b a) ∧
    (∀ {a b c ab abc : StoreSketch}, merge profile a b = .ok (.ok ab) →
      merge profile ab c = .ok (.ok abc) →
      ∃ bc, merge profile b c = .ok (.ok bc) ∧ merge profile a bc = .ok (.ok abc)) ∧
    ∀ {a : StoreSketch}, profile.Fits 64 (a.count + a.count) →
      ∃ merged, merge profile a a = .ok (.ok merged) ∧ merged.minHashes = a.minHashes := by
  refine ⟨?_, fun hcapacity => merge_comm hcapacity, fun hleft h => merge_assoc hleft h,
    fun {a} hfits => ?_⟩
  · -- both sides keep the smallest hashes of the union
    have hinjA := hinj.mono (Finset.coe_subset.mpr (Finset.subset_union_left : A ⊆ A ∪ B))
    have hinjB := hinj.mono (Finset.coe_subset.mpr (Finset.subset_union_right : B ⊆ A ∪ B))
    obtain ⟨a, ha, haHashes, haCount, haCapacity⟩ :=
      compute_minHashes hinjA hpos hroom (hfits.mono (Nat.le_add_right _ _)) has.1 has.2
    obtain ⟨b, hb, hbHashes, hbCount, hbCapacity⟩ :=
      compute_minHashes hinjB hpos hroom (hfits.mono (Nat.le_add_left _ _)) hbs.1 hbs.2
    obtain ⟨c, hc, hcHashes, -, -⟩ :=
      compute_minHashes hinj hpos hroom (hfits.mono (Finset.card_union_le A B)) hcs.1 hcs.2
    have hsum : a.count + b.count ≤ A.card + B.card := by
      rw [haCount, hbCount]
      exact Nat.add_le_add (Nat.mod_le _ _) (Nat.mod_le _ _)
    obtain ⟨merged, hmerge, hmerged, -, -⟩ :=
      merge_spec (haCapacity.trans hbCapacity.symm) (hfits.mono hsum)
    refine ⟨a, b, c, merged, ha, hb, hc, hmerge, ?_, hcHashes⟩
    rw [hmerged, hcHashes, haHashes, hbHashes, haCapacity, sortedHashes_union,
      ← take_mergeSortDedup]
  · obtain ⟨merged, hmerge, -⟩ := merge_spec rfl hfits
    exact ⟨merged, hmerge, minHashes_merge_self hmerge⟩

end Homomorphism

open Sample

/-- The two sample datoms have different content hashes. -/
theorem contentHash_linked : (linked 0).contentHash ≠ (linked 1).contentHash := by
  decide +kernel

/-- The content hash is injective on the sample datoms. -/
theorem injOn_linked :
    Set.InjOn Datom.contentHash (({linked 0} ∪ {linked 1} : Finset Datom) : Set Datom) := by
  rw [Finset.coe_union, Finset.coe_singleton, Finset.coe_singleton]
  rintro d (rfl | rfl) d' (rfl | rfl) heq
  · rfl
  · exact absurd heq contentHash_linked
  · exact absurd heq.symm contentHash_linked
  · rfl

/-- Two sketches of one hash each. -/
theorem sketch_homomorphism_linked :
    ∃ a b c merged, compute .checked [linked 0] 1 = .ok (.ok a) ∧
      compute .checked [linked 1] 1 = .ok (.ok b) ∧
      compute .checked [linked 1, linked 0] 1 = .ok (.ok c) ∧
      merge .checked a b = .ok (.ok merged) ∧ merged.minHashes = c.minHashes := by
  have hne : linked 1 ≠ linked 0 := fun heq =>
    contentHash_linked (congrArg Datom.contentHash heq).symm
  have hfits : Profile.checked.Fits 64 (({linked 0} : Finset Datom).card +
      ({linked 1} : Finset Datom).card) := by
    rw [Finset.card_singleton, Finset.card_singleton]
    exact .inr (by decide)
  have hunion : [linked 1, linked 0].Nodup ∧
      [linked 1, linked 0].toFinset = ({linked 0} ∪ {linked 1} : Finset Datom) := by
    refine ⟨List.nodup_cons.mpr ⟨fun h => hne (List.mem_singleton.mp h), List.nodup_singleton _⟩,
      ?_⟩
    ext d
    simp [or_comm]
  obtain ⟨⟨a, b, c, merged, ha, hb, hc, hmerge, hhashes, -⟩, -⟩ :=
    sketch_homomorphism injOn_linked Nat.one_pos (.inl (by decide)) hfits
      ⟨List.nodup_singleton (linked 0), rfl⟩ ⟨List.nodup_singleton (linked 1), rfl⟩ hunion
  exact ⟨a, b, c, merged, ha, hb, hc, hmerge, hhashes⟩

/-- A capacity of 2 ^ 58 - 1 has no sketches to merge, whether or not additions are checked. -/
theorem sketch_homomorphism_refused :
    (¬∃ a b c merged, compute .checked [linked 0] (2 ^ 58 - 1) = .ok (.ok a) ∧
      compute .checked [linked 1] (2 ^ 58 - 1) = .ok (.ok b) ∧
      compute .checked [linked 1, linked 0] (2 ^ 58 - 1) = .ok (.ok c) ∧
      merge .checked a b = .ok (.ok merged) ∧ merged.minHashes = c.minHashes) ∧
    ¬∃ a b c merged, compute .wrapping [linked 0] (2 ^ 58 - 1) = .ok (.ok a) ∧
      compute .wrapping [linked 1] (2 ^ 58 - 1) = .ok (.ok b) ∧
      compute .wrapping [linked 1, linked 0] (2 ^ 58 - 1) = .ok (.ok c) ∧
      merge .wrapping a b = .ok (.ok merged) ∧ merged.minHashes = c.minHashes := by
  have hroom (profile : Profile) : ¬Reservable profile (2 ^ 58 - 1) := by
    rintro (hlt | ⟨-, heq⟩)
    · omega
    · omega
  have hrefused (profile : Profile) (a : StoreSketch) :
      compute profile [linked 0] (2 ^ 58 - 1) ≠ .ok (.ok a) := by
    obtain ⟨fault, hfault⟩ :=
      compute_refused (hroom profile) (by decide) (by decide)
    rw [hfault]
    exact fun h => nomatch h
  refine ⟨?_, ?_⟩
  · rintro ⟨a, -, -, -, ha, -⟩
    exact hrefused .checked a ha
  · rintro ⟨a, -, -, -, ha, -⟩
    exact hrefused .wrapping a ha

end StoreSketch

end Ferratomic
