import Ferratomic.Lib.SortedList
import Ferratomic.Datom
import Ferratomic.Error

/-!
# Positional stores

The contiguous-array representation of a datom set: the datoms in strictly ascending EAVT
order, the positions of the LIVE datoms and the XOR fingerprint. A `PositionalStore` carries the
proofs that its array ascends strictly and that its fingerprint is that of the array. The main
theorems say which datoms the constructors and the merge hold (`toFinset_fromDatoms`,
`toFinset_mergePositional`) and that LIVE positions survive the trip through a dense bit vector
(`toFinset_iterOnes_bitsOfPositions`).
-/

namespace Ferratomic

open Lib

/-- The largest `u32`, the bound of the position space. -/
def u32Max : Nat := 2 ^ 32 - 1

section Fingerprint

/-- `xor_hash_into`: the bytewise exclusive or of two digests. -/
def xorHash (a b : Hash) : Hash :=
  ⟨List.zipWith (· ^^^ ·) a.val b.val, by
    rw [List.length_zipWith, a.property, b.property, Nat.min_self]⟩

/-- The digest of the empty set. -/
def zeroHash : Hash :=
  ⟨List.replicate 32 0, List.length_replicate⟩

/-- `compute_fingerprint`: the exclusive or of the content hashes. -/
def computeFingerprint [Blake3] (canonical : List Datom) : Hash :=
  canonical.foldl (fun fp d => xorHash fp d.contentHash) zeroHash

end Fingerprint

section Live

/-- `live_positions_from_sorted_runs`: scan the runs of equal keys from position `start` and keep
the last position of each run that ends in an assertion. A position beyond `u32` saturates. -/
def livePositionsFromSortedRuns {K : Type} [DecidableEq K] (start : Nat) :
    List (K × Op) → List Nat
  | [] => []
  | (key, op) :: rest =>
      let run := rest.takeWhile (·.1 = key)
      let last := start + run.length
      let lastOp := ((run.map Prod.snd).getLast?).getD op
      let later := livePositionsFromSortedRuns (last + 1) (rest.dropWhile (·.1 = key))
      if lastOp = .assert then min last u32Max :: later else later
termination_by entries => entries.length
decreasing_by
  exact Nat.lt_succ_of_le (List.dropWhile_suffix _).length_le

/-- The `(entity, attribute, value)` triple that groups datoms into runs. -/
def Datom.runKey (d : Datom) : EntityId × Attribute × Value :=
  (d.entity, d.attr, d.value)

/-- `live_positions_kernel`: the LIVE positions of an ascending datom array. -/
def livePositionsKernel (canonical : List Datom) : List Nat :=
  livePositionsFromSortedRuns 0 (canonical.map fun d => (d.runKey, d.op))

/-- `build_live_roaring`: the LIVE positions as a set. -/
def buildLiveRoaring (canonical : List Datom) : Finset Nat :=
  (livePositionsKernel canonical).toFinset

/-- A dense bit vector of the given length with the given positions set. -/
def bitsOfPositions (length : Nat) (positions : List Nat) : List Bool :=
  positions.foldl (fun bits position => bits.set position true) (List.replicate length false)

/-- `build_live_bitvector_pub`: the LIVE positions as a dense bit vector. -/
def buildLiveBitvectorPub (sorted : List Datom) : List Bool :=
  bitsOfPositions sorted.length (livePositionsKernel sorted)

/-- The positions of the set bits, in ascending order. -/
def iterOnes (bits : List Bool) : List Nat :=
  (List.range bits.length).filter fun i => bits[i]? = some true

/-- Setting bits keeps the length. -/
theorem length_foldl_set (bits : List Bool) (positions : List Nat) :
    (positions.foldl (fun bits position => bits.set position true) bits).length =
      bits.length := by
  induction positions generalizing bits with
  | nil => rfl
  | cons position positions ih => rw [List.foldl_cons, ih, List.length_set]

/-- Setting bits sets exactly the given positions. -/
theorem getElem?_foldl_set (bits : List Bool) (positions : List Nat) (i : Nat) :
    (positions.foldl (fun bits position => bits.set position true) bits)[i]? =
      if i ∈ positions ∧ i < bits.length then some true else bits[i]? := by
  induction positions generalizing bits with
  | nil => simp
  | cons position positions ih =>
      rw [List.foldl_cons, ih, List.length_set, List.getElem?_set]
      by_cases hpos : position = i
      · subst hpos
        by_cases hlt : position < bits.length
        · simp [hlt]
        · simp [hlt]
      · have hpos' : i ≠ position := fun h => hpos h.symm
        simp [hpos, hpos']

/-- The vector has as many bits as were asked for. -/
@[simp]
theorem length_bitsOfPositions (length : Nat) (positions : List Nat) :
    (bitsOfPositions length positions).length = length := by
  rw [bitsOfPositions, length_foldl_set, List.length_replicate]

/-- The set bits of a bit vector built from positions are those positions. -/
theorem mem_iterOnes_bitsOfPositions {length : Nat} {positions : List Nat} {i : Nat} :
    i ∈ iterOnes (bitsOfPositions length positions) ↔ i ∈ positions ∧ i < length := by
  rw [iterOnes, List.mem_filter, List.mem_range, length_bitsOfPositions, bitsOfPositions,
    getElem?_foldl_set, List.length_replicate, decide_eq_true_eq]
  by_cases hlt : i < length
  · by_cases hmem : i ∈ positions
    · simp [hlt, hmem]
    · simp [hlt, hmem]
  · simp [hlt]

/-- LIVE positions are positions of the array. -/
theorem lt_of_mem_livePositions {K : Type} [DecidableEq K] {start : Nat}
    {entries : List (K × Op)} {i : Nat} (h : i ∈ livePositionsFromSortedRuns start entries) :
    i < start + entries.length := by
  fun_induction livePositionsFromSortedRuns start entries with
  | case1 => cases h
  | case2 start key op rest run last lastOp later hop ih =>
      have hsplit : run.length + (rest.dropWhile (·.1 = key)).length = rest.length := by
        rw [← List.length_append, List.takeWhile_append_dropWhile]
      rw [List.length_cons]
      rcases List.mem_cons.mp h with rfl | hlater
      · omega
      · have := ih hlater
        omega
  | case3 start key op rest run last lastOp later hop ih =>
      have hsplit : run.length + (rest.dropWhile (·.1 = key)).length = rest.length := by
        rw [← List.length_append, List.takeWhile_append_dropWhile]
      rw [List.length_cons]
      have := ih h
      omega

/-- The kernel's positions are positions of the array. -/
theorem lt_of_mem_livePositionsKernel {canonical : List Datom} {i : Nat}
    (h : i ∈ livePositionsKernel canonical) : i < canonical.length := by
  have := lt_of_mem_livePositions h
  rwa [List.length_map, Nat.zero_add] at this

/-- The LIVE positions survive the trip through a dense bit vector. -/
theorem toFinset_iterOnes_bitsOfPositions {canonical : List Datom} {positions : List Nat}
    (h : positions.toFinset = buildLiveRoaring canonical) :
    (iterOnes (bitsOfPositions canonical.length positions)).toFinset =
      buildLiveRoaring canonical := by
  ext i
  have hiff : i ∈ positions ↔ i ∈ livePositionsKernel canonical := by
    have := Finset.ext_iff.mp h i
    rwa [List.mem_toFinset, buildLiveRoaring, List.mem_toFinset] at this
  rw [List.mem_toFinset, mem_iterOnes_bitsOfPositions, buildLiveRoaring, List.mem_toFinset, hiff]
  exact and_iff_left_of_imp lt_of_mem_livePositionsKernel

end Live

/-- The contiguous-array representation of a datom set. -/
structure PositionalStore [Blake3] where
  canonical : List Datom
  liveBits : Finset Nat
  fingerprint : Hash
  sorted : canonical.Pairwise (· < ·)
  fingerprint_eq : fingerprint = computeFingerprint canonical

namespace PositionalStore

variable [Blake3]

/-- `from_sorted_canonical`: build from a strictly ascending array. -/
def fromSortedCanonical (canonical : List Datom) (sorted : canonical.Pairwise (· < ·)) :
    PositionalStore :=
  ⟨canonical, buildLiveRoaring canonical, computeFingerprint canonical, sorted, rfl⟩

/-- `from_datoms`: sort, deduplicate and build. -/
def fromDatoms (datoms : List Datom) : PositionalStore :=
  fromSortedCanonical (sortDedup datoms) (pairwise_sortDedup datoms)

/-- `merge_positional`: merge the arrays and rebuild. -/
def mergePositional (a b : PositionalStore) : PositionalStore :=
  fromSortedCanonical (mergeSortDedup a.canonical b.canonical)
    (pairwise_mergeSortDedup a.sorted b.sorted)

/-- `live_bits_clone`: the LIVE positions as a dense bit vector. -/
def liveBitsClone (ps : PositionalStore) : List Bool :=
  bitsOfPositions ps.canonical.length (ps.liveBits.sort (· ≤ ·))

/-- `from_sorted_with_live`: build from an array and a given bit vector, checking the length of
the bits, the order of the array and the position space. -/
def fromSortedWithLive (canonical : List Datom) (liveBits : List Bool) :
    Except FerraError PositionalStore :=
  if liveBits.length ≠ canonical.length then
    .error (.invariantViolation "INV-FERR-076"
      s!"live_bits length ({liveBits.length}) != canonical length ({canonical.length})")
  else if sorted : canonical.Pairwise (· < ·) then
    if canonical.length ≤ u32Max then
      .ok ⟨canonical, (iterOnes liveBits).toFinset, computeFingerprint canonical, sorted, rfl⟩
    else
      .error (.invariantViolation "INV-FERR-076" "canonical array exceeds u32 position space")
  else
    .error (.invariantViolation "INV-FERR-076"
      "canonical datoms not strictly sorted (EAVT order, no duplicates)")

/-- The datoms of a store built from a list. -/
@[simp]
theorem toFinset_fromDatoms (datoms : List Datom) :
    (fromDatoms datoms).canonical.toFinset = datoms.toFinset :=
  toFinset_sortDedup datoms

/-- A store built from ascending datoms has them in this order. -/
@[simp]
theorem canonical_fromSortedCanonical (canonical : List Datom)
    (sorted : canonical.Pairwise (· < ·)) :
    (fromSortedCanonical canonical sorted).canonical = canonical := rfl

/-- An ascending array within the position space is accepted with any bits of its length. -/
theorem exists_fromSortedWithLive {canonical : List Datom} {bits : List Bool}
    (sorted : canonical.Pairwise (· < ·)) (hlength : bits.length = canonical.length)
    (hlen : canonical.length ≤ u32Max) :
    ∃ ps, fromSortedWithLive canonical bits = .ok ps ∧ ps.canonical = canonical := by
  rw [fromSortedWithLive, if_neg (not_not.mpr hlength), dif_pos sorted, if_pos hlen]
  exact ⟨_, rfl, rfl⟩

/-- An ascending array within the position space is rebuilt from dense bits that mark the scan's
positions. -/
theorem fromSortedWithLive_eq {canonical : List Datom} {bits : List Bool}
    (sorted : canonical.Pairwise (· < ·)) (hlength : bits.length = canonical.length)
    (hones : (iterOnes bits).toFinset = buildLiveRoaring canonical)
    (hlen : canonical.length ≤ u32Max) :
    fromSortedWithLive canonical bits = .ok (fromSortedCanonical canonical sorted) := by
  rw [fromSortedWithLive, if_neg (not_not.mpr hlength), dif_pos sorted, if_pos hlen]
  simp only [hones]
  rfl

/-- A longer array is refused. -/
theorem fromSortedWithLive_over {canonical : List Datom} {bits : List Bool}
    (sorted : canonical.Pairwise (· < ·)) (hlength : bits.length = canonical.length)
    (hlen : u32Max < canonical.length) :
    fromSortedWithLive canonical bits =
      .error (.invariantViolation "INV-FERR-076"
        "canonical array exceeds u32 position space") := by
  rw [fromSortedWithLive, if_neg (not_not.mpr hlength), dif_pos sorted,
    if_neg (Nat.not_le.mpr hlen)]

/-- The datoms of a merge are the union. -/
@[simp]
theorem toFinset_mergePositional (a b : PositionalStore) :
    (mergePositional a b).canonical.toFinset = a.canonical.toFinset ∪ b.canonical.toFinset :=
  toFinset_mergeSortDedup a.canonical b.canonical

end PositionalStore

end Ferratomic
