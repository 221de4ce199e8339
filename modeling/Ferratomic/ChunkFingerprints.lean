import Ferratomic.Fingerprint

/-!
# Chunk fingerprints

The canonical array is divided into chunks of a fixed power of two, and an array keeps the exclusive
or of the content hashes of every chunk. `from_canonical` builds it from a canonical array and
`insert_hash` adds one hash at a position. The step lemma is `chunks_buildChunks_concat`: building
over one datom more is one insertion at the end. From it the main theorem
`fingerprint_decomposition` follows by induction on the array.
-/

namespace Ferratomic

open Lib

/-- Per-chunk fingerprints, with a flag for every chunk that was modified. -/
structure ChunkFingerprints where
  chunks : List Hash
  chunkSize : Nat
  dirty : List Bool

/-- `Vec::resize`: cut or fill up to a length. -/
def resize {α : Type} (items : List α) (length : Nat) (value : α) : List α :=
  items.take length ++ List.replicate (length - items.length) value

namespace ChunkFingerprints

variable (target : Endian)

/-- Add a hash to the chunk at an index. -/
def addHash (chunks : List Hash) (index : Nat) (hash : Hash) : List Hash :=
  chunks.modify index fun chunk => xorHashInto target chunk hash

/-- The number of chunks of an array. -/
def numChunks (length chunkSize : Nat) : Nat :=
  if length = 0 then 0 else (length + chunkSize - 1) / chunkSize

/-- The loop of `from_canonical` from a position on. -/
def addAll [Blake3] (chunkSize position : Nat) (chunks : List Hash) : List Datom → List Hash
  | [] => chunks
  | d :: rest =>
      addAll chunkSize (position + 1)
        (addHash target chunks (position / chunkSize) d.contentHash) rest

/-- The chunks that `from_canonical` computes. -/
def buildChunks [Blake3] (canonical : List Datom) (chunkSize : Nat) : List Hash :=
  addAll target chunkSize 0 (List.replicate (numChunks canonical.length chunkSize) zeroHash)
    canonical

/-- `from_canonical`; its assertion rejects a chunk size that is no power of two. -/
def fromCanonical [Blake3] (canonical : List Datom) (chunkSize : Nat) : Option ChunkFingerprints :=
  if chunkSize ≠ 0 ∧ chunkSize &&& (chunkSize - 1) = 0 then
    some ⟨buildChunks target canonical chunkSize, chunkSize,
      List.replicate (numChunks canonical.length chunkSize) false⟩
  else none

/-- `insert_hash`: add a hash to the chunk of a position, which is then dirty. -/
def insertHash (fps : ChunkFingerprints) (position : Nat) (datomHash : Hash) : ChunkFingerprints :=
  let index := position / fps.chunkSize
  let chunks := if fps.chunks.length ≤ index then resize fps.chunks (index + 1) zeroHash
    else fps.chunks
  let dirty := if fps.chunks.length ≤ index then resize fps.dirty (index + 1) false else fps.dirty
  { fps with chunks := addHash target chunks index datomHash, dirty := dirty.set index true }

/-- `store_fingerprint` -/
def storeFingerprint (fps : ChunkFingerprints) : Hash :=
  fps.chunks.foldl (xorHashInto target) zeroHash

/-- `chunk_at` -/
def chunkAt (fps : ChunkFingerprints) (index : Nat) : Hash :=
  (fps.chunks[index]?).getD zeroHash

/-- `diff_chunks` -/
def diffChunks (fps other : ChunkFingerprints) : List Nat :=
  (List.range (max fps.chunks.length other.chunks.length)).filter fun index =>
    fps.chunkAt index ≠ other.chunkAt index

/-- `insert_hash` of datom after datom, from a position on. -/
def appendDatoms [Blake3] (position : Nat) (fps : ChunkFingerprints) :
    List Datom → ChunkFingerprints
  | [] => fps
  | d :: rest => appendDatoms (position + 1) (fps.insertHash target position d.contentHash) rest

section Chunks

variable {target} {chunkSize : Nat}

/-- The number of chunks for one more datom. -/
theorem numChunks_succ (h : 0 < chunkSize) (length : Nat) :
    numChunks (length + 1) chunkSize = length / chunkSize + 1 := by
  have hsum : length + 1 + chunkSize - 1 = length + chunkSize := by omega
  rw [numChunks, if_neg (Nat.succ_ne_zero length), hsum, Nat.add_div_right length h]

/-- Every position of the array lies in a chunk. -/
theorem div_lt_numChunks (h : 0 < chunkSize) {length position : Nat} (hlt : position < length) :
    position / chunkSize < numChunks length chunkSize := by
  obtain ⟨last, rfl⟩ := Nat.exists_eq_succ_of_ne_zero (Nat.ne_zero_of_lt hlt)
  rw [Nat.succ_eq_add_one, numChunks_succ h]
  exact Nat.lt_succ_of_le (Nat.div_le_div_right (Nat.le_of_lt_succ hlt))

/-- One more position needs one chunk more at most. -/
theorem numChunks_le (h : 0 < chunkSize) (length : Nat) :
    numChunks length chunkSize ≤ length / chunkSize + 1 := by
  cases length with
  | zero => exact Nat.zero_le _
  | succ last =>
      rw [numChunks_succ h]
      exact Nat.succ_le_succ (Nat.div_le_div_right (Nat.le_succ last))

/-- Adding a hash keeps the number of chunks. -/
@[simp]
theorem length_addHash (chunks : List Hash) (index : Nat) (hash : Hash) :
    (addHash target chunks index hash).length = chunks.length :=
  List.length_modify _ _ _

/-- Adding a hash leaves further chunks alone. -/
theorem addHash_append {chunks : List Hash} {index : Nat} (h : index < chunks.length)
    (more : List Hash) (hash : Hash) :
    addHash target (chunks ++ more) index hash = addHash target chunks index hash ++ more := by
  induction chunks generalizing index with
  | nil => cases h
  | cons chunk chunks ih =>
      cases index with
      | zero => rfl
      | succ index => exact congrArg (chunk :: ·) (ih (Nat.lt_of_succ_lt_succ h))

/-- Adding a hash to a chunk adds it to the sum of all chunks. -/
theorem sum_addHash {chunks : List Hash} {index : Nat} (h : index < chunks.length) (hash : Hash) :
    (addHash target chunks index hash).sum = chunks.sum + hash := by
  induction chunks generalizing index with
  | nil => cases h
  | cons chunk chunks ih =>
      cases index with
      | zero =>
          show xorHashInto target chunk hash + chunks.sum = chunk + chunks.sum + hash
          rw [xorHashInto_eq, add_right_comm]
          rfl
      | succ index =>
          show chunk + (addHash target chunks index hash).sum = chunk + chunks.sum + hash
          rw [ih (Nat.lt_of_succ_lt_succ h), add_assoc]

variable [Blake3]

/-- Adding all hashes keeps the number of chunks. -/
@[simp]
theorem length_addAll (position : Nat) (chunks : List Hash) (datoms : List Datom) :
    (addAll target chunkSize position chunks datoms).length = chunks.length := by
  induction datoms generalizing position chunks with
  | nil => rfl
  | cons d rest ih => rw [addAll, ih, length_addHash]

/-- The loop over one datom more. -/
theorem addAll_concat (position : Nat) (chunks : List Hash) (datoms : List Datom) (d : Datom) :
    addAll target chunkSize position chunks (datoms ++ [d]) =
      addHash target (addAll target chunkSize position chunks datoms)
        ((position + datoms.length) / chunkSize) d.contentHash := by
  induction datoms generalizing position chunks with
  | nil => rfl
  | cons first rest ih =>
      rw [List.cons_append, addAll, addAll, ih, List.length_cons, Nat.add_right_comm, Nat.add_assoc]

/-- The loop leaves the chunks behind its own alone. -/
theorem addAll_append {position : Nat} {chunks : List Hash} (more : List Hash)
    {datoms : List Datom}
    (h : ∀ i < datoms.length, (position + i) / chunkSize < chunks.length) :
    addAll target chunkSize position (chunks ++ more) datoms =
      addAll target chunkSize position chunks datoms ++ more := by
  induction datoms generalizing position chunks with
  | nil => rfl
  | cons d rest ih =>
      have hfirst : position / chunkSize < chunks.length := h 0 (Nat.succ_pos _)
      rw [addAll, addAll, addHash_append hfirst]
      refine ih fun i hi => ?_
      have := h (i + 1) (Nat.succ_lt_succ hi)
      rwa [length_addHash, Nat.add_assoc, Nat.add_comm 1 i]

/-- The loop adds the content hashes of all datoms to the sum of the chunks. -/
theorem sum_addAll {position : Nat} {chunks : List Hash} {datoms : List Datom}
    (h : ∀ i < datoms.length, (position + i) / chunkSize < chunks.length) :
    (addAll target chunkSize position chunks datoms).sum =
      chunks.sum + (datoms.map Datom.contentHash).sum := by
  induction datoms generalizing position chunks with
  | nil => exact (add_zero _).symm
  | cons d rest ih =>
      have hrest : ∀ i < rest.length, (position + 1 + i) / chunkSize <
          (addHash target chunks (position / chunkSize) d.contentHash).length := fun i hi => by
        have := h (i + 1) (Nat.succ_lt_succ hi)
        rwa [length_addHash, Nat.add_assoc, Nat.add_comm 1 i]
      have hfirst : position / chunkSize < chunks.length := h 0 (Nat.succ_pos _)
      rw [addAll, ih hrest, sum_addHash hfirst, List.map_cons, List.sum_cons, add_assoc]

omit [Blake3] in
/-- Every index of the loop over an array is that of a chunk. -/
theorem index_lt (h : 0 < chunkSize) (canonical : List Datom) :
    ∀ i < canonical.length, (0 + i) / chunkSize <
      (List.replicate (numChunks canonical.length chunkSize) zeroHash).length := by
  intro i hi
  rw [Nat.zero_add, List.length_replicate]
  exact div_lt_numChunks h hi

/-- Building over one datom more is one insertion at the end. -/
theorem chunks_insertHash (h : 0 < chunkSize) {fps : ChunkFingerprints} {canonical : List Datom}
    (hsize : fps.chunkSize = chunkSize)
    (hchunks : fps.chunks = buildChunks target canonical chunkSize)
    (d : Datom) :
    (fps.insertHash target canonical.length d.contentHash).chunks =
      buildChunks target (canonical ++ [d]) chunkSize := by
  have hlength : fps.chunks.length = numChunks canonical.length chunkSize := by
    rw [hchunks, buildChunks, length_addAll, List.length_replicate]
  have hle := numChunks_le h canonical.length
  have hreplicate : List.replicate (numChunks (canonical ++ [d]).length chunkSize) zeroHash =
      List.replicate (numChunks canonical.length chunkSize) zeroHash ++
        List.replicate (canonical.length / chunkSize + 1 - fps.chunks.length) zeroHash := by
    rw [List.length_append, List.length_singleton, numChunks_succ h,
      List.replicate_append_replicate,
      hlength, Nat.add_sub_cancel' hle]
  have hbuild : buildChunks target (canonical ++ [d]) chunkSize =
      addHash target (fps.chunks ++
          List.replicate (canonical.length / chunkSize + 1 - fps.chunks.length) zeroHash)
        (canonical.length / chunkSize) d.contentHash := by
    rw [buildChunks, hreplicate, addAll_concat, addAll_append _ (index_lt h canonical),
      Nat.zero_add,
      hchunks]
    rfl
  rw [hbuild, insertHash, hsize]
  dsimp only
  by_cases hshort : fps.chunks.length ≤ canonical.length / chunkSize
  · rw [if_pos hshort, resize, List.take_of_length_le (Nat.le_succ_of_le hshort)]
  · have hnone : canonical.length / chunkSize + 1 - fps.chunks.length = 0 := by omega
    rw [if_neg hshort, hnone, List.replicate_zero, List.append_nil]

/-- Appending datoms one by one gives the chunks of the longer array. -/
theorem chunks_appendDatoms (h : 0 < chunkSize) {fps : ChunkFingerprints} {canonical : List Datom}
    (hsize : fps.chunkSize = chunkSize)
    (hchunks : fps.chunks = buildChunks target canonical chunkSize)
    (datoms : List Datom) :
    (appendDatoms target canonical.length fps datoms).chunks =
      buildChunks target (canonical ++ datoms) chunkSize := by
  induction datoms generalizing fps canonical with
  | nil => rw [appendDatoms, hchunks, List.append_nil]
  | cons d rest ih =>
      have hnext := @ih (fps.insertHash target canonical.length d.contentHash) (canonical ++ [d])
        hsize (chunks_insertHash h hsize hchunks d)
      rw [List.length_append, List.length_singleton, List.append_assoc] at hnext
      exact hnext

omit [Blake3] in
/-- What a loop of exclusive ors on words accumulates. -/
theorem foldl_xorHashInto {α : Type} (f : α → Hash) (items : List α) :
    items.foldl (fun acc a => xorHashInto target acc (f a)) zeroHash = (items.map f).sum := by
  simp only [xorHashInto_eq, foldl_xorHash]
  exact zero_add _

/-- The chunks add up to the fingerprint of the array. -/
theorem sum_buildChunks (h : 0 < chunkSize) (canonical : List Datom) :
    (buildChunks target canonical chunkSize).sum = (canonical.map Datom.contentHash).sum := by
  have hzero : ∀ count, (List.replicate count zeroHash).sum = 0 := fun count =>
    List.sum_replicate count zeroHash |>.trans (smul_zero count)
  rw [buildChunks, sum_addAll (index_lt h canonical), hzero, zero_add]

variable (target) in
/-- A power of two is a chunk size. -/
theorem exists_fromCanonical (canonical : List Datom) (exponent : Nat) :
    ∃ fps, fromCanonical target canonical (2 ^ exponent) = some fps ∧
      fps.chunkSize = 2 ^ exponent ∧ fps.chunks = buildChunks target canonical (2 ^ exponent) := by
  have hpower : 2 ^ exponent ≠ 0 ∧ 2 ^ exponent &&& (2 ^ exponent - 1) = 0 :=
    Nat.ne_zero_and_sub_one_eq_zero_iff_isPowerOfTwo.mpr ⟨exponent, rfl⟩
  rw [fromCanonical, if_pos hpower]
  exact ⟨_, rfl, rfl, rfl⟩

end Chunks

/-- Where the chunks are the same none differs. -/
theorem diffChunks_eq_nil {fps other : ChunkFingerprints} (h : fps.chunks = other.chunks) :
    fps.diffChunks other = [] := by
  refine List.filter_eq_nil_iff.mpr fun index _ => ?_
  simp [chunkAt, h]

end ChunkFingerprints

section Merge

variable [Blake3]

/-- The fingerprint of a merge counts the common datoms once. -/
theorem fingerprint_mergePositional (a b : PositionalStore) :
    (PositionalStore.mergePositional a b).fingerprint =
      xorHash (xorHash a.fingerprint b.fingerprint)
        (computeFingerprint (a.canonical.filter fun d => d ∈ b.canonical)) := by
  have hcommon : (a.canonical.filter fun d => d ∈ b.canonical).toFinset =
      a.canonical.toFinset ∩ b.canonical.toFinset := by
    ext d
    simp
  have hunion : ∑ d ∈ a.canonical.toFinset ∪ b.canonical.toFinset, d.contentHash +
      ∑ d ∈ a.canonical.toFinset ∩ b.canonical.toFinset, d.contentHash =
      ∑ d ∈ a.canonical.toFinset, d.contentHash + ∑ d ∈ b.canonical.toFinset, d.contentHash :=
    Finset.sum_union_inter
  rw [PositionalStore.fingerprint_eq, a.fingerprint_eq, b.fingerprint_eq,
    computeFingerprint_toFinset (PositionalStore.sorted _), computeFingerprint_toFinset a.sorted,
    computeFingerprint_toFinset b.sorted, computeFingerprint_toFinset (a.sorted.filter _), hcommon,
    PositionalStore.toFinset_mergePositional]
  show _ = (_ + _ : Hash) + _
  rw [← hunion, add_assoc, hash_add_self, add_zero]

/-- The fingerprint of a merge is that of both stores without the common datoms; the chunks of an
array add up to its fingerprint; and datoms appended one by one give the chunks of the longer
array. -/
theorem fingerprint_decomposition (target : Endian) :
    (∀ a b : PositionalStore, (PositionalStore.mergePositional a b).fingerprint =
      xorHash (xorHash a.fingerprint b.fingerprint)
        (computeFingerprint (a.canonical.filter fun d => d ∈ b.canonical))) ∧
    (∀ (ps : PositionalStore) (exponent : Nat), ∃ fps,
      ChunkFingerprints.fromCanonical target ps.canonical (2 ^ exponent) = some fps ∧
        fps.storeFingerprint target = ps.fingerprint ∧
        ps.fingerprint =
          ps.canonical.foldl (fun fp d => xorHashInto target fp d.contentHash) zeroHash) ∧
    ∀ (canonical appended : List Datom) (exponent : Nat), ∃ fps rebuilt,
      ChunkFingerprints.fromCanonical target canonical (2 ^ exponent) = some fps ∧
        ChunkFingerprints.fromCanonical target (canonical ++ appended) (2 ^ exponent) =
          some rebuilt ∧
        (fps.appendDatoms target canonical.length appended).chunks = rebuilt.chunks ∧
        (fps.appendDatoms target canonical.length appended).diffChunks rebuilt = [] := by
  have hpos : ∀ exponent, 0 < 2 ^ exponent := fun exponent => Nat.pow_pos (by decide)
  refine ⟨fingerprint_mergePositional, fun ps exponent => ?_, fun canonical appended exponent => ?_⟩
  · -- the fingerprint is the sum over all datoms, which the sums of the chunks make up
    have hstore : (ps.canonical.map Datom.contentHash).sum = ps.fingerprint := by
      rw [ps.fingerprint_eq, computeFingerprint, foldl_xorHash]
      exact (zero_add _).symm
    obtain ⟨fps, hbuilt, -, hchunks⟩ :=
      ChunkFingerprints.exists_fromCanonical target ps.canonical exponent
    refine ⟨fps, hbuilt, ?_, ?_⟩
    · have hsum := @ChunkFingerprints.foldl_xorHashInto target _ id fps.chunks
      rwa [List.map_id, hchunks, ChunkFingerprints.sum_buildChunks (hpos exponent), hstore,
        ← hchunks] at hsum
    · rw [ChunkFingerprints.foldl_xorHashInto, hstore]
  · obtain ⟨fps, hbuilt, hsize, hchunks⟩ :=
      ChunkFingerprints.exists_fromCanonical target canonical exponent
    obtain ⟨rebuilt, hrebuilt, -, hchunks'⟩ :=
      ChunkFingerprints.exists_fromCanonical target (canonical ++ appended) exponent
    have happended := ChunkFingerprints.chunks_appendDatoms (hpos exponent) hsize hchunks appended
    rw [← hchunks'] at happended
    exact ⟨fps, rebuilt, hbuilt, hrebuilt, happended,
      ChunkFingerprints.diffChunks_eq_nil happended⟩

end Merge

end Ferratomic
