import Ferratomic.Prolly.Tree

/-!
# Reading a prolly tree

A read descends from the root to the leaves and collects their entries, into a map or into a list.
The main theorem, `prolly_round_trip`, says that a read after a build gives the map back, that the
list is sorted, and that two maps have the same root only if they are equal.
-/

namespace Ferratomic.Prolly

open Lib

section Reading

variable [Blake3]

/-- The loop over the children of an internal chunk. -/
def readChildren {σ : Type} (read : Hash → σ → Option (Except FerraError σ)) :
    List Hash → σ → Option (Except FerraError σ)
  | [], result => some (.ok result)
  | addr :: rest, result =>
      match read addr result with
      | some (.ok result) => readChildren read rest result
      | some (.error e) => some (.error e)
      | none => none

/-- The descent that `read_subtree` and `read_subtree_vec` share, to a bounded depth. -/
def readSubtreeWith {σ : Type} (collect : σ → List KvEntry → σ) (store : ChunkStore) :
    Nat → Hash → σ → Option (Except FerraError σ)
  | 0, _, _ => none
  | fuel + 1, addr, result =>
      match store.loadChunk "INV-FERR-049" "during tree traversal" addr with
      | .error e => some (.error e)
      | .ok chunk =>
          match chunk.data with
          | [] => some (.error .emptyChunk)
          | tag :: _ =>
              if tag = 0x01 then some ((deserializeLeafChunk chunk.data).map (collect result))
              else if tag = 0x02 then
                match decodeChildAddrs chunk.data with
                | .error e => some (.error e)
                | .ok children => readChildren (readSubtreeWith collect store fuel) children result
              else some (.error (.unknownCodecTag tag))

/-- The insertions of `read_subtree`. -/
def insertAll (result : OrdMap Bytes Bytes) (entries : List KvEntry) : OrdMap Bytes Bytes :=
  entries.foldl (fun map entry => map.insert entry.1 entry.2) result

/-- `read_subtree` -/
def readSubtree (store : ChunkStore) (fuel : Nat) (addr : Hash) (result : OrdMap Bytes Bytes) :
    Option (Except FerraError (OrdMap Bytes Bytes)) :=
  readSubtreeWith insertAll store fuel addr result

/-- `read_subtree_vec` -/
def readSubtreeVec (store : ChunkStore) (fuel : Nat) (addr : Hash) (result : List KvEntry) :
    Option (Except FerraError (List KvEntry)) :=
  readSubtreeWith (· ++ ·) store fuel addr result

/-- `read_prolly_tree` -/
def readProllyTree (fuel : Nat) (root : Hash) (store : ChunkStore) :
    Option (Except FerraError (OrdMap Bytes Bytes)) :=
  readSubtree store fuel root ∅

/-- `read_prolly_tree_vec` -/
def readProllyTreeVec (fuel : Nat) (root : Hash) (store : ChunkStore) :
    Option (Except FerraError (List KvEntry)) :=
  readSubtreeVec store fuel root []

/-- A stored chunk is loaded. -/
theorem ChunkStore.loadChunk_ok {store : ChunkStore} {addr : Hash} {chunk : Chunk}
    (h : store.stored addr chunk) (invariant situation : String) :
    store.loadChunk invariant situation addr = .ok chunk := by
  have hget : store.getChunk addr = some chunk := h
  simp only [loadChunk, hget]

section Descent

variable {σ : Type} {collect : σ → List KvEntry → σ} {store : ChunkStore}

omit [Blake3] in
/-- Reading children one after the other collects their entries in order. -/
theorem readChildren_ok {n : Nat} {read : Hash → σ → Option (Except FerraError σ)}
    (hnil : ∀ result, collect result [] = result)
    (happend : ∀ result left right,
      collect (collect result left) right = collect result (left ++ right))
    {trees : List (Tree n)} {addrs : List Hash}
    (h : List.Forall₂ (fun tree addr => ∀ result, read addr result =
      some (.ok (collect result tree.entries))) trees addrs) (result : σ) :
    readChildren read addrs result = some (.ok (collect result (trees.flatMap Tree.entries))) := by
  induction h generalizing result with
  | nil => simp only [readChildren, List.flatMap_nil, hnil]
  | cons hread hrest ih =>
      simp only [readChildren, hread, ih, happend, List.flatMap_cons]

/-- A descent that is deep enough collects the entries of the tree that the store holds. -/
theorem readSubtreeWith_ok (hnil : ∀ result, collect result [] = result)
    (happend : ∀ result left right,
      collect (collect result left) right = collect result (left ++ right))
    {n : Nat} {tree : Tree n} {addr : Hash} (h : Holds store.stored tree addr) {fuel : Nat}
    (hfuel : n < fuel) (result : σ) :
    readSubtreeWith collect store fuel addr result =
      some (.ok (collect result tree.entries)) := by
  -- the depth of the tree bounds the depth of the descent
  induction n generalizing addr fuel result with
  | zero =>
      obtain ⟨fuel, rfl⟩ := Nat.exists_eq_add_of_lt hfuel
      obtain ⟨chunk, hchunk, hdata, hkeys⟩ := h
      obtain ⟨rest, htag⟩ := serializeLeafChunk_tag hdata
      have hentries := deserializeLeafChunk_ok hdata hkeys
      unfold readSubtreeWith
      simp only [ChunkStore.loadChunk_ok hchunk, hentries, Except.map]
      rw [htag]
      rfl
  | succ n ih =>
      obtain ⟨fuel, rfl⟩ : ∃ less, fuel = less + 1 := ⟨fuel - 1, by omega⟩
      obtain ⟨chunk, level, children, hchunk, hdata, hchildren⟩ := h
      obtain ⟨rest, htag⟩ := serializeInternalChunk_tag hdata
      have haddrs := decodeChildAddrs_ok hdata
      have hleaf : ¬ (0x02 : UInt8) = 0x01 := by decide
      unfold readSubtreeWith
      simp only [ChunkStore.loadChunk_ok hchunk, haddrs]
      rw [htag]
      simp only [if_neg hleaf, if_true]
      refine readChildren_ok hnil happend (List.forall₂_map_right_iff.mpr ?_) result
      exact hchildren.imp fun _ _ hchild result => ih hchild (by omega) result

end Descent

omit [Blake3] in
/-- Inserting the entries of a map into no entries gives the map. -/
theorem insertAll_toList (kvs : OrdMap Bytes Bytes) : insertAll ∅ kvs.toList = kvs := by
  have hinsert : (fun (map : OrdMap Bytes Bytes) (entry : KvEntry) => map.insert entry.1 entry.2) =
      fun map entry => OrdMap.unionStep (fun _ value => value) map entry.1 entry.2 := by
    funext map entry
    refine OrdMap.ext fun probe => ?_
    rw [OrdMap.getElem?_insert_eq, OrdMap.getElem?_unionStep]
    cases map[probe]? <;> rfl
  refine OrdMap.ext fun probe => ?_
  unfold insertAll
  rw [hinsert, OrdMap.getElem?_foldl_unionStep _ _ (OrdMap.pairwise_keys_toList kvs),
    OrdMap.find?_toList]
  simp

/-- What the two reads return from a tree that the store holds. -/
theorem readProllyTree_ok {store : ChunkStore} {n : Nat} {tree : Tree n} {root : Hash}
    (h : Holds store.stored tree root) {fuel : Nat} (hfuel : n < fuel) :
    readProllyTree fuel root store = some (.ok (insertAll ∅ tree.entries)) :=
  readSubtreeWith_ok (fun _ => rfl) (fun _ _ _ => (List.foldl_append).symm) h hfuel ∅

/-- A tree within the depth is read as its entries. -/
theorem readProllyTreeVec_ok {store : ChunkStore} {n : Nat} {tree : Tree n} {root : Hash}
    (h : Holds store.stored tree root) {fuel : Nat} (hfuel : n < fuel) :
    readProllyTreeVec fuel root store = some (.ok tree.entries) :=
  readSubtreeWith_ok List.append_nil List.append_assoc h hfuel []

/-- Two trees that a store holds under one address have the same entries. -/
theorem Holds.entries_eq {store : ChunkStore} {n m : Nat} {left : Tree n} {right : Tree m}
    {addr : Hash} (hleft : Holds store.stored left addr) (hright : Holds store.stored right addr) :
    left.entries = right.entries := by
  have hl := readProllyTreeVec_ok hleft (show n < n + m + 1 by omega)
  have hr := readProllyTreeVec_ok hright (show m < n + m + 1 by omega)
  exact Except.ok.inj (Option.some.inj (hl.symm.trans hr))

variable [Blake3DeriveKey]

/-- The byte strings that a build puts. -/
def written (kvs : OrdMap Bytes Bytes) (patternWidth : Fin 64) : Set Bytes :=
  {data | ∃ chunk ∈ (buildWrites kvs patternWidth).2, chunk.data = data}

/-- The store has the chunks of a build of the map that ends in the root. -/
def BuiltIn (store : ChunkStore) (patternWidth : Fin 64) (root : Hash) (kvs : OrdMap Bytes Bytes) :
    Prop :=
  (buildWrites kvs patternWidth).1 = .ok root ∧
    ∀ chunk ∈ (buildWrites kvs patternWidth).2, store.getChunk chunk.addr = some chunk

section Built

variable {store : ChunkStore} {patternWidth : Fin 64} {root : Hash} {kvs : OrdMap Bytes Bytes}

/-- The chunks of a build stay when more chunks are put. -/
theorem BuiltIn.putAll (h : BuiltIn store patternWidth root kvs) (chunks : List Chunk) :
    BuiltIn (store.putAll chunks) patternWidth root kvs :=
  ⟨h.1, fun chunk hchunk => ChunkStore.getChunk_putAll_of_some (h.2 chunk hchunk) chunks⟩

/-- A store with the chunks of a build holds a tree with the entries of the map. -/
theorem BuiltIn.holds (h : BuiltIn store patternWidth root kvs) :
    ∃ (n : Nat) (tree : Tree n), tree.entries = kvs.toList ∧ Holds store.stored tree root := by
  obtain ⟨hbuild, hstored⟩ := h
  obtain ⟨n, tree, root', hroot, hentries, hheld⟩ :=
    buildWrites_ok patternWidth (sized_of_buildWrites hbuild)
  obtain rfl : root = root' := Except.ok.inj (hbuild.symm.trans hroot)
  refine ⟨n, tree, hentries, hheld.mono ?_⟩
  rintro addr chunk ⟨hmem, rfl⟩
  exact hstored chunk hmem

/-- After a build the store has its chunks, unless two of the byte strings have one hash. -/
theorem builtIn_buildProllyTree (hroot : (buildProllyTree kvs store patternWidth).1 = .ok root)
    (hhash : Set.InjOn Blake3.hash (store.contents ∪ written kvs patternWidth)) :
    BuiltIn (buildProllyTree kvs store patternWidth).2 patternWidth root kvs :=
  ⟨hroot, fun _ hchunk => ChunkStore.getChunk_putAll hhash hchunk⟩

end Built

/-- Maps with one root are equal, unless two of their chunks have one hash. -/
theorem eq_of_root_eq {kvs other : OrdMap Bytes Bytes} {patternWidth : Fin 64}
    (hsized : ∀ entry ∈ kvs.toList, Sized entry) (hother : ∀ entry ∈ other.toList, Sized entry)
    (hhash : Set.InjOn Blake3.hash (written kvs patternWidth ∪ written other patternWidth))
    (h : (buildWrites kvs patternWidth).1 = (buildWrites other patternWidth).1) : kvs = other := by
  obtain ⟨n, left, root, hroot, hleft, hheldLeft⟩ := buildWrites_ok patternWidth hsized
  obtain ⟨m, right, root', hroot', hright, hheldRight⟩ := buildWrites_ok patternWidth hother
  obtain rfl : root = root' := Except.ok.inj (hroot.symm.trans (h.trans hroot'))
  -- read the root in a store with the chunks of both builds
  let chunks := (buildWrites kvs patternWidth).2 ++ (buildWrites other patternWidth).2
  have hchunks : Set.InjOn Blake3.hash
      (ChunkStore.empty.contents ∪ {data | ∃ chunk ∈ chunks, chunk.data = data}) := by
    refine hhash.mono ?_
    rintro data (⟨addr, chunk, hchunk, -⟩ | ⟨chunk, hchunk, hdata⟩)
    · cases hchunk
    · rcases List.mem_append.mp hchunk with hchunk | hchunk
      · exact .inl ⟨chunk, hchunk, hdata⟩
      · exact .inr ⟨chunk, hchunk, hdata⟩
  have hstored : ∀ addr chunk, listed chunks addr chunk →
      (ChunkStore.empty.putAll chunks).stored addr chunk := by
    rintro addr chunk ⟨hmem, rfl⟩
    exact ChunkStore.getChunk_putAll hchunks hmem
  have hstoredLeft : Holds (ChunkStore.empty.putAll chunks).stored left root :=
    hheldLeft.mono fun addr chunk h =>
      hstored addr chunk ⟨List.mem_append_left _ h.1, h.2⟩
  have hstoredRight : Holds (ChunkStore.empty.putAll chunks).stored right root :=
    hheldRight.mono fun addr chunk h =>
      hstored addr chunk ⟨List.mem_append_right _ h.1, h.2⟩
  have hentries := hstoredLeft.entries_eq hstoredRight
  rw [hleft, hright] at hentries
  rw [← insertAll_toList kvs, hentries, insertAll_toList]

/-- A build returns a root from which both reads give the map back, the second as a sorted list;
and the root identifies the map among those built with the same pattern width. -/
theorem prolly_round_trip {kvs : OrdMap Bytes Bytes} {store : ChunkStore} {patternWidth : Fin 64}
    (hsized : ∀ entry ∈ kvs.toList, Sized entry)
    (hhash : Set.InjOn Blake3.hash (store.contents ∪ written kvs patternWidth)) :
    (∃ root, (buildProllyTree kvs store patternWidth).1 = .ok root ∧
      ∃ depth, ∀ fuel ≥ depth,
        readProllyTree fuel root (buildProllyTree kvs store patternWidth).2 = some (.ok kvs) ∧
        ∃ entries, readProllyTreeVec fuel root (buildProllyTree kvs store patternWidth).2 =
          some (.ok entries) ∧ entries = kvs.toList ∧ entries.Pairwise fun a b => a.1 < b.1) ∧
    ∀ (other : OrdMap Bytes Bytes) (otherStore : ChunkStore),
      (∀ entry ∈ other.toList, Sized entry) →
      Set.InjOn Blake3.hash (written kvs patternWidth ∪ written other patternWidth) →
      ((buildProllyTree kvs store patternWidth).1 =
        (buildProllyTree other otherStore patternWidth).1 ↔ kvs = other) := by
  constructor
  · obtain ⟨-, -, root, hroot, -, -⟩ := buildWrites_ok patternWidth hsized
    obtain ⟨n, tree, hentries, hstored⟩ := (builtIn_buildProllyTree hroot hhash).holds
    refine ⟨root, hroot, n + 1, fun fuel hfuel => ⟨?_, kvs.toList, ?_, rfl,
      OrdMap.pairwise_keys_toList kvs⟩⟩
    · rw [readProllyTree_ok hstored hfuel, hentries, insertAll_toList]
    · rw [readProllyTreeVec_ok hstored hfuel, hentries]
  · intro other otherStore hother hboth
    constructor
    · exact eq_of_root_eq hsized hother hboth
    · rintro rfl
      rfl

end Reading

section Sample

/-- The first 32 entries of a map with 33 one-byte keys. -/
def firstGroup : List KvEntry :=
  (List.range 32).map fun i => ([UInt8.ofNat i], [])

/-- A map that takes two leaf chunks and a root above them. -/
def manyMap : OrdMap Bytes Bytes :=
  (List.range 33).foldl (fun map i => map.insert [UInt8.ofNat i] []) ∅

/-- The leaf chunk of the first entries. -/
def firstLeaf : Bytes :=
  [1, 32, 0, 0, 0] ++ firstGroup.flatMap fun entry => [1, 0, 0, 0] ++ entry.1 ++ [0, 0, 0, 0]

/-- The leaf chunk of the last entry. -/
def lastLeaf : Bytes :=
  [1, 1, 0, 0, 0, 1, 0, 0, 0, 32, 0, 0, 0, 0]

/-- The internal chunk with two children. -/
def pairChunk (first last : Hash) : Bytes :=
  [2, 1, 2, 0, 0, 0] ++ ([1, 0, 0, 0, 0] ++ first.val) ++ ([1, 0, 0, 0, 32] ++ last.val)

/-- The chunk above the two leaves. -/
def manyRoot : Bytes :=
  pairChunk (Blake3.hash firstLeaf) (Blake3.hash lastLeaf)

/-- The chunks of the map. -/
def manyChunks : List Chunk :=
  [Chunk.fromBytes firstLeaf, Chunk.fromBytes lastLeaf, Chunk.fromBytes manyRoot]

/-- The leaf chunk of no entries. -/
def emptyLeaf : Bytes :=
  [1, 0, 0, 0, 0]

/-- An internal chunk over the keys 0 and 32. -/
theorem serializeInternalChunk_pair (first last : Hash) :
    serializeInternalChunk 1 [([0], first), ([32], last)] = .ok (pairChunk first last) := by
  simp [serializeInternalChunk, serializeItems, serializeChild, serializeCounted, lenU32, pairChunk,
    bind, Except.bind, pure, Except.pure, leBytes]

/-- A map that is split behind its first 32 entries takes two leaf chunks and a root above them. -/
theorem buildWrites_pair {kvs : OrdMap Bytes Bytes} {rest : List KvEntry} {leaf : Bytes}
    (hentries : kvs.toList = firstGroup ++ rest)
    (hsplit : splitAtBoundaries Prod.fst 0 (firstGroup ++ rest) = [firstGroup, rest])
    (hhead : (rest.head?.map Prod.fst).getD [] = [32])
    (hleaf : serializeLeafChunk rest = .ok leaf) :
    buildWrites kvs 0 = (.ok (Blake3.hash (pairChunk (Blake3.hash firstLeaf) (Blake3.hash leaf))),
      [Chunk.fromBytes firstLeaf, Chunk.fromBytes leaf,
        Chunk.fromBytes (pairChunk (Blake3.hash firstLeaf) (Blake3.hash leaf))]) := by
  have hfirst : serializeLeafChunk firstGroup = .ok firstLeaf := by decide +kernel
  have hne : kvs.toList ≠ [] := by
    rw [hentries]
    exact List.append_ne_nil_of_left_ne_nil (by decide) _
  have hput : putGroups serializeLeafChunk Prod.fst (splitAtBoundaries Prod.fst 0 kvs.toList) =
      (.ok [([0], Blake3.hash firstLeaf), ([32], Blake3.hash leaf)],
        [Chunk.fromBytes firstLeaf, Chunk.fromBytes leaf]) := by
    rw [hentries, hsplit]
    simp only [putGroups, hfirst, hleaf, Except.map, hhead]
    rfl
  rw [buildWrites_eq hne (List.cons_ne_nil _ _) hput,
    buildInternalNodes_small _ (by simp) (by simp [minChunkSize])
      (serializeInternalChunk_pair _ _)]
  rfl

/-- What a build of the map puts. -/
theorem buildWrites_manyMap :
    buildWrites manyMap 0 = (.ok (Blake3.hash manyRoot), manyChunks) :=
  buildWrites_pair (show manyMap.toList = firstGroup ++ [([32], [])] by decide +kernel)
    (by decide +kernel) rfl (by decide +kernel)

/-- What a build of the empty map puts. -/
theorem buildWrites_empty :
    buildWrites ∅ 0 = (.ok (Blake3.hash emptyLeaf), [Chunk.fromBytes emptyLeaf]) :=
  buildWrites_small (by decide) (by decide +kernel)

/-- The hash of the leaf of no entries. -/
theorem val_hash_emptyLeaf : (Blake3.hash emptyLeaf).val =
    [119, 132, 177, 125, 29, 143, 246, 88, 207, 232, 240, 225, 17, 49, 106, 150, 76, 149, 35, 58,
     72, 108, 203, 223, 175, 134, 83, 156, 158, 62, 58, 48] := by
  decide +kernel

/-- The hash of the leaf of the first entries. -/
theorem val_hash_firstLeaf : (Blake3.hash firstLeaf).val =
    [162, 46, 187, 253, 219, 98, 143, 201, 136, 249, 50, 125, 53, 206, 176, 203, 191, 147, 167,
     38, 125, 159, 136, 40, 184, 49, 80, 193, 175, 131, 25, 20] := by
  decide +kernel

/-- The hash of the leaf of the last entry. -/
theorem val_hash_lastLeaf : (Blake3.hash lastLeaf).val =
    [243, 9, 117, 4, 255, 215, 72, 85, 69, 106, 61, 171, 208, 204, 235, 5, 241, 41, 212, 163, 7,
     249, 63, 181, 56, 149, 161, 116, 21, 126, 90, 109] := by
  decide +kernel

/-- The hash of the chunk above the two leaves. -/
theorem val_hash_manyRoot : (Blake3.hash manyRoot).val =
    [205, 47, 224, 14, 230, 54, 121, 74, 158, 109, 109, 220, 61, 50, 209, 142, 209, 210, 138, 171,
     208, 32, 184, 106, 49, 220, 250, 44, 109, 151, 183, 176] := by
  rw [manyRoot, pairChunk, val_hash_firstLeaf, val_hash_lastLeaf]
  decide +kernel

/-- Hashes that start with different bytes are different. -/
theorem nodup_hashes {listed : List Bytes} {heads : List UInt8}
    (h : (listed.map fun data => (Blake3.hash data).val.head?) = heads.map some)
    (hnodup : heads.Nodup) : (listed.map Blake3.hash).Nodup := by
  refine List.Nodup.of_map (fun hash : Hash => hash.val.head?) ?_
  have hheads : (listed.map Blake3.hash).map (fun hash : Hash => hash.val.head?) =
      heads.map some := by
    rw [List.map_map]
    exact h
  rw [hheads]
  exact hnodup.map (Option.some_injective UInt8)

/-- The chunks of the map and that of no entries have different hashes. -/
theorem nodup_hashes_manyChunks :
    ([emptyLeaf, firstLeaf, lastLeaf, manyRoot].map Blake3.hash).Nodup := by
  refine @nodup_hashes _ [119, 162, 243, 205] ?_ (by decide)
  simp only [List.map_cons, List.map_nil, val_hash_emptyLeaf, val_hash_firstLeaf,
    val_hash_lastLeaf, val_hash_manyRoot, List.head?_cons]

/-- The hashes of listed byte strings are different where the list says so. -/
theorem injOn_of_nodup {listed : List Bytes} (h : (listed.map Blake3.hash).Nodup)
    {datas : Set Bytes} (hsubset : ∀ data ∈ datas, data ∈ listed) : Set.InjOn Blake3.hash datas :=
  fun _ ha _ hb heq => List.inj_on_of_nodup_map h (hsubset _ ha) (hsubset _ hb) heq

/-- A build of the map puts its two leaves and the chunk above them. -/
theorem mem_written_manyMap {data : Bytes} (h : data ∈ written manyMap 0) :
    data ∈ [firstLeaf, lastLeaf, manyRoot] := by
  rw [written, buildWrites_manyMap] at h
  simpa [manyChunks, Chunk.fromBytes, eq_comm] using h

/-- A map with an internal chunk and the empty map. -/
theorem prolly_round_trip_manyMap :
    (∃ root, (buildProllyTree manyMap ChunkStore.empty 0).1 = .ok root ∧
      ∃ depth, ∀ fuel ≥ depth,
        readProllyTree fuel root (buildProllyTree manyMap ChunkStore.empty 0).2 =
            some (.ok manyMap) ∧
          readProllyTreeVec fuel root (buildProllyTree manyMap ChunkStore.empty 0).2 =
            some (.ok manyMap.toList)) ∧
      (buildProllyTree manyMap ChunkStore.empty 0).1 ≠
        (buildProllyTree ∅ ChunkStore.empty 0).1 := by
  have hsized : ∀ entry ∈ manyMap.toList, Sized entry := by decide +kernel
  have hnone : ∀ entry ∈ (∅ : OrdMap Bytes Bytes).toList, Sized entry := by decide +kernel
  have hmaps : manyMap ≠ ∅ := by
    intro h
    have hlists : manyMap.toList ≠ (∅ : OrdMap Bytes Bytes).toList := by decide +kernel
    exact hlists (congrArg _ h)
  have hwritten : ∀ data ∈ written manyMap 0, data ∈ [emptyLeaf, firstLeaf, lastLeaf, manyRoot] :=
    fun data hdata => List.mem_cons_of_mem _ (mem_written_manyMap hdata)
  have hempty : ∀ data ∈ written ∅ 0, data ∈ [emptyLeaf, firstLeaf, lastLeaf, manyRoot] := by
    rintro data ⟨chunk, hchunk, rfl⟩
    rw [buildWrites_empty] at hchunk
    rw [List.mem_singleton.mp hchunk]
    exact List.mem_cons_self
  obtain ⟨⟨root, hroot, depth, hread⟩, hroots⟩ := @prolly_round_trip _ _ manyMap
    ChunkStore.empty 0 hsized (by
      rw [ChunkStore.contents_empty, Set.empty_union]
      exact injOn_of_nodup nodup_hashes_manyChunks hwritten)
  refine ⟨⟨root, hroot, depth, fun fuel hfuel => ?_⟩, ?_⟩
  · obtain ⟨hmap, entries, hvec, rfl, -⟩ := hread fuel hfuel
    exact ⟨hmap, hvec⟩
  · rw [ne_eq, hroots ∅ ChunkStore.empty hnone]
    · exact hmaps
    · refine injOn_of_nodup nodup_hashes_manyChunks ?_
      rintro data (hdata | hdata)
      · exact hwritten data hdata
      · exact hempty data hdata

end Sample

end Ferratomic.Prolly
