import Ferratomic.Prolly.Minimality

/-!
# Snapshots

A snapshot is a manifest chunk with the roots of five trees. Its transfer copies the manifest and
then the trees. The main theorems are `transferSnapshot_complete`, by which the destination resolves
the manifest and reads the five maps afterwards, and `manifest_eq_iff`, by which the hash of a
manifest identifies the five maps.
-/

namespace Ferratomic.Prolly

open Lib

/-- The roots of the five trees that compose a snapshot. -/
@[ext]
structure RootSet where
  primary : Hash
  eavt : Hash
  aevt : Hash
  vaet : Hash
  avet : Hash
  deriving DecidableEq

/-- `MANIFEST_SIZE` -/
def manifestSize : Nat := 5 * 32

namespace RootSet

/-- The roots in the order of the manifest. -/
def hashes (roots : RootSet) : List Hash :=
  [roots.primary, roots.eavt, roots.aevt, roots.vaet, roots.avet]

/-- `canonical_bytes` -/
def canonicalBytes (roots : RootSet) : FixedBytes manifestSize where
  val := roots.primary.val ++ roots.eavt.val ++ roots.aevt.val ++ roots.vaet.val ++ roots.avet.val
  property := by
    simp only [List.length_append, roots.primary.property, roots.eavt.property,
      roots.aevt.property, roots.vaet.property, roots.avet.property]
    rfl

/-- `buf[start..start + 32]` -/
def slice (buf : FixedBytes manifestSize) (start : Fin 5) : Hash where
  val := (buf.val.drop (32 * start)).take 32
  property := by
    have hlength := buf.property
    rw [List.length_take, List.length_drop, hlength, manifestSize]
    omega

/-- `from_canonical_bytes` -/
def fromCanonicalBytes (buf : FixedBytes manifestSize) : RootSet where
  primary := slice buf 0
  eavt := slice buf 1
  aevt := slice buf 2
  vaet := slice buf 3
  avet := slice buf 4

/-- A root set is read back from its canonical bytes. -/
theorem fromCanonicalBytes_canonicalBytes (roots : RootSet) :
    fromCanonicalBytes roots.canonicalBytes = roots := by
  obtain ⟨⟨primary, hprimary⟩, ⟨eavt, heavt⟩, ⟨aevt, haevt⟩, ⟨vaet, hvaet⟩, ⟨avet, havet⟩⟩ := roots
  simp [fromCanonicalBytes, canonicalBytes, slice, List.drop_append, hprimary,
    heavt, haevt, hvaet, havet, List.take_of_length_le, List.drop_eq_nil_of_le]

/-- Root sets of the same canonical bytes are equal. -/
theorem canonicalBytes_injective : Function.Injective canonicalBytes :=
  Function.LeftInverse.injective fromCanonicalBytes_canonicalBytes

/-- Root sets of the same five roots are equal. -/
theorem hashes_injective : Function.Injective hashes := by
  intro a b h
  injection h with hprimary h
  injection h with heavt h
  injection h with haevt h
  injection h with hvaet h
  injection h with havet
  exact RootSet.ext hprimary heavt haevt hvaet havet

end RootSet

section Snapshots

variable [Blake3]

/-- The chunk of a manifest. -/
def RootSet.manifest (roots : RootSet) : Chunk :=
  Chunk.fromBytes roots.canonicalBytes.val

/-- `create_manifest` -/
def createManifest (roots : RootSet) (store : ChunkStore) : Hash × ChunkStore :=
  (roots.manifest.addr, store.putChunk roots.manifest)

/-- `resolve_manifest` -/
def resolveManifest (manifest : Hash) (store : ChunkStore) : Except FerraError RootSet :=
  match store.getChunk manifest with
  | none => .error (.invariantViolation "INV-FERR-049"
      ("manifest chunk " ++ hexEncode (manifest.val.take 4) ++ "... not found"))
  | some chunk =>
      if h : chunk.data.length = manifestSize then
        .ok (RootSet.fromCanonicalBytes ⟨chunk.data, h⟩)
      else
        .error (.invariantViolation "INV-FERR-049" ("manifest chunk must be " ++
          toString manifestSize ++ " bytes, got " ++ toString chunk.data.length))

/-- `src.get_chunk` -/
def TransferM.getChunk (src : ChunkStore) (addr : Hash) : TransferM (Option Chunk) := do
  operate
  pure (src.getChunk addr)

/-- `resolve_manifest` on the source of a transfer. -/
def TransferM.resolveManifest (src : ChunkStore) (manifest : Hash) : TransferM RootSet := do
  operate
  match Prolly.resolveManifest manifest src with
  | .ok roots => pure roots
  | .error e => throw e

/-- A transfer of one tree, which starts to count anew. -/
def transferTree (src : ChunkStore) (fuel : Nat) (root : Hash) : TransferM Unit := do
  TransferM.count fun _ => ⟨0, 0, 0, root⟩
  transferRecursive src fuel root

/-- The first phase of `transfer_snapshot`. -/
def copyManifest (src : ChunkStore) (manifest : Hash) : TransferM Unit := do
  if ← TransferM.hasChunk manifest then pure ()
  else
    match ← TransferM.getChunk src manifest with
    | none => throw (.invariantViolation "INV-FERR-049" "manifest chunk not found in source")
    | some chunk => TransferM.putChunk chunk

/-- The two phases of `transfer_snapshot`. -/
def copySnapshot (src : ChunkStore) (fuel : Nat) (manifest : Hash) : TransferM Unit := do
  copyManifest src manifest
  let roots ← TransferM.resolveManifest src manifest
  transferTree src fuel roots.primary
  transferTree src fuel roots.eavt
  transferTree src fuel roots.aevt
  transferTree src fuel roots.vaet
  transferTree src fuel roots.avet
  pure ()

/-- `transfer_snapshot`, with the operation that fails; the destination is left as it is then. -/
def transferSnapshot (fuel : Nat) (fault : Fault) (src dst : ChunkStore) (manifest : Hash) :
    Option (Except FerraError Unit × ChunkStore) :=
  match copySnapshot src fuel manifest ⟨dst, fault, ⟨0, 0, 0, manifest⟩⟩ with
  | none => none
  | some (outcome, state) => some (outcome, state.dst)

section Schedule

variable {src dst : ChunkStore} {fuel : Nat} {roots : RootSet}

/-- The operations that it takes to bring a manifest into a destination. -/
def manifestSchedule (manifest : Chunk) (dst : ChunkStore) : List ChunkOp :=
  if dst.hasChunk manifest.addr then [.has manifest.addr]
  else [.has manifest.addr, .get manifest.addr, .put manifest]

/-- The operations that it takes to bring a snapshot into a destination. -/
def snapshotSchedule (src : ChunkStore) (fuel : Nat) (roots : RootSet) (dst : ChunkStore) :
    List ChunkOp :=
  manifestSchedule roots.manifest dst ++ .get roots.manifest.addr ::
    scheduleAll (schedule src fuel) roots.hashes (dst.putChunk roots.manifest)

/-- A store that holds the manifest resolves it to its roots. -/
theorem resolveManifest_ok {store : ChunkStore}
    (h : store.getChunk roots.manifest.addr = some roots.manifest) :
    resolveManifest roots.manifest.addr store = .ok roots := by
  have hlength : roots.manifest.data.length = manifestSize := roots.canonicalBytes.property
  rw [resolveManifest, h]
  simp only [dif_pos hlength]
  exact congrArg _ roots.fromCanonicalBytes_canonicalBytes

/-- A chunk that is there is not put again. -/
theorem putChunk_of_hasChunk {chunk : Chunk} (h : dst.hasChunk chunk.addr = true) :
    dst.putChunk chunk = dst := by
  obtain ⟨found, hfound⟩ := Option.isSome_iff_exists.mp h
  have hchunks : dst.chunks[chunk.addr]? = some found := hfound
  have hsame : (dst.putChunk chunk).chunks = dst.chunks := by
    simp only [ChunkStore.putChunk, hchunks]
  obtain ⟨chunks, keyed⟩ := dst
  exact ChunkStore.mk.injEq _ _ _ _ ▸ hsame

/-- The manifest's schedule puts the manifest. -/
theorem perform_manifestSchedule (manifest : Chunk) (dst : ChunkStore) :
    dst.perform (manifestSchedule manifest dst) = dst.putChunk manifest := by
  rw [manifestSchedule]
  cases hpresent : dst.hasChunk manifest.addr with
  | true => exact (putChunk_of_hasChunk hpresent).symm
  | false => rfl

/-- Reading a chunk performs one get. -/
theorem Performs.getChunk (state : TransferState) (src : ChunkStore) (addr : Hash) :
    Performs (TransferM.getChunk src addr) state [.get addr] (src.getChunk addr) :=
  operation fun next hdst => ⟨next, rfl, hdst, rfl⟩

/-- Resolving a manifest that is there performs one get. -/
theorem Performs.resolveManifest (h : src.getChunk roots.manifest.addr = some roots.manifest)
    (state : TransferState) :
    Performs (TransferM.resolveManifest src roots.manifest.addr) state [.get roots.manifest.addr]
      roots := by
  refine operation fun next hdst => ⟨next, ?_, hdst, rfl⟩
  rw [resolveManifest_ok h]
  rfl

/-- Copying a manifest that is there performs its schedule. -/
theorem performs_copyManifest (h : src.getChunk roots.manifest.addr = some roots.manifest)
    (state : TransferState) :
    Performs (copyManifest src roots.manifest.addr) state
      (manifestSchedule roots.manifest state.dst) () := by
  rw [copyManifest, manifestSchedule]
  cases hpresent : state.dst.hasChunk roots.manifest.addr with
  | true =>
      rw [if_pos rfl]
      refine (Performs.hasChunk state _).bind fun next hdst => ?_
      rw [hpresent, if_pos rfl]
      exact .pure next ()
  | false =>
      rw [if_neg Bool.false_ne_true]
      refine (Performs.hasChunk state _).bind fun next hdst => ?_
      rw [hpresent, if_neg Bool.false_ne_true]
      refine (Performs.getChunk next src _).bind fun next' hdst' => ?_
      rw [h]
      exact .putChunk next' _

/-- Transferring a tree within the depth performs its schedule. -/
theorem performs_transferTree {root : Hash} (h : WithinDepth src fuel root)
    (state : TransferState) :
    Performs (transferTree src fuel root) state (schedule src fuel root state.dst) () := by
  refine (Performs.count state _).bind fun next hdst => ?_
  have hsame : next.dst = state.dst := hdst
  rw [← hsame]
  exact performs_transferRecursive h next

/-- A transfer of a snapshot performs its schedule. -/
theorem performs_copySnapshot (h : src.getChunk roots.manifest.addr = some roots.manifest)
    (hdepth : ∀ root ∈ roots.hashes, WithinDepth src fuel root) (state : TransferState) :
    Performs (copySnapshot src fuel roots.manifest.addr) state
      (snapshotSchedule src fuel roots state.dst) () := by
  refine (performs_copyManifest h state).bind fun next hdst => ?_
  refine (Performs.resolveManifest h next).bind fun next' hdst' => ?_
  have hsame : next'.dst = state.dst.putChunk roots.manifest := by
    rw [hdst', hdst, perform_manifestSchedule]
    rfl
  rw [← hsame]
  exact Performs.forM (fun root hroot => performs_transferTree (hdepth root hroot)) next'

end Schedule

section Complete

variable {src dst : ChunkStore} {fuel : Nat}

/-- A chunk without children leaves a store closed. -/
theorem ChunkStore.Closed.putChunk_childless (h : dst.Closed) {chunk : Chunk}
    (hchildless : ∀ addrs, decodeChildAddrs chunk.data = .ok addrs → addrs = []) :
    (dst.putChunk chunk).Closed := by
  intro addr child _ hchild
  by_cases heq : addr = chunk.addr
  · obtain ⟨found, addrs, hfound, haddrs, hmem⟩ := hchild
    rw [heq, getChunk_putChunk, if_pos rfl] at hfound
    cases hold : dst.getChunk chunk.addr with
    | some old =>
        rw [hold, Option.some_or] at hfound
        cases hfound
        have hbefore := h chunk.addr child (Set.notMem_empty _) ⟨found, addrs, hold, haddrs, hmem⟩
        exact hasChunk_perform hbefore [.put chunk]
    | none =>
        rw [hold, Option.none_or] at hfound
        cases hfound
        rw [hchildless addrs haddrs] at hmem
        exact absurd hmem List.not_mem_nil
  · refine h.putChunk chunk addr child (fun hmem => ?_) hchild
    rcases hmem with hmem | hmem
    · exact heq hmem
    · exact hmem

/-- Two stores agree after one of the source's chunks is put in the destination. -/
theorem ChunkStore.Agrees.putChunk (h : src.Agrees dst) {chunk : Chunk}
    (hchunk : src.getChunk chunk.addr = some chunk) : src.Agrees (dst.putChunk chunk) := by
  intro addr a b ha hb
  rw [getChunk_putChunk] at hb
  cases hold : dst.getChunk addr with
  | some old =>
      rw [hold, Option.some_or] at hb
      cases hb
      exact h addr a b ha hold
  | none =>
      rw [hold, Option.none_or] at hb
      split at hb
      case isTrue heq =>
          cases hb
          rw [← heq, hchunk] at ha
          exact (Option.some.inj ha).symm
      case isFalse => cases hb

/-- A chunk of the source is there after it was put. -/
theorem getChunk_putChunk_of_agrees (h : src.Agrees dst) {chunk : Chunk}
    (hchunk : src.getChunk chunk.addr = some chunk) (addr : Hash) (found : Chunk) :
    (dst.putChunk chunk).getChunk addr = some found ↔
      dst.getChunk addr = some found ∨ addr = chunk.addr ∧ found = chunk := by
  rw [ChunkStore.getChunk_putChunk]
  cases hold : dst.getChunk addr with
  | some old =>
      rw [Option.some_or]
      constructor
      · exact .inl
      · intro hcases
        rcases hcases with hsame | ⟨rfl, rfl⟩
        · exact hsame
        · rw [h _ _ _ hchunk hold]
  | none =>
      rw [Option.none_or, eq_comm]
      by_cases haddr : chunk.addr = addr
      · rw [if_pos haddr]
        simp [haddr]
      · rw [if_neg haddr]
        simp [Ne.symm haddr]

/-- Transfers of trees leave the old chunks and the chunks below the roots. -/
theorem perform_scheduleAll {roots : List Hash} (h : ∀ root ∈ roots, WithinDepth src fuel root)
    (hclosed : dst.Closed) (hagrees : src.Agrees dst) :
    (dst.perform (scheduleAll (schedule src fuel) roots dst)).Closed ∧
      ∀ addr chunk, (dst.perform (scheduleAll (schedule src fuel) roots dst)).getChunk addr =
          some chunk ↔
        dst.getChunk addr = some chunk ∨
          ∃ root ∈ roots, src.Reaches root addr ∧ src.getChunk addr = some chunk := by
  induction roots generalizing dst with
  | nil =>
      refine ⟨hclosed, fun addr chunk => ⟨.inl, ?_⟩⟩
      intro hcases
      rcases hcases with hold | ⟨root, hroot, -⟩
      · exact hold
      · exact absurd hroot List.not_mem_nil
  | cons first rest ih =>
      have hdepth := h first List.mem_cons_self
      have hfirst := getChunk_perform_schedule hdepth hclosed hagrees
      obtain ⟨hafter, hcontents⟩ := ih (fun root hroot => h root (List.mem_cons_of_mem _ hroot))
        (closed_schedule hdepth hclosed).1 ((needed_schedule hdepth dst).agrees hagrees)
      rw [scheduleAll, ChunkStore.perform_append]
      refine ⟨hafter, fun addr chunk => ?_⟩
      rw [hcontents addr chunk, hfirst addr chunk, List.exists_mem_cons_iff, or_assoc]

/-- A store that has all that the source has below an address is read from there as the source
is. -/
theorem readProllyTree_eq {root : Hash} (h : WithinDepth src fuel root)
    (hhas : ∀ addr chunk, src.Reaches root addr → src.getChunk addr = some chunk →
      dst.getChunk addr = some chunk) (depth : Nat) :
    readProllyTree depth root dst = readProllyTree depth root src := by
  refine readSubtreeWith_congr (fun below hbelow => ?_) depth ∅
  obtain ⟨chunk, hchunk⟩ := exists_getChunk_of_reaches h hbelow
  rw [hchunk, hhas below chunk hbelow hchunk]

/-- What a destination holds after a transfer of a snapshot. -/
structure SnapshotIn (src before after : ChunkStore) (fuel : Nat) (roots : RootSet)
    (maps : List (OrdMap Bytes Bytes)) : Prop where
  /-- The manifest leads to the roots. -/
  resolves : resolveManifest roots.manifest.addr after = .ok roots
  /-- From the roots the five maps are read. -/
  reads : List.Forall₂ (fun root kvs => readProllyTree fuel root after = some (.ok kvs))
    roots.hashes maps
  /-- Nothing else is copied, and nothing is lost. -/
  contents : ∀ addr chunk, after.getChunk addr = some chunk ↔
    before.getChunk addr = some chunk ∨ addr = roots.manifest.addr ∧ chunk = roots.manifest ∨
      ∃ root ∈ roots.hashes, src.Reaches root addr ∧ src.getChunk addr = some chunk
  closed : after.Closed

/-- A transfer that no operation stops, from a source with the manifest and trees of a snapshot. -/
theorem transferSnapshot_of_source {roots : RootSet} {maps : List (OrdMap Bytes Bytes)}
    (hmanifest : src.getChunk roots.manifest.addr = some roots.manifest)
    (hwithin : ∀ root ∈ roots.hashes, WithinDepth src fuel root)
    (hreads : List.Forall₂ (fun root kvs => readProllyTree fuel root src = some (.ok kvs))
      roots.hashes maps)
    (hagrees : src.Agrees dst) (hclosed : dst.Closed)
    (hchildless : ∀ addrs, decodeChildAddrs roots.manifest.data = .ok addrs → addrs = []) :
    ∃ after, transferSnapshot fuel none src dst roots.manifest.addr = some (.ok (), after) ∧
      SnapshotIn src dst after fuel roots maps := by
  obtain ⟨hafter, hcontents⟩ := perform_scheduleAll hwithin
    (hclosed.putChunk_childless hchildless) (hagrees.putChunk hmanifest)
  obtain ⟨next, hrun, hdst, -⟩ :=
    performs_copySnapshot hmanifest hwithin ⟨dst, none, ⟨0, 0, 0, roots.manifest.addr⟩⟩
  have hnext : next.dst = (dst.putChunk roots.manifest).perform
      (scheduleAll (schedule src fuel) roots.hashes (dst.putChunk roots.manifest)) := by
    rw [hdst, snapshotSchedule, ChunkStore.perform_append, perform_manifestSchedule]
    rfl
  rw [← hnext] at hafter hcontents
  have hput := getChunk_putChunk_of_agrees hagrees hmanifest
  have hall : ∀ addr chunk, next.dst.getChunk addr = some chunk ↔
      dst.getChunk addr = some chunk ∨ addr = roots.manifest.addr ∧ chunk = roots.manifest ∨
        ∃ root ∈ roots.hashes, src.Reaches root addr ∧ src.getChunk addr = some chunk := by
    intro addr chunk
    rw [hcontents addr chunk, hput addr chunk, or_assoc]
  refine ⟨next.dst, ?_, ?_, ?_, hall, hafter⟩
  · rw [transferSnapshot, hrun]
  · exact resolveManifest_ok ((hall _ _).mpr (.inr (.inl ⟨rfl, rfl⟩)))
  · have hmembers := (List.forall₂_and_left roots.hashes maps).mpr ⟨fun root hroot => hroot, hreads⟩
    refine hmembers.imp fun root kvs hroot => ?_
    rw [readProllyTree_eq (hwithin root hroot.1) (fun addr chunk hreaches hchunk =>
      (hall addr chunk).mpr (.inr (.inr ⟨root, hroot.1, hreaches, hchunk⟩))) fuel]
    exact hroot.2

/-- A manifest is stored under its hash, unless another chunk has this hash. -/
theorem getChunk_createManifest {store : ChunkStore} {roots : RootSet}
    (hhash : Set.InjOn Blake3.hash (insert roots.canonicalBytes.val store.contents)) :
    (createManifest roots store).2.getChunk roots.manifest.addr = some roots.manifest := by
  refine ChunkStore.getChunk_putAll (hhash.mono ?_) (List.mem_singleton.mpr rfl)
  intro data hdata
  rcases hdata with hold | ⟨chunk, hchunk, hdata⟩
  · exact .inr hold
  · rw [List.mem_singleton.mp hchunk] at hdata
    exact .inl hdata.symm

variable [Blake3DeriveKey]

/-- Trees that were built can be read in all depths from some depth on. -/
theorem exists_depth {store : ChunkStore} {patternWidth : Fin 64} {hashes : List Hash}
    {maps : List (OrdMap Bytes Bytes)}
    (h : List.Forall₂ (BuiltIn store patternWidth) hashes maps) :
    ∃ depth, ∀ fuel ≥ depth, (∀ root ∈ hashes, WithinDepth store fuel root) ∧
      List.Forall₂ (fun root kvs => readProllyTree fuel root store = some (.ok kvs)) hashes
        maps := by
  induction h with
  | nil =>
      exact ⟨0, fun fuel _ => ⟨fun root hroot => absurd hroot List.not_mem_nil, .nil⟩⟩
  | @cons root kvs hashes maps hbuilt _ ih =>
      obtain ⟨depth, hdepth⟩ := ih
      obtain ⟨n, tree, hentries, hstored⟩ := hbuilt.holds
      refine ⟨max depth (n + 1), fun fuel hfuel => ?_⟩
      have hn : n < fuel := (le_max_right depth (n + 1)).trans hfuel
      obtain ⟨hwithin, hreads⟩ := hdepth fuel ((le_max_left _ _).trans hfuel)
      refine ⟨List.forall_mem_cons.mpr ⟨hstored.withinDepth hn, hwithin⟩, .cons ?_ hreads⟩
      rw [readProllyTree_ok hstored hn, hentries, insertAll_toList]

/-- Take a store with the chunks of five builds, in which the manifest of the roots is created, and
a destination in which the children of every chunk are there. A transfer of the snapshot that no
operation stops succeeds, and the destination has the snapshot afterwards. -/
theorem transferSnapshot_complete {store : ChunkStore} {patternWidth : Fin 64} {roots : RootSet}
    {maps : List (OrdMap Bytes Bytes)}
    (hbuilt : List.Forall₂ (BuiltIn store patternWidth) roots.hashes maps)
    (hhash : Set.InjOn Blake3.hash
      (insert roots.canonicalBytes.val (store.contents ∪ dst.contents)))
    (hclosed : dst.Closed)
    (hchildless : ∀ addrs, decodeChildAddrs roots.canonicalBytes.val = .ok addrs → addrs = []) :
    ∃ depth, ∀ fuel ≥ depth, ∃ after,
      transferSnapshot fuel none (createManifest roots store).2 dst (createManifest roots store).1 =
        some (.ok (), after) ∧
      SnapshotIn (createManifest roots store).2 dst after fuel roots maps := by
  have hmanifest := getChunk_createManifest
    (hhash.mono (Set.insert_subset_insert Set.subset_union_left))
  have hagrees : (createManifest roots store).2.Agrees dst := by
    refine agrees_of_injOn (hhash.mono ?_)
    intro data hdata
    rcases hdata with hsrc | hdst
    · rcases ChunkStore.contents_putChunk store roots.manifest hsrc with hold | hnew
      · exact .inr (.inl hold)
      · exact .inl hnew
    · exact .inr (.inr hdst)
  obtain ⟨depth, hdepth⟩ := exists_depth (hbuilt.imp fun _ _ hone => hone.putAll [roots.manifest])
  refine ⟨depth, fun fuel hfuel => ?_⟩
  obtain ⟨hwithin, hreads⟩ := hdepth fuel hfuel
  exact transferSnapshot_of_source hmanifest hwithin hreads hagrees hclosed hchildless

/-- A store in which a tree is built holds all its chunks. -/
theorem BuiltIn.written_subset {store : ChunkStore} {patternWidth : Fin 64} {root : Hash}
    {kvs : OrdMap Bytes Bytes} (h : BuiltIn store patternWidth root kvs) :
    written kvs patternWidth ⊆ store.contents := by
  intro data hdata
  obtain ⟨chunk, hchunk, hdata⟩ := hdata
  exact ⟨chunk.addr, chunk, h.2 chunk hchunk, hdata⟩

/-- Builds with the same roots are of the same maps. -/
theorem maps_eq_of_built {left right : ChunkStore} {patternWidth : Fin 64}
    (hhash : Set.InjOn Blake3.hash (left.contents ∪ right.contents)) {hashes : List Hash}
    {maps others : List (OrdMap Bytes Bytes)}
    (hmaps : List.Forall₂ (BuiltIn left patternWidth) hashes maps)
    (hothers : List.Forall₂ (BuiltIn right patternWidth) hashes others) : maps = others := by
  induction hmaps generalizing others with
  | nil =>
      cases hothers
      rfl
  | cons hone _ ih =>
      cases hothers with
      | cons hother hrest =>
          have hwritten := hhash.mono (Set.union_subset_union hone.written_subset
            hother.written_subset)
          rw [eq_of_root_eq (sized_of_buildWrites hone.1) (sized_of_buildWrites hother.1) hwritten
            (hone.1.trans hother.1.symm), ih hrest]

/-- Builds of the same maps have the same roots. -/
theorem hashes_eq_of_built {left right : ChunkStore} {patternWidth : Fin 64}
    {hashes others : List Hash} {maps : List (OrdMap Bytes Bytes)}
    (hhashes : List.Forall₂ (BuiltIn left patternWidth) hashes maps)
    (hothers : List.Forall₂ (BuiltIn right patternWidth) others maps) : hashes = others := by
  induction hhashes generalizing others with
  | nil =>
      cases hothers
      rfl
  | cons hone _ ih =>
      cases hothers with
      | cons hother hrest =>
          rw [Except.ok.inj (hone.1.symm.trans hother.1), ih hrest]

/-- The hash of a manifest identifies the five maps, whatever stores they were built in. -/
theorem manifest_eq_iff {left right : ChunkStore} {patternWidth : Fin 64} {roots other : RootSet}
    {maps others : List (OrdMap Bytes Bytes)}
    (hmaps : List.Forall₂ (BuiltIn left patternWidth) roots.hashes maps)
    (hothers : List.Forall₂ (BuiltIn right patternWidth) other.hashes others)
    (hhash : Set.InjOn Blake3.hash ({roots.canonicalBytes.val, other.canonicalBytes.val} ∪
      (left.contents ∪ right.contents))) :
    (createManifest roots left).1 = (createManifest other right).1 ↔ maps = others := by
  constructor
  · intro hmanifest
    have hbytes : roots.canonicalBytes.val = other.canonicalBytes.val :=
      hhash (.inl (.inl rfl)) (.inl (.inr rfl)) hmanifest
    obtain rfl := RootSet.canonicalBytes_injective (Subtype.ext hbytes)
    exact maps_eq_of_built (hhash.mono Set.subset_union_right) hmaps hothers
  · intro hequal
    subst hequal
    rw [RootSet.hashes_injective (hashes_eq_of_built hmaps hothers)]
    rfl

end Complete

end Snapshots

section Sample

/-- A snapshot whose five trees are that of one map. -/
def manySnapshot : RootSet :=
  ⟨Blake3.hash manyRoot, Blake3.hash manyRoot, Blake3.hash manyRoot, Blake3.hash manyRoot,
    Blake3.hash manyRoot⟩

/-- The same with a last tree that is empty. -/
def lessSnapshot : RootSet :=
  { manySnapshot with avet := Blake3.hash emptyLeaf }

/-- The byte strings of both snapshots. -/
def snapshotBytes : List Bytes :=
  [manySnapshot.canonicalBytes.val, lessSnapshot.canonicalBytes.val, firstLeaf, lastLeaf, manyRoot,
    emptyLeaf]

/-- The hash is injective on the bytes of the sample snapshot. -/
theorem injOn_snapshotBytes : Set.InjOn Blake3.hash {data | data ∈ snapshotBytes} := by
  have hmany : (Blake3.hash manySnapshot.canonicalBytes.val).val.head? = some 192 := by
    simp only [RootSet.canonicalBytes, manySnapshot, val_hash_manyRoot]
    decide +kernel
  have hless : (Blake3.hash lessSnapshot.canonicalBytes.val).val.head? = some 181 := by
    simp only [RootSet.canonicalBytes, lessSnapshot, manySnapshot, val_hash_manyRoot,
      val_hash_emptyLeaf]
    decide +kernel
  have hnodup : (snapshotBytes.map Blake3.hash).Nodup := by
    refine @nodup_hashes _ [192, 181, 162, 243, 205, 119] ?_ (by decide)
    simp only [snapshotBytes, List.map_cons, List.map_nil, hmany, hless, val_hash_firstLeaf,
      val_hash_lastLeaf, val_hash_manyRoot, val_hash_emptyLeaf, List.head?_cons]
  exact injOn_of_nodup hnodup fun _ h => h

/-- The sample source holds bytes of the sample snapshot only. -/
theorem contents_manySource : manySource.contents ⊆ {data | data ∈ snapshotBytes} := by
  intro data hdata
  rcases ChunkStore.contents_putAll ChunkStore.empty manyChunks hdata with
    hold | ⟨chunk, hchunk, rfl⟩
  · rw [ChunkStore.contents_empty] at hold
    exact hold.elim
  · simp only [manyChunks, List.mem_cons, List.not_mem_nil, or_false] at hchunk
    rcases hchunk with rfl | rfl | rfl
    all_goals simp [Chunk.fromBytes, snapshotBytes]

/-- The five trees of the sample snapshot are built in the sample source. -/
theorem builtIn_manySnapshot : List.Forall₂ (BuiltIn manySource 0) manySnapshot.hashes
    (List.replicate 5 manyMap) := by
  have hone : BuiltIn manySource 0 (Blake3.hash manyRoot) manyMap :=
    ⟨congrArg Prod.fst buildWrites_manyMap, source_manyMap⟩
  exact .cons hone (.cons hone (.cons hone (.cons hone (.cons hone .nil))))

/-- The snapshot arrives in an empty destination. -/
theorem transferSnapshot_complete_manySnapshot : ∃ depth, ∀ fuel ≥ depth, ∃ after,
    transferSnapshot fuel none (createManifest manySnapshot manySource).2 ChunkStore.empty
      (createManifest manySnapshot manySource).1 = some (.ok (), after) ∧
    SnapshotIn (createManifest manySnapshot manySource).2 ChunkStore.empty after fuel manySnapshot
      (List.replicate 5 manyMap) := by
  refine transferSnapshot_complete builtIn_manySnapshot
    (injOn_snapshotBytes.mono ?_) closed_empty ?_
  · rw [ChunkStore.contents_empty, Set.union_empty]
    exact Set.insert_subset List.mem_cons_self contents_manySource
  · intro addrs haddrs
    have hnone : (decodeChildAddrs manySnapshot.canonicalBytes.val).toOption.getD [] = [] := by
      simp only [RootSet.canonicalBytes, manySnapshot, val_hash_manyRoot]
      decide +kernel
    rw [haddrs] at hnone
    exact hnone

/-- A store with the chunks of the map and that of no entries. -/
def lessSource : ChunkStore :=
  manySource.putChunk (Chunk.fromBytes emptyLeaf)

/-- Snapshots that differ in their last tree have different manifests. -/
theorem manifest_eq_iff_lessSnapshot :
    (createManifest manySnapshot manySource).1 = (createManifest lessSnapshot lessSource).1 ↔
      List.replicate 5 manyMap = List.replicate 4 manyMap ++ [∅] := by
  have hcontents : lessSource.contents ⊆ {data | data ∈ snapshotBytes} := by
    intro data hdata
    rcases ChunkStore.contents_putChunk manySource _ hdata with hold | hnew
    · exact contents_manySource hold
    · rw [Set.mem_singleton_iff.mp hnew]
      simp [Chunk.fromBytes, snapshotBytes]
  have hmany : BuiltIn lessSource 0 (Blake3.hash manyRoot) manyMap :=
    BuiltIn.putAll ⟨congrArg Prod.fst buildWrites_manyMap, source_manyMap⟩
      [Chunk.fromBytes emptyLeaf]
  have hless : BuiltIn lessSource 0 (Blake3.hash emptyLeaf) ∅ := by
    refine ⟨congrArg Prod.fst buildWrites_empty, ?_⟩
    intro chunk hchunk
    rw [buildWrites_empty] at hchunk
    rw [List.mem_singleton.mp hchunk]
    refine (ChunkStore.getChunk_putAll (injOn_snapshotBytes.mono ?_) (List.mem_singleton.mpr rfl) :
      (manySource.putAll [Chunk.fromBytes emptyLeaf]).getChunk _ = _)
    intro data hdata
    rcases hdata with hold | ⟨chunk, hchunk, rfl⟩
    · exact contents_manySource hold
    · rw [List.mem_singleton.mp hchunk]
      simp [Chunk.fromBytes, snapshotBytes]
  refine manifest_eq_iff builtIn_manySnapshot
    (.cons hmany (.cons hmany (.cons hmany (.cons hmany (.cons hless .nil)))))
    (injOn_snapshotBytes.mono ?_)
  intro data hdata
  rcases hdata with (hmany | hless) | hsource | hsource
  · rw [hmany]
    exact List.mem_cons_self
  · rw [Set.mem_singleton_iff.mp hless]
    exact List.mem_cons_of_mem _ List.mem_cons_self
  · exact contents_manySource hsource
  · exact hcontents hsource

end Sample

end Ferratomic.Prolly
