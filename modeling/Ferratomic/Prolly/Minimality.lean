import Ferratomic.Prolly.Resume
import Mathlib.Algebra.BigOperators.Group.Finset.Basic

/-!
# What a transfer copies

A transfer that no operation stops copies the chunks below the root that the destination misses and
no others, each of them once. The main theorem is `transfer_minimal`: it says what the destination
holds afterwards, what the counters are and that a second transfer copies nothing.
-/

namespace Ferratomic.Prolly

open Lib

section Counters

variable [Blake3]

/-- The chunks that operations put, in order. -/
def puts (ops : List ChunkOp) : List Chunk :=
  ops.filterMap ChunkOp.put?

/-- The total size of chunks. -/
def totalBytes (chunks : List Chunk) : Nat :=
  (chunks.map fun chunk => chunk.data.length).sum

/-- A run between two states puts chunks, counts them, and is not stopped. -/
structure Copies (state next : TransferState) (chunks : List Chunk) : Prop where
  dst_eq : next.dst = state.dst.putAll chunks
  fault_eq : next.fault = none
  chunks_eq : next.result.chunksTransferred = state.result.chunksTransferred + chunks.length
  bytes_eq : next.result.bytesTransferred = state.result.bytesTransferred + totalBytes chunks

/-- The puts of two parts follow one another. -/
theorem puts_append (ops more : List ChunkOp) : puts (ops ++ more) = puts ops ++ puts more :=
  List.filterMap_append

/-- A chunk is put exactly when an operation puts it. -/
theorem mem_puts {ops : List ChunkOp} {chunk : Chunk} : chunk ∈ puts ops ↔ .put chunk ∈ ops := by
  refine List.mem_filterMap.trans ⟨?_, fun h => ⟨_, h, rfl⟩⟩
  rintro ⟨op, hop, hput⟩
  cases op with
  | has | get => cases hput
  | put other =>
      cases hput
      exact hop

/-- The bytes of two lists of chunks add up. -/
theorem totalBytes_append (chunks more : List Chunk) :
    totalBytes (chunks ++ more) = totalBytes chunks + totalBytes more := by
  rw [totalBytes, List.map_append, List.sum_append]
  rfl

/-- Nothing is copied between a state and itself. -/
theorem Copies.refl {state : TransferState} (h : state.fault = none) : Copies state state [] :=
  ⟨rfl, h, rfl, rfl⟩

/-- Chunks copied in turn are copied together. -/
theorem Copies.trans {state middle next : TransferState} {chunks more : List Chunk}
    (h : Copies state middle chunks) (hnext : Copies middle next more) :
    Copies state next (chunks ++ more) where
  dst_eq := by
    rw [hnext.dst_eq, h.dst_eq]
    exact List.foldl_append.symm
  fault_eq := hnext.fault_eq
  chunks_eq := by
    rw [hnext.chunks_eq, h.chunks_eq, List.length_append]
    omega
  bytes_eq := by
    rw [hnext.bytes_eq, h.bytes_eq, totalBytes_append]
    omega

/-- A chunk that the destination has is skipped. -/
theorem transferRecursive_present {state : TransferState} (hfault : state.fault = none)
    {addr : Hash} (h : state.dst.hasChunk addr = true) (src : ChunkStore) (fuel : Nat) :
    transferRecursive src (fuel + 1) addr state = some (.ok (), { state with
      result := { state.result with chunksSkipped := state.result.chunksSkipped + 1 } }) := by
  obtain ⟨dst, fault, result⟩ := state
  obtain rfl : fault = none := hfault
  have hpresent : dst.hasChunk addr = true := h
  unfold transferRecursive
  rw [TransferM.bind_apply]
  show (if dst.hasChunk addr then _ else _ : TransferM Unit) _ = _
  rw [if_pos hpresent]
  rfl

/-- A chunk that the destination misses is copied and counted before its children. -/
theorem transferRecursive_absent {state : TransferState} (hfault : state.fault = none)
    {addr : Hash} (h : state.dst.hasChunk addr = false) {src : ChunkStore} {chunk : Chunk}
    (hchunk : src.getChunk addr = some chunk) {addrs : List Hash}
    (haddrs : decodeChildAddrs chunk.data = .ok addrs) (fuel : Nat) :
    ∃ next, Copies state next [chunk] ∧ transferRecursive src (fuel + 1) addr state =
      addrs.forM (transferRecursive src fuel) next := by
  obtain ⟨dst, fault, result⟩ := state
  obtain rfl : fault = none := hfault
  have habsent : dst.hasChunk addr = false := h
  refine ⟨⟨dst.putChunk chunk, none, { result with
    chunksTransferred := result.chunksTransferred + 1
    bytesTransferred := result.bytesTransferred + chunk.data.length }⟩, ⟨rfl, rfl, rfl, rfl⟩, ?_⟩
  rw [transferRecursive, TransferM.bind_apply]
  show (if dst.hasChunk addr then _ else _ : TransferM Unit) _ = _
  rw [habsent, if_neg Bool.false_ne_true, TransferM.bind_apply]
  have hload : TransferM.loadChunk src addr ⟨dst, none, result⟩ =
      some (.ok chunk, ⟨dst, none, result⟩) := by
    rw [TransferM.loadChunk, ChunkStore.loadChunk_ok hchunk]
    rfl
  rw [hload]
  simp only [haddrs]
  rfl

/-- A loop over addresses copies what the schedules for them put. -/
theorem copies_forM {code : Hash → TransferM Unit} {schedule : Hash → ChunkStore → List ChunkOp}
    {addrs : List Hash}
    (h : ∀ addr ∈ addrs, ∀ state : TransferState, state.fault = none → ∃ next,
      code addr state = some (.ok (), next) ∧ Copies state next (puts (schedule addr state.dst)))
    {state : TransferState} (hfault : state.fault = none) :
    ∃ next, addrs.forM code state = some (.ok (), next) ∧
      Copies state next (puts (scheduleAll schedule addrs state.dst)) := by
  induction addrs generalizing state with
  | nil => exact ⟨state, rfl, .refl hfault⟩
  | cons addr rest ih =>
      obtain ⟨middle, hfirst, hcopies⟩ := h addr List.mem_cons_self state hfault
      obtain ⟨next, hrest, hmore⟩ :=
        ih (fun other hother => h other (List.mem_cons_of_mem _ hother)) hcopies.fault_eq
      refine ⟨next, ?_, ?_⟩
      · show (code addr >>= fun _ => rest.forM code) state = _
        rw [TransferM.bind_apply, hfirst]
        exact hrest
      · rw [scheduleAll, puts_append]
        have hdst : middle.dst = state.dst.perform (schedule addr state.dst) := hcopies.dst_eq
        rw [← hdst]
        exact hcopies.trans hmore

/-- A run that is not stopped copies and counts what its schedule puts. -/
theorem copies_transferRecursive {src : ChunkStore} {fuel : Nat} {addr : Hash}
    (h : WithinDepth src fuel addr) {state : TransferState} (hfault : state.fault = none) :
    ∃ next, transferRecursive src fuel addr state = some (.ok (), next) ∧
      Copies state next (puts (schedule src fuel addr state.dst)) := by
  induction fuel generalizing addr state with
  | zero => exact h.elim
  | succ fuel ih =>
      obtain ⟨chunk, addrs, hchunk, haddrs, hbelow⟩ := h
      cases hpresent : state.dst.hasChunk addr with
      | true =>
          rw [transferRecursive_present hfault hpresent, schedule_present hpresent]
          exact ⟨_, rfl, ⟨rfl, hfault, rfl, rfl⟩⟩
      | false =>
          obtain ⟨middle, hput, hrest⟩ :=
            transferRecursive_absent hfault hpresent hchunk haddrs fuel
          obtain ⟨next, hrun, hmore⟩ := copies_forM
            (fun child hchild state => ih (hbelow child hchild)) hput.fault_eq
          have hdst : middle.dst = state.dst.putChunk chunk := hput.dst_eq
          rw [schedule_absent hpresent hchunk haddrs, hrest, ← hdst]
          exact ⟨next, hrun, hput.trans hmore⟩

end Counters

section Minimal

variable [Blake3]

variable {src dst : ChunkStore} {root : Hash} {fuel : Nat}

/-- A chunk below the root that the destination misses. -/
def Missing (src dst : ChunkStore) (root : Hash) (chunk : Chunk) : Prop :=
  src.Reaches root chunk.addr ∧ src.getChunk chunk.addr = some chunk ∧
    dst.hasChunk chunk.addr = false

/-- No chunk is put twice, since it is there after the first time. -/
theorem Needed.nodup {ops : List ChunkOp} (h : Needed src root dst ops) : (puts ops).Nodup := by
  induction ops generalizing dst with
  | nil => exact List.nodup_nil
  | cons op rest ih =>
      cases op with
      | has | get => exact ih h.2
      | put chunk =>
          refine List.nodup_cons.mpr ⟨fun hagain => ?_, ih h.2⟩
          have habsent := (h.2.absent (mem_puts.mp hagain)).1
          have hpresent : (dst.perform [.put chunk]).hasChunk chunk.addr = true :=
            ChunkStore.hasChunk_of_put List.mem_cons_self
          rw [hpresent] at habsent
          cases habsent

/-- What is there after operations was there before or was put. -/
theorem getChunk_perform {ops : List ChunkOp} {addr : Hash} {chunk : Chunk}
    (h : (dst.perform ops).getChunk addr = some chunk) :
    dst.getChunk addr = some chunk ∨ chunk.addr = addr ∧ .put chunk ∈ ops := by
  induction ops generalizing dst with
  | nil => exact .inl h
  | cons op rest ih =>
      rw [ChunkStore.perform_cons] at h
      rcases ih h with hfirst | ⟨haddr, hput⟩
      · cases op with
        | has | get => exact .inl hfirst
        | put first =>
            have hfirst : (dst.putChunk first).getChunk addr = some chunk := hfirst
            rw [ChunkStore.getChunk_putChunk, Option.or_eq_some_iff] at hfirst
            rcases hfirst with hold | ⟨-, hnew⟩
            · exact .inl hold
            · split at hnew
              case isTrue heq =>
                  cases hnew
                  exact .inr ⟨heq, List.mem_cons_self⟩
              case isFalse => cases hnew
      · exact .inr ⟨haddr, List.mem_cons_of_mem _ hput⟩

/-- A schedule puts exactly the chunks that are missing. -/
theorem mem_puts_schedule (h : WithinDepth src fuel root) (hclosed : dst.Closed)
    (hagrees : src.Agrees dst) (chunk : Chunk) :
    chunk ∈ puts (schedule src fuel root dst) ↔ Missing src dst root chunk := by
  have hneeded := needed_schedule h dst
  rw [mem_puts]
  constructor
  · intro hput
    obtain ⟨habsent, hsrc, hbelow⟩ := hneeded.absent hput
    exact ⟨hbelow, hsrc, habsent⟩
  · rintro ⟨hbelow, hsrc, habsent⟩
    obtain ⟨hwhole, hroot⟩ := closed_schedule h hclosed
    have hagrees' := hneeded.agrees hagrees
    obtain ⟨found, hfound⟩ := ChunkStore.hasChunk_eq_true.mp
      (hasChunk_of_reaches hwhole hagrees' hroot hbelow)
    obtain rfl : chunk = found := hagrees' _ _ _ hsrc hfound
    rcases getChunk_perform hfound with hold | ⟨-, hput⟩
    · rw [ChunkStore.hasChunk_eq_true.mpr ⟨chunk, hold⟩] at habsent
      cases habsent
    · exact hput

/-- A destination holds its old chunks and those below the root. -/
theorem getChunk_perform_schedule (h : WithinDepth src fuel root) (hclosed : dst.Closed)
    (hagrees : src.Agrees dst) (addr : Hash) (chunk : Chunk) :
    (dst.perform (schedule src fuel root dst)).getChunk addr = some chunk ↔
      dst.getChunk addr = some chunk ∨
        src.Reaches root addr ∧ src.getChunk addr = some chunk := by
  obtain ⟨hwhole, hroot⟩ := closed_schedule h hclosed
  have hneeded := needed_schedule h dst
  constructor
  · intro hfound
    rcases getChunk_perform hfound with hold | ⟨rfl, hput⟩
    · exact .inl hold
    · obtain ⟨-, hsrc, hbelow⟩ := hneeded.absent hput
      exact .inr ⟨hbelow, hsrc⟩
  · rintro (hold | ⟨hbelow, hsrc⟩)
    · exact ChunkStore.getChunk_perform_of_some hold _
    · have hagrees' := hneeded.agrees hagrees
      obtain ⟨found, hfound⟩ := ChunkStore.hasChunk_eq_true.mp
        (hasChunk_of_reaches hwhole hagrees' hroot hbelow)
      rw [hfound, hagrees' addr chunk found hsrc hfound]

/-- A transfer that is not stopped, by its schedule. -/
theorem transfer_none (h : WithinDepth src fuel root) (dst : ChunkStore) :
    ∃ result, transfer fuel none src dst root =
        some (.ok result, dst.perform (schedule src fuel root dst)) ∧
      result.chunksTransferred = (puts (schedule src fuel root dst)).length ∧
      result.bytesTransferred = totalBytes (puts (schedule src fuel root dst)) := by
  have hstart : (⟨dst, none, ⟨0, 0, 0, root⟩⟩ : TransferState).fault = none := rfl
  obtain ⟨next, hrun, hcopies⟩ := copies_transferRecursive h hstart
  refine ⟨next.result, ?_, ?_, ?_⟩
  · rw [transfer, hrun]
    exact congrArg (fun store => some (Except.ok next.result, store)) hcopies.dst_eq
  · rw [hcopies.chunks_eq]
    exact Nat.zero_add _
  · rw [hcopies.bytes_eq]
    exact Nat.zero_add _

variable [Blake3DeriveKey]

/-- Take a source with the chunks of a build and a destination in which the children of every chunk
are there. A transfer that no operation stops succeeds and leaves the old chunks and the chunks
below the root; its counters are the number and the total size of the chunks that were missing; the
children of every chunk are there again; and a second transfer copies nothing. -/
theorem transfer_minimal {kvs : OrdMap Bytes Bytes} {patternWidth : Fin 64}
    (hbuild : (buildWrites kvs patternWidth).1 = .ok root)
    (hsrc : ∀ chunk ∈ (buildWrites kvs patternWidth).2, src.getChunk chunk.addr = some chunk)
    (hhash : Set.InjOn Blake3.hash (src.contents ∪ dst.contents)) (hclosed : dst.Closed) :
    ∃ depth, ∀ fuel ≥ depth, ∃ result whole again,
      transfer fuel none src dst root = some (.ok result, whole) ∧
      (∀ addr chunk, whole.getChunk addr = some chunk ↔ dst.getChunk addr = some chunk ∨
        src.Reaches root addr ∧ src.getChunk addr = some chunk) ∧
      (∃ missing : Finset Chunk, (∀ chunk, chunk ∈ missing ↔ Missing src dst root chunk) ∧
        result.chunksTransferred = missing.card ∧
        result.bytesTransferred = ∑ chunk ∈ missing, chunk.data.length) ∧
      whole.Closed ∧
      transfer fuel none src whole root = some (.ok again, whole) ∧
      again.chunksTransferred = 0 ∧ again.bytesTransferred = 0 := by
  obtain ⟨n, tree, -, hstored⟩ := BuiltIn.holds ⟨hbuild, hsrc⟩
  refine ⟨n + 1, fun fuel hfuel => ?_⟩
  have hdepth : WithinDepth src fuel root := hstored.withinDepth hfuel
  have hagrees := agrees_of_injOn hhash
  obtain ⟨hwhole, hroot⟩ := closed_schedule hdepth hclosed
  obtain ⟨result, hrun, hchunks, hbytes⟩ := transfer_none hdepth dst
  obtain ⟨again, hagain, hchunks', hbytes'⟩ :=
    transfer_none hdepth (dst.perform (schedule src fuel root dst))
  -- the root is there after the first transfer, so that the second asks for it and stops
  have hputs : puts (schedule src fuel root (dst.perform (schedule src fuel root dst))) = [] := by
    obtain ⟨fuel, rfl⟩ : ∃ less, fuel = less + 1 := ⟨fuel - 1, by omega⟩
    rw [schedule_present hroot]
    rfl
  have hsame : (dst.perform (schedule src fuel root dst)).perform
      (schedule src fuel root (dst.perform (schedule src fuel root dst))) =
      dst.perform (schedule src fuel root dst) := by
    show ChunkStore.putAll _ (puts _) = _
    rw [hputs]
    rfl
  rw [hsame] at hagain
  rw [hputs] at hchunks' hbytes'
  have hnodup := (needed_schedule hdepth dst).nodup
  refine ⟨result, _, again, hrun, getChunk_perform_schedule hdepth hclosed hagrees,
    ⟨⟨puts (schedule src fuel root dst), hnodup⟩, mem_puts_schedule hdepth hclosed hagrees,
      hchunks, hbytes⟩, hwhole, hagain, hchunks', hbytes'⟩

end Minimal

section Sample

/-- A transfer of three chunks into a store that has none. -/
theorem transfer_minimal_manyMap : ∃ depth, ∀ fuel ≥ depth, ∃ result whole again,
    transfer fuel none manySource ChunkStore.empty (Blake3.hash manyRoot) =
      some (.ok result, whole) ∧ whole.Closed ∧
    transfer fuel none manySource whole (Blake3.hash manyRoot) = some (.ok again, whole) ∧
    again.chunksTransferred = 0 := by
  obtain ⟨depth, hdepth⟩ := transfer_minimal (congrArg Prod.fst buildWrites_manyMap)
    source_manyMap injOn_manySource closed_empty
  refine ⟨depth, fun fuel hfuel => ?_⟩
  obtain ⟨result, whole, again, hrun, -, -, hclosed, hagain, hnone, -⟩ := hdepth fuel hfuel
  exact ⟨result, whole, again, hrun, hclosed, hagain, hnone⟩

end Sample

end Ferratomic.Prolly
