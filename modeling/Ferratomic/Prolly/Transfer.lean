import Ferratomic.Prolly.Read

/-!
# Transfer of a prolly tree between chunk stores

A transfer walks down from a root, copies each chunk that the destination does not have and goes on
with its children; where the destination has a chunk, it takes the whole subtree as present. The
main theorem, `performs_transferRecursive`, gives the chunk-store operations of a run in their
order: it performs its `schedule`, or the part before the operation that fails.
-/

namespace Ferratomic.Prolly

open Lib

section Transfers

variable [Blake3]

/-- `TransferResult` -/
structure TransferResult where
  chunksTransferred : Nat
  chunksSkipped : Nat
  bytesTransferred : Nat
  root : Hash

/-- The operation of a run that fails, counted from zero, and its error. -/
abbrev Fault := Option (Nat × FerraError)

/-- What a run changes: the destination, the operations left before the failing one and the
counters. -/
structure TransferState where
  dst : ChunkStore
  fault : Fault
  result : TransferResult

/-- Code that can fail and keeps the state that it fails in; `none` is a recursion that is cut
off. -/
abbrev TransferM := ExceptT FerraError (StateT TransferState Option)

namespace TransferM

/-- A chunk-store operation fails when its turn comes, and is assumed to have no effect then: a
`put_chunk` that returns an error has stored nothing. -/
def operate : TransferM Unit := do
  let state ← get
  match state.fault with
  | none => pure ()
  | some (0, e) => throw e
  | some (left + 1, e) => set { state with fault := some (left, e) }

/-- `dst.has_chunk` -/
def hasChunk (addr : Hash) : TransferM Bool := do
  operate
  let state ← get
  pure (state.dst.hasChunk addr)

/-- `load_chunk` of the transfer. -/
def loadChunk (src : ChunkStore) (addr : Hash) : TransferM Chunk := do
  operate
  match src.loadChunk "INV-FERR-048" "in source during transfer" addr with
  | .ok chunk => pure chunk
  | .error e => throw e

/-- `dst.put_chunk`, which stores the chunk or, when it fails, leaves the destination as it is. -/
def putChunk (chunk : Chunk) : TransferM Unit := do
  operate
  modify fun state => { state with dst := state.dst.putChunk chunk }

/-- Change the counters. -/
def count (f : TransferResult → TransferResult) : TransferM Unit :=
  modify fun state => { state with result := f state.result }

end TransferM

/-- `transfer_recursive`, to a bounded depth. -/
def transferRecursive (src : ChunkStore) : Nat → Hash → TransferM Unit
  | 0, _ => fun _ => none
  | fuel + 1, addr => do
      if ← TransferM.hasChunk addr then
        TransferM.count fun result => { result with chunksSkipped := result.chunksSkipped + 1 }
      else
        let chunk ← TransferM.loadChunk src addr
        TransferM.putChunk chunk
        TransferM.count fun result => { result with
          chunksTransferred := result.chunksTransferred + 1
          bytesTransferred := result.bytesTransferred + chunk.data.length }
        match decodeChildAddrs chunk.data with
        | .error e => throw e
        | .ok children => children.forM (transferRecursive src fuel)

/-- `transfer`, with the operation that fails; the destination is left as it is then. -/
def transfer (fuel : Nat) (fault : Fault) (src dst : ChunkStore) (root : Hash) :
    Option (Except FerraError TransferResult × ChunkStore) :=
  match transferRecursive src fuel root ⟨dst, fault, ⟨0, 0, 0, root⟩⟩ with
  | none => none
  | some (.error e, state) => some (.error e, state.dst)
  | some (.ok _, state) => some (.ok state.result, state.dst)

/-- Transfers of one root, one after the other, each with the operation that fails in it. -/
def transferRuns (fuel : Nat) (src : ChunkStore) (root : Hash) :
    List Fault → ChunkStore → Option ChunkStore
  | [], dst => some dst
  | fault :: rest, dst =>
      match transfer fuel fault src dst root with
      | none => none
      | some (_, dst) => transferRuns fuel src root rest dst

/-- A chunk-store operation of a transfer. -/
inductive ChunkOp where
  | has (addr : Hash)
  | get (addr : Hash)
  | put (chunk : Chunk)

/-- The chunk that an operation puts. -/
def ChunkOp.put? : ChunkOp → Option Chunk
  | put chunk => some chunk
  | _ => none

/-- The destination after operations. -/
def ChunkStore.perform (dst : ChunkStore) (ops : List ChunkOp) : ChunkStore :=
  dst.putAll (ops.filterMap ChunkOp.put?)

/-- The operations for addresses in order. -/
def scheduleAll (schedule : Hash → ChunkStore → List ChunkOp) :
    List Hash → ChunkStore → List ChunkOp
  | [], _ => []
  | addr :: rest, dst =>
      schedule addr dst ++ scheduleAll schedule rest (dst.perform (schedule addr dst))

/-- The addresses of the children of a chunk. -/
def childAddrs (chunk : Chunk) : List Hash :=
  (decodeChildAddrs chunk.data).toOption.getD []

/-- The operations that it takes to bring a tree into a destination. -/
def schedule (src : ChunkStore) : Nat → Hash → ChunkStore → List ChunkOp
  | 0, _, _ => []
  | fuel + 1, addr, dst =>
      if dst.hasChunk addr then [.has addr]
      else
        match src.getChunk addr with
        | none => [.has addr, .get addr]
        | some chunk => .has addr :: .get addr :: .put chunk ::
            scheduleAll (schedule src fuel) (childAddrs chunk) (dst.putChunk chunk)

section Schedule

/-- Code that performs operations and returns a value: it stops at the operation that fails, or
counts the operations down. -/
def Performs {α : Type} (code : TransferM α) (state : TransferState) (ops : List ChunkOp)
    (value : α) : Prop :=
  match state.fault with
  | none => ∃ next, code state = some (.ok value, next) ∧ next.dst = state.dst.perform ops ∧
      next.fault = none
  | some (left, e) =>
      if left < ops.length then
        ∃ next, code state = some (.error e, next) ∧ next.dst = state.dst.perform (ops.take left)
      else
        ∃ next, code state = some (.ok value, next) ∧ next.dst = state.dst.perform ops ∧
          next.fault = some (left - ops.length, e)

/-- Operations performed in two parts are performed one part after the other. -/
theorem ChunkStore.perform_append (dst : ChunkStore) (ops more : List ChunkOp) :
    dst.perform (ops ++ more) = (dst.perform ops).perform more := by
  simp only [perform, putAll, List.filterMap_append, List.foldl_append]

/-- Operations are performed one after another. -/
theorem ChunkStore.perform_cons (dst : ChunkStore) (op : ChunkOp) (rest : List ChunkOp) :
    dst.perform (op :: rest) = (dst.perform [op]).perform rest :=
  dst.perform_append [op] rest

/-- A sequence goes on only when its first part has not failed. -/
theorem TransferM.bind_apply {α β : Type} (code : TransferM α) (rest : α → TransferM β)
    (state : TransferState) :
    (code >>= rest) state = match code state with
      | none => none
      | some (.error e, next) => some (.error e, next)
      | some (.ok value, next) => rest value next := by
  show (code state).bind _ = _
  cases code state with
  | none => rfl
  | some outcome =>
      obtain ⟨outcome, next⟩ := outcome
      cases outcome with
      | error e => rfl
      | ok value => rfl

/-- An operation happens unless the fault is due at it. -/
theorem TransferM.operate_apply (state : TransferState) :
    TransferM.operate state = match state.fault with
      | none => some (.ok (), state)
      | some (0, e) => some (.error e, state)
      | some (left + 1, e) => some (.ok (), { state with fault := some (left, e) }) := by
  obtain ⟨dst, fault, result⟩ := state
  match fault with
  | none => rfl
  | some (0, e) => rfl
  | some (left + 1, e) => rfl

namespace Performs

variable {α β : Type} {state : TransferState} {ops more : List ChunkOp}

/-- Returning a value performs nothing. -/
theorem pure (state : TransferState) (value : α) :
    Performs (Pure.pure value : TransferM α) state [] value := by
  unfold Performs
  split
  case h_1 hfault => exact ⟨state, rfl, rfl, hfault⟩
  case h_2 left e hfault =>
      rw [List.length_nil, if_neg (Nat.not_lt_zero left)]
      exact ⟨state, rfl, rfl, hfault⟩

/-- Code after code performs the operations of both. -/
theorem bind {code : TransferM α} {rest : α → TransferM β} {value : α} {result : β}
    (h : Performs code state ops value)
    (hrest : ∀ next, next.dst = state.dst.perform ops → Performs (rest value) next more result) :
    Performs (code >>= rest) state (ops ++ more) result := by
  unfold Performs at h ⊢
  rw [TransferM.bind_apply]
  cases hfault : state.fault with
  | none =>
      rw [hfault] at h
      obtain ⟨next, hcode, hdst, hnext⟩ := h
      have hafter := hrest next hdst
      rw [Performs, hnext] at hafter
      rw [hcode, ChunkStore.perform_append, ← hdst]
      exact hafter
  | some fault =>
      obtain ⟨left, e⟩ := fault
      rw [hfault] at h
      -- the store fails within the first part, within the second, or after both
      by_cases hleft : left < ops.length
      · simp only [if_pos hleft] at h
        obtain ⟨next, hcode, hdst⟩ := h
        have htotal : left < (ops ++ more).length := by
          rw [List.length_append]
          omega
        simp only [if_pos htotal]
        rw [hcode, List.take_append_of_le_length hleft.le]
        exact ⟨next, rfl, hdst⟩
      · simp only [if_neg hleft] at h
        obtain ⟨next, hcode, hdst, hnext⟩ := h
        have hafter := hrest next hdst
        rw [Performs, hnext] at hafter
        rw [hcode]
        simp only at hafter ⊢
        rw [List.take_append, List.take_of_length_le (by omega), ChunkStore.perform_append,
          ChunkStore.perform_append, ← hdst, List.length_append]
        by_cases hmore : left - ops.length < more.length
        · rw [if_pos hmore] at hafter
          rw [if_pos (by omega)]
          exact hafter
        · rw [if_neg hmore] at hafter
          rw [if_neg (by omega), ← Nat.sub_sub]
          exact hafter

/-- An operation and what is done with its result. -/
theorem operation {op : ChunkOp} {rest : Unit → TransferM α} {value : α}
    (h : ∀ next : TransferState, next.dst = state.dst → ∃ after,
      rest () next = some (.ok value, after) ∧ after.dst = state.dst.perform [op] ∧
        after.fault = next.fault) :
    Performs (TransferM.operate >>= rest) state [op] value := by
  unfold Performs
  rw [TransferM.bind_apply, TransferM.operate_apply]
  match hfault : state.fault with
  | none =>
      obtain ⟨after, hrest, hdst, hafter⟩ := h state rfl
      exact ⟨after, hrest, hdst, hafter.trans hfault⟩
  | some (0, e) => exact ⟨state, rfl, rfl⟩
  | some (left + 1, e) =>
      obtain ⟨after, hrest, hdst, hafter⟩ := h { state with fault := some (left, e) } rfl
      exact ⟨after, hrest, hdst, hafter⟩

/-- Asking for a chunk performs one operation. -/
theorem hasChunk (state : TransferState) (addr : Hash) :
    Performs (TransferM.hasChunk addr) state [.has addr] (state.dst.hasChunk addr) :=
  operation fun next hdst => ⟨next, by rw [← hdst]; rfl, hdst, rfl⟩

/-- Loading a chunk that the source holds performs one operation. -/
theorem loadChunk {src : ChunkStore} {addr : Hash} {chunk : Chunk}
    (h : src.getChunk addr = some chunk) (state : TransferState) :
    Performs (TransferM.loadChunk src addr) state [.get addr] chunk := by
  refine operation fun next hdst => ⟨next, ?_, hdst, rfl⟩
  rw [ChunkStore.loadChunk_ok h]
  rfl

/-- Putting a chunk performs one operation. -/
theorem putChunk (state : TransferState) (chunk : Chunk) :
    Performs (TransferM.putChunk chunk) state [.put chunk] () :=
  operation fun next hdst =>
    ⟨{ next with dst := next.dst.putChunk chunk }, rfl, by rw [hdst]; rfl, rfl⟩

/-- Counting performs nothing. -/
theorem count (state : TransferState) (f : TransferResult → TransferResult) :
    Performs (TransferM.count f) state [] () := by
  unfold Performs
  split
  case h_1 hfault => exact ⟨{ state with result := f state.result }, rfl, rfl, hfault⟩
  case h_2 left e hfault =>
      rw [List.length_nil, if_neg (Nat.not_lt_zero left)]
      exact ⟨{ state with result := f state.result }, rfl, rfl, hfault⟩

/-- A loop over addresses performs the operations for them in order. -/
theorem forM {code : Hash → TransferM Unit} {schedule : Hash → ChunkStore → List ChunkOp}
    {addrs : List Hash}
    (h : ∀ addr ∈ addrs, ∀ state, Performs (code addr) state (schedule addr state.dst) ())
    (state : TransferState) :
    Performs (addrs.forM code) state (scheduleAll schedule addrs state.dst) () := by
  induction addrs generalizing state with
  | nil => exact pure state ()
  | cons addr rest ih =>
      refine (h addr List.mem_cons_self state).bind fun next hdst => ?_
      rw [← hdst]
      exact ih (fun other hother => h other (List.mem_cons_of_mem _ hother)) next

end Performs

/-- All that is below an address is in the store, in fewer levels than the number. -/
def WithinDepth (src : ChunkStore) : Nat → Hash → Prop
  | 0, _ => False
  | depth + 1, addr => ∃ chunk addrs, src.getChunk addr = some chunk ∧
      decodeChildAddrs chunk.data = .ok addrs ∧ ∀ child ∈ addrs, WithinDepth src depth child

/-- The children of a chunk that decodes are those decoded. -/
theorem childAddrs_eq {chunk : Chunk} {addrs : List Hash}
    (h : decodeChildAddrs chunk.data = .ok addrs) : childAddrs chunk = addrs := by
  rw [childAddrs, h]
  rfl

/-- Where the destination has the chunk the schedule asks for it only. -/
theorem schedule_present {src dst : ChunkStore} {addr : Hash} (h : dst.hasChunk addr = true)
    (fuel : Nat) : schedule src (fuel + 1) addr dst = [.has addr] := by
  rw [schedule, if_pos h]

/-- Where the destination lacks the chunk the schedule puts it and goes on with its children. -/
theorem schedule_absent {src dst : ChunkStore} {addr : Hash} (h : dst.hasChunk addr = false)
    {chunk : Chunk} (hchunk : src.getChunk addr = some chunk) {addrs : List Hash}
    (haddrs : decodeChildAddrs chunk.data = .ok addrs) (fuel : Nat) :
    schedule src (fuel + 1) addr dst = .has addr :: .get addr :: .put chunk ::
      scheduleAll (schedule src fuel) addrs (dst.putChunk chunk) := by
  rw [schedule, if_neg (by rw [h]; exact Bool.false_ne_true)]
  simp only [hchunk, childAddrs_eq haddrs]

/-- A transfer performs its schedule. -/
theorem performs_transferRecursive {src : ChunkStore} {fuel : Nat} {addr : Hash}
    (h : WithinDepth src fuel addr) (state : TransferState) :
    Performs (transferRecursive src fuel addr) state (schedule src fuel addr state.dst) () := by
  induction fuel generalizing addr state with
  | zero => exact h.elim
  | succ fuel ih =>
      obtain ⟨chunk, addrs, hchunk, haddrs, hbelow⟩ := h
      unfold transferRecursive
      cases hpresent : state.dst.hasChunk addr with
      | true =>
          rw [schedule_present hpresent]
          refine (Performs.hasChunk state addr).bind fun next hdst => ?_
          rw [hpresent, if_pos rfl]
          exact .count next _
      | false =>
          rw [schedule_absent hpresent hchunk haddrs]
          refine (Performs.hasChunk state addr).bind fun next hdst => ?_
          rw [hpresent, if_neg Bool.false_ne_true]
          refine (Performs.loadChunk hchunk next).bind fun next' hdst' => ?_
          refine (Performs.putChunk next' chunk).bind fun next'' hdst'' => ?_
          refine (Performs.count next'' _).bind fun last hlast => ?_
          have hput : last.dst = state.dst.putChunk chunk := by
            rw [hlast, hdst'', hdst', hdst]
            rfl
          rw [haddrs, ← hput]
          exact .forM (fun child hchild => ih (hbelow child hchild)) last

end Schedule

end Transfers

end Ferratomic.Prolly
