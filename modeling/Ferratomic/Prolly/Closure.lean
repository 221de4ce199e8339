import Ferratomic.Prolly.Transfer

/-!
# Closed stores

A store is closed if it has the children of all its chunks. A transfer relies on it where it takes a
subtree as present, and keeps it when it performs its whole schedule, since it puts a chunk before
its children (`closed_schedule`). It puts only chunks below the root that the destination misses
(`needed_schedule`).
-/

namespace Ferratomic.Prolly

open Lib

variable [Blake3]

section Closure

namespace ChunkStore

/-- The store has a chunk under the first address with the second among its children. -/
def ChildOf (store : ChunkStore) (addr child : Hash) : Prop :=
  ∃ chunk addrs, store.getChunk addr = some chunk ∧ decodeChildAddrs chunk.data = .ok addrs ∧
    child ∈ addrs

/-- A chunk is below an address. -/
def Reaches (store : ChunkStore) : Hash → Hash → Prop :=
  Relation.ReflTransGen store.ChildOf

/-- The children of every chunk are there, except below the given addresses. -/
def ClosedExcept (store : ChunkStore) (unfinished : Set Hash) : Prop :=
  ∀ addr child, addr ∉ unfinished → store.ChildOf addr child → store.hasChunk child = true

/-- The children of every chunk are there. -/
def Closed (store : ChunkStore) : Prop :=
  store.ClosedExcept ∅

/-- The stores have the same chunk under an address that both have. -/
def Agrees (src dst : ChunkStore) : Prop :=
  ∀ addr a b, src.getChunk addr = some a → dst.getChunk addr = some b → a = b

variable {src dst : ChunkStore} {unfinished : Set Hash}

/-- A store has an address exactly when it returns a chunk for it. -/
theorem hasChunk_eq_true {addr : Hash} :
    dst.hasChunk addr = true ↔ ∃ chunk, dst.getChunk addr = some chunk :=
  Option.isSome_iff_exists

/-- Operations keep every chunk the store holds. -/
theorem getChunk_perform_of_some {addr : Hash} {chunk : Chunk}
    (h : dst.getChunk addr = some chunk) (ops : List ChunkOp) :
    (dst.perform ops).getChunk addr = some chunk :=
  getChunk_putAll_of_some h _

/-- Operations keep every address the store has. -/
theorem hasChunk_perform {addr : Hash} (h : dst.hasChunk addr = true) (ops : List ChunkOp) :
    (dst.perform ops).hasChunk addr = true := by
  obtain ⟨chunk, hchunk⟩ := hasChunk_eq_true.mp h
  exact hasChunk_eq_true.mpr ⟨chunk, getChunk_perform_of_some hchunk ops⟩

/-- What is missing later was missing before. -/
theorem hasChunk_of_perform {addr : Hash} {ops : List ChunkOp}
    (h : (dst.perform ops).hasChunk addr = false) : dst.hasChunk addr = false := by
  cases hbefore : dst.hasChunk addr with
  | false => rfl
  | true =>
      rw [hasChunk_perform hbefore] at h
      cases h

/-- A chunk put where it is absent is returned. -/
theorem getChunk_putChunk_of_absent {chunk : Chunk} (h : dst.hasChunk chunk.addr = false) :
    (dst.putChunk chunk).getChunk chunk.addr = some chunk := by
  have hnone : dst.getChunk chunk.addr = none :=
    Option.isNone_iff_eq_none.mp (Option.isSome_eq_false_iff.mp h)
  rw [getChunk_putChunk, if_pos rfl, hnone]
  rfl

/-- An empty store has only the chunk put. -/
theorem hasChunk_putChunk_empty {chunk : Chunk} {addr : Hash} (h : chunk.addr ≠ addr) :
    (empty.putChunk chunk).hasChunk addr = false := by
  rw [hasChunk, getChunk_putChunk, if_neg h]
  rfl

/-- A chunk that was put is there. -/
theorem hasChunk_of_put {ops : List ChunkOp} {chunk : Chunk} (h : .put chunk ∈ ops) :
    (dst.perform ops).hasChunk chunk.addr = true := by
  induction ops generalizing dst with
  | nil => exact absurd h List.not_mem_nil
  | cons op rest ih =>
      rw [perform_cons]
      rcases List.mem_cons.mp h with rfl | h
      · refine hasChunk_perform ?_ rest
        show (dst.putChunk chunk).hasChunk chunk.addr = true
        rw [hasChunk, getChunk_putChunk, if_pos rfl, Option.isSome_or]
        simp
      · exact ih h

/-- Operations without a put leave the store as it is. -/
theorem perform_of_no_put {ops : List ChunkOp} (h : ¬ ∃ chunk, .put chunk ∈ ops) :
    dst.perform ops = dst := by
  have hnone : ops.filterMap ChunkOp.put? = [] := by
    refine List.filterMap_eq_nil_iff.mpr fun op hop => ?_
    cases op with
    | has | get => rfl
    | put chunk => exact absurd ⟨chunk, hop⟩ h
  rw [perform, hnone]
  rfl

/-- Putting a chunk leaves only its own subtree to be finished. -/
theorem ClosedExcept.putChunk (h : dst.ClosedExcept unfinished) (chunk : Chunk) :
    (dst.putChunk chunk).ClosedExcept (insert chunk.addr unfinished) := by
  rintro addr child hfinished ⟨found, addrs, hfound, haddrs, hchild⟩
  rw [getChunk_putChunk] at hfound
  cases hold : dst.getChunk addr with
  | some old =>
      rw [hold, Option.some_or] at hfound
      cases hfound
      have hbefore := h addr child (fun hmem => hfinished (.inr hmem))
        ⟨found, addrs, hold, haddrs, hchild⟩
      exact hasChunk_perform hbefore [.put chunk]
  | none =>
      rw [hold, Option.none_or] at hfound
      split at hfound
      case isTrue heq => exact absurd (.inl heq.symm) hfinished
      case isFalse => cases hfound

/-- A subtree is finished when the children of its chunk are there. -/
theorem ClosedExcept.finish {addr : Hash} (h : dst.ClosedExcept (insert addr unfinished))
    {chunk : Chunk} (hchunk : dst.getChunk addr = some chunk) {addrs : List Hash}
    (haddrs : decodeChildAddrs chunk.data = .ok addrs)
    (hall : ∀ child ∈ addrs, dst.hasChunk child = true) : dst.ClosedExcept unfinished := by
  rintro other child hother ⟨found, addrs', hfound, haddrs', hchild⟩
  by_cases heq : other = addr
  · subst heq
    rw [hchunk] at hfound
    cases hfound
    rw [haddrs] at haddrs'
    cases haddrs'
    exact hall child hchild
  · refine h other child ?_ ⟨found, addrs', hfound, haddrs', hchild⟩
    rintro (hmem | hmem)
    · exact heq hmem
    · exact hother hmem

end ChunkStore

variable {src dst : ChunkStore}

/-- The schedules of all addresses keep the store closed and bring every address. -/
theorem closed_scheduleAll {schedule : Hash → ChunkStore → List ChunkOp} {addrs : List Hash}
    {unfinished : Set Hash}
    (h : ∀ addr ∈ addrs, ∀ dst : ChunkStore, dst.ClosedExcept unfinished →
      (dst.perform (schedule addr dst)).ClosedExcept unfinished ∧
        (dst.perform (schedule addr dst)).hasChunk addr = true)
    (hclosed : dst.ClosedExcept unfinished) :
    (dst.perform (scheduleAll schedule addrs dst)).ClosedExcept unfinished ∧
      ∀ addr ∈ addrs, (dst.perform (scheduleAll schedule addrs dst)).hasChunk addr = true := by
  induction addrs generalizing dst with
  | nil => exact ⟨hclosed, fun addr haddr => absurd haddr List.not_mem_nil⟩
  | cons addr rest ih =>
      obtain ⟨hfirst, hpresent⟩ := h addr List.mem_cons_self dst hclosed
      obtain ⟨hrest, hall⟩ :=
        ih (fun other hother => h other (List.mem_cons_of_mem _ hother)) hfirst
      rw [scheduleAll, ChunkStore.perform_append]
      exact ⟨hrest, List.forall_mem_cons.mpr ⟨ChunkStore.hasChunk_perform hpresent _, hall⟩⟩

/-- A schedule leaves no subtree unfinished that it starts. -/
theorem closed_schedule {fuel : Nat} {addr : Hash} (h : WithinDepth src fuel addr)
    {unfinished : Set Hash} (hclosed : dst.ClosedExcept unfinished) :
    (dst.perform (schedule src fuel addr dst)).ClosedExcept unfinished ∧
      (dst.perform (schedule src fuel addr dst)).hasChunk addr = true := by
  -- the chunk is put before its children, so that it is unfinished while they are copied
  induction fuel generalizing addr dst unfinished with
  | zero => exact h.elim
  | succ fuel ih =>
      obtain ⟨chunk, addrs, hchunk, haddrs, hbelow⟩ := h
      cases hpresent : dst.hasChunk addr with
      | true =>
          rw [schedule_present hpresent]
          exact ⟨hclosed, hpresent⟩
      | false =>
          rw [schedule_absent hpresent hchunk haddrs]
          obtain rfl : chunk.addr = addr := src.keyed _ _ hchunk
          obtain ⟨hrest, hall⟩ := closed_scheduleAll
            (fun child hchild _ => ih (hbelow child hchild)) (hclosed.putChunk chunk)
          have hput := ChunkStore.getChunk_perform_of_some
            (ChunkStore.getChunk_putChunk_of_absent hpresent)
            (scheduleAll (schedule src fuel) addrs (dst.putChunk chunk))
          exact ⟨hrest.finish hput haddrs hall, ChunkStore.hasChunk_eq_true.mpr ⟨chunk, hput⟩⟩

end Closure

section Need

/-- Every put is of a chunk below the root that the source has and the destination does not. -/
def Needed (src : ChunkStore) (root : Hash) : ChunkStore → List ChunkOp → Prop
  | _, [] => True
  | dst, op :: rest =>
      (∀ chunk, op = .put chunk → dst.hasChunk chunk.addr = false ∧
        src.getChunk chunk.addr = some chunk ∧ src.Reaches root chunk.addr) ∧
      Needed src root (dst.perform [op]) rest

variable {src dst : ChunkStore} {root : Hash}

/-- Operations needed in two parts are needed together. -/
theorem Needed.append {ops more : List ChunkOp} (h : Needed src root dst ops)
    (hmore : Needed src root (dst.perform ops) more) : Needed src root dst (ops ++ more) := by
  induction ops generalizing dst with
  | nil => exact hmore
  | cons op rest ih =>
      rw [ChunkStore.perform_cons] at hmore
      exact ⟨h.1, ih h.2 hmore⟩

/-- The rest of needed operations is needed after the first ones. -/
theorem Needed.drop {ops : List ChunkOp} (h : Needed src root dst ops) (count : Nat) :
    Needed src root (dst.perform (ops.take count)) (ops.drop count) := by
  induction ops generalizing dst count with
  | nil =>
      rw [List.drop_nil]
      trivial
  | cons op rest ih =>
      cases count with
      | zero => exact h
      | succ count =>
          rw [List.take_succ_cons, ChunkStore.perform_cons]
          exact ih h.2 count

/-- What is needed below an address that the root reaches is needed for the root. -/
theorem Needed.below {addr : Hash} (hreaches : src.Reaches root addr) {ops : List ChunkOp}
    (h : Needed src addr dst ops) : Needed src root dst ops := by
  induction ops generalizing dst with
  | nil => trivial
  | cons op rest ih =>
      refine ⟨fun chunk hchunk => ?_, ih h.2⟩
      obtain ⟨habsent, hsrc, hbelow⟩ := h.1 chunk hchunk
      exact ⟨habsent, hsrc, hreaches.trans hbelow⟩

/-- A chunk that is put later is missing at the start. -/
theorem Needed.absent {ops : List ChunkOp} (h : Needed src root dst ops) {chunk : Chunk}
    (hput : .put chunk ∈ ops) : dst.hasChunk chunk.addr = false ∧
      src.getChunk chunk.addr = some chunk ∧ src.Reaches root chunk.addr := by
  induction ops generalizing dst with
  | nil => exact absurd hput List.not_mem_nil
  | cons op rest ih =>
      rcases List.mem_cons.mp hput with rfl | hput
      · exact h.1 chunk rfl
      · obtain ⟨habsent, hsrc, hbelow⟩ := ih h.2 hput
        exact ⟨ChunkStore.hasChunk_of_perform habsent, hsrc, hbelow⟩

/-- Only chunks of the source are put, so that the stores still agree. -/
theorem Needed.agrees {ops : List ChunkOp} (h : Needed src root dst ops)
    (hagrees : src.Agrees dst) : src.Agrees (dst.perform ops) := by
  induction ops generalizing dst with
  | nil => exact hagrees
  | cons op rest ih =>
      rw [ChunkStore.perform_cons]
      refine ih h.2 ?_
      cases op with
      | has | get => exact hagrees
      | put chunk =>
          obtain ⟨habsent, hsrc, -⟩ := h.1 chunk rfl
          intro addr a b ha hb
          have hb : (dst.putChunk chunk).getChunk addr = some b := hb
          rw [ChunkStore.getChunk_putChunk] at hb
          cases hold : dst.getChunk addr with
          | some old =>
              rw [hold, Option.some_or] at hb
              cases hb
              exact hagrees addr a b ha hold
          | none =>
              rw [hold, Option.none_or] at hb
              split at hb
              case isTrue heq =>
                  cases hb
                  rw [heq, ha] at hsrc
                  exact Option.some.inj hsrc
              case isFalse => cases hb

/-- The schedules of all addresses are needed when each of them is. -/
theorem needed_scheduleAll {schedule : Hash → ChunkStore → List ChunkOp} {addrs : List Hash}
    (h : ∀ addr ∈ addrs, ∀ dst, Needed src root dst (schedule addr dst)) (dst : ChunkStore) :
    Needed src root dst (scheduleAll schedule addrs dst) := by
  induction addrs generalizing dst with
  | nil => trivial
  | cons addr rest ih =>
      exact (h addr List.mem_cons_self dst).append
        (ih (fun other hother => h other (List.mem_cons_of_mem _ hother)) _)

/-- A schedule puts what is needed. -/
theorem needed_schedule {fuel : Nat} {addr : Hash} (h : WithinDepth src fuel addr)
    (dst : ChunkStore) : Needed src addr dst (schedule src fuel addr dst) := by
  induction fuel generalizing addr dst with
  | zero => exact h.elim
  | succ fuel ih =>
      obtain ⟨chunk, addrs, hchunk, haddrs, hbelow⟩ := h
      cases hpresent : dst.hasChunk addr with
      | true =>
          rw [schedule_present hpresent]
          exact ⟨(fun _ hput => nomatch hput), trivial⟩
      | false =>
          rw [schedule_absent hpresent hchunk haddrs]
          obtain rfl : chunk.addr = addr := src.keyed _ _ hchunk
          refine ⟨(fun _ hput => nomatch hput), (fun _ hput => nomatch hput), ?_, ?_⟩
          · intro put hput
            cases hput
            exact ⟨hpresent, hchunk, .refl⟩
          · refine needed_scheduleAll (fun child hchild dst => ?_) _
            exact (ih (hbelow child hchild) dst).below
              (.single ⟨chunk, addrs, hchunk, haddrs, hchild⟩)

end Need

end Ferratomic.Prolly
