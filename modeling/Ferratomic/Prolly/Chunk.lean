import Ferratomic.Blake3
import Ferratomic.Checkpoint.Format

/-!
# Chunks

A chunk is a byte string with its hash as address, and a chunk store maps addresses to chunks. The
main theorem, `getChunk_putAll`, says that a store gives back what was put into it if no two of the
byte strings involved have the same hash.
-/

namespace Ferratomic.Prolly

open Lib

variable [Blake3]

/-- A content-addressed chunk of bytes. -/
@[ext]
structure Chunk where
  addr : Hash
  data : Bytes
  addr_eq : addr = Blake3.hash data

/-- `Chunk::from_bytes` -/
def Chunk.fromBytes (data : Bytes) : Chunk :=
  ⟨Blake3.hash data, data, rfl⟩

/-- Chunks of the same bytes are equal. -/
theorem Chunk.eq_of_data {a b : Chunk} (h : a.data = b.data) : a = b :=
  Chunk.ext (by rw [a.addr_eq, b.addr_eq, h]) h

/-- A chunk store: every chunk is kept under its address. -/
structure ChunkStore where
  chunks : OrdMap Hash Chunk
  keyed : ∀ (addr : Hash) (chunk : Chunk), chunks[addr]? = some chunk → chunk.addr = addr

namespace ChunkStore

/-- `MemoryChunkStore::new` -/
def empty : ChunkStore where
  chunks := ∅
  keyed addr chunk h := by
    have hnone : (∅ : OrdMap Hash Chunk)[addr]? = none := rfl
    rw [hnone] at h
    cases h

/-- `get_chunk` -/
def getChunk (store : ChunkStore) (addr : Hash) : Option Chunk :=
  store.chunks[addr]?

/-- `has_chunk` -/
def hasChunk (store : ChunkStore) (addr : Hash) : Bool :=
  (store.getChunk addr).isSome

/-- `load_chunk`, with the invariant and the situation that the error names. -/
def loadChunk (invariant situation : String) (store : ChunkStore) (addr : Hash) :
    Except FerraError Chunk :=
  match store.getChunk addr with
  | some chunk => .ok chunk
  | none => .error (.invariantViolation invariant
      ("chunk " ++ hexEncode (addr.val.take 4) ++ "... not found " ++ situation))

/-- `put_chunk`: a chunk that is there stays. -/
def putChunk (store : ChunkStore) (chunk : Chunk) : ChunkStore where
  chunks := match store.chunks[chunk.addr]? with
    | some _ => store.chunks
    | none => store.chunks.insert chunk.addr chunk
  keyed addr other h := by
    split at h
    case h_1 => exact store.keyed addr other h
    case h_2 =>
        rw [OrdMap.getElem?_insert_eq] at h
        split at h
        case isTrue heq =>
            cases h
            exact heq
        case isFalse => exact store.keyed addr other h

/-- Put chunks in order. -/
def putAll (store : ChunkStore) (chunks : List Chunk) : ChunkStore :=
  chunks.foldl putChunk store

/-- The byte strings of a store. -/
def contents (store : ChunkStore) : Set Bytes :=
  {data | ∃ addr chunk, store.getChunk addr = some chunk ∧ chunk.data = data}

/-- The empty store holds no bytes. -/
theorem contents_empty : empty.contents = ∅ := by
  refine Set.eq_empty_of_forall_notMem ?_
  rintro data ⟨addr, chunk, h, -⟩
  cases h

/-- A put adds its chunk where the store had none. -/
theorem getChunk_putChunk (store : ChunkStore) (chunk : Chunk) (addr : Hash) :
    (store.putChunk chunk).getChunk addr =
      (store.getChunk addr).or (if chunk.addr = addr then some chunk else none) := by
  show (match store.chunks[chunk.addr]? with
    | some _ => store.chunks
    | none => store.chunks.insert chunk.addr chunk)[addr]? = store.chunks[addr]?.or _
  cases hfound : store.chunks[chunk.addr]? with
  | some found =>
      by_cases haddr : chunk.addr = addr
      · subst haddr
        simp only [hfound, Option.some_or]
      · simp only [if_neg haddr, Option.or_none]
  | none =>
      simp only [OrdMap.getElem?_insert_eq]
      by_cases haddr : chunk.addr = addr
      · subst haddr
        simp only [hfound, if_true, Option.none_or]
      · simp only [if_neg haddr, Option.or_none]

/-- A chunk that is there stays. -/
theorem getChunk_putAll_of_some {store : ChunkStore} {addr : Hash} {chunk : Chunk}
    (h : store.getChunk addr = some chunk) (chunks : List Chunk) :
    (store.putAll chunks).getChunk addr = some chunk := by
  induction chunks generalizing store with
  | nil => exact h
  | cons first rest ih =>
      refine ih ?_
      rw [getChunk_putChunk, h, Option.some_or]

/-- A put adds at most its chunk's bytes. -/
theorem contents_putChunk (store : ChunkStore) (chunk : Chunk) :
    (store.putChunk chunk).contents ⊆ store.contents ∪ {chunk.data} := by
  rintro data ⟨addr, found, hfound, rfl⟩
  rw [getChunk_putChunk] at hfound
  cases hold : store.getChunk addr with
  | some old =>
      rw [hold, Option.some_or] at hfound
      cases hfound
      exact .inl ⟨addr, found, hold, rfl⟩
  | none =>
      rw [hold, Option.none_or] at hfound
      split at hfound
      case isTrue =>
          cases hfound
          exact .inr rfl
      case isFalse => cases hfound

/-- Putting chunks adds no other byte strings. -/
theorem contents_putAll (store : ChunkStore) (chunks : List Chunk) :
    (store.putAll chunks).contents ⊆
      store.contents ∪ {data | ∃ chunk ∈ chunks, chunk.data = data} := by
  induction chunks generalizing store with
  | nil => exact fun data hdata => .inl hdata
  | cons first rest ih =>
      intro data hdata
      rcases ih (store.putChunk first) hdata with hdata | ⟨later, hlater, rfl⟩
      · rcases contents_putChunk store first hdata with hdata | rfl
        · exact .inl hdata
        · exact .inr ⟨first, List.mem_cons_self, rfl⟩
      · exact .inr ⟨later, List.mem_cons_of_mem _ hlater, rfl⟩

/-- A store gives back what was put into it, unless two of the byte strings have one hash. -/
theorem getChunk_putAll {store : ChunkStore} {chunks : List Chunk}
    (h : Set.InjOn Blake3.hash (store.contents ∪ {data | ∃ chunk ∈ chunks, chunk.data = data}))
    {chunk : Chunk} (hchunk : chunk ∈ chunks) :
    (store.putAll chunks).getChunk chunk.addr = some chunk := by
  induction chunks generalizing store with
  | nil => exact absurd hchunk List.not_mem_nil
  | cons first rest ih =>
      rcases List.mem_cons.mp hchunk with rfl | hrest
      · refine getChunk_putAll_of_some ?_ rest
        rw [getChunk_putChunk, if_pos rfl]
        cases hold : store.getChunk chunk.addr with
        | none => rfl
        | some old =>
            have haddr := store.keyed _ _ hold
            rw [old.addr_eq, chunk.addr_eq] at haddr
            have hdata := h (.inl ⟨_, old, hold, rfl⟩) (.inr ⟨chunk, List.mem_cons_self, rfl⟩) haddr
            rw [Option.some_or, Chunk.eq_of_data hdata]
      · refine ih (h.mono ?_) hrest
        rintro data (hdata | ⟨later, hlater, rfl⟩)
        · exact contents_putAll store [first] hdata |>.imp id fun ⟨chunk, hmem, hdata⟩ =>
            ⟨chunk, List.mem_cons.mpr (.inl (List.mem_singleton.mp hmem)), hdata⟩
        · exact .inr ⟨later, List.mem_cons_of_mem _ hlater, rfl⟩

end ChunkStore

end Ferratomic.Prolly
