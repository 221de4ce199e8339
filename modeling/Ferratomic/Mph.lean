import Ferratomic.Lib.ByteOrder
import Ferratomic.Lib.Displace
import Ferratomic.Positions

/-!
# The perfect hash of the entities

Entities are hashed into slots by compress, hash and displace, and the slot of an entity holds its
rank among the entities. The main theorem is `ChdBackend.reverseLookup_lookup`: where the build
succeeds, whatever the bytes of the entities, each of them is found at its slot.
-/

namespace Ferratomic

open Lib

/-- `MAX_DISPLACEMENT` -/
def maxDisplacement : Nat := 1024

/-- `BUCKET_RATIO` -/
def bucketRatio : Nat := 4

/-- `sort_unstable_by` on descending keys: how items of one key are arranged is not specified. -/
structure UnstableSort where
  run : ∀ {ι : Type}, (ι → Nat) → List ι → List ι
  perm : ∀ {ι : Type} (key : ι → Nat) (items : List ι), (run key items).Perm items
  descending : ∀ {ι : Type} (key : ι → Nat) (items : List ι),
    (run key items).Pairwise fun a b => key b ≤ key a

/-- A sort that keeps the order of items of one key. -/
def UnstableSort.stable : UnstableSort where
  run key items := items.insertionSort fun a b => key b ≤ key a
  perm key items := List.perm_insertionSort _ items
  descending key items := by
    have htotal : Std.Total fun a b => key b ≤ key a := ⟨fun a b => le_total (key b) (key a)⟩
    have htrans : IsTrans _ fun a b => key b ≤ key a := ⟨fun _ _ _ hab hbc => hbc.trans hab⟩
    exact List.pairwise_insertionSort _ items

section Hash

/-- `h1`: the first eight bytes as a big-endian number. -/
def h1 (eid : EntityId) : UInt64 :=
  UInt64.ofNat (beNat (eid.val.take 8))

/-- `h2`: bytes 8 to 16. -/
def h2 (eid : EntityId) : UInt64 :=
  UInt64.ofNat (beNat ((eid.val.drop 8).take 8))

/-- `h3`: bytes 16 to 24. -/
def h3 (eid : EntityId) : UInt64 :=
  UInt64.ofNat (beNat ((eid.val.drop 16).take 8))

/-- `reduce_hash` -/
def reduceHash (hashVal : UInt64) (modulus : Nat) (hpos : 0 < modulus) : Fin modulus :=
  ⟨hashVal.toNat % modulus, Nat.mod_lt _ hpos⟩

/-- `slot_for_key`; the sum and the product wrap around. -/
def slotForKey (key : EntityId) (d : Nat) (numSlots : Nat) (hpos : 0 < numSlots) : Fin numSlots :=
  reduceHash (h2 key + UInt64.ofNat d * h3 key) numSlots hpos

end Hash

section Build

variable (sortedKeys : List EntityId)

/-- `assign_buckets` -/
def assignBuckets (numBuckets : Nat) (hpos : 0 < numBuckets) :
    Vector (List (Fin sortedKeys.length)) numBuckets :=
  distribute (fun i => reduceHash (h1 sortedKeys[i]) numBuckets hpos)
    (List.finRange sortedKeys.length)

/-- `try_displacement` -/
def tryDisplacement (numSlots : Nat) (hpos : 0 < numSlots) (d : Nat)
    (slotOccupied : Vector Bool numSlots) (bucket : List (Fin sortedKeys.length)) :
    Option (List (Fin numSlots)) :=
  freeSlots (fun i => slotForKey sortedKeys[i] d numSlots hpos) slotOccupied [] bucket

end Build

/-- The displacement of each bucket and the rank of the entity in each slot. -/
structure ChdBackend where
  numBuckets : Nat
  numSlots : Nat
  displacements : Vector Nat numBuckets
  slotToKeyIdx : Vector Nat numSlots
  buckets_pos : 0 < numSlots → 0 < numBuckets

namespace ChdBackend

/-- The backend of no entities. -/
def empty : ChdBackend :=
  ⟨0, 0, #v[], #v[], id⟩

/-- `ChdBackend::build` -/
def build (sort : UnstableSort) (sortedKeys : List EntityId) : Option ChdBackend :=
  if u32Max ≤ sortedKeys.length then none
  else
    let n := sortedKeys.length
    if n = 0 then some empty
    else
      let numBuckets := n / bucketRatio + 1
      let numSlots := n + n / 4 + 1
      let buckets := assignBuckets sortedKeys numBuckets (Nat.succ_pos _)
      let bucketOrder := sort.run (fun bucket => buckets[bucket].length) (List.finRange numBuckets)
      let table := Table.empty numBuckets numSlots u32Max
      let attempt := tryDisplacement sortedKeys numSlots (Nat.succ_pos _)
      match table.place maxDisplacement attempt (fun i => saturate i.val) buckets bucketOrder with
      | none => none
      | some table =>
          some ⟨numBuckets, numSlots, table.displacements, table.content, fun _ => Nat.succ_pos _⟩

/-- `lookup` -/
def lookup (backend : ChdBackend) (key : EntityId) : Nat :=
  if h : 0 < backend.numSlots then
    let bucket := reduceHash (h1 key) backend.numBuckets (backend.buckets_pos h)
    slotForKey key backend.displacements[bucket] backend.numSlots h
  else 0

/-- `reverse_lookup` -/
def reverseLookup (backend : ChdBackend) (slot : Nat) : Option Nat :=
  let raw := backend.slotToKeyIdx[slot]?.getD u32Max
  if raw = u32Max then none else some raw

end ChdBackend

/-- A perfect hash with the positions of the entities in the array. -/
structure Mph where
  backend : ChdBackend
  entityFirstPos : List Nat

namespace Mph

/-- `Mph::build` -/
def build (sort : UnstableSort) (sortedKeys : List EntityId) (firstPositions : List Nat) :
    Option Mph := do
  let backend ← ChdBackend.build sort sortedKeys
  pure ⟨backend, firstPositions⟩

/-- `entity_position` -/
def entityPosition (mph : Mph) (key : EntityId) (canonical : List Datom) : Option Nat :=
  if mph.entityFirstPos = [] then none
  else do
    let slot := mph.backend.lookup key
    let keyIdx ← mph.backend.reverseLookup slot
    let pos ← mph.entityFirstPos[keyIdx]?
    if canonical[pos]?.map Datom.entity = some key then some pos else none

end Mph

section Spec

variable {sortedKeys : List EntityId}

/-- The buckets partition the entities by their first hash. -/
theorem mem_assignBuckets {numBuckets : Nat} (hpos : 0 < numBuckets) (bucket : Fin numBuckets)
    (i : Fin sortedKeys.length) :
    i ∈ getElem (assignBuckets sortedKeys numBuckets hpos) bucket bucket.isLt ↔
      reduceHash (h1 sortedKeys[i]) numBuckets hpos = bucket :=
  mem_distribute.trans (and_iff_right (List.mem_finRange i))

/-- An attempt gives the slots of a displacement. -/
theorem tryDisplacement_fits {numSlots : Nat} (hpos : 0 < numSlots) :
    Table.Fits (tryDisplacement sortedKeys numSlots hpos) fun d i =>
      slotForKey sortedKeys[i] d numSlots hpos :=
  fun _ _ _ _ h => freeSlots_eq_some h

namespace ChdBackend

/-- A slot is looked up back to the index stored in it. -/
theorem reverseLookup_eq {backend : ChdBackend} {slot : Fin backend.numSlots} {i : Nat}
    (h : backend.slotToKeyIdx[slot] = i) (hi : i < u32Max) :
    backend.reverseLookup slot = some i := by
  have hget : backend.slotToKeyIdx[slot.val]? = some i :=
    (Vector.getElem?_eq_getElem slot.isLt).trans (congrArg some h)
  simp only [reverseLookup, hget, Option.getD_some]
  exact if_neg (Nat.ne_of_lt hi)

/-- Every entity is found at its slot. -/
theorem reverseLookup_lookup {sort : UnstableSort} {backend : ChdBackend}
    (h : build sort sortedKeys = some backend) (i : Fin sortedKeys.length) :
    backend.reverseLookup (backend.lookup sortedKeys[i]) = some i.val := by
  have hi := i.isLt
  unfold build at h
  split at h
  case isTrue => cases h
  case isFalse hbound =>
    simp only at h
    rw [if_neg (by omega)] at h
    split at h
    case h_1 => cases h
    case h_2 table htable =>
      cases h
      obtain ⟨-, hcontent⟩ := Table.place_holds (tryDisplacement_fits _) (mem_assignBuckets _)
        (sort.perm _ _) htable i
      rw [saturate_eq (Nat.le_refl (u32Max + 1)) (by omega)] at hcontent
      rw [lookup, dif_pos (Nat.succ_pos _)]
      exact reverseLookup_eq hcontent (by omega)

end ChdBackend

end Spec

end Ferratomic
