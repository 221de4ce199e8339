import Ferratomic.Lib.MergeJoin
import Ferratomic.Prolly.Read

/-!
# The difference of two prolly trees

The diff walks down two trees at once with a stack of subtrees to compare, skips subtrees with
equal addresses, and collects what is on one side only. Entries that moved between chunks are
reported on both sides and are cancelled at the end. What a list of entries reports is a pair of
multisets, one for each side, and merging two sorted lists reports their difference up to what both
sides have (`cancels_mergeJoin`).
-/

namespace Ferratomic.Prolly

open Lib

/-- `DiffEntry` -/
inductive DiffEntry where
  | leftOnly (key value : Bytes)
  | rightOnly (key value : Bytes)
  | modified (key leftValue rightValue : Bytes)
  deriving DecidableEq

/-- `DiffStackEntry` -/
inductive DiffStackEntry where
  | compare (left right : Hash)
  | leftOnly (hash : Hash)
  | rightOnly (hash : Hash)

/-- `DiffSide` -/
inductive DiffSide where
  | left
  | right

/-- An entry of one side. -/
def DiffSide.entry : DiffSide → KvEntry → DiffEntry
  | left, entry => .leftOnly entry.1 entry.2
  | right, entry => .rightOnly entry.1 entry.2

/-- A subtree of one side. -/
def DiffSide.subtree : DiffSide → Hash → DiffStackEntry
  | left, hash => .leftOnly hash
  | right, hash => .rightOnly hash

/-- The report on a key that both sides have. -/
def modifiedEntry (key left right : Bytes) : Option DiffEntry :=
  if left ≠ right then some (.modified key left right) else none

/-- The comparison of two children with one separator. -/
def comparedChild (_ : Bytes) (left right : Hash) : Option DiffStackEntry :=
  if left ≠ right then some (.compare left right) else none

/-- `diff_sorted_entries` -/
def diffSortedEntries (left right : List KvEntry) (out : List DiffEntry) : List DiffEntry :=
  out ++ mergeJoin DiffSide.left.entry DiffSide.right.entry modifiedEntry left right

/-- Push in order; the top of the stack is its head. -/
def pushAll (entries stack : List DiffStackEntry) : List DiffStackEntry :=
  entries.foldl (fun stack entry => entry :: stack) stack

/-- `merge_join_children` -/
def mergeJoinChildren (left right : List Child) (stack : List DiffStackEntry) :
    List DiffStackEntry :=
  pushAll (mergeJoin (fun child => DiffSide.left.subtree child.2)
    (fun child => DiffSide.right.subtree child.2) comparedChild left right) stack

/-- `merge_cancel_phantoms` -/
def mergeCancelPhantoms (left right : List KvEntry) (out : List DiffEntry) : List DiffEntry :=
  out ++ mergeJoin DiffSide.left.entry DiffSide.right.entry modifiedEntry left right

namespace DiffEntry

/-- The key of an entry. -/
def key : DiffEntry → Bytes
  | leftOnly key _ => key
  | rightOnly key _ => key
  | modified key _ _ => key

/-- The entry of the left side only. -/
def onlyLeft? : DiffEntry → Option KvEntry
  | leftOnly key value => some (key, value)
  | _ => none

/-- The entry of the right side only. -/
def onlyRight? : DiffEntry → Option KvEntry
  | rightOnly key value => some (key, value)
  | _ => none

/-- Both sides have the key. -/
def isModified : DiffEntry → Bool
  | modified _ _ _ => true
  | _ => false

end DiffEntry

/-- `deduplicate_phantom_entries`. The keys of each side are distinct, so that the sort is the same
whether it is stable or not. -/
def deduplicatePhantomEntries (entries : List DiffEntry) : List DiffEntry :=
  let left := entries.filterMap DiffEntry.onlyLeft?
  let right := entries.filterMap DiffEntry.onlyRight?
  mergeCancelPhantoms (left.mergeSort fun a b => a.1 ≤ b.1) (right.mergeSort fun a b => a.1 ≤ b.1)
    (entries.filter DiffEntry.isModified)

/-- `DiffIterator`, without the store that it reads from. -/
structure DiffIterator where
  stack : List DiffStackEntry
  pending : List DiffEntry

/-- `chunk_tag` -/
def chunkTag : Bytes → Except FerraError UInt8
  | [] => .error .emptyChunk
  | tag :: _ => if tag ≠ 0x01 ∧ tag ≠ 0x02 then .error (.unknownCodecTag tag) else .ok tag

section Iteration

variable [Blake3]

/-- `diff` -/
def diff (root1 root2 : Hash) : DiffIterator :=
  if root1 = root2 then ⟨[], []⟩ else ⟨[.compare root1 root2], []⟩

namespace DiffIterator

/-- `load_chunk` of the diff. -/
def loadChunk (store : ChunkStore) (addr : Hash) : Except FerraError Chunk :=
  store.loadChunk "INV-FERR-047" "during diff traversal" addr

/-- The entries of a leaf go to the end of the queue. -/
def emit (it : DiffIterator) (side : DiffSide) (entries : List KvEntry) : DiffIterator :=
  { it with pending := it.pending ++ entries.map side.entry }

/-- The children of an internal chunk go onto the stack, the leftmost on top. -/
def descend (it : DiffIterator) (side : DiffSide) (children : List Hash) : DiffIterator :=
  { it with stack := pushAll (children.reverse.map side.subtree) it.stack }

/-- `enumerate_subtree` -/
def enumerateSubtree (store : ChunkStore) (it : DiffIterator) (hash : Hash) (side : DiffSide) :
    Except FerraError DiffIterator := do
  let chunk ← loadChunk store hash
  let tag ← chunkTag chunk.data
  if tag = 0x01 then
    let entries ← deserializeLeafChunk chunk.data
    pure (it.emit side entries)
  else
    let children ← decodeChildAddrs chunk.data
    pure (it.descend side children)

/-- `compare_chunks` -/
def compareChunks (store : ChunkStore) (it : DiffIterator) (leftHash rightHash : Hash) :
    Except FerraError DiffIterator := do
  let leftChunk ← loadChunk store leftHash
  let rightChunk ← loadChunk store rightHash
  let leftTag ← chunkTag leftChunk.data
  let rightTag ← chunkTag rightChunk.data
  if leftTag = 0x01 then
    if rightTag = 0x01 then
      let leftEntries ← deserializeLeafChunk leftChunk.data
      let rightEntries ← deserializeLeafChunk rightChunk.data
      pure { it with pending := diffSortedEntries leftEntries rightEntries it.pending }
    else
      let entries ← deserializeLeafChunk leftChunk.data
      let children ← decodeChildAddrs rightChunk.data
      pure ((it.emit .left entries).descend .right children)
  else if rightTag = 0x01 then
    let entries ← deserializeLeafChunk rightChunk.data
    let children ← decodeChildAddrs leftChunk.data
    pure ((it.emit .right entries).descend .left children)
  else
    let leftChildren ← decodeInternalChildren leftChunk.data
    let rightChildren ← decodeInternalChildren rightChunk.data
    pure { it with stack := mergeJoinChildren leftChildren rightChildren it.stack }

/-- What `advance` does with the entry that it pops. -/
def visit (store : ChunkStore) (it : DiffIterator) : DiffStackEntry → Except FerraError DiffIterator
  | .leftOnly hash => it.enumerateSubtree store hash .left
  | .rightOnly hash => it.enumerateSubtree store hash .right
  | .compare leftHash rightHash =>
      if leftHash = rightHash then .ok it else it.compareChunks store leftHash rightHash

/-- `advance`, with at most so many turns of its loop. -/
def advance (store : ChunkStore) :
    Nat → DiffIterator → Option (Except FerraError (Option (DiffEntry × DiffIterator)))
  | 0, _ => none
  | fuel + 1, it =>
      match it.pending with
      | entry :: pending => some (.ok (some (entry, { it with pending := pending })))
      | [] =>
          match it.stack with
          | [] => some (.ok none)
          | entry :: stack =>
              match visit store ⟨stack, []⟩ entry with
              | .error e => some (.error e)
              | .ok it => advance store fuel it

/-- The `collect` over `next`: up to the end or to the first error. -/
def collect (store : ChunkStore) :
    Nat → DiffIterator → Option (Except FerraError (List DiffEntry))
  | 0, _ => none
  | fuel + 1, it =>
      match advance store (fuel + 1) it with
      | none => none
      | some (.error e) => some (.error e)
      | some (.ok none) => some (.ok [])
      | some (.ok (some (entry, it))) => (collect store fuel it).map (Except.map (entry :: ·))

end DiffIterator

/-- `diff_exact` -/
def diffExact (fuel : Nat) (root1 root2 : Hash) (store : ChunkStore) :
    Option (Except FerraError (List DiffEntry)) :=
  ((diff root1 root2).collect store fuel).map (Except.map deduplicatePhantomEntries)

end Iteration

section Reports

/-- The entries of the left and of the right side. -/
abbrev Sides := Multiset KvEntry × Multiset KvEntry

/-- Two lists as the two sides. -/
def sidesOf (left right : List KvEntry) : Sides :=
  (↑left, ↑right)

/-- What an entry says of the two sides. -/
def DiffEntry.sides : DiffEntry → Sides
  | leftOnly key value => ({(key, value)}, 0)
  | rightOnly key value => (0, {(key, value)})
  | modified key left right => ({(key, left)}, {(key, right)})

/-- The values of a modified entry differ. -/
def DiffEntry.Proper : DiffEntry → Prop
  | modified _ left right => left ≠ right
  | _ => True

/-- What entries say of the two sides together. -/
def reported (out : List DiffEntry) : Sides :=
  (out.map DiffEntry.sides).sum

/-- No entry reports nothing. -/
@[simp]
theorem reported_nil : reported [] = 0 := rfl

/-- An entry reports its sides before those of the rest. -/
@[simp]
theorem reported_cons (entry : DiffEntry) (out : List DiffEntry) :
    reported (entry :: out) = entry.sides + reported out := by
  simp [reported]

/-- Two lists of entries report the sum of what each reports. -/
@[simp]
theorem reported_append (out more : List DiffEntry) :
    reported (out ++ more) = reported out + reported more := by
  simp [reported]

/-- An entry on the left only is reported as a left one. -/
theorem sidesOf_cons_left (entry : KvEntry) (left right : List KvEntry) :
    sidesOf (entry :: left) right = (DiffSide.left.entry entry).sides + sidesOf left right :=
  Prod.ext (Multiset.singleton_add entry ↑left).symm (zero_add _).symm

/-- An entry on the right only is reported as a right one. -/
theorem sidesOf_cons_right (entry : KvEntry) (left right : List KvEntry) :
    sidesOf left (entry :: right) = (DiffSide.right.entry entry).sides + sidesOf left right :=
  Prod.ext (zero_add _).symm (Multiset.singleton_add entry ↑right).symm

/-- An entry on both sides is reported as modified. -/
theorem sidesOf_cons (key leftValue rightValue : Bytes) (left right : List KvEntry) :
    sidesOf ((key, leftValue) :: left) ((key, rightValue) :: right) =
      (DiffEntry.modified key leftValue rightValue).sides + sidesOf left right :=
  Prod.ext (Multiset.singleton_add (key, leftValue) ↑left).symm
    (Multiset.singleton_add (key, rightValue) ↑right).symm

/-- The entries of one side say what that side has. -/
theorem reported_left (entries : List KvEntry) :
    reported (entries.map DiffSide.left.entry) = sidesOf entries [] := by
  induction entries with
  | nil => rfl
  | cons entry rest ih => rw [List.map_cons, reported_cons, ih, sidesOf_cons_left]

/-- The entries of the right side are reported as its sides. -/
theorem reported_right (entries : List KvEntry) :
    reported (entries.map DiffSide.right.entry) = sidesOf [] entries := by
  induction entries with
  | nil => rfl
  | cons entry rest ih => rw [List.map_cons, reported_cons, ih, sidesOf_cons_right]

/-- The join of two lists of entries says how they differ, whatever their order. -/
theorem cancels_mergeJoin (left right : List KvEntry) :
    Cancels (sidesOf left right)
      (reported (mergeJoin DiffSide.left.entry DiffSide.right.entry modifiedEntry left right)) := by
  refine mergeJoin_induction (P := fun left right out => Cancels (sidesOf left right)
    (reported out)) ?_ ?_ ?_ ?_ left right
  · exact .refl 0
  · intro entry left right out ih
    rw [sidesOf_cons_left, reported_cons]
    exact (Cancels.refl _).add ih
  · intro entry left right out ih
    rw [sidesOf_cons_right, reported_cons]
    exact (Cancels.refl _).add ih
  · intro key leftValue rightValue left right out ih
    rw [sidesOf_cons, reported_append]
    refine .add ?_ ih
    unfold modifiedEntry
    split
    case isTrue => exact .refl _
    case isFalse heq =>
        rw [not_not] at heq
        rw [heq]
        exact .diagonal _

/-- A join reports no key as modified under which the values are equal. -/
theorem proper_mergeJoin (left right : List KvEntry) : ∀ entry ∈ mergeJoin DiffSide.left.entry
    DiffSide.right.entry modifiedEntry left right, entry.Proper := by
  refine mergeJoin_induction (P := fun _ _ out => ∀ entry ∈ out, DiffEntry.Proper entry)
    ?_ ?_ ?_ ?_ left right
  · intro entry hentry
    exact absurd hentry List.not_mem_nil
  · intro first left right out ih
    exact List.forall_mem_cons.mpr ⟨trivial, ih⟩
  · intro first left right out ih
    exact List.forall_mem_cons.mpr ⟨trivial, ih⟩
  · intro key leftValue rightValue left right out ih entry hentry
    rcases List.mem_append.mp hentry with hentry | hentry
    · rw [Option.mem_toList, modifiedEntry] at hentry
      split at hentry
      case isTrue hne =>
          cases hentry
          exact hne
      case isFalse => cases hentry
    · exact ih entry hentry

end Reports

end Ferratomic.Prolly
