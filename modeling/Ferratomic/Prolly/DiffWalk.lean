import Ferratomic.Prolly.Diff

/-!
# The walk of a diff

Every entry of the stack stands for two multisets of entries and a number of chunks. A visit
replaces an entry by entries and reports that stand for the same, up to what both sides have, and
takes a chunk off. The main theorem, `DiffIterator.collect_ok`, says that the walk ends and what it
reports.
-/

namespace Ferratomic.Prolly

open Lib

section Walk

/-- The entries of a tree and the number of its chunks. -/
def Tree.load {n : Nat} (tree : Tree n) : Multiset KvEntry × Nat :=
  (↑tree.entries, tree.size)

/-- The load of a node is the sum of its children's and itself. -/
theorem Tree.load_succ {n : Nat} (children : List (Tree n)) :
    Tree.load (n := n + 1) children = (0, 1) + (children.map Tree.load).sum := by
  have hsum : (children.map Tree.load).sum =
      ((↑(children.flatMap Tree.entries) : Multiset KvEntry), (children.map Tree.size).sum) := by
    induction children with
    | nil => rfl
    | cons child rest ih =>
        rw [List.map_cons, List.sum_cons, ih, List.flatMap_cons, ← Multiset.coe_add]
        rfl
  rw [hsum]
  exact Prod.ext (zero_add _).symm rfl

/-- What a subtree is for its side. -/
def DiffSide.load : DiffSide → Multiset KvEntry × Nat → Sides × Nat
  | left, load => ((load.1, 0), load.2)
  | right, load => ((0, load.1), load.2)

/-- The load of a side distributes over sums. -/
theorem DiffSide.load_add (side : DiffSide) (a b : Multiset KvEntry × Nat) :
    side.load (a + b) = side.load a + side.load b := by
  cases side with
  | left => exact Prod.ext (Prod.ext rfl (add_zero 0).symm) rfl
  | right => exact Prod.ext (Prod.ext (add_zero 0).symm rfl) rfl

/-- An internal chunk adds no entries to those below. -/
theorem DiffSide.load_internal (side : DiffSide) (below : Multiset KvEntry × Nat) :
    side.load ((0, 1) + below) = (0, 1) + side.load below := by
  rw [side.load_add]
  cases side <;> rfl

variable [Blake3]

/-- A store holds a tree under an address, with these entries and that many chunks. -/
def Subtree (store : ChunkStore) (addr : Hash) (load : Multiset KvEntry × Nat) : Prop :=
  ∃ (n : Nat) (tree : Tree n), Holds store.stored tree addr ∧ tree.load = load

/-- The entries that the subtrees of a stack entry have and their number of chunks. -/
def DiffStackEntry.Denotes (store : ChunkStore) : DiffStackEntry → Sides × Nat → Prop
  | .leftOnly hash, load => ∃ part, Subtree store hash part ∧ load = DiffSide.left.load part
  | .rightOnly hash, load => ∃ part, Subtree store hash part ∧ load = DiffSide.right.load part
  | .compare left right, load =>
      ∃ leftPart rightPart, Subtree store left leftPart ∧ Subtree store right rightPart ∧
        load = DiffSide.left.load leftPart + DiffSide.right.load rightPart

/-- A subtree pending on one side denotes its load on that side. -/
theorem DiffSide.denotes_subtree {store : ChunkStore} {addr : Hash}
    {load : Multiset KvEntry × Nat} (h : Subtree store addr load) (side : DiffSide) :
    (side.subtree addr).Denotes store (side.load load) := by
  cases side with
  | left => exact ⟨load, h, rfl⟩
  | right => exact ⟨load, h, rfl⟩

/-- Subtrees under one address do not differ. -/
theorem Subtree.cancels {store : ChunkStore} {addr : Hash} {a b : Multiset KvEntry × Nat}
    (ha : Subtree store addr a) (hb : Subtree store addr b) :
    Cancels (DiffSide.left.load a + DiffSide.right.load b).1 0 := by
  obtain ⟨n, left, hleft, rfl⟩ := ha
  obtain ⟨m, right, hright, rfl⟩ := hb
  have hsides : (DiffSide.left.load left.load + DiffSide.right.load right.load).1 =
      ((↑left.entries, ↑right.entries) : Sides) := Prod.ext (add_zero _) (zero_add _)
  rw [hsides, hleft.entries_eq hright]
  exact .diagonal _

/-- The subtrees below the children of an internal chunk. -/
theorem summed_children {store : ChunkStore} {n : Nat} {trees : List (Tree n)}
    {children : List Child}
    (h : List.Forall₂
      (fun tree (child : Child) => Holds store.stored tree child.2) trees children) :
    Summed (fun child => Subtree store child.2) children (trees.map Tree.load).sum := by
  induction h with
  | nil => exact .nil
  | cons hchild hrest ih =>
      rw [List.map_cons, List.sum_cons]
      exact .cons ⟨n, _, hchild, rfl⟩ ih

/-- A subtree is a leaf chunk, or an internal chunk with subtrees below. -/
theorem Subtree.cases {store : ChunkStore} {addr : Hash} {load : Multiset KvEntry × Nat}
    (h : Subtree store addr load) :
    ∃ chunk, DiffIterator.loadChunk store addr = .ok chunk ∧
      ((∃ entries : List KvEntry, chunkTag chunk.data = .ok 0x01 ∧
        deserializeLeafChunk chunk.data = .ok entries ∧ load = (↑entries, 1)) ∨
      ∃ children below, chunkTag chunk.data = .ok 0x02 ∧
        decodeChildAddrs chunk.data = .ok (children.map Prod.snd) ∧
        decodeInternalChildren chunk.data = .ok children ∧
        Summed (fun child => Subtree store child.2) children below ∧ load = (0, 1) + below) := by
  obtain ⟨n, tree, hheld, rfl⟩ := h
  cases n with
  | zero =>
      obtain ⟨chunk, hchunk, hdata, hkeys⟩ := hheld
      obtain ⟨rest, htag⟩ := serializeLeafChunk_tag hdata
      refine ⟨chunk, ChunkStore.loadChunk_ok hchunk _ _, .inl ⟨tree, ?_,
        deserializeLeafChunk_ok hdata hkeys, rfl⟩⟩
      rw [htag]
      rfl
  | succ n =>
      obtain ⟨chunk, level, children, hchunk, hdata, hchildren⟩ := hheld
      obtain ⟨rest, htag⟩ := serializeInternalChunk_tag hdata
      refine ⟨chunk, ChunkStore.loadChunk_ok hchunk _ _, .inr ⟨children, _, ?_,
        decodeChildAddrs_ok hdata, decodeInternalChildren_ok hdata, summed_children hchildren,
        Tree.load_succ tree⟩⟩
      rw [htag]
      rfl

/-- A subtree has at least one chunk. -/
theorem Subtree.pos {store : ChunkStore} {addr : Hash} {load : Multiset KvEntry × Nat}
    (h : Subtree store addr load) : 0 < load.2 := by
  obtain ⟨chunk, -, ⟨entries, -, -, rfl⟩ | ⟨children, below, -, -, -, -, rfl⟩⟩ := h.cases
  · exact Nat.one_pos
  · exact Nat.add_pos_left Nat.one_pos below.2

omit [Blake3] in
/-- The entries of one side are reported as that side's load. -/
theorem reported_entries (side : DiffSide) (entries : List KvEntry) (chunks : Nat) :
    reported (entries.map side.entry) = (side.load (↑entries, chunks)).1 := by
  cases side with
  | left => exact reported_left entries
  | right => exact reported_right entries

variable {store : ChunkStore}

/-- The children that go onto the stack have the entries of the chunk they come from. -/
theorem summed_descend {it : DiffIterator} {rest : Sides × Nat}
    (hstack : Summed (DiffStackEntry.Denotes store) it.stack rest) {children : List Child}
    {below : Multiset KvEntry × Nat}
    (h : Summed (fun child => Subtree store child.2) children below) (side : DiffSide) :
    Summed (DiffStackEntry.Denotes store) (it.descend side (children.map Prod.snd)).stack
      (side.load below + rest) := by
  refine Summed.push ?_ hstack
  rw [List.map_reverse]
  refine Summed.reverse ?_
  induction h with
  | nil =>
      cases side with
      | left => exact .nil
      | right => exact .nil
  | cons hchild hrest ih =>
      rw [side.load_add]
      exact .cons (side.denotes_subtree hchild) ih

/-- The join of the children of two internal chunks skips only subtrees that are equal. -/
theorem summed_mergeJoin (left right : List Child) :
    ∀ leftBelow rightBelow, Summed (fun child => Subtree store child.2) left leftBelow →
      Summed (fun child => Subtree store child.2) right rightBelow →
      ∃ below, Summed (DiffStackEntry.Denotes store) (mergeJoin
          (fun child => DiffSide.left.subtree child.2) (fun child => DiffSide.right.subtree child.2)
          comparedChild left right) below ∧
        Cancels (DiffSide.left.load leftBelow + DiffSide.right.load rightBelow).1 below.1 ∧
        below.2 ≤ leftBelow.2 + rightBelow.2 := by
  refine mergeJoin_induction (P := fun left right out => ∀ leftBelow rightBelow,
    Summed (fun (child : Child) => Subtree store child.2) left leftBelow →
    Summed (fun (child : Child) => Subtree store child.2) right rightBelow →
    ∃ below, Summed (DiffStackEntry.Denotes store) out below ∧
      Cancels (DiffSide.left.load leftBelow + DiffSide.right.load rightBelow).1 below.1 ∧
      below.2 ≤ leftBelow.2 + rightBelow.2) ?_ ?_ ?_ ?_ left right
  · intro leftBelow rightBelow hleft hright
    cases hleft
    cases hright
    exact ⟨0, .nil, .refl 0, le_refl 0⟩
  · intro child left right out ih leftBelow rightBelow hleft hright
    cases hleft with
    | @cons _ _ part more hchild hleft =>
        obtain ⟨below, hsummed, hcancels, hle⟩ := ih more rightBelow hleft hright
        refine ⟨_, .cons (DiffSide.left.denotes_subtree hchild) hsummed, ?_, ?_⟩
        · rw [DiffSide.load_add, add_assoc]
          exact (Cancels.refl _).add hcancels
        · show part.2 + below.2 ≤ part.2 + more.2 + rightBelow.2
          omega
  · intro child left right out ih leftBelow rightBelow hleft hright
    cases hright with
    | @cons _ _ part more hchild hright =>
        obtain ⟨below, hsummed, hcancels, hle⟩ := ih leftBelow more hleft hright
        refine ⟨_, .cons (DiffSide.right.denotes_subtree hchild) hsummed, ?_, ?_⟩
        · rw [DiffSide.load_add, add_left_comm]
          exact (Cancels.refl _).add hcancels
        · show part.2 + below.2 ≤ leftBelow.2 + (part.2 + more.2)
          omega
  · intro key leftHash rightHash left right out ih leftBelow rightBelow hleft hright
    cases hleft with
    | @cons _ _ leftPart leftMore hleftChild hleft =>
    cases hright with
    | @cons _ _ rightPart rightMore hrightChild hright =>
        obtain ⟨below, hsummed, hcancels, hle⟩ := ih leftMore rightMore hleft hright
        rw [DiffSide.load_add, DiffSide.load_add, add_add_add_comm]
        unfold comparedChild
        split
        case isTrue hne =>
            refine ⟨_, .cons ⟨leftPart, rightPart, hleftChild, hrightChild, rfl⟩ hsummed,
              (Cancels.refl _).add hcancels, ?_⟩
            show leftPart.2 + rightPart.2 + below.2 ≤
              leftPart.2 + leftMore.2 + (rightPart.2 + rightMore.2)
            omega
        case isFalse heq =>
            -- one address: the subtrees are skipped, and they have the same entries
            rw [not_not] at heq
            have hboth := (hleftChild.cancels (heq ▸ hrightChild)).add hcancels
            rw [zero_add] at hboth
            refine ⟨below, hsummed, hboth, ?_⟩
            show below.2 ≤ leftPart.2 + leftMore.2 + (rightPart.2 + rightMore.2)
            omega

/-- What the visit of a stack entry leaves: reports and subtrees that differ as those of the entry
do, with fewer chunks. -/
def Visited (store : ChunkStore) (load rest : Sides × Nat) (it : DiffIterator) : Prop :=
  ∃ below, Summed (DiffStackEntry.Denotes store) it.stack (below + rest) ∧
    Cancels load.1 (reported it.pending + below.1) ∧ (∀ entry ∈ it.pending, entry.Proper) ∧
    below.2 < load.2

omit [Blake3] in
/-- Entries of one side are proper. -/
theorem proper_entries (side : DiffSide) (entries : List KvEntry) :
    ∀ entry ∈ entries.map side.entry, DiffEntry.Proper entry := by
  intro entry hentry
  obtain ⟨kv, -, rfl⟩ := List.mem_map.mp hentry
  cases side with
  | left => trivial
  | right => trivial

/-- Enumerating a subtree that is there visits its load. -/
theorem enumerateSubtree_ok {stack : List DiffStackEntry} {rest : Sides × Nat}
    (hstack : Summed (DiffStackEntry.Denotes store) stack rest) {addr : Hash}
    {part : Multiset KvEntry × Nat} (h : Subtree store addr part) (side : DiffSide) :
    ∃ it, DiffIterator.enumerateSubtree store ⟨stack, []⟩ addr side = .ok it ∧
      Visited store (side.load part) rest it := by
  obtain ⟨chunk, hchunk, ⟨entries, htag, hentries, rfl⟩ |
    ⟨children, below, htag, haddrs, -, hbelow, rfl⟩⟩ := h.cases
  · refine ⟨DiffIterator.emit ⟨stack, []⟩ side entries, ?_, 0, ?_, ?_, ?_, ?_⟩
    · simp only [DiffIterator.enumerateSubtree, hchunk, htag, hentries, bind, Except.bind, if_true,
        pure, Except.pure]
    · rw [zero_add]
      exact hstack
    · show Cancels _ (reported ([] ++ entries.map side.entry) + 0)
      rw [List.nil_append, reported_entries side entries 1, add_zero]
      exact .refl _
    · exact proper_entries side entries
    · cases side <;> exact Nat.one_pos
  · have hleaf : ¬ (0x02 : UInt8) = 0x01 := by decide
    refine ⟨DiffIterator.descend ⟨stack, []⟩ side (children.map Prod.snd), ?_, side.load below,
      summed_descend hstack hbelow side, ?_, ?_, ?_⟩
    · simp only [DiffIterator.enumerateSubtree, hchunk, htag, haddrs, bind, Except.bind,
        if_neg hleaf, pure, Except.pure]
    · rw [side.load_internal]
      show Cancels (0 + (side.load below).1) (0 + (side.load below).1)
      exact .refl _
    · exact fun entry hentry => absurd hentry List.not_mem_nil
    · rw [side.load_internal]
      show (side.load below).2 < 1 + (side.load below).2
      omega

/-- Comparing two subtrees that are there visits the difference of their loads. -/
theorem compareChunks_ok {stack : List DiffStackEntry} {rest : Sides × Nat}
    (hstack : Summed (DiffStackEntry.Denotes store) stack rest) {leftHash rightHash : Hash}
    {leftPart rightPart : Multiset KvEntry × Nat} (hleft : Subtree store leftHash leftPart)
    (hright : Subtree store rightHash rightPart) :
    ∃ it, DiffIterator.compareChunks store ⟨stack, []⟩ leftHash rightHash = .ok it ∧
      Visited store (DiffSide.left.load leftPart + DiffSide.right.load rightPart) rest it := by
  have hleaf : ¬ (0x02 : UInt8) = 0x01 := by decide
  -- two leaves are joined; of a leaf and an internal chunk the leaf is reported whole and the
  -- other one opened; two internal chunks are joined by their separators
  obtain ⟨leftChunk, hleftChunk, ⟨leftEntries, hleftTag, hleftEntries, rfl⟩ |
    ⟨leftChildren, leftBelow, hleftTag, hleftAddrs, hleftChildren, hleftBelow, rfl⟩⟩ := hleft.cases
  · obtain ⟨rightChunk, hrightChunk, ⟨rightEntries, hrightTag, hrightEntries, rfl⟩ |
      ⟨rightChildren, rightBelow, hrightTag, hrightAddrs, -, hrightBelow, rfl⟩⟩ := hright.cases
    · refine ⟨⟨stack, diffSortedEntries leftEntries rightEntries []⟩, ?_, 0, ?_, ?_, ?_, ?_⟩
      · simp only [DiffIterator.compareChunks, hleftChunk, hrightChunk, hleftTag, hrightTag,
          hleftEntries, hrightEntries, bind, Except.bind, if_true, pure, Except.pure]
      · rw [zero_add]
        exact hstack
      · have hsides :
            (DiffSide.left.load (↑leftEntries, 1) + DiffSide.right.load (↑rightEntries, 1)).1 =
              sidesOf leftEntries rightEntries := Prod.ext (add_zero _) (zero_add _)
        rw [hsides]
        show Cancels _ (_ + 0)
        rw [add_zero]
        exact cancels_mergeJoin leftEntries rightEntries
      · exact proper_mergeJoin leftEntries rightEntries
      · show 0 < 1 + 1
        omega
    · refine ⟨DiffIterator.descend (DiffIterator.emit ⟨stack, []⟩ .left leftEntries) .right
        (rightChildren.map Prod.snd), ?_, DiffSide.right.load rightBelow,
        summed_descend hstack hrightBelow .right, ?_, ?_, ?_⟩
      · simp only [DiffIterator.compareChunks, hleftChunk, hrightChunk, hleftTag, hrightTag,
          hleftEntries, hrightAddrs, bind, Except.bind, if_true, if_neg hleaf, pure, Except.pure]
      · rw [DiffSide.load_internal]
        show Cancels (_ + (0 + (DiffSide.right.load rightBelow).1))
          (reported ([] ++ leftEntries.map DiffSide.left.entry) + _)
        rw [List.nil_append, reported_entries .left leftEntries 1, zero_add]
        exact .refl _
      · exact proper_entries .left leftEntries
      · rw [DiffSide.load_internal]
        show rightBelow.2 < 1 + (1 + rightBelow.2)
        omega
  · obtain ⟨rightChunk, hrightChunk, ⟨rightEntries, hrightTag, hrightEntries, rfl⟩ |
      ⟨rightChildren, rightBelow, hrightTag, -, hrightChildren, hrightBelow, rfl⟩⟩ := hright.cases
    · refine ⟨DiffIterator.descend (DiffIterator.emit ⟨stack, []⟩ .right rightEntries) .left
        (leftChildren.map Prod.snd), ?_, DiffSide.left.load leftBelow,
        summed_descend hstack hleftBelow .left, ?_, ?_, ?_⟩
      · simp only [DiffIterator.compareChunks, hleftChunk, hrightChunk, hleftTag, hrightTag,
          hrightEntries, hleftAddrs, bind, Except.bind, if_true, if_neg hleaf, pure, Except.pure]
      · rw [DiffSide.load_internal]
        show Cancels (0 + (DiffSide.left.load leftBelow).1 + _)
          (reported ([] ++ rightEntries.map DiffSide.right.entry) + _)
        rw [List.nil_append, reported_entries .right rightEntries 1, zero_add, add_comm]
        exact .refl _
      · exact proper_entries .right rightEntries
      · rw [DiffSide.load_internal]
        show leftBelow.2 < 1 + leftBelow.2 + 1
        omega
    · obtain ⟨below, hbelow, hcancels, hle⟩ :=
        summed_mergeJoin leftChildren rightChildren leftBelow rightBelow hleftBelow hrightBelow
      refine ⟨⟨mergeJoinChildren leftChildren rightChildren stack, []⟩, ?_, below,
        hbelow.push hstack, ?_, ?_, ?_⟩
      · simp only [DiffIterator.compareChunks, hleftChunk, hrightChunk, hleftTag, hrightTag,
          hleftChildren, hrightChildren, bind, Except.bind, if_neg hleaf, pure, Except.pure]
      · rw [DiffSide.load_internal, DiffSide.load_internal, add_add_add_comm]
        show Cancels (0 + (DiffSide.left.load leftBelow + DiffSide.right.load rightBelow).1)
          (0 + below.1)
        rw [zero_add, zero_add]
        exact hcancels
      · exact fun entry hentry => absurd hentry List.not_mem_nil
      · rw [DiffSide.load_internal, DiffSide.load_internal]
        show below.2 < 1 + leftBelow.2 + (1 + rightBelow.2)
        omega

/-- A visit succeeds. -/
theorem visit_ok {stack : List DiffStackEntry} {rest : Sides × Nat}
    (hstack : Summed (DiffStackEntry.Denotes store) stack rest) {entry : DiffStackEntry}
    {load : Sides × Nat} (h : entry.Denotes store load) :
    ∃ it, DiffIterator.visit store ⟨stack, []⟩ entry = .ok it ∧ Visited store load rest it := by
  cases entry with
  | leftOnly hash =>
      obtain ⟨part, hpart, rfl⟩ := h
      exact enumerateSubtree_ok hstack hpart .left
  | rightOnly hash =>
      obtain ⟨part, hpart, rfl⟩ := h
      exact enumerateSubtree_ok hstack hpart .right
  | compare left right =>
      obtain ⟨leftPart, rightPart, hleft, hright, rfl⟩ := h
      unfold DiffIterator.visit
      simp only
      split
      case isTrue heq =>
          refine ⟨_, rfl, 0, ?_, ?_, ?_, ?_⟩
          · rw [zero_add]
            exact hstack
          · exact hleft.cancels (heq ▸ hright)
          · exact fun entry hentry => absurd hentry List.not_mem_nil
          · exact Nat.add_pos_left hleft.pos rightPart.2
      case isFalse => exact compareChunks_ok hstack hleft hright

namespace DiffIterator

/-- More fuel does not change what an advance returns. -/
theorem advance_succ {fuel : Nat} {it : DiffIterator}
    {next : Except FerraError (Option (DiffEntry × DiffIterator))}
    (h : it.advance store fuel = some next) : it.advance store (fuel + 1) = some next := by
  induction fuel generalizing it with
  | zero => cases h
  | succ fuel ih =>
      unfold advance at h ⊢
      split at h
      case h_1 => exact h
      case h_2 =>
          split at h
          case h_1 => exact h
          case h_2 =>
              split at h
              case h_1 => exact h
              case h_2 => exact ih h

/-- More fuel does not change what the walk collects. -/
theorem collect_succ {fuel : Nat} {it : DiffIterator} {result : Except FerraError (List DiffEntry)}
    (h : it.collect store fuel = some result) : it.collect store (fuel + 1) = some result := by
  induction fuel generalizing it result with
  | zero => cases h
  | succ fuel ih =>
      unfold collect at h ⊢
      cases hnext : it.advance store (fuel + 1) with
      | none =>
          rw [hnext] at h
          cases h
      | some next =>
          rw [hnext] at h
          rw [advance_succ hnext]
          match next, h with
          | .error e, h => exact h
          | .ok none, h => exact h
          | .ok (some (entry, it)), h =>
              simp only [Option.map_eq_some_iff] at h ⊢
              obtain ⟨rest, hrest, h⟩ := h
              exact ⟨rest, ih hrest, h⟩

/-- More turns do not change the result. -/
theorem collect_mono {fuel more : Nat} (hle : fuel ≤ more) {it : DiffIterator}
    {result : Except FerraError (List DiffEntry)} (h : it.collect store fuel = some result) :
    it.collect store more = some result := by
  induction hle with
  | refl => exact h
  | step _ ih => exact collect_succ ih

/-- What is pending comes first. -/
theorem collect_pending {fuel : Nat} {stack : List DiffStackEntry} {out : List DiffEntry}
    (h : (DiffIterator.mk stack []).collect store fuel = some (.ok out))
    (pending : List DiffEntry) :
    (DiffIterator.mk stack pending).collect store (fuel + pending.length) =
      some (.ok (pending ++ out)) := by
  induction pending with
  | nil => exact h
  | cons entry pending ih =>
      rw [List.length_cons, ← Nat.add_assoc]
      simp only [collect, advance, ih, Option.map_some, Except.map, List.cons_append]

/-- A visit is a turn of the loop. -/
theorem collect_visit {fuel : Nat} {entry : DiffStackEntry} {stack : List DiffStackEntry}
    {it : DiffIterator} (hvisit : visit store ⟨stack, []⟩ entry = .ok it)
    {result : Except FerraError (List DiffEntry)} (h : it.collect store fuel = some result) :
    (DiffIterator.mk (entry :: stack) []).collect store (fuel + 1) = some result := by
  have hadvance : (DiffIterator.mk (entry :: stack) []).advance store (fuel + 1) =
      it.advance store fuel := by
    rw [advance]
    simp only [hvisit]
  cases fuel with
  | zero => cases h
  | succ fuel =>
      unfold collect at h ⊢
      rw [hadvance]
      cases hnext : it.advance store (fuel + 1) with
      | none =>
          rw [hnext] at h
          cases h
      | some next =>
          rw [hnext] at h
          match next, h with
          | .error e, h => exact h
          | .ok none, h => exact h
          | .ok (some (entry, it)), h =>
              simp only [Option.map_eq_some_iff] at h ⊢
              obtain ⟨rest, hrest, h⟩ := h
              exact ⟨rest, collect_succ hrest, h⟩

end DiffIterator

/-- The walk ends, and its reports differ as the subtrees on its stack do. -/
theorem collect_ok {stack : List DiffStackEntry} {load : Sides × Nat}
    (h : Summed (DiffStackEntry.Denotes store) stack load) :
    ∃ fuel out, (DiffIterator.mk stack []).collect store fuel = some (.ok out) ∧
      Cancels load.1 (reported out) ∧ ∀ entry ∈ out, entry.Proper := by
  induction hchunks : load.2 using Nat.strong_induction_on generalizing stack load with
  | _ chunks ih =>
      cases h with
      | nil => exact ⟨1, [], rfl, .refl 0, fun entry hentry => absurd hentry List.not_mem_nil⟩
      | @cons entry stack part rest hentry hstack =>
          obtain ⟨⟨next, pending⟩, hvisit, below, hnext, hcancels, hproper, hlt⟩ :=
            visit_ok hstack hentry
          obtain ⟨fuel, out, hcollect, hout, hproper'⟩ := ih (below + rest).2 (by
            subst hchunks
            exact Nat.add_lt_add_right hlt rest.2) hnext rfl
          refine ⟨_, pending ++ out, DiffIterator.collect_visit hvisit
            (DiffIterator.collect_pending hcollect pending), ?_, ?_⟩
          · rw [reported_append]
            have hrest : Cancels (part.1 + rest.1) (reported pending + (below.1 + rest.1)) := by
              rw [← add_assoc]
              exact hcancels.add (.refl rest.1)
            exact hrest.trans ((Cancels.refl _).add hout)
          · exact List.forall_mem_append.mpr ⟨hproper, hproper'⟩

end Walk

end Ferratomic.Prolly
