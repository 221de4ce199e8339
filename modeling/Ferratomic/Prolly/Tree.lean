import Ferratomic.Lib.Forall2
import Ferratomic.Prolly.Build

/-!
# The tree that a build stores

`Tree n` is a tree of height `n` as a mathematical object: entries at height zero and a list of
subtrees above. `Holds has tree addr` says that the chunks which `has` provides spell out `tree`
from the address `addr` on. The main theorem, `buildWrites_ok`, says that the chunks which a build
puts hold a tree with exactly the entries of the map.
-/

namespace Ferratomic.Prolly

open Lib

/-- A tree of the given height. -/
def Tree : Nat → Type
  | 0 => List KvEntry
  | n + 1 => List (Tree n)

/-- The entries of a tree from left to right. -/
def Tree.entries : {n : Nat} → Tree n → List KvEntry
  | 0, leaf => leaf
  | _ + 1, (children : List (Tree _)) => children.flatMap Tree.entries

/-- The number of chunks of a tree. -/
def Tree.size : {n : Nat} → Tree n → Nat
  | 0, _ => 1
  | _ + 1, (children : List (Tree _)) => 1 + (children.map Tree.size).sum

variable [Blake3]

/-- The chunks provided under addresses spell out a tree. -/
def Holds (has : Hash → Chunk → Prop) : {n : Nat} → Tree n → Hash → Prop
  | 0, (leaf : List KvEntry), addr =>
      ∃ chunk, has addr chunk ∧ serializeLeafChunk leaf = .ok chunk.data ∧
        leaf.Pairwise fun a b => a.1 < b.1
  | _ + 1, (children : List (Tree _)), addr =>
      ∃ chunk level addrs, has addr chunk ∧ serializeInternalChunk level addrs = .ok chunk.data ∧
        List.Forall₂ (fun child (entry : Child) => Holds has child entry.2) children addrs

/-- A tree that is held is held by everything that has more. -/
theorem Holds.mono {has more : Hash → Chunk → Prop} (hmore : ∀ addr chunk, has addr chunk →
    more addr chunk) {n : Nat} {tree : Tree n} {addr : Hash} (h : Holds has tree addr) :
    Holds more tree addr := by
  induction n generalizing addr with
  | zero =>
      obtain ⟨chunk, hchunk, hleaf⟩ := h
      exact ⟨chunk, hmore addr chunk hchunk, hleaf⟩
  | succ n ih =>
      obtain ⟨chunk, level, addrs, hchunk, hdata, hchildren⟩ := h
      exact ⟨chunk, level, addrs, hmore addr chunk hchunk, hdata, hchildren.imp fun _ _ => ih⟩

/-- The chunks of a list, under their addresses. -/
def listed (chunks : List Chunk) (addr : Hash) (chunk : Chunk) : Prop :=
  chunk ∈ chunks ∧ chunk.addr = addr

/-- The chunks of a store, under their addresses. -/
def ChunkStore.stored (store : ChunkStore) (addr : Hash) (chunk : Chunk) : Prop :=
  store.getChunk addr = some chunk

section Build

variable {α : Type} {serialize : List α → Except FerraError Bytes} {key : α → Bytes}

/-- Every group that can be encoded gets a chunk, and its first key as separator. -/
theorem putGroups_ok {groups : List (List α)}
    (h : ∀ group ∈ groups, ∃ data, serialize group = .ok data) :
    ∃ children, (putGroups serialize key groups).1 = .ok children ∧
      List.Forall₂ (fun group (child : Child) => child.1 = (group.head?.map key).getD [] ∧
        ∃ chunk, listed (putGroups serialize key groups).2 child.2 chunk ∧
          serialize group = .ok chunk.data) groups children := by
  induction groups with
  | nil => exact ⟨[], rfl, .nil⟩
  | cons group rest ih =>
      obtain ⟨data, hdata⟩ := h group List.mem_cons_self
      obtain ⟨children, hchildren, hrest⟩ := ih fun other hother =>
        h other (List.mem_cons_of_mem _ hother)
      have hput : putGroups serialize key (group :: rest) =
          (.ok (((group.head?.map key).getD [], (Chunk.fromBytes data).addr) :: children),
            Chunk.fromBytes data :: (putGroups serialize key rest).2) := by
        simp only [putGroups, hdata, hchildren, Except.map]
      rw [hput]
      refine ⟨_, rfl, .cons ⟨rfl, Chunk.fromBytes data, ⟨List.mem_cons_self, rfl⟩, hdata⟩
        (hrest.imp ?_)⟩
      rintro other child ⟨hkey, chunk, ⟨hmem, haddr⟩, hother⟩
      exact ⟨hkey, chunk, ⟨List.mem_cons_of_mem _ hmem, haddr⟩, hother⟩

variable [Blake3DeriveKey]

omit [Blake3] in
/-- The first key of a group is the key of an item. -/
theorem head_key_mem {patternWidth : Fin 64} {items group : List α}
    (h : group ∈ splitAtBoundaries key patternWidth items) :
    ∃ item ∈ items, (group.head?.map key).getD [] = key item := by
  cases group with
  | nil => exact absurd rfl (ne_nil_of_mem_splitAtBoundaries h)
  | cons first rest =>
      have hitems : (splitAtBoundaries key patternWidth items).flatten = items :=
        flatten_splitAtBoundaries items
      refine ⟨first, ?_, rfl⟩
      rw [← hitems]
      exact List.mem_flatten.mpr ⟨_, h, List.mem_cons_self⟩

omit [Blake3] in
/-- Items of groups are items. -/
theorem mem_of_mem_splitAtBoundaries {patternWidth : Fin 64} {items group : List α} {item : α}
    (hgroup : group ∈ splitAtBoundaries key patternWidth items) (h : item ∈ group) :
    item ∈ items := by
  have hitems : (splitAtBoundaries key patternWidth items).flatten = items :=
    flatten_splitAtBoundaries items
  rw [← hitems]
  exact List.mem_flatten.mpr ⟨group, hgroup, h⟩

omit [Blake3] in
/-- Groups are short enough for a count in four bytes. -/
theorem length_lt_of_mem_splitAtBoundaries {patternWidth : Fin 64} {items group : List α}
    (h : group ∈ splitAtBoundaries key patternWidth items) : group.length < 2 ^ 32 := by
  have hlength := length_le_of_mem_splitAtBoundaries h
  unfold maxChunkSize at hlength
  omega

omit [Blake3] in
/-- The separators of a level are keys of the level below. -/
theorem sized_separators {patternWidth : Fin 64} {items : List α} {children : List Child}
    {G : List α → Child → Prop} (hitems : ∀ item ∈ items, (key item).length < 2 ^ 32)
    (h : List.Forall₂ (fun group (child : Child) => child.1 = (group.head?.map key).getD [] ∧
      G group child) (splitAtBoundaries key patternWidth items) children) :
    ∀ child ∈ children, child.1.length < 2 ^ 32 := by
  intro child hchild
  obtain ⟨group, hgroup, hseparator, -⟩ := exists_of_forall₂ h hchild
  obtain ⟨item, hitem, hkey⟩ := head_key_mem hgroup
  rw [hseparator, hkey]
  exact hitems item hitem

/-- The levels above a level of trees hold one tree with the same entries. -/
theorem buildInternalNodes_ok {has : Hash → Chunk → Prop} (patternWidth : Fin 64) (level : UInt8)
    {children : List Child} (hne : children ≠ []) {n : Nat} {trees : List (Tree n)}
    (htrees : List.Forall₂ (fun tree (child : Child) => Holds has tree child.2) trees children)
    (hsized : ∀ child ∈ children, child.1.length < 2 ^ 32) :
    ∃ (m : Nat) (tree : Tree m) (root : Hash),
      (buildInternalNodes patternWidth level children hne).1 = .ok root ∧
      tree.entries = trees.flatMap Tree.entries ∧
      Holds (fun addr chunk => has addr chunk ∨
        listed (buildInternalNodes patternWidth level children hne).2 addr chunk) tree root := by
  induction hlength : children.length using Nat.strong_induction_on
    generalizing children level n has with
  | _ length ih =>
      subst hlength
      rw [buildInternalNodes]
      split
      case isTrue hone =>
          obtain ⟨child, rfl⟩ := List.length_eq_one_iff.mp hone
          cases htrees with
          | cons htree hnil =>
              cases hnil
              refine ⟨n, _, child.2, rfl, by simp, htree.mono fun addr chunk h => .inl h⟩
      case isFalse hmany =>
          -- a level is put group by group, and the level above it is shorter
          have hgroups : ∀ group ∈ splitAtBoundaries Prod.fst patternWidth children,
              ∃ data, serializeInternalChunk level group = .ok data := by
            intro group hgroup
            refine exists_serializeInternalChunk (length_lt_of_mem_splitAtBoundaries hgroup) ?_
            intro child hchild
            exact hsized child (mem_of_mem_splitAtBoundaries hgroup hchild)
          obtain ⟨next, hnext, hput⟩ :=
            @putGroups_ok _ _ (serializeInternalChunk level) Prod.fst _ hgroups
          have hchildren : (splitAtBoundaries Prod.fst patternWidth children).flatten = children :=
            flatten_splitAtBoundaries children
          rw [← hchildren] at htrees
          obtain ⟨parts, hparts, hgrouped⟩ := forall₂_flatten htrees
          simp only
          split
          case h_1 e herror =>
              rw [hnext] at herror
              cases herror
          case h_2 found hfound =>
              obtain rfl : next = found := Except.ok.inj (hnext.symm.trans hfound)
              have hlevel : List.Forall₂ (fun tree (child : Child) => Holds (fun addr chunk =>
                  has addr chunk ∨ listed (putGroups (serializeInternalChunk level) Prod.fst
                    (splitAtBoundaries Prod.fst patternWidth children)).2 addr chunk)
                  (tree : Tree (n + 1)) child.2) parts next := by
                refine forall₂_trans ?_ hgrouped hput
                rintro part group child hpart ⟨-, chunk, hchunk, hdata⟩
                exact ⟨chunk, level, group, .inr hchunk, hdata,
                  hpart.imp fun _ _ hheld => hheld.mono fun _ _ => .inl⟩
              obtain ⟨m, tree, root, hroot, hentries, hheld⟩ :=
                ih next.length ((length_putGroups_split hne hnext).2 hmany)
                  (if level = 255 then 255 else level + 1) (length_putGroups_split hne hnext).1
                  hlevel (sized_separators hsized hput) rfl
              refine ⟨m, tree, root, hroot, ?_, hheld.mono ?_⟩
              · rw [hentries, ← hparts, ← List.flatMap_id, List.flatMap_assoc]
                rfl
              · rintro addr chunk ((h | ⟨hmem, haddr⟩) | ⟨hmem, haddr⟩)
                · exact .inl h
                · exact .inr ⟨List.mem_append_left _ hmem, haddr⟩
                · exact .inr ⟨List.mem_append_right _ hmem, haddr⟩

/-- A build returns a root, and the chunks that it puts hold a tree with the entries of the map. -/
theorem buildWrites_ok {kvs : OrdMap Bytes Bytes} (patternWidth : Fin 64)
    (hsized : ∀ entry ∈ kvs.toList, Sized entry) :
    ∃ (n : Nat) (tree : Tree n) (root : Hash), (buildWrites kvs patternWidth).1 = .ok root ∧
      tree.entries = kvs.toList ∧ Holds (listed (buildWrites kvs patternWidth).2) tree root := by
  have hkeys := OrdMap.pairwise_keys_toList kvs
  unfold buildWrites
  split
  case isTrue hempty =>
      obtain ⟨data, hdata⟩ := @exists_serializeLeafChunk [] (by simp) (by simp)
      rw [hdata]
      exact ⟨0, [], _, rfl, hempty.symm, Chunk.fromBytes data, ⟨List.mem_cons_self, rfl⟩,
        hdata, .nil⟩
  case isFalse hempty =>
      have hentries : (splitAtBoundaries Prod.fst patternWidth kvs.toList).flatten = kvs.toList :=
        flatten_splitAtBoundaries kvs.toList
      have hgroups : ∀ group ∈ splitAtBoundaries Prod.fst patternWidth kvs.toList,
          ∃ data, serializeLeafChunk group = .ok data := by
        intro group hgroup
        refine exists_serializeLeafChunk (length_lt_of_mem_splitAtBoundaries hgroup) ?_
        intro entry hentry
        exact hsized entry (mem_of_mem_splitAtBoundaries hgroup hentry)
      obtain ⟨leaves, hleaves, hput⟩ := @putGroups_ok _ _ serializeLeafChunk Prod.fst _ hgroups
      simp only
      split
      case h_1 e herror =>
          rw [hleaves] at herror
          cases herror
      case h_2 found hfound =>
          obtain rfl : leaves = found := Except.ok.inj (hleaves.symm.trans hfound)
          have hlevel : List.Forall₂ (fun tree (child : Child) =>
              Holds (listed (putGroups serializeLeafChunk Prod.fst
                (splitAtBoundaries Prod.fst patternWidth kvs.toList)).2) (tree : Tree 0) child.2)
              (splitAtBoundaries Prod.fst patternWidth kvs.toList) leaves := by
            rw [← hentries] at hkeys
            have hsorted : List.Forall₂ (fun leaf group => leaf = group ∧
                group.Pairwise fun (a b : KvEntry) => a.1 < b.1)
                (splitAtBoundaries Prod.fst patternWidth kvs.toList)
                (splitAtBoundaries Prod.fst patternWidth kvs.toList) :=
              List.forall₂_same.mpr fun group hgroup =>
                ⟨rfl, (List.pairwise_flatten.mp hkeys).1 group hgroup⟩
            refine forall₂_trans ?_ hsorted hput
            rintro leaf group child ⟨rfl, hleaf⟩ ⟨-, chunk, hchunk, hdata⟩
            exact ⟨chunk, hchunk, hdata, hleaf⟩
          obtain ⟨m, tree, root, hroot, htree, hheld⟩ := buildInternalNodes_ok patternWidth 1
            (length_putGroups_split hempty hleaves).1 hlevel (sized_separators
              (fun entry hentry => (hsized entry hentry).1) hput)
          refine ⟨m, tree, root, hroot, ?_, hheld.mono ?_⟩
          · rw [htree]
            exact List.flatMap_id.trans hentries
          · rintro addr chunk (⟨hmem, haddr⟩ | ⟨hmem, haddr⟩)
            · exact ⟨List.mem_append_left _ hmem, haddr⟩
            · exact ⟨List.mem_append_right _ hmem, haddr⟩

end Build

end Ferratomic.Prolly
