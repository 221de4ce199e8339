import Ferratomic.Keys
import Ferratomic.Lib.Eytzinger
import Ferratomic.Lib.SortByKey
import Ferratomic.Positions

/-!
# Permutation indexes

The AEVT, VAET and AVET lookups search permutations of the array that are laid out as trees. The
main theorems are `layoutToSorted_layoutPermutation`, which recovers every permutation from its
layout, and `eytzinger_lookup`: within the position space each lookup returns the datom with the
key.
-/

namespace Ferratomic

open Lib

section Layout

/-- `build_permutation`: the positions of the array, sorted by the keys of their datoms. -/
def buildPermutation {κ : Type} [LinearOrder κ] (canonical : List Datom) (keyFn : Datom → κ) :
    List Nat :=
  let perm : List (Fin canonical.length) := (List.finRange canonical.length).map fun i =>
    ⟨saturate i.val, Nat.lt_of_le_of_lt (saturate_le i.val) i.isLt⟩
  (sortByKey (fun i => keyFn (canonical.get i)) perm).map Fin.val

/-- Put the next element at a node, if there is one. -/
def fillNode (sorted : List Nat) : List Nat × Nat → Nat → List Nat × Nat
  | (bfs, src), node =>
      match sorted[src]? with
      | some pos => (bfs.set node pos, src + 1)
      | none => (bfs, src)

/-- `fill_bfs`: the left subtree, the node and the right subtree. The length of the array, which
filling keeps, is a parameter. -/
def fillBfs (sorted : List Nat) (length : Nat) (filled : List Nat × Nat) (node : Nat) :
    List Nat × Nat :=
  if length ≤ node ∨ node = 0 then filled
  else
    let filled := fillBfs sorted length filled (2 * node)
    let filled := fillNode sorted filled node
    fillBfs sorted length filled (2 * node + 1)
termination_by length - node

/-- `layout_permutation` -/
def layoutPermutation (sorted : List Nat) : List Nat :=
  let n := sorted.length
  (fillBfs sorted (n + 1) (List.replicate (n + 1) u32Max, 0) 1).1

/-- `inorder_collect` -/
def inorderCollect (bfs out : List Nat) (node : Nat) : List Nat :=
  if h : bfs.length ≤ node ∨ node = 0 then out
  else
    let out := inorderCollect bfs out (2 * node)
    let out := out ++ [bfs[node]]
    inorderCollect bfs out (2 * node + 1)
termination_by bfs.length - node

/-- `layout_to_sorted` -/
def layoutToSorted (bfsPerm : List Nat) : List Nat :=
  inorderCollect bfsPerm [] 1

/-- The datom whose position stands at a node. -/
def readNode (bfsPerm : List Nat) (canonical : List Datom) (node : Nat) : Except Fault Datom := do
  let pos ← index bfsPerm node
  index canonical pos

/-- `layout_search` -/
def layoutSearch (bfsPerm : List Nat) (canonical : List Datom) (cmpFn : Datom → Ordering) :
    Except Fault (Option Datom) :=
  let n := bfsPerm.length - 1
  if n = 0 then .ok none else treeSearch (readNode bfsPerm canonical) cmpFn (n + 1) 1

/-- `aevt_get` -/
def aevtGet (canonical : List Datom) (key : AevtKey) : Except Fault (Option Datom) :=
  layoutSearch (layoutPermutation (buildPermutation canonical AevtKey.fromDatom)) canonical
    fun d => (key.cmpDatom d).swap

/-- `vaet_get` -/
def vaetGet (canonical : List Datom) (key : VaetKey) : Except Fault (Option Datom) :=
  layoutSearch (layoutPermutation (buildPermutation canonical VaetKey.fromDatom)) canonical
    fun d => (key.cmpDatom d).swap

/-- `avet_get` -/
def avetGet (canonical : List Datom) (key : AvetKey) : Except Fault (Option Datom) :=
  layoutSearch (layoutPermutation (buildPermutation canonical AvetKey.fromDatom)) canonical
    fun d => (key.cmpDatom d).swap

end Layout

section Fill

variable {sorted : List Nat}

/-- Filling visits the nodes of the subtree from the left to the right. -/
theorem fillBfs_eq (length : Nat) (filled : List Nat × Nat) (node : Nat) :
    fillBfs sorted length filled node =
      (inorder length node).foldl (fillNode sorted) filled := by
  fun_induction fillBfs sorted length filled node with
  | case1 filled node hstop => rw [inorder, if_pos hstop, List.foldl_nil]
  | case2 filled node hgo left here ihleft ihright =>
      rw [inorder, if_neg hgo, List.foldl_append, List.foldl_cons, ← ihleft, ihright]

/-- Filling different nodes puts the elements at them in order. -/
theorem foldl_fillNode {nodes rest bfs : List Nat} {src : Nat} (hnodup : nodes.Nodup)
    (hbound : ∀ node ∈ nodes, node < bfs.length) (hrest : sorted.drop src = rest)
    (hlength : rest.length = nodes.length) :
    (nodes.foldl (fillNode sorted) (bfs, src)).1.length = bfs.length ∧
      (∀ node, node ∉ nodes → (nodes.foldl (fillNode sorted) (bfs, src)).1[node]? = bfs[node]?) ∧
      List.Forall₂ (fun pos node => (nodes.foldl (fillNode sorted) (bfs, src)).1[node]? = some pos)
        rest nodes := by
  induction nodes generalizing rest bfs src with
  | nil =>
      rw [List.length_eq_zero_iff.mp hlength]
      exact ⟨rfl, fun node _ => rfl, .nil⟩
  | cons node nodes ih =>
      obtain ⟨hfresh, hnodup⟩ := List.nodup_cons.mp hnodup
      cases rest with
      | nil => cases hlength
      | cons pos rest =>
          -- the node takes the next position, and no later node is the same
          have hnext : sorted[src]? = some pos := by
            rw [← List.head?_drop, hrest, List.head?_cons]
          have hrest' : sorted.drop (src + 1) = rest := by
            rw [← List.tail_drop, hrest, List.tail_cons]
          have hstep : fillNode sorted (bfs, src) node = (bfs.set node pos, src + 1) := by
            simp only [fillNode, hnext]
          have hbound' : ∀ m ∈ nodes, m < (bfs.set node pos).length := by
            intro m hm
            rw [List.length_set]
            exact hbound m (List.mem_cons_of_mem _ hm)
          obtain ⟨hlen, hother, hplaced⟩ := ih hnodup hbound' hrest' (Nat.succ_inj.mp hlength)
          rw [List.foldl_cons, hstep]
          refine ⟨hlen.trans List.length_set, fun m hm => ?_, .cons ?_ hplaced⟩
          · rw [List.mem_cons, not_or] at hm
            rw [hother m hm.2, List.getElem?_set_ne (Ne.symm hm.1)]
          · rw [hother node hfresh, List.getElem?_set_self (hbound node List.mem_cons_self)]

/-- The layout holds the elements at the nodes of the tree in order. -/
theorem layoutPermutation_spec (sorted : List Nat) :
    (layoutPermutation sorted).length = sorted.length + 1 ∧
      List.Forall₂ (fun pos node => (layoutPermutation sorted)[node]? = some pos) sorted
        (inorder (sorted.length + 1) 1) := by
  have hperm := perm_inorder sorted.length
  have hbound : ∀ node ∈ inorder (sorted.length + 1) 1,
      node < (List.replicate (sorted.length + 1) u32Max).length := by
    intro node hnode
    rw [List.length_replicate]
    have hrange := List.mem_range'_1.mp (hperm.mem_iff.mp hnode)
    omega
  have hlength : sorted.length = (inorder (sorted.length + 1) 1).length := by
    rw [hperm.length_eq, List.length_range']
  obtain ⟨hlen, -, hplaced⟩ :=
    foldl_fillNode (nodup_inorder _ _) hbound (List.drop_zero : sorted.drop 0 = sorted) hlength
  rw [layoutPermutation, fillBfs_eq]
  exact ⟨hlen.trans List.length_replicate, hplaced⟩

end Fill

/-- Collecting reads the nodes of the subtree from the left to the right. -/
theorem inorderCollect_eq (bfs out : List Nat) (node : Nat) :
    inorderCollect bfs out node =
      out ++ (inorder bfs.length node).filterMap fun m => bfs[m]? := by
  fun_induction inorderCollect bfs out node with
  | case1 out node hstop => rw [inorder, if_pos hstop, List.filterMap_nil, List.append_nil]
  | case2 out node hgo left here ihleft ihright =>
      have hnode : bfs[node]? = some bfs[node] := List.getElem?_eq_getElem (by omega)
      have hsplit : inorder bfs.length node = _ := inorder_of_lt (by omega) (by omega)
      rw [ihright, hsplit, List.filterMap_append, List.filterMap_cons_some hnode]
      simp only [here, left, ihleft, List.append_assoc, List.singleton_append]

/-- Every sequence is recovered from its layout. -/
theorem layoutToSorted_layoutPermutation (sorted : List Nat) :
    layoutToSorted (layoutPermutation sorted) = sorted := by
  obtain ⟨hlength, hplaced⟩ := layoutPermutation_spec sorted
  rw [layoutToSorted, inorderCollect_eq, List.nil_append, hlength,
    filterMap_eq_of_forall₂ hplaced]

section Lookup

variable {κ : Type} [LinearOrder κ] {keyFn : Datom → κ} {canonical : List Datom}

/-- The lookup of a key returns the datom with that key, and none if there is none. -/
def Retrieves (keyFn : Datom → κ) (canonical : List Datom)
    (get : κ → Except Fault (Option Datom)) : Prop :=
  ∀ key, ∃ result, get key = .ok result ∧
    ∀ d, result = some d ↔ d ∈ canonical ∧ keyFn d = key

/-- Within the position space the permutation lists the datoms in the order of their keys. -/
theorem map_buildPermutation (hlength : canonical.length ≤ u32Max + 1) :
    List.Forall₂ (fun d pos => canonical[pos]? = some d) (sortByKey keyFn canonical)
      (buildPermutation canonical keyFn) := by
  have hperm : ((List.finRange canonical.length).map fun i =>
      (⟨saturate i.val, Nat.lt_of_le_of_lt (saturate_le i.val) i.isLt⟩ : Fin canonical.length)) =
      List.finRange canonical.length := by
    refine (List.map_congr_left fun i _ => ?_).trans (List.map_id _)
    exact Fin.ext (saturate_eq hlength i.isLt)
  have hsorted : sortByKey keyFn canonical =
      (sortByKey (fun i => keyFn (canonical.get i)) (List.finRange canonical.length)).map
        canonical.get := by
    have hmap := @sortByKey_map _ _ _ keyFn _ canonical.get (List.finRange canonical.length)
    rwa [← List.ofFn_eq_map, List.ofFn_get] at hmap
  rw [buildPermutation, hperm, hsorted, List.forall₂_map_left_iff, List.forall₂_map_right_iff]
  exact List.forall₂_same.mpr fun i _ => List.getElem?_eq_getElem i.isLt

/-- The keys of an array ascend in their order. -/
theorem pairwise_sortByKey_lt (hsorted : canonical.Pairwise (· < ·))
    (hinj : Function.Injective keyFn) :
    (sortByKey keyFn canonical).Pairwise fun d d' => keyFn d < keyFn d' := by
  have hnodup : (canonical.map keyFn).Nodup := List.Nodup.map hinj (hsorted.imp fun hlt => hlt.ne)
  exact (repeatsKey_eq_false (pairwise_sortByKey canonical)).mp
    ((repeatsKey_sortByKey canonical).mpr hnodup)

/-- The search of the layout finds the datom with the key. -/
theorem layoutSearch_retrieves {cmpDatom : κ → Datom → Ordering}
    (hsorted : canonical.Pairwise (· < ·)) (hlength : canonical.length ≤ u32Max + 1)
    (hinj : Function.Injective keyFn)
    (hcmp : ∀ key d, cmpDatom key d = ordCmp key (keyFn d)) :
    Retrieves keyFn canonical fun key =>
      layoutSearch (layoutPermutation (buildPermutation canonical keyFn)) canonical
        fun d => (cmpDatom key d).swap := by
  intro key
  obtain ⟨hlen, hplaced⟩ := layoutPermutation_spec (buildPermutation canonical keyFn)
  have hperm : List.Forall₂ _ (sortByKey keyFn canonical) _ := map_buildPermutation hlength
  have hread : List.Forall₂ (fun d node =>
      readNode (layoutPermutation (buildPermutation canonical keyFn)) canonical node = .ok d)
      (sortByKey keyFn canonical) (inorder ((buildPermutation canonical keyFn).length + 1) 1) := by
    refine forall₂_trans (fun d pos node hd hpos => ?_) hperm hplaced
    rw [readNode, index_eq hpos, ok_bind, index_eq hd]
  have hascends : Ascends (fun d => (cmpDatom key d).swap) (sortByKey keyFn canonical) := by
    simp only [hcmp]
    exact ascends_ordCmp (pairwise_sortByKey_lt hsorted hinj) key
  obtain ⟨result, hresult, hspec⟩ := treeSearch_spec hread hascends
  refine ⟨result, ?_, fun d => ?_⟩
  · simp only [layoutSearch, hlen, Nat.add_sub_cancel]
    split
    case isTrue hzero =>
      rw [hzero, treeSearch, if_pos (.inl le_rfl)] at hresult
      exact hresult
    case isFalse => exact hresult
  · rw [hspec d, (perm_sortByKey canonical).mem_iff, hcmp, swap_ordCmp_eq_iff]

/-- Lookups return datoms that have a position. -/
theorem position_of_layoutSearch {cmpFn : Datom → Ordering} {d : Datom}
    (h : layoutSearch (layoutPermutation (buildPermutation canonical keyFn)) canonical cmpFn =
      .ok (some d)) :
    ∃ pos ≤ u32Max, canonical[pos]? = some d := by
  obtain ⟨hlen, hplaced⟩ := layoutPermutation_spec (buildPermutation canonical keyFn)
  simp only [layoutSearch, hlen, Nat.add_sub_cancel] at h
  split at h
  case isTrue => cases h
  case isFalse =>
      obtain ⟨node, hnode, hread⟩ := read_of_treeSearch h
      obtain ⟨pos, hpos, hplace⟩ := exists_of_forall₂ hplaced hnode
      rw [readNode, index_eq hplace, ok_bind] at hread
      have hmax : pos ≤ u32Max := by
        obtain ⟨i, hi, rfl⟩ := List.mem_map.mp hpos
        obtain ⟨j, -, rfl⟩ := List.mem_map.mp ((perm_sortByKey _).mem_iff.mp hi)
        exact saturate_le_max j.val
      refine ⟨pos, hmax, ?_⟩
      cases hget : canonical[pos]? with
      | none =>
          rw [index, hget] at hread
          cases hread
      | some d' =>
          rw [index_eq hget] at hread
          cases hread
          rfl

/-- Layouts are inverted, and within the position space the lookups find the datoms by key. -/
theorem eytzinger_lookup (hsorted : canonical.Pairwise (· < ·))
    (hlength : canonical.length ≤ u32Max + 1) :
    (∀ sorted, layoutToSorted (layoutPermutation sorted) = sorted) ∧
      Retrieves AevtKey.fromDatom canonical (aevtGet canonical) ∧
      Retrieves VaetKey.fromDatom canonical (vaetGet canonical) ∧
      Retrieves AvetKey.fromDatom canonical (avetGet canonical) :=
  ⟨layoutToSorted_layoutPermutation,
    layoutSearch_retrieves hsorted hlength AevtKey.fromDatom_injective AevtKey.cmpDatom_eq,
    layoutSearch_retrieves hsorted hlength VaetKey.fromDatom_injective VaetKey.cmpDatom_eq,
    layoutSearch_retrieves hsorted hlength AvetKey.fromDatom_injective AvetKey.cmpDatom_eq⟩

end Lookup

open Sample

/-- A tree of four nodes has a node below its second level. -/
theorem eytzinger_lookup_linked :
    layoutToSorted (layoutPermutation [3, 1, 0, 2]) = [3, 1, 0, 2] ∧
      aevtGet (linkedUpTo 4) (AevtKey.fromDatom (linked 3)) = .ok (some (linked 3)) ∧
      vaetGet (linkedUpTo 4) (VaetKey.fromDatom (linked 4)) = .ok none := by
  have hlength : (linkedUpTo 4).length ≤ u32Max + 1 := by
    rw [length_linkedUpTo (by decide)]
    decide
  obtain ⟨hlayout, haevt, hvaet, -⟩ := eytzinger_lookup (sorted_linkedUpTo 4) hlength
  obtain ⟨found, hfound, hspec⟩ := haevt (AevtKey.fromDatom (linked 3))
  obtain ⟨absent, habsent, hspec'⟩ := hvaet (VaetKey.fromDatom (linked 4))
  refine ⟨hlayout _, ?_, ?_⟩
  · rw [hfound, (hspec (linked 3)).mpr ⟨mem_linkedUpTo.mpr ⟨3, by decide, rfl⟩, rfl⟩]
  · have hnone : absent = none := by
      refine Option.eq_none_iff_forall_ne_some.mpr fun d hd => ?_
      obtain ⟨hmem, hkey⟩ := (hspec' d).mp hd
      rw [VaetKey.fromDatom_injective hkey] at hmem
      obtain ⟨number, hlt, heq⟩ := mem_linkedUpTo.mp hmem
      have hnumber := numberedEntity_inj (by omega) (by decide) (congrArg Datom.entity heq)
      omega
    rw [habsent, hnone]

/-- Beyond the position space a datom is not found. -/
theorem aevtGet_beyond :
    (linkedUpTo (u32Max + 2)).Pairwise (· < ·) ∧
      ¬ Retrieves AevtKey.fromDatom (linkedUpTo (u32Max + 2))
        (aevtGet (linkedUpTo (u32Max + 2))) := by
  have hsorted := sorted_linkedUpTo (u32Max + 2)
  have hlast : u32Max + 1 < (linkedUpTo (u32Max + 2)).length := by
    rw [length_linkedUpTo (by decide)]
    omega
  refine ⟨hsorted, fun h => ?_⟩
  obtain ⟨result, hresult, hspec⟩ :=
    h (AevtKey.fromDatom ((linkedUpTo (u32Max + 2)).get ⟨u32Max + 1, hlast⟩))
  rw [(hspec _).mpr ⟨List.get_mem _ _, rfl⟩] at hresult
  obtain ⟨pos, hmax, hpos⟩ := position_of_layoutSearch hresult
  obtain ⟨hlt, heq⟩ := List.getElem?_eq_some_iff.mp hpos
  have hbefore := List.pairwise_iff_getElem.mp hsorted pos (u32Max + 1) hlt hlast (by omega)
  rw [heq] at hbefore
  exact lt_irrefl _ hbefore

end Ferratomic
